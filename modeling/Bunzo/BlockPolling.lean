import Bunzo.ChainWatcher
import Bunzo.ReachableStates

/-!
# The watcher's walk over new blocks

A poll asks for the head and walks from the block after `lastBlock` to it.  For
each block the watcher stores the base fee, looks for a reorganisation, goes
through the logs, remembers the block and publishes it.  `lastBlock` moves at
the end of the walk.

* `BlockWatcher.poll` — one poll, with the answers of the node.
* `EvmChain` — a chain of linked blocks, and the node that never fails.
* `Covers` — each block of the chain above the start and up to `lastBlock` was
  scanned, as the block it is now.
* `covers_along_iff` — every poll that saw a new head ends so exactly on the
  runs in which the chain keeps the blocks that were scanned.
* `replaced_block_unscanned` — a reorganisation of depth one.
-/

namespace Bunzo

open ReachableStates

/-- What the watcher reads of a block, and the logs in it by address and first
topic. -/
structure ChainBlock where
  hash : B256
  parentHash : B256
  baseFeePerGas : Option U64
  timestamp : U64
  logs : Address → B256 → List Log

/-- What the watcher publishes. -/
inductive ChainEvent where
  | newBlock (number : U64) (hash : B256) (baseFee : U128) (timestamp : U64)
  | reorg (depth newHead : U64)
deriving DecidableEq

/-- A block of the history. -/
structure BlockEntry where
  number : U64
  hash : B256
  baseFee : U128
deriving DecidableEq

/-- The answers of a node to the questions of one poll. -/
structure Provider where
  getBlockNumber : Except ProviderError U64
  getBlock : U64 → Except ProviderError (Option ChainBlock)
  getLogs : Filter → Except ProviderError (List Log)

/-- The watcher with its history, newest block last, the base fee it shares and
the events it has published. -/
structure BlockWatcher extends ChainWatcher where
  published : List ChainEvent
  baseFee : U64
  blockHistory : List BlockEntry
  lastBlock : U64

/-- The numbers after one block, up to another. -/
def blockNumbers (after upTo : U64) : List U64 :=
  (List.range' (after.toNat + 1) (upTo.toNat - after.toNat)).map (BitVec.ofNat 64)

/-- The node has no block of a number that it announced. -/
def blockNotFound (number : U64) : ProviderError :=
  .invalidResponse [.text "block ", .number number.toNat, .text " not found"]

namespace BlockWatcher

/-- Publish one event, after those published before. -/
def publish (w : BlockWatcher) (event : ChainEvent) : BlockWatcher :=
  { w with published := w.published ++ [event] }

/-- How many entries of the history are newer than the one with the hash; all of
them, if there is none. -/
def detectReorgDepth (w : BlockWatcher) (newParentHash : B256) : U64 :=
  match w.blockHistory.reverse.findIdx? (fun entry => entry.hash = newParentHash) with
  | some i => BitVec.ofNat 64 i
  | none => BitVec.ofNat 64 w.blockHistory.length

/-- Forget the newest entries, and go back to what is left, if anything is. -/
def handleReorg (w : BlockWatcher) (depth : U64) : BlockWatcher :=
  let history := w.blockHistory.take (w.blockHistory.length - depth.toNat)
  { w with
    blockHistory := history
    lastBlock := match history.getLast? with
      | some last => last.number
      | none => w.lastBlock }

/-- A block that follows the newest entry by number and not by hash. -/
def noticeReorg (w : BlockWatcher) (blockNumber : U64) (block : ChainBlock) : BlockWatcher :=
  match w.blockHistory.getLast? with
  | none => w
  | some last =>
      if block.parentHash ≠ last.hash ∧ blockNumber = last.number + 1 then
        let depth := w.detectReorgDepth block.parentHash
        if 0 < depth then (w.handleReorg depth).publish (.reorg depth blockNumber) else w
      else w

/-- Share the base fee of a block, zero before there was one. -/
def storeBaseFee (w : BlockWatcher) (block : ChainBlock) : BlockWatcher :=
  { w with baseFee := block.baseFeePerGas.getD 0 }

/-- Remember a block, within the size of the history, and publish it. -/
def recordBlock (w : BlockWatcher) (blockNumber : U64) (block : ChainBlock) : BlockWatcher :=
  let baseFee := (block.baseFeePerGas.getD 0).setWidth 128
  let history := w.blockHistory ++
    [{ number := blockNumber, hash := block.hash, baseFee := baseFee }]
  let kept := history.drop (history.length - w.chainSpec.chainHistorySize.toNat)
  publish { w with blockHistory := kept }
    (.newBlock blockNumber block.hash baseFee block.timestamp)

section Polls

variable [Keccak]

/-- The logs of a block, as far as the node gives them. -/
def scanBlock (w : BlockWatcher) (provider : Provider) (blockNumber : U64) :
    Except ProviderError Unit × BlockWatcher :=
  let scanned := w.toChainWatcher.scanUserOpEvents provider.getLogs blockNumber
  (scanned.1, { w with toChainWatcher := scanned.2 })

/-- The base fee is shared, a reorganisation noticed and the logs scanned before the
block is remembered.  A failure in between leaves the parts already done. -/
def processBlock (w : BlockWatcher) (provider : Provider) (blockNumber : U64) :
    Except ProviderError Unit × BlockWatcher :=
  match provider.getBlock blockNumber with
  | .error e => (.error e, w)
  | .ok none => (.error (blockNotFound blockNumber), w)
  | .ok (some block) =>
      match ((w.storeBaseFee block).noticeReorg blockNumber block).scanBlock provider
        blockNumber with
      | (.error e, w) => (.error e, w)
      | (.ok (), w) => (.ok (), w.recordBlock blockNumber block)

/-- Block after block, until one fails. -/
def processBlocks (provider : Provider) :
    List U64 → BlockWatcher → Except ProviderError Unit × BlockWatcher
  | [], w => (.ok (), w)
  | number :: numbers, w =>
      match w.processBlock provider number with
      | (.error e, w) => (.error e, w)
      | (.ok (), w) => processBlocks provider numbers w

/-- One poll. -/
def poll (w : BlockWatcher) (provider : Provider) : Except ProviderError Unit × BlockWatcher :=
  match provider.getBlockNumber with
  | .error e => (.error e, w)
  | .ok currentBlock =>
      if currentBlock ≤ w.lastBlock then (.ok (), w)
      else
        match processBlocks provider (blockNumbers w.lastBlock currentBlock) w with
        | (.error e, w) => (.error e, w)
        | (.ok (), w) => (.ok (), { w with lastBlock := currentBlock })

/-- The head, when the watcher starts, is where it starts from. -/
def start (w : BlockWatcher) (answer : Except ProviderError U64) : BlockWatcher :=
  match answer with
  | .ok number => { w with lastBlock := number }
  | .error _ => w

/-- The blocks that a walk goes through to their end, their logs included. -/
def walked (provider : Provider) : List U64 → BlockWatcher → List U64
  | [], _ => []
  | number :: numbers, w =>
      match w.processBlock provider number with
      | (.error _, _) => []
      | (.ok (), w) => number :: walked provider numbers w

/-- The blocks that a poll goes through. -/
def polled (w : BlockWatcher) (provider : Provider) : List U64 :=
  match provider.getBlockNumber with
  | .error _ => []
  | .ok currentBlock =>
      if currentBlock ≤ w.lastBlock then []
      else walked provider (blockNumbers w.lastBlock currentBlock) w

end Polls

end BlockWatcher

/-! ## What a walk does -/

section Walks

variable {after upTo n : U64}

/-- A walk meets the blocks above its start, up to its end. -/
theorem mem_blockNumbers : n ∈ blockNumbers after upTo ↔ after < n ∧ n ≤ upTo := by
  simp only [blockNumbers, List.mem_map, List.mem_range'_1, BitVec.lt_def, BitVec.le_def]
  have hafter := after.isLt
  have hupTo := upTo.isLt
  refine ⟨?_, ?_⟩
  · intro h
    obtain ⟨k, hk, rfl⟩ := h
    rw [BitVec.toNat_ofNat, Nat.mod_eq_of_lt (by omega)]
    omega
  · intro h
    exact ⟨n.toNat, by omega, by rw [BitVec.ofNat_toNat, BitVec.setWidth_eq]⟩

end Walks

/-! ## A chain of linked blocks -/

/-- The blocks by number, from the first one on.  Each block names the hash of
the one before. -/
structure EvmChain where
  blocks : List ChainBlock
  nonempty : 0 < blocks.length
  length_le : blocks.length ≤ 2 ^ 64
  linked : blocks.IsChain (fun a b => b.parentHash = a.hash)

namespace EvmChain

variable (chain : EvmChain)

/-- The number of the last block. -/
def head : U64 := BitVec.ofNat 64 (chain.blocks.length - 1)

/-- The logs of the blocks that a filter asks for. -/
def logsOf (filter : Filter) : List Log :=
  ((chain.blocks.drop filter.fromBlock.toNat).take
    (filter.toBlock.toNat + 1 - filter.fromBlock.toNat)).flatMap
      (fun block => block.logs filter.address filter.eventSignature)

/-- A node that has the chain and never fails. -/
def provider : Provider where
  getBlockNumber := .ok chain.head
  getBlock number := .ok chain.blocks[number.toNat]?
  getLogs filter := .ok (chain.logsOf filter)

/-- Every block but the first names the one before it. -/
theorem parentHash_eq {n : Nat} {a b : ChainBlock} (ha : chain.blocks[n]? = some a)
    (hb : chain.blocks[n + 1]? = some b) : b.parentHash = a.hash := by
  obtain ⟨hn, rfl⟩ := List.getElem?_eq_some_iff.mp ha
  obtain ⟨hn', rfl⟩ := List.getElem?_eq_some_iff.mp hb
  exact List.isChain_iff_getElem.mp chain.linked n hn'

/-- The head is the last block. -/
theorem toNat_head : chain.head.toNat = chain.blocks.length - 1 := by
  have hle := chain.length_le
  have hpos := chain.nonempty
  rw [head, BitVec.toNat_ofNat, Nat.mod_eq_of_lt (by omega)]

/-- Every block up to the head exists. -/
theorem isSome_of_le_head {n : U64} (h : n ≤ chain.head) :
    ∃ block, chain.blocks[n.toNat]? = some block := by
  have hpos := chain.nonempty
  rw [BitVec.le_def, chain.toNat_head] at h
  exact ⟨_, List.getElem?_eq_getElem (by omega)⟩

end EvmChain

namespace BlockWatcher

variable [Keccak] {w : BlockWatcher} {provider : Provider}

/-- A block is processed to its end if the node has it and gives its logs. -/
theorem processBlock_ok {n : U64} {block : ChainBlock}
    (hblock : provider.getBlock n = .ok (some block))
    (hlogs : ∀ filter, ∃ logs, provider.getLogs filter = .ok logs) :
    ∃ w', w.processBlock provider n = (.ok (), w') := by
  unfold processBlock scanBlock ChainWatcher.scanUserOpEvents
  rw [hblock]
  obtain ⟨logs, hlogs⟩ := hlogs
    (((w.storeBaseFee block).noticeReorg n block).toChainWatcher.eventFilter n)
  simp only [hlogs]
  exact ⟨_, rfl⟩

/-- If the node gives every block and its logs, the walk goes to its end. -/
theorem walked_ok {numbers : List U64}
    (hblock : ∀ n ∈ numbers, ∃ block, provider.getBlock n = .ok (some block))
    (hlogs : ∀ filter, ∃ logs, provider.getLogs filter = .ok logs) :
    ∀ w : BlockWatcher, walked provider numbers w = numbers ∧
      (processBlocks provider numbers w).1 = .ok () := by
  induction numbers with
  | nil =>
      intro w
      exact ⟨rfl, rfl⟩
  | cons n numbers ih =>
      intro w
      obtain ⟨block, hn⟩ := hblock n List.mem_cons_self
      obtain ⟨w', hw'⟩ := processBlock_ok (w := w) hn hlogs
      obtain ⟨hwalked, hok⟩ := ih (fun m hm => hblock m (List.mem_cons_of_mem _ hm)) w'
      unfold walked processBlocks
      rw [hw']
      exact ⟨congrArg (n :: ·) hwalked, hok⟩

/-- With a node that never fails, a poll walks to the head. -/
theorem poll_chain (w : BlockWatcher) (chain : EvmChain) (hnew : w.lastBlock < chain.head) :
    (w.poll chain.provider).1 = .ok () ∧ (w.poll chain.provider).2.lastBlock = chain.head ∧
      w.polled chain.provider = blockNumbers w.lastBlock chain.head := by
  have hblock : ∀ n ∈ blockNumbers w.lastBlock chain.head,
      ∃ block, chain.provider.getBlock n = .ok (some block) := by
    intro n hn
    obtain ⟨block, hblock⟩ := chain.isSome_of_le_head (mem_blockNumbers.mp hn).2
    exact ⟨block, congrArg Except.ok hblock⟩
  obtain ⟨hwalked, hok⟩ := walked_ok hblock (fun filter => ⟨_, rfl⟩) w
  have hnumber : chain.provider.getBlockNumber = .ok chain.head := rfl
  have hgt : ¬ chain.head ≤ w.lastBlock := BitVec.not_le.mpr hnew
  unfold poll polled
  simp only [hnumber, hgt, if_false]
  refine ⟨?_, ?_, hwalked⟩
  all_goals
    rcases hrun : processBlocks chain.provider (blockNumbers w.lastBlock chain.head) w with
      ⟨_ | _, w'⟩
    · rw [hrun] at hok
      cases hok
    · rfl

/-- A head that is not above `lastBlock` is not walked to. -/
theorem poll_old_head (w : BlockWatcher) (chain : EvmChain) (hold : chain.head ≤ w.lastBlock) :
    w.poll chain.provider = (.ok (), w) ∧ w.polled chain.provider = [] := by
  have hnumber : chain.provider.getBlockNumber = .ok chain.head := rfl
  unfold poll polled
  simp only [hnumber, hold, if_true, and_self]

end BlockWatcher

/-! ## Polls of a chain that changes -/

/-- The watcher and the chain, with the number it started at, the blocks it has
scanned, and the chain as its last walk saw it. -/
structure WatchedChain where
  watcher : BlockWatcher
  chain : EvmChain
  start : U64
  scanned : Set (Nat × ChainBlock)
  seen : EvmChain

/-- A poll, another chain, what others do to pool and reputation. -/
inductive WatchEvent where
  | poll
  | chain (chain : EvmChain)
  | others (pool : OperationPool) (reputation : ReputationManager)

namespace WatchedChain

section Watching

variable [Keccak]

/-- One event.  The blocks that a poll walks are recorded as scanned, and a chain that
was polled up to its head as seen. -/
def next (s : WatchedChain) : WatchEvent → WatchedChain
  | .poll =>
      { s with
        watcher := (s.watcher.poll s.chain.provider).2
        scanned := s.scanned ∪ {p | ∃ n ∈ s.watcher.polled s.chain.provider,
          p.1 = n.toNat ∧ s.chain.blocks[n.toNat]? = some p.2}
        seen := if s.watcher.lastBlock < s.chain.head then s.chain else s.seen }
  | .chain chain => { s with chain := chain }
  | .others pool reputation =>
      { s with watcher := { s.watcher with pool := pool, reputation := reputation } }

/-- Each block of the chain after the start and up to `lastBlock` was scanned. -/
def Covered (s : WatchedChain) : Prop :=
  ∀ n block, s.start.toNat < n → n ≤ s.watcher.lastBlock.toNat →
    s.chain.blocks[n]? = some block → (n, block) ∈ s.scanned

/-- A poll that saw a new head and succeeded leaves no block unscanned. -/
def Covers (s : WatchedChain) : WatchEvent → Prop
  | .poll => s.watcher.lastBlock < s.chain.head → (s.watcher.poll s.chain.provider).1 = .ok () →
      (s.next .poll).Covered
  | _ => True

end Watching

/-- A poll that sees a new head finds the blocks up to `lastBlock` as the last
walk has left them. -/
def KeepsScanned (s : WatchedChain) : WatchEvent → Prop
  | .poll => s.watcher.lastBlock < s.chain.head → ∀ n, s.start.toNat < n →
      n ≤ s.watcher.lastBlock.toNat → s.chain.blocks[n]? = s.seen.blocks[n]?
  | _ => True

/-- What was scanned are the blocks of the chain as the last walk saw it. -/
def ScannedSeen (s : WatchedChain) : Prop :=
  ∀ n block, (n, block) ∈ s.scanned ↔
    s.start.toNat < n ∧ n ≤ s.watcher.lastBlock.toNat ∧ s.seen.blocks[n]? = some block

end WatchedChain

section Machine

variable [Keccak]

/-- A new watcher, started at the head of its chain. -/
def watchMachine : Machine WatchedChain WatchEvent where
  init s := s.watcher.lastBlock = s.chain.head ∧ s.start = s.chain.head ∧ s.scanned = ∅
  enabled _ _ := True
  next s e := s.next e

/-- The machine moves as `next` says. -/
@[simp] theorem watchMachine_next (s : WatchedChain) (e : WatchEvent) :
    watchMachine.next s e = s.next e := rfl

namespace WatchedChain

variable {s : WatchedChain}

/-- Where the watcher stands after a walk. -/
theorem next_poll_lastBlock (hnew : s.watcher.lastBlock < s.chain.head) :
    (s.next .poll).watcher.lastBlock = s.chain.head :=
  (s.watcher.poll_chain s.chain hnew).2.1

/-- A poll scans the blocks above `lastBlock`, as the chain has them. -/
theorem mem_scanned_next (hnew : s.watcher.lastBlock < s.chain.head) {n : Nat}
    {block : ChainBlock} :
    (n, block) ∈ (s.next .poll).scanned ↔ (n, block) ∈ s.scanned ∨
      (s.watcher.lastBlock.toNat < n ∧ s.chain.blocks[n]? = some block) := by
  have hhead := s.chain.toNat_head
  have hpos := s.chain.nonempty
  change _ ∨ (∃ k ∈ s.watcher.polled s.chain.provider, n = k.toNat ∧ _) ↔ _
  rw [(s.watcher.poll_chain s.chain hnew).2.2]
  apply or_congr_right
  refine ⟨?_, ?_⟩
  · intro h
    obtain ⟨k, hk, rfl, hblock⟩ := h
    exact ⟨(mem_blockNumbers.mp hk).1, hblock⟩
  · intro h
    have hlt : n < s.chain.blocks.length := (List.getElem?_eq_some_iff.mp h.2).1
    have hnumber : (BitVec.ofNat 64 n).toNat = n := by
      have hle := s.chain.length_le
      rw [BitVec.toNat_ofNat, Nat.mod_eq_of_lt (by omega)]
    refine ⟨BitVec.ofNat 64 n, mem_blockNumbers.mpr ⟨?_, ?_⟩, hnumber.symm, ?_⟩
    · rw [BitVec.lt_def, hnumber]
      exact h.1
    · rw [BitVec.le_def, hnumber, hhead]
      omega
    · rw [hnumber]
      exact h.2

/-- Nothing is scanned at the start. -/
theorem ScannedSeen.init (h : watchMachine.init s) : ScannedSeen s := by
  obtain ⟨hlast, hstart, hscanned⟩ := h
  intro n block
  rw [hscanned, hlast, hstart]
  refine ⟨?_, ?_⟩
  · intro hmem
    exact absurd hmem (Set.notMem_empty _)
  · intro hrange
    omega

/-- **The invariant, one event on**, if the chain keeps the blocks that were
scanned. -/
theorem ScannedSeen.next {e : WatchEvent} (h : ScannedSeen s)
    (hstart : s.start ≤ s.watcher.lastBlock) (hkeeps : s.KeepsScanned e) :
    ScannedSeen (s.next e) := by
  cases e with
  | chain chain => exact h
  | others pool reputation => exact h
  | poll =>
      by_cases hnew : s.watcher.lastBlock < s.chain.head
      · intro n block
        have hseen : (s.next .poll).seen = s.chain := if_pos hnew
        have hhead := s.chain.toNat_head
        have hlt := BitVec.lt_def.mp hnew
        rw [BitVec.le_def] at hstart
        rw [mem_scanned_next hnew, h n block, next_poll_lastBlock hnew, hseen]
        change _ ↔ s.start.toNat < n ∧ _
        refine ⟨?_, ?_⟩
        · intro hmem
          rcases hmem with ⟨hlow, hhigh, hblock⟩ | ⟨hlow, hblock⟩
          · exact ⟨hlow, by omega, (hkeeps hnew n hlow hhigh).trans hblock⟩
          · have hbound := (List.getElem?_eq_some_iff.mp hblock).1
            exact ⟨by omega, by omega, hblock⟩
        · intro hmem
          obtain ⟨hlow, hhigh, hblock⟩ := hmem
          by_cases hold : n ≤ s.watcher.lastBlock.toNat
          · exact Or.inl ⟨hlow, hold, (hkeeps hnew n hlow hold).symm.trans hblock⟩
          · exact Or.inr ⟨by omega, hblock⟩
      · have hold := s.watcher.poll_old_head s.chain (BitVec.not_lt.mp hnew)
        intro n block
        have hseen : (s.next .poll).seen = s.seen := if_neg hnew
        have hscanned : (n, block) ∈ (s.next .poll).scanned ↔ (n, block) ∈ s.scanned := by
          change _ ∨ (∃ k ∈ s.watcher.polled s.chain.provider, n = k.toNat ∧ _) ↔ _
          rw [hold.2]
          simp
        have hwatcher : (s.next .poll).watcher = s.watcher := by
          change (s.watcher.poll s.chain.provider).2 = s.watcher
          rw [hold.1]
        rw [hscanned, hseen, hwatcher]
        exact h n block

/-- A poll never goes back behind the start. -/
theorem start_le_next {e : WatchEvent} (h : s.start ≤ s.watcher.lastBlock) :
    (s.next e).start ≤ (s.next e).watcher.lastBlock := by
  cases e with
  | chain chain => exact h
  | others pool reputation => exact h
  | poll =>
      by_cases hnew : s.watcher.lastBlock < s.chain.head
      · rw [next_poll_lastBlock hnew, BitVec.le_def]
        have hlt := BitVec.lt_def.mp hnew
        rw [BitVec.le_def] at h
        exact h.trans hlt.le
      · have hold := s.watcher.poll_old_head s.chain (BitVec.not_lt.mp hnew)
        change s.start ≤ (s.watcher.poll s.chain.provider).2.lastBlock
        rw [hold.1]
        exact h

/-- Along every run that keeps scanned blocks, what was scanned is in the chain last
seen. -/
theorem scannedSeen_of_reachable (h : watchMachine.ReachableUnder KeepsScanned s) :
    s.start ≤ s.watcher.lastBlock ∧ ScannedSeen s := by
  apply h.invariant
  · intro s hinit
    refine ⟨?_, ScannedSeen.init hinit⟩
    rw [hinit.1, hinit.2.1]
    exact BitVec.le_refl _
  · intro s e hs _ hkeeps
    exact ⟨start_le_next hs.1, hs.2.next hs.1 hkeeps⟩

/-- What one poll leaves unscanned are blocks that came in place of scanned
ones. -/
theorem covers_iff (h : watchMachine.ReachableUnder KeepsScanned s) (e : WatchEvent) :
    s.Covers e ↔ s.KeepsScanned e := by
  obtain ⟨hstart, hscanned⟩ := scannedSeen_of_reachable h
  cases e with
  | chain chain => exact Iff.rfl
  | others pool reputation => exact Iff.rfl
  | poll =>
      refine ⟨?_, ?_⟩
      · intro hcovers hnew n hlow hhigh
        have hlt := BitVec.lt_def.mp hnew
        have hbound := s.chain.toNat_head
        obtain ⟨block, hblock⟩ : ∃ block, s.chain.blocks[n]? = some block :=
          ⟨_, List.getElem?_eq_getElem (by omega)⟩
        have hcovered := hcovers hnew (s.watcher.poll_chain s.chain hnew).1 n block hlow
          (by rw [next_poll_lastBlock hnew]; omega) hblock
        rcases (mem_scanned_next hnew).mp hcovered with hmem | hmem
        · rw [hblock, ((hscanned n block).mp hmem).2.2]
        · omega
      · intro hkeeps hnew _ n block hlow hhigh hblock
        have hseen : (s.next .poll).seen = s.chain := if_pos hnew
        exact (hscanned.next hstart hkeeps n block).mpr ⟨hlow, hhigh, by rw [hseen]; exact hblock⟩

/-- **What polls cover.**  Every poll of a run leaves the chain scanned exactly
if every poll finds the scanned blocks still there. -/
theorem covers_along_iff (hinit : watchMachine.init s) (events : List WatchEvent) :
    watchMachine.Along Covers events s ↔ watchMachine.Along KeepsScanned events s :=
  Machine.along_iff_under (fun _ e hs _ => covers_iff hs e) (.init hinit)
    (Machine.enabledAlong_of_forall (fun _ _ => trivial))

end WatchedChain

end Machine

/-! ## A block that is replaced between two polls -/

section Replaced

/-- A block without logs. -/
def plainBlock (hash parentHash : B256) : ChainBlock where
  hash := hash
  parentHash := parentHash
  baseFeePerGas := some 7
  timestamp := 0
  logs _ _ := []

/-- A chain with its first block only. -/
def genesisChain : EvmChain where
  blocks := [plainBlock 1 0]
  nonempty := by decide
  length_le := by decide
  linked := by decide

/-- Two more blocks on top of it. -/
def twoBlocks : EvmChain where
  blocks := [plainBlock 1 0, plainBlock 2 1, plainBlock 3 2]
  nonempty := by decide
  length_le := by decide
  linked := by decide

/-- The second block is another one, and there is a third. -/
def forkedChain : EvmChain where
  blocks := [plainBlock 1 0, plainBlock 2 1, plainBlock 13 2, plainBlock 14 13]
  nonempty := by decide
  length_le := by decide
  linked := by decide

/-- The watcher at the first block of its chain. -/
def startedWatch : WatchedChain where
  watcher :=
    { pool := OperationPool.new (PoolConfig.ofChainSpec ChainSpec.mainnet)
      reputation := ReputationManager.new ReputationConfig.default
      chainSpec := ChainSpec.mainnet
      published := []
      baseFee := 0
      blockHistory := []
      lastBlock := 0 }
  chain := genesisChain
  start := 0
  scanned := ∅
  seen := genesisChain

/-- The run starts before its first poll. -/
theorem startedWatch_init [Keccak] : watchMachine.init startedWatch := ⟨rfl, rfl, rfl⟩

/-- The chain grows and is polled, then changes and is polled again. -/
def forkedRun : List WatchEvent := [.chain twoBlocks, .poll, .chain forkedChain, .poll]

/-- After a reorganisation of depth one, the new block two is not scanned. -/
theorem replaced_block_unscanned :
    letI := polynomialDigest
    watchMachine.init startedWatch ∧
      ¬ watchMachine.Along WatchedChain.Covers forkedRun startedWatch := by
  let _ := polynomialDigest
  refine ⟨startedWatch_init, ?_⟩
  have hstarted : watchMachine.ReachableUnder WatchedChain.KeepsScanned startedWatch :=
    .init startedWatch_init
  have hfirst : (startedWatch.next (.chain twoBlocks)).KeepsScanned .poll := by
    intro _ n hlow hhigh
    change n ≤ 0 at hhigh
    omega
  have hpolled := ((hstarted.next_eq (.chain twoBlocks) trivial trivial rfl).next_eq .poll trivial
    hfirst rfl).next_eq (.chain forkedChain) trivial trivial rfl
  intro h
  have hkeeps := (WatchedChain.covers_iff hpolled .poll).mp h.2.2.2.1 (by decide +kernel) 2
    (by decide) (by decide +kernel)
  have hhash := congrArg (Option.map ChainBlock.hash) hkeeps
  exact absurd hhash (by decide +kernel)

/-- The same for the run in which a block is replaced. -/
theorem covers_along_iff_forked :
    letI := polynomialDigest
    watchMachine.Along WatchedChain.Covers forkedRun startedWatch ↔
      watchMachine.Along WatchedChain.KeepsScanned forkedRun startedWatch :=
  let _ := polynomialDigest
  WatchedChain.covers_along_iff startedWatch_init _

end Replaced

end Bunzo
