import Bunzo.BlockPolling

/-!
# Polls of a node that fails now and then

The chain only grows, and any question to the node may fail.  A poll that fails
leaves `lastBlock`, so the next one walks the same blocks again; what the walk
before has done up to its failure stays done.

* `WatchRecord` — what a walk leaves behind: pool and counters, the history, the
  published events.  `absorb` is the effect of one block on it.
* `poll_cases` — a poll leaves the record, absorbs some blocks and fails, or
  absorbs all up to the head.
* `sameAsClean_iff` — a run ends like one without failures exactly if the first
  question is answered and no poll fails after its first block.
* `published_twice` — a poll that fails at its second block.
-/

namespace Bunzo

open ReachableStates

/-- What a walk leaves behind. -/
structure WatchRecord where
  watcher : ChainWatcher
  blockHistory : List BlockEntry
  published : List ChainEvent

namespace WatchRecord

variable [Keccak]

/-- Scan a block of the chain, remember it and publish it. -/
def absorbBlock (chain : EvmChain) (r : WatchRecord) (n : U64) (block : ChainBlock) : WatchRecord :=
  let baseFee := (block.baseFeePerGas.getD 0).setWidth 128
  let history := r.blockHistory ++ [{ number := n, hash := block.hash, baseFee := baseFee }]
  { watcher := ChainWatcher.scanLogs (chain.logsOf (r.watcher.eventFilter n)) r.watcher
    blockHistory := history.drop (history.length - r.watcher.chainSpec.chainHistorySize.toNat)
    published := r.published ++ [.newBlock n block.hash baseFee block.timestamp] }

/-- The effect of the block with a number. -/
def absorb (chain : EvmChain) (r : WatchRecord) (n : U64) : WatchRecord :=
  match chain.blocks[n.toNat]? with
  | none => r
  | some block => r.absorbBlock chain n block

/-- The effect of one block after another. -/
def absorbAll (chain : EvmChain) (r : WatchRecord) (numbers : List U64) : WatchRecord :=
  numbers.foldl (absorb chain) r

/-- The history has only blocks of the chain. -/
def OnChain (chain : EvmChain) (r : WatchRecord) : Prop :=
  ∀ entry ∈ r.blockHistory, ∃ block,
    chain.blocks[entry.number.toNat]? = some block ∧ block.hash = entry.hash

end WatchRecord

/-- The number of a published block. -/
def ChainEvent.newBlockNumber : ChainEvent → Option U64
  | .newBlock number _ _ _ => some number
  | .reorg _ _ => none

/-- The numbers of the published blocks, in order. -/
def newBlockNumbers (published : List ChainEvent) : List U64 :=
  published.filterMap ChainEvent.newBlockNumber

/-- The published blocks, in order. -/
def newBlocks (published : List ChainEvent) : List ChainEvent :=
  published.filter (fun event => event.newBlockNumber.isSome)

/-- A node that has the chain, or the blocks up to some head from the first one
on, and answers any question or fails. -/
structure Serves (chain : EvmChain) (first : U64) (p : Provider) : Prop where
  number : ∀ n, p.getBlockNumber = .ok n → first ≤ n ∧ n ≤ chain.head
  block : ∀ n b, p.getBlock n = .ok (some b) → chain.blocks[n.toNat]? = some b
  logs : ∀ filter logs, p.getLogs filter = .ok logs → logs = chain.logsOf filter

/-- The node fails to give a block or its logs. -/
def Provider.FailsAt [Keccak] (p : Provider) (watcher : ChainWatcher) (n : U64) : Prop :=
  (∀ block, p.getBlock n ≠ .ok (some block)) ∨ ∀ logs, p.getLogs (watcher.eventFilter n) ≠ .ok logs

namespace BlockWatcher

/-- What a walk can change in a watcher, `lastBlock` and the shared base fee
left out. -/
def record (w : BlockWatcher) : WatchRecord where
  watcher := w.toChainWatcher
  blockHistory := w.blockHistory
  published := w.published

/-- The poll fails after it has gone through its first block. -/
def StopsMidway [Keccak] (w : BlockWatcher) (p : Provider) : Prop :=
  ∃ current, p.getBlockNumber = .ok current ∧ ¬ p.FailsAt w.toChainWatcher (w.lastBlock + 1) ∧
    ∃ n ∈ blockNumbers w.lastBlock current, p.FailsAt w.toChainWatcher n

end BlockWatcher

section Numbers

variable {a b c : U64}

/-- There are no blocks after the last one. -/
theorem blockNumbers_eq_nil (h : b ≤ a) : blockNumbers a b = [] := by
  rw [BitVec.le_def] at h
  simp [blockNumbers, Nat.sub_eq_zero_of_le h]

/-- A number published twice stays so. -/
theorem twice_append {n : U64} {numbers : List U64} (hn : 2 ≤ numbers.count n)
    (more : List U64) : ∃ n, 2 ≤ (numbers ++ more).count n := by
  refine ⟨n, ?_⟩
  rw [List.count_append]
  omega

/-- Walks that follow each other walk the whole. -/
theorem blockNumbers_append (hab : a ≤ b) (hbc : b ≤ c) :
    blockNumbers a b ++ blockNumbers b c = blockNumbers a c := by
  rw [BitVec.le_def] at hab hbc
  unfold blockNumbers
  rw [← List.map_append]
  congr 1
  have hstart : b.toNat + 1 = a.toNat + 1 + 1 * (b.toNat - a.toNat) := by omega
  rw [hstart, List.range'_append]
  congr 1
  omega

/-- A walk starts with the next block. -/
theorem blockNumbers_cons (h : a < b) : blockNumbers a b = (a + 1) :: blockNumbers (a + 1) b := by
  have hone : (a + 1).toNat = a.toNat + 1 := by
    have hb := b.isLt
    rw [BitVec.lt_def] at h
    exact MachineWords.toNat_add_of_lt (by simpa using (by omega : a.toNat + 1 < 2 ^ 64))
  rw [BitVec.lt_def] at h
  unfold blockNumbers
  have hlen : b.toNat - a.toNat = (b.toNat - (a + 1).toNat) + 1 := by omega
  rw [hlen, List.range'_succ, List.map_cons, ← hone, BitVec.ofNat_toNat, BitVec.setWidth_eq]

/-- A walk meets no block twice. -/
theorem nodup_blockNumbers : (blockNumbers a b).Nodup := by
  unfold blockNumbers
  apply List.Nodup.map_on _ List.nodup_range'
  intro m hm n hn heq
  have hb := b.isLt
  have hm' := List.mem_range'_1.mp hm
  have hn' := List.mem_range'_1.mp hn
  have hnat := congrArg BitVec.toNat heq
  rw [BitVec.toNat_ofNat, BitVec.toNat_ofNat, Nat.mod_eq_of_lt (by omega),
    Nat.mod_eq_of_lt (by omega)] at hnat
  exact hnat

/-- No walk goes beyond where it was sent. -/
theorem blockNumbers_le (hbc : b ≤ c) : ∀ n ∈ blockNumbers a b, n ≤ c :=
  fun _ hn => BitVec.le_trans (mem_blockNumbers.mp hn).2 hbc

end Numbers

/-! ## One block -/

section Blocks

variable [Keccak] {chain : EvmChain} {first n : U64} {p : Provider}

omit [Keccak] in
/-- Scanning logs does not change the configuration. -/
theorem chainSpec_scanLogs (logs : List Log) :
    ∀ watcher : ChainWatcher,
      (ChainWatcher.scanLogs logs watcher).chainSpec = watcher.chainSpec := by
  induction logs with
  | nil =>
      intro watcher
      rfl
  | cons log logs ih =>
      intro watcher
      have hlog : (watcher.scanLog log).chainSpec = watcher.chainSpec := by
        unfold ChainWatcher.scanLog
        split
        · split <;> rfl
        · rfl
      exact (ih _).trans hlog

/-- Whether the node fails depends on the configuration of the watcher only. -/
theorem Provider.failsAt_congr {watcher watcher' : ChainWatcher}
    (hspec : watcher.chainSpec = watcher'.chainSpec) :
    p.FailsAt watcher n ↔ p.FailsAt watcher' n := by
  have hfilter : watcher.eventFilter n = watcher'.eventFilter n := by
    unfold ChainWatcher.eventFilter
    rw [hspec]
  unfold Provider.FailsAt
  rw [hfilter]

namespace WatchRecord

variable {r : WatchRecord}

/-- A block that the chain has is scanned and remembered. -/
theorem absorb_of_block {block : ChainBlock} (hblock : chain.blocks[n.toNat]? = some block) :
    r.absorb chain n = r.absorbBlock chain n block := by
  unfold absorb
  rw [hblock]

/-- No block changes the configuration. -/
theorem absorb_chainSpec : (r.absorb chain n).watcher.chainSpec = r.watcher.chainSpec := by
  unfold absorb
  split
  · rfl
  · exact chainSpec_scanLogs _ _

/-- A history of the chain stays one, block by block. -/
theorem OnChain.absorb (h : OnChain chain r) : OnChain chain (r.absorb chain n) := by
  cases hblock : chain.blocks[n.toNat]? with
  | none =>
      have hsame : r.absorb chain n = r := by
        unfold WatchRecord.absorb
        rw [hblock]
      rw [hsame]
      exact h
  | some block =>
      rw [absorb_of_block hblock]
      intro entry hentry
      rcases List.mem_append.mp (List.mem_of_mem_drop hentry) with hold | hnew
      · exact h entry hold
      · rw [List.mem_singleton.mp hnew]
        exact ⟨block, hblock, rfl⟩

/-- A block of the chain is published once, when it is absorbed. -/
theorem published_absorb (hn : n ≤ chain.head) : newBlockNumbers (r.absorb chain n).published =
    newBlockNumbers r.published ++ [n] := by
  obtain ⟨block, hblock⟩ := chain.isSome_of_le_head hn
  rw [absorb_of_block hblock]
  exact List.filterMap_append

/-- Blocks may be absorbed in two parts. -/
theorem absorbAll_append (before after : List U64) :
    r.absorbAll chain (before ++ after) = (r.absorbAll chain before).absorbAll chain after :=
  List.foldl_append

/-- A history of the chain stays one over any blocks. -/
theorem OnChain.absorbAll {numbers : List U64} :
    ∀ {r : WatchRecord}, OnChain chain r → OnChain chain (r.absorbAll chain numbers) := by
  induction numbers with
  | nil =>
      intro r h
      exact h
  | cons n numbers ih =>
      intro r h
      exact ih h.absorb

/-- The blocks below the head are published in the order in which they are
absorbed. -/
theorem published_absorbAll {numbers : List U64} (hn : ∀ n ∈ numbers, n ≤ chain.head) :
    ∀ {r : WatchRecord}, newBlockNumbers (r.absorbAll chain numbers).published =
      newBlockNumbers r.published ++ numbers := by
  induction numbers with
  | nil =>
      intro r
      exact (List.append_nil _).symm
  | cons n numbers ih =>
      intro r
      have htail := ih (fun m hm => hn m (List.mem_cons_of_mem _ hm)) (r := r.absorb chain n)
      rw [published_absorb (hn n List.mem_cons_self), List.append_assoc] at htail
      exact htail

end WatchRecord

namespace BlockWatcher

variable {w : BlockWatcher}

omit [Keccak] in
/-- On a chain that only grows there is no reorganisation to notice. -/
theorem noticeReorg_eq {block : ChainBlock} (h : w.record.OnChain chain) (hn : 0 < n.toNat)
    (hblock : chain.blocks[n.toNat]? = some block) : w.noticeReorg n block = w := by
  unfold noticeReorg
  cases hlast : w.blockHistory.getLast? with
  | none => rfl
  | some last =>
      obtain ⟨parent, hparent, hhash⟩ := h last (List.mem_of_getLast? hlast)
      have hlinked : ¬ (block.parentHash ≠ last.hash ∧ n = last.number + 1) := by
        intro hreorg
        obtain ⟨hne, hnumber⟩ := hreorg
        have hnext : n.toNat = last.number.toNat + 1 := by
          have hlt := last.number.isLt
          rw [hnumber, BitVec.toNat_add] at hn ⊢
          have hone : (1 : U64).toNat = 1 := rfl
          omega
        rw [hnext] at hblock
        exact hne ((chain.parentHash_eq hparent hblock).trans hhash)
      simp only [hlinked, if_false]

/-- **One block.**  It fails and leaves the record, or is absorbed. -/
theorem processBlock_cases (hserves : Serves chain first p) (h : w.record.OnChain chain)
    (hn : 0 < n.toNat) :
    (p.FailsAt w.toChainWatcher n ∧ ∃ e w', w.processBlock p n = (.error e, w') ∧
      w'.record = w.record ∧ w'.lastBlock = w.lastBlock) ∨
    (¬ p.FailsAt w.toChainWatcher n ∧ ∃ w', w.processBlock p n = (.ok (), w') ∧
      w'.record = w.record.absorb chain n ∧ w'.lastBlock = w.lastBlock) := by
  unfold processBlock
  rcases hblock : p.getBlock n with e | _ | block
  · left
    refine ⟨Or.inl ?_, e, w, rfl, rfl, rfl⟩
    simp [hblock]
  · left
    refine ⟨Or.inl ?_, _, w, rfl, rfl, rfl⟩
    simp [hblock]
  · have honchain := hserves.block n block hblock
    have hfees : (w.storeBaseFee block).record.OnChain chain := h
    simp only [noticeReorg_eq hfees hn honchain]
    unfold scanBlock ChainWatcher.scanUserOpEvents
    have hfilter : (w.storeBaseFee block).toChainWatcher.eventFilter n =
        w.toChainWatcher.eventFilter n := rfl
    rw [hfilter]
    rcases hlogs : p.getLogs (w.toChainWatcher.eventFilter n) with e | logs
    · left
      refine ⟨Or.inr ?_, e, _, rfl, rfl, rfl⟩
      simp [hlogs]
    · right
      have hgood : ¬ p.FailsAt w.toChainWatcher n := by
        intro hfails
        rcases hfails with hfails | hfails
        · exact hfails block hblock
        · exact hfails logs hlogs
      have hanswer := hserves.logs _ _ hlogs
      subst hanswer
      refine ⟨hgood, _, rfl, ?_, rfl⟩
      rw [WatchRecord.absorb_of_block honchain]
      unfold record recordBlock publish WatchRecord.absorbBlock
      simp only [chainSpec_scanLogs]
      rfl

/-- Block after block, up to the first that fails. -/
theorem processBlocks_cases (hserves : Serves chain first p) {numbers : List U64} :
    ∀ {w : BlockWatcher}, w.record.OnChain chain → (∀ n ∈ numbers, 0 < n.toNat) →
      ((∀ n ∈ numbers, ¬ p.FailsAt w.toChainWatcher n) ∧
        ∃ w', processBlocks p numbers w = (.ok (), w') ∧
          w'.record = w.record.absorbAll chain numbers ∧ w'.lastBlock = w.lastBlock) ∨
      ∃ done n rest, numbers = done ++ n :: rest ∧
        (∀ m ∈ done, ¬ p.FailsAt w.toChainWatcher m) ∧ p.FailsAt w.toChainWatcher n ∧
        ∃ e w', processBlocks p numbers w = (.error e, w') ∧
          w'.record = w.record.absorbAll chain done ∧ w'.lastBlock = w.lastBlock := by
  induction numbers with
  | nil =>
      intro w _ _
      exact Or.inl ⟨by simp, w, rfl, rfl, rfl⟩
  | cons n numbers ih =>
      intro w h hpos
      have hn := hpos n List.mem_cons_self
      unfold processBlocks
      rcases processBlock_cases hserves h hn with
        ⟨hfails, e, w', hw', hrecord, hlast⟩ | ⟨hgood, w', hw', hrecord, hlast⟩
      · right
        rw [hw']
        exact ⟨[], n, numbers, rfl, by simp, hfails, e, w', rfl, hrecord, hlast⟩
      · have honchain : w'.record.OnChain chain := by
          rw [hrecord]
          exact h.absorb
        have hspec : w'.chainSpec = w.chainSpec := by
          change w'.record.watcher.chainSpec = _
          rw [hrecord]
          exact WatchRecord.absorb_chainSpec
        rw [hw']
        rcases ih honchain (fun m hm => hpos m (List.mem_cons_of_mem _ hm)) with
          ⟨hall, w'', hw'', hrecord', hlast'⟩ |
            ⟨done, m, rest, hsplit, hdone, hm, e, w'', hw'', hrecord', hlast'⟩
        · left
          refine ⟨?_, w'', hw'', ?_, hlast'.trans hlast⟩
          · intro m hm
            rcases List.mem_cons.mp hm with rfl | hm
            · exact hgood
            · exact fun hfails => hall m hm ((Provider.failsAt_congr hspec).mpr hfails)
          · rw [hrecord', hrecord]
            rfl
        · right
          refine ⟨n :: done, m, rest, congrArg (n :: ·) hsplit, ?_,
            (Provider.failsAt_congr hspec).mp hm, e, w'', hw'', ?_, hlast'.trans hlast⟩
          · intro k hk
            rcases List.mem_cons.mp hk with rfl | hk
            · exact hgood
            · exact fun hfails => hdone k hk ((Provider.failsAt_congr hspec).mpr hfails)
          · rw [hrecord', hrecord]
            rfl

/-- A walk stops midway if its first block is given and a later one is not. -/
theorem stopsMidway_iff {current : U64} (h : p.getBlockNumber = .ok current) :
    w.StopsMidway p ↔ ¬ p.FailsAt w.toChainWatcher (w.lastBlock + 1) ∧
      ∃ n ∈ blockNumbers w.lastBlock current, p.FailsAt w.toChainWatcher n := by
  refine ⟨?_, fun hfails => ⟨current, h, hfails⟩⟩
  rintro ⟨current', hcurrent, hfails⟩
  rw [h] at hcurrent
  cases hcurrent
  exact hfails

/-- A failure behind some blocks leaves the first one good. -/
theorem stopsMidway_of_split {current n m : U64} {done rest : List U64}
    (h : p.getBlockNumber = .ok current) (hnew : w.lastBlock < current)
    (hsplit : blockNumbers w.lastBlock current = m :: done ++ n :: rest)
    (hgood : ¬ p.FailsAt w.toChainWatcher m) (hn : p.FailsAt w.toChainWatcher n) :
    m = w.lastBlock + 1 ∧ w.StopsMidway p := by
  have hfirst : m = w.lastBlock + 1 := by
    rw [blockNumbers_cons hnew] at hsplit
    exact (List.cons.inj hsplit).1.symm
  refine ⟨hfirst, (stopsMidway_iff h).mpr ⟨hfirst ▸ hgood, n, ?_, hn⟩⟩
  rw [hsplit]
  exact List.mem_append_right _ List.mem_cons_self

/-- **One poll.**  It leaves the record, or it stops midway with the first block
absorbed at least, or it absorbs all blocks up to the head. -/
theorem poll_cases (hserves : Serves chain first p) (h : w.record.OnChain chain) :
    (¬ w.StopsMidway p ∧ (w.poll p).2.record = w.record ∧
      (w.poll p).2.lastBlock = w.lastBlock) ∨
    (w.StopsMidway p ∧ (∃ numbers, (∀ n ∈ numbers, n ≤ chain.head) ∧ w.lastBlock + 1 ∈ numbers ∧
      w.lastBlock < w.lastBlock + 1 ∧
      (w.poll p).2.record = w.record.absorbAll chain numbers) ∧
      (w.poll p).2.lastBlock = w.lastBlock) ∨
    (¬ w.StopsMidway p ∧ ∃ current, first ≤ current ∧ current ≤ chain.head ∧
      w.lastBlock < current ∧
      (w.poll p).2.record = w.record.absorbAll chain (blockNumbers w.lastBlock current) ∧
      (w.poll p).2.lastBlock = current) := by
  unfold poll
  rcases hnumber : p.getBlockNumber with e | current
  · left
    refine ⟨?_, rfl, rfl⟩
    rintro ⟨current, hcurrent, _⟩
    rw [hnumber] at hcurrent
    cases hcurrent
  obtain ⟨hfirst, hhead⟩ := hserves.number current hnumber
  by_cases hold : current ≤ w.lastBlock
  · left
    simp only [hold, if_true]
    refine ⟨?_, trivial, trivial⟩
    rw [stopsMidway_iff hnumber, blockNumbers_eq_nil hold]
    rintro ⟨_, n, hn, _⟩
    cases hn
  have hnew : w.lastBlock < current := BitVec.not_le.mp hold
  simp only [hold, if_false]
  have hpos : ∀ n ∈ blockNumbers w.lastBlock current, 0 < n.toNat := by
    intro n hn
    have hlt := BitVec.lt_def.mp (mem_blockNumbers.mp hn).1
    omega
  rcases processBlocks_cases hserves h hpos with
    ⟨hall, w', hw', hrecord, hlast⟩ |
      ⟨done, n, rest, hsplit, hdone, hn, e, w', hw', hrecord, hlast⟩
  · right
    right
    rw [hw']
    refine ⟨?_, current, hfirst, hhead, hnew, hrecord, rfl⟩
    rw [stopsMidway_iff hnumber]
    rintro ⟨_, n, hn, hfails⟩
    exact hall n hn hfails
  · rw [hw']
    cases done with
    | nil =>
        left
        refine ⟨?_, hrecord, hlast⟩
        rw [blockNumbers_cons hnew] at hsplit
        rw [stopsMidway_iff hnumber, (List.cons.inj hsplit).1]
        exact fun hstops => hstops.1 hn
    | cons m done =>
        right
        left
        obtain ⟨rfl, hstops⟩ :=
          stopsMidway_of_split hnumber hnew hsplit (hdone m List.mem_cons_self) hn
        have hmem : ∀ k ∈ (w.lastBlock + 1) :: done, k ∈ blockNumbers w.lastBlock current := by
          intro k hk
          rw [hsplit]
          exact List.mem_append_left _ hk
        refine ⟨hstops, ⟨_, ?_, List.mem_cons_self, ?_, hrecord⟩, hlast⟩
        · intro k hk
          exact BitVec.le_trans (mem_blockNumbers.mp (hmem k hk)).2 hhead
        · exact (mem_blockNumbers.mp (hmem _ List.mem_cons_self)).1

end BlockWatcher

end Blocks

/-! ## Runs of polls -/

/-- A node that has the chain up to a block and never fails. -/
def EvmChain.upTo (chain : EvmChain) (h : U64) : Provider :=
  { chain.provider with getBlockNumber := .ok h }

namespace BlockWatcher

/-- A watcher that has seen nothing yet. -/
structure New (w : BlockWatcher) : Prop where
  blockHistory : w.blockHistory = []
  published : w.published = []
  lastBlock : w.lastBlock = 0

/-- The two watchers know the same, and the blocks after the first one up to the
last were published once each, in order. -/
structure SameAsClean (w clean : BlockWatcher) (first : U64) : Prop where
  blockHistory : w.blockHistory = clean.blockHistory
  lastBlock : w.lastBlock = clean.lastBlock
  pool : w.pool = clean.pool
  reputation : w.reputation = clean.reputation
  newBlocks : newBlocks w.published = newBlocks clean.published
  once : newBlockNumbers w.published = blockNumbers first w.lastBlock

/-- A block was published twice, or one that the next walk will publish. -/
def Dirty (w : BlockWatcher) : Prop :=
  (∃ n, 2 ≤ (newBlockNumbers w.published).count n) ∨
    ∃ n ∈ newBlockNumbers w.published, w.lastBlock < n

end BlockWatcher

section Runs

variable [Keccak] {chain : EvmChain} {first h : U64}

/-- The watcher without failures: the first question is answered, and one poll
leads to the head. -/
def BlockWatcher.clean (w : BlockWatcher) (chain : EvmChain) (first h : U64) : BlockWatcher :=
  ((w.start (.ok first)).poll (chain.upTo h)).2

/-- Polls from a state on. -/
def pollMachine (chain : EvmChain) (first : U64) (started : BlockWatcher) :
    Machine BlockWatcher Provider where
  init w := w = started
  enabled _ p := Serves chain first p
  next w p := (w.poll p).2

/-- The last poll sees the head, succeeds, and leaves it as `lastBlock`. -/
def CaughtUp (m : Machine BlockWatcher Provider) (polls : List Provider) (h : U64)
    (w : BlockWatcher) : Prop :=
  ∃ earlier p, polls = earlier ++ [p] ∧ p.getBlockNumber = .ok h ∧
    ((m.run earlier w).poll p).1 = .ok () ∧ (m.run polls w).lastBlock = h

namespace BlockWatcher

variable {w started : BlockWatcher} {p : Provider} {polls : List Provider}

/-- What a walk publishes follows what was published before. -/
theorem published_poll {numbers : List U64} {w' : BlockWatcher}
    (hhead : ∀ n ∈ numbers, n ≤ chain.head)
    (hrecord : w'.record = w.record.absorbAll chain numbers) :
    newBlockNumbers w'.published = newBlockNumbers w.published ++ numbers := by
  have hpublished := congrArg WatchRecord.published hrecord
  change newBlockNumbers w'.record.published = _
  rw [hpublished, WatchRecord.published_absorbAll hhead]
  rfl

/-- What was published too often stays so. -/
theorem Dirty.poll (hdirty : w.Dirty) (hserves : Serves chain first p)
    (honchain : w.record.OnChain chain) : (w.poll p).2.Dirty := by
  rcases poll_cases hserves honchain with
    ⟨_, hrecord, hlast⟩ | ⟨_, ⟨numbers, hhead, _, _, hrecord⟩, hlast⟩ |
      ⟨_, current, _, hcurrent, _, hrecord, hlast⟩
  · have hpublished := congrArg WatchRecord.published hrecord
    change (w.poll p).2.published = w.published at hpublished
    unfold Dirty
    rw [hpublished, hlast]
    exact hdirty
  · unfold Dirty
    rw [published_poll hhead hrecord, hlast]
    rcases hdirty with ⟨n, hn⟩ | ⟨n, hn, hlt⟩
    · exact Or.inl (twice_append hn _)
    · exact Or.inr ⟨n, List.mem_append_left _ hn, hlt⟩
  · unfold Dirty
    rw [published_poll (blockNumbers_le hcurrent) hrecord, hlast]
    rcases hdirty with ⟨n, hn⟩ | ⟨n, hn, hlt⟩
    · exact Or.inl (twice_append hn _)
    · by_cases hle : n ≤ current
      · left
        refine ⟨n, ?_⟩
        have hbefore := List.count_pos_iff.mpr hn
        have hagain := List.count_pos_iff.mpr (mem_blockNumbers.mpr ⟨hlt, hle⟩)
        rw [List.count_append]
        omega
      · exact Or.inr ⟨n, List.mem_append_left _ hn, BitVec.not_le.mp hle⟩

/-- A poll that stops midway has published what will be published again. -/
theorem dirty_of_stopsMidway (hstops : w.StopsMidway p) (hserves : Serves chain first p)
    (honchain : w.record.OnChain chain) : (w.poll p).2.Dirty := by
  rcases poll_cases hserves honchain with
    ⟨hgoes, _⟩ | ⟨_, ⟨numbers, hhead, hfirst, hlt, hrecord⟩, hlast⟩ | ⟨hgoes, _⟩
  · exact absurd hstops hgoes
  · right
    refine ⟨w.lastBlock + 1, ?_, ?_⟩
    · rw [published_poll hhead hrecord]
      exact List.mem_append_right _ hfirst
    · rw [hlast]
      exact hlt
  · exact absurd hstops hgoes

/-- A poll leaves a history of the chain, even if it fails. -/
theorem onChain_poll (hserves : Serves chain first p) (honchain : w.record.OnChain chain) :
    (w.poll p).2.record.OnChain chain := by
  rcases poll_cases hserves honchain with
    ⟨_, hrecord, _⟩ | ⟨_, ⟨_, _, _, _, hrecord⟩, _⟩ | ⟨_, _, _, _, _, hrecord, _⟩
  · rw [hrecord]
    exact honchain
  · rw [hrecord]
    exact honchain.absorbAll
  · rw [hrecord]
    exact honchain.absorbAll

/-- **Once dirty, always dirty.**  No later poll takes a publication back. -/
theorem Dirty.run : ∀ {w : BlockWatcher}, w.Dirty → w.record.OnChain chain →
    (pollMachine chain first started).EnabledAlong polls w →
      ((pollMachine chain first started).run polls w).Dirty := by
  induction polls with
  | nil =>
      intro w hdirty _ _
      exact hdirty
  | cons p polls ih =>
      intro w hdirty honchain hserves
      exact ih (hdirty.poll hserves.1 honchain) (onChain_poll hserves.1 honchain) hserves.2

/-- One poll that stops midway is enough. -/
theorem dirty_run_of_stopsMidway : ∀ {w : BlockWatcher}, w.record.OnChain chain →
    (pollMachine chain first started).EnabledAlong polls w →
      ¬ (pollMachine chain first started).Along (fun w p => ¬ w.StopsMidway p) polls w →
        ((pollMachine chain first started).run polls w).Dirty := by
  induction polls with
  | nil =>
      intro w _ _ hstops
      exact absurd trivial hstops
  | cons p polls ih =>
      intro w honchain hserves hstops
      by_cases hp : w.StopsMidway p
      · exact (dirty_of_stopsMidway hp hserves.1 honchain).run
          (onChain_poll hserves.1 honchain) hserves.2
      · exact ih (onChain_poll hserves.1 honchain) hserves.2 (fun hrest => hstops ⟨hp, hrest⟩)

omit [Keccak] in
/-- A watcher that is as good as new has published nothing twice. -/
theorem SameAsClean.not_dirty {clean : BlockWatcher} (hsame : w.SameAsClean clean first) :
    ¬ w.Dirty := by
  intro hdirty
  unfold Dirty at hdirty
  rw [hsame.once] at hdirty
  rcases hdirty with ⟨n, hn⟩ | ⟨n, hn, hlt⟩
  · have hone := List.nodup_iff_count_le_one.mp
      (nodup_blockNumbers (a := first) (b := w.lastBlock)) n
    omega
  · exact absurd (mem_blockNumbers.mp hn).2 (BitVec.not_le.mpr hlt)

/-- The watcher without failures has absorbed the blocks up to the head. -/
theorem clean_record (hhead : h ≤ chain.head) (hfirst : first ≤ h)
    (honchain : w.record.OnChain chain) :
    (w.clean chain first h).record = w.record.absorbAll chain (blockNumbers first h) ∧
      (w.clean chain first h).lastBlock = h := by
  have hserves : Serves chain first (chain.upTo h) :=
    { number := fun n hn => by cases hn; exact ⟨hfirst, hhead⟩
      block := fun n b hn => Except.ok.inj hn
      logs := fun filter logs hn => (Except.ok.inj hn).symm }
  have hnumber : (chain.upTo h).getBlockNumber = .ok h := rfl
  have hstart : (w.start (.ok first)).lastBlock = first := rfl
  unfold clean poll
  simp only [hnumber, hstart]
  by_cases hold : h ≤ first
  · rw [if_pos hold, blockNumbers_eq_nil hold]
    exact ⟨rfl, BitVec.le_antisymm hfirst hold⟩
  · rw [if_neg hold]
    have hpos : ∀ n ∈ blockNumbers first h, 0 < n.toNat := by
      intro n hn
      have hlt := BitVec.lt_def.mp (mem_blockNumbers.mp hn).1
      omega
    have hstarted : (w.start (.ok first)).record.OnChain chain := honchain
    rcases processBlocks_cases hserves hstarted hpos with
      ⟨_, w', hw', hrecord, _⟩ | ⟨done, n, rest, hsplit, _, hfails, _⟩
    · rw [hw']
      exact ⟨hrecord, rfl⟩
    · exfalso
      have hmem : n ∈ blockNumbers first h := by
        rw [hsplit]
        exact List.mem_append_right _ List.mem_cons_self
      obtain ⟨block, hblock⟩ := chain.isSome_of_le_head
        (BitVec.le_trans (mem_blockNumbers.mp hmem).2 hhead)
      rcases hfails with hfails | hfails
      · exact hfails block (congrArg Except.ok hblock)
      · exact hfails _ rfl

/-- The record is that of the blocks up to `lastBlock`, absorbed once. -/
def UpToDate (chain : EvmChain) (first : U64) (started w : BlockWatcher) : Prop :=
  first ≤ w.lastBlock ∧ w.record = started.record.absorbAll chain (blockNumbers first w.lastBlock)

/-- A poll that does not stop midway absorbs the blocks up to its head, or none. -/
theorem UpToDate.poll (hupto : UpToDate chain first started w) (hserves : Serves chain first p)
    (hstarted : started.record.OnChain chain) (hgoes : ¬ w.StopsMidway p) :
    UpToDate chain first started (w.poll p).2 := by
  obtain ⟨hfirst, hupto⟩ := hupto
  have honchain : w.record.OnChain chain := by
    rw [hupto]
    exact hstarted.absorbAll
  rcases poll_cases hserves honchain with
    ⟨_, hrecord, hlast⟩ | ⟨hstops, _⟩ | ⟨_, current, hle, hcurrent, hnew, hrecord, hlast⟩
  · unfold UpToDate
    rw [hlast, hrecord]
    exact ⟨hfirst, hupto⟩
  · exact absurd hstops hgoes
  · unfold UpToDate
    rw [hlast, hrecord, hupto, ← WatchRecord.absorbAll_append,
      blockNumbers_append hfirst (BitVec.le_of_lt hnew)]
    exact ⟨hle, rfl⟩

/-- All blocks that a run has left behind were published. -/
def PublishedUpTo (low : U64) (w : BlockWatcher) : Prop :=
  ∀ n, low < n → n ≤ w.lastBlock → n ∈ newBlockNumbers w.published

/-- A poll publishes what it leaves behind. -/
theorem PublishedUpTo.poll {low : U64} (hall : PublishedUpTo low w)
    (hserves : Serves chain first p) (honchain : w.record.OnChain chain) :
    PublishedUpTo low (w.poll p).2 := by
  intro n hlow hhigh
  rcases poll_cases hserves honchain with
    ⟨_, hrecord, hlast⟩ | ⟨_, ⟨numbers, hhead, _, _, hrecord⟩, hlast⟩ |
      ⟨_, current, _, hcurrent, hnew, hrecord, hlast⟩
  · have hpublished := congrArg WatchRecord.published hrecord
    change (w.poll p).2.published = w.published at hpublished
    rw [hpublished]
    rw [hlast] at hhigh
    exact hall n hlow hhigh
  · rw [published_poll hhead hrecord]
    rw [hlast] at hhigh
    exact List.mem_append_left _ (hall n hlow hhigh)
  · rw [published_poll (blockNumbers_le hcurrent) hrecord]
    rw [hlast] at hhigh
    by_cases hold : n ≤ w.lastBlock
    · exact List.mem_append_left _ (hall n hlow hold)
    · exact List.mem_append_right _ (mem_blockNumbers.mpr ⟨BitVec.not_le.mp hold, hhigh⟩)

/-- What is known of the watcher in every run. -/
theorem published_of_reachable (hstarted : started.record.OnChain chain)
    (hlast : started.lastBlock = 0)
    (hrun : (pollMachine chain first started).Reachable w) :
    w.record.OnChain chain ∧ PublishedUpTo 0 w := by
  apply hrun.invariant
  · intro w hinit
    subst hinit
    refine ⟨hstarted, ?_⟩
    intro n hlow hhigh
    rw [hlast] at hhigh
    exact absurd hhigh (BitVec.not_le.mpr hlow)
  · intro w p hw hserves _
    exact ⟨onChain_poll hserves hw.1, hw.2.poll hserves hw.1⟩

/-- Without a stop midway the record is that of the blocks up to `lastBlock`. -/
theorem upToDate_of_reachable (hstarted : started.record.OnChain chain)
    (hlast : started.lastBlock = first)
    (hrun : (pollMachine chain first started).ReachableUnder (fun w p => ¬ w.StopsMidway p) w) :
    UpToDate chain first started w := by
  apply hrun.invariant
  · intro w hinit
    subst hinit
    unfold UpToDate
    rw [hlast, blockNumbers_eq_nil (BitVec.le_refl _)]
    exact ⟨BitVec.le_refl _, rfl⟩
  · intro w p hw hserves hgoes
    exact hw.poll hserves hstarted hgoes

/-- A watcher with the record of the clean one is the same as clean. -/
theorem sameAsClean_of_record {clean : BlockWatcher} (hclean : w.record = clean.record)
    (hlast : w.lastBlock = clean.lastBlock) (hhead : w.lastBlock ≤ chain.head)
    (hstarted : started.published = [])
    (hrecord : w.record = started.record.absorbAll chain (blockNumbers first w.lastBlock)) :
    w.SameAsClean clean first where
  blockHistory := congrArg WatchRecord.blockHistory hclean
  lastBlock := hlast
  pool := congrArg (fun r : WatchRecord => r.watcher.pool) hclean
  reputation := congrArg (fun r : WatchRecord => r.watcher.reputation) hclean
  newBlocks := congrArg (fun r : WatchRecord => newBlocks r.published) hclean
  once := by
    have hpublished := published_poll (blockNumbers_le hhead) hrecord
    rw [hstarted] at hpublished
    exact hpublished

/-- **Failures that leave no trace.**  After a poll that has caught up, the
watcher is as it would be without failures exactly if the first question was
answered, or there was nothing before it, and no poll failed after its first
block. -/
theorem sameAsClean_iff (hnew : w.New) {answer : Except ProviderError U64}
    (hanswer : ∀ n, answer = .ok n → n = first)
    (hserves : (pollMachine chain first (w.start answer)).EnabledAlong polls (w.start answer))
    (hcaught : CaughtUp (pollMachine chain first (w.start answer)) polls h (w.start answer)) :
    SameAsClean ((pollMachine chain first (w.start answer)).run polls (w.start answer))
        (w.clean chain first h) first ↔
      ((∃ n, answer = .ok n) ∨ first = 0) ∧
        (pollMachine chain first (w.start answer)).Along (fun w p => ¬ w.StopsMidway p) polls
          (w.start answer) := by
  have hrecord : (w.start answer).record = w.record := by cases answer <;> rfl
  have hfresh : w.record.OnChain chain := by
    intro entry hentry
    have hempty : w.record.blockHistory = [] := hnew.blockHistory
    rw [hempty] at hentry
    cases hentry
  have honchain : (w.start answer).record.OnChain chain := by
    rw [hrecord]
    exact hfresh
  obtain ⟨earlier, p, hpolls, hp, _, hlast⟩ := hcaught
  obtain ⟨hfirst, hhead⟩ : first ≤ h ∧ h ≤ chain.head := by
    rw [hpolls] at hserves
    exact ((Machine.along_append _ _ _).mp hserves).2.1.number h hp
  refine ⟨?_, ?_⟩
  · intro hsame
    refine ⟨?_, ?_⟩
    · rcases answer with e | n
      · right
        by_contra hzero
        have hrun := (published_of_reachable honchain hnew.lastBlock
          (Machine.reachable_run (.init rfl) hserves)).2
        have hone : (1 : U64).toNat = 1 := rfl
        have hzero' : first.toNat ≠ 0 := fun hnat => hzero (BitVec.eq_of_toNat_eq hnat)
        rw [BitVec.le_def] at hfirst
        have hmem := hrun 1 (by decide) (by rw [hlast, BitVec.le_def, hone]; omega)
        rw [hsame.once] at hmem
        have hlow := BitVec.lt_def.mp (mem_blockNumbers.mp hmem).1
        rw [hone] at hlow
        omega
      · exact Or.inl ⟨n, rfl⟩
    · by_contra hstops
      exact hsame.not_dirty (dirty_run_of_stopsMidway honchain hserves hstops)
  · intro hgood
    obtain ⟨hstart, hgoes⟩ := hgood
    have hlastStart : (w.start answer).lastBlock = first := by
      rcases answer with e | n
      · rcases hstart with ⟨n, hn⟩ | hzero
        · cases hn
        · exact hnew.lastBlock.trans hzero.symm
      · exact hanswer n rfl
    obtain ⟨_, hupto⟩ := upToDate_of_reachable honchain hlastStart
      (Machine.ReachableUnder.run (.init rfl) hserves hgoes)
    obtain ⟨hclean, hcleanLast⟩ := clean_record hhead hfirst hfresh
    have hpublished : (w.start answer).published = [] := by
      cases answer <;> exact hnew.published
    apply sameAsClean_of_record _ (hlast.trans hcleanLast.symm) (by rw [hlast]; exact hhead)
      hpublished hupto
    rw [hupto, hlast, hrecord, hclean]

end BlockWatcher

end Runs

/-! ## A poll that fails at its second block -/

section Twice

/-- The node of two blocks, which fails to give the second one. -/
def failingNode : Provider :=
  { twoBlocks.provider with
    getBlock := fun n => if n = 2 then .error (.transport [.text "no answer"])
      else .ok twoBlocks.blocks[n.toNat]? }

/-- A watcher before its first poll. -/
def newWatcher : BlockWatcher := startedWatch.watcher

/-- It has seen and published nothing. -/
theorem newWatcher_new : newWatcher.New := ⟨rfl, rfl, rfl⟩

/-- The node that answers every question is a node of this chain. -/
theorem serves_twoBlocks : Serves twoBlocks 0 twoBlocks.provider where
  number n hn := by
    cases hn
    exact ⟨by decide, BitVec.le_refl _⟩
  block n b hb := Except.ok.inj hb
  logs filter logs hlogs := (Except.ok.inj hlogs).symm

/-- So is the one that fails at the second block. -/
theorem serves_failingNode : Serves twoBlocks 0 failingNode where
  number := serves_twoBlocks.number
  block n b hb := by
    unfold failingNode at hb
    by_cases hn : n = 2
    · simp [hn] at hb
    · simp only [hn, if_false] at hb
      exact Except.ok.inj hb
  logs := serves_twoBlocks.logs

/-- Block one is published by the poll that fails and by the next one. -/
theorem published_twice :
    letI := polynomialDigest
    (pollMachine twoBlocks 0 newWatcher).EnabledAlong [failingNode, twoBlocks.provider]
        newWatcher ∧
      CaughtUp (pollMachine twoBlocks 0 newWatcher) [failingNode, twoBlocks.provider] 2
        newWatcher ∧
      ¬ ((pollMachine twoBlocks 0 newWatcher).run [failingNode, twoBlocks.provider]
        newWatcher).SameAsClean (newWatcher.clean twoBlocks 0 2) 0 := by
  let _ := polynomialDigest
  refine ⟨⟨serves_failingNode, serves_twoBlocks, trivial⟩,
    ⟨[failingNode], twoBlocks.provider, rfl, rfl, by decide +kernel, by decide +kernel⟩, ?_⟩
  intro hsame
  exact absurd hsame.once (by decide +kernel)

/-- The condition at the same run, with the first question answered. -/
theorem sameAsClean_iff_twoBlocks :
    letI := polynomialDigest
    BlockWatcher.SameAsClean
        ((pollMachine twoBlocks 0 (newWatcher.start (.ok 0))).run [failingNode, twoBlocks.provider]
          (newWatcher.start (.ok 0)))
        (newWatcher.clean twoBlocks 0 2) 0 ↔
      ((∃ n, (Except.ok 0 : Except ProviderError U64) = .ok n) ∨ (0 : U64) = 0) ∧
        (pollMachine twoBlocks 0 (newWatcher.start (.ok 0))).Along (fun w p => ¬ w.StopsMidway p)
          [failingNode, twoBlocks.provider] (newWatcher.start (.ok 0)) := by
  let _ := polynomialDigest
  apply BlockWatcher.sameAsClean_iff newWatcher_new
  · intro n hn
    exact (Except.ok.inj hn).symm
  · exact ⟨serves_failingNode, serves_twoBlocks, trivial⟩
  · exact ⟨[failingNode], twoBlocks.provider, rfl, rfl, by decide +kernel, by decide +kernel⟩

end Twice

end Bunzo
