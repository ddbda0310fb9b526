import Bunzo.BlockPolling

/-!
# How deep a fork goes

The watcher looks the parent of a new block up in its history.  On a fork the
parent is a block of the other branch, which the watcher has never seen, so it
finds nothing there and takes the whole history for gone.

* `Fork` — a recorded chain, and another branch of it with one block more.
* `Fork.parent_notMem` — the parent of the new block is not recorded.
* `fork_forgets_all` — what the watcher makes of a fork.
-/

namespace Bunzo

/-- The number of a block, and what the node returns for it. -/
abbrev NumberedBlock := U64 × ChainBlock

/-- The block comes right after the other one. -/
def Follows (a b : NumberedBlock) : Prop := b.1 = a.1 + 1 ∧ b.2.parentHash = a.2.hash

instance (a b : NumberedBlock) : Decidable (Follows a b) := inferInstanceAs (Decidable (_ ∧ _))

/-- What the watcher remembers of a block. -/
def remembered (b : NumberedBlock) : BlockEntry where
  number := b.1
  hash := b.2.hash
  baseFee := (b.2.baseFeePerGas.getD 0).setWidth 128

/-- A recorded chain and a new block on another branch of it.  The branches have
`common` in common; the recorded one goes on with `old`, the other one with blocks
the watcher has not seen. -/
structure Fork where
  common : List NumberedBlock
  old : List NumberedBlock
  unseen : List NumberedBlock
  block : NumberedBlock
  common_ne : common ≠ []
  old_ne : old ≠ []
  recorded : (common ++ old).IsChain Follows
  branch : (common ++ unseen ++ [block]).IsChain Follows
  apart : ∀ a ∈ old.head?, ∀ b ∈ unseen.head?, a ≠ b
  distinct : ∀ a ∈ common ++ old, ∀ b ∈ common ++ unseen, a.2.hash = b.2.hash → a = b
  next : ∀ newest ∈ (common ++ old).getLast?,
    block.1 = newest.1 + 1 ∧ block.2.parentHash ≠ newest.2.hash
  length_lt : (common ++ old).length < 2 ^ 64

/-- In a chain the number of the last block tells how many blocks there are. -/
theorem number_last {last : NumberedBlock} {blocks : List NumberedBlock} :
    ∀ {first : NumberedBlock}, (first :: blocks).IsChain Follows →
      last ∈ (first :: blocks).getLast? → last.1 = first.1 + BitVec.ofNat 64 blocks.length := by
  induction blocks with
  | nil =>
      intro first _ hlast
      obtain rfl : first = last := by simpa using hlast
      exact (BitVec.add_zero _).symm
  | cons next blocks ih =>
      intro first hchain hlast
      rw [List.isChain_cons_cons] at hchain
      rw [List.getLast?_cons_cons] at hlast
      rw [ih hchain.2 hlast, hchain.1.1, List.length_cons, Nat.add_comm, BitVec.ofNat_add,
        BitVec.add_assoc]
      rfl

namespace Fork

variable (fork : Fork)

/-- The history of a watcher that has recorded the chain. -/
def history : List BlockEntry := (fork.common ++ fork.old).map remembered

theorem exists_newest : ∃ newest, newest ∈ (fork.common ++ fork.old).getLast? :=
  Option.isSome_iff_exists.mp
    (List.getLast?_isSome.mpr (List.append_ne_nil_of_left_ne_nil fork.common_ne fork.old))

/-- Only the newest recorded block has its number. -/
theorem eq_newest {newest a : NumberedBlock} (hnewest : newest ∈ (fork.common ++ fork.old).getLast?)
    (ha : a ∈ fork.common ++ fork.old) (hnumber : a.1 = newest.1) : a = newest := by
  obtain ⟨before, after, hsplit⟩ := List.append_of_mem ha
  have hchain := fork.recorded
  have hlength := fork.length_lt
  rw [hsplit] at hnewest hchain hlength
  rw [List.isChain_append] at hchain
  rw [List.getLast?_append_of_ne_nil _ (List.cons_ne_nil a after)] at hnewest
  have hlast := number_last hchain.2.1 hnewest
  rw [← hnumber] at hlast
  have hzero : BitVec.ofNat 64 after.length = 0#64 := BitVec.self_eq_add_right.mp hlast
  have hmod := congrArg BitVec.toNat hzero
  rw [BitVec.toNat_ofNat, BitVec.toNat_ofNat] at hmod
  rw [List.length_append, List.length_cons] at hlength
  obtain rfl : after = [] := by
    apply List.length_eq_zero_iff.mp
    omega
  simpa using hnewest

/-- **The parent of the new block is not recorded.**  It has the number of the
newest recorded block, and is not that block. -/
theorem parent_notMem : ∀ entry ∈ fork.history, entry.hash ≠ fork.block.2.parentHash := by
  intro entry hentry hhash
  obtain ⟨a, ha, rfl⟩ := List.mem_map.mp hentry
  obtain ⟨newest, hnewest⟩ := fork.exists_newest
  obtain ⟨parent, hparent⟩ := Option.isSome_iff_exists.mp
    (List.getLast?_isSome.mpr (List.append_ne_nil_of_left_ne_nil fork.common_ne fork.unseen))
  obtain ⟨hnext, hdiffers⟩ := fork.next newest hnewest
  have hbranch := fork.branch
  rw [List.isChain_append] at hbranch
  obtain ⟨hnumber, hlink⟩ := hbranch.2.2 parent hparent fork.block rfl
  -- a recorded block with the hash of the parent is the parent, and so the newest one
  obtain rfl := fork.distinct a ha parent (List.mem_of_getLast? hparent) (hhash.trans hlink)
  have hsame : a.1 = newest.1 := (BitVec.add_left_inj 1).mp (hnumber.symm.trans hnext)
  obtain rfl := fork.eq_newest hnewest ha hsame
  exact hdiffers hlink

theorem detectReorgDepth_eq {w : BlockWatcher} (hw : w.blockHistory = fork.history) :
    w.detectReorgDepth fork.block.2.parentHash = BitVec.ofNat 64 fork.history.length := by
  have hnone : w.blockHistory.reverse.findIdx?
      (fun entry => entry.hash = fork.block.2.parentHash) = none := by
    rw [List.findIdx?_eq_none_iff]
    intro entry hentry
    rw [List.mem_reverse, hw] at hentry
    simpa using fork.parent_notMem entry hentry
  unfold BlockWatcher.detectReorgDepth
  rw [hnone, hw]

theorem toNat_length_history :
    (BitVec.ofNat 64 fork.history.length).toNat = fork.history.length := by
  have hlength := fork.length_lt
  rw [BitVec.toNat_ofNat]
  apply Nat.mod_eq_of_lt
  rwa [history, List.length_map]

/-- The recorded chain has more blocks than the fork takes back. -/
theorem length_history : fork.old.length < fork.history.length := by
  have hcommon := List.length_pos_iff.mpr fork.common_ne
  rw [history, List.length_map, List.length_append]
  omega

end Fork

/-! ## What the watcher makes of it -/

section Reorgs

variable {w : BlockWatcher} {provider : Provider} {fork : Fork}

/-- On a fork the watcher forgets its history and publishes its length. -/
theorem noticeReorg_fork (hw : w.blockHistory = fork.history) :
    w.noticeReorg fork.block.1 fork.block.2 =
      (w.handleReorg (BitVec.ofNat 64 fork.history.length)).publish
        (.reorg (BitVec.ofNat 64 fork.history.length) fork.block.1) := by
  obtain ⟨newest, hnewest⟩ := fork.exists_newest
  obtain ⟨hnext, hdiffers⟩ := fork.next newest hnewest
  have hlast : w.blockHistory.getLast? = some (remembered newest) := by
    rw [hw, Fork.history, List.getLast?_map, hnewest]
    rfl
  have hpos : (0 : U64) < BitVec.ofNat 64 fork.history.length := by
    rw [BitVec.lt_def, fork.toNat_length_history]
    exact (Nat.zero_le _).trans_lt fork.length_history
  unfold BlockWatcher.noticeReorg
  rw [hlast]
  simp only
  rw [if_pos ⟨hdiffers, hnext⟩, fork.detectReorgDepth_eq hw, if_pos hpos]

theorem handleReorg_fork (hw : w.blockHistory = fork.history) :
    (w.handleReorg (BitVec.ofNat 64 fork.history.length)).blockHistory = [] := by
  unfold BlockWatcher.handleReorg
  simp only
  rw [fork.toNat_length_history, hw, Nat.sub_self, List.take_zero]

variable [Keccak]

/-- Going through the logs publishes nothing; recording a block publishes it. -/
theorem published_processBlock {n : U64} {block : ChainBlock}
    (hblock : provider.getBlock n = .ok (some block)) :
    ∃ rest, (w.processBlock provider n).2.published =
        ((w.storeBaseFee block).noticeReorg n block).published ++ rest ∧
      ∀ event ∈ rest, ∃ number hash baseFee timestamp,
        event = .newBlock number hash baseFee timestamp := by
  have hsame : (((w.storeBaseFee block).noticeReorg n block).scanBlock provider n).2.published =
      ((w.storeBaseFee block).noticeReorg n block).published := rfl
  unfold BlockWatcher.processBlock
  rw [hblock]
  simp only
  rcases hscan : ((w.storeBaseFee block).noticeReorg n block).scanBlock provider n with
    ⟨e | u, w'⟩
  all_goals rw [hscan] at hsame
  · exact ⟨[], by simpa using hsame, by simp⟩
  · refine ⟨[_], congrArg (· ++ _) hsame, ?_⟩
    intro event hevent
    rw [List.mem_singleton] at hevent
    exact ⟨_, _, _, _, hevent⟩

/-- The one reorganisation that is published has the length of the history. -/
theorem reorg_mem_published (hw : w.blockHistory = fork.history)
    (hblock : provider.getBlock fork.block.1 = .ok (some fork.block.2)) (depth : U64) :
    .reorg depth fork.block.1 ∈
        (w.processBlock provider fork.block.1).2.published.drop w.published.length ↔
      depth = BitVec.ofNat 64 fork.history.length := by
  obtain ⟨rest, hpublished, hrest⟩ := published_processBlock (w := w) hblock
  have hstored : (w.storeBaseFee fork.block.2).blockHistory = fork.history := hw
  rw [hpublished, noticeReorg_fork hstored]
  change _ ∈ ((w.published ++ [_]) ++ rest).drop w.published.length ↔ _
  rw [List.append_assoc, List.drop_left, List.singleton_append, List.mem_cons]
  refine ⟨?_, fun h => Or.inl (h ▸ rfl)⟩
  rintro (heq | hmem)
  · exact (ChainEvent.reorg.inj heq).1
  · obtain ⟨_, _, _, _, heq⟩ := hrest _ hmem
    cases heq

/-- **A fork takes the whole history back.**  Whatever its depth, the watcher finds
the length of its history, publishes that and keeps nothing, and is right about the
depth, about the event and about the common blocks of no fork. -/
theorem fork_forgets_all (w : BlockWatcher) (provider : Provider) (fork : Fork)
    (hw : w.blockHistory = fork.history)
    (hblock : provider.getBlock fork.block.1 = .ok (some fork.block.2)) :
    ((w.detectReorgDepth fork.block.2.parentHash).toNat = fork.history.length ∧
      (w.handleReorg (w.detectReorgDepth fork.block.2.parentHash)).blockHistory = []) ∧
    (w.detectReorgDepth fork.block.2.parentHash).toNat ≠ fork.old.length ∧
    (.reorg (BitVec.ofNat 64 fork.old.length) fork.block.1 ∉
      (w.processBlock provider fork.block.1).2.published.drop w.published.length) ∧
    (w.handleReorg (w.detectReorgDepth fork.block.2.parentHash)).blockHistory ≠
      fork.common.map remembered := by
  have hdetects : (w.detectReorgDepth fork.block.2.parentHash).toNat = fork.history.length := by
    rw [fork.detectReorgDepth_eq hw, fork.toNat_length_history]
  have hkeeps : (w.handleReorg (w.detectReorgDepth fork.block.2.parentHash)).blockHistory = [] := by
    rw [fork.detectReorgDepth_eq hw]
    exact handleReorg_fork hw
  have hfewer := fork.length_history
  have hlength := fork.length_lt
  refine ⟨⟨hdetects, hkeeps⟩, by omega, ?_, ?_⟩
  · rw [reorg_mem_published hw hblock]
    intro heq
    have hnat := congrArg BitVec.toNat heq
    rw [List.length_append] at hlength
    rw [fork.toNat_length_history, BitVec.toNat_ofNat, Nat.mod_eq_of_lt (by omega)] at hnat
    omega
  · rw [hkeeps]
    intro heq
    exact fork.common_ne (List.map_eq_nil_iff.mp heq.symm)

end Reorgs

/-- Three recorded blocks, the newest of which is replaced: a block 3 follows
another block 2. -/
def newestReplaced : Fork where
  common := [(0, plainBlock 0xA0 0), (1, plainBlock 0xA1 0xA0)]
  old := [(2, plainBlock 0xA2 0xA1)]
  unseen := [(2, plainBlock 0xB2 0xA1)]
  block := (3, plainBlock 0xB3 0xB2)
  common_ne := by decide
  old_ne := by decide
  recorded := by decide
  branch := by decide
  apart := by
    intro a ha b hb hab
    obtain rfl := Option.some.inj ha
    obtain rfl := Option.some.inj hb
    exact absurd (congrArg (fun block => block.2.hash) hab) (by decide)
  distinct := by
    intro a ha b hb hhash
    rcases (by simpa using ha : a = _ ∨ a = _ ∨ a = _) with rfl | rfl | rfl
    all_goals
      rcases (by simpa using hb : b = _ ∨ b = _ ∨ b = _) with rfl | rfl | rfl
      all_goals first | rfl | exact absurd hhash (by decide)
  next := by decide
  length_lt := by decide

/-- A watcher that has recorded the three blocks. -/
def recordedWatch : BlockWatcher :=
  { startedWatch.watcher with blockHistory := newestReplaced.history }

/-- A node that has the new block. -/
def replacedNode : Provider where
  getBlockNumber := .ok 3
  getBlock _ := .ok (some newestReplaced.block.2)
  getLogs _ := .ok []

/-- A fork of depth one is taken for one of depth three, and the two blocks that both
branches have are forgotten. -/
theorem newestReplaced_forgotten :
    letI := polynomialDigest
    newestReplaced.old.length = 1 ∧
      recordedWatch.detectReorgDepth newestReplaced.block.2.parentHash = 3 ∧
      (recordedWatch.processBlock replacedNode 3).2.published =
        [.reorg 3 3, .newBlock 3 0xB3 7 0] ∧
      (recordedWatch.handleReorg 3).blockHistory = [] ∧
      newestReplaced.common.length = 2 := by
  decide +kernel

theorem fork_forgets_all_newest :
    letI := polynomialDigest
    (recordedWatch.detectReorgDepth newestReplaced.block.2.parentHash).toNat ≠ 1 ∧
      (recordedWatch.handleReorg (recordedWatch.detectReorgDepth
        newestReplaced.block.2.parentHash)).blockHistory ≠ newestReplaced.common.map remembered :=
  let _ := polynomialDigest
  let h := fork_forgets_all recordedWatch replacedNode newestReplaced rfl rfl
  ⟨h.2.1, h.2.2.2⟩

end Bunzo
