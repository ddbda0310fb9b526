import Bunzo.ChainTypes
import Bunzo.ReachableStates

/-!
# Storage conflicts between operations

An operation records the storage slots it reads and writes.  The detector is
told of the operations of a bundle one after another; it remembers who accessed
a slot, and who wrote it last.

* `Records` — what the detector knows about the operations added so far.
* `checkConflicts_eq_empty_iff` — when an operation may be added.
* `isolated_of_reachable` — if only such operations are added, none writes a
  slot that one of another sender accesses.  The last writer of a slot is
  enough to know: once there is one, everyone who accesses the slot is of the
  same sender.
-/

namespace Bunzo

open ReachableStates

/-- How an operation touches a slot. -/
inductive AccessType where
  | read
  | write
deriving DecidableEq

/-- A slot of one account's storage, the key of both maps. -/
structure StorageSlot where
  address : Address
  slot : B256
deriving DecidableEq

namespace StorageSlot

/-- Slots are ordered by account, then by position. -/
instance : Ord StorageSlot :=
  ⟨compareLex (compareOn StorageSlot.address) (compareOn StorageSlot.slot)⟩

instance : Std.TransOrd StorageSlot :=
  inferInstanceAs (Std.TransCmp (compareLex (compareOn StorageSlot.address)
    (compareOn StorageSlot.slot)))

/-- Slots that compare equal are equal, so that a map has one place for each. -/
instance : Std.LawfulEqOrd StorageSlot where
  eq_of_compare {a b} h := by
    obtain ⟨haddress, hslot⟩ := Ordering.then_eq_eq.mp h
    cases a
    cases b
    congr
    · exact Std.LawfulEqCmp.eq_of_compare haddress
    · exact Std.LawfulEqCmp.eq_of_compare hslot

end StorageSlot

/-- The slots an operation accesses, each with its strongest access. -/
structure StorageAccess where
  slots : Std.ExtTreeMap StorageSlot AccessType

namespace StorageAccess

/-- The record of an operation that touches nothing. -/
def empty : StorageAccess := { slots := ∅ }

/-- A read does not weaken an access that is already recorded. -/
def recordRead (access : StorageAccess) (key : StorageSlot) : StorageAccess :=
  match access.slots.get? key with
  | some _ => access
  | none => { slots := access.slots.insert key .read }

/-- A write stands, whatever was recorded before. -/
def recordWrite (access : StorageAccess) (key : StorageSlot) : StorageAccess :=
  { slots := access.slots.insert key .write }

/-- The recorded slots, each with its access. -/
def accessedSlots (access : StorageAccess) : List (StorageSlot × AccessType) :=
  access.slots.toList

/-- Record one access of either type. -/
def record (access : StorageAccess) : StorageSlot × AccessType → StorageAccess
  | (key, .read) => access.recordRead key
  | (key, .write) => access.recordWrite key

/-- The record of a sequence of accesses. -/
def ofAccesses (accesses : List (StorageSlot × AccessType)) : StorageAccess :=
  accesses.foldl record empty

end StorageAccess

/-- What is kept of the operations added so far: by slot, who accessed it and who
wrote it last, and by index, the sender. -/
structure ConflictDetector where
  accessed : Std.ExtTreeMap StorageSlot (List Nat)
  written : Std.ExtTreeMap StorageSlot Nat
  senders : List Address

namespace ConflictDetector

/-- A detector that was told of no operation. -/
def new : ConflictDetector := { accessed := ∅, written := ∅, senders := [] }

/-- Everything is cleared. -/
def reset (_ : ConflictDetector) : ConflictDetector := new

/-- The operations that accessed a slot. -/
def accessors (detector : ConflictDetector) (key : StorageSlot) : List Nat :=
  (detector.accessed.get? key).getD []

/-- The operation is of another sender. -/
def ofAnother (detector : ConflictDetector) (sender : Address) (idx : Nat) : Bool :=
  decide (detector.senders[idx]? ≠ some sender)

/-- The operations that one access conflicts with. -/
def conflictsAt (detector : ConflictDetector) (sender : Address) :
    StorageSlot × AccessType → List Nat
  -- a write conflicts with every access, a read with the last write only
  | (key, .write) => (detector.accessors key).filter (detector.ofAnother sender)
  | (key, .read) => (detector.written.get? key).toList.filter (detector.ofAnother sender)

/-- The operations added so far that an operation conflicts with, of other senders
only. -/
def checkConflicts (detector : ConflictDetector) (sender : Address) (access : StorageAccess) :
    Finset Nat :=
  access.accessedSlots.foldl
    (fun conflicts entry => conflicts ∪ (detector.conflictsAt sender entry).toFinset) ∅

/-- Note one access of an operation. -/
def note (idx : Nat) (detector : ConflictDetector) : StorageSlot × AccessType → ConflictDetector
  | (key, accessType) =>
      { detector with
        accessed := detector.accessed.insert key (detector.accessors key ++ [idx])
        written :=
          match accessType with
          | .write => detector.written.insert key idx
          | .read => detector.written }

/-- The next index goes to the operation; it is noted at each slot that it
accesses. -/
def addOperation (detector : ConflictDetector) (sender : Address) (access : StorageAccess) :
    Nat × ConflictDetector :=
  let idx := detector.senders.length
  (idx, access.accessedSlots.foldl (note idx)
    { detector with senders := detector.senders ++ [sender] })

end ConflictDetector

/-! ## What is recorded -/

section Records

namespace StorageAccess

/-- A slot that is recorded already stays as it is. -/
theorem recordRead_of_some {access : StorageAccess} {key : StorageSlot} {old : AccessType}
    (h : access.slots.get? key = some old) : access.recordRead key = access := by
  unfold recordRead
  rw [h]

/-- A slot that is not recorded yet becomes a read. -/
theorem recordRead_of_none {access : StorageAccess} {key : StorageSlot}
    (h : access.slots.get? key = none) :
    access.recordRead key = { slots := access.slots.insert key .read } := by
  unfold recordRead
  rw [h]

/-- An insertion is seen at its own slot only. -/
theorem get?_insert (slots : Std.ExtTreeMap StorageSlot AccessType) (slot key : StorageSlot)
    (accessType : AccessType) :
    (slots.insert slot accessType).get? key =
      if slot = key then some accessType else slots.get? key := by
  simp only [Std.ExtTreeMap.get?_eq_getElem?, Std.ExtTreeMap.getElem?_insert,
    Std.compare_eq_iff_eq]

/-- After a write the slot is a write. -/
theorem get?_recordWrite (access : StorageAccess) (slot key : StorageSlot) :
    (access.recordWrite slot).slots.get? key =
      if slot = key then some .write else access.slots.get? key :=
  get?_insert _ _ _ _

/-- After a read the slot is what it was, and a read if it was nothing. -/
theorem get?_recordRead (access : StorageAccess) (slot key : StorageSlot) :
    (access.recordRead slot).slots.get? key =
      if slot = key then some ((access.slots.get? key).getD .read)
      else access.slots.get? key := by
  cases hold : access.slots.get? slot with
  | some old =>
      rw [recordRead_of_some hold]
      split
      · next hkey => rw [← hkey, hold, Option.getD_some]
      · rfl
  | none =>
      rw [recordRead_of_none hold, get?_insert]
      split
      · next hkey => rw [← hkey, hold, Option.getD_none]
      · rfl

/-- **What a record says.**  A slot is recorded as written if there was a write,
as read if there were only reads. -/
theorem get?_ofAccesses (accesses : List (StorageSlot × AccessType)) (key : StorageSlot) :
    (ofAccesses accesses).slots.get? key =
      if (key, .write) ∈ accesses then some .write
      else if (key, .read) ∈ accesses then some .read
      else none := by
  induction accesses using List.reverseRecOn with
  | nil => simp [ofAccesses, empty]
  | append_singleton accesses entry ih =>
      have hlast : ofAccesses (accesses ++ [entry]) = (ofAccesses accesses).record entry := by
        unfold ofAccesses
        rw [List.foldl_append]
        rfl
      rcases entry with ⟨slot, accessType⟩
      cases accessType with
      | read =>
          rw [hlast, record, get?_recordRead, ih]
          grind
      | write =>
          rw [hlast, record, get?_recordWrite, ih]
          grind

/-- The list of slots is the map, entry by entry. -/
theorem mem_accessedSlots (access : StorageAccess) (key : StorageSlot) (accessType : AccessType) :
    (key, accessType) ∈ access.accessedSlots ↔ access.slots.get? key = some accessType :=
  Std.ExtTreeMap.mem_toList_iff_getElem?_eq_some

/-- The writes of a record are the writes that were made. -/
theorem write_mem_ofAccesses (accesses : List (StorageSlot × AccessType)) (key : StorageSlot) :
    (key, .write) ∈ (ofAccesses accesses).accessedSlots ↔ (key, .write) ∈ accesses := by
  rw [mem_accessedSlots, get?_ofAccesses]
  grind

/-- A record has the slots that were accessed, no others. -/
theorem exists_mem_ofAccesses (accesses : List (StorageSlot × AccessType)) (key : StorageSlot) :
    (∃ accessType, (key, accessType) ∈ (ofAccesses accesses).accessedSlots) ↔
      ∃ accessType, (key, accessType) ∈ accesses := by
  simp only [mem_accessedSlots, get?_ofAccesses]
  refine ⟨?_, ?_⟩
  · intro h
    obtain ⟨accessType, h⟩ := h
    exact ⟨accessType, by grind⟩
  · intro h
    obtain ⟨accessType, h⟩ := h
    by_cases hwrite : (key, AccessType.write) ∈ accesses
    · exact ⟨.write, by rw [if_pos hwrite]⟩
    · refine ⟨.read, ?_⟩
      cases accessType with
      | read => rw [if_neg hwrite, if_pos h]
      | write => exact absurd h hwrite

end StorageAccess

namespace ConflictDetector

variable {detector : ConflictDetector} {sender : Address}

/-- A noted access adds the operation at the accessed slot. -/
theorem accessors_note (idx : Nat) (entry : StorageSlot × AccessType) (key : StorageSlot) :
    (note idx detector entry).accessors key =
      if entry.1 = key then detector.accessors key ++ [idx] else detector.accessors key := by
  unfold note accessors
  simp only [Std.ExtTreeMap.get?_eq_getElem?, Std.ExtTreeMap.getElem?_insert,
    Std.compare_eq_iff_eq]
  split
  · next hkey => rw [hkey, Option.getD_some]
  · rfl

/-- A noted write makes the operation the last writer, a noted read nothing. -/
theorem written_note (idx : Nat) (entry : StorageSlot × AccessType) (key : StorageSlot) :
    (note idx detector entry).written.get? key =
      if entry = (key, .write) then some idx else detector.written.get? key := by
  rcases entry with ⟨slot, accessType⟩
  cases accessType with
  | read => simp [note]
  | write =>
      simp only [note, Std.ExtTreeMap.get?_eq_getElem?, Std.ExtTreeMap.getElem?_insert,
        Std.compare_eq_iff_eq, Prod.mk.injEq, and_true]

/-- What noting a list of accesses changes. -/
theorem foldl_note (idx : Nat) (entries : List (StorageSlot × AccessType)) :
    ∀ detector : ConflictDetector,
      (entries.foldl (note idx) detector).senders = detector.senders ∧
      (∀ key i, i ∈ (entries.foldl (note idx) detector).accessors key ↔
        i ∈ detector.accessors key ∨ (i = idx ∧ ∃ accessType, (key, accessType) ∈ entries)) ∧
      ∀ key, (entries.foldl (note idx) detector).written.get? key =
        if (key, .write) ∈ entries then some idx else detector.written.get? key := by
  induction entries with
  | nil =>
      intro detector
      simp
  | cons entry entries ih =>
      intro detector
      obtain ⟨hsenders, haccessors, hwritten⟩ := ih (note idx detector entry)
      refine ⟨hsenders, ?_, ?_⟩
      · intro key i
        rw [List.foldl_cons, haccessors, accessors_note]
        grind
      · intro key
        rw [List.foldl_cons, hwritten, written_note]
        grind

/-- What is gathered over a list of accesses: what was there, and the conflicts of
each. -/
theorem mem_checkConflicts_foldl (entries : List (StorageSlot × AccessType)) (i : Nat) :
    ∀ conflicts : Finset Nat,
      i ∈ entries.foldl
          (fun conflicts entry => conflicts ∪ (detector.conflictsAt sender entry).toFinset)
          conflicts ↔
        i ∈ conflicts ∨ ∃ entry ∈ entries, i ∈ detector.conflictsAt sender entry := by
  induction entries with
  | nil =>
      intro conflicts
      simp
  | cons entry entries ih =>
      intro conflicts
      rw [List.foldl_cons, ih]
      simp [or_assoc]

/-- **No conflicts.**  Whoever accessed a slot that is written, and whoever wrote
a slot that is read, is of the same sender. -/
theorem checkConflicts_eq_empty_iff (access : StorageAccess) :
    detector.checkConflicts sender access = ∅ ↔
      (∀ key, (key, .write) ∈ access.accessedSlots →
        ∀ i ∈ detector.accessors key, detector.senders[i]? = some sender) ∧
      ∀ key, (key, .read) ∈ access.accessedSlots →
        ∀ i, detector.written.get? key = some i → detector.senders[i]? = some sender := by
  unfold checkConflicts
  simp only [Finset.eq_empty_iff_forall_notMem, mem_checkConflicts_foldl, Finset.notMem_empty,
    false_or, not_exists, not_and]
  refine ⟨?_, ?_⟩
  · intro h
    refine ⟨?_, ?_⟩
    · intro key hkey i hi
      have hnone := h i (key, .write) hkey
      simp only [conflictsAt, List.mem_filter, ofAnother, not_and] at hnone
      simpa using hnone hi
    · intro key hkey i hi
      have hnone := h i (key, .read) hkey
      simp only [conflictsAt, List.mem_filter, ofAnother, not_and, Option.mem_toList] at hnone
      simpa using hnone hi
  · intro h i entry hentry
    obtain ⟨hwrite, hread⟩ := h
    rcases entry with ⟨key, accessType⟩
    cases accessType with
    | write =>
        simp only [conflictsAt, List.mem_filter, ofAnother, not_and]
        intro hi
        simp [hwrite key hentry i hi]
    | read =>
        simp only [conflictsAt, List.mem_filter, ofAnother, not_and, Option.mem_toList]
        intro hi
        simp [hread key hentry i hi]

end ConflictDetector

end Records

/-! ## Added operations -/

/-- An operation the detector was told of: its sender and its accesses. -/
structure TracedOp where
  sender : Address
  accesses : List (StorageSlot × AccessType)
deriving DecidableEq

namespace TracedOp

/-- The operation writes the slot. -/
def Writes (op : TracedOp) (key : StorageSlot) : Prop := (key, .write) ∈ op.accesses

/-- The operation reads or writes the slot. -/
def Touches (op : TracedOp) (key : StorageSlot) : Prop :=
  ∃ accessType, (key, accessType) ∈ op.accesses

/-- Writing a slot is one way of accessing it. -/
theorem Writes.touches {op : TracedOp} {key : StorageSlot} (h : op.Writes key) : op.Touches key :=
  ⟨_, h⟩

end TracedOp

/-- No operation writes a slot that one of another sender reads or writes. -/
def Isolated (added : List TracedOp) : Prop :=
  ∀ op₁ ∈ added, ∀ op₂ ∈ added, op₁.sender ≠ op₂.sender →
    ∀ key, op₁.Writes key → ¬ op₂.Touches key

/-- The detector knows the senders, who touched each slot, and one writer of
each written slot. -/
structure ConflictDetector.Records (detector : ConflictDetector) (added : List TracedOp) :
    Prop where
  senders_eq : detector.senders = added.map TracedOp.sender
  accessors_iff : ∀ key i, i ∈ detector.accessors key ↔
    ∃ op, added[i]? = some op ∧ op.Touches key
  written_of_writes : ∀ key, ∀ op ∈ added, op.Writes key → ∃ i, detector.written.get? key = some i
  writes_of_written : ∀ key i, detector.written.get? key = some i →
    ∃ op, added[i]? = some op ∧ op.Writes key

namespace ConflictDetector.Records

variable {detector : ConflictDetector} {added : List TracedOp}

/-- Before the first operation there is nothing to know. -/
theorem new : ConflictDetector.new.Records [] where
  senders_eq := rfl
  accessors_iff := by
    intro key i
    simp [ConflictDetector.new, accessors]
  written_of_writes := by
    intro key op hop
    cases hop
  writes_of_written := by
    intro key i hi
    simp [ConflictDetector.new] at hi

/-- Every operation has one index. -/
theorem length_senders (h : detector.Records added) : detector.senders.length = added.length := by
  rw [h.senders_eq, List.length_map]

/-- An index leads to the operation's sender. -/
theorem sender_eq (h : detector.Records added) {i : Nat} {op : TracedOp}
    (hop : added[i]? = some op) : detector.senders[i]? = some op.sender := by
  rw [h.senders_eq, List.getElem?_map, hop]
  rfl

/-- Adding an operation records it. -/
theorem addOperation (h : detector.Records added) (op : TracedOp) :
    (detector.addOperation op.sender (.ofAccesses op.accesses)).2.Records (added ++ [op]) := by
  obtain ⟨hsenders, haccessors, hwritten⟩ :=
    foldl_note detector.senders.length (StorageAccess.ofAccesses op.accesses).accessedSlots
      { detector with senders := detector.senders ++ [op.sender] }
  have hlast : ∀ i, (added ++ [op])[i]? = if i = added.length then some op else added[i]? := by
    intro i
    grind
  constructor
  · rw [ConflictDetector.addOperation, hsenders, h.senders_eq, List.map_append]
    rfl
  · intro key i
    rw [ConflictDetector.addOperation, haccessors, StorageAccess.exists_mem_ofAccesses,
      h.length_senders, hlast]
    change i ∈ detector.accessors key ∨ _ ↔ _
    rw [h.accessors_iff]
    by_cases hi : i = added.length
    · subst hi
      simp [TracedOp.Touches]
    · simp [hi]
  · intro key op' hop' hwrites
    rw [ConflictDetector.addOperation, hwritten]
    by_cases hnew : (key, .write) ∈ (StorageAccess.ofAccesses op.accesses).accessedSlots
    · exact ⟨_, if_pos hnew⟩
    · rw [if_neg hnew]
      rw [StorageAccess.write_mem_ofAccesses] at hnew
      rcases List.mem_append.mp hop' with hold | hlast
      · exact h.written_of_writes key op' hold hwrites
      · rw [List.mem_singleton.mp hlast] at hwrites
        exact absurd hwrites hnew
  · intro key i hi
    rw [ConflictDetector.addOperation, hwritten] at hi
    rw [hlast]
    by_cases hnew : (key, .write) ∈ (StorageAccess.ofAccesses op.accesses).accessedSlots
    · rw [if_pos hnew, h.length_senders] at hi
      refine ⟨op, if_pos (Option.some.inj hi).symm, ?_⟩
      exact (StorageAccess.write_mem_ofAccesses _ _).mp hnew
    · rw [if_neg hnew] at hi
      obtain ⟨op', hop', hwrites⟩ := h.writes_of_written key i hi
      have hlt : i < added.length := (List.getElem?_eq_some_iff.mp hop').1
      exact ⟨op', by rw [if_neg (by omega), hop'], hwrites⟩

/-- **Free of conflicts.**  An operation that the detector finds no conflicts of
shares no written slot with an added one of another sender. -/
theorem isolated (h : detector.Records added) (hadded : Isolated added) {op : TracedOp}
    (hfree : detector.checkConflicts op.sender (.ofAccesses op.accesses) = ∅) :
    Isolated (added ++ [op]) := by
  obtain ⟨hwrite, hread⟩ := (checkConflicts_eq_empty_iff _).mp hfree
  -- who touched a slot the new operation writes
  have hnew : ∀ old ∈ added, ∀ key, op.Writes key → old.Touches key → old.sender = op.sender := by
    intro old hold key hwrites htouches
    obtain ⟨i, hi⟩ := List.getElem?_of_mem hold
    have hmem := (h.accessors_iff key i).mpr ⟨old, hi, htouches⟩
    have hsame := hwrite key ((StorageAccess.write_mem_ofAccesses _ _).mpr hwrites) i hmem
    rw [h.sender_eq hi] at hsame
    exact Option.some.inj hsame
  -- who wrote a slot the new operation touches: the last writer stands for all
  have hold : ∀ old ∈ added, ∀ key, old.Writes key → op.Touches key → old.sender = op.sender := by
    intro old hold key hwrites htouches
    by_cases hboth : op.Writes key
    · exact hnew old hold key hboth hwrites.touches
    · obtain ⟨i, hi⟩ := h.written_of_writes key old hold hwrites
      obtain ⟨last, hlast, hlastWrites⟩ := h.writes_of_written key i hi
      have hsame : old.sender = last.sender := by
        by_contra hne
        exact hadded old hold last (List.mem_of_getElem? hlast) hne key hwrites
          hlastWrites.touches
      have hrecorded : (key, .read) ∈ (StorageAccess.ofAccesses op.accesses).accessedSlots := by
        obtain ⟨accessType, hmem⟩ := (StorageAccess.exists_mem_ofAccesses _ _).mpr htouches
        cases accessType with
        | read => exact hmem
        | write => exact absurd ((StorageAccess.write_mem_ofAccesses _ _).mp hmem) hboth
      have hreader := hread key hrecorded i hi
      rw [h.sender_eq hlast] at hreader
      rw [hsame]
      exact Option.some.inj hreader
  intro op₁ h₁ op₂ h₂ hne key hwrites htouches
  rcases List.mem_append.mp h₁ with hold₁ | hnew₁
  · rcases List.mem_append.mp h₂ with hold₂ | hnew₂
    · exact hadded op₁ hold₁ op₂ hold₂ hne key hwrites htouches
    · rw [List.mem_singleton.mp hnew₂] at hne htouches
      exact hne (hold op₁ hold₁ key hwrites htouches)
  · rw [List.mem_singleton.mp hnew₁] at hne hwrites
    rcases List.mem_append.mp h₂ with hold₂ | hnew₂
    · exact hne (hnew op₂ hold₂ key hwrites htouches).symm
    · exact hne (congrArg TracedOp.sender (List.mem_singleton.mp hnew₂)).symm

end ConflictDetector.Records

/-! ## Runs -/

/-- The detector, and the operations added since it was last reset. -/
structure ConflictRun where
  detector : ConflictDetector
  added : List TracedOp

/-- What happens to a detector: an operation is added, or everything is forgotten. -/
inductive DetectorEvent where
  | add (op : TracedOp)
  | reset
deriving DecidableEq

/-- An operation is added only if the detector finds no conflicts of it. -/
def conflictMachine : Machine ConflictRun DetectorEvent where
  init s := s.detector = ConflictDetector.new ∧ s.added = []
  enabled s
    | .add op => s.detector.checkConflicts op.sender (.ofAccesses op.accesses) = ∅
    | .reset => True
  next s
    | .add op =>
        { detector := (s.detector.addOperation op.sender (.ofAccesses op.accesses)).2
          added := s.added ++ [op] }
    | .reset => { detector := s.detector.reset, added := [] }

/-- Whether an operation may be added can be computed. -/
instance (s : ConflictRun) : ∀ e, Decidable (conflictMachine.enabled s e)
  | .add op =>
      inferInstanceAs (Decidable
        (s.detector.checkConflicts op.sender (.ofAccesses op.accesses) = ∅))
  | .reset => inferInstanceAs (Decidable True)

namespace ConflictRun

variable {s : ConflictRun}

/-- **The invariant.**  The detector knows what was added, and what was added is
isolated. -/
theorem records_of_reachable (h : conflictMachine.Reachable s) :
    s.detector.Records s.added ∧ Isolated s.added := by
  have hempty : Isolated [] := by
    intro op₁ h₁
    cases h₁
  apply h.invariant
  · intro s hinit
    obtain ⟨hnew, hnone⟩ := hinit
    rw [hnew, hnone]
    exact ⟨.new, hempty⟩
  · intro s e hs henabled _
    obtain ⟨hrecords, hisolated⟩ := hs
    cases e with
    | add op => exact ⟨hrecords.addOperation op, hrecords.isolated hisolated henabled⟩
    | reset => exact ⟨.new, hempty⟩

/-- **Added operations do not conflict.**  Along every run, no slot written by
one is read or written by one of another sender. -/
theorem isolated_of_reachable (h : conflictMachine.Reachable s) :
    ∀ op₁ ∈ s.added, ∀ op₂ ∈ s.added, op₁.sender ≠ op₂.sender →
      ∀ key, (key, .write) ∈ op₁.accesses →
        (key, .read) ∉ op₂.accesses ∧ (key, .write) ∉ op₂.accesses := by
  intro op₁ h₁ op₂ h₂ hne key hwrites
  have hisolated := (records_of_reachable h).2 op₁ h₁ op₂ h₂ hne key hwrites
  exact ⟨fun hread => hisolated ⟨_, hread⟩, fun hwrite => hisolated ⟨_, hwrite⟩⟩

end ConflictRun

/-! ## Two readers and a writer -/

/-- A slot that two operations are interested in. -/
def sharedSlot : StorageSlot := { address := 0xC, slot := 1 }

/-- A slot that only the first one writes. -/
def ownSlot : StorageSlot := { address := 0xC, slot := 2 }

/-- An operation that writes its own slot. -/
def writerOne : TracedOp := { sender := 1, accesses := [(ownSlot, .write)] }

/-- An operation of another sender that reads the shared slot. -/
def readerTwo : TracedOp := { sender := 2, accesses := [(sharedSlot, .read)] }

/-- Accounts one and two read a slot, account one writes another. -/
def threeOps : List DetectorEvent :=
  [.add { sender := 1, accesses := [(sharedSlot, .read)] }, .add readerTwo, .add writerOne]

/-- A run before its first operation. -/
def freshRun : ConflictRun := { detector := ConflictDetector.new, added := [] }

/-- The run after the three operations. -/
def afterThree : ConflictRun := conflictMachine.run threeOps freshRun

/-- What isolation says of the second operation there. -/
theorem isolated_afterThree :
    (ownSlot, .read) ∉ readerTwo.accesses ∧ (ownSlot, .write) ∉ readerTwo.accesses := by
  have hinit : conflictMachine.init freshRun := ⟨rfl, rfl⟩
  have henabled : conflictMachine.EnabledAlong threeOps freshRun := by decide +kernel
  have hreach : conflictMachine.Reachable afterThree := Machine.reachable_run (.init hinit) henabled
  exact ConflictRun.isolated_of_reachable hreach writerOne (by decide +kernel) readerTwo
    (by decide +kernel) (by decide) ownSlot (by decide)

end Bunzo
