import Bunzo.ConflictDetector

/-!
# Which conflicts the detector names

The detector is asked with whom an operation conflicts, and may be told of
operations that conflict.  Then one writer of a slot no longer stands for all:
only the last one is remembered.

* `Remembers` — what the detector knows, the last writer of each slot included.
* `mem_checkConflicts_iff` — the operations it names.
* `exact_iff` — when these are exactly the operations with a conflict.
-/

namespace Bunzo

open ReachableStates

/-- Nothing is lost by giving an access as a list: every record is that of its own
slots. -/
theorem StorageAccess.ofAccesses_accessedSlots (access : StorageAccess) :
    ofAccesses access.accessedSlots = access := by
  have hslots : (ofAccesses access.accessedSlots).slots = access.slots := by
    apply Std.ExtTreeMap.ext_getElem?
    intro key
    change (ofAccesses access.accessedSlots).slots.get? key = access.slots.get? key
    rw [get?_ofAccesses]
    simp only [mem_accessedSlots]
    split
    · next hwrite => exact hwrite.symm
    · next hwrite =>
        split
        · next hread => exact hread.symm
        · next hread =>
            cases hslot : access.slots.get? key with
            | none => rfl
            | some accessType =>
                cases accessType with
                | read => exact absurd hslot hread
                | write => exact absurd hslot hwrite
  cases access
  exact congrArg StorageAccess.mk hslots

/-- The operation reads the slot and does not write it. -/
def TracedOp.OnlyReads (op : TracedOp) (key : StorageSlot) : Prop :=
  op.Touches key ∧ ¬ op.Writes key

/-- A slot is written by one of the operations and accessed by the other. -/
def TracedOp.ConflictsWith (a b : TracedOp) : Prop :=
  ∃ key, (a.Writes key ∧ b.Touches key) ∨ (b.Writes key ∧ a.Touches key)

theorem TracedOp.onlyReads_iff {op : TracedOp} {key : StorageSlot} :
    op.OnlyReads key ↔ (key, .read) ∈ (StorageAccess.ofAccesses op.accesses).accessedSlots := by
  rw [StorageAccess.mem_accessedSlots, StorageAccess.get?_ofAccesses]
  unfold OnlyReads Writes Touches
  refine ⟨?_, ?_⟩
  · rintro ⟨⟨accessType, htouches⟩, hwrites⟩
    cases accessType with
    | read => rw [if_neg hwrites, if_pos htouches]
    | write => exact absurd htouches hwrites
  · intro hread
    split at hread
    · cases hread
    · next hwrites =>
        split at hread
        · next htouches => exact ⟨⟨.read, htouches⟩, hwrites⟩
        · cases hread

/-- The operation with this index writes the slot, and none after it does. -/
def LastWriter (added : List TracedOp) (key : StorageSlot) (i : Nat) : Prop :=
  ∃ op, added[i]? = some op ∧ op.Writes key ∧
    ∀ j later, i < j → added[j]? = some later → ¬ later.Writes key

namespace ConflictDetector

/-- The detector knows senders and accesses, and the last writer of each slot. -/
structure Remembers (detector : ConflictDetector) (added : List TracedOp) : Prop extends
    detector.Records added where
  last : ∀ key i, detector.written.get? key = some i →
    ∀ j later, i < j → added[j]? = some later → ¬ later.Writes key

namespace Remembers

variable {detector : ConflictDetector} {added : List TracedOp}

theorem new : ConflictDetector.new.Remembers [] where
  toRecords := .new
  last := by
    intro key i hi
    simp [ConflictDetector.new] at hi

/-- Adding an operation makes it the last writer of the slots it writes. -/
theorem addOperation (h : detector.Remembers added) (op : TracedOp) :
    (detector.addOperation op.sender (.ofAccesses op.accesses)).2.Remembers (added ++ [op]) where
  toRecords := h.toRecords.addOperation op
  last := by
    obtain ⟨_, _, hwritten⟩ :=
      foldl_note detector.senders.length (StorageAccess.ofAccesses op.accesses).accessedSlots
        { detector with senders := detector.senders ++ [op.sender] }
    intro key i hi j later hlt hlater hwrites
    rw [ConflictDetector.addOperation, hwritten] at hi
    have hrecorded := StorageAccess.write_mem_ofAccesses op.accesses key
    have hj : j < added.length + 1 := by
      have hbound := (List.getElem?_eq_some_iff.mp hlater).1
      rwa [List.length_append, List.length_singleton] at hbound
    by_cases hnew : op.Writes key
    · rw [if_pos (hrecorded.mpr hnew), h.length_senders] at hi
      have hlast := Option.some.inj hi
      omega
    · rw [if_neg (fun hwrite => hnew (hrecorded.mp hwrite))] at hi
      by_cases hold : j < added.length
      · rw [List.getElem?_append_left hold] at hlater
        exact h.last key i hi j later hlt hlater hwrites
      · obtain rfl : j = added.length := by omega
        rw [List.getElem?_concat_length] at hlater
        obtain rfl := Option.some.inj hlater
        exact hnew hwrites

theorem written_iff (h : detector.Remembers added) {key : StorageSlot} {i : Nat} :
    detector.written.get? key = some i ↔ LastWriter added key i := by
  refine ⟨?_, ?_⟩
  · intro hi
    obtain ⟨op, hop, hwrites⟩ := h.writes_of_written key i hi
    exact ⟨op, hop, hwrites, h.last key i hi⟩
  · rintro ⟨op, hop, hwrites, hlast⟩
    obtain ⟨k, hk⟩ := h.written_of_writes key op (List.mem_of_getElem? hop) hwrites
    obtain ⟨op', hop', hwrites'⟩ := h.writes_of_written key k hk
    rcases Nat.lt_trichotomy i k with hlt | rfl | hlt
    · exact absurd hwrites' (hlast k op' hlt hop')
    · exact hk
    · exact absurd hwrites (h.last key k hk i op hlt hop)

/-- **The operations the detector names** for an operation: those of another
sender that accessed a slot it writes, or were the last to write a slot it only
reads. -/
theorem mem_checkConflicts_iff (h : detector.Remembers added) (op : TracedOp) (i : Nat) :
    i ∈ detector.checkConflicts op.sender (.ofAccesses op.accesses) ↔
      ∃ old, added[i]? = some old ∧ old.sender ≠ op.sender ∧
        ((∃ key, op.Writes key ∧ old.Touches key) ∨
          ∃ key, op.OnlyReads key ∧ LastWriter added key i) := by
  have hother {old : TracedOp} (hold : added[i]? = some old) :
      detector.ofAnother op.sender i ↔ old.sender ≠ op.sender := by
    unfold ofAnother
    rw [h.sender_eq hold, decide_eq_true_iff, ne_eq, Option.some.injEq]
  unfold checkConflicts
  rw [mem_checkConflicts_foldl]
  simp only [Finset.notMem_empty, false_or]
  refine ⟨?_, ?_⟩
  · rintro ⟨⟨key, accessType⟩, hmem, hi⟩
    cases accessType with
    | write =>
        obtain ⟨haccess, hanother⟩ := List.mem_filter.mp hi
        obtain ⟨old, hold, htouches⟩ := (h.accessors_iff key i).mp haccess
        exact ⟨old, hold, (hother hold).mp hanother,
          Or.inl ⟨key, (StorageAccess.write_mem_ofAccesses _ _).mp hmem, htouches⟩⟩
    | read =>
        obtain ⟨hwritten, hanother⟩ := List.mem_filter.mp hi
        rw [Option.mem_toList] at hwritten
        have hlast := h.written_iff.mp hwritten
        obtain ⟨old, hold, _⟩ := hlast
        exact ⟨old, hold, (hother hold).mp hanother,
          Or.inr ⟨key, TracedOp.onlyReads_iff.mpr hmem, h.written_iff.mp hwritten⟩⟩
  · rintro ⟨old, hold, hne, hseen⟩
    rcases hseen with ⟨key, hwrites, htouches⟩ | ⟨key, hreads, hlast⟩
    · refine ⟨(key, .write), (StorageAccess.write_mem_ofAccesses _ _).mpr hwrites, ?_⟩
      exact List.mem_filter.mpr
        ⟨(h.accessors_iff key i).mpr ⟨old, hold, htouches⟩, (hother hold).mpr hne⟩
    · refine ⟨(key, .read), TracedOp.onlyReads_iff.mp hreads, ?_⟩
      exact List.mem_filter.mpr
        ⟨Option.mem_toList.mpr (h.written_iff.mpr hlast), (hother hold).mpr hne⟩

end Remembers

end ConflictDetector

/-! ## Exact answers -/

/-- The detector names the operations with a conflict and no others. -/
def NamesExactly (detector : ConflictDetector) (added : List TracedOp) (op : TracedOp) : Prop :=
  ∀ i, i ∈ detector.checkConflicts op.sender (.ofAccesses op.accesses) ↔
    ∃ old, added[i]? = some old ∧ old.sender ≠ op.sender ∧ old.ConflictsWith op

/-- Whoever of another sender writes a slot that the operation only reads is the
last to write such a slot, or accesses a slot that the operation writes. -/
def WritersSeen (added : List TracedOp) (op : TracedOp) : Prop :=
  ∀ i old key, added[i]? = some old → old.sender ≠ op.sender → old.Writes key →
    op.OnlyReads key →
    (∃ key, op.OnlyReads key ∧ LastWriter added key i) ∨ ∃ key, op.Writes key ∧ old.Touches key

theorem ConflictDetector.Remembers.namesExactly_iff {detector : ConflictDetector}
    {added : List TracedOp} (h : detector.Remembers added) (op : TracedOp) :
    NamesExactly detector added op ↔ WritersSeen added op := by
  refine ⟨?_, ?_⟩
  · intro hexact i old key hold hne hwrites hreads
    have hnamed := (hexact i).mpr ⟨old, hold, hne, key, Or.inl ⟨hwrites, hreads.1⟩⟩
    obtain ⟨old', hold', _, hseen⟩ := (h.mem_checkConflicts_iff op i).mp hnamed
    obtain rfl := Option.some.inj (hold.symm.trans hold')
    exact hseen.symm
  · intro hseen i
    rw [h.mem_checkConflicts_iff]
    refine ⟨?_, ?_⟩
    · rintro ⟨old, hold, hne, hfound⟩
      refine ⟨old, hold, hne, ?_⟩
      rcases hfound with ⟨key, hwrites, htouches⟩ | ⟨key, hreads, last, hlast, hwrites, _⟩
      · exact ⟨key, Or.inr ⟨hwrites, htouches⟩⟩
      · obtain rfl := Option.some.inj (hold.symm.trans hlast)
        exact ⟨key, Or.inl ⟨hwrites, hreads.1⟩⟩
    · rintro ⟨old, hold, hne, key, hconflict⟩
      refine ⟨old, hold, hne, ?_⟩
      rcases hconflict with ⟨hwrites, htouches⟩ | ⟨hwrites, htouches⟩
      · by_cases hboth : op.Writes key
        · exact Or.inl ⟨key, hboth, hwrites.touches⟩
        · exact (hseen i old key hold hne hwrites ⟨htouches, hboth⟩).symm
      · exact Or.inl ⟨key, hwrites, htouches⟩

/-- The detector remembers what it was told since it was last reset, whether or not
there were conflicts. -/
theorem ConflictRun.remembers_run (events : List DetectorEvent) :
    ∀ {s : ConflictRun}, s.detector.Remembers s.added →
      (conflictMachine.run events s).detector.Remembers (conflictMachine.run events s).added := by
  induction events with
  | nil =>
      intro s h
      exact h
  | cons e events ih =>
      intro s h
      apply ih
      cases e with
      | add op => exact h.addOperation op
      | reset => exact .new

/-- **Exact answers.**  After any additions to a fresh or reset detector, with or
without conflicts among them, the detector names exactly the operations with a
conflict if and only if the writers of the slots that are only read show. -/
theorem exact_iff (events : List DetectorEvent) (op : TracedOp) :
    NamesExactly (conflictMachine.run events freshRun).detector
        (conflictMachine.run events freshRun).added op ↔
      WritersSeen (conflictMachine.run events freshRun).added op :=
  (ConflictRun.remembers_run events (s := freshRun) .new).namesExactly_iff op

/-- Accounts one and two write a slot that account three reads. -/
def twoWriters : List DetectorEvent :=
  [.add { sender := 1, accesses := [(sharedSlot, .write)] },
    .add { sender := 2, accesses := [(sharedSlot, .write)] }]

/-- Of the two writers only the last is named. -/
theorem first_writer_missed :
    ((conflictMachine.run twoWriters freshRun).detector.checkConflicts 3
        (.ofAccesses [(sharedSlot, .read)]) = {1}) ∧
      ¬ NamesExactly (conflictMachine.run twoWriters freshRun).detector
        (conflictMachine.run twoWriters freshRun).added
        { sender := 3, accesses := [(sharedSlot, .read)] } := by
  have hnames : (conflictMachine.run twoWriters freshRun).detector.checkConflicts 3
      (.ofAccesses [(sharedSlot, .read)]) = {1} := by decide +kernel
  refine ⟨hnames, ?_⟩
  intro hexact
  have hfirst := (hexact 0).mpr
    ⟨{ sender := 1, accesses := [(sharedSlot, .write)] }, rfl, by decide, sharedSlot,
      Or.inl ⟨List.mem_singleton.mpr rfl, .read, List.mem_singleton.mpr rfl⟩⟩
  rw [hnames] at hfirst
  exact absurd hfirst (by decide)

end Bunzo
