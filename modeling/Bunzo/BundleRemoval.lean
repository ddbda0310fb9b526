import Bunzo.BundlerRuns

/-!
# Bundled operations leaving the pool

When a bundle's transaction has a receipt, the task takes the bundle's
operations out of the pool.  A journal of the accepted submissions is kept
beside the task, to say which transaction carried which bundle.

* `getById_removeOps` — exactly the operations with the given ids leave.
* `TaskStep.pool_cases` — while a bundle is held, only a receipt for the
  tracked transaction changes the pool.
* `settles_along_iff` — operations leave only with a successful transaction
  exactly on the runs in which no receipt of a failed one arrives while they
  are pooled: the status of a receipt is never looked at.
-/

namespace Bunzo

open ReachableStates

namespace OperationPool

/-- The index by id holds each entry under its own id. -/
def Keyed (pool : OperationPool) : Prop := ∀ id e, pool.getById id = some e → e.id = id

/-- Removing an entry frees its id. -/
theorem getById_removeInner (pool : OperationPool) (e : PoolEntry) (id : UserOperationId) :
    (pool.removeInner e).getById id = if e.id = id then none else pool.getById id := by
  unfold getById removeInner
  simp only [Std.ExtTreeMap.get?_eq_getElem?, Std.ExtTreeMap.getElem?_erase,
    Std.LawfulEqCmp.compare_eq_iff_eq]

/-- Entering an entry takes its id. -/
theorem getById_insertEntry (pool : OperationPool) (e : PoolEntry) (id : UserOperationId) :
    (pool.insertEntry e).getById id = if e.id = id then some e else pool.getById id := by
  unfold getById insertEntry
  simp only [Std.ExtTreeMap.get?_eq_getElem?, Std.ExtTreeMap.getElem?_insert,
    Std.LawfulEqCmp.compare_eq_iff_eq]

namespace Keyed

variable {pool : OperationPool}

/-- Removal keeps every entry under its id. -/
theorem removeInner (h : Keyed pool) (e : PoolEntry) : Keyed (pool.removeInner e) := by
  intro id b hb
  rw [getById_removeInner] at hb
  split at hb
  · cases hb
  · exact h id b hb

/-- An insertion puts its entry under its id. -/
theorem insertEntry (h : Keyed pool) (e : PoolEntry) : Keyed (pool.insertEntry e) := by
  intro id b hb
  rw [getById_insertEntry] at hb
  split at hb
  · next hid =>
      rw [← Option.some.inj hb]
      exact hid
  · exact h id b hb

/-- Removal by hash removes a stored entry, if any. -/
theorem removeByHash (h : Keyed pool) (hash : B256) : Keyed (pool.removeByHash hash).2 := by
  rw [removeByHash_eq]
  cases pool.byHash.get? hash with
  | none => exact h
  | some e => exact h.removeInner e

/-- So does removal by id. -/
theorem removeById (h : Keyed pool) (id : UserOperationId) : Keyed (pool.removeById id).2 := by
  rw [removeById_eq]
  cases pool.byId.get? id with
  | none => exact h
  | some e => exact h.removeInner e

/-- Nothing is left under any id. -/
theorem clear (pool : OperationPool) : Keyed pool.clear := by
  intro id e he
  simp [getById, OperationPool.clear] at he

section Adding

variable [Keccak]

/-- Adding enters the operation under its own id. -/
theorem accept (h : Keyed pool) (uo : UserOperation) (baseFee : U128) :
    Keyed (pool.accept uo baseFee).2 := by
  unfold OperationPool.accept
  simp only
  split
  · exact h
  · split
    · exact h
    · exact h.insertEntry _

/-- So does a call of `add`, with a replacement or without. -/
theorem add (h : Keyed pool) (uo : UserOperation) (baseFee : U128) :
    Keyed (pool.add uo baseFee).2 := by
  rw [add_eq]
  split
  · exact h
  · cases pool.byId.get? uo.id with
    | none => exact h.accept uo baseFee
    | some e =>
        simp only
        split
        · exact h
        · exact (h.removeInner e).accept uo baseFee

/-- **One call** of any method keeps every entry under its id. -/
theorem apply (h : Keyed pool) (call : PoolCall) : Keyed (call.apply pool) := by
  cases call with
  | add uo baseFee => exact h.add uo baseFee
  | removeByHash hash => exact h.removeByHash hash
  | removeById id => exact h.removeById id
  | clear => exact clear pool

end Adding

end Keyed

/-- Removing an id takes its entry and no other. -/
theorem getById_removeById {pool : OperationPool} (h : Keyed pool) (id id' : UserOperationId) :
    (pool.removeById id).2.getById id' = if id = id' then none else pool.getById id' := by
  rw [removeById_eq]
  cases hfound : pool.byId.get? id with
  | none =>
      by_cases hid : id = id'
      · rw [if_pos hid, ← hid]
        exact hfound
      · rw [if_neg hid]
  | some e =>
      have hid : e.id = id := h id e hfound
      rw [← hid]
      exact getById_removeInner pool e id'

end OperationPool

namespace BundlerTask

/-- Taking rejected operations out keeps the others under their ids. -/
theorem keyed_removeRejected (rejectedOps : List RejectedOp) :
    ∀ {pool : OperationPool}, pool.Keyed → (removeRejected pool rejectedOps).Keyed := by
  induction rejectedOps with
  | nil =>
      intro pool h
      exact h
  | cons rejected rejectedOps ih =>
      intro pool h
      exact ih (h.removeByHash _)

section Removing

variable [Keccak]

/-- Taking bundled operations out does so as well. -/
theorem keyed_removeOps (spec : ChainSpec) (ops : List PackedUserOperation) :
    ∀ {pool : OperationPool}, pool.Keyed → (removeOps spec pool ops).Keyed := by
  induction ops with
  | nil =>
      intro pool h
      exact h
  | cons op ops ih =>
      intro pool h
      exact ih (h.removeById _)

/-- **The operations of a list leave, and no others.** -/
theorem getById_removeOps (spec : ChainSpec) (ops : List PackedUserOperation)
    (id : UserOperationId) :
    ∀ {pool : OperationPool}, pool.Keyed → (removeOps spec pool ops).getById id =
      if id ∈ ops.map (packedId spec) then none else pool.getById id := by
  induction ops with
  | nil =>
      intro pool _
      rfl
  | cons op ops ih =>
      intro pool h
      have htail := ih (h.removeById (packedId spec op))
      rw [OperationPool.getById_removeById h] at htail
      grind [removeOps]

variable {t t' : BundlerTask} {a : StepAnswers} {calls : List TaskCall}

/-- What a step does to the pool: nothing without a bundle that holds it, or
the removal of the bundle after a receipt. -/
theorem TaskStep.pool_cases (h : Shape t) (hstep : TaskStep t a t' calls) :
    t'.pool = t.pool ∨
    (t.currentBundle = none ∧ ∃ rejectedOps, t'.pool = removeRejected t.pool rejectedOps) ∨
    (t.state = .pending ∧ ∃ p r bundle, t.tracker.pending = some p ∧ a.receipt = .ok (some r) ∧
      t.currentBundle = some bundle ∧ t'.pool = removeOps t.chainSpec t.pool bundle.ops) := by
  cases hstep with
  | build hs bundle hbundle hne =>
      have hnone : t.currentBundle = none := by
        have hsome := h.bundle_isSome
        cases hb : t.currentBundle with
        | none => rfl
        | some bundle => grind
      exact Or.inr (Or.inl ⟨hnone, _, rfl⟩)
  | mined hs p hp r hr =>
      obtain ⟨bundle, hb⟩ := h.bundle_of_pending hp
      refine Or.inr (Or.inr ⟨hs, p, r, bundle, hp, hr, hb, ?_⟩)
      apply removeBundledOps_pool
      exact hb
  | _ => exact Or.inl rfl

/-- A receipt for the tracked transaction removes the bundle. -/
theorem TaskStep.pool_of_receipt (h : Shape t) (hstep : TaskStep t a t' calls)
    (hs : t.state = .pending) {r : TransactionReceipt} (hr : a.receipt = .ok (some r))
    {bundle : Bundle} (hb : t.currentBundle = some bundle) :
    t'.pool = removeOps t.chainSpec t.pool bundle.ops := by
  cases hstep with
  | pollNothing _ hnone => grind [h.pending_isSome]
  | mined _ p hp r' hr' =>
      apply removeBundledOps_pool
      exact hb
  | _ => grind

/-- A wait is confirmed by a receipt only. -/
theorem TaskStep.receipt_of_confirming (hstep : TaskStep t a t' calls)
    (hwaiting : t.state = .pending ∨ t.state = .escalating) (hnext : t'.state = .confirming) :
    t.state = .pending ∧ ∃ r, a.receipt = .ok (some r) := by
  cases hstep with
  | mined hs p hp r hr => exact ⟨hs, r, hr⟩
  | _ => grind

/-- So does a step of the task. -/
theorem keyed_step (hshape : t.Shape) (h : t.pool.Keyed) (a : StepAnswers) :
    (t.step a).pool.Keyed := by
  rcases (step_taskStep t a).pool_cases hshape with
    hsame | ⟨_, rejectedOps, hpool⟩ | ⟨_, _, _, bundle, _, _, _, hpool⟩
  · rwa [hsame]
  · rw [hpool]
    exact keyed_removeRejected rejectedOps h
  · rw [hpool]
    exact keyed_removeOps _ _ h

end Removing

end BundlerTask

/-! ## The journal of submissions -/

/-- A task and the submissions accepted so far. -/
structure JournaledTask where
  task : BundlerTask
  journal : List (B256 × TransactionRequest)

section Journal

variable [Keccak]

open BundlerTask

/-- The task, with every submission that was accepted noted down. -/
def journaledMachine : Machine JournaledTask TaskEvent where
  init s := bundlerMachine.init s.task ∧ s.journal = []
  enabled _ _ := True
  next s e :=
    { task := e.apply s.task
      journal := s.journal ++ (e.accepted s.task).toList }

namespace JournaledTask

/-- The journal has a transaction that carries the bundle, under the tracked
hash. -/
structure Journaled (s : JournaledTask) : Prop where
  shape : s.task.Shape
  keyed : s.task.pool.Keyed
  carried : ∀ p bundle, s.task.tracker.pending = some p → s.task.currentBundle = some bundle →
    ∃ tx, (p.txHash, tx) ∈ s.journal ∧ tx.input = .handleOps bundle.ops bundle.beneficiary

variable {s : JournaledTask}

/-- At the start nothing is tracked, so nothing needs an entry. -/
theorem Journaled.of_init (h : journaledMachine.init s) : Journaled s := by
  obtain ⟨⟨_, _, _, _, hstart⟩, _⟩ := h
  obtain ⟨_, _, hp, hpool, _⟩ := start_eq hstart
  refine ⟨Shape.of_start hstart, ?_, ?_⟩
  · intro id e he
    rw [hpool] at he
    simp [OperationPool.getById, OperationPool.new] at he
  · intro p bundle hpending
    rw [hp] at hpending
    cases hpending

/-- **One event.**  What is tracked afterwards was noted before, or is what the step
submitted. -/
theorem Journaled.next (h : Journaled s) (e : TaskEvent) :
    Journaled (journaledMachine.next s e) := by
  cases e with
  | pool call =>
      refine ⟨h.shape.apply (.pool call), h.keyed.apply call, ?_⟩
      intro p bundle hp hb
      obtain ⟨tx, htx, hinput⟩ := h.carried p bundle hp hb
      exact ⟨tx, List.mem_append_left _ htx, hinput⟩
  | step a =>
      have hstep := step_taskStep s.task a
      refine ⟨h.shape.step a, keyed_step h.shape h.keyed a, ?_⟩
      intro p bundle hp hb
      rcases hstep.tracked_cases h.shape hp with ⟨_, hold, hbundle, _⟩ | ⟨tx, hacc⟩
      · have hbefore : s.task.currentBundle = some bundle := hbundle.symm.trans hb
        obtain ⟨tx, htx, hinput⟩ := h.carried p bundle hold hbefore
        exact ⟨tx, List.mem_append_left _ htx, hinput⟩
      · obtain ⟨_, bundle', _, _, _, hb', hinput, _⟩ := hstep.accepted_cases h.shape hacc
        have hsame : bundle' = bundle := Option.some.inj (hb'.symm.trans hb)
        refine ⟨tx, ?_, hsame ▸ hinput⟩
        apply List.mem_append_right
        rw [Option.mem_toList]
        exact hacc

/-- In every run the tracked transaction is in the journal. -/
theorem Journaled.of_reachable (h : journaledMachine.Reachable s) : Journaled s := by
  apply h.invariant
  · intro s hinit
    exact of_init hinit
  · intro s e hs _ _
    exact hs.next e

/-- In one step, the operations of the bundle leave only after a successful receipt of a
transaction that carries it, and a failed one keeps them all. -/
structure SettlesBy (s : JournaledTask) (a : StepAnswers) : Prop where
  removed_mined : ∀ bundle, s.task.currentBundle = some bundle → ∀ op ∈ bundle.ops,
    (s.task.pool.getById (packedId s.task.chainSpec op)).isSome →
    (s.task.step a).pool.getById (packedId s.task.chainSpec op) = none →
    ∃ p tx r, s.task.tracker.pending = some p ∧ (p.txHash, tx) ∈ s.journal ∧
      tx.input = .handleOps bundle.ops bundle.beneficiary ∧
      a.receipt = .ok (some r) ∧ r.status = true
  reverted_kept : ∀ bundle r, s.task.state = .pending → s.task.currentBundle = some bundle →
    a.receipt = .ok (some r) → r.status = false → ∀ op ∈ bundle.ops,
    (s.task.step a).pool.getById (packedId s.task.chainSpec op) =
      s.task.pool.getById (packedId s.task.chainSpec op)

/-- Calls of the pool from elsewhere are not asked to settle anything. -/
def Settles (s : JournaledTask) : TaskEvent → Prop
  | .pool _ => True
  | .step a => s.SettlesBy a

/-- The task polls, the receipt is that of a failed transaction, and an
operation of the bundle is pooled. -/
def RevertedWhilePooled (s : JournaledTask) : TaskEvent → Prop
  | .pool _ => False
  | .step a => s.task.state = .pending ∧ (∃ r, a.receipt = .ok (some r) ∧ r.status = false) ∧
      ∃ bundle, s.task.currentBundle = some bundle ∧
        ∃ op ∈ bundle.ops, (s.task.pool.getById (packedId s.task.chainSpec op)).isSome

/-- After a receipt no operation of the bundle is pooled. -/
theorem Journaled.none_of_receipt (h : Journaled s) {a : StepAnswers}
    (hs : s.task.state = .pending) {r : TransactionReceipt} (hr : a.receipt = .ok (some r))
    {bundle : Bundle} (hb : s.task.currentBundle = some bundle) {op : PackedUserOperation}
    (hop : op ∈ bundle.ops) :
    (s.task.step a).pool.getById (packedId s.task.chainSpec op) = none := by
  have hpool := (step_taskStep s.task a).pool_of_receipt h.shape hs hr hb
  rw [hpool, getById_removeOps _ _ _ h.keyed]
  exact if_pos (List.mem_map_of_mem hop)

/-- **One step settles a bundle unless it meets a failed receipt.** -/
theorem Journaled.settles_iff (h : Journaled s) (e : TaskEvent) :
    s.Settles e ↔ ¬ s.RevertedWhilePooled e := by
  cases e with
  | pool call => simp [Settles, RevertedWhilePooled]
  | step a =>
      refine ⟨?_, ?_⟩
      · intro hsettles hreverted
        obtain ⟨hs, ⟨r, hr, hstatus⟩, bundle, hb, op, hop, hpooled⟩ := hreverted
        have hgone := h.none_of_receipt hs hr hb hop
        obtain ⟨_, _, r', _, _, _, hr', hstatus'⟩ :=
          hsettles.removed_mined bundle hb op hop hpooled hgone
        have hsame : r = r' := by
          rw [hr] at hr'
          exact Option.some.inj (Except.ok.inj hr')
        rw [hsame, hstatus'] at hstatus
        cases hstatus
      · intro hreverted
        refine ⟨?_, ?_⟩
        · intro bundle hb op hop hpooled hgone
          rcases (step_taskStep s.task a).pool_cases h.shape with
            hsame | ⟨hnone, _⟩ | ⟨hs, p, r, _, hp, hr, _, _⟩
          · rw [hsame] at hgone
            rw [hgone] at hpooled
            cases hpooled
          · rw [hnone] at hb
            cases hb
          · obtain ⟨tx, htx, hinput⟩ := h.carried p bundle hp hb
            refine ⟨p, tx, r, hp, htx, hinput, hr, ?_⟩
            by_contra hstatus
            exact hreverted ⟨hs, ⟨r, hr, Bool.eq_false_of_not_eq_true hstatus⟩, bundle, hb, op,
              hop, hpooled⟩
        · intro bundle r hs hb hr hstatus op hop
          rw [h.none_of_receipt hs hr hb hop]
          by_contra hne
          have hpooled : (s.task.pool.getById (packedId s.task.chainSpec op)).isSome := by
            rw [Option.isSome_iff_ne_none]
            exact fun hnone => hne hnone.symm
          exact hreverted ⟨hs, ⟨r, hr, hstatus⟩, bundle, hb, op, hop, hpooled⟩

/-- **Bundles along a run.**  Operations leave the pool with a successful
transaction only, exactly if no receipt of a failed one arrives while they are
pooled. -/
theorem settles_along_iff (hinit : journaledMachine.init s) (events : List TaskEvent) :
    journaledMachine.Along Settles events s ↔
      journaledMachine.Along (fun s e => ¬ s.RevertedWhilePooled e) events s := by
  apply Machine.along_iff _ (.init hinit) (Machine.enabledAlong_of_forall (fun _ _ => trivial))
  intro s e hs _
  exact (Journaled.of_reachable hs).settles_iff e

end JournaledTask

end Journal

/-! ## A failed transaction -/

section Failed

/-- A bundle is submitted and waits. -/
def waitingTask : JournaledTask :=
  letI := polynomialDigest
  journaledMachine.run (submission 0xAAA) { task := startedTask 5, journal := [] }

/-- The poll that finds the receipt of a failed transaction, in no block yet. -/
def failedReceipt : StepAnswers :=
  { silentAnswers with receipt := .ok (some { status := false, blockNumber := none }) }

/-- The operation of a bundle whose transaction failed is removed. -/
theorem failed_receipt_removes :
    letI := polynomialDigest
    journaledMachine.Reachable waitingTask ∧ ¬ waitingTask.Settles (.step failedReceipt) := by
  let _ := polynomialDigest
  have hinit : journaledMachine.init { task := startedTask 5, journal := [] } :=
    ⟨startedTask_init 5, rfl⟩
  have hreach : journaledMachine.Reachable waitingTask := by
    apply Machine.reachable_run (.init hinit)
    exact Machine.enabledAlong_of_forall (fun _ _ => trivial)
  have hjournaled := JournaledTask.Journaled.of_reachable hreach
  refine ⟨hreach, ?_⟩
  rw [hjournaled.settles_iff, not_not]
  refine ⟨by decide +kernel, ⟨_, rfl, rfl⟩, oneBundle, by decide +kernel,
    (plainOperation 1 0 30).pack, by decide, by decide +kernel⟩

/-- The equivalence along that run. -/
theorem settles_along_iff_failed :
    letI := polynomialDigest
    journaledMachine.Along JournaledTask.Settles
        (submission 0xAAA ++ [.step failedReceipt]) { task := startedTask 5, journal := [] } ↔
      journaledMachine.Along (fun s e => ¬ s.RevertedWhilePooled e)
        (submission 0xAAA ++ [.step failedReceipt]) { task := startedTask 5, journal := [] } :=
  @JournaledTask.settles_along_iff polynomialDigest _
    ⟨@startedTask_init polynomialDigest 5, rfl⟩ _

end Failed

end Bunzo
