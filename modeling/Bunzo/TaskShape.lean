import Bunzo.BundlerRuns

/-!
# The side state of the bundler task

Besides its state the task keeps a bundle, a tracked transaction, the block a
bundle was mined in, and a nonce.  `FullShape` says what each state goes with;
it adds to `Shape` the parts that only whole runs need.

* `FullShape.step` — each step keeps it.
* `fullShape_of_reachable` — it holds along every run, nothing a handler looks
  for is ever missing, and the nonce never goes down.
-/

namespace Bunzo

open ReachableStates

namespace BundlerTask

variable {t t' : BundlerTask} {a : StepAnswers} {calls : List TaskCall}

/-- The held bundle is not empty, an escalation has an attempt left, and the
block is known while a mined bundle is confirmed. -/
structure FullShape (t : BundlerTask) : Prop extends Shape t where
  bundle_nonempty : ∀ bundle, t.currentBundle = some bundle → bundle.isEmpty = false
  attempts_left : t.state = .escalating → ∀ p, t.tracker.pending = some p →
    p.escalationCount < t.tracker.escalationConfig.maxAttempts
  minedBlock_isSome : t.minedBlock.isSome ↔ t.state = .confirming ∨ t.state = .confirmed

/-- Everything that the handler of the current state looks for is there. -/
structure NothingMissing (t : BundlerTask) : Prop where
  bundle : t.state = .submitting ∨ t.state = .pending ∨ t.state = .escalating ∨
    t.state = .confirming → ∃ bundle, t.currentBundle = some bundle ∧ bundle.isEmpty = false
  pending : t.state = .pending ∨ t.state = .escalating → ∃ p, t.tracker.pending = some p
  minedBlock : t.state = .confirming → ∃ block, t.minedBlock = some block

/-- In this shape no handler finds something missing. -/
theorem FullShape.nothingMissing (h : FullShape t) : NothingMissing t := by
  constructor
  · intro hs
    have hsome : t.currentBundle.isSome := by
      rw [h.bundle_isSome]
      rcases hs with hs | hs | hs | hs <;> simp [hs]
    obtain ⟨bundle, hb⟩ := Option.isSome_iff_exists.mp hsome
    exact ⟨bundle, hb, h.bundle_nonempty bundle hb⟩
  · intro hs
    exact Option.isSome_iff_exists.mp (h.pending_isSome.mpr hs)
  · intro hs
    exact Option.isSome_iff_exists.mp (h.minedBlock_isSome.mpr (Or.inl hs))

/-- A transaction that the node has a receipt for has a nonce below the largest
word: the chain takes no others. -/
def MinedInRange (t : BundlerTask) : TaskEvent → Prop
  | .pool _ => True
  | .step a => ∀ p r, t.tracker.pending = some p → a.receipt = .ok (some r) →
      p.nonce < BitVec.allOnes 64

section Steps

variable [Keccak]

/-- Taking operations out of the pool is no matter of blocks. -/
@[simp] theorem removeBundledOps_minedBlock (t : BundlerTask) :
    t.removeBundledOps.minedBlock = t.minedBlock := by
  unfold removeBundledOps
  split <;> rfl

/-- A bundle at hand was proposed with operations in it. -/
theorem TaskStep.bundle_nonempty (h : FullShape t) (hstep : TaskStep t a t' calls)
    {bundle : Bundle} (hb : t'.currentBundle = some bundle) : bundle.isEmpty = false := by
  have hkeep := h.bundle_nonempty bundle
  cases hstep with
  | build hs proposed hproposed hne =>
      cases hb
      exact hne
  | mined hs p hp r hr =>
      simp only [removeBundledOps_currentBundle] at hb
      exact hkeep hb
  | reset hs => cases hb
  | _ => exact hkeep hb

/-- Only a mined bundle and the end of its life change the known block. -/
theorem TaskStep.minedBlock_isSome (h : FullShape t) (hstep : TaskStep t a t' calls) :
    t'.minedBlock.isSome ↔ t'.state = .confirming ∨ t'.state = .confirmed := by
  have hmined := h.minedBlock_isSome
  cases hstep with
  | mined hs p hp r hr => simp
  | cancelNothing hs hp => exact absurd hs h.not_cancelling
  | cancel hs p hp _ hcalls => exact absurd hs h.not_cancelling
  | _ => grind

/-- A poll escalates with the transaction as it was, and an attempt left. -/
theorem TaskStep.tracker_of_escalating (hstep : TaskStep t a t' calls)
    (hs : t'.state = .escalating) : t.state = .pending ∧ t'.tracker = t.tracker := by
  cases hstep with
  | still hpending p hp hr n hn hle next hnext => exact ⟨hpending, rfl⟩
  | pollFails hpending p hp herr => exact absurd hs (by rw [hpending]; decide)
  | _ => grind

/-- The task escalates when the tracker asks for it. -/
theorem needsEscalation_of_escalating (hs : t.state = .pending)
    (hnext : (t.step a).state = .escalating) : t.tracker.needsEscalation a.now = true := by
  have hhandle : t.handle a = t.handlePending a := by simp only [handle, hs]
  unfold step at hnext
  rw [hhandle] at hnext
  unfold handlePending at hnext
  cases hp : t.tracker.pending with
  | none => simp [TransactionTracker.checkPending_of_none hp] at hnext
  | some p =>
      rcases TransactionTracker.checkPending_cases hp a.receipt a.nonce with
        ⟨e, hcheck, _⟩ | ⟨r, _, hcheck⟩ | ⟨n, _, _, _, hcheck⟩ | ⟨n, _, _, _, hcheck⟩
      · simp [hcheck] at hnext
      · simp [hcheck] at hnext
      · simp [hcheck] at hnext
      · by_contra hneeds
        simp [hcheck, hneeds] at hnext

namespace FullShape

/-- What is about to be escalated has an attempt left. -/
theorem attempts_left_step (a : StepAnswers) (hs : (t.step a).state = .escalating) :
    ∀ p, (t.step a).tracker.pending = some p →
      p.escalationCount < (t.step a).tracker.escalationConfig.maxAttempts := by
  intro p hp
  obtain ⟨hpending, htracker⟩ := (step_taskStep t a).tracker_of_escalating hs
  have hneeds := needsEscalation_of_escalating hpending hs
  rw [htracker] at hp ⊢
  unfold TransactionTracker.needsEscalation at hneeds
  rw [hp] at hneeds
  simp only [Bool.and_eq_true, decide_eq_true_eq] at hneeds
  exact hneeds.2

/-- **One step** keeps the shape. -/
theorem step (h : FullShape t) (a : StepAnswers) : FullShape (t.step a) where
  toShape := h.toShape.step a
  bundle_nonempty _ hb := (step_taskStep t a).bundle_nonempty h hb
  attempts_left hs := attempts_left_step a hs
  minedBlock_isSome := (step_taskStep t a).minedBlock_isSome h

/-- So does any event. -/
theorem apply (h : FullShape t) (e : TaskEvent) : FullShape (e.apply t) := by
  cases e with
  | step a => exact h.step a
  | pool call =>
      exact ⟨h.toShape.apply (.pool call), h.bundle_nonempty, h.attempts_left, h.minedBlock_isSome⟩

/-- And so does a run, under whatever condition. -/
theorem of_reachable {cond : BundlerTask → TaskEvent → Prop}
    (h : bundlerMachine.ReachableUnder cond t) : FullShape t := by
  apply h.invariant
  · intro s hinit
    obtain ⟨_, _, _, nonce, hstart⟩ := hinit
    obtain ⟨hs, hb, hp, _, _⟩ := start_eq hstart
    have hmined : s.minedBlock = none := by
      unfold start TransactionTracker.initializeTracker at hstart
      cases nonce with
      | error e => cases hstart
      | ok n =>
          cases hstart
          rfl
    exact ⟨.of_start hstart, by simp [hb], by simp [hs], by simp [hs, hmined]⟩
  · intro s e hs _ _
    exact hs.apply e

end FullShape

/-- Receipts move the nonce up by one, a consumed nonce moves it beyond the
consumed one, and nothing else moves it. -/
theorem TaskStep.currentNonce_le (h : Shape t) (hstep : TaskStep t a t' calls)
    (hrange : MinedInRange t (.step a)) : t.tracker.currentNonce ≤ t'.tracker.currentNonce := by
  cases hstep with
  | mined hs p hp r hr =>
      have hlt := hrange p r hp hr
      simp only [removeBundledOps_tracker]
      rw [← h.nonce_eq p hp, BitVec.le_def]
      rw [BitVec.lt_def, BitVec.toNat_allOnes] at hlt
      rw [MachineWords.toNat_add_of_lt]
      · exact Nat.le_add_right _ _
      · change p.nonce.toNat + 1 < 2 ^ 64
        omega
  | dropped hs p hp hr n hn hlt =>
      rw [← h.nonce_eq p hp]
      exact Nat.le_of_lt hlt
  | _ => exact Nat.le_refl _

/-- The nonce never goes back, if mined transactions are in range. -/
theorem currentNonce_le_apply (h : Shape t) {e : TaskEvent} (hrange : MinedInRange t e) :
    t.tracker.currentNonce ≤ (e.apply t).tracker.currentNonce := by
  cases e with
  | pool call => exact Nat.le_refl _
  | step a => exact (step_taskStep t a).currentNonce_le h hrange

/-- **The side state along every run.**  It goes with the state, nothing that a
handler looks for is missing, and the nonce never goes down. -/
theorem fullShape_of_reachable (h : bundlerMachine.ReachableUnder MinedInRange t) :
    FullShape t ∧ NothingMissing t ∧
      ∀ e, MinedInRange t e → t.tracker.currentNonce ≤ (e.apply t).tracker.currentNonce := by
  have hshape := FullShape.of_reachable h
  refine ⟨hshape, hshape.nothingMissing, ?_⟩
  intro e hrange
  exact currentNonce_le_apply hshape.toShape hrange

end Steps

end BundlerTask

/-- The side state when a bundle is about to be replaced. -/
theorem fullShape_at_five :
    letI := polynomialDigest
    lateAtFive.FullShape ∧ lateAtFive.NothingMissing ∧
      ∀ e, lateAtFive.MinedInRange e →
        lateAtFive.tracker.currentNonce ≤ (e.apply lateAtFive).tracker.currentNonce := by
  let _ := polynomialDigest
  apply BundlerTask.fullShape_of_reachable
  apply Machine.ReachableUnder.run (.init (startedTask_init 5))
  · exact Machine.enabledAlong_of_forall (fun _ _ => trivial)
  · refine ⟨trivial, ?_, ?_, ?_, ?_, trivial⟩ <;>
      · intro _ _ _ hreceipt
        cases hreceipt

end Bunzo
