import Bunzo.BundlerTask
import Bunzo.PoolIndices
import Bunzo.ReachableStates

/-!
# Runs of the bundler task

A run of the task is any sequence of its steps, with any answers in each, and
of calls that others make to the shared pool in between.

* `Shape` — which states go with a bundle and with a tracked transaction; it
  holds in every reachable state.
* `replaces_iff` — along a run, every replacement takes the nonce of the
  tracked transaction exactly when escalations are signed at nonce zero only:
  an escalation takes one less than the next nonce, and the next nonce is not
  advanced by a submission.
-/

namespace Bunzo

open ReachableStates

/-- What happens to the task and its pool. -/
inductive TaskEvent where
  | step (a : StepAnswers)
  | pool (call : PoolCall)

namespace BundlerTask

/-- A bundle is held from its proposal to the end of its life, a transaction
is tracked while it is polled or replaced, and it has the tracker's nonce.
Nothing leads into the cancelling state. -/
structure Shape (t : BundlerTask) : Prop where
  bundle_isSome : t.currentBundle.isSome ↔ t.state ≠ .idle ∧ t.state ≠ .building
  pending_isSome : t.tracker.pending.isSome ↔ t.state = .pending ∨ t.state = .escalating
  nonce_eq : ∀ p, t.tracker.pending = some p → p.nonce = t.tracker.currentNonce
  not_cancelling : t.state ≠ .cancelling

section Start

variable {t : BundlerTask} {signerAddress : Address} {config : PoolConfig} {chainSpec : ChainSpec}
  {nonce : Except ProviderError U64}

/-- How a task starts. -/
theorem start_eq
    (h : (BundlerTask.new signerAddress (OperationPool.new config) chainSpec).start nonce = .ok t) :
    t.state = .idle ∧ t.currentBundle = none ∧ t.tracker.pending = none ∧
      t.pool = OperationPool.new config ∧ nonce = .ok t.tracker.currentNonce := by
  unfold start TransactionTracker.initializeTracker at h
  cases nonce with
  | error e => cases h
  | ok n =>
      cases h
      exact ⟨rfl, rfl, rfl, rfl, rfl⟩

theorem Shape.of_start
    (h : (BundlerTask.new signerAddress (OperationPool.new config) chainSpec).start nonce = .ok t) :
    Shape t := by
  obtain ⟨hs, hb, hp, _, _⟩ := start_eq h
  constructor <;> simp [hs, hb, hp]

theorem Shape.state_of_pending (h : Shape t) {p : PendingTransaction}
    (hp : t.tracker.pending = some p) : t.state = .pending ∨ t.state = .escalating := by
  apply h.pending_isSome.mp
  rw [hp]
  rfl

theorem Shape.bundle_of_pending (h : Shape t) {p : PendingTransaction}
    (hp : t.tracker.pending = some p) : ∃ bundle, t.currentBundle = some bundle := by
  apply Option.isSome_iff_exists.mp
  rw [h.bundle_isSome]
  rcases h.state_of_pending hp with hs | hs <;> simp [hs]

theorem Shape.pending_of_escalating (h : Shape t) (hs : t.state = .escalating) :
    ∃ p, t.tracker.pending = some p :=
  Option.isSome_iff_exists.mp (h.pending_isSome.mpr (Or.inr hs))

end Start

end BundlerTask

section Runs

variable [Keccak]

def TaskEvent.apply : TaskEvent → BundlerTask → BundlerTask
  | .step a, t => t.step a
  | .pool call, t => { t with pool := call.apply t.pool }

/-- The transaction that the strategy accepts, under its hash. -/
def TaskEvent.accepted : TaskEvent → BundlerTask → Option (B256 × TransactionRequest)
  | .step a, t => acceptedBy a.submitted (t.calls a)
  | .pool _, _ => none

/-- The task on an empty pool, from any nonce the node reports at the start. -/
def bundlerMachine : Machine BundlerTask TaskEvent where
  init t := ∃ signerAddress config chainSpec nonce,
    (BundlerTask.new signerAddress (OperationPool.new config) chainSpec).start nonce = .ok t
  enabled _ _ := True
  next t e := e.apply t

namespace BundlerTask

variable {t t' : BundlerTask} {a : StepAnswers} {calls : List TaskCall}

namespace Shape

theorem taskStep (h : Shape t) (hstep : TaskStep t a t' calls) : Shape t' := by
  obtain ⟨hb, hp, hn, hc⟩ := h
  cases hstep with
  | idle hs next hnext => constructor <;> grind
  | buildNothing hs => constructor <;> grind
  | build hs bundle hbundle hne => constructor <;> grind
  | submitNothing hs hnone => constructor <;> grind
  | submitFails hs bundle hsome _ hcalls => constructor <;> grind
  | submit hs bundle hsome raw txHash hhash =>
      constructor <;> grind [TransactionTracker.recordSubmission, TransactionTracker.nextNonce]
  | pollNothing hs hnone => constructor <;> grind
  | pollFails hs p hpending herr => exact ⟨hb, hp, hn, hc⟩
  | mined hs p hpending r hr =>
      constructor <;> simp [hb, hs]
  | dropped hs p hpending hr n hnonce hlt => constructor <;> grind
  | still hs p hpending hr n hnonce hle next hnext => constructor <;> grind
  | giveUp hs hfees => constructor <;> grind [TransactionTracker.clearPending]
  | escalateFails hs fees hfees bundle hsome _ hcalls => constructor <;> grind
  | escalate hs fees hfees bundle hsome raw txHash hhash =>
      refine ⟨by grind, by simp [hp, hs], ?_, by simp⟩
      intro p hpending
      obtain ⟨q, hq, hnonce, _⟩ := TransactionTracker.recordEscalation_pending hpending
      rw [hnonce]
      exact hn q hq
  | cancelNothing hs hnone => exact absurd hs hc
  | cancel hs p hpending _ hcalls => exact absurd hs hc
  | confirming hs next hnext => constructor <;> grind
  | reset hs => constructor <;> grind

theorem step (h : Shape t) (a : StepAnswers) : Shape (t.step a) :=
  h.taskStep (step_taskStep t a)

theorem apply (h : Shape t) (e : TaskEvent) : Shape (e.apply t) := by
  cases e with
  | step a => exact h.step a
  | pool call => exact ⟨h.bundle_isSome, h.pending_isSome, h.nonce_eq, h.not_cancelling⟩

/-- **Every reachable state has this shape.** -/
theorem of_reachable {cond : BundlerTask → TaskEvent → Prop}
    (h : bundlerMachine.ReachableUnder cond t) : Shape t := by
  apply h.invariant
  · intro s hinit
    obtain ⟨_, _, _, _, hstart⟩ := hinit
    exact of_start hstart
  · intro s e hs _ _
    exact hs.apply e

end Shape

/-! ## Accepted submissions -/

section Accepted

variable {txHash : B256} {tx : TransactionRequest}

/-- An accepted submission carries the held bundle and becomes the tracked
transaction; its nonce is at most the tracker's, and is the tracker's unless
it is a replacement. -/
theorem TaskStep.accepted_cases (h : Shape t) (hstep : TaskStep t a t' calls)
    (hacc : acceptedBy a.submitted calls = some (txHash, tx)) :
    ∃ p bundle, t'.tracker.pending = some p ∧ p.txHash = txHash ∧
      t.currentBundle = some bundle ∧ t'.currentBundle = some bundle ∧
      tx.input = .handleOps bundle.ops bundle.beneficiary ∧
      t'.tracker.currentNonce = t.tracker.currentNonce ∧
      tx.nonce ≤ t.tracker.currentNonce ∧
      (t.state = .submitting ∧ tx.nonce = t.tracker.currentNonce ∨ t.state = .escalating) := by
  cases hstep with
  | submitFails hs bundle hb _ hcalls =>
      rw [acceptedBy_of_failure hcalls] at hacc
      cases hacc
  | submit hs bundle hb raw newHash hhash =>
      rw [hhash, acceptedBy_submit] at hacc
      cases hacc
      exact ⟨_, bundle, rfl, rfl, hb, hb, rfl, rfl, Nat.le_refl _, Or.inl ⟨hs, rfl⟩⟩
  | escalateFails hs fees hfees bundle hb _ hcalls =>
      rw [acceptedBy_of_failure hcalls] at hacc
      cases hacc
  | escalate hs fees hfees bundle hb raw newHash hhash =>
      rw [hhash, acceptedBy_submit] at hacc
      cases hacc
      obtain ⟨p, hp⟩ := h.pending_of_escalating hs
      refine ⟨{ p with
        txHash := txHash
        maxFeePerGas := fees.1
        maxPriorityFeePerGas := fees.2
        escalationCount := p.escalationCount + 1 }, bundle, ?_, rfl, hb, hb, rfl, rfl, ?_,
        Or.inr hs⟩
      · simp only [TransactionTracker.recordEscalation, hp, Option.map_some]
      · exact MachineWords.saturatingSub_le _ _
  | cancel hs p hp _ hcalls => exact absurd hs h.not_cancelling
  | _ => simp at hacc

/-- A transaction tracked after a step was tracked before, or was accepted in
the step. -/
theorem TaskStep.tracked_cases (h : Shape t) (hstep : TaskStep t a t' calls)
    {p : PendingTransaction} (hp : t'.tracker.pending = some p) :
    (acceptedBy a.submitted calls = none ∧ t.tracker.pending = some p ∧
      t'.currentBundle = t.currentBundle ∧
      t'.tracker.currentNonce = t.tracker.currentNonce) ∨
    ∃ tx, acceptedBy a.submitted calls = some (p.txHash, tx) := by
  cases hstep with
  | submit hs bundle hb raw newHash hhash =>
      right
      refine ⟨t.buildBundleTx bundle t.tracker.nextNonce, ?_⟩
      cases hp
      rw [hhash, acceptedBy_submit]
  | escalate hs fees hfees bundle hb raw newHash hhash =>
      right
      refine ⟨t.escalationTx bundle fees, ?_⟩
      obtain ⟨q, _, _, hnew⟩ := TransactionTracker.recordEscalation_pending hp
      rw [hnew, hhash, acceptedBy_submit]
  | build hs bundle hbundle hne => grind [h.state_of_pending hp]
  | submitFails hs bundle hb _ hcalls =>
      exact Or.inl ⟨acceptedBy_of_failure hcalls, hp, rfl, rfl⟩
  | escalateFails hs fees hfees bundle hb _ hcalls =>
      exact Or.inl ⟨acceptedBy_of_failure hcalls, hp, rfl, rfl⟩
  | mined hs q hq r hr => simp at hp
  | dropped hs q hq hr n hn hlt => cases hp
  | giveUp hs hfees => cases hp
  | cancel hs q hq _ hcalls => cases hp
  | reset hs => grind [h.state_of_pending hp]
  | _ => exact Or.inl ⟨acceptedBy_nil _, hp, rfl, rfl⟩

/-- Nothing is tracked after a step: nothing was before, or a poll found a
receipt or a consumed nonce, or an escalation found no fees. -/
theorem TaskStep.untracked_cases (h : Shape t) (hstep : TaskStep t a t' calls)
    (hnone : t'.tracker.pending = none) :
    (t.tracker.pending = none ∧ t'.tracker.currentNonce = t.tracker.currentNonce) ∨
    (∃ p r, t.tracker.pending = some p ∧ t.state = .pending ∧ a.receipt = .ok (some r) ∧
      t'.state = .confirming ∧ t'.tracker.currentNonce = p.nonce + 1) ∨
    (∃ p n, t.tracker.pending = some p ∧ t.state = .pending ∧ a.receipt = .ok none ∧
      a.nonce = .ok n ∧ p.nonce < n ∧ t'.tracker.currentNonce = n) ∨
    (∃ p, t.tracker.pending = some p ∧ t.state = .escalating ∧
      t.tracker.escalatedFees a.baseFee a.priorityFee = none ∧
      t'.tracker.currentNonce = t.tracker.currentNonce) := by
  cases hstep with
  | submit hs bundle hb raw newHash hhash => cases hnone
  | mined hs p hp r hr =>
      refine Or.inr (Or.inl ⟨p, r, hp, hs, hr, rfl, ?_⟩)
      simp
  | dropped hs p hp hr n hn hlt =>
      exact Or.inr (Or.inr (Or.inl ⟨p, n, hp, hs, hr, hn, hlt, rfl⟩))
  | giveUp hs hfees =>
      obtain ⟨p, hp⟩ := h.pending_of_escalating hs
      obtain ⟨bundle, hb⟩ := h.bundle_of_pending hp
      refine Or.inr (Or.inr (Or.inr ⟨p, hp, hs, ?_, rfl⟩))
      exact hfees.resolve_right (by rw [hb]; exact Option.some_ne_none _)
  | escalate hs fees hfees bundle hb raw newHash hhash =>
      obtain ⟨p, hp⟩ := h.pending_of_escalating hs
      simp [TransactionTracker.recordEscalation, hp] at hnone
  | cancel hs p hp _ hcalls => exact absurd hs h.not_cancelling
  | _ => exact Or.inl ⟨hnone, rfl⟩

end Accepted

/-- What an accepted submission leaves tracked: a bundle at its own fees, or a replacement at
those it bids. -/
theorem TaskStep.offer_cases (h : Shape t) (hstep : TaskStep t a t' calls)
    (hacc : acceptedBy a.submitted calls = some (txHash, tx)) :
    ∃ bundle p, t.currentBundle = some bundle ∧ t'.currentBundle = some bundle ∧
      t'.tracker.pending = some p ∧ p.txHash = txHash ∧
      (t.state = .submitting ∧ tx = t.buildBundleTx bundle p.nonce ∧ p.escalationCount = 0 ∧
          p.maxFeePerGas = bundle.gasFees.maxFeePerGas ∧
          p.maxPriorityFeePerGas = bundle.gasFees.maxPriorityFeePerGas ∨
        t.state = .escalating ∧
          tx = t.escalationTx bundle (p.maxFeePerGas, p.maxPriorityFeePerGas) ∧
          ∃ q, t.tracker.pending = some q ∧ p.nonce = q.nonce ∧
            p.escalationCount = q.escalationCount + 1) := by
  cases hstep with
  | submitFails hs bundle hb _ hcalls =>
      rw [acceptedBy_of_failure hcalls] at hacc
      cases hacc
  | submit hs bundle hb raw newHash hhash =>
      rw [hhash, acceptedBy_submit] at hacc
      cases hacc
      exact ⟨bundle, _, hb, hb, rfl, rfl, Or.inl ⟨hs, rfl, rfl, rfl, rfl⟩⟩
  | escalateFails hs fees hfees bundle hb _ hcalls =>
      rw [acceptedBy_of_failure hcalls] at hacc
      cases hacc
  | escalate hs fees hfees bundle hb raw newHash hhash =>
      rw [hhash, acceptedBy_submit] at hacc
      cases hacc
      obtain ⟨q, hq⟩ := h.pending_of_escalating hs
      refine ⟨bundle, { q with
        txHash := txHash
        maxFeePerGas := fees.1
        maxPriorityFeePerGas := fees.2
        escalationCount := q.escalationCount + 1 }, hb, hb, ?_, rfl,
        Or.inr ⟨hs, rfl, q, hq, rfl, rfl⟩⟩
      simp only [TransactionTracker.recordEscalation, hq, Option.map_some]
  | cancel hs p hp _ hcalls => exact absurd hs h.not_cancelling
  | _ => simp at hacc

/-- The parts of a task that no step changes. -/
theorem TaskStep.constants (hstep : TaskStep t a t' calls) :
    t'.chainSpec = t.chainSpec ∧ t'.signerAddress = t.signerAddress := by
  cases hstep with
  | mined hs p hp r hr =>
      unfold removeBundledOps
      split <;> exact ⟨rfl, rfl⟩
  | _ => exact ⟨rfl, rfl⟩

/-! ## Nonces of replacements -/

/-- Each transaction that an escalation or a cancellation gives to the signer
has the nonce of the tracked one. -/
def ReplacesTracked (t : BundlerTask) : TaskEvent → Prop
  | .pool _ => True
  | .step a =>
      t.state = .escalating ∨ t.state = .cancelling →
        ∀ tx chainId, TaskCall.sign tx chainId ∈ t.calls a →
          ∃ p, t.tracker.pending = some p ∧ tx.nonce = p.nonce

/-- An escalation that finds fees to bid finds the tracked transaction at
nonce zero. -/
def EscalatesAtZero (t : BundlerTask) : TaskEvent → Prop
  | .pool _ => True
  | .step a =>
      t.state = .escalating → (t.tracker.escalatedFees a.baseFee a.priorityFee).isSome →
        ∀ p, t.tracker.pending = some p → p.nonce = 0

/-- What an escalation signs once it has fees and a bundle. -/
theorem TaskStep.sign_of_escalating (hstep : TaskStep t a t' calls) (hs : t.state = .escalating)
    {fees : U128 × U128} (hfees : t.tracker.escalatedFees a.baseFee a.priorityFee = some fees)
    {bundle : Bundle} (hb : t.currentBundle = some bundle) :
    ∀ tx chainId, TaskCall.sign tx chainId ∈ calls ↔
      tx = t.escalationTx bundle fees ∧ chainId = t.chainSpec.id := by
  intro tx chainId
  cases hstep with
  | giveUp _ hnone => grind
  | escalateFails _ fees' hfees' bundle' hb' _ hcalls => grind
  | escalate _ fees' hfees' bundle' hb' raw txHash hhash => grind
  | _ => grind

/-- Without fees an escalation signs nothing. -/
theorem TaskStep.calls_of_no_fees (hstep : TaskStep t a t' calls) (hs : t.state = .escalating)
    (hfees : t.tracker.escalatedFees a.baseFee a.priorityFee = none) : calls = [] := by
  cases hstep with
  | giveUp _ hnone => rfl
  | _ => grind

/-- The nonce of a replacement is one less than that of the tracked transaction. -/
theorem Shape.replaces_iff (h : Shape t) (e : TaskEvent) :
    ReplacesTracked t e ↔ EscalatesAtZero t e := by
  cases e with
  | pool call => exact Iff.rfl
  | step a =>
      have hstep := step_taskStep t a
      refine ⟨?_, ?_⟩
      · intro hreplaces hs hsome p hp
        obtain ⟨fees, hfees⟩ := Option.isSome_iff_exists.mp hsome
        obtain ⟨bundle, hb⟩ := h.bundle_of_pending hp
        have hsign := (hstep.sign_of_escalating hs hfees hb _ _).mpr ⟨rfl, rfl⟩
        obtain ⟨q, hq, hnonce⟩ := hreplaces (Or.inl hs) _ _ hsign
        have hpq : q = p := by
          rw [hp] at hq
          exact (Option.some.inj hq).symm
        have hcurrent := h.nonce_eq p hp
        have hself : MachineWords.saturatingSub t.tracker.currentNonce 1 =
            t.tracker.currentNonce := by
          rw [hpq, hcurrent] at hnonce
          exact hnonce
        rw [hcurrent]
        exact (MachineWords.saturatingSub_eq_self.mp hself).resolve_right (by decide)
      · intro hzero hstate tx chainId hmem
        have hs : t.state = .escalating := hstate.resolve_right h.not_cancelling
        obtain ⟨p, hp⟩ := h.pending_of_escalating hs
        obtain ⟨bundle, hb⟩ := h.bundle_of_pending hp
        cases hfees : t.tracker.escalatedFees a.baseFee a.priorityFee with
        | none =>
            rw [hstep.calls_of_no_fees hs hfees] at hmem
            cases hmem
        | some fees =>
            have hp0 : p.nonce = 0 := hzero hs (by rw [hfees]; rfl) p hp
            obtain ⟨htx, _⟩ := (hstep.sign_of_escalating hs hfees hb tx chainId).mp hmem
            have hcurrent : t.tracker.currentNonce = 0 := by rw [← h.nonce_eq p hp, hp0]
            refine ⟨p, hp, ?_⟩
            calc tx.nonce = MachineWords.saturatingSub t.tracker.currentNonce 1 := by
                  rw [htx]
                  rfl
              _ = t.tracker.currentNonce := MachineWords.saturatingSub_eq_self.mpr (Or.inl hcurrent)
              _ = p.nonce := (h.nonce_eq p hp).symm

/-- **Replacements along a run.**  They all take the nonce of the tracked
transaction exactly when no escalation is signed at a nonce other than zero. -/
theorem replaces_along_iff (hinit : bundlerMachine.init t) (events : List TaskEvent) :
    bundlerMachine.Along ReplacesTracked events t ↔
      bundlerMachine.Along EscalatesAtZero events t := by
  apply Machine.along_iff _ (.init hinit) (Machine.enabledAlong_of_forall (fun _ _ => trivial))
  intro s e hs _
  exact (Shape.of_reachable hs).replaces_iff e

end BundlerTask

end Runs

/-! ## An escalation at nonce five -/

section NonceFive

/-- No answers from anyone. -/
def silentAnswers : StepAnswers where
  now := 0
  proposal := .error .noOperations
  signed := .error .noSigner
  submitted := .error (.retryable [.text "no answer"])
  cancelled := .error (.retryable [.text "no answer"])
  receipt := .error (.transport [.text "no answer"])
  nonce := .error (.transport [.text "no answer"])
  baseFee := .error (.transport [.text "no answer"])
  priorityFee := .error (.transport [.text "no answer"])
  blockNumber := .error (.transport [.text "no answer"])

/-- The task before its first step, with the nonce the node reported. -/
def startedTask (nonce : U64) : BundlerTask :=
  let task := BundlerTask.new 0xB0 (OperationPool.new (PoolConfig.ofChainSpec ChainSpec.mainnet))
    ChainSpec.mainnet
  { task with tracker := { task.tracker with currentNonce := nonce } }

theorem startedTask_init [Keccak] (nonce : U64) : bundlerMachine.init (startedTask nonce) :=
  ⟨_, _, _, .ok nonce, rfl⟩

/-- The bundle of one operation. -/
def oneBundle : Bundle where
  ops := [(plainOperation 1 0 30).pack]
  beneficiary := 0xB0
  gasEstimate := 500000
  gasFees := { maxFeePerGas := 30, maxPriorityFeePerGas := 1 }
  rejectedOps := []

/-- An operation is pooled, bundled and submitted. -/
def submission [Keccak] (txHash : B256) : List TaskEvent :=
  [.pool (.add ((plainOperation 1 0 30).setContext 0xEE 1) 15),
    .step silentAnswers,
    .step { silentAnswers with proposal := .ok oneBundle },
    .step { silentAnswers with signed := .ok [], submitted := .ok txHash }]

/-- A poll that finds the transaction unmined after half a minute. -/
def latePoll (nonce : U64) : StepAnswers :=
  { silentAnswers with receipt := .ok none, nonce := .ok nonce, now := 30000 }

/-- A replacement is signed and submitted. -/
def escalation (txHash : B256) : StepAnswers :=
  { silentAnswers with
    baseFee := .ok 20, priorityFee := .ok 1, signed := .ok [], submitted := .ok txHash }

/-- The state before the escalation. -/
def lateAtFive : BundlerTask :=
  letI := polynomialDigest
  bundlerMachine.run (submission 0xAAA ++ [.step (latePoll 5)]) (startedTask 5)

/-- From nonce five the replacement is signed with nonce four. -/
theorem escalation_at_five :
    letI := polynomialDigest
    bundlerMachine.Reachable lateAtFive ∧
      ¬ lateAtFive.ReplacesTracked (.step (escalation 0xBBB)) := by
  let _ := polynomialDigest
  have hreach : bundlerMachine.Reachable lateAtFive := by
    apply Machine.reachable_run (.init (startedTask_init 5))
    exact ⟨trivial, trivial, trivial, trivial, trivial, trivial⟩
  refine ⟨hreach, ?_⟩
  have hshape := BundlerTask.Shape.of_reachable hreach
  rw [hshape.replaces_iff]
  have hs : lateAtFive.state = .escalating := by decide +kernel
  have hfees : (lateAtFive.tracker.escalatedFees (.ok 20) (.ok 1)).isSome := by decide +kernel
  have hnonce : lateAtFive.tracker.pending.map PendingTransaction.nonce = some 5 := by
    decide +kernel
  intro hzero
  obtain ⟨p, hp, hfive⟩ := Option.map_eq_some_iff.mp hnonce
  have h0 := hzero hs hfees p hp
  rw [hfive] at h0
  exact absurd h0 (by decide)

/-- The equivalence along that run. -/
theorem replaces_along_iff_at_five :
    letI := polynomialDigest
    bundlerMachine.Along BundlerTask.ReplacesTracked
        (submission 0xAAA ++ [.step (latePoll 5), .step (escalation 0xBBB)]) (startedTask 5) ↔
      bundlerMachine.Along BundlerTask.EscalatesAtZero
        (submission 0xAAA ++ [.step (latePoll 5), .step (escalation 0xBBB)]) (startedTask 5) :=
  @BundlerTask.replaces_along_iff polynomialDigest (startedTask 5)
    (@startedTask_init polynomialDigest 5) _

end NonceFive

end Bunzo
