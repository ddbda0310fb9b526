import Bunzo.BundleProposer
import Bunzo.EscalationRuns
import Bunzo.GasOracle

/-!
# Fees over the life of a bundle

The bundles of the task are priced by the gas oracle, and replacements by the
tracker.  A run here has the task, its oracle, and the fees that were recorded for
the bundle at hand, from its first submission to its latest replacement.

* `TaskStep.fees_cases`, `TaskStep.sign_cases` — what one step records, and what
  it gives to the signer.
* `pricedRun_fees` — along every run the tip stays within the cap, and no fee of a
  bundle goes down.
-/

namespace Bunzo

open ReachableStates

/-- The fees that a transaction offers. -/
def TransactionRequest.fees (tx : TransactionRequest) : GasFees :=
  { maxFeePerGas := tx.maxFeePerGas, maxPriorityFeePerGas := tx.maxPriorityFeePerGas }

def PendingTransaction.fees (p : PendingTransaction) : GasFees :=
  { maxFeePerGas := p.maxFeePerGas, maxPriorityFeePerGas := p.maxPriorityFeePerGas }

/-- The tip is within the cap. -/
def GasFees.TipInCap (fees : GasFees) : Prop := fees.maxPriorityFeePerGas ≤ fees.maxFeePerGas

/-- Neither fee is lower than before. -/
def GasFees.NotBelow (old new : GasFees) : Prop :=
  old.maxFeePerGas ≤ new.maxFeePerGas ∧ old.maxPriorityFeePerGas ≤ new.maxPriorityFeePerGas

theorem GasFees.NotBelow.refl (fees : GasFees) : fees.NotBelow fees :=
  ⟨Nat.le_refl _, Nat.le_refl _⟩

theorem GasFees.NotBelow.trans {a b c : GasFees} (hab : a.NotBelow b) (hbc : b.NotBelow c) :
    a.NotBelow c :=
  ⟨Nat.le_trans hab.1 hbc.1, Nat.le_trans hab.2 hbc.2⟩

/-! ## The fees of a bundle -/

/-- A bundle carries the fees that the oracle answered. -/
theorem BundleProposerImpl.makeBundle_fees {proposer : BundleProposerImpl} {pool : OperationPool}
    {currentFees : Except ProviderError GasFees} {baseFee : Except ProviderError U128}
    {answers : Nat → Except ProviderError HandleOpsOut} {bundle : Bundle}
    (h : (proposer.makeBundle pool currentFees baseFee answers).result = .ok bundle) :
    currentFees = .ok bundle.gasFees := by
  cases currentFees with
  | error e => cases h
  | ok fees =>
      cases baseFee with
      | error e => cases h
      | ok base =>
          by_cases hnone : proposer.candidates pool base = []
          · rw [makeBundle_of_none fees answers hnone] at h
            cases h
          · rw [makeBundle_of_candidates fees answers hnone] at h
            obtain ⟨ops, rejectedOps, _, _, rfl⟩ := retryLoop_ok h
            rfl

/-- The sum of a base fee and a tip that fits the word is a cap for the tip. -/
theorem ProviderGasOracle.tipInCap {o : ProviderGasOracle} {a : OracleAnswers} {fees : GasFees}
    (h : (o.currentFees a).1 = .ok fees)
    (hfits : (o.currentFees a).2.lastBaseFee.toNat + fees.maxPriorityFeePerGas.toNat < 2 ^ 128) :
    fees.TipInCap := by
  obtain ⟨_, _, hmax⟩ := currentFees_ok h
  have hbase : ((o.currentFees a).2.lastBaseFee.setWidth 128).toNat =
      (o.currentFees a).2.lastBaseFee.toNat := by
    have hlt := (o.currentFees a).2.lastBaseFee.isLt
    rw [BitVec.toNat_setWidth, Nat.mod_eq_of_lt (by omega)]
  unfold GasFees.TipInCap
  rw [hmax, BitVec.le_def, MachineWords.toNat_add_of_lt (by rw [hbase]; exact hfits)]
  exact Nat.le_add_left _ _

namespace BundlerTask

section Steps

variable [Keccak] {t t' : BundlerTask} {a : StepAnswers} {calls : List TaskCall}

/-- **What a step records.**  Nothing new, the fees of the bundle that it submits,
or those that an escalation found. -/
theorem TaskStep.fees_cases (h : Shape t) (hstep : TaskStep t a t' calls) :
    (acceptedBy a.submitted calls = none ∧
      ∀ p, t'.tracker.pending = some p → t.tracker.pending = some p) ∨
    (t.state = .submitting ∧ (acceptedBy a.submitted calls).isSome ∧ ∃ bundle p,
      t.currentBundle = some bundle ∧ t'.tracker.pending = some p ∧ p.fees = bundle.gasFees) ∨
    (t.state = .escalating ∧ (acceptedBy a.submitted calls).isSome ∧ ∃ p fees p',
      t.tracker.pending = some p ∧
      t.tracker.escalatedFees a.baseFee a.priorityFee = some fees ∧
      t'.tracker.pending = some p' ∧ p'.fees = ⟨fees.1, fees.2⟩) := by
  cases hstep with
  | submitFails hs bundle hb _ hcalls => exact Or.inl ⟨acceptedBy_of_failure hcalls, fun _ hp => hp⟩
  | submit hs bundle hb raw txHash hhash =>
      refine Or.inr (Or.inl ⟨hs, ?_, bundle, _, hb, rfl, rfl⟩)
      rw [hhash, acceptedBy_submit]
      rfl
  | mined hs q hq r hr => exact Or.inl ⟨acceptedBy_nil _, fun p hp => by simp at hp⟩
  | dropped hs q hq hr n hn hlt => exact Or.inl ⟨acceptedBy_nil _, fun p hp => by cases hp⟩
  | giveUp hs hfees => exact Or.inl ⟨acceptedBy_nil _, fun p hp => by cases hp⟩
  | escalateFails hs fees hfees bundle hb _ hcalls =>
      exact Or.inl ⟨acceptedBy_of_failure hcalls, fun _ hp => hp⟩
  | escalate hs fees hfees bundle hb raw txHash hhash =>
      obtain ⟨p, hp⟩ := h.pending_of_escalating hs
      refine Or.inr (Or.inr ⟨hs, ?_, p, fees, _, hp, hfees, congrArg (Option.map _) hp, rfl⟩)
      rw [hhash, acceptedBy_submit]
      rfl
  | cancel hs p hp _ hcalls => exact absurd hs h.not_cancelling
  | _ => exact Or.inl ⟨acceptedBy_nil _, fun _ hp => hp⟩

omit [Keccak] in
/-- The one transaction that is signed for a submission. -/
theorem sign_of_calls {tx signed : TransactionRequest} {chainId chainId' : U64}
    (hcalls : calls = [.sign signed chainId] ∨
      ∃ raw, calls = [.sign signed chainId, .submit signed raw])
    (hsign : TaskCall.sign tx chainId' ∈ calls) : tx = signed := by
  rcases hcalls with rfl | ⟨raw, rfl⟩ <;> simp_all

/-- **What a step signs**: the bundle at its own fees, or at those that an escalation
found. -/
theorem TaskStep.sign_cases (h : Shape t) (hstep : TaskStep t a t' calls)
    {tx : TransactionRequest} {chainId : U64} (hsign : TaskCall.sign tx chainId ∈ calls) :
    (∃ bundle, t.currentBundle = some bundle ∧ tx.fees = bundle.gasFees) ∨
    (t.state = .escalating ∧ ∃ fees,
      t.tracker.escalatedFees a.baseFee a.priorityFee = some fees ∧
      tx.fees = ⟨fees.1, fees.2⟩) := by
  cases hstep with
  | submitFails hs bundle hb _ hcalls =>
      refine Or.inl ⟨bundle, hb, ?_⟩
      obtain rfl := sign_of_calls (hcalls.imp id And.right) hsign
      rfl
  | submit hs bundle hb raw txHash hhash =>
      refine Or.inl ⟨bundle, hb, ?_⟩
      obtain rfl := sign_of_calls (Or.inr ⟨raw, rfl⟩) hsign
      rfl
  | escalateFails hs fees hfees bundle hb _ hcalls =>
      refine Or.inr ⟨hs, fees, hfees, ?_⟩
      obtain rfl := sign_of_calls (hcalls.imp id And.right) hsign
      rfl
  | escalate hs fees hfees bundle hb raw txHash hhash =>
      refine Or.inr ⟨hs, fees, hfees, ?_⟩
      obtain rfl := sign_of_calls (Or.inr ⟨raw, rfl⟩) hsign
      rfl
  | cancel hs p hp _ hcalls => exact absurd hs h.not_cancelling
  | _ => cases hsign

/-- The bundle held after a step was held before, or was proposed in it. -/
theorem TaskStep.bundle_cases (hstep : TaskStep t a t' calls) {bundle : Bundle}
    (hb : t'.currentBundle = some bundle) :
    t.currentBundle = some bundle ∨ t.state = .building ∧ a.proposal = .ok bundle := by
  cases hstep with
  | build hs proposed hproposed hne =>
      obtain rfl := Option.some.inj hb
      exact Or.inr ⟨hs, hproposed⟩
  | mined hs p hp r hr =>
      simp only [removeBundledOps_currentBundle] at hb
      exact Or.inl hb
  | reset hs => cases hb
  | _ => exact Or.inl hb

end Steps

end BundlerTask

/-! ## The task and its oracle -/

/-- Everything answered in one step: to the task itself, and while it builds to the
two calls of the oracle and to the simulations. -/
structure PricedAnswers where
  task : StepAnswers
  currentFees : OracleAnswers
  baseFee : OracleAnswers
  handler : Nat → Except ProviderError HandleOpsOut

inductive PricedEvent where
  | step (a : PricedAnswers)
  | oracle (call : OracleCall)
  | pool (call : PoolCall)

/-- The task, the oracle that prices its bundles, and the fees recorded for the
bundle at hand. -/
structure PricedRun where
  task : BundlerTask
  oracle : ProviderGasOracle
  recorded : List GasFees

namespace PricedRun

/-- What the oracle is asked for a proposal: the base fee only after the fees. -/
def quotedBaseFee (s : PricedRun) (a : PricedAnswers) :
    Except ProviderError U128 × ProviderGasOracle :=
  match s.oracle.currentFees a.currentFees with
  | (.error e, o) => (.error e, o)
  | (.ok _, o) => o.baseFee a.baseFee

/-- The proposal of a step that builds is the one of the proposer. -/
def stepAnswers (proposer : BundleProposerImpl) (s : PricedRun) (a : PricedAnswers) : StepAnswers :=
  { a.task with
    proposal := (proposer.makeBundle s.task.pool (s.oracle.currentFees a.currentFees).1
      (s.quotedBaseFee a).1 a.handler).result }

section Next

variable [Keccak]

/-- The requests of an event. -/
def calls (proposer : BundleProposerImpl) (s : PricedRun) : PricedEvent → List TaskCall
  | .step a => s.task.calls (s.stepAnswers proposer a)
  | .oracle _ => []
  | .pool _ => []

/-- What is recorded after a submission that the strategy accepted: the first one of
a bundle starts the list. -/
def nextRecorded (proposer : BundleProposerImpl) (s : PricedRun) (a : PricedAnswers) :
    List GasFees :=
  let answers := s.stepAnswers proposer a
  let accepted := acceptedBy answers.submitted (s.task.calls answers)
  let latest := ((s.task.step answers).tracker.pending.map PendingTransaction.fees).toList
  if accepted.isSome then
    if s.task.state = .submitting then latest else s.recorded ++ latest
  else s.recorded

def next (proposer : BundleProposerImpl) (s : PricedRun) : PricedEvent → PricedRun
  | .step a =>
      { task := s.task.step (s.stepAnswers proposer a)
        oracle := if s.task.state = .building then (s.quotedBaseFee a).2 else s.oracle
        recorded := s.nextRecorded proposer a }
  | .oracle (.currentFees a) => { s with oracle := (s.oracle.currentFees a).2 }
  | .oracle (.baseFee a) => { s with oracle := (s.oracle.baseFee a).2 }
  | .pool call => { s with task := { s.task with pool := call.apply s.task.pool } }

end Next

/-- The sums and products of the event fit the word. -/
def FeesFit (s : PricedRun) : PricedEvent → Prop
  | .step a =>
      (s.task.state = .building → ∀ fees, (s.oracle.currentFees a.currentFees).1 = .ok fees →
        (s.oracle.currentFees a.currentFees).2.lastBaseFee.toNat +
          fees.maxPriorityFeePerGas.toNat < 2 ^ 128) ∧
      (s.task.state = .escalating → s.task.tracker.EscalationFits a.task.baseFee a.task.priorityFee)
  | .oracle _ => True
  | .pool _ => True

/-- Other states compute no fees. -/
theorem feesFit_of_other {s : PricedRun} (a : PricedAnswers) (hbuild : s.task.state ≠ .building)
    (hescalate : s.task.state ≠ .escalating) : s.FeesFit (.step a) :=
  ⟨fun hs => absurd hs hbuild, fun hs => absurd hs hescalate⟩

/-- Bundle and tracked transaction have their tip within their cap, and the recorded
fees rise up to those of the tracked transaction. -/
structure Priced (config : EscalationConfig) (s : PricedRun) : Prop where
  task : s.task.Escalates config
  bundle : ∀ bundle, s.task.currentBundle = some bundle → bundle.gasFees.TipInCap
  pending : ∀ p, s.task.tracker.pending = some p →
    p.fees.TipInCap ∧ s.recorded.getLast? = some p.fees
  rising : s.recorded.Pairwise GasFees.NotBelow

section Steps

variable [Keccak] {config : EscalationConfig} {proposer : BundleProposerImpl} {s : PricedRun}

omit [Keccak] in
/-- Raised fees keep the tip within the cap, and are not below those raised. -/
theorem raised_fees {tracker : TransactionTracker} {baseFee priorityFee : Except ProviderError U128}
    {p : PendingTransaction} {fees : U128 × U128} (hp : tracker.pending = some p)
    (htip : p.fees.TipInCap) (hfees : tracker.escalatedFees baseFee priorityFee = some fees)
    (hfits : tracker.EscalationFits baseFee priorityFee) :
    GasFees.TipInCap ⟨fees.1, fees.2⟩ ∧ p.fees.NotBelow ⟨fees.1, fees.2⟩ := by
  obtain ⟨_, hfirst, hsecond⟩ := TransactionTracker.escalatedFees_raised hp hfees
  obtain ⟨hmax, hprio⟩ := hfits.1 p hp
  unfold GasFees.TipInCap GasFees.NotBelow
  rw [hfirst, hsecond]
  refine ⟨?_, TransactionTracker.le_raised hmax _, TransactionTracker.le_raised hprio _⟩
  exact TransactionTracker.raised_mono hprio hmax htip (fun m hm => hfits.market hm)

/-- A transaction that is signed has its tip within its cap. -/
theorem Priced.tipInCap (h : s.Priced config) {e : PricedEvent} (hfits : s.FeesFit e)
    {tx : TransactionRequest} {chainId : U64}
    (hsign : TaskCall.sign tx chainId ∈ s.calls proposer e) : tx.fees.TipInCap := by
  cases e with
  | oracle call => cases hsign
  | pool call => cases hsign
  | step a =>
      have hstep := BundlerTask.step_taskStep s.task (s.stepAnswers proposer a)
      rcases hstep.sign_cases h.task.toShape hsign with ⟨bundle, hb, hfees⟩ |
        ⟨hs, fees, hfees, htx⟩
      · rw [hfees]
        exact h.bundle bundle hb
      · obtain ⟨p, hp⟩ := h.task.toShape.pending_of_escalating hs
        rw [htx]
        exact (raised_fees hp (h.pending p hp).1 hfees (hfits.2 hs)).1

theorem nextRecorded_of_none {a : PricedAnswers}
    (h : acceptedBy (s.stepAnswers proposer a).submitted
      (s.task.calls (s.stepAnswers proposer a)) = none) :
    s.nextRecorded proposer a = s.recorded := by
  unfold nextRecorded
  simp only [h, Option.isSome_none, Bool.false_eq_true, if_false]

theorem nextRecorded_of_accepted {a : PricedAnswers} {p : PendingTransaction}
    (h : (acceptedBy (s.stepAnswers proposer a).submitted
      (s.task.calls (s.stepAnswers proposer a))).isSome)
    (hp : (s.task.step (s.stepAnswers proposer a)).tracker.pending = some p) :
    s.nextRecorded proposer a =
      if s.task.state = .submitting then [p.fees] else s.recorded ++ [p.fees] := by
  unfold nextRecorded
  simp only [h, if_true, hp, Option.map_some, Option.toList_some]

omit [Keccak] in
/-- Everything recorded so far is not above the latest fees. -/
theorem notBelow_of_last {l : List GasFees} {last : GasFees} (h : l.Pairwise GasFees.NotBelow)
    (hlast : l.getLast? = some last) : ∀ fees ∈ l, fees.NotBelow last := by
  obtain ⟨before, rfl⟩ := List.getLast?_eq_some_iff.mp hlast
  intro fees hfees
  rcases List.mem_append.mp hfees with hbefore | hsame
  · exact (List.pairwise_append.mp h).2.2 fees hbefore last (List.mem_singleton_self last)
  · rw [List.mem_singleton.mp hsame]
    exact .refl last

theorem Priced.bundle_step (h : s.Priced config) {a : PricedAnswers} (hfits : s.FeesFit (.step a))
    {bundle : Bundle}
    (hb : (s.task.step (s.stepAnswers proposer a)).currentBundle = some bundle) :
    bundle.gasFees.TipInCap := by
  have hstep := BundlerTask.step_taskStep s.task (s.stepAnswers proposer a)
  rcases hstep.bundle_cases hb with hold | ⟨hs, hproposal⟩
  · exact h.bundle bundle hold
  · have hfees := BundleProposerImpl.makeBundle_fees hproposal
    exact ProviderGasOracle.tipInCap hfees (hfits.1 hs _ hfees)

/-- **One step** of the task keeps the fees in order. -/
theorem Priced.step (h : s.Priced config) {a : PricedAnswers} (hfits : s.FeesFit (.step a)) :
    (s.next proposer (.step a)).Priced config := by
  have hstep := BundlerTask.step_taskStep s.task (s.stepAnswers proposer a)
  have htask := h.task.step (s.stepAnswers proposer a)
  rcases hstep.fees_cases h.task.toShape with ⟨hnone, hkept⟩ |
    ⟨hs, haccepted, bundle, p, hb, hp, hfees⟩ |
    ⟨hs, haccepted, p, fees, p', hp, hfees, hp', hnew⟩
  · have hrecorded : (s.next proposer (.step a)).recorded = s.recorded := nextRecorded_of_none hnone
    refine ⟨htask, fun _ hb => h.bundle_step hfits hb, ?_, ?_⟩
    · rw [hrecorded]
      intro p hp
      exact h.pending p (hkept p hp)
    · rw [hrecorded]
      exact h.rising
  · have hrecorded : (s.next proposer (.step a)).recorded = [p.fees] := by
      refine (nextRecorded_of_accepted haccepted hp).trans ?_
      rw [if_pos hs]
    refine ⟨htask, fun _ hb => h.bundle_step hfits hb, ?_, ?_⟩
    · rw [hrecorded]
      intro q hq
      obtain rfl := Option.some.inj (hp.symm.trans hq)
      exact ⟨hfees ▸ h.bundle bundle hb, rfl⟩
    · rw [hrecorded]
      exact List.pairwise_singleton _ _
  · have hrecorded : (s.next proposer (.step a)).recorded = s.recorded ++ [p'.fees] := by
      refine (nextRecorded_of_accepted haccepted hp').trans ?_
      rw [if_neg (by rw [hs]; decide)]
    obtain ⟨htip, hlast⟩ := h.pending p hp
    obtain ⟨htip', hraised⟩ := raised_fees hp htip hfees (hfits.2 hs)
    refine ⟨htask, fun _ hb => h.bundle_step hfits hb, ?_, ?_⟩
    · rw [hrecorded]
      intro q hq
      obtain rfl := Option.some.inj (hp'.symm.trans hq)
      exact ⟨hnew ▸ htip', List.getLast?_concat⟩
    · rw [hrecorded, List.pairwise_append]
      refine ⟨h.rising, List.pairwise_singleton _ _, ?_⟩
      intro old hold new hsame
      rw [List.mem_singleton.mp hsame, hnew]
      exact (notBelow_of_last h.rising hlast old hold).trans hraised

theorem Priced.next (h : s.Priced config) {e : PricedEvent} (hfits : s.FeesFit e) :
    (s.next proposer e).Priced config := by
  cases e with
  | step a => exact h.step hfits
  | oracle call => cases call <;> exact ⟨h.task, h.bundle, h.pending, h.rising⟩
  | pool call => exact ⟨h.task.apply (.pool call), h.bundle, h.pending, h.rising⟩

end Steps

end PricedRun

section Runs

variable [Keccak]

/-- The runs of a task with a given escalation configuration, a new oracle and a
proposer. -/
def pricedMachine (config : EscalationConfig) (proposer : BundleProposerImpl) :
    Machine PricedRun PricedEvent where
  init s := (configuredMachine config).init s.task ∧ s.oracle = ProviderGasOracle.new ∧
    s.recorded = []
  enabled _ _ := True
  next := PricedRun.next proposer

variable {config : EscalationConfig} {proposer : BundleProposerImpl} {s : PricedRun}

theorem PricedRun.Priced.of_init (h : (pricedMachine config proposer).init s) :
    s.Priced config := by
  obtain ⟨htask, _, hrecorded⟩ := h
  have hescalates := BundlerTask.Escalates.of_init htask
  obtain ⟨t₀, ⟨_, _, _, _, hstart⟩, heq⟩ := htask
  obtain ⟨_, hb, hp, _, _⟩ := BundlerTask.start_eq hstart
  refine ⟨hescalates, ?_, ?_, ?_⟩
  · intro bundle hsome
    rw [heq, BundlerTask.withEscalation, hb] at hsome
    cases hsome
  · intro p hsome
    rw [heq, BundlerTask.withEscalation, hp] at hsome
    cases hsome
  · rw [hrecorded]
    exact List.Pairwise.nil

/-- **Fees along a run.**  With any configuration and both strategies, as long as sums
and products fit the word, every transaction that is signed has its tip within its
cap, and the fees recorded for one bundle never go down. -/
theorem pricedRun_fees
    (h : (pricedMachine config proposer).ReachableUnder PricedRun.FeesFit s) :
    s.recorded.Pairwise GasFees.NotBelow ∧
    ∀ e, s.FeesFit e → ∀ tx chainId, TaskCall.sign tx chainId ∈ s.calls proposer e →
      tx.maxPriorityFeePerGas ≤ tx.maxFeePerGas := by
  have hpriced : s.Priced config :=
    h.invariant (fun _ hinit => .of_init hinit) (fun _ _ hs _ hfits => hs.next hfits)
  exact ⟨hpriced.rising, fun e hfits tx chainId hsign => hpriced.tipInCap hfits hsign⟩

end Runs

/-! ## A bundle that is replaced once -/

section Replaced

/-- The provider at a block with a base fee of 15 gwei. -/
def gweiAnswers : OracleAnswers where
  blockNumber := .ok 1
  baseFee := .ok 15000000000
  priorityFee := .ok 1000000000
  baseFeeAgain := .ok 15000000000

/-- A step in which every simulation passes. -/
def pricedStep (a : StepAnswers) : PricedEvent :=
  .step
    { task := a
      currentFees := gweiAnswers
      baseFee := gweiAnswers
      handler := fun _ => .ok .success }

/-- A bundle is priced and submitted, and not mined half a minute later. -/
def lateBundle [Keccak] : List PricedEvent :=
  [.pool (.add ((plainOperation 1 0 30000000000).setContext ChainSpec.mainnet.entryPointV07 1)
      15000000000),
    pricedStep silentAnswers,
    pricedStep silentAnswers,
    pricedStep { silentAnswers with signed := .ok [], submitted := .ok 0xAAA },
    pricedStep (latePoll 5)]

/-- It is replaced, at a higher market. -/
def replacement : PricedEvent :=
  pricedStep
    { silentAnswers with
      baseFee := .ok 20000000000
      priorityFee := .ok 2000000000
      signed := .ok []
      submitted := .ok 0xBBB }

def pricedStart : PricedRun where
  task := startedTask 5
  oracle := ProviderGasOracle.new
  recorded := []

/-- The machine of these runs. -/
def mainnetMachine [Keccak] : Machine PricedRun PricedEvent :=
  pricedMachine EscalationConfig.default (BundleProposerImpl.new ChainSpec.mainnet 7)

theorem lateBundle_fits :
    letI := polynomialDigest
    mainnetMachine.Along PricedRun.FeesFit lateBundle pricedStart := by
  let _ := polynomialDigest
  refine ⟨trivial, PricedRun.feesFit_of_other _ (by decide +kernel) (by decide +kernel),
    ⟨?_, fun hs => absurd hs (by decide +kernel)⟩,
    PricedRun.feesFit_of_other _ (by decide +kernel) (by decide +kernel),
    PricedRun.feesFit_of_other _ (by decide +kernel) (by decide +kernel), trivial⟩
  intro _ fees hfees
  have hquoted : (ProviderGasOracle.new.currentFees gweiAnswers).1 =
      .ok ⟨16000000000, 1000000000⟩ := by decide
  obtain rfl := Except.ok.inj (hquoted.symm.trans hfees)
  decide +kernel

theorem replacement_fits_of {s : PricedRun} (hstate : s.task.state = .escalating)
    (hfees : s.task.tracker.pending.map PendingTransaction.fees = some ⟨16000000000, 1000000000⟩)
    (hconfig : s.task.tracker.escalationConfig = .default) : s.FeesFit replacement := by
  refine ⟨fun hs => absurd (hstate.symm.trans hs) (by decide), fun _ => ⟨?_, ?_⟩⟩
  · intro p hp
    rw [hp] at hfees
    have hp : p.fees = ⟨16000000000, 1000000000⟩ := Option.some.inj hfees
    have hmax : p.maxFeePerGas = 16000000000 := congrArg GasFees.maxFeePerGas hp
    have hprio : p.maxPriorityFeePerGas = 1000000000 :=
      congrArg GasFees.maxPriorityFeePerGas hp
    rw [hconfig, hmax, hprio]
    exact ⟨by decide, by decide⟩
  · intro _ b q hb hq
    obtain rfl := Except.ok.inj hb
    obtain rfl := Except.ok.inj hq
    rw [hconfig]
    exact ⟨by decide, by decide, by decide⟩

theorem replacement_fits :
    letI := polynomialDigest
    (mainnetMachine.run lateBundle pricedStart).FeesFit replacement := by
  let _ := polynomialDigest
  exact replacement_fits_of (by decide +kernel) (by decide +kernel) (by decide +kernel)

/-- The replacement raises both fees. -/
theorem pricedRun_fees_replaced :
    letI := polynomialDigest
    let s := mainnetMachine.run (lateBundle ++ [replacement]) pricedStart
    s.recorded = [⟨16000000000, 1000000000⟩, ⟨25300000000, 2300000000⟩] ∧
      s.recorded.Pairwise GasFees.NotBelow := by
  let _ := polynomialDigest
  intro s
  have hreach : (pricedMachine EscalationConfig.default
      (BundleProposerImpl.new ChainSpec.mainnet 7)).ReachableUnder PricedRun.FeesFit s := by
    have hfits : mainnetMachine.Along PricedRun.FeesFit (lateBundle ++ [replacement])
        pricedStart := by
      rw [Machine.along_append]
      exact ⟨lateBundle_fits, replacement_fits, trivial⟩
    exact Machine.ReachableUnder.run (.init ⟨startedTask_configured 5, rfl, rfl⟩)
      (Machine.enabledAlong_of_forall (fun _ _ => trivial)) hfits
  exact ⟨by decide +kernel, (pricedRun_fees hreach).1⟩

end Replaced

end Bunzo
