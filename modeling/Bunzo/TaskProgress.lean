import Bunzo.EscalationRuns
import Bunzo.SignerNode

/-!
# How long a bundle takes

What ends the wait for a transaction is a receipt or a consumed nonce, and after that the
task needs the number of the head only.

* `waits_unsettled` — a transaction without attempts left is waited for, however long that
  takes, and nothing is asked of signer or strategy meanwhile.
* `idle_within` — a node that settles transactions and moves on brings the task back to
  idle in five steps, from any state.
* `offers_counted` — what is offered for one bundle: the first transaction, and at most as
  many replacements as attempts.
-/

namespace Bunzo

open ReachableStates

/-! ## Settled transactions -/

/-- A poll finds the receipt, or the nonce consumed. -/
def PendingTransaction.Settled (p : PendingTransaction) (a : StepAnswers) : Prop :=
  (∃ r, a.receipt = .ok (some r)) ∨ a.receipt = .ok none ∧ ∃ n, a.nonce = .ok n ∧ p.nonce < n

namespace BundlerTask

section Waiting

variable [Keccak] {t : BundlerTask} {a : StepAnswers} {p : PendingTransaction}

/-- Without a settled transaction and without attempts, a poll changes nothing. -/
theorem step_of_unsettled (hs : t.state = .pending) (hp : t.tracker.pending = some p)
    (hlast : t.tracker.escalationConfig.maxAttempts ≤ p.escalationCount)
    (hopen : ¬ p.Settled a) : t.step a = t ∧ t.calls a = [] := by
  have hneeds : t.tracker.needsEscalation a.now = false := by
    unfold TransactionTracker.needsEscalation
    rw [hp]
    simp only [Bool.and_eq_false_iff, decide_eq_false_iff_not]
    exact Or.inr (BitVec.not_lt.mpr hlast)
  have hsame : ({ t with state := .pending } : BundlerTask) = t := by rw [← hs]
  have hhandle : t.handle a = { task := t, next := .pending, calls := [] } := by
    have hpending : t.handle a = t.handlePending a := by simp only [handle, hs]
    rw [hpending, handlePending]
    rcases TransactionTracker.checkPending_cases hp a.receipt a.nonce with
      ⟨e, hcheck, _⟩ | ⟨r, hr, _⟩ | ⟨n, hr, hn, hlt, _⟩ | ⟨n, _, _, _, hcheck⟩
    · rw [hcheck]
    · exact absurd (Or.inl ⟨r, hr⟩) hopen
    · exact absurd (Or.inr ⟨hr, n, hn, hlt⟩) hopen
    · rw [hcheck]
      simp only [hneeds]
      rfl
  unfold step BundlerTask.calls
  rw [hhandle]
  exact ⟨hsame, rfl⟩

/-- A settled transaction is waited for no longer. -/
theorem step_of_settled (hs : t.state = .pending) (hp : t.tracker.pending = some p)
    (hsettled : p.Settled a) :
    ((t.step a).state = .confirming ∨ (t.step a).state = .abandoned) ∧
      (t.step a).tracker.pending = none := by
  have hstep := step_taskStep t a
  generalize t.step a = t', t.calls a = calls at hstep ⊢
  unfold PendingTransaction.Settled at hsettled
  cases hstep with
  | pollNothing _ hnone =>
      rw [hp] at hnone
      cases hnone
  | pollFails _ q hq herr => grind
  | mined _ q hq r hr => exact ⟨Or.inl rfl, by simp⟩
  | dropped _ q hq hr n hn hlt => exact ⟨Or.inr rfl, rfl⟩
  | still _ q hq hr n hn hle next hnext => grind
  | _ => grind

end Waiting

/-! ## Steps that are left -/

/-- The steps that a state is away from idle, at most. -/
def stepsLeft : BundleSenderState → Nat
  | .idle => 0
  | .confirmed => 1
  | .abandoned => 1
  | .confirming => 2
  | .pending => 3
  | .submitting => 4
  | .escalating => 4
  | .cancelling => 4
  | .building => 5

/-- A poll settles what is tracked, and the head is deep enough for what is mined. -/
structure Helped (t : BundlerTask) (a : StepAnswers) : Prop where
  settled : t.state = .pending → ∀ p, t.tracker.pending = some p → p.Settled a
  deep : t.state = .confirming → ∀ block, t.minedBlock = some block →
    ∃ n, a.blockNumber = .ok n ∧ t.confirmationDepth ≤ MachineWords.saturatingSub n block

section Helped

variable [Keccak] {t : BundlerTask} {a : StepAnswers}

/-- A bundle deep enough is confirmed. -/
theorem confirmed_of_deep (hs : t.state = .confirming) (hdeep : ∀ block, t.minedBlock = some block →
    ∃ n, a.blockNumber = .ok n ∧ t.confirmationDepth ≤ MachineWords.saturatingSub n block) :
    (t.step a).state = .confirmed := by
  have hhandle : t.handle a = t.handleConfirming a := by simp only [handle, hs]
  unfold step
  rw [hhandle]
  unfold handleConfirming
  cases hblock : t.minedBlock with
  | none => rfl
  | some block =>
      obtain ⟨n, hn, hle⟩ := hdeep block hblock
      simp only [hn, hle, if_true]

/-- **One step nearer.**  The failures of proposer, signer, strategy and market all lead
back to idle; only a poll and a confirmation can hold the task up. -/
theorem stepsLeft_step (hhelp : t.Helped a) (hs : t.state ≠ .idle) :
    stepsLeft (t.step a).state < stepsLeft t.state := by
  have hconfirmed := fun hs => confirmed_of_deep (a := a) hs (hhelp.deep hs)
  have hpoll := fun hs p hp => (step_of_settled (a := a) hs hp (hhelp.settled hs p hp)).1
  have hless (s s' : BundleSenderState) (hs : t.state = s) (hlt : stepsLeft s' < stepsLeft s) :
      stepsLeft s' < stepsLeft t.state := by rwa [hs]
  have hstep := step_taskStep t a
  generalize t.step a = t', t.calls a = calls at hstep hconfirmed hpoll ⊢
  cases hstep with
  | idle hidle next hnext => exact absurd hidle hs
  | buildNothing hs' => exact hless .building .idle hs' (by decide)
  | build hs' bundle hbundle hne => exact hless .building .submitting hs' (by decide)
  | submitNothing hs' hb => exact hless .submitting .idle hs' (by decide)
  | submitFails hs' bundle hb _ hcalls => exact hless .submitting .abandoned hs' (by decide)
  | submit hs' bundle hb raw txHash hhash => exact hless .submitting .pending hs' (by decide)
  | pollNothing hs' hp => exact hless .pending .idle hs' (by decide)
  | pollFails hs' p hp herr =>
      rcases hpoll hs' p hp with hnext | hnext <;> exact absurd (hs'.symm.trans hnext) (by decide)
  | mined hs' p hp r hr => exact hless .pending .confirming hs' (by decide)
  | dropped hs' p hp hr n hn hlt => exact hless .pending .abandoned hs' (by decide)
  | still hs' p hp hr n hn hle next hnext =>
      rcases hpoll hs' p hp with rfl | rfl
      · exact hless .pending .confirming hs' (by decide)
      · exact hless .pending .abandoned hs' (by decide)
  | giveUp hs' hfees => exact hless .escalating .abandoned hs' (by decide)
  | escalateFails hs' fees hfees bundle hb _ hcalls =>
      exact hless .escalating .pending hs' (by decide)
  | escalate hs' fees hfees bundle hb raw txHash hhash =>
      exact hless .escalating .pending hs' (by decide)
  | cancelNothing hs' hp => exact hless .cancelling .idle hs' (by decide)
  | cancel hs' p hp _ hcalls => exact hless .cancelling .abandoned hs' (by decide)
  | confirming hs' next hnext =>
      have hdone : next = .confirmed := hconfirmed hs'
      rw [hdone]
      exact hless .confirming .confirmed hs' (by decide)
  | reset hs' =>
      rcases hs' with hs' | hs'
      · exact hless .confirmed .idle hs' (by decide)
      · exact hless .abandoned .idle hs' (by decide)

end Helped

end BundlerTask

section Runs

variable [Keccak] {config : EscalationConfig} {t : BundlerTask} {p : PendingTransaction}

/-- A poll does not find the transaction settled. -/
def PendingTransaction.Open (p : PendingTransaction) : TaskEvent → Prop
  | .pool _ => True
  | .step a => ¬ p.Settled a

/-- What signer and strategy are asked in an event. -/
def TaskEvent.calls (t : BundlerTask) : TaskEvent → List TaskCall
  | .pool _ => []
  | .step a => t.calls a

/-- The wait for a transaction without attempts left. -/
structure BundlerTask.WaitsFor (t : BundlerTask) (p : PendingTransaction) : Prop where
  state_eq : t.state = .pending
  pending_eq : t.tracker.pending = some p
  spent : t.tracker.escalationConfig.maxAttempts ≤ p.escalationCount

theorem BundlerTask.WaitsFor.run :
    ∀ (events : List TaskEvent) {t : BundlerTask}, t.WaitsFor p → (∀ e ∈ events, p.Open e) →
      (configuredMachine config).Along (fun t e => e.calls t = []) events t ∧
        ((configuredMachine config).run events t).WaitsFor p ∧
        ((configuredMachine config).run events t).tracker = t.tracker ∧
        ((configuredMachine config).run events t).currentBundle = t.currentBundle := by
  intro events
  induction events with
  | nil => exact fun h _ => ⟨trivial, h, rfl, rfl⟩
  | cons e events ih =>
      intro t h hopen
      have hlater : ∀ e ∈ events, p.Open e := fun e' he' => hopen e' (List.mem_cons_of_mem e he')
      have hfirst := hopen e List.mem_cons_self
      cases e with
      | pool call =>
          obtain ⟨hcalls, hwaits, htracker, hbundle⟩ :=
            ih (t := { t with pool := call.apply t.pool }) ⟨h.1, h.2, h.3⟩ hlater
          exact ⟨⟨rfl, hcalls⟩, hwaits, htracker, hbundle⟩
      | step a =>
          obtain ⟨hsame, hnothing⟩ :=
            BundlerTask.step_of_unsettled h.state_eq h.pending_eq h.spent hfirst
          have hnext : (configuredMachine config).next t (.step a) = t := hsame
          obtain ⟨hcalls, hwaits, htracker, hbundle⟩ := ih h hlater
          unfold Machine.Along Machine.run
          rw [hnext]
          exact ⟨⟨hnothing, hcalls⟩, hwaits, htracker, hbundle⟩

/-- **No end of the wait.**  A transaction that has been escalated as often as the
configuration allows is neither given up nor cancelled nor replaced: until the node settles
it, the task waits with it and asks for nothing, and then it waits no longer. -/
theorem waits_unsettled {cond : BundlerTask → TaskEvent → Prop}
    (h : (configuredMachine config).ReachableUnder cond t) (hp : t.tracker.pending = some p)
    (hlast : config.maxAttempts ≤ p.escalationCount) (events : List TaskEvent)
    (hopen : ∀ e ∈ events, p.Open e) :
    (configuredMachine config).Along (fun t e => e.calls t = []) events t ∧
      ((configuredMachine config).run events t).state = .pending ∧
      ((configuredMachine config).run events t).tracker = t.tracker ∧
      ((configuredMachine config).run events t).currentBundle = t.currentBundle ∧
      ∀ a, p.Settled a →
        ((configuredMachine config).run (events ++ [.step a]) t).state ≠ .pending ∧
          ((configuredMachine config).run (events ++ [.step a]) t).tracker.pending = none := by
  have hescalates := BundlerTask.Escalates.of_reachable h
  have hpending : t.state = .pending := by
    rcases hescalates.state_of_pending hp with hs | hs
    · exact hs
    · have hleft := hescalates.attempts_left hs p hp
      rw [hescalates.config_eq] at hleft
      exact absurd hleft (BitVec.not_lt.mpr hlast)
  have hstart : t.WaitsFor p := ⟨hpending, hp, by rw [hescalates.config_eq]; exact hlast⟩
  obtain ⟨hcalls, hwaits, htracker, hbundle⟩ :=
    @BundlerTask.WaitsFor.run _ config p events t hstart hopen
  refine ⟨hcalls, hwaits.state_eq, htracker, hbundle, ?_⟩
  intro a hsettled
  rw [Machine.run_append]
  obtain ⟨hstate, hnone⟩ :=
    BundlerTask.step_of_settled hwaits.state_eq hwaits.pending_eq hsettled
  refine ⟨?_, hnone⟩
  intro hagain
  change BundlerTask.state (BundlerTask.step _ a) = .pending at hagain
  rcases hstate with hstate | hstate <;>
  · rw [hagain] at hstate
    cases hstate

/-- The node helps the task on, if it is asked. -/
def TaskEvent.Helps (t : BundlerTask) : TaskEvent → Prop
  | .pool _ => True
  | .step a => t.Helped a

def TaskEvent.isStep : TaskEvent → Bool
  | .pool _ => false
  | .step _ => true

omit [Keccak] in
theorem BundlerTask.stepsLeft_eq_zero {s : BundleSenderState} :
    BundlerTask.stepsLeft s = 0 ↔ s = .idle := by
  cases s <;> decide

/-- **Back to idle.**  Whatever proposer, signer, strategy and market answer and whatever
happens to the pool, five steps in which polls settle what is tracked and the head is deep
enough lead through the idle state, with no bundle in hand and nothing tracked. -/
theorem idle_within (h : bundlerMachine.Reachable t) (events : List TaskEvent)
    (hhelps : bundlerMachine.Along (fun t e => e.Helps t) events t)
    (hsteps : 5 ≤ events.countP TaskEvent.isStep) :
    ∃ early, early <+: events ∧ (bundlerMachine.run early t).state = .idle ∧
      (bundlerMachine.run early t).currentBundle = none ∧
      (bundlerMachine.run early t).tracker.pending = none := by
  have hstart : BundlerTask.stepsLeft t.state ≤ 5 := by
    cases t.state <;> decide
  have hdown : bundlerMachine.Along (fun t e => 0 < BundlerTask.stepsLeft t.state →
      BundlerTask.stepsLeft (bundlerMachine.next t e).state ≤ BundlerTask.stepsLeft t.state ∧
        (e.isStep = true → BundlerTask.stepsLeft (bundlerMachine.next t e).state <
          BundlerTask.stepsLeft t.state)) events t := by
    apply hhelps.imp
    intro t e hhelp hpos
    cases e with
    | pool call => exact ⟨Nat.le_refl _, fun hstep => nomatch hstep⟩
    | step a =>
        have hs : t.state ≠ .idle := fun hidle =>
          Nat.ne_of_gt hpos (BundlerTask.stepsLeft_eq_zero.mpr hidle)
        have hlt := BundlerTask.stepsLeft_step hhelp hs
        exact ⟨Nat.le_of_lt hlt, fun _ => hlt⟩
  obtain ⟨early, hpre, hzero⟩ := Machine.exists_prefix_zero hdown (hstart.trans hsteps)
  have hidle := BundlerTask.stepsLeft_eq_zero.mp hzero
  have hshape : (bundlerMachine.run early t).Shape :=
    .of_reachable (Machine.reachable_run h (Machine.enabledAlong_of_forall (fun _ _ => trivial)))
  refine ⟨early, hpre, hidle, ?_, ?_⟩
  · have hbundle := hshape.bundle_isSome
    rw [hidle] at hbundle
    exact Option.not_isSome_iff_eq_none.mp (fun hsome => (hbundle.mp hsome).1 rfl)
  · have hpending := hshape.pending_isSome
    rw [hidle] at hpending
    exact Option.not_isSome_iff_eq_none.mp (fun hsome => by
      rcases hpending.mp hsome with hs | hs <;> cases hs)

end Runs

/-! ## What is offered for a bundle -/

/-- The task, and the transactions that the strategy accepted for the bundle in hand. -/
structure OfferRun where
  task : BundlerTask
  offers : List TransactionRequest

/-- The first transaction of a bundle and its replacements, in order; the fees offered last are
the ones tracked. -/
def BundlerTask.Offers (t : BundlerTask) (p : PendingTransaction)
    (offers : List TransactionRequest) : Prop :=
  ∃ (bundle : Bundle) (raises : List (U128 × U128)), t.currentBundle = some bundle ∧
    offers = t.buildBundleTx bundle p.nonce :: raises.map (t.escalationTx bundle) ∧
    raises.length = p.escalationCount.toNat ∧
    (raises.getLast?.getD (bundle.gasFees.maxFeePerGas, bundle.gasFees.maxPriorityFeePerGas)) =
      (p.maxFeePerGas, p.maxPriorityFeePerGas)

section OfferRuns

variable [Keccak] {config : EscalationConfig} {s : OfferRun}

/-- Offers are collected until the bundle is mined or given up. -/
def OfferRun.next (s : OfferRun) (e : TaskEvent) : OfferRun where
  task := e.apply s.task
  offers :=
    if (e.apply s.task).Waiting then
      s.offers ++ ((e.accepted s.task).map Prod.snd).toList
    else []

def offerMachine (config : EscalationConfig) : Machine OfferRun TaskEvent where
  init s := (configuredMachine config).init s.task ∧ s.offers = []
  enabled _ _ := True
  next s e := s.next e

/-- The offers tell what is tracked. -/
structure OfferRun.Counted (config : EscalationConfig) (s : OfferRun) : Prop where
  task : s.task.Escalates config
  untracked : s.task.tracker.pending = none → s.offers = []
  tracked : ∀ p, s.task.tracker.pending = some p → s.task.Offers p s.offers

theorem OfferRun.Counted.step_of_none (h : s.Counted config) {a : StepAnswers}
    (hacc : acceptedBy a.submitted (s.task.calls a) = none) :
    (s.next (.step a)).Counted config := by
  have hshape := h.task.toFullShape.toShape
  have hstep := BundlerTask.step_taskStep s.task a
  have hnext : (s.next (.step a)).offers = if (s.task.step a).Waiting then s.offers else [] := by
    change (if _ then s.offers ++ ((acceptedBy a.submitted (s.task.calls a)).map Prod.snd).toList
      else []) = _
    simp only [hacc, Option.map_none, Option.toList_none, List.append_nil]
    rfl
  refine ⟨h.task.step a, ?_, ?_⟩
  · intro hnone
    rw [hnext, if_neg]
    intro hwaiting
    have hsome := (hshape.step a).pending_isSome.mpr hwaiting
    rw [show (s.task.step a).tracker.pending = none from hnone] at hsome
    cases hsome
  · intro p hp
    have hwaiting : (s.task.step a).Waiting := (hshape.step a).state_of_pending hp
    rw [hnext, if_pos hwaiting]
    rcases hstep.tracked_cases hshape hp with ⟨_, hold, hbundle, hnonce⟩ | ⟨tx, hsome⟩
    · obtain ⟨bundle, raises, hb, hoffers, hrest⟩ := h.tracked p hold
      have hspec := hstep.constants.1
      refine ⟨bundle, raises, hbundle.trans hb, ?_, hrest⟩
      rw [hoffers]
      unfold BundlerTask.escalationTx BundlerTask.buildBundleTx TransactionTracker.nextNonce
      simp only [OfferRun.next, TaskEvent.apply, hspec, hnonce]
    · rw [hacc] at hsome
      cases hsome

theorem OfferRun.Counted.step_of_some (h : s.Counted config) {a : StepAnswers} {txHash : B256}
    {tx : TransactionRequest}
    (hacc : acceptedBy a.submitted (s.task.calls a) = some (txHash, tx)) :
    (s.next (.step a)).Counted config := by
  have hshape := h.task.toFullShape.toShape
  have hstep := BundlerTask.step_taskStep s.task a
  have hspec := hstep.constants.1
  obtain ⟨bundle, p', hb, hb', hp', _, hstate⟩ := hstep.offer_cases hshape hacc
  obtain ⟨_, _, _, _, _, _, _, hkept, _⟩ := hstep.accepted_cases hshape hacc
  have hwaiting : (s.task.step a).Waiting := (hshape.step a).state_of_pending hp'
  have hoffers : (s.next (.step a)).offers = s.offers ++ [tx] := by
    change (if (s.task.step a).Waiting then
      s.offers ++ ((acceptedBy a.submitted (s.task.calls a)).map Prod.snd).toList else []) = _
    rw [if_pos hwaiting, hacc]
    rfl
  -- The transactions are those of the task before the step.
  have hbuild : ∀ b n, (s.task.step a).buildBundleTx b n = s.task.buildBundleTx b n := by
    intro b n
    unfold BundlerTask.buildBundleTx
    rw [hspec]
  have hescalation : (s.task.step a).escalationTx bundle = s.task.escalationTx bundle := by
    funext fees
    unfold BundlerTask.escalationTx TransactionTracker.nextNonce
    rw [hbuild, hkept]
  refine ⟨h.task.step a, ?_, ?_⟩
  · intro hnone
    rw [show (s.task.step a).tracker.pending = none from hnone] at hp'
    cases hp'
  · intro p hp
    obtain rfl := Option.some.inj (hp'.symm.trans hp)
    rw [hoffers]
    rcases hstate with ⟨hs, htx, hcount, hfee, htip⟩ | ⟨hs, htx, q, hq, hnonce, hcount⟩
    · have hnone : s.task.tracker.pending = none := by
        rw [← Option.not_isSome_iff_eq_none, hshape.pending_isSome, hs]
        decide
      refine ⟨bundle, [], hb', ?_, by rw [hcount]; rfl, by rw [hfee, htip]; rfl⟩
      rw [h.untracked hnone, htx]
      change [s.task.buildBundleTx bundle p'.nonce] = [(s.task.step a).buildBundleTx _ _]
      rw [hbuild]
    · obtain ⟨bundle', raises, hbundle, hold, hlength, _⟩ := h.tracked q hq
      obtain rfl := Option.some.inj (hb.symm.trans hbundle)
      refine ⟨bundle, raises ++ [(p'.maxFeePerGas, p'.maxPriorityFeePerGas)], hb', ?_, ?_, ?_⟩
      · change _ = (s.task.step a).buildBundleTx _ _ ::
          List.map ((s.task.step a).escalationTx bundle) _
        rw [hold, htx, hbuild, hescalation, hnonce, List.map_append]
        rfl
      · have hleft := h.task.attempts_left hs q hq
        have hmax := s.task.tracker.escalationConfig.maxAttempts.isLt
        rw [BitVec.lt_def] at hleft
        rw [hcount, List.length_append, hlength, MachineWords.toNat_add_of_lt]
        · rfl
        · change q.escalationCount.toNat + 1 < 2 ^ 32
          omega
      · rw [List.getLast?_concat]
        rfl

theorem OfferRun.Counted.next (h : s.Counted config) (e : TaskEvent) :
    (s.next e).Counted config := by
  cases e with
  | step a =>
      cases hacc : acceptedBy a.submitted (s.task.calls a) with
      | none => exact h.step_of_none hacc
      | some sent => exact h.step_of_some hacc
  | pool call =>
      have hoffers : (s.next (.pool call)).offers = if s.task.Waiting then s.offers else [] := by
        change (if _ then s.offers ++ [] else []) = _
        rw [List.append_nil]
        rfl
      have hshape := h.task.toFullShape.toShape
      refine ⟨h.task.apply (.pool call), ?_, ?_⟩
      · intro hnone
        rw [hoffers, h.untracked hnone, ite_self]
      · intro p hp
        have hwaiting : s.task.Waiting := hshape.state_of_pending hp
        rw [hoffers, if_pos hwaiting]
        exact h.tracked p hp

end OfferRuns

/-! ## Late at nonce five -/

section Late

/-- A late transaction is replaced once. -/
def offersAtFive : OfferRun :=
  letI := polynomialDigest
  (offerMachine EscalationConfig.default).run
    (submission 0xAAA ++ [.step (latePoll 5), .step (escalation 0xBBB)])
    { task := startedTask 5, offers := [] }

/-- The transaction is replaced five times. -/
def spentAtFive : BundlerTask :=
  letI := polynomialDigest
  (configuredMachine EscalationConfig.default).run
    (submission 0xAAA ++ (List.replicate 5
      [TaskEvent.step (latePoll 5), TaskEvent.step (escalation 0xBBB)]).flatten) (startedTask 5)

/-- What is tracked then, at the fees of the fifth escalation. -/
def fifthPending : PendingTransaction where
  txHash := 0xBBB
  nonce := 5
  escalationCount := 5
  submittedAt := 0
  maxFeePerGas := 51
  maxPriorityFeePerGas := 1

/-- A poll that comes late changes nothing any more. -/
theorem waits_unsettled_five :
    letI := polynomialDigest
    (configuredMachine EscalationConfig.default).Along (fun t e => e.calls t = [])
        [.step (latePoll 5)] spentAtFive ∧
      ((configuredMachine EscalationConfig.default).run [.step (latePoll 5)] spentAtFive).state =
        .pending ∧
      ((configuredMachine EscalationConfig.default).run [.step (latePoll 5)]
        spentAtFive).tracker = spentAtFive.tracker ∧
      ((configuredMachine EscalationConfig.default).run [.step (latePoll 5)]
        spentAtFive).currentBundle = spentAtFive.currentBundle ∧
      ∀ a, fifthPending.Settled a →
        ((configuredMachine EscalationConfig.default).run
          ([.step (latePoll 5)] ++ [.step a]) spentAtFive).state ≠ .pending ∧
        ((configuredMachine EscalationConfig.default).run
          ([.step (latePoll 5)] ++ [.step a]) spentAtFive).tracker.pending = none := by
  let _ := polynomialDigest
  have hreach : (configuredMachine EscalationConfig.default).Reachable spentAtFive := by
    apply Machine.reachable_run (.init (startedTask_configured 5))
    exact Machine.enabledAlong_of_forall (fun _ _ => trivial)
  have hpending : spentAtFive.tracker.pending = some fifthPending := by decide +kernel
  refine waits_unsettled hreach hpending (by decide) _ ?_
  intro e he
  obtain rfl := List.mem_singleton.mp he
  rintro (⟨r, hr⟩ | ⟨_, n, hn, hlt⟩)
  · cases hr
  · cases hn
    exact absurd hlt (by decide)

/-- The replacement is mined in block 7, and the chain goes on to block 10. -/
def settlingEvents : List TaskEvent :=
  [.step (escalation 0xBBB),
    .step { silentAnswers with receipt := .ok (some { status := true, blockNumber := some 7 }) },
    .step { silentAnswers with blockNumber := .ok 10 },
    .step silentAnswers,
    .step silentAnswers]

/-- An escalating task is idle again. -/
theorem idle_within_five :
    letI := polynomialDigest
    ∃ early, early <+: settlingEvents ∧
      (bundlerMachine.run early lateAtFive).state = .idle ∧
      (bundlerMachine.run early lateAtFive).currentBundle = none ∧
      (bundlerMachine.run early lateAtFive).tracker.pending = none := by
  let _ := polynomialDigest
  have hreach : bundlerMachine.Reachable lateAtFive := by
    apply Machine.reachable_run (.init (startedTask_init 5))
    exact Machine.enabledAlong_of_forall (fun _ _ => trivial)
  refine idle_within hreach settlingEvents ⟨?_, ?_, ?_, ?_, ?_, trivial⟩ (by decide)
  · exact ⟨fun hs => absurd hs (by decide +kernel), fun hs => absurd hs (by decide +kernel)⟩
  · refine ⟨fun _ _ _ => ?_, fun hs => absurd hs (by decide +kernel)⟩
    exact Or.inl ⟨{ status := true, blockNumber := some 7 }, rfl⟩
  · refine ⟨fun hs => absurd hs (by decide +kernel), fun _ block hblock => ⟨10, rfl, ?_⟩⟩
    have hseven : block = 7 := Option.some.inj (hblock.symm.trans (by decide +kernel))
    rw [hseven]
    decide +kernel
  · exact ⟨fun hs => absurd hs (by decide +kernel), fun hs => absurd hs (by decide +kernel)⟩
  · exact ⟨fun hs => absurd hs (by decide +kernel), fun hs => absurd hs (by decide +kernel)⟩

end Late

end Bunzo
