import Bunzo.EscalatedFees
import Bunzo.TaskShape

/-!
# Runs with any escalation configuration

The task starts with the default configuration; nothing else about it depends on
that choice.  Here it runs with any configuration.

* `Escalates` — what holds in every state, with the bound on the attempts.
* `forgetsJustly_iff` — in a step, a tracked transaction is dropped for a reason
  exactly if an escalation that looks at the market gets its answers.
* `forgetsJustly_along_iff` — the same along runs.
-/

namespace Bunzo

open ReachableStates

namespace BundlerTask

/-- The task with another escalation configuration. -/
def withEscalation (t : BundlerTask) (config : EscalationConfig) : BundlerTask :=
  { t with tracker := { t.tracker with escalationConfig := config } }

/-- Tracking ends because the node returned the receipt, or reported the nonce as
consumed, or because all attempts are used up. -/
def ForgetsJustly [Keccak] (t : BundlerTask) : TaskEvent → Prop
  | .pool _ => True
  | .step a => ∀ p, t.tracker.pending = some p → (t.step a).tracker.pending = none →
      (t.state = .pending ∧
        ((∃ r, a.receipt = .ok (some r)) ∨ ∃ n, a.nonce = .ok n ∧ p.nonce < n)) ∨
      t.tracker.escalationConfig.maxAttempts ≤ p.escalationCount

/-- An escalation that looks at the market gets both fees. -/
def MarketAnswers (t : BundlerTask) : TaskEvent → Prop
  | .pool _ => True
  | .step a => t.state = .escalating →
      t.tracker.escalationConfig.strategy = .networkTracking →
      ∃ b q, a.baseFee = .ok b ∧ a.priorityFee = .ok q

/-- The side state of the task, and a bound on the attempts it made. -/
structure Escalates (config : EscalationConfig) (t : BundlerTask) : Prop extends FullShape t where
  config_eq : t.tracker.escalationConfig = config
  attempts_le : ∀ p, t.tracker.pending = some p → p.escalationCount ≤ config.maxAttempts

section Steps

variable [Keccak] {t t' : BundlerTask} {a : StepAnswers} {calls : List TaskCall}
  {config : EscalationConfig}

theorem TaskStep.escalationConfig_eq (hstep : TaskStep t a t' calls) :
    t'.tracker.escalationConfig = t.tracker.escalationConfig := by
  cases hstep with
  | mined hs p hp r hr => simp
  | _ => rfl

/-- A submission starts at no attempt, and an escalation adds one to fewer than the
limit. -/
theorem TaskStep.attempts_le (h : FullShape t)
    (hle : ∀ p, t.tracker.pending = some p →
      p.escalationCount ≤ t.tracker.escalationConfig.maxAttempts)
    (hstep : TaskStep t a t' calls) {p : PendingTransaction} (hp : t'.tracker.pending = some p) :
    p.escalationCount ≤ t.tracker.escalationConfig.maxAttempts := by
  cases hstep with
  | submit hs bundle hb raw txHash hhash =>
      obtain rfl := Option.some.inj hp
      exact Nat.zero_le _
  | escalate hs fees hfees bundle hb raw txHash hhash =>
      obtain ⟨q, hq, rfl⟩ := Option.map_eq_some_iff.mp hp
      have hlt := h.attempts_left hs q hq
      have hmax := t.tracker.escalationConfig.maxAttempts.isLt
      rw [BitVec.lt_def] at hlt
      change (q.escalationCount + 1).toNat ≤ _
      rw [MachineWords.toNat_add_of_lt]
      · exact hlt
      · change q.escalationCount.toNat + 1 < 2 ^ 32
        omega
  | mined hs q hq r hr => simp at hp
  | dropped hs q hq hr n hn hlt => cases hp
  | giveUp hs hfees => cases hp
  | cancel hs q hq _ hcalls => cases hp
  | _ => exact hle p hp

theorem Escalates.step (h : t.Escalates config) (a : StepAnswers) :
    (t.step a).Escalates config where
  toFullShape := h.toFullShape.step a
  config_eq := (step_taskStep t a).escalationConfig_eq.trans h.config_eq
  attempts_le p hp := by
    have hle := (step_taskStep t a).attempts_le h.toFullShape
      (by rw [h.config_eq]; exact h.attempts_le) hp
    rwa [h.config_eq] at hle

theorem Escalates.apply (h : t.Escalates config) (e : TaskEvent) :
    (e.apply t).Escalates config := by
  cases e with
  | step a => exact h.step a
  | pool call => exact ⟨h.toFullShape.apply (.pool call), h.config_eq, h.attempts_le⟩

/-- Without fees to bid an escalation drops the transaction. -/
theorem TaskStep.pending_of_no_fees (hstep : TaskStep t a t' calls) (hs : t.state = .escalating)
    (hfees : t.tracker.escalatedFees a.baseFee a.priorityFee = none) :
    t'.tracker.pending = none := by
  cases hstep with
  | giveUp _ hnone => rfl
  | _ => grind

omit [Keccak] in
/-- Two queries are answered, or one of them fails. -/
theorem answered_iff {x y : Except ProviderError U128} :
    (∃ b q, x = .ok b ∧ y = .ok q) ↔ ¬ ((∃ e, x = .error e) ∨ ∃ e, y = .error e) := by
  cases x <;> cases y <;> simp

/-- An escalation that misses a market fee drops the transaction with attempts left. -/
theorem FullShape.marketAnswers_of_forgetsJustly (h : FullShape t)
    (hjust : t.ForgetsJustly (.step a)) : t.MarketAnswers (.step a) := by
  intro hs hstrategy
  obtain ⟨p, hp⟩ := h.toShape.pending_of_escalating hs
  by_contra hsilent
  have hfees : t.tracker.escalatedFees a.baseFee a.priorityFee = none :=
    (TransactionTracker.escalatedFees_eq_none_iff hp).mpr
      (Or.inr ⟨hstrategy, not_not.mp (mt answered_iff.mpr hsilent)⟩)
  rcases hjust p hp ((step_taskStep t a).pending_of_no_fees hs hfees) with
    ⟨hpending, _⟩ | hspent
  · rw [hs] at hpending
    cases hpending
  · exact absurd (h.attempts_left hs p hp) (BitVec.not_lt.mpr hspent)

/-- With both market fees, each way to drop the transaction has its reason. -/
theorem FullShape.forgetsJustly_of_marketAnswers (h : FullShape t)
    (hanswers : t.MarketAnswers (.step a)) : t.ForgetsJustly (.step a) := by
  intro p hp hnone
  rcases (step_taskStep t a).untracked_cases h.toShape hnone with ⟨hbefore, _⟩ |
    ⟨_, r, _, hs, hr, _⟩ | ⟨q, n, hq, hs, _, hn, hlt, _⟩ | ⟨q, hq, hs, hfees, _⟩
  · rw [hp] at hbefore
    cases hbefore
  · exact Or.inl ⟨hs, Or.inl ⟨r, hr⟩⟩
  · obtain rfl := Option.some.inj (hp.symm.trans hq)
    exact Or.inl ⟨hs, Or.inr ⟨n, hn, hlt⟩⟩
  · refine Or.inr (((TransactionTracker.escalatedFees_eq_none_iff hp).mp hfees).resolve_right ?_)
    rintro ⟨hstrategy, hfailed⟩
    exact answered_iff.mp (hanswers hs hstrategy) hfailed

/-- **One step.**  The transaction is dropped for a reason exactly if the market
answers. -/
theorem FullShape.forgetsJustly_iff (h : FullShape t) (e : TaskEvent) :
    t.ForgetsJustly e ↔ t.MarketAnswers e := by
  cases e with
  | pool call => exact Iff.rfl
  | step a => exact ⟨h.marketAnswers_of_forgetsJustly, h.forgetsJustly_of_marketAnswers⟩

end Steps

end BundlerTask

section Runs

variable [Keccak]

/-- The runs of the task with a given escalation configuration. -/
def configuredMachine (config : EscalationConfig) : Machine BundlerTask TaskEvent where
  init t := ∃ t₀, bundlerMachine.init t₀ ∧ t = t₀.withEscalation config
  enabled _ _ := True
  next t e := e.apply t

variable {config : EscalationConfig} {t : BundlerTask}

/-- The configuration makes no difference to what events do. -/
theorem configuredMachine_run (events : List TaskEvent) :
    ∀ t, (configuredMachine config).run events t = bundlerMachine.run events t := by
  induction events with
  | nil =>
      intro t
      rfl
  | cons e events ih =>
      intro t
      exact ih (e.apply t)

theorem BundlerTask.Escalates.of_init (h : (configuredMachine config).init t) :
    t.Escalates config := by
  obtain ⟨t₀, hinit, rfl⟩ := h
  have hreach : bundlerMachine.Reachable t₀ := .init hinit
  have hshape : t₀.FullShape := .of_reachable hreach
  obtain ⟨_, _, _, _, hstart⟩ := hinit
  obtain ⟨hs, _, hp, _, _⟩ := BundlerTask.start_eq hstart
  have hstate : (t₀.withEscalation config).state = .idle := hs
  have hpending : (t₀.withEscalation config).tracker.pending = none := hp
  refine ⟨⟨⟨hshape.bundle_isSome, hshape.pending_isSome, hshape.nonce_eq, hshape.not_cancelling⟩,
    hshape.bundle_nonempty, ?_, hshape.minedBlock_isSome⟩, rfl, ?_⟩
  · intro hescalating
    rw [hstate] at hescalating
    cases hescalating
  · intro p hsome
    rw [hpending] at hsome
    cases hsome

theorem BundlerTask.Escalates.of_reachable {cond : BundlerTask → TaskEvent → Prop}
    (h : (configuredMachine config).ReachableUnder cond t) : t.Escalates config :=
  h.invariant (fun _ hinit => .of_init hinit) (fun _ e hs _ _ => hs.apply e)

/-- **Dropped transactions along a run.**  With any configuration, each of them is
dropped for a reason exactly if no escalation that looks at the market misses a
fee; and none was escalated more often than the configuration allows. -/
theorem forgetsJustly_along_iff (hinit : (configuredMachine config).init t)
    (events : List TaskEvent) :
    ((configuredMachine config).Along BundlerTask.ForgetsJustly events t ↔
      (configuredMachine config).Along BundlerTask.MarketAnswers events t) ∧
    ∀ p, ((configuredMachine config).run events t).tracker.pending = some p →
      p.escalationCount ≤ config.maxAttempts := by
  have hallowed : (configuredMachine config).EnabledAlong events t :=
    Machine.enabledAlong_of_forall (fun _ _ => trivial)
  refine ⟨?_, ?_⟩
  · apply Machine.along_iff _ (.init hinit) hallowed
    intro s e hs _
    exact (BundlerTask.Escalates.of_reachable hs).forgetsJustly_iff e
  · have hreach := Machine.reachable_run (.init hinit) hallowed
    exact (BundlerTask.Escalates.of_reachable hreach).attempts_le

end Runs

/-! ## A market that does not answer -/

/-- The task as it is started has the default configuration. -/
theorem startedTask_configured [Keccak] (nonce : U64) :
    (configuredMachine EscalationConfig.default).init (startedTask nonce) :=
  ⟨startedTask nonce, startedTask_init nonce, rfl⟩

/-- A transaction that is not mined yet is dropped, because the base fee cannot be
read at its first escalation. -/
theorem silent_market_forgets :
    letI := polynomialDigest
    (configuredMachine EscalationConfig.default).init (startedTask 5) ∧
      ¬ (configuredMachine EscalationConfig.default).Along BundlerTask.ForgetsJustly
        (submission 0xAAA ++ [.step (latePoll 5)] ++ [.step silentAnswers]) (startedTask 5) := by
  let _ := polynomialDigest
  refine ⟨startedTask_configured 5, ?_⟩
  have hlate : (configuredMachine EscalationConfig.default).run
      (submission 0xAAA ++ [.step (latePoll 5)]) (startedTask 5) = lateAtFive :=
    configuredMachine_run _ _
  have hreach : (configuredMachine EscalationConfig.default).Reachable lateAtFive := by
    rw [← hlate]
    exact Machine.reachable_run (.init (startedTask_configured 5))
      (Machine.enabledAlong_of_forall (fun _ _ => trivial))
  rw [Machine.along_append, hlate]
  rintro ⟨_, hjust, _⟩
  have hstate : lateAtFive.state = .escalating := by decide +kernel
  have hstrategy : lateAtFive.tracker.escalationConfig.strategy = .networkTracking := by
    decide +kernel
  rw [(BundlerTask.Escalates.of_reachable hreach).forgetsJustly_iff] at hjust
  obtain ⟨b, _, hb, _⟩ := hjust hstate hstrategy
  cases hb

/-- The equivalence along that run. -/
theorem forgetsJustly_along_iff_silent :
    letI := polynomialDigest
    (configuredMachine EscalationConfig.default).Along BundlerTask.ForgetsJustly
        (submission 0xAAA ++ [.step (latePoll 5)] ++ [.step silentAnswers]) (startedTask 5) ↔
      (configuredMachine EscalationConfig.default).Along BundlerTask.MarketAnswers
        (submission 0xAAA ++ [.step (latePoll 5)] ++ [.step silentAnswers]) (startedTask 5) := by
  let _ := polynomialDigest
  exact (forgetsJustly_along_iff (startedTask_configured 5) _).1

end Bunzo
