import Bunzo.FirstPrice
import Bunzo.SignerNonce

/-!
# A tracker that fell behind

The tracker's nonce is refreshed by a poll, and only what is tracked is polled.  A nonce that
the node has consumed while nothing was tracked is therefore used for every bundle to come,
and the node accepts none of them.

* `LeftBehind` — what stays as it is from then on.
* `never_catches_up` — in every run of the task and its node.
-/

namespace Bunzo

open ReachableStates

namespace NodeRun

/-- Nothing is tracked, the nonce is consumed, and since a given state neither the nonce nor
what the node has accepted has changed. -/
structure LeftBehind (start s : NodeRun) : Prop where
  untracked : s.task.tracker.pending = none
  consumed : s.task.tracker.currentNonce.toNat < s.node.nonce.toNat
  nonce_eq : s.task.tracker.currentNonce = start.task.tracker.currentNonce
  accepted_eq : s.node.accepted = start.node.accepted

variable {start s : NodeRun}

section Steps

variable [Keccak] {a : StepAnswers} {between : List (B256 × TransactionReceipt)}

/-- The node takes no consumed nonce. -/
theorem LeftBehind.accepted_none (h : LeftBehind start s) (hreg : Regular s)
    (htrue : s.Truthful signedSlot a between) : s.accepted a = none := by
  rw [Option.eq_none_iff_forall_ne_some]
  rintro ⟨txHash, tx⟩ hacc
  obtain ⟨_, _, _, _, _, _, _, _, hle, _⟩ :=
    (BundlerTask.step_taskStep s.task a).accepted_cases hreg.shape hacc
  obtain ⟨_, hslot, _⟩ := htrue.accepts _ hacc
  have hlow : s.node.nonce.toNat ≤ tx.nonce.toNat := hslot
  have hhigh : tx.nonce.toNat ≤ s.task.tracker.currentNonce.toNat := hle
  have hconsumed := h.consumed
  omega

/-- So a step tracks nothing, and there is nothing to poll. -/
theorem LeftBehind.step (h : LeftBehind start s) (hreg : Regular s)
    (htrue : s.Truthful signedSlot a between) :
    LeftBehind start (s.next signedSlot (.step a between)) := by
  have hacc := h.accepted_none hreg htrue
  have hnode : (s.next signedSlot (.step a between)).node = SignerNode.mineAll between s.node :=
    nodeAfter_of_none hacc
  have hnone : (s.task.step a).tracker.pending = none := by
    rw [Option.eq_none_iff_forall_ne_some]
    intro p hp
    have hold := (tracked_of_none hreg.shape hacc hp).1
    rw [h.untracked] at hold
    cases hold
  have hkept : (s.task.step a).tracker.currentNonce = s.task.tracker.currentNonce := by
    rcases (BundlerTask.step_taskStep s.task a).untracked_cases hreg.shape hnone with
      ⟨_, hkept⟩ | ⟨p, _, hp, _⟩ | ⟨p, _, hp, _⟩ | ⟨p, hp, _⟩
    · exact hkept
    all_goals
      rw [h.untracked] at hp
      cases hp
  refine ⟨hnone, ?_, hkept.trans h.nonce_eq, ?_⟩
  · rw [hnode]
    change (s.task.step a).tracker.currentNonce.toNat < _
    rw [hkept]
    exact lt_of_lt_of_le h.consumed (hreg.sound.nonce_le_mineAll htrue.minable)
  · rw [hnode, SignerNode.mineAll_accepted]
    exact h.accepted_eq

/-- **One event** leaves the task behind. -/
theorem LeftBehind.next (h : LeftBehind start s) (hreg : Regular s) {e : NodeEvent}
    (he : s.Enabled signedSlot e) : LeftBehind start (s.next signedSlot e) := by
  cases e with
  | mine mined =>
      refine ⟨h.untracked, ?_, h.nonce_eq, h.accepted_eq⟩
      change _ < (s.node.mine mined).nonce.toNat
      rw [hreg.sound.nonce_mine he]
      exact Nat.lt_succ_of_lt h.consumed
  | pool call => exact ⟨h.untracked, h.consumed, h.nonce_eq, h.accepted_eq⟩
  | step a between => exact h.step hreg he

/-- So does a run. -/
theorem LeftBehind.run (events : List NodeEvent) :
    ∀ {s : NodeRun}, LeftBehind start s → Regular s →
      (nodeMachine signedSlot).EnabledAlong events s →
      LeftBehind start ((nodeMachine signedSlot).run events s) ∧
        Regular ((nodeMachine signedSlot).run events s) := by
  induction events with
  | nil =>
      intro s h hreg _
      exact ⟨h, hreg⟩
  | cons e events ih =>
      intro s h hreg hrun
      exact ih (h.next hreg hrun.1) (hreg.next hrun.1) hrun.2

end Steps

end NodeRun

/-- A task that tracks nothing and cancels nothing signs bundles alone. -/
theorem BundlerTask.TaskStep.submitting_of_sign [Keccak] {t t' : BundlerTask} {a : StepAnswers}
    {calls : List TaskCall} (hstep : TaskStep t a t' calls) (h : t.Shape)
    (hnone : t.tracker.pending = none) {tx : TransactionRequest} {chainId : U64}
    (hsign : TaskCall.sign tx chainId ∈ calls) : t.state = .submitting := by
  have hwaits : ¬ (t.state = .pending ∨ t.state = .escalating) := by
    rw [← h.pending_isSome, hnone]
    decide
  cases hstep with
  | submitFails hs => exact hs
  | submit hs => exact hs
  | escalateFails hs => exact absurd (Or.inr hs) hwaits
  | escalate hs => exact absurd (Or.inr hs) hwaits
  | cancel hs => exact absurd hs h.not_cancelling
  | _ => cases hsign

section Runs

variable [Keccak] {s : NodeRun}

/-- **Left behind for good.**  Once the node has consumed the tracker's nonce while nothing is
tracked, the task never tracks a transaction again: in every run from there it signs all
bundles with that consumed nonce, and the node accepts none of them. -/
theorem never_catches_up {cond : NodeRun → NodeEvent → Prop}
    (h : (nodeMachine signedSlot).ReachableUnder cond s)
    (hnone : s.task.tracker.pending = none)
    (hconsumed : s.task.tracker.currentNonce < s.node.nonce) (events : List NodeEvent)
    (hrun : (nodeMachine signedSlot).EnabledAlong events s) :
    let last := (nodeMachine signedSlot).run events s
    last.task.tracker.pending = none ∧ ¬ last.task.Waiting ∧
      last.node.accepted = s.node.accepted ∧
      (∀ a between, last.Truthful signedSlot a between → last.accepted a = none) ∧
      ∀ a tx chainId, TaskCall.sign tx chainId ∈ last.task.calls a →
        tx.nonce = s.task.tracker.currentNonce ∧ tx.nonce < last.node.nonce := by
  have hbehind : s.LeftBehind s := ⟨hnone, hconsumed, rfl, rfl⟩
  obtain ⟨hlast, hreg⟩ := hbehind.run events (.of_reachable h) hrun
  refine ⟨hlast.untracked, ?_, hlast.accepted_eq, ?_, ?_⟩
  · intro hwaits
    have hsome := hreg.shape.pending_isSome.mpr hwaits
    rw [hlast.untracked] at hsome
    cases hsome
  · intro a between htrue
    exact hlast.accepted_none hreg htrue
  · intro a tx chainId hsign
    have hstep := BundlerTask.step_taskStep
      ((nodeMachine signedSlot).run events s).task a
    have hs := hstep.submitting_of_sign hreg.shape hlast.untracked hsign
    have hnonce := NodeRun.sign_of_submitting hstep hs hsign
    refine ⟨hnonce.trans hlast.nonce_eq, ?_⟩
    rw [hnonce]
    exact hlast.consumed

end Runs

/-- The transaction with nonce five is given up, and mined afterwards. -/
def minedAfterwards : NodeRun :=
  letI := polynomialDigest
  restingRun 5 .abandoned (some oneBundle) minedNode [0xAAA]

/-- The state is reached when a transaction that was given up is mined after all. -/
theorem minedAfterwards_reachable :
    letI := polynomialDigest
    (nodeMachine signedSlot).Reachable minedAfterwards := by
  let _ := polynomialDigest
  have hgivenUp : (nodeMachine signedSlot).Reachable
      (restingRun 5 .abandoned (some oneBundle) (firstNode 5) [0xAAA]) :=
    stuck_reachable.next_eq (.step silentAnswers []) (NodeRun.truthful_of_silent rfl rfl rfl)
      trivial rfl
  exact hgivenUp.next_eq (.mine (0xAAA, { status := true, blockNumber := some 7 }))
    List.mem_cons_self trivial rfl

/-- The operation is bundled once more, and the bundle is refused. -/
def refusedBundle : List NodeEvent :=
  [.step silentAnswers [],
    .step silentAnswers [],
    .step { silentAnswers with proposal := .ok oneBundle } [],
    .step { silentAnswers with signed := .ok [] } []]

/-- The next bundle goes through building and submission, and is refused. -/
theorem refusedBundle_enabled :
    letI := polynomialDigest
    (nodeMachine signedSlot).EnabledAlong refusedBundle minedAfterwards := by
  let _ := polynomialDigest
  exact ⟨NodeRun.truthful_of_silent rfl rfl rfl, NodeRun.truthful_of_silent rfl rfl rfl,
    NodeRun.truthful_of_silent rfl rfl rfl, NodeRun.truthful_of_silent rfl rfl rfl, trivial⟩

/-- The same for this run. -/
theorem never_catches_up_five :
    letI := polynomialDigest
    let last := (nodeMachine signedSlot).run refusedBundle minedAfterwards
    last.task.tracker.pending = none ∧ ¬ last.task.Waiting ∧
      last.node.accepted = minedAfterwards.node.accepted ∧
      (∀ a between, last.Truthful signedSlot a between → last.accepted a = none) ∧
      ∀ a tx chainId, TaskCall.sign tx chainId ∈ last.task.calls a →
        tx.nonce = 5 ∧ tx.nonce < last.node.nonce := by
  let _ := polynomialDigest
  exact never_catches_up minedAfterwards_reachable rfl (by decide) refusedBundle
    refusedBundle_enabled

end Bunzo
