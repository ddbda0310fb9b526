import Bunzo.BundleRemoval
import Bunzo.SignerNode

/-!
# Escalations racing with the node

All transactions of one bundle compete for the slot of the pending nonce, and
the node may mine any of them.  The task only ever asks for the receipt of the
last one.

* `Watched` — while nothing but the tracked transaction succeeds, none of an
  abandoned bundle has succeeded or can.
* `confirms_winner` — the step that ends the wait for a bundle with a
  successful transaction then confirms it and removes its operations.
* `overtaken_dropped` — the run in which the first transaction is mined after
  a replacement was accepted: the bundle is taken as dropped.
-/

namespace Bunzo

open ReachableStates BundlerTask

/-- Only the tracked transaction succeeds, not between the two queries of a
poll that is answered, and it is not given up for want of fees afterwards. -/
def WatchesWinner (s : NodeRun) : NodeEvent → Prop
  | .mine mined =>
      mined.2.status = true → ∃ p, s.task.tracker.pending = some p ∧ p.txHash = mined.1
  | .pool _ => True
  | .step a between =>
      (∀ mined ∈ between, mined.2.status = true →
        (∃ p, s.task.tracker.pending = some p ∧ p.txHash = mined.1) ∧
          (a.receipt = .ok none → ∃ e, a.nonce = .error e)) ∧
      (s.task.state = .escalating →
        s.task.tracker.escalatedFees a.baseFee a.priorityFee = none →
          ∀ p, s.task.tracker.pending = some p → ¬ s.node.Succeeded p.txHash)

namespace NodeRun

/-- What is known of the hashes of the bundle in flight and of those left
behind, while only the tracked transaction succeeds. -/
structure Watched (s : NodeRun) : Prop where
  keyed : s.task.pool.Keyed
  tracked : ∀ p, s.task.tracker.pending = some p →
    p.txHash ∈ s.attempt ∧ (p.txHash, p.nonce) ∈ s.node.accepted
  attempt_accepted : ∀ txHash ∈ s.attempt, ∃ slot, (txHash, slot) ∈ s.node.accepted
  abandoned_accepted : ∀ txHash ∈ s.abandoned, ∃ slot, (txHash, slot) ∈ s.node.accepted
  apart : ∀ txHash ∈ s.abandoned, txHash ∉ s.attempt
  winner : ∀ txHash ∈ s.attempt, s.node.Succeeded txHash →
    ∃ p, s.task.tracker.pending = some p ∧ p.txHash = txHash
  lost : ∀ txHash ∈ s.abandoned, ¬ s.node.Succeeded txHash

section Mining

variable {s : NodeRun}

theorem Watched.mine (h : Watched s) {mined : B256 × TransactionReceipt}
    (hwatch : mined.2.status = true → ∃ p, s.task.tracker.pending = some p ∧ p.txHash = mined.1) :
    Watched { s with node := s.node.mine mined } := by
  refine ⟨h.keyed, h.tracked, h.attempt_accepted, h.abandoned_accepted, h.apart, ?_, ?_⟩
  · intro txHash hmem hdone
    rcases SignerNode.succeeded_mine.mp hdone with hold | ⟨hhash, hok⟩
    · exact h.winner txHash hmem hold
    · obtain ⟨p, hp, htracked⟩ := hwatch hok
      exact ⟨p, hp, htracked.trans hhash⟩
  · intro txHash hmem hdone
    rcases SignerNode.succeeded_mine.mp hdone with hold | ⟨hhash, hok⟩
    · exact h.lost txHash hmem hold
    · obtain ⟨p, hp, htracked⟩ := hwatch hok
      have hattempt := (h.tracked p hp).1
      rw [htracked, hhash] at hattempt
      exact h.apart txHash hmem hattempt

theorem Watched.mineAll {between : List (B256 × TransactionReceipt)} :
    ∀ {s : NodeRun}, Watched s →
      (∀ mined ∈ between, mined.2.status = true →
        ∃ p, s.task.tracker.pending = some p ∧ p.txHash = mined.1) →
      Watched { s with node := SignerNode.mineAll between s.node } := by
  induction between with
  | nil =>
      intro s h _
      exact h
  | cons mined rest ih =>
      intro s h hwatch
      have hone := h.mine (hwatch mined List.mem_cons_self)
      exact ih hone (fun other hmem => hwatch other (List.mem_cons_of_mem _ hmem))

end Mining

section Steps

variable [Keccak] {s : NodeRun} {a : StepAnswers} {between : List (B256 × TransactionReceipt)}

theorem Watched.of_init (h : (nodeMachine pendingSlot).init s) : Watched s := by
  obtain ⟨⟨_, _, _, _, hstart⟩, hnode, hattempt, habandoned⟩ := h
  obtain ⟨_, _, hp, hpool, _⟩ := start_eq hstart
  constructor
  · rw [hpool]
    intro id e he
    simp [OperationPool.getById, OperationPool.new] at he
  · simp [hp]
  · simp [hattempt]
  · simp [habandoned]
  · simp [habandoned]
  · simp [hattempt]
  · simp [habandoned]

/-- A transaction of the bundle that succeeded is found by the step that ends
the wait. -/
theorem Watched.not_succeeded_of_left (h : Watched s) (hreg : Regular s)
    (htrue : s.Truthful pendingSlot a between) (hwatch : WatchesWinner s (.step a between))
    (hnone : (s.task.step a).tracker.pending = none) (hwaiting : s.task.Waiting)
    (hstate : (s.task.step a).state ≠ .confirming) :
    ∀ txHash ∈ s.attempt, ¬ (SignerNode.mineAll between s.node).Succeeded txHash := by
  intro txHash hmem hdone
  rcases (step_taskStep s.task a).untracked_cases hreg.shape hnone with
    ⟨hbefore, _⟩ | ⟨_, _, _, _, _, hconfirming, _⟩ | ⟨p, n, hp, _, hreceipt, hn, _, _⟩ |
    ⟨p, hp, hs, hfees, _⟩
  · have hsome := hreg.shape.pending_isSome.mpr hwaiting
    rw [hbefore] at hsome
    cases hsome
  · exact hstate hconfirming
  · rcases SignerNode.succeeded_mineAll.mp hdone with hold | ⟨receipt, hmined, hok⟩
    · obtain ⟨q, hq, hhash⟩ := h.winner txHash hmem hold
      have hnothing := htrue.receipt none (by rw [hreceipt]; rfl) q hq
      rw [hhash] at hnothing
      exact SignerNode.not_succeeded_of_receiptOf hnothing.symm hold
    · obtain ⟨_, hfailed⟩ := hwatch.1 (txHash, receipt) hmined hok
      obtain ⟨e, he⟩ := hfailed hreceipt
      rw [hn] at he
      cases he
  · have hnil : between = [] := htrue.between_eq_nil (by rw [hs]; decide)
    rw [hnil] at hdone
    obtain ⟨q, hq, hhash⟩ := h.winner txHash hmem hdone
    rw [← hhash] at hdone
    exact hwatch.2 hs hfees q hq hdone

/-- A replacement is accepted only while no transaction of the bundle has
succeeded. -/
theorem Watched.step_of_some (h : Watched s) (hreg : Regular s)
    (htrue : s.Truthful pendingSlot a between) {txHash : B256} {tx : TransactionRequest}
    (hacc : s.accepted a = some (txHash, tx)) :
    Watched (s.next pendingSlot (.step a between)) := by
  obtain ⟨p', _, hp', hhash', _, _, _, hkept, _, _⟩ :=
    (step_taskStep s.task a).accepted_cases hreg.shape hacc
  have hwaiting : (s.task.step a).Waiting := (hreg.shape.step a).state_of_pending hp'
  have hslot : p'.nonce = s.task.tracker.currentNonce := by
    rw [← hkept]
    exact (hreg.shape.step a).nonce_eq p' hp'
  obtain ⟨hfresh, hnext, hlt⟩ := htrue.accepts _ hacc
  have hnew : ∀ known, (∃ slot, (known, slot) ∈ s.node.accepted) → known ≠ txHash := by
    intro known hknown
    obtain ⟨slot, hmem⟩ := hknown
    exact hfresh _ hmem
  have hafter : s.next pendingSlot (.step a between) =
      { task := s.task.step a
        node := s.node.accept txHash s.task.tracker.currentNonce
        attempt := s.attempt ++ [txHash]
        abandoned := s.abandoned } := by
    simp only [NodeRun.next, nodeAfter_of_some hreg.shape htrue hacc, hacc, hwaiting]
    simp [pendingSlot]
  rw [hafter]
  refine ⟨keyed_step hreg.shape h.keyed a, ?_, ?_, ?_, ?_, ?_, h.lost⟩
  · intro q hq
    have hqp : p' = q := Option.some.inj (hp'.symm.trans hq)
    subst hqp
    rw [hhash', hslot]
    exact ⟨by simp, List.mem_cons_self⟩
  · intro known hmem
    rcases List.mem_append.mp hmem with hold | hlast
    · obtain ⟨slot, hslot⟩ := h.attempt_accepted known hold
      exact ⟨slot, List.mem_cons_of_mem _ hslot⟩
    · rw [List.mem_singleton.mp hlast]
      exact ⟨_, List.mem_cons_self⟩
  · intro known hmem
    obtain ⟨slot, hslot⟩ := h.abandoned_accepted known hmem
    exact ⟨slot, List.mem_cons_of_mem _ hslot⟩
  · intro known hmem hattempt
    rcases List.mem_append.mp hattempt with hold | hlast
    · exact h.apart known hmem hold
    · exact hnew known (h.abandoned_accepted known hmem) (List.mem_singleton.mp hlast)
  · intro known hmem hdone
    rcases List.mem_append.mp hmem with hold | hlast
    · -- the slot of a successful transaction is consumed, so nothing more is accepted for it
      obtain ⟨q, hq, hhash⟩ := h.winner known hold hdone
      obtain ⟨receipt, hreceipt, _⟩ := hdone
      obtain ⟨slot, hmined, hbelow⟩ := hreg.sound.mined_lt known receipt hreceipt
      have hpending := (h.tracked q hq).2
      rw [hhash] at hpending
      have hsame := hreg.sound.slot_unique known slot q.nonce hmined hpending
      rw [hsame, hreg.shape.nonce_eq q hq] at hbelow
      have hle : s.node.nonce.toNat ≤ s.task.tracker.currentNonce.toNat := hnext
      omega
    · rw [List.mem_singleton.mp hlast] at hdone
      exact absurd hdone (hreg.sound.not_succeeded_of_fresh (htrue.accepts _ hacc))

/-- A step that nothing is accepted in, and after which a transaction is tracked, changes
the task and mines. -/
theorem next_of_tracked (hreg : Regular s) (hacc : s.accepted a = none) {p : PendingTransaction}
    (hp : (s.task.step a).tracker.pending = some p) :
    s.next pendingSlot (.step a between) =
      { s with task := s.task.step a, node := SignerNode.mineAll between s.node } := by
  have hwaiting : (s.task.step a).Waiting := (hreg.shape.step a).state_of_pending hp
  simp only [NodeRun.next, nodeAfter_of_none hacc, hacc, hwaiting]
  simp

/-- What is abandoned after such a step was abandoned before, or is the attempt that the step
leaves. -/
theorem abandoned_of_none (hacc : s.accepted a = none) {txHash : B256}
    (hmem : txHash ∈ (s.next pendingSlot (.step a between)).abandoned) :
    txHash ∈ s.abandoned ∨
      (txHash ∈ s.attempt ∧ s.task.Waiting ∧ (s.task.step a).state ≠ .confirming) := by
  simp only [NodeRun.next, hacc] at hmem
  split at hmem
  · next hleaves =>
      rcases List.mem_append.mp hmem with hold | hnew
      · exact Or.inl hold
      · exact Or.inr ⟨by simpa using hnew, hleaves.1, hleaves.2.2⟩
  · exact Or.inl hmem

theorem Watched.step_of_none (h : Watched s) (hreg : Regular s)
    (htrue : s.Truthful pendingSlot a between) (hwatch : WatchesWinner s (.step a between))
    (hacc : s.accepted a = none) : Watched (s.next pendingSlot (.step a between)) := by
  have hmined := h.mineAll (fun mined hmem hok => (hwatch.1 mined hmem hok).1)
  have hkeyed := keyed_step hreg.shape h.keyed a
  cases hp' : (s.task.step a).tracker.pending with
  | some p =>
      have hsame : (s.task.step a).tracker.pending = s.task.tracker.pending :=
        hp'.trans (tracked_of_none hreg.shape hacc hp').1.symm
      rw [next_of_tracked hreg hacc hp']
      refine ⟨hkeyed, ?_, hmined.attempt_accepted, hmined.abandoned_accepted, hmined.apart, ?_,
        hmined.lost⟩
      · intro q hq
        exact hmined.tracked q (hsame.symm.trans hq)
      · intro known hmem hdone
        obtain ⟨q, hq, hhash⟩ := hmined.winner known hmem hdone
        exact ⟨q, hsame.trans hq, hhash⟩
  | none =>
      have hresting : ¬ (s.task.step a).Waiting := by
        intro hwaiting
        have hsome := (hreg.shape.step a).pending_isSome.mpr hwaiting
        rw [hp'] at hsome
        cases hsome
      have hnode : (s.next pendingSlot (.step a between)).node =
          SignerNode.mineAll between s.node := nodeAfter_of_none hacc
      have hattempt : (s.next pendingSlot (.step a between)).attempt = [] := by
        simp only [NodeRun.next, hresting, if_false]
      constructor
      · exact hkeyed
      · intro p hp
        cases hp'.symm.trans hp
      · rw [hattempt]
        simp
      · intro txHash hmem
        rw [hnode, SignerNode.mineAll_accepted]
        rcases abandoned_of_none hacc hmem with hold | ⟨hnew, _, _⟩
        · exact h.abandoned_accepted txHash hold
        · exact h.attempt_accepted txHash hnew
      · rw [hattempt]
        simp
      · rw [hattempt]
        simp
      · intro txHash hmem
        rw [hnode]
        rcases abandoned_of_none hacc hmem with hold | ⟨hnew, hwaiting, hstate⟩
        · exact hmined.lost txHash hold
        · exact h.not_succeeded_of_left hreg htrue hwatch hp' hwaiting hstate txHash hnew

theorem Watched.next (h : Watched s) (hreg : Regular s) {e : NodeEvent}
    (he : s.Enabled pendingSlot e) (hwatch : WatchesWinner s e) :
    Watched (s.next pendingSlot e) := by
  cases e with
  | mine mined => exact h.mine hwatch
  | pool call =>
      exact ⟨h.keyed.apply call, h.tracked, h.attempt_accepted, h.abandoned_accepted, h.apart,
        h.winner, h.lost⟩
  | step a between =>
      cases hacc : s.accepted a with
      | none => exact h.step_of_none hreg he hwatch hacc
      | some sent => exact h.step_of_some hreg he hacc

theorem Watched.of_reachable (h : (nodeMachine pendingSlot).ReachableUnder WatchesWinner s) :
    Watched s := by
  have hboth : Regular s ∧ Watched s := by
    apply h.invariant
    · intro s hinit
      exact ⟨Regular.of_init hinit, Watched.of_init hinit⟩
    · intro s e hs he hwatch
      exact ⟨hs.1.next he, hs.2.next hs.1 he hwatch⟩
  exact hboth.2

/-- The step that ends the wait for a bundle of which a transaction succeeded
goes on to confirm it, and takes its operations out of the pool. -/
def ConfirmsWinner (slotOf : BundlerTask → TransactionRequest → U64) (s : NodeRun) :
    NodeEvent → Prop
  | .step a between =>
      s.task.Waiting → ¬ (s.task.step a).Waiting →
        (∃ txHash ∈ s.attempt, (s.nodeAfter slotOf a between).Succeeded txHash) →
          (s.task.step a).state = .confirming ∧
            ∀ bundle, s.task.currentBundle = some bundle → ∀ op ∈ bundle.ops,
              (s.task.step a).pool.getById (packedId s.task.chainSpec op) = none
  | _ => True

/-- Confirming follows a receipt, and the receipt removes the operations. -/
theorem Watched.removed_of_confirming (h : Watched s) (hreg : Regular s) (hwaiting : s.task.Waiting)
    (hstate : (s.task.step a).state = .confirming) {bundle : Bundle}
    (hb : s.task.currentBundle = some bundle) {op : PackedUserOperation}
    (hop : op ∈ bundle.ops) :
    (s.task.step a).pool.getById (packedId s.task.chainSpec op) = none := by
  have hstep := step_taskStep s.task a
  have hreceipt : s.task.state = .pending ∧ ∃ r, a.receipt = .ok (some r) :=
    hstep.receipt_of_confirming hwaiting hstate
  obtain ⟨hs, r, hr⟩ := hreceipt
  rw [hstep.pool_of_receipt hreg.shape hs hr hb, getById_removeOps _ _ _ h.keyed]
  exact if_pos (List.mem_map_of_mem hop)

/-- **No winner is missed while the task watches it.**  On every run in which
only tracked transactions succeed, and none is given up afterwards, no
transaction of an abandoned bundle ever succeeds, and the step that ends the
wait for a successful one confirms it and removes its operations. -/
theorem confirms_winner (h : (nodeMachine pendingSlot).ReachableUnder WatchesWinner s) :
    (∀ txHash ∈ s.abandoned, ¬ s.node.Succeeded txHash) ∧
    ∀ e, s.Enabled pendingSlot e → WatchesWinner s e → s.ConfirmsWinner pendingSlot e := by
  have hreg := Regular.of_reachable h
  have hwatched := Watched.of_reachable h
  refine ⟨hwatched.lost, ?_⟩
  intro e he hwatch
  cases e with
  | mine mined => trivial
  | pool call => trivial
  | step a between =>
      intro hwaiting hleft hwinner
      have hnone : (s.task.step a).tracker.pending = none := by
        cases hp : (s.task.step a).tracker.pending with
        | none => rfl
        | some p => exact absurd ((hreg.shape.step a).state_of_pending hp) hleft
      have hacc : s.accepted a = none := by
        cases hacc : s.accepted a with
        | none => rfl
        | some sent =>
            obtain ⟨p, _, hp, _⟩ :=
              (step_taskStep s.task a).accepted_cases hreg.shape hacc
            cases hp.symm.trans hnone
      have hstate : (s.task.step a).state = .confirming := by
        by_contra hother
        obtain ⟨txHash, hmem, hdone⟩ := hwinner
        rw [nodeAfter_of_none hacc] at hdone
        exact hwatched.not_succeeded_of_left hreg he hwatch hnone hwaiting hother txHash hmem hdone
      refine ⟨hstate, ?_⟩
      intro bundle hb op hop
      exact hwatched.removed_of_confirming hreg hwaiting hstate hb hop

end Steps

end NodeRun

/-! ## The first transaction wins -/

section Overtaken

/-- The replacement is tracked at the fees an escalation bids. -/
def secondPending : PendingTransaction where
  txHash := 0xBBB
  nonce := 0
  escalationCount := 1
  submittedAt := 0
  maxFeePerGas := 33
  maxPriorityFeePerGas := 1

/-- Both transactions were accepted, and the first one is mined. -/
def overtakenNode : SignerNode where
  nonce := 1
  accepted := [(0xBBB, 0), (0xAAA, 0)]
  receipts := [(0xAAA, { status := true, blockNumber := some 7 })]

/-- The task still waits for the replacement. -/
def overtakenRun [Keccak] : NodeRun where
  task := taskAt 0 (some secondPending) .pending (some oneBundle)
  node := overtakenNode
  attempt := [0xAAA, 0xBBB]
  abandoned := []

/-- The poll of the replacement after the first transaction is mined. -/
def overtakenPoll : StepAnswers :=
  { silentAnswers with receipt := .ok none, nonce := .ok 1 }

theorem escalatedFees_first :
    ({ (startedTask 0).tracker with pending := some (firstPending 0) }).escalatedFees
      (.ok 20) (.ok 1) = some (33, 1) := by
  decide +kernel

/-- The escalation of the first transaction. -/
theorem handle_escalation [Keccak] :
    (flyingRun 0 .escalating).task.handle (escalation 0xBBB) =
      { task := taskAt 0 (some secondPending) .escalating (some oneBundle)
        next := .pending
        calls := [.sign ((flyingRun 0 .escalating).task.escalationTx oneBundle (33, 1)) 1,
          .submit ((flyingRun 0 .escalating).task.escalationTx oneBundle (33, 1)) []] } := by
  show (flyingRun 0 .escalating).task.handleEscalating (escalation 0xBBB) = _
  unfold handleEscalating
  rw [show (flyingRun 0 .escalating).task.tracker.escalatedFees (escalation 0xBBB).baseFee
    (escalation 0xBBB).priorityFee = some (33, 1) from escalatedFees_first]
  rfl

theorem overtaken_reachable [Keccak] {slotOf : BundlerTask → TransactionRequest → U64}
    (hsize : pooledOne.size ≠ 0)
    (hfirst : slotOf (taskAt 0 none .submitting (some oneBundle))
      ((taskAt 0 none .submitting (some oneBundle)).buildBundleTx oneBundle 0) = 0)
    (hsecond : slotOf (flyingRun 0 .escalating).task
      ((flyingRun 0 .escalating).task.escalationTx oneBundle (33, 1)) = 0) :
    (nodeMachine slotOf).Reachable overtakenRun := by
  have hflying : (nodeMachine slotOf).Reachable (flyingRun 0 .pending) :=
    NodeRun.flying_reachable hsize (by decide) hfirst (fun _ _ => trivial) (fun _ _ _ => trivial)
  have hlate : (nodeMachine slotOf).Reachable (flyingRun 0 .escalating) :=
    hflying.next_eq (.step (latePoll 0) []) (NodeRun.truthful_of_poll rfl rfl rfl rfl) trivial rfl
  have hshape := (NodeRun.Regular.of_reachable hlate).shape
  have hacc : (flyingRun 0 .escalating).accepted (escalation 0xBBB) =
      some (0xBBB, (flyingRun 0 .escalating).task.escalationTx oneBundle (33, 1)) := by
    unfold NodeRun.accepted BundlerTask.calls
    rw [handle_escalation]
    rfl
  have htrue : (flyingRun 0 .escalating).Truthful slotOf (escalation 0xBBB) [] := by
    apply NodeRun.truthful_of_accepted rfl rfl hacc
    rw [hsecond]
    exact ⟨by simp [flyingRun, firstNode], Nat.le_refl _, by decide⟩
  have hreplaced : (nodeMachine slotOf).Reachable
      { overtakenRun with node := (firstNode 0).accept 0xBBB 0 } := by
    apply hlate.next_eq (.step (escalation 0xBBB) []) htrue trivial
    have hnode := NodeRun.nodeAfter_of_some hshape htrue hacc
    rw [hsecond] at hnode
    simp only [nodeMachine, NodeRun.next, BundlerTask.step, handle_escalation, hacc, hnode]
    rfl
  exact hreplaced.next_eq (.mine (0xAAA, { status := true, blockNumber := some 7 }))
    (List.mem_cons_of_mem _ List.mem_cons_self) trivial rfl

/-- In some reachable state of a run with these slots, an event takes a winner that the task
does not confirm. -/
def MissesWinner [Keccak] (slotOf : BundlerTask → TransactionRequest → U64) : Prop :=
  ∃ s e, (nodeMachine slotOf).Reachable s ∧ s.Enabled slotOf e ∧ ¬ s.ConfirmsWinner slotOf e

/-- **The first transaction of a bundle is mined, and the bundle is dropped.**
This happens from nonce zero, whether slots are those of the signed nonces or
of the pending one. -/
theorem overtaken_dropped :
    letI := polynomialDigest
    MissesWinner pendingSlot ∧ MissesWinner signedSlot := by
  let _ := polynomialDigest
  have hsize : pooledOne.size ≠ 0 := by decide +kernel
  have hwon : overtakenNode.Succeeded 0xAAA := ⟨_, List.mem_cons_self, rfl⟩
  have hmisses : ∀ slotOf, (nodeMachine slotOf).Reachable overtakenRun → MissesWinner slotOf := by
    intro slotOf hreach
    refine ⟨overtakenRun, .step overtakenPoll [], hreach,
      NodeRun.truthful_of_poll rfl rfl rfl rfl, ?_⟩
    intro hconfirms
    obtain ⟨hstate, _⟩ := hconfirms (Or.inl rfl) (by decide) ⟨0xAAA, List.mem_cons_self, hwon⟩
    cases hstate
  have hsigned : MachineWords.saturatingSub (0 : U64) 1 = 0 := by decide
  exact ⟨hmisses _ (overtaken_reachable hsize rfl rfl),
    hmisses _ (overtaken_reachable hsize rfl hsigned)⟩

/-- The first transaction is mined while it is tracked. -/
def wonRun [Keccak] : NodeRun :=
  { flyingRun 0 .pending with
    node := (firstNode 0).mine (0xAAA, { status := true, blockNumber := some 7 }) }

/-- The poll that finds its receipt. -/
def wonPoll : StepAnswers :=
  { silentAnswers with receipt := .ok (some { status := true, blockNumber := some 7 }) }

/-- A bundle whose only transaction is mined is confirmed. -/
theorem confirms_winner_first :
    letI := polynomialDigest
    wonRun.ConfirmsWinner pendingSlot (.step wonPoll []) := by
  let _ := polynomialDigest
  have hsilent : ∀ s a, s.task.tracker.pending = none → WatchesWinner s (.step a []) := by
    intro s a hnone
    refine ⟨fun mined hmem => absurd hmem List.not_mem_nil, ?_⟩
    intro _ _ p hp
    cases hnone.symm.trans hp
  have hflying : (nodeMachine pendingSlot).ReachableUnder WatchesWinner (flyingRun 0 .pending) :=
    NodeRun.flying_reachable (by decide +kernel) (by decide) rfl (fun _ _ => trivial) hsilent
  have hwon : (nodeMachine pendingSlot).ReachableUnder WatchesWinner wonRun :=
    hflying.next_eq (.mine (0xAAA, { status := true, blockNumber := some 7 }))
      List.mem_cons_self (fun _ => ⟨firstPending 0, rfl, rfl⟩) rfl
  have htrue : wonRun.Truthful pendingSlot wonPoll [] := by
    refine ⟨?_, by simp [wonPoll, silentAnswers, Except.toOption], fun h => absurd rfl h, trivial,
      ?_⟩
    · intro r hr p hp
      cases hr
      cases hp
      rfl
    · intro sent hsent
      cases hsent
  apply (NodeRun.confirms_winner hwon).2 (.step wonPoll []) htrue
  exact ⟨fun mined hmem => absurd hmem List.not_mem_nil, fun hs => nomatch hs⟩

end Overtaken

end Bunzo
