import Bunzo.SignerNode

/-!
# The price a bundle keeps

An escalation is signed with the nonce before the one it should replace.  A node that
takes no consumed nonces refuses it, unless both are zero.

* `Behind` — the tracker is never ahead of the node, and what it tracks was accepted at
  the nonce it has.
* `offered_once` — so a bundle is offered once, at the fees it was proposed with, and an
  escalation changes nothing, as long as the tracker's nonce is not zero.
-/

namespace Bunzo

open ReachableStates

namespace SignerNode

variable {node : SignerNode}

theorem Sound.nonce_le_mineAll {between : List (B256 × TransactionReceipt)} :
    ∀ {node : SignerNode}, Sound node → MinableAll between node →
      node.nonce.toNat ≤ (SignerNode.mineAll between node).nonce.toNat := by
  induction between with
  | nil =>
      intro node _ _
      exact Nat.le_refl _
  | cons mined rest ih =>
      intro node h hmine
      have hone := h.nonce_mine hmine.1
      have hrest := ih (h.mine hmine.1) hmine.2
      change node.nonce.toNat ≤ (SignerNode.mineAll rest (node.mine mined)).nonce.toNat
      omega

/-- A hash with a receipt was accepted at a consumed nonce. -/
theorem Sound.lt_of_receiptOf (h : Sound node) {txHash : B256} {slot : U64}
    {r : TransactionReceipt} (hslot : (txHash, slot) ∈ node.accepted)
    (hr : node.receiptOf txHash = some r) : slot.toNat < node.nonce.toNat := by
  obtain ⟨before, after, hreceipts, _⟩ := List.lookup_eq_some_iff.mp hr
  have hmem : (txHash, r) ∈ node.receipts := by
    rw [hreceipts]
    exact List.mem_append_right _ List.mem_cons_self
  obtain ⟨slot', hslot', hlt⟩ := h.mined_lt txHash r hmem
  rwa [h.slot_unique txHash slot slot' hslot hslot']

end SignerNode

namespace NodeRun

/-- The tracker against the node. -/
structure Behind (s : NodeRun) : Prop where
  nonce_le : s.task.tracker.currentNonce.toNat ≤ s.node.nonce.toNat
  slot : ∀ p, s.task.tracker.pending = some p → (p.txHash, p.nonce) ∈ s.node.accepted
  attempt : ¬ s.task.Waiting → s.attempt = []
  once : ∀ p, s.task.tracker.pending = some p → p.nonce ≠ 0 →
    p.escalationCount = 0 ∧ s.attempt = [p.txHash] ∧
      ∃ bundle, s.task.currentBundle = some bundle ∧
        p.maxFeePerGas = bundle.gasFees.maxFeePerGas ∧
        p.maxPriorityFeePerGas = bundle.gasFees.maxPriorityFeePerGas

section Runs

variable [Keccak] {s : NodeRun} {a : StepAnswers} {between : List (B256 × TransactionReceipt)}

theorem Behind.of_init (h : (nodeMachine signedSlot).init s) : Behind s := by
  obtain ⟨⟨_, _, _, _, hstart⟩, hnode, hattempt, _⟩ := h
  obtain ⟨_, _, hp, _, _⟩ := BundlerTask.start_eq hstart
  refine ⟨by rw [hnode], ?_, fun _ => hattempt, ?_⟩
  · intro p hsome
    rw [hp] at hsome
    cases hsome
  · intro p hsome
    rw [hp] at hsome
    cases hsome

/-- **A stale nonce.**  No node accepts what an escalation signs, but at nonce zero. -/
theorem Behind.zero_of_accepted (h : Behind s) (hreg : Regular s)
    (htrue : s.Truthful signedSlot a between) (hs : s.task.state = .escalating) {txHash : B256}
    {tx : TransactionRequest} (hacc : s.accepted a = some (txHash, tx)) :
    s.task.tracker.currentNonce = 0 ∧ tx.nonce = 0 := by
  have hnonce : tx.nonce = MachineWords.saturatingSub s.task.tracker.currentNonce 1 := by
    obtain ⟨_, _, _, _, _, _, hstate⟩ :=
      (BundlerTask.step_taskStep s.task a).offer_cases hreg.shape hacc
    rcases hstate with ⟨hsubmitting, _⟩ | ⟨_, htx, _⟩
    · rw [hs] at hsubmitting
      cases hsubmitting
    · rw [htx]
      rfl
  obtain ⟨_, hfresh, _⟩ := htrue.accepts _ hacc
  have hle : s.task.tracker.currentNonce ≤
      MachineWords.saturatingSub s.task.tracker.currentNonce 1 := by
    rw [← hnonce, BitVec.le_def]
    exact h.nonce_le.trans hfresh
  have hsame := BitVec.le_antisymm (MachineWords.saturatingSub_le _ _) hle
  have hzero := (MachineWords.saturatingSub_eq_self.mp hsame).resolve_right (by decide)
  exact ⟨hzero, by rw [hnonce, hsame, hzero]⟩

/-- After a step that submits. -/
theorem Behind.step_of_some (h : Behind s) (hreg : Regular s)
    (htrue : s.Truthful signedSlot a between) {txHash : B256} {tx : TransactionRequest}
    (hacc : s.accepted a = some (txHash, tx)) : Behind (s.next signedSlot (.step a between)) := by
  have hstep := BundlerTask.step_taskStep s.task a
  have hshape := hreg.shape.step a
  obtain ⟨bundle, p', _, hb', hp', hhash, hstate⟩ := hstep.offer_cases hreg.shape hacc
  obtain ⟨_, _, _, _, _, _, _, hkept, _⟩ := hstep.accepted_cases hreg.shape hacc
  have hnode : (s.next signedSlot (.step a between)).node = s.node.accept txHash tx.nonce :=
    nodeAfter_of_some hreg.shape htrue hacc
  have hnonce : p'.nonce = s.task.tracker.currentNonce := by
    rw [← hkept]
    exact hshape.nonce_eq p' hp'
  have hwaiting : (s.task.step a).Waiting := hshape.state_of_pending hp'
  have hattempt : (s.next signedSlot (.step a between)).attempt = s.attempt ++ [txHash] := by
    simp only [next, hacc, hwaiting, if_true]
    rfl
  constructor
  · rw [hnode]
    change (s.task.step a).tracker.currentNonce.toNat ≤ s.node.nonce.toNat
    rw [hkept]
    exact h.nonce_le
  · intro p hp
    obtain rfl := Option.some.inj (hp'.symm.trans hp)
    rw [hnode, hhash]
    rcases hstate with ⟨_, htx, _⟩ | ⟨hs, _⟩
    · rw [htx]
      exact List.mem_cons_self
    · obtain ⟨hzero, htx⟩ := h.zero_of_accepted hreg htrue hs hacc
      rw [hnonce, hzero, ← htx]
      exact List.mem_cons_self
  · exact fun hnot => absurd hwaiting hnot
  · intro p hp hpos
    obtain rfl := Option.some.inj (hp'.symm.trans hp)
    rcases hstate with ⟨hs, _, hcount, hfees⟩ | ⟨hs, _⟩
    · have hempty : s.attempt = [] := h.attempt (by unfold BundlerTask.Waiting; rw [hs]; decide)
      refine ⟨hcount, ?_, bundle, hb', hfees⟩
      rw [hattempt, hempty, hhash]
      rfl
    · exact absurd (hnonce.trans (h.zero_of_accepted hreg htrue hs hacc).1) hpos

/-- After a step that submits nothing. -/
theorem Behind.step_of_none (h : Behind s) (hreg : Regular s)
    (htrue : s.Truthful signedSlot a between) (hacc : s.accepted a = none) :
    Behind (s.next signedSlot (.step a between)) := by
  have hstep := BundlerTask.step_taskStep s.task a
  have hnode : (s.next signedSlot (.step a between)).node = SignerNode.mineAll between s.node :=
    nodeAfter_of_none hacc
  have hgrows := hreg.sound.nonce_le_mineAll htrue.minable
  have htracked {p : PendingTransaction} (hp : (s.task.step a).tracker.pending = some p) :
      s.task.tracker.pending = some p ∧
        (s.task.step a).currentBundle = s.task.currentBundle := by
    rcases hstep.tracked_cases hreg.shape hp with ⟨_, hold, hbundle, _⟩ | ⟨tx, hsome⟩
    · exact ⟨hold, hbundle⟩
    · rw [show acceptedBy a.submitted (s.task.calls a) = none from hacc] at hsome
      cases hsome
  constructor
  · rw [hnode]
    change (s.task.step a).tracker.currentNonce.toNat ≤ _
    cases hp' : (s.task.step a).tracker.pending with
    | some p =>
        rw [(tracked_of_none hreg.shape hacc hp').2]
        exact h.nonce_le.trans hgrows
    | none =>
        rcases hstep.untracked_cases hreg.shape hp' with ⟨_, hkept⟩ | ⟨p, r, hp, _, hr, _, hnext⟩ |
          ⟨p, n, _, _, _, hn, _, hnext⟩ | ⟨p, _, _, _, hkept⟩
        · rw [hkept]
          exact h.nonce_le.trans hgrows
        · have hreceipt := htrue.receipt (some r) (by rw [hr]; rfl) p hp
          have hlt := hreg.sound.lt_of_receiptOf (h.slot p hp) hreceipt.symm
          have hslot := hreg.sound.slot_lt _ _ (h.slot p hp)
          rw [hnext, MachineWords.toNat_add_of_lt hslot]
          exact Nat.le_trans hlt hgrows
        · rw [hnext, htrue.nonce n (by rw [hn]; rfl)]
        · rw [hkept]
          exact h.nonce_le.trans hgrows
  · intro p hp
    rw [hnode, SignerNode.mineAll_accepted]
    exact h.slot p (htracked hp).1
  · intro hnot
    exact if_neg hnot
  · intro p hp hpos
    obtain ⟨hold, hbundle⟩ := htracked hp
    have hwaiting : (s.task.step a).Waiting := (hreg.shape.step a).state_of_pending hp
    have hattempt : (s.next signedSlot (.step a between)).attempt = s.attempt := by
      simp only [next, hacc, hwaiting, if_true]
      exact List.append_nil _
    rw [hattempt]
    change _ ∧ _ ∧ ∃ bundle, (s.task.step a).currentBundle = some bundle ∧ _
    rw [hbundle]
    exact h.once p hold hpos

theorem Behind.next (h : Behind s) (hreg : Regular s) {e : NodeEvent}
    (he : s.Enabled signedSlot e) : Behind (s.next signedSlot e) := by
  cases e with
  | mine mined =>
      have hnonce := hreg.sound.nonce_mine he
      refine ⟨?_, h.slot, h.attempt, h.once⟩
      change _ ≤ (s.node.mine mined).nonce.toNat
      rw [hnonce]
      exact h.nonce_le.trans (Nat.le_succ _)
  | pool call => exact ⟨h.nonce_le, h.slot, h.attempt, h.once⟩
  | step a between =>
      cases hacc : s.accepted a with
      | none => exact h.step_of_none hreg he hacc
      | some sent => exact h.step_of_some hreg he hacc

theorem Behind.of_reachable {cond : NodeRun → NodeEvent → Prop}
    (h : (nodeMachine signedSlot).ReachableUnder cond s) : Behind s := by
  have hboth : Regular s ∧ Behind s := by
    apply h.invariant
    · intro s hinit
      exact ⟨Regular.of_init hinit, Behind.of_init hinit⟩
    · intro s e hs he _
      exact ⟨hs.1.next he, hs.2.next hs.1 he⟩
  exact hboth.2

/-- An escalation that is not accepted leaves all as it was, or finds no fees to bid. -/
theorem escalation_of_none (hreg : Regular s) (hs : s.task.state = .escalating)
    (hacc : s.accepted a = none) :
    s.task.step a = { s.task with state := .pending } ∨
      s.task.tracker.escalatedFees a.baseFee a.priorityFee = none := by
  obtain ⟨p, hp⟩ := hreg.shape.pending_of_escalating hs
  obtain ⟨bundle, hb⟩ := hreg.shape.bundle_of_pending hp
  have hstep := BundlerTask.step_taskStep s.task a
  unfold accepted at hacc
  generalize s.task.step a = t', s.task.calls a = calls at hstep hacc
  cases hstep with
  | giveUp _ hfees => exact Or.inr (hfees.resolve_right (by rw [hb]; exact Option.some_ne_none _))
  | escalateFails _ fees hfees bundle' hb' _ hcalls => exact Or.inl rfl
  | escalate _ fees hfees bundle' hb' raw txHash hhash =>
      rw [hhash, acceptedBy_submit] at hacc
      cases hacc
  | _ => grind

/-- What a node accepts is the first transaction of its bundle, at the tracker's nonce and the
fees of the proposal, but at nonce zero. -/
theorem accepted_first (hreg : Regular s) (hbehind : Behind s)
    (hnonce : s.task.tracker.currentNonce ≠ 0) (htrue : s.Truthful signedSlot a between)
    {txHash : B256} {tx : TransactionRequest} (hacc : s.accepted a = some (txHash, tx)) :
    s.task.state = .submitting ∧ s.attempt = [] ∧ tx.nonce = s.task.tracker.currentNonce ∧
      ∃ bundle, s.task.currentBundle = some bundle ∧
        tx.maxFeePerGas = bundle.gasFees.maxFeePerGas ∧
        tx.maxPriorityFeePerGas = bundle.gasFees.maxPriorityFeePerGas := by
  have hstep := BundlerTask.step_taskStep s.task a
  obtain ⟨bundle, p, hb, _, hp, _, hstate⟩ := hstep.offer_cases hreg.shape hacc
  obtain ⟨_, _, _, _, _, _, _, hkept, _⟩ := hstep.accepted_cases hreg.shape hacc
  rcases hstate with ⟨hs, htx, _⟩ | ⟨hs, _⟩
  · have hpending : p.nonce = s.task.tracker.currentNonce := by
      rw [← hkept]
      exact (hreg.shape.step a).nonce_eq p hp
    refine ⟨hs, ?_, ?_, bundle, hb, ?_⟩
    · apply hbehind.attempt
      unfold BundlerTask.Waiting
      rw [hs]
      decide
    · rw [htx, ← hpending]
      rfl
    · rw [htx]
      exact ⟨rfl, rfl⟩
  · exact absurd (hbehind.zero_of_accepted hreg htrue hs hacc).1 hnonce

/-- **A bundle is offered once.**  While the tracker's nonce is not zero, what is tracked is
the only transaction of its bundle that was ever accepted, recorded with the fees of the
proposal; whatever a node accepts is the first transaction of its bundle, at the tracker's
nonce, and pays these fees; and a node accepts no escalation, and the task is where it was
before it. -/
theorem offered_once {cond : NodeRun → NodeEvent → Prop}
    (h : (nodeMachine signedSlot).ReachableUnder cond s)
    (hnonce : s.task.tracker.currentNonce ≠ 0) :
    (∀ p, s.task.tracker.pending = some p → p.escalationCount = 0 ∧ s.attempt = [p.txHash] ∧
      ∃ bundle, s.task.currentBundle = some bundle ∧
        p.maxFeePerGas = bundle.gasFees.maxFeePerGas ∧
        p.maxPriorityFeePerGas = bundle.gasFees.maxPriorityFeePerGas) ∧
    (∀ a between txHash tx, s.Truthful signedSlot a between →
      s.accepted a = some (txHash, tx) →
      s.task.state = .submitting ∧ s.attempt = [] ∧ tx.nonce = s.task.tracker.currentNonce ∧
        ∃ bundle, s.task.currentBundle = some bundle ∧
          tx.maxFeePerGas = bundle.gasFees.maxFeePerGas ∧
          tx.maxPriorityFeePerGas = bundle.gasFees.maxPriorityFeePerGas) ∧
    ∀ a between, s.Truthful signedSlot a between → s.task.state = .escalating →
      s.accepted a = none ∧ (s.task.step a = { s.task with state := .pending } ∨
        s.task.tracker.escalatedFees a.baseFee a.priorityFee = none) := by
  have hreg := Regular.of_reachable h
  have hbehind := Behind.of_reachable h
  refine ⟨?_, fun _ _ _ _ htrue hacc => accepted_first hreg hbehind hnonce htrue hacc, ?_⟩
  · intro p hp
    apply hbehind.once p hp
    rw [hreg.shape.nonce_eq p hp]
    exact hnonce
  · intro a between htrue hs
    have hacc : s.accepted a = none := by
      cases hsent : s.accepted a with
      | none => rfl
      | some sent => exact absurd (hbehind.zero_of_accepted hreg htrue hs hsent).1 hnonce
    exact ⟨hacc, escalation_of_none hreg hs hacc⟩

end Runs

end NodeRun

/-! ## Stuck at nonce five -/

/-- The transaction in flight is late, and the task is about to escalate. -/
theorem stuck_reachable :
    letI := polynomialDigest
    (nodeMachine signedSlot).Reachable (flyingRun 5 .escalating) := by
  let _ := polynomialDigest
  have hflying : (nodeMachine signedSlot).Reachable (flyingRun 5 .pending) :=
    NodeRun.flying_reachable (by decide +kernel) (by decide) rfl (fun _ _ => trivial)
      (fun _ _ _ => trivial)
  exact hflying.next_eq (.step (latePoll 5) []) (NodeRun.truthful_of_poll rfl rfl rfl rfl)
    trivial rfl

/-- Whatever it bids, it is not accepted. -/
theorem offered_once_five :
    letI := polynomialDigest
    (∀ p, (flyingRun 5 .escalating).task.tracker.pending = some p → p.escalationCount = 0 ∧
      (flyingRun 5 .escalating).attempt = [p.txHash] ∧
      ∃ bundle, (flyingRun 5 .escalating).task.currentBundle = some bundle ∧
        p.maxFeePerGas = bundle.gasFees.maxFeePerGas ∧
        p.maxPriorityFeePerGas = bundle.gasFees.maxPriorityFeePerGas) ∧
    (∀ a between txHash tx, (flyingRun 5 .escalating).Truthful signedSlot a between →
      (flyingRun 5 .escalating).accepted a = some (txHash, tx) →
      (flyingRun 5 .escalating).task.state = .submitting ∧
        (flyingRun 5 .escalating).attempt = [] ∧
        tx.nonce = (flyingRun 5 .escalating).task.tracker.currentNonce ∧
        ∃ bundle, (flyingRun 5 .escalating).task.currentBundle = some bundle ∧
          tx.maxFeePerGas = bundle.gasFees.maxFeePerGas ∧
          tx.maxPriorityFeePerGas = bundle.gasFees.maxPriorityFeePerGas) ∧
    ∀ a between, (flyingRun 5 .escalating).Truthful signedSlot a between →
      (flyingRun 5 .escalating).task.state = .escalating →
      (flyingRun 5 .escalating).accepted a = none ∧
        ((flyingRun 5 .escalating).task.step a =
            { (flyingRun 5 .escalating).task with state := .pending } ∨
          (flyingRun 5 .escalating).task.tracker.escalatedFees a.baseFee a.priorityFee =
            none) := by
  let _ := polynomialDigest
  exact NodeRun.offered_once stuck_reachable (by decide)

end Bunzo
