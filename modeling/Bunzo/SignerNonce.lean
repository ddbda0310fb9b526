import Bunzo.SignerNode

/-!
# The nonce of a new bundle

Transactions compete for the slot of the nonce they are signed with.  The
tracker's own nonce is refreshed by a poll only, so it can fall behind when a
transaction is mined while nothing is tracked, or when a tracked one is given
up although it is mined already.

* `Current` — without these two, the node is never ahead of the tracker, and
  at most one ahead of a tracked transaction.
* `KeepsWatch.sign_unconsumed` — every bundle is then signed with a nonce that
  is not consumed when its step starts.
* `stale_after_giveUp` — the run that signs a consumed nonce.
-/

namespace Bunzo

open ReachableStates

/-- Mining happens while a transaction is tracked, and no escalation without
fees gives up one whose slot is consumed. -/
def KeepsWatch (s : NodeRun) : NodeEvent → Prop
  | .mine _ => s.task.tracker.pending.isSome
  | .pool _ => True
  | .step a _ =>
      s.task.state = .escalating →
        s.task.tracker.escalatedFees a.baseFee a.priorityFee = none →
          ∀ p ∈ s.task.tracker.pending, s.node.nonce ≤ p.nonce

namespace NodeRun

/-- The tracker's nonce against the node's. -/
structure Current (s : NodeRun) : Prop where
  slot_le : ∀ txHash slot, (txHash, slot) ∈ s.node.accepted →
    slot.toNat ≤ s.task.tracker.currentNonce.toNat
  untracked : s.task.tracker.pending = none →
    s.node.nonce.toNat ≤ s.task.tracker.currentNonce.toNat
  tracked : ∀ p, s.task.tracker.pending = some p →
    s.node.nonce.toNat ≤ p.nonce.toNat + 1 ∧ p.nonce.toNat + 1 < 2 ^ 64

section Keeping

variable {s : NodeRun}

/-- Mining what is minable keeps the node at most one ahead of the tracked
transaction. -/
theorem Current.mine (h : Current s) (hreg : Regular s)
    {mined : B256 × TransactionReceipt} (hmine : s.node.Minable mined.1)
    (hwatch : s.task.tracker.pending.isSome) :
    Current { s with node := s.node.mine mined } := by
  obtain ⟨p, hp⟩ := Option.isSome_iff_exists.mp hwatch
  have hnonce := hreg.sound.nonce_mine hmine
  have hslot := h.slot_le _ _ hmine
  have hcurrent := hreg.shape.nonce_eq p hp
  refine ⟨h.slot_le, ?_, ?_⟩
  · intro hnone
    rw [hp] at hnone
    cases hnone
  · intro q hq
    have hpq : p = q := Option.some.inj (hp.symm.trans hq)
    have htracked := h.tracked p hp
    subst hpq
    show (s.node.mine mined).nonce.toNat ≤ p.nonce.toNat + 1 ∧ _
    rw [hnonce, hcurrent]
    rw [hcurrent] at htracked
    exact ⟨by omega, htracked.2⟩

theorem Current.mineAll {between : List (B256 × TransactionReceipt)} :
    ∀ {s : NodeRun}, Current s → Regular s → SignerNode.MinableAll between s.node →
      (between ≠ [] → s.task.tracker.pending.isSome) →
      Current { s with node := SignerNode.mineAll between s.node } := by
  induction between with
  | nil =>
      intro s h _ _ _
      exact h
  | cons mined rest ih =>
      intro s h hreg hmine hwatch
      have hsome := hwatch (List.cons_ne_nil _ _)
      have hone := h.mine hreg hmine.1 hsome
      have hregOne : Regular { s with node := s.node.mine mined } :=
        ⟨hreg.shape, hreg.sound.mine hmine.1⟩
      exact ih hone hregOne hmine.2 (fun _ => hsome)

end Keeping

section Runs

variable [Keccak] {s : NodeRun} {a : StepAnswers} {between : List (B256 × TransactionReceipt)}

theorem Current.of_init (h : (nodeMachine signedSlot).init s) : Current s := by
  obtain ⟨⟨_, _, _, _, hstart⟩, hnode, _⟩ := h
  obtain ⟨_, _, hp, _, _⟩ := BundlerTask.start_eq hstart
  constructor
  · simp [hnode]
  · intro _
    rw [hnode]
  · intro p hsome
    rw [hp] at hsome
    cases hsome

/-- A step that submits leaves its transaction tracked at the tracker's nonce. -/
theorem Current.step_of_some (h : Current s) (hreg : Regular s)
    (htrue : s.Truthful signedSlot a between) {txHash : B256} {tx : TransactionRequest}
    (hacc : s.accepted a = some (txHash, tx)) : Current (s.next signedSlot (.step a between)) := by
  have hstep := BundlerTask.step_taskStep s.task a
  obtain ⟨p', _, hp', _, _, _, _, hkept, hle, hstate⟩ := hstep.accepted_cases hreg.shape hacc
  have hnode : (s.next signedSlot (.step a between)).node = s.node.accept txHash tx.nonce :=
    nodeAfter_of_some hreg.shape htrue hacc
  have hcurrent : p'.nonce = s.task.tracker.currentNonce := by
    rw [← hkept]
    exact (hreg.shape.step a).nonce_eq p' hp'
  have hbound : s.node.nonce.toNat ≤ s.task.tracker.currentNonce.toNat + 1 ∧
      s.task.tracker.currentNonce.toNat + 1 < 2 ^ 64 := by
    rcases hstate with ⟨hs, htx⟩ | hs
    · have hnone : s.task.tracker.pending = none := by
        have hpending := hreg.shape.pending_isSome
        cases hp : s.task.tracker.pending with
        | none => rfl
        | some p => grind
      obtain ⟨_, _, hlt⟩ := htrue.accepts _ hacc
      have huntracked := h.untracked hnone
      simp only [signedSlot, htx] at hlt
      exact ⟨by omega, hlt⟩
    · obtain ⟨q, hq⟩ := hreg.shape.pending_of_escalating hs
      have htracked := h.tracked q hq
      rw [hreg.shape.nonce_eq q hq] at htracked
      exact htracked
  constructor
  · intro known slot hmem
    rw [hnode] at hmem
    show slot.toNat ≤ (s.task.step a).tracker.currentNonce.toNat
    rw [hkept]
    rcases List.mem_cons.mp hmem with hnew | hold
    · cases hnew
      exact hle
    · exact h.slot_le known slot hold
  · intro hnone
    rw [show (s.next signedSlot (.step a between)).task.tracker.pending = some p' from hp'] at hnone
    cases hnone
  · intro q hq
    have hqp : p' = q := Option.some.inj (hp'.symm.trans hq)
    subst hqp
    rw [hnode, hcurrent]
    exact hbound

/-- A step that submits nothing keeps the tracker up with the node. -/
theorem Current.step_of_none (h : Current s) (hreg : Regular s)
    (htrue : s.Truthful signedSlot a between) (hwatch : KeepsWatch s (.step a between))
    (hacc : s.accepted a = none) : Current (s.next signedSlot (.step a between)) := by
  have hstep := BundlerTask.step_taskStep s.task a
  have hnode : (s.next signedSlot (.step a between)).node = SignerNode.mineAll between s.node :=
    nodeAfter_of_none hacc
  have hpolled : between ≠ [] → s.task.tracker.pending.isSome := by
    intro hne
    exact hreg.shape.pending_isSome.mpr (Or.inl (htrue.between_poll hne))
  have hmined := h.mineAll hreg htrue.minable hpolled
  have htask : (s.next signedSlot (.step a between)).task = s.task.step a := rfl
  cases hp' : (s.task.step a).tracker.pending with
  | some p =>
      obtain ⟨hp, hkept⟩ := tracked_of_none hreg.shape hacc hp'
      constructor
      · rw [hnode, htask, hkept]
        exact hmined.slot_le
      · intro hnone
        rw [htask, hp'] at hnone
        cases hnone
      · intro q hq
        rw [htask, hp'] at hq
        rw [hnode]
        exact hmined.tracked q (hp.trans hq)
  | none =>
      have hlast : (SignerNode.mineAll between s.node).nonce.toNat ≤
            (s.task.step a).tracker.currentNonce.toNat ∧
          s.task.tracker.currentNonce.toNat ≤ (s.task.step a).tracker.currentNonce.toNat := by
        rcases hstep.untracked_cases hreg.shape hp' with
          ⟨hnone, hkept⟩ | ⟨p, r, hp, _, _, _, hnext⟩ | ⟨p, n, hp, _, _, hn, hlt, hnext⟩ |
          ⟨p, hp, hs, hfees, hkept⟩
        · rw [hkept]
          exact ⟨hmined.untracked hnone, Nat.le_refl _⟩
        · obtain ⟨hle, hlt⟩ := hmined.tracked p hp
          rw [hnext, MachineWords.toNat_add_of_lt hlt, ← hreg.shape.nonce_eq p hp]
          exact ⟨hle, Nat.le_succ _⟩
        · have htold := htrue.nonce n (by rw [hn]; rfl)
          rw [hnext, ← htold, ← hreg.shape.nonce_eq p hp]
          exact ⟨Nat.le_refl _, Nat.le_of_lt hlt⟩
        · have hnil : between = [] := htrue.between_eq_nil (by rw [hs]; decide)
          have hle : s.node.nonce.toNat ≤ p.nonce.toNat := hwatch hs hfees p hp
          rw [hkept, hnil, ← hreg.shape.nonce_eq p hp]
          exact ⟨hle, Nat.le_refl _⟩
      constructor
      · intro known slot hmem
        rw [hnode] at hmem
        exact (hmined.slot_le known slot hmem).trans hlast.2
      · intro _
        rw [hnode]
        exact hlast.1
      · intro p hp
        rw [htask, hp'] at hp
        cases hp

theorem Current.next (h : Current s) (hreg : Regular s) {e : NodeEvent}
    (he : s.Enabled signedSlot e) (hwatch : KeepsWatch s e) : Current (s.next signedSlot e) := by
  cases e with
  | mine mined => exact h.mine hreg he hwatch
  | pool call => exact ⟨h.slot_le, h.untracked, h.tracked⟩
  | step a between =>
      cases hacc : s.accepted a with
      | none => exact h.step_of_none hreg he hwatch hacc
      | some sent => exact h.step_of_some hreg he hacc

theorem Current.of_reachable (h : (nodeMachine signedSlot).ReachableUnder KeepsWatch s) :
    Current s := by
  have hboth : Regular s ∧ Current s := by
    apply h.invariant
    · intro s hinit
      exact ⟨Regular.of_init hinit, Current.of_init hinit⟩
    · intro s e hs he hwatch
      exact ⟨hs.1.next he, hs.2.next hs.1 he hwatch⟩
  exact hboth.2

/-- What a step signs for a new bundle has no nonce that the node has consumed. -/
def SignsUnconsumed (s : NodeRun) (a : StepAnswers) : Prop :=
  s.task.state = .submitting →
    ∀ tx chainId, TaskCall.sign tx chainId ∈ s.task.calls a → s.node.nonce ≤ tx.nonce

/-- A bundle is signed with the tracker's nonce. -/
theorem sign_of_submitting {t t' : BundlerTask} {calls : List TaskCall}
    (hstep : BundlerTask.TaskStep t a t' calls) (hs : t.state = .submitting)
    {tx : TransactionRequest} {chainId : U64} (hsign : TaskCall.sign tx chainId ∈ calls) :
    tx.nonce = t.tracker.currentNonce := by
  cases hstep with
  | submitFails _ bundle hb _ hcalls =>
      have htx : tx = t.buildBundleTx bundle t.tracker.nextNonce := by grind
      rw [htx]
      rfl
  | submit _ bundle hb raw txHash hhash =>
      have htx : tx = t.buildBundleTx bundle t.tracker.nextNonce := by grind
      rw [htx]
      rfl
  | _ => grind

/-- **Nonces are fresh while the task keeps watch.**  On every run without
unwatched mining and without giving up what is mined, each bundle is signed
with a nonce that is not consumed. -/
theorem signs_unconsumed (h : (nodeMachine signedSlot).ReachableUnder KeepsWatch s)
    (a : StepAnswers) : s.SignsUnconsumed a := by
  intro hs tx chainId hsign
  have hreg := Regular.of_reachable h
  have hnone : s.task.tracker.pending = none := by
    have hpending := hreg.shape.pending_isSome
    cases hp : s.task.tracker.pending with
    | none => rfl
    | some p => grind
  rw [sign_of_submitting (BundlerTask.step_taskStep s.task a) hs hsign]
  exact (Current.of_reachable h).untracked hnone

end Runs

end NodeRun

/-! ## Mined after it was given up -/

section GivenUp

/-- The first transaction is mined after it was given up. -/
def minedNode : SignerNode :=
  (firstNode 5).mine (0xAAA, { status := true, blockNumber := some 7 })

/-- The same operation is bundled once more. -/
def staleRun : NodeRun :=
  letI := polynomialDigest
  restingRun 5 .submitting (some oneBundle) minedNode [0xAAA]

/-- The gas oracle fails, the transaction is given up and then mined; the next
bundle is signed with the consumed nonce five. -/
theorem stale_after_giveUp :
    letI := polynomialDigest
    (nodeMachine signedSlot).Reachable staleRun ∧ ¬ staleRun.SignsUnconsumed silentAnswers := by
  let _ := polynomialDigest
  have hsize : pooledOne.size ≠ 0 := by decide +kernel
  have hflying : (nodeMachine signedSlot).Reachable (flyingRun 5 .pending) :=
    NodeRun.flying_reachable hsize (by decide) rfl (fun _ _ => trivial) (fun _ _ _ => trivial)
  have hlate : (nodeMachine signedSlot).Reachable (flyingRun 5 .escalating) :=
    hflying.next_eq (.step (latePoll 5) []) (NodeRun.truthful_of_poll rfl rfl rfl rfl) trivial rfl
  have hgivenUp : (nodeMachine signedSlot).Reachable
      (restingRun 5 .abandoned (some oneBundle) (firstNode 5) [0xAAA]) :=
    hlate.next_eq (.step silentAnswers []) (NodeRun.truthful_of_silent rfl rfl rfl) trivial rfl
  have hmined : (nodeMachine signedSlot).Reachable
      (restingRun 5 .abandoned (some oneBundle) minedNode [0xAAA]) :=
    hgivenUp.next_eq (.mine (0xAAA, { status := true, blockNumber := some 7 }))
      List.mem_cons_self trivial rfl
  have hidle : (nodeMachine signedSlot).Reachable (restingRun 5 .idle none minedNode [0xAAA]) :=
    hmined.next_eq (.step silentAnswers []) (NodeRun.truthful_of_silent rfl rfl rfl) trivial rfl
  refine ⟨NodeRun.submitting_reachable hsize hidle (fun _ _ _ => trivial), ?_⟩
  intro hfresh
  have hle : (6 : U64) ≤ 5 :=
    hfresh rfl (staleRun.task.buildBundleTx oneBundle 5) 1 List.mem_cons_self
  exact absurd hle (by decide)

/-- The first bundle of a run is signed with a fresh nonce. -/
theorem signs_unconsumed_first :
    letI := polynomialDigest
    (restingRun 5 .submitting (some oneBundle) (emptyNode 5) []).SignsUnconsumed
      silentAnswers := by
  let _ := polynomialDigest
  have hwatch : ∀ s a, s.task.tracker.pending = none → KeepsWatch s (.step a []) := by
    intro s a hnone _ _ p hp
    rw [hnone] at hp
    cases hp
  exact NodeRun.signs_unconsumed
    (NodeRun.submitting_reachable (by decide +kernel)
      (NodeRun.pooled_reachable (fun _ _ => trivial))
      hwatch) silentAnswers

end GivenUp

end Bunzo
