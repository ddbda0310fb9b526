import Bunzo.AtomicPrograms

/-!
# Budgets of atomic programs

A limit that threads check before they write is safe, however they interleave,
if it leaves room for all the writes that may still come.  `Spends n` bounds the
writes of a program, `Covered` says that the state has room for those of all
threads together.

* `CommuteAt` — two accesses that may go in either order in a state.
* `Covered.step`, `Covered.pos` — each step keeps the room, and a thread that
  is about to use it finds some.
-/

namespace AtomicPrograms

open Program

variable {Op : Type} {Res : Op → Type} {α β σ τ : Type}

/-- Two accesses may go in either order. -/
structure CommuteAt (perform : (op : Op) → σ → Res op × σ) (s : σ) (a b : Op) : Prop where
  left : (perform a (perform b s).2).1 = (perform a s).1
  right : (perform b (perform a s).2).1 = (perform b s).1
  state : (perform a (perform b s).2).2 = (perform b (perform a s).2).2

theorem CommuteAt.symm {perform : (op : Op) → σ → Res op × σ} {s : σ} {a b : Op}
    (h : CommuteAt perform s a b) : CommuteAt perform s b a where
  left := h.right
  right := h.left
  state := h.state.symm

namespace Program

variable (uses spends : Op → Prop) [DecidablePred spends]

/-- At most `n` accesses are of the kind that spends, and one that uses or
spends has some of the `n` left. -/
def Spends : Program Op Res α → Nat → Prop
  | done _, _ => True
  | access op next, n =>
      (uses op ∨ spends op → 0 < n) ∧ ∀ r, (next r).Spends (if spends op then n - 1 else n)

variable {uses spends}

theorem Spends.mono {p : Program Op Res α} :
    ∀ {n m : Nat}, p.Spends uses spends n → n ≤ m → p.Spends uses spends m := by
  induction p with
  | done a =>
      intro n m _ _
      trivial
  | access op next ih =>
      intro n m h hle
      refine ⟨fun hop => lt_of_lt_of_le (h.1 hop) hle, ?_⟩
      intro r
      apply ih r (h.2 r)
      split
      · omega
      · exact hle

/-- The budgets of two programs add up. -/
theorem Spends.bind {p : Program Op Res α} {f : α → Program Op Res β} {m : Nat}
    (hf : ∀ a, (f a).Spends uses spends m) :
    ∀ {n : Nat}, p.Spends uses spends n → (p >>= f).Spends uses spends (n + m) := by
  change ∀ {n : Nat}, p.Spends uses spends n → (p.bind f).Spends uses spends (n + m)
  induction p with
  | done a =>
      intro n _
      exact (hf a).mono (Nat.le_add_left m n)
  | access op next ih =>
      intro n hp
      refine ⟨fun hop => Nat.add_pos_left (hp.1 hop) m, ?_⟩
      intro r
      apply (ih r (hp.2 r)).mono
      split
      · next hop =>
          have hpos := hp.1 (Or.inr hop)
          omega
      · exact le_refl _

/-- A program that spends nothing leaves its budget to the next one. -/
theorem Spends.bind_of_idle {p : Program Op Res α} {f : α → Program Op Res β} {n : Nat}
    (hidle : p.Spends (fun _ => False) spends 0) (hp : p.Spends uses spends n)
    (hf : ∀ a, (f a).Spends uses spends n) : (p >>= f).Spends uses spends n := by
  change (p.bind f).Spends uses spends n
  induction p with
  | done a => exact hf a
  | access op next ih =>
      have hspends : ¬ spends op := fun hop => absurd (hidle.1 (Or.inr hop)) (lt_irrefl 0)
      refine ⟨hp.1, ?_⟩
      intro r
      have hnext := hp.2 r
      have hidleNext := hidle.2 r
      rw [if_neg hspends] at hnext hidleNext ⊢
      exact ih r hidleNext hnext

end Program

namespace Threads

variable [DecidableEq τ] {perform : (op : Op) → σ → Res op × σ} {c : Threads Op Res α σ τ}
  {t u : τ} {a b : Op}

/-- What a step does to the state. -/
theorem step_state (ha : (c.program t).nextOp = some a) :
    (c.step perform t).state = (perform a c.state).2 := by
  obtain ⟨next, ht⟩ := nextOp_eq_some ha
  rw [step_of_access ht]

/-- Two threads whose next accesses commute may go in either order. -/
theorem diamond (hne : t ≠ u) (ha : (c.program t).nextOp = some a)
    (hb : (c.program u).nextOp = some b) (h : CommuteAt perform c.state a b) :
    (c.step perform t).step perform u = (c.step perform u).step perform t := by
  obtain ⟨next, ht⟩ := nextOp_eq_some ha
  obtain ⟨next', hu⟩ := nextOp_eq_some hb
  have hut : (c.step perform t).program u = access b next' := (step_program_ne hne.symm).trans hu
  have htu : (c.step perform u).program t = access a next := (step_program_ne hne).trans ht
  rw [step_of_access hut, step_of_access htu, step_of_access ht, step_of_access hu]
  simp only [h.left, h.right, h.state]
  rw [Function.update_comm hne]

variable [Fintype τ] (uses spends : Op → Prop) [DecidablePred spends] (slack : σ → Nat)

/-- The room that is left covers what all threads may still spend. -/
def Covered (c : Threads Op Res α σ τ) : Prop :=
  ∃ n : τ → Nat, (∀ t, (c.program t).Spends uses spends (n t)) ∧ ∑ t, n t ≤ slack c.state

variable {uses spends slack}

theorem Covered.step
    (hslack : ∀ op s, slack s ≤ slack (perform op s).2 + if spends op then 1 else 0)
    (h : Covered uses spends slack c) (t : τ) : Covered uses spends slack (c.step perform t) := by
  obtain ⟨n, hn, hsum⟩ := h
  cases ht : c.program t with
  | done a =>
      rw [step_of_done ht]
      exact ⟨n, hn, hsum⟩
  | access op next =>
      have hop := hn t
      rw [ht] at hop
      have hroom := hslack op c.state
      have hsplit := Finset.add_sum_erase Finset.univ n (Finset.mem_univ t)
      refine ⟨Function.update n t (if spends op then n t - 1 else n t), ?_, ?_⟩
      · intro u
        by_cases hu : u = t
        · subst hu
          rw [step_of_access ht, Function.update_self]
          change (Function.update c.program u _ u).Spends uses spends _
          rw [Function.update_self]
          exact hop.2 _
        · rw [step_program_ne hu, Function.update_of_ne hu]
          exact hn u
      · have hstate : (c.step perform t).state = (perform op c.state).2 :=
          step_state (by rw [ht]; rfl)
        have hrest : ∑ u ∈ Finset.univ.erase t,
            Function.update n t (if spends op then n t - 1 else n t) u =
              ∑ u ∈ Finset.univ.erase t, n u := by
          apply Finset.sum_congr rfl
          intro u hu
          exact Function.update_of_ne (Finset.ne_of_mem_erase hu) _ _
        rw [hstate, ← Finset.add_sum_erase Finset.univ _ (Finset.mem_univ t),
          Function.update_self, hrest]
        split at hroom
        · next hspends =>
            have hpos := hop.1 (Or.inr hspends)
            rw [if_pos hspends]
            omega
        · next hspends =>
            rw [if_neg hspends]
            omega

omit [DecidableEq τ] in
/-- A thread about to use the room finds some. -/
theorem Covered.pos (h : Covered uses spends slack c) (ha : (c.program t).nextOp = some a)
    (huses : uses a ∨ spends a) : 0 < slack c.state := by
  obtain ⟨n, hn, hsum⟩ := h
  obtain ⟨next, ht⟩ := nextOp_eq_some ha
  have hop := hn t
  rw [ht] at hop
  have hle := Finset.single_le_sum (fun u _ => Nat.zero_le (n u)) (Finset.mem_univ t)
  exact lt_of_lt_of_le (hop.1 huses) (hle.trans hsum)

end Threads

end AtomicPrograms
