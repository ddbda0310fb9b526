import Bunzo.AtomicPrograms
import Bunzo.ReachableStates

/-!
# Contracts of atomic accesses

A thread that takes one lock at a time knows little of the shared state, since others
may have changed it after each of its accesses.  What it does know is kept in a token
of its own.  A `Contract` says which token an access needs and what it turns the token
into; a program is checked against it access by access, alone; and `Honours` says that
the accesses keep an invariant of the state and all tokens.

* `Meets.bind` — programs that meet a contract compose.
* `callMachine` — threads that make call after call, in any interleaving.
* `Honours.of_reachable` — the invariant in every state of every run.
* `load_le_of_reachable` — how far a limit is exceeded that is checked under one lock
  and used up under another.
-/

namespace AtomicPrograms

open Program ReachableStates

variable {Op : Type} {Res : Op → Type} {α β σ τ G : Type}

/-- What an access needs, and the tokens it may leave with an answer. -/
structure Contract (Op : Type) (Res : Op → Type) (G : Type) where
  requires : Op → G → Prop
  ensures : (op : Op) → G → Res op → G → Prop

/-! ## Programs alone -/

namespace Program

/-- Each access of the program finds the token that it needs, and the program ends with
a result and a token that satisfy `Q`. -/
def Meets (c : Contract Op Res G) (Q : α → G → Prop) : Program Op Res α → G → Prop
  | done a, g => Q a g
  | access op next, g => c.requires op g ∧ ∀ r g', c.ensures op g r g' → (next r).Meets c Q g'

namespace Meets

variable {c : Contract Op Res G} {Q : α → G → Prop} {R : β → G → Prop}

theorem pure {a : α} {g : G} (h : Q a g) : (Pure.pure a : Program Op Res α).Meets c Q g := h

/-- **Composition.** -/
theorem bind {p : Program Op Res α} {f : α → Program Op Res β}
    (hf : ∀ a g, Q a g → (f a).Meets c R g) :
    ∀ {g : G}, p.Meets c Q g → (p >>= f).Meets c R g := by
  change ∀ {g : G}, p.Meets c Q g → (p.bind f).Meets c R g
  induction p with
  | done a =>
      intro g hp
      exact hf a g hp
  | access op next ih =>
      intro g hp
      exact ⟨hp.1, fun r g' hens => ih r (hp.2 r g' hens)⟩

end Meets

end Program

/-! ## Threads that make calls -/

/-- A thread that has returned begins a call, or a thread performs its next access. -/
inductive CallEvent (Op : Type) (Res : Op → Type) (α τ : Type) where
  | begin (t : τ) (p : Program Op Res α)
  | step (t : τ)

section Calls

variable [DecidableEq τ] (perform : (op : Op) → σ → Res op × σ) (Start : σ → Prop)
  (Allowed : Program Op Res α → Prop)

/-- Threads that make one allowed call after another, each access when its turn comes. -/
def callMachine : Machine (Threads Op Res α σ τ) (CallEvent Op Res α τ) where
  init c := Start c.state ∧ ∀ t, (c.program t).Finished
  enabled c
    | .begin t p => (c.program t).Finished ∧ Allowed p
    | .step _ => True
  next c
    | .begin t p => { c with program := Function.update c.program t p }
    | .step t => c.step perform t

/-- The accesses keep an invariant of the state and the tokens of all threads, if each has
what it needs; so does a thread that starts with the token `idle`. -/
structure Honours (contract : Contract Op Res G) (idle : G) (Inv : σ → (τ → G) → Prop) :
    Prop where
  access : ∀ {s tokens t op}, Inv s tokens → contract.requires op (tokens t) →
    ∃ g', contract.ensures op (tokens t) (perform op s).1 g' ∧
      Inv (perform op s).2 (Function.update tokens t g')
  idle : ∀ {s tokens} t, Inv s tokens → Inv s (Function.update tokens t idle)

variable {perform Start Allowed} {contract : Contract Op Res G} {idle : G}
  {Inv : σ → (τ → G) → Prop} {cond : Threads Op Res α σ τ → CallEvent Op Res α τ → Prop}
  {c : Threads Op Res α σ τ}

/-- **Any interleaving.**  If the accesses honour a contract that each call meets by itself,
then the invariant holds in every state of every run, whatever the calls and their order. -/
theorem Honours.of_reachable (h : Honours perform contract idle Inv)
    (hstart : ∀ s, Start s → Inv s (fun _ => idle))
    (hallowed : ∀ p, Allowed p → p.Meets contract (fun _ _ => True) idle)
    (hreach : (callMachine perform Start Allowed).ReachableUnder cond c) :
    ∃ tokens, Inv c.state tokens ∧
      ∀ t, (c.program t).Meets contract (fun _ _ => True) (tokens t) := by
  apply hreach.invariant
  · rintro c ⟨hs, hfinished⟩
    refine ⟨fun _ => idle, hstart _ hs, ?_⟩
    intro t
    obtain ⟨a, ha⟩ := hfinished t
    rw [ha]
    trivial
  · rintro c e ⟨tokens, hinv, hmeets⟩ henabled _
    cases e with
    | begin t p =>
        refine ⟨_, h.idle t hinv, ?_⟩
        intro u
        change (Function.update c.program t p u).Meets contract _ _
        by_cases hu : u = t
        · subst hu
          rw [Function.update_self, Function.update_self]
          exact hallowed p henabled.2
        · rw [Function.update_of_ne hu, Function.update_of_ne hu]
          exact hmeets u
    | step t =>
        change ∃ tokens', Inv (c.step perform t).state tokens' ∧
          ∀ u, ((c.step perform t).program u).Meets contract _ (tokens' u)
        cases ht : c.program t with
        | done a =>
            rw [Threads.step_of_done ht]
            exact ⟨tokens, hinv, hmeets⟩
        | access op next =>
            have htoken := hmeets t
            rw [ht] at htoken
            obtain ⟨g', hens, hinv'⟩ := h.access hinv htoken.1
            rw [Threads.step_of_access ht]
            refine ⟨_, hinv', ?_⟩
            intro u
            change (Function.update c.program t _ u).Meets contract _ _
            by_cases hu : u = t
            · subst hu
              rw [Function.update_self, Function.update_self]
              exact htoken.2 _ g' hens
            · rw [Function.update_of_ne hu, Function.update_of_ne hu]
              exact hmeets u

end Calls

/-! ## Limits that are checked before they are used up -/

/-- A limit on what is in the state: one kind of access puts more in, another finds that
there is room. -/
structure Limit (Op : Type) (Res : Op → Type) (σ : Type) where
  load : σ → Nat
  limit : Nat
  spends : Op → Bool
  passes : (op : Op) → Res op → Prop

namespace Limit

variable (l : Limit Op Res σ)

/-- A check that passes gives leave to spend once; the leave is kept until then. -/
def contract : Contract Op Res Bool where
  requires op g := l.spends op → g = true
  ensures op g r g' := (l.passes op r → g' = true) ∧ (g = true → l.spends op = false → g' = true)

/-- What the accesses do to the load, and when the check passes. -/
structure Respects (perform : (op : Op) → σ → Res op × σ) : Prop where
  load_le : ∀ op s, l.load (perform op s).2 ≤ l.load s + (l.spends op).toNat
  room : ∀ op s, l.passes op (perform op s).1 → ¬ l.spends op ∧ l.load s < l.limit

variable {l} [DecidableEq τ] [Fintype τ] {perform : (op : Op) → σ → Res op × σ}

theorem sum_update_add (tokens : τ → Bool) (t : τ) (g : Bool) :
    ∑ u, (Function.update tokens t g u).toNat + (tokens t).toNat =
      ∑ u, (tokens u).toNat + g.toNat := by
  have hrest : ∑ u ∈ Finset.univ.erase t, (Function.update tokens t g u).toNat =
      ∑ u ∈ Finset.univ.erase t, (tokens u).toNat := by
    apply Finset.sum_congr rfl
    intro u hu
    rw [Function.update_of_ne (Finset.ne_of_mem_erase hu)]
  rw [← Finset.add_sum_erase Finset.univ _ (Finset.mem_univ t), Function.update_self, hrest,
    ← Finset.add_sum_erase Finset.univ (fun u => (tokens u).toNat) (Finset.mem_univ t)]
  ring

omit [DecidableEq τ] in
theorem sum_toNat_le (tokens : τ → Bool) : ∑ u, (tokens u).toNat ≤ Fintype.card τ := by
  calc ∑ u, (tokens u).toNat ≤ ∑ _u : τ, 1 := Finset.sum_le_sum (fun u _ => Bool.toNat_le _)
    _ = Fintype.card τ := by rw [Finset.sum_const, Finset.card_univ, smul_eq_mul, mul_one]

/-- The load, and the leave that threads still have, exceed the limit by less than there
are threads. -/
theorem Respects.honours (h : l.Respects perform) :
    Honours perform l.contract false (fun s (tokens : τ → Bool) =>
      l.load s + ∑ t, (tokens t).toNat ≤ l.limit + (Fintype.card τ - 1)) where
  access := by
    intro s tokens t op hinv hreq
    have hload := h.load_le op s
    have hroom := h.room op s
    classical
    by_cases hpass : l.passes op (perform op s).1
    · obtain ⟨hspends, hlt⟩ := hroom hpass
      refine ⟨true, ⟨fun _ => rfl, fun _ _ => rfl⟩, ?_⟩
      have hall := sum_toNat_le (Function.update tokens t true)
      rw [Bool.not_eq_true] at hspends
      rw [hspends] at hload
      change _ ≤ l.load s + 0 at hload
      omega
    · refine ⟨tokens t && !l.spends op, ⟨fun hp => absurd hp hpass, ?_⟩, ?_⟩
      · intro htoken hspends
        rw [htoken, hspends]
        rfl
      · have hsum := sum_update_add tokens t (tokens t && !l.spends op)
        have hkept : (tokens t && !l.spends op).toNat + (l.spends op).toNat ≤
            (tokens t).toNat := by
          cases hspends : l.spends op with
          | true =>
              rw [hreq hspends]
              decide
          | false => cases tokens t <;> decide
        omega
  idle := by
    intro s tokens t hinv
    have hsum := sum_update_add tokens t false
    rw [Bool.toNat_false] at hsum
    omega

/-- **How far a limit is exceeded.**  In every interleaving of calls that check the limit
before they spend, the load stays below the limit and the number of threads together. -/
theorem Respects.load_le_of_reachable (h : l.Respects perform) {Start : σ → Prop}
    {Allowed : Program Op Res α → Prop} (hstart : ∀ s, Start s → l.load s ≤ l.limit)
    (hallowed : ∀ p, Allowed p → p.Meets l.contract (fun _ _ => True) false)
    {cond : Threads Op Res α σ τ → CallEvent Op Res α τ → Prop} {c : Threads Op Res α σ τ}
    (hreach : (callMachine perform Start Allowed).ReachableUnder cond c) :
    l.load c.state ≤ l.limit + (Fintype.card τ - 1) := by
  have hinit : ∀ s, Start s →
      l.load s + ∑ _t : τ, (false : Bool).toNat ≤ l.limit + (Fintype.card τ - 1) := by
    intro s hs
    have hle := hstart s hs
    rw [Bool.toNat_false, Finset.sum_const_zero]
    omega
  obtain ⟨tokens, hinv, _⟩ := h.honours.of_reachable hinit hallowed hreach
  omega

end Limit

end AtomicPrograms
