import Bunzo.AccessContracts

/-!
# Sections under readers-writer locks

An access that counts as atomic takes several steps: a thread acquires the lock of one
piece of the state, alone or with others that only look, works on the piece step by step,
and releases the lock.  No thread holds two locks.

* `Body` — what a thread does while it holds a lock.
* `lockMachine` — threads that acquire, work and release, in any interleaving.
* `Refines.of_reachable` — each run does what a run of atomic accesses does, in which an
  access happens when its lock is acquired.
* `exists_ready`, `returned_of_reachable` — nothing ever gets stuck, and calls that take a
  bounded number of steps have all returned after as many.
-/

namespace LockedSections

open AtomicPrograms Program ReachableStates

variable {σ Λ ρ α β τ Op : Type} {Piece : Λ → Type} {Res : Op → Type}

/-! ## Pieces and bodies -/

/-- A state in pieces, and a rest that no lock protects and nobody writes. -/
structure Pieces (σ Λ ρ : Type) (Piece : Λ → Type) where
  get : (l : Λ) → σ → Piece l
  set : (l : Λ) → Piece l → σ → σ
  rest : σ → ρ
  get_set : ∀ l p s, get l (set l p s) = p
  get_set_ne : ∀ {l m} p s, l ≠ m → get l (set m p s) = get l s
  rest_set : ∀ l p s, rest (set l p s) = rest s
  ext : ∀ {s s'}, (∀ l, get l s = get l s') → rest s = rest s' → s = s'

/-- Steps on a piece: it is looked at or replaced. -/
inductive Body (P β : Type) where
  | ret (b : β)
  | look (next : P → Body P β)
  | put (p : P) (next : Body P β)

namespace Body

variable {P : Type}

/-- A body alone: what it returns, and the piece that it leaves. -/
def run : Body P β → P → β × P
  | ret b, p => (b, p)
  | look next, p => (next p).run p
  | put p next, _ => next.run p

/-- The piece is only looked at. -/
def ReadsOnly : Body P β → Prop
  | ret _ => True
  | look next => ∀ p, (next p).ReadsOnly
  | put _ _ => False

/-- At most so many steps. -/
def Within : Body P β → Nat → Prop
  | ret _, _ => True
  | look next, n => 0 < n ∧ ∀ p, (next p).Within (n - 1)
  | put _ next, n => 0 < n ∧ next.Within (n - 1)

/-- A body without writes leaves its piece as it was. -/
theorem ReadsOnly.run_snd {b : Body P β} (h : b.ReadsOnly) : ∀ p, (b.run p).2 = p := by
  induction b with
  | ret b =>
      intro p
      rfl
  | look next ih =>
      intro p
      exact ih p (h p) p
  | put p next ih => exact h.elim

end Body

/-- The section of each access: its lock, whether others may look at the same time, and
what it does to the piece. -/
structure Sections (Op : Type) (Res : Op → Type) (Λ : Type) (Piece : Λ → Type) where
  lock : Op → Λ
  shared : Op → Bool
  body : (op : Op) → Body (Piece (lock op)) (Res op)
  readsOnly : ∀ op, shared op → (body op).ReadsOnly

variable (pieces : Pieces σ Λ ρ Piece) (sec : Sections Op Res Λ Piece)

/-- The access as one step. -/
def perform (op : Op) (s : σ) : Res op × σ :=
  (((sec.body op).run (pieces.get (sec.lock op) s)).1,
    pieces.set (sec.lock op) ((sec.body op).run (pieces.get (sec.lock op) s)).2 s)

/-! ## Threads -/

/-- A thread holds no lock, or that of one access. -/
inductive Status (sec : Sections Op Res Λ Piece) (α : Type) where
  | outside (p : Program Op Res α)
  | inside (op : Op) (b : Body (Piece (sec.lock op)) (Res op)) (next : Res op → Program Op Res α)

/-- Threads at work on one state. -/
structure Locked (sec : Sections Op Res Λ Piece) (α σ τ : Type) where
  status : τ → Status sec α
  state : σ

namespace Locked

variable {sec}

/-- The lock of an access can be had: all who hold it look only, and so would the access. -/
def Free (c : Locked sec α σ τ) (op : Op) : Prop :=
  ∀ u op' b next, c.status u = .inside op' b next → sec.lock op' = sec.lock op →
    sec.shared op' ∧ sec.shared op

/-- The thread has a step to make, and nothing keeps it from it. -/
def Ready (c : Locked sec α σ τ) (t : τ) : Prop :=
  match c.status t with
  | .outside (.done _) => False
  | .outside (.access op _) => c.Free op
  | .inside _ _ _ => True

/-- The thread has its result. -/
def Returned (c : Locked sec α σ τ) (t : τ) : Prop := ∃ a, c.status t = .outside (.done a)

instance (c : Locked sec α σ τ) (t : τ) : Decidable (c.Returned t) :=
  match h : c.status t with
  | .outside (.done a) => isTrue ⟨a, h⟩
  | .outside (.access _ _) => isFalse (fun hr => by obtain ⟨_, ha⟩ := hr; rw [h] at ha; cases ha)
  | .inside _ _ _ => isFalse (fun hr => by obtain ⟨_, ha⟩ := hr; rw [h] at ha; cases ha)

/-- Whoever has this status leaves the lock of an access to others. -/
def Lets (op : Op) : Status sec α → Prop
  | .outside _ => True
  | .inside op' _ _ => sec.lock op' = sec.lock op → sec.shared op' ∧ sec.shared op

/-- A lock is free if every thread lets it be taken. -/
theorem free_iff (c : Locked sec α σ τ) (op : Op) : c.Free op ↔ ∀ u, Lets op (c.status u) := by
  refine ⟨?_, ?_⟩
  · intro h u
    cases hu : c.status u with
    | outside p => trivial
    | inside op' b next => exact h u op' b next hu
  · intro h u op' b next hu
    have hlets := h u
    rw [hu] at hlets
    exact hlets

instance [DecidableEq Λ] (op : Op) : DecidablePred (fun st : Status sec α => Lets op st)
  | .outside _ => isTrue trivial
  | .inside op' _ _ =>
      inferInstanceAs (Decidable (sec.lock op' = sec.lock op → sec.shared op' ∧ sec.shared op))

instance [DecidableEq Λ] [Fintype τ] (c : Locked sec α σ τ) (op : Op) : Decidable (c.Free op) :=
  decidable_of_iff _ (c.free_iff op).symm

instance [DecidableEq Λ] [Fintype τ] (c : Locked sec α σ τ) (t : τ) : Decidable (c.Ready t) :=
  match h : c.status t with
  | .outside (.done _) => isFalse (fun hr => by unfold Ready at hr; rw [h] at hr; exact hr)
  | .outside (.access op _) => decidable_of_iff (c.Free op) (by unfold Ready; rw [h])
  | .inside _ _ _ => isTrue (by unfold Ready; rw [h]; trivial)

variable [DecidableEq τ]

/-- Acquire the lock, work on the piece, or release the lock. -/
def step (c : Locked sec α σ τ) (t : τ) : Locked sec α σ τ :=
  match c.status t with
  | .outside (.done _) => c
  | .outside (.access op next) =>
      { c with
        status := Function.update c.status t (.inside op (sec.body op) next) }
  | .inside _ (.ret r) next =>
      { c with
        status := Function.update c.status t (.outside (next r)) }
  | .inside op (.look next') next =>
      { c with
        status := Function.update c.status t
          (.inside op (next' (pieces.get (sec.lock op) c.state)) next) }
  | .inside op (.put p next') next =>
      { status := Function.update c.status t (.inside op next' next)
        state := pieces.set (sec.lock op) p c.state }

variable {pieces} {c : Locked sec α σ τ} {t : τ} {op : Op} {next : Res op → Program Op Res α}

/-- A thread that takes a lock changes nothing yet. -/
theorem step_acquire (ht : c.status t = .outside (.access op next)) :
    c.step pieces t =
      { status := Function.update c.status t (.inside op (sec.body op) next)
        state := c.state } := by
  unfold step
  rw [ht]

/-- A thread that gives its lock back goes on with what the body returned. -/
theorem step_release {r : Res op} (ht : c.status t = .inside op (.ret r) next) :
    c.step pieces t =
      { status := Function.update c.status t (.outside (next r)), state := c.state } := by
  unfold step
  rw [ht]

/-- A thread that looks sees the piece as it is. -/
theorem step_look {next' : Piece (sec.lock op) → Body (Piece (sec.lock op)) (Res op)}
    (ht : c.status t = .inside op (.look next') next) :
    c.step pieces t =
      { status := Function.update c.status t
          (.inside op (next' (pieces.get (sec.lock op) c.state)) next)
        state := c.state } := by
  unfold step
  rw [ht]

/-- A thread that writes changes its own piece. -/
theorem step_put {p : Piece (sec.lock op)} {next' : Body (Piece (sec.lock op)) (Res op)}
    (ht : c.status t = .inside op (.put p next') next) :
    c.step pieces t =
      { status := Function.update c.status t (.inside op next' next)
        state := pieces.set (sec.lock op) p c.state } := by
  unfold step
  rw [ht]

end Locked

section Machine

variable [DecidableEq τ] (Start : σ → Prop) (Allowed : Program Op Res α → Prop)

/-- Threads that make one allowed call after another. -/
def lockMachine : Machine (Locked sec α σ τ) (CallEvent Op Res α τ) where
  init c := Start c.state ∧ ∀ t, c.Returned t
  enabled c
    | .begin t p => c.Returned t ∧ Allowed p
    | .step t => c.Ready t
  next c
    | .begin t p => { c with status := Function.update c.status t (.outside p) }
    | .step t => c.step pieces t

variable {sec}

/-- Each thread of a schedule is ready when its turn comes. -/
def Locked.ReadyAlong : List τ → Locked sec α σ τ → Prop
  | [], _ => True
  | t :: schedule, c => c.Ready t ∧ ReadyAlong schedule (c.step pieces t)

instance decidableReadyAlong [DecidableEq Λ] [Fintype τ] :
    ∀ (schedule : List τ) (c : Locked sec α σ τ),
      Decidable (c.ReadyAlong pieces schedule)
  | [], _ => isTrue trivial
  | t :: schedule, c =>
      have := decidableReadyAlong schedule (c.step pieces t)
      inferInstanceAs (Decidable (c.Ready t ∧ Locked.ReadyAlong pieces schedule _))

variable {pieces Start Allowed} in
/-- A schedule of threads that are ready is a run. -/
theorem enabledAlong_of_ready {schedule : List τ} {c : Locked sec α σ τ}
    (h : c.ReadyAlong pieces schedule) :
    (lockMachine pieces sec Start Allowed).EnabledAlong (schedule.map CallEvent.step) c := by
  induction schedule generalizing c with
  | nil => trivial
  | cons t schedule ih => exact ⟨h.1, ih h.2⟩

end Machine

/-! ## Refinement -/

section Refinement

/-- What a thread will continue with, once its section is complete. -/
def Status.program (s : σ) : Status sec α → Program Op Res α
  | .outside p => p
  | .inside op b next => next (b.run (pieces.get (sec.lock op) s)).1

variable {sec} in
/-- The sections under way: two at one piece look only, and those that look do not write. -/
structure Guarded (c : Locked sec α σ τ) : Prop where
  together : ∀ {t u op b next op' b' next'}, t ≠ u → c.status t = .inside op b next →
    c.status u = .inside op' b' next' → sec.lock op' = sec.lock op →
      sec.shared op ∧ sec.shared op'
  readsOnly : ∀ {t op b next}, c.status t = .inside op b next → sec.shared op → b.ReadsOnly

/-- The run of atomic accesses is ahead: it has completed the sections under way. -/
structure Refines (c : Locked sec α σ τ) (a : Threads Op Res α σ τ) : Prop where
  program : ∀ t, a.program t = (c.status t).program pieces sec c.state
  settled : ∀ l, (∀ t op b next, c.status t = .inside op b next → sec.lock op = l →
    sec.shared op) → pieces.get l a.state = pieces.get l c.state
  working : ∀ {t op b next}, c.status t = .inside op b next → ¬ sec.shared op →
    pieces.get (sec.lock op) a.state = (b.run (pieces.get (sec.lock op) c.state)).2
  rest : pieces.rest a.state = pieces.rest c.state

variable {pieces sec} {c : Locked sec α σ τ} {a : Threads Op Res α σ τ}

/-- **Nothing under way.**  Between sections, the run of atomic accesses is in the very same
state, with the same left to do. -/
theorem Refines.eq_of_outside (h : Refines pieces sec c a) (p : τ → Program Op Res α)
    (hout : ∀ t, c.status t = .outside (p t)) : a.state = c.state ∧ a.program = p := by
  refine ⟨pieces.ext ?_ h.rest, ?_⟩
  · intro l
    apply h.settled
    intro t op b next ht
    rw [hout t] at ht
    cases ht
  · funext t
    rw [h.program t, hout t]
    rfl

variable [DecidableEq τ]

/-- Who is inside after a thread has changed its status. -/
theorem inside_update {t u : τ} {st : Status sec α} {op : Op}
    {b : Body (Piece (sec.lock op)) (Res op)} {next : Res op → Program Op Res α}
    (hu : Function.update c.status t st u = .inside op b next) :
    (u = t ∧ st = .inside op b next) ∨ (u ≠ t ∧ c.status u = .inside op b next) := by
  by_cases hut : u = t
  · rw [hut, Function.update_self] at hu
    exact Or.inl ⟨hut, hu⟩
  · rw [Function.update_of_ne hut] at hu
    exact Or.inr ⟨hut, hu⟩

/-- When the lock is released, the section is what it came to. -/
theorem Refines.release (hguarded : Guarded c) (h : Refines pieces sec c a) {t : τ} {op : Op}
    {r : Res op} {next : Res op → Program Op Res α} (ht : c.status t = .inside op (.ret r) next) :
    Guarded { c with status := Function.update c.status t (.outside (next r)) } ∧
      Refines pieces sec { c with status := Function.update c.status t (.outside (next r)) } a := by
  have hinside : ∀ {u op' b' next'},
      Function.update c.status t (.outside (next r)) u = .inside op' b' next' →
        u ≠ t ∧ c.status u = .inside op' b' next' := by
    intro u op' b' next' hu
    rcases inside_update hu with ⟨_, hst⟩ | hother
    · cases hst
    · exact hother
  refine ⟨⟨?_, ?_⟩, ⟨?_, ?_, ?_, h.rest⟩⟩
  · intro u v op₁ b₁ next₁ op₂ b₂ next₂ huv hu hv hlock
    exact hguarded.together huv (hinside hu).2 (hinside hv).2 hlock
  · intro u op' b' next' hu
    exact hguarded.readsOnly (hinside hu).2
  · intro u
    rw [h.program u]
    change _ = (Function.update c.status t (.outside (next r)) u).program pieces sec c.state
    by_cases hut : u = t
    · rw [hut, Function.update_self, ht]
      rfl
    · rw [Function.update_of_ne hut]
  · intro l hall
    by_cases hown : sec.lock op = l ∧ ¬ sec.shared op
    · obtain ⟨rfl, hsh⟩ := hown
      exact h.working ht hsh
    · apply h.settled
      intro u op' b' next' hu hlock
      by_cases hut : u = t
      · rw [hut, ht] at hu
        cases hu
        exact Classical.not_not.mp (fun hsh => hown ⟨hlock, hsh⟩)
      · exact hall u op' b' next' ((Function.update_of_ne hut _ _).trans hu) hlock
  · intro u op' b' next' hu
    exact h.working (hinside hu).2

/-- A step within a section: what it will come to is the same. -/
theorem Refines.work (hguarded : Guarded c) (h : Refines pieces sec c a) {t : τ} {op : Op}
    {b : Body (Piece (sec.lock op)) (Res op)} {next : Res op → Program Op Res α}
    (ht : c.status t = .inside op b next) (b' : Body (Piece (sec.lock op)) (Res op)) (s : σ)
    (hrun : b'.run (pieces.get (sec.lock op) s) = b.run (pieces.get (sec.lock op) c.state))
    (hother : ∀ l, l ≠ sec.lock op → pieces.get l s = pieces.get l c.state)
    (hshared : sec.shared op →
      pieces.get (sec.lock op) s = pieces.get (sec.lock op) c.state ∧ b'.ReadsOnly)
    (hrest : pieces.rest s = pieces.rest c.state) :
    Guarded { status := Function.update c.status t (.inside op b' next), state := s :
        Locked sec α σ τ } ∧
      Refines pieces sec
        { status := Function.update c.status t (.inside op b' next), state := s } a := by
  have hself : Function.update c.status t (.inside op b' next) t = .inside op b' next :=
    Function.update_self ..
  -- The pieces of the others are left alone.
  have hkept : ∀ {u op₁ b₁ next₁}, u ≠ t → c.status u = .inside op₁ b₁ next₁ →
      pieces.get (sec.lock op₁) s = pieces.get (sec.lock op₁) c.state := by
    intro u op₁ b₁ next₁ hut hu
    by_cases hlock : sec.lock op₁ = sec.lock op
    · rw [hlock]
      exact (hshared (hguarded.together hut.symm ht hu hlock).1).1
    · exact hother _ hlock
  refine ⟨⟨?_, ?_⟩, ⟨?_, ?_, ?_, h.rest.trans hrest.symm⟩⟩
  · intro u v op₁ b₁ next₁ op₂ b₂ next₂ huv hu hv hlock
    rcases inside_update hu with ⟨rfl, hst⟩ | ⟨_, hu'⟩
    · cases hst
      rcases inside_update hv with ⟨rfl, _⟩ | ⟨_, hv'⟩
      · exact absurd rfl huv
      · exact hguarded.together huv ht hv' hlock
    · rcases inside_update hv with ⟨rfl, hst⟩ | ⟨_, hv'⟩
      · cases hst
        exact hguarded.together huv hu' ht hlock
      · exact hguarded.together huv hu' hv' hlock
  · intro u op₁ b₁ next₁ hu hsh
    rcases inside_update hu with ⟨_, hst⟩ | ⟨_, hu'⟩
    · cases hst
      exact (hshared hsh).2
    · exact hguarded.readsOnly hu' hsh
  · intro u
    rw [h.program u]
    change _ = (Function.update c.status t (.inside op b' next) u).program pieces sec s
    by_cases hut : u = t
    · rw [hut, hself, ht, Status.program, Status.program, hrun]
    · rw [Function.update_of_ne hut]
      cases hu : c.status u with
      | outside p => rfl
      | inside op₁ b₁ next₁ => rw [Status.program, Status.program, hkept hut hu]
  · intro l hall
    have hsame : pieces.get l s = pieces.get l c.state := by
      by_cases hl : l = sec.lock op
      · subst hl
        exact (hshared (hall t op b' next hself rfl)).1
      · exact hother l hl
    rw [hsame]
    apply h.settled
    intro u op₁ b₁ next₁ hu hlock
    by_cases hut : u = t
    · rw [hut, ht] at hu
      cases hu
      exact hall t op b' next hself hlock
    · exact hall u op₁ b₁ next₁ ((Function.update_of_ne hut _ _).trans hu) hlock
  · intro u op₁ b₁ next₁ hu hsh
    change _ = (b₁.run (pieces.get (sec.lock op₁) s)).2
    rcases inside_update hu with ⟨_, hst⟩ | ⟨hut, hu'⟩
    · cases hst
      rw [hrun]
      exact h.working ht hsh
    · rw [hkept hut hu']
      exact h.working hu' hsh

/-- When the lock is acquired, the atomic access happens. -/
theorem Refines.acquire (hguarded : Guarded c) (h : Refines pieces sec c a) {t : τ} {op : Op}
    {next : Res op → Program Op Res α} (ht : c.status t = .outside (.access op next))
    (hfree : c.Free op) :
    Guarded (c.step pieces t) ∧
      Refines pieces sec (c.step pieces t) (a.step (perform pieces sec) t) := by
  have haccess : a.program t = .access op next := by
    rw [h.program t, ht]
    rfl
  have hpiece : pieces.get (sec.lock op) a.state = pieces.get (sec.lock op) c.state := by
    apply h.settled
    intro u op' b next' hu hlock
    exact (hfree u op' b next' hu hlock).1
  have hself : Function.update c.status t (.inside op (sec.body op) next) t =
      .inside op (sec.body op) next := Function.update_self ..
  rw [Locked.step_acquire ht, Threads.step_of_access haccess]
  unfold perform
  rw [hpiece]
  refine ⟨⟨?_, ?_⟩, ⟨?_, ?_, ?_, (pieces.rest_set _ _ _).trans h.rest⟩⟩
  · intro u v op₁ b₁ next₁ op₂ b₂ next₂ huv hu hv hlock
    rcases inside_update hu with ⟨rfl, hst⟩ | ⟨_, hu'⟩
    · cases hst
      rcases inside_update hv with ⟨rfl, _⟩ | ⟨_, hv'⟩
      · exact absurd rfl huv
      · exact (hfree v op₂ b₂ next₂ hv' hlock).symm
    · rcases inside_update hv with ⟨rfl, hst⟩ | ⟨_, hv'⟩
      · cases hst
        exact hfree u op₁ b₁ next₁ hu' hlock.symm
      · exact hguarded.together huv hu' hv' hlock
  · intro u op' b' next' hu hsh
    rcases inside_update hu with ⟨_, hst⟩ | ⟨_, hu'⟩
    · cases hst
      exact sec.readsOnly op hsh
    · exact hguarded.readsOnly hu' hsh
  · intro u
    change Function.update a.program t _ u =
      (Function.update c.status t (.inside op (sec.body op) next) u).program pieces sec c.state
    by_cases hut : u = t
    · rw [hut, Function.update_self, Function.update_self]
      rfl
    · rw [Function.update_of_ne hut, Function.update_of_ne hut]
      exact h.program u
  · intro l hall
    change pieces.get l (pieces.set (sec.lock op) _ a.state) = pieces.get l c.state
    by_cases hl : l = sec.lock op
    · subst hl
      have hsh := hall t op (sec.body op) next hself rfl
      rw [pieces.get_set, (sec.readsOnly op hsh).run_snd]
    · rw [pieces.get_set_ne _ _ hl]
      apply h.settled
      intro u op' b' next' hu hlock
      have hut : u ≠ t := by
        rintro rfl
        rw [ht] at hu
        cases hu
      exact hall u op' b' next' ((Function.update_of_ne hut _ _).trans hu) hlock
  · intro u op' b' next' hu hsh
    change pieces.get (sec.lock op') (pieces.set (sec.lock op) _ a.state) =
      (b'.run (pieces.get (sec.lock op') c.state)).2
    rcases inside_update hu with ⟨_, hst⟩ | ⟨_, hu'⟩
    · cases hst
      rw [pieces.get_set]
    · have hlock : sec.lock op' ≠ sec.lock op :=
        fun heq => hsh (hfree u op' b' next' hu' heq).1
      rw [pieces.get_set_ne _ _ hlock]
      exact h.working hu' hsh

/-- **One step.**  It does nothing in the run of atomic accesses, or one of them. -/
theorem Refines.step (hguarded : Guarded c) (h : Refines pieces sec c a) {t : τ}
    (hready : c.Ready t) :
    Guarded (c.step pieces t) ∧ (Refines pieces sec (c.step pieces t) a ∨
      Refines pieces sec (c.step pieces t) (a.step (perform pieces sec) t)) := by
  unfold Locked.Ready at hready
  cases ht : c.status t with
  | outside p =>
      rw [ht] at hready
      cases p with
      | done r => exact hready.elim
      | access op next =>
          obtain ⟨hguarded', h'⟩ := h.acquire hguarded ht hready
          exact ⟨hguarded', Or.inr h'⟩
  | inside op b next =>
      cases b with
      | ret r =>
          rw [Locked.step_release ht]
          obtain ⟨hguarded', h'⟩ := h.release hguarded ht
          exact ⟨hguarded', Or.inl h'⟩
      | look next' =>
          rw [Locked.step_look ht]
          obtain ⟨hguarded', h'⟩ := h.work hguarded ht
            (next' (pieces.get (sec.lock op) c.state)) c.state rfl (fun _ _ => rfl)
            (fun hsh => ⟨rfl, hguarded.readsOnly ht hsh _⟩) rfl
          exact ⟨hguarded', Or.inl h'⟩
      | put p next' =>
          rw [Locked.step_put ht]
          obtain ⟨hguarded', h'⟩ := h.work hguarded ht next'
            (pieces.set (sec.lock op) p c.state)
            (by rw [pieces.get_set]; rfl) (fun l hl => pieces.get_set_ne _ _ hl)
            (fun hsh => (hguarded.readsOnly ht hsh).elim) (pieces.rest_set _ _ _)
          exact ⟨hguarded', Or.inl h'⟩

/-- **Atomic accesses.**  Each run of threads that acquire, work and release does what a run
of atomic accesses does, with the same calls. -/
theorem Refines.of_reachable {Start : σ → Prop} {Allowed : Program Op Res α → Prop}
    {cond : Locked sec α σ τ → CallEvent Op Res α τ → Prop}
    (hreach : (lockMachine pieces sec Start Allowed).ReachableUnder cond c) :
    Guarded c ∧ ∃ a, (callMachine (perform pieces sec) Start Allowed).Reachable a ∧
      Refines pieces sec c a := by
  apply hreach.invariant
  · rintro c ⟨hs, hreturned⟩
    have hout : ∀ t op b next, c.status t ≠ .inside op b next := by
      intro t op b next ht
      obtain ⟨r, hr⟩ := hreturned t
      rw [hr] at ht
      cases ht
    refine ⟨⟨fun _ hu => absurd hu (hout _ _ _ _), fun hu => absurd hu (hout _ _ _ _)⟩,
      { program := fun t => (c.status t).program pieces sec c.state, state := c.state }, ?_, ?_⟩
    · apply Machine.ReachableUnder.init
      refine ⟨hs, fun t => ?_⟩
      obtain ⟨r, hr⟩ := hreturned t
      refine ⟨r, ?_⟩
      change (c.status t).program pieces sec c.state = _
      rw [hr]
      rfl
    · exact ⟨fun _ => rfl, fun _ _ => rfl, fun hu => absurd hu (hout _ _ _ _), rfl⟩
  · rintro c e ⟨hguarded, a, hreach, h⟩ henabled _
    cases e with
    | step t =>
        obtain ⟨hguarded', h' | h'⟩ := h.step hguarded henabled
        · exact ⟨hguarded', a, hreach, h'⟩
        · exact ⟨hguarded', _, hreach.next_eq (.step t) trivial trivial rfl, h'⟩
    | begin t p =>
        obtain ⟨⟨r, hr⟩, hallowed⟩ := henabled
        have hinside : ∀ {u op b next}, Function.update c.status t (.outside p) u =
            .inside op b next → c.status u = .inside op b next := by
          intro u op b next hu
          rcases inside_update hu with ⟨_, hst⟩ | ⟨_, hu'⟩
          · cases hst
          · exact hu'
        have hfinished : (a.program t).Finished := by
          refine ⟨r, ?_⟩
          rw [h.program t, hr]
          rfl
        refine ⟨⟨fun huv hu hv => hguarded.together huv (hinside hu) (hinside hv),
          fun hu => hguarded.readsOnly (hinside hu)⟩, _,
          hreach.next_eq (.begin t p) ⟨hfinished, hallowed⟩ trivial rfl, ?_⟩
        refine ⟨?_, ?_, fun hu => h.working (hinside hu), h.rest⟩
        · intro u
          change Function.update a.program t p u =
            (Function.update c.status t (.outside p) u).program pieces sec c.state
          by_cases hut : u = t
          · rw [hut, Function.update_self, Function.update_self]
            rfl
          · rw [Function.update_of_ne hut, Function.update_of_ne hut]
            exact h.program u
        · intro l hall
          apply h.settled
          intro u op b next hu
          have hut : u ≠ t := by
            rintro rfl
            rw [hr] at hu
            cases hu
          exact hall u op b next ((Function.update_of_ne hut _ _).trans hu)

end Refinement

/-! ## Progress -/

section Progress

variable {pieces sec} {c : Locked sec α σ τ}

/-- A thread with a result has nothing left to do. -/
theorem not_ready_of_returned {t : τ} (h : c.Returned t) : ¬ c.Ready t := by
  obtain ⟨a, ha⟩ := h
  unfold Locked.Ready
  rw [ha]
  exact not_false

/-- **No deadlock.**  As long as some thread has not returned, some thread is ready: whoever
holds a lock can go on, and if nobody does, every lock can be had. -/
theorem exists_ready {t : τ} (ht : ¬ c.Returned t) : ∃ u, c.Ready u := by
  by_cases hinside : ∃ u op b next, c.status u = .inside op b next
  · obtain ⟨u, op, b, next, hu⟩ := hinside
    refine ⟨u, ?_⟩
    unfold Locked.Ready
    rw [hu]
    trivial
  · refine ⟨t, ?_⟩
    unfold Locked.Ready
    cases hstatus : c.status t with
    | inside op b next => exact absurd ⟨t, op, b, next, hstatus⟩ hinside
    | outside p =>
        cases p with
        | done r => exact ht ⟨r, hstatus⟩
        | access op next =>
            intro u op' b next' hu
            exact absurd ⟨u, op', b, next', hu⟩ hinside

/-- A program of at most `n` steps, if each section takes at most `bound` of them between the
two that acquire and release the lock. -/
def Takes (bound : Op → Nat) : Program Op Res α → Nat → Prop
  | .done _, _ => True
  | .access op next, n => bound op + 2 ≤ n ∧ ∀ r, Takes bound (next r) (n - (bound op + 2))

namespace Takes

variable {bound : Op → Nat} {n m : Nat}

/-- A bound may be raised. -/
theorem mono {p : Program Op Res α} :
    ∀ {n m : Nat}, Takes bound p n → n ≤ m → Takes bound p m := by
  induction p with
  | done a => exact fun _ _ => trivial
  | access op next ih =>
      intro n m h hle
      exact ⟨h.1.trans hle, fun r => ih r (h.2 r) (Nat.sub_le_sub_right hle _)⟩

/-- The steps of two programs add up. -/
theorem bind {p : Program Op Res α} {f : α → Program Op Res β} (hp : Takes bound p n)
    (hf : ∀ a, Takes bound (f a) m) : Takes bound (p >>= f) (n + m) := by
  change Takes bound (p.bind f) (n + m)
  induction p generalizing n with
  | done a => exact (hf a).mono (Nat.le_add_left m n)
  | access op next ih =>
      refine ⟨hp.1.trans (Nat.le_add_right n m), fun r => ?_⟩
      rw [Nat.sub_add_comm hp.1]
      exact ih r (hp.2 r)

/-- What is done with the result takes no step. -/
theorem result {p : Program Op Res α} (hp : Takes bound p n) (f : α → β) :
    Takes bound (p >>= fun a => pure (f a)) n := bind (m := 0) hp (fun _ => trivial)

end Takes

/-- At most `k` steps are left. -/
def Status.Left (bound : Op → Nat) : Status sec α → Nat → Prop
  | .outside p, k => Takes bound p k
  | .inside _ b next, k =>
      ∃ m n, b.Within m ∧ (∀ r, Takes bound (next r) n) ∧ m + 1 + n ≤ k

variable {bound : Op → Nat}

/-- What is left of a thread's work may be bounded more loosely. -/
theorem Status.Left.mono {st : Status sec α} {k k' : Nat} (h : st.Left bound k) (hle : k ≤ k') :
    st.Left bound k' := by
  cases st with
  | outside p => exact Takes.mono h hle
  | inside op b next =>
      obtain ⟨m, n, hm, hn, hk⟩ := h
      exact ⟨m, n, hm, hn, hk.trans hle⟩

variable [DecidableEq τ]

/-- A step of one thread is no step of another. -/
theorem step_status_ne {t u : τ} (h : u ≠ t) : (c.step pieces t).status u = c.status u := by
  unfold Locked.step
  split
  · rfl
  all_goals exact Function.update_of_ne h _ _

variable (pieces) in
/-- Each step takes one from what is left. -/
theorem left_step (hbody : ∀ op, (sec.body op).Within (bound op)) {t : τ} {k : Nat}
    (hready : c.Ready t) (h : (c.status t).Left bound k) :
    0 < k ∧ ((c.step pieces t).status t).Left bound (k - 1) := by
  have hself (st : Status sec α) {k' : Nat} (hst : st.Left bound k') :
      (Function.update c.status t st t).Left bound k' := by
    rwa [Function.update_self]
  unfold Locked.Ready at hready
  cases ht : c.status t with
  | outside p =>
      rw [ht] at h hready
      cases p with
      | done r => exact hready.elim
      | access op next =>
          obtain ⟨hle, hnext⟩ := h
          rw [Locked.step_acquire ht]
          exact ⟨by omega, hself _ ⟨bound op, k - (bound op + 2), hbody op, hnext, by omega⟩⟩
  | inside op b next =>
      rw [ht] at h
      obtain ⟨m, n, hm, hn, hk⟩ := h
      refine ⟨by omega, ?_⟩
      cases b with
      | ret r =>
          rw [Locked.step_release ht]
          exact hself (.outside (next r)) ((hn r).mono (by omega))
      | look next' =>
          have hpos := hm.1
          rw [Locked.step_look ht]
          exact hself _ ⟨m - 1, n, hm.2 _, hn, by omega⟩
      | put p next' =>
          have hpos := hm.1
          rw [Locked.step_put ht]
          exact hself _ ⟨m - 1, n, hm.2, hn, by omega⟩

variable [Fintype τ] {Start : σ → Prop} {Allowed : Program Op Res α → Prop}

/-- A schedule is not longer than what all threads have left. -/
theorem length_le_sum (hbody : ∀ op, (sec.body op).Within (bound op)) :
    ∀ (schedule : List τ) {c : Locked sec α σ τ} {k : τ → Nat},
      (∀ t, (c.status t).Left bound (k t)) →
      (lockMachine pieces sec Start Allowed).EnabledAlong (schedule.map CallEvent.step) c →
        schedule.length ≤ ∑ t, k t := by
  intro schedule
  induction schedule with
  | nil =>
      intro c k _ _
      exact Nat.zero_le _
  | cons t schedule ih =>
      intro c k h hrun
      obtain ⟨hpos, hleft⟩ := left_step pieces hbody hrun.1 (h t)
      have hnext : ∀ u, ((c.step pieces t).status u).Left bound
          (Function.update k t (k t - 1) u) := by
        intro u
        by_cases hut : u = t
        · rw [hut, Function.update_self]
          exact hleft
        · rw [Function.update_of_ne hut, step_status_ne hut]
          exact h u
      have hlater := ih hnext hrun.2
      have hrest : ∑ u ∈ Finset.univ.erase t, Function.update k t (k t - 1) u =
          ∑ u ∈ Finset.univ.erase t, k u := by
        apply Finset.sum_congr rfl
        intro u hu
        exact Function.update_of_ne (Finset.ne_of_mem_erase hu) _ _
      rw [← Finset.add_sum_erase Finset.univ _ (Finset.mem_univ t), Function.update_self,
        hrest] at hlater
      rw [← Finset.add_sum_erase Finset.univ k (Finset.mem_univ t), List.length_cons]
      omega

/-- **All calls return.**  From any state of a run, threads that begin no more calls make a
bounded number of steps, whichever thread goes on; and where no step is left, each has
returned. -/
theorem returned_of_reachable {steps : Nat} (hbody : ∀ op, (sec.body op).Within (bound op))
    (hallowed : ∀ p, Allowed p → Takes bound p steps)
    {cond : Locked sec α σ τ → CallEvent Op Res α τ → Prop}
    (hreach : (lockMachine pieces sec Start Allowed).ReachableUnder cond c) (schedule : List τ)
    (hrun : (lockMachine pieces sec Start Allowed).EnabledAlong
      (schedule.map CallEvent.step) c) :
    schedule.length ≤ Fintype.card τ * steps ∧
      ((∀ t, ¬ ((lockMachine pieces sec Start Allowed).run
        (schedule.map CallEvent.step) c).Ready t) →
        ∀ t, ((lockMachine pieces sec Start Allowed).run
          (schedule.map CallEvent.step) c).Returned t) := by
  have hleft : ∀ t, (c.status t).Left bound steps := by
    apply hreach.invariant
    · rintro c ⟨_, hreturned⟩ t
      obtain ⟨r, hr⟩ := hreturned t
      rw [hr]
      trivial
    · rintro c e h henabled _ t
      cases e with
      | begin u p =>
          change (Function.update c.status u (.outside p) t).Left bound _
          by_cases hut : t = u
          · rw [hut, Function.update_self]
            exact hallowed p henabled.2
          · rw [Function.update_of_ne hut]
            exact h t
      | step u =>
          change ((c.step pieces u).status t).Left bound _
          by_cases hut : t = u
          · rw [hut]
            exact (left_step pieces hbody henabled (h u)).2.mono (Nat.sub_le _ _)
          · rw [step_status_ne hut]
            exact h t
  refine ⟨?_, ?_⟩
  · have hlength := length_le_sum hbody schedule hleft hrun
    rwa [Finset.sum_const, Finset.card_univ, smul_eq_mul] at hlength
  · intro hstuck t
    by_contra ht
    obtain ⟨u, hu⟩ := exists_ready ht
    exact hstuck u hu

end Progress

end LockedSections
