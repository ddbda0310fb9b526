import Mathlib

/-!
# Programs of atomic accesses and their interleavings

A routine that takes one lock at a time is a sequence of atomic accesses to a
shared state with local computation in between.  `Program` is the syntax of
such routines over any set of operations; what an operation answers and does
to the state is a separate argument `perform`, so that one text of a routine
has both meanings needed here:

* `Program.run` — the routine alone, from start to end;
* `Threads.exec` — any number of routines, one access at a time, in the order
  a schedule prescribes.

`exec_eq_serial` connects the two.  It is the conflict serializability
theorem: when the conflicting accesses of different threads follow one order
of the threads, the interleaving has the same outcome as running the threads
one after another in that order.
-/

namespace AtomicPrograms

/-- A routine over the operations `Op`: it has a result, or it performs one
operation and continues with the answer. -/
inductive Program (Op : Type) (Res : Op → Type) (α : Type) where
  | done (a : α)
  | access (op : Op) (next : Res op → Program Op Res α)

variable {Op : Type} {Res : Op → Type} {α β σ τ : Type}

namespace Program

/-- Continue with `f` on the result. -/
def bind : Program Op Res α → (α → Program Op Res β) → Program Op Res β
  | done a, f => f a
  | access op next, f => access op (fun r => (next r).bind f)

instance : Monad (Program Op Res) where
  pure := done
  bind := bind

/-- The routine of one access. -/
def call (op : Op) : Program Op Res (Res op) := access op done

/-- The routine alone: its result and the state it leaves. -/
def run (perform : (op : Op) → σ → Res op × σ) : Program Op Res α → σ → α × σ
  | done a, s => (a, s)
  | access op next, s => run perform (next (perform op s).1) (perform op s).2

/-- The operation the routine performs next. -/
def nextOp : Program Op Res α → Option Op
  | done _ => none
  | access op _ => some op

/-- The routine has returned. -/
def Finished (p : Program Op Res α) : Prop := ∃ a, p = done a

variable (perform : (op : Op) → σ → Res op × σ)

/-- A result is there at once. -/
@[simp] theorem run_done (a : α) (s : σ) :
    (done a : Program Op Res α).run perform s = (a, s) := rfl

/-- The same for `pure`. -/
@[simp] theorem run_pure (a : α) (s : σ) :
    (pure a : Program Op Res α).run perform s = (a, s) := rfl

/-- One access performs its operation. -/
@[simp] theorem run_call (op : Op) (s : σ) :
    (call op : Program Op Res (Res op)).run perform s = perform op s := rfl

/-- An access is performed before what follows it. -/
@[simp] theorem run_access (op : Op) (next : Res op → Program Op Res α) (s : σ) :
    (access op next).run perform s = (next (perform op s).1).run perform (perform op s).2 := rfl

/-- Routines in a row run in a row. -/
@[simp] theorem run_bind (p : Program Op Res α) (f : α → Program Op Res β) (s : σ) :
    (p >>= f).run perform s = (f (p.run perform s).1).run perform (p.run perform s).2 := by
  show (p.bind f).run perform s = _
  induction p generalizing s with
  | done a => rfl
  | access op next ih => exact ih (perform op s).1 (perform op s).2

/-- A branch runs the routine that is chosen. -/
@[simp] theorem run_ite (b : Prop) [Decidable b] (p q : Program Op Res α) (s : σ) :
    (if b then p else q).run perform s = if b then p.run perform s else q.run perform s := by
  split <;> rfl

/-- What no access changes, no routine changes. -/
theorem run_preserves {β : Type} {f : σ → β} (hop : ∀ op s, f (perform op s).2 = f s)
    (p : Program Op Res α) : ∀ s, f (p.run perform s).2 = f s := by
  induction p with
  | done a =>
      intro s
      rfl
  | access op next ih =>
      intro s
      rw [run_access, ih, hop]

/-- A routine without a next operation has returned. -/
theorem finished_iff {p : Program Op Res α} : p.Finished ↔ p.nextOp = none := by
  cases p with
  | done a => exact ⟨fun _ => rfl, fun _ => ⟨a, rfl⟩⟩
  | access op next =>
      refine ⟨?_, ?_⟩
      · rintro ⟨a, h⟩
        cases h
      · intro h
        cases h

/-- A routine with a next operation is about to perform it. -/
theorem nextOp_eq_some {p : Program Op Res α} {op : Op} (h : p.nextOp = some op) :
    ∃ next, p = access op next := by
  cases p with
  | done a => cases h
  | access op' next =>
      obtain rfl := Option.some.inj h
      exact ⟨next, rfl⟩

end Program

open Program

/-- Routines under way, one a thread, over one shared state. -/
structure Threads (Op : Type) (Res : Op → Type) (α σ τ : Type) where
  program : τ → Program Op Res α
  state : σ

namespace Threads

variable [DecidableEq τ] (perform : (op : Op) → σ → Res op × σ)

/-- Thread `t` performs its next access; a thread that has returned does
nothing. -/
def step (c : Threads Op Res α σ τ) (t : τ) : Threads Op Res α σ τ :=
  match c.program t with
  | done _ => c
  | access op next =>
      { program := Function.update c.program t (next (perform op c.state).1)
        state := (perform op c.state).2 }

/-- Perform one access a schedule entry. -/
def exec : List τ → Threads Op Res α σ τ → Threads Op Res α σ τ
  | [], c => c
  | t :: schedule, c => exec schedule (c.step perform t)

/-- The accesses a schedule performs, each with its thread. -/
def events : List τ → Threads Op Res α σ τ → List (τ × Op)
  | [], _ => []
  | t :: schedule, c =>
      ((c.program t).nextOp.toList.map (fun op => (t, op))) ++
        events schedule (c.step perform t)

/-- Thread `t` runs to its end without interruption. -/
def runAlone (c : Threads Op Res α σ τ) (t : τ) : Threads Op Res α σ τ :=
  { program := Function.update c.program t (done ((c.program t).run perform c.state).1)
    state := ((c.program t).run perform c.state).2 }

/-- The threads of a list, one after another. -/
def serial : List τ → Threads Op Res α σ τ → Threads Op Res α σ τ
  | [], c => c
  | t :: order, c => serial order (c.runAlone perform t)

variable {perform}

/-- A thread performs its next operation on the shared state. -/
theorem step_of_access {c : Threads Op Res α σ τ} {t : τ} {op : Op}
    {next : Res op → Program Op Res α} (h : c.program t = access op next) :
    c.step perform t =
      { program := Function.update c.program t (next (perform op c.state).1)
        state := (perform op c.state).2 } := by
  simp [step, h]

/-- A thread that has returned does nothing. -/
theorem step_of_done {c : Threads Op Res α σ τ} {t : τ} {a : α}
    (h : c.program t = done a) : c.step perform t = c := by
  simp [step, h]

/-- A step changes no other thread. -/
theorem step_program_ne {c : Threads Op Res α σ τ} {t u : τ} (h : u ≠ t) :
    (c.step perform t).program u = c.program u := by
  cases hp : c.program t with
  | done a => rw [step_of_done hp]
  | access op next => rw [step_of_access hp]; exact Function.update_of_ne h _ _

/-- A block of steps of other threads leaves a thread where it was. -/
theorem exec_program_ne {u : τ} :
    ∀ (schedule : List τ) (c : Threads Op Res α σ τ), u ∉ schedule →
      (exec perform schedule c).program u = c.program u := by
  intro schedule
  induction schedule with
  | nil => intro c _; rfl
  | cons t schedule ih =>
      intro c hu
      rw [exec, ih _ (fun h => hu (List.mem_cons_of_mem _ h))]
      exact step_program_ne (fun h => hu (h ▸ List.mem_cons_self))

/-- Steps of one thread until it has returned are its run alone. -/
theorem exec_replicate_eq_runAlone {t : τ} :
    ∀ (n : Nat) (c : Threads Op Res α σ τ),
      ((exec perform (List.replicate n t) c).program t).Finished →
      exec perform (List.replicate n t) c = c.runAlone perform t := by
  intro n
  induction n with
  | zero =>
      rintro c ⟨a, ha⟩
      have hp : c.program t = done a := ha
      have hsame : Function.update c.program t (done a) = c.program := by
        rw [← hp, Function.update_eq_self]
      show c = _
      simp only [runAlone, hp, run_done, hsame]
  | succ n ih =>
      intro c hfin
      rw [List.replicate_succ, exec] at hfin ⊢
      rw [ih _ hfin]
      cases hp : c.program t with
      | done a => rw [step_of_done hp]
      | access op next => simp [step_of_access hp, runAlone, hp]

/-- A relation `conflict` is sound for the configurations of `Inv` when two
threads about to perform accesses that do not conflict may go in either
order. -/
structure Commutes (perform : (op : Op) → σ → Res op × σ) (conflict : Op → Op → Prop)
    (Inv : Threads Op Res α σ τ → Prop) : Prop where
  keeps : ∀ {c t}, Inv c → Inv (c.step perform t)
  diamond : ∀ {c t u a b}, Inv c → t ≠ u → (c.program t).nextOp = some a →
    (c.program u).nextOp = some b → ¬ conflict a b →
    (c.step perform t).step perform u = (c.step perform u).step perform t

/-- The conflicting accesses of different threads happen in the order of
their threads. -/
def Follows (conflict : Op → Op → Prop) (order : List τ) (evs : List (τ × Op)) : Prop :=
  evs.Pairwise (fun e f => e.1 ≠ f.1 → conflict e.2 f.2 → order.idxOf e.1 < order.idxOf f.1)

variable {conflict : Op → Op → Prop} {Inv : Threads Op Res α σ τ → Prop}

/-- An invariant of the accesses holds along every schedule. -/
theorem Commutes.exec_keeps (h : Commutes perform conflict Inv) :
    ∀ (schedule : List τ) {c}, Inv c → Inv (exec perform schedule c) := by
  intro schedule
  induction schedule with
  | nil => intro c hc; exact hc
  | cons t schedule ih => intro c hc; exact ih (h.keeps hc)

/-- One access of `u` moves behind a block of accesses of `t` it does not
conflict with. -/
theorem Commutes.step_past_block (h : Commutes perform conflict Inv) {t u : τ} (hne : u ≠ t) :
    ∀ (n : Nat) {c : Threads Op Res α σ τ}, Inv c →
      (∀ e ∈ events perform (List.replicate n t) (c.step perform u), ∀ a,
        (c.program u).nextOp = some a → ¬ conflict a e.2) →
      exec perform (List.replicate n t) (c.step perform u) =
        (exec perform (List.replicate n t) c).step perform u ∧
      events perform (List.replicate n t) (c.step perform u) =
        events perform (List.replicate n t) c := by
  intro n
  induction n with
  | zero => intro c _ _; exact ⟨rfl, rfl⟩
  | succ n ih =>
      intro c hc hfree
      simp only [List.replicate_succ, exec, events, List.mem_append] at hfree ⊢
      have hsame : (c.step perform u).program t = c.program t := step_program_ne hne.symm
      have hswap : (c.step perform u).step perform t = (c.step perform t).step perform u := by
        cases hu : c.program u with
        | done a =>
            have hu' : (c.step perform t).program u = done a := by
              rw [step_program_ne hne, hu]
            rw [step_of_done hu, step_of_done hu']
        | access a next =>
            cases ht : c.program t with
            | done r =>
                rw [step_of_done (hsame.trans ht), step_of_done ht]
            | access b next' =>
                refine h.diamond hc hne (by rw [hu]; rfl) (by rw [ht]; rfl) ?_
                refine hfree (t, b) (Or.inl ?_) a (by rw [hu]; rfl)
                simp [hsame, ht, nextOp]
      have hstays : ((c.step perform t).program u).nextOp = (c.program u).nextOp := by
        rw [step_program_ne hne]
      have htail := ih (h.keeps hc : Inv (c.step perform t)) (by
        intro e he a ha
        rw [← hswap] at he
        exact hfree e (Or.inr he) a (hstays ▸ ha))
      rw [hswap, hsame]
      exact ⟨htail.1, by rw [htail.2]⟩

/-- The operations of one thread among those of another: all or none. -/
theorem filter_tagged (t u : τ) (l : List Op) :
    (l.map (fun op => (u, op))).filter (fun e => e.1 = t) =
      if u = t then l.map (fun op => (u, op)) else [] := by
  split
  · next h => simp [h]
  · next h => simp [h]

/-- And what is left without them: none or all. -/
theorem filter_tagged_ne (t u : τ) (l : List Op) :
    (l.map (fun op => (u, op))).filter (fun e => e.1 ≠ t) =
      if u = t then [] else l.map (fun op => (u, op)) := by
  split
  · next h => simp [h]
  · next h => simp [h]

/-- **Pulling one thread to the front.**  If no access of another thread
conflicts with a later access of `t`, all accesses of `t` may be performed
first; every thread still performs the accesses it performed before. -/
theorem Commutes.pull (h : Commutes perform conflict Inv) (t : τ) :
    ∀ (schedule : List τ) {c : Threads Op Res α σ τ}, Inv c →
      (events perform schedule c).Pairwise
        (fun e f => e.1 ≠ t → f.1 = t → ¬ conflict e.2 f.2) →
      exec perform schedule c =
        exec perform (schedule.filter (· ≠ t))
          (exec perform (List.replicate (schedule.count t) t) c) ∧
      events perform (List.replicate (schedule.count t) t) c =
        (events perform schedule c).filter (fun e => e.1 = t) ∧
      events perform (schedule.filter (· ≠ t))
          (exec perform (List.replicate (schedule.count t) t) c) =
        (events perform schedule c).filter (fun e => e.1 ≠ t) := by
  intro schedule
  induction schedule with
  | nil => intro c _ _; exact ⟨rfl, rfl, rfl⟩
  | cons u schedule ih =>
      intro c hc hfree
      rw [events, List.pairwise_append] at hfree
      obtain ⟨hexec, hown, hother⟩ := ih (h.keeps hc : Inv (c.step perform u)) hfree.2.1
      by_cases hu : u = t
      · subst hu
        simp only [List.count_cons_self, List.replicate_succ, exec, events,
          List.filter_append, filter_tagged, filter_tagged_ne, if_true, List.nil_append]
        refine ⟨?_, by rw [hown], ?_⟩
        · simpa using hexec
        · simpa using hother
      · have hblock := h.step_past_block hu (schedule.count t) hc (by
          intro e he a ha
          rw [hown, List.mem_filter] at he
          have hmem : (u, a) ∈ (c.program u).nextOp.toList.map (fun op => (u, op)) := by
            simp [ha]
          exact hfree.2.2 _ hmem e he.1 hu (by simpa using he.2))
        have hstays : (exec perform (List.replicate (schedule.count t) t) c).program u =
            c.program u :=
          exec_program_ne _ _ (fun hmem => hu (List.eq_of_mem_replicate hmem))
        have hcount : (u :: schedule).count t = schedule.count t := by
          rw [List.count_cons_of_ne hu]
        have hfilter : (u :: schedule).filter (· ≠ t) = u :: schedule.filter (· ≠ t) := by
          simp [hu]
        rw [hblock.1] at hexec hother
        rw [hblock.2] at hown
        rw [hcount, hfilter]
        simp only [exec, events, List.filter_append, filter_tagged, filter_tagged_ne, hu,
          if_false, List.nil_append, hstays]
        exact ⟨hexec, hown, by rw [hother]⟩

/-- **Conflict serializability.**  If every thread has returned and the
conflicting accesses of different threads follow `order`, the interleaving
ends like the threads run one after another in that order. -/
theorem exec_eq_serial (h : Commutes perform conflict Inv) :
    ∀ (order schedule : List τ) {c : Threads Op Res α σ τ}, Inv c →
      (∀ t ∈ schedule, t ∈ order) →
      (∀ t ∈ order, ((exec perform schedule c).program t).Finished) →
      Follows conflict order (events perform schedule c) →
      exec perform schedule c = serial perform order c := by
  intro order
  induction order with
  | nil =>
      intro schedule c _ hcover _ _
      have hnil : schedule = [] :=
        List.eq_nil_iff_forall_not_mem.mpr (fun t ht => by cases hcover t ht)
      subst hnil
      rfl
  | cons t order ih =>
      intro schedule c hc hcover hfin hfollows
      have hfirst : (events perform schedule c).Pairwise
          (fun e f => e.1 ≠ t → f.1 = t → ¬ conflict e.2 f.2) := by
        refine hfollows.imp ?_
        rintro e f hord he rfl hconf
        have hlt := hord he hconf
        simp at hlt
      obtain ⟨hexec, _, hother⟩ := h.pull t schedule hc hfirst
      have hout : t ∉ schedule.filter (· ≠ t) := by simp
      have hdone : ((exec perform (List.replicate (schedule.count t) t) c).program t).Finished := by
        have ht := hfin t List.mem_cons_self
        rwa [hexec, exec_program_ne _ _ hout] at ht
      have halone := exec_replicate_eq_runAlone _ _ hdone
      rw [hexec, halone, serial]
      rw [halone] at hexec hother
      refine ih (schedule.filter (· ≠ t)) ?_ ?_ ?_ ?_
      · rw [← halone]
        exact h.exec_keeps _ hc
      · intro u hu
        have hmem := List.mem_filter.mp hu
        exact (List.mem_cons.mp (hcover u hmem.1)).resolve_left (by simpa using hmem.2)
      · intro u hu
        rw [← hexec]
        exact hfin u (List.mem_cons_of_mem _ hu)
      · rw [hother]
        refine (hfollows.filter _).imp_of_mem ?_
        intro e f he hf hord hne hconf
        have hlt := hord hne hconf
        have he' : e.1 ≠ t := by simpa using (List.mem_filter.mp he).2
        have hf' : f.1 ≠ t := by simpa using (List.mem_filter.mp hf).2
        rw [List.idxOf_cons_ne _ he'.symm, List.idxOf_cons_ne _ hf'.symm] at hlt
        omega

end Threads

end AtomicPrograms
