import Mathlib

/-!
# Reachable states of event-driven machines

A machine has initial states and reacts to events; an event is enabled in some
states only.  Its runs are all sequences of enabled events, in any order.

* `ReachableUnder cond` — the states of runs whose every event meets `cond` in
  the state in which it happens.
* `ReachableUnder.invariant` — the induction over runs, stated once.
* `reachable_run` — a given list of events is a run if each of them is
  enabled in turn, which can be computed.
* `along_iff` — what is equivalent event by event is equivalent along runs.
* `exists_prefix_zero` — a measure that runs down reaches zero.
* `exists_since` — the step since which a property has held.
-/

namespace ReachableStates

/-- Initial states, the events each state allows, and their effect. -/
structure Machine (σ ε : Type) where
  init : σ → Prop
  enabled : σ → ε → Prop
  next : σ → ε → σ

variable {σ ε : Type}

namespace Machine

/-- The states of runs in which each event is enabled and meets `cond`. -/
inductive ReachableUnder (m : Machine σ ε) (cond : σ → ε → Prop) : σ → Prop
  | init {s : σ} (h : m.init s) : ReachableUnder m cond s
  | step {s : σ} {e : ε} (h : ReachableUnder m cond s) (henabled : m.enabled s e)
      (hcond : cond s e) : ReachableUnder m cond (m.next s e)

/-- The states of all runs. -/
def Reachable (m : Machine σ ε) : σ → Prop := m.ReachableUnder (fun _ _ => True)

variable {m : Machine σ ε} {cond cond' : σ → ε → Prop}

/-- **Induction over runs.**  What holds initially and is kept by every event
of such a run holds in every state of it. -/
theorem ReachableUnder.invariant {Inv : σ → Prop} (hinit : ∀ s, m.init s → Inv s)
    (hstep : ∀ s e, Inv s → m.enabled s e → cond s e → Inv (m.next s e)) {s : σ}
    (h : m.ReachableUnder cond s) : Inv s := by
  induction h with
  | init h => exact hinit _ h
  | step _ henabled hcond ih => exact hstep _ _ ih henabled hcond

/-- The states after a list of events. -/
def run (m : Machine σ ε) : List ε → σ → σ
  | [], s => s
  | e :: events, s => m.run events (m.next s e)

/-- Each event of the list meets `P` in the state in which it happens. -/
def Along (m : Machine σ ε) (P : σ → ε → Prop) : List ε → σ → Prop
  | [], _ => True
  | e :: events, s => P s e ∧ m.Along P events (m.next s e)

/-- Each event of the list is enabled when its turn comes. -/
def EnabledAlong (m : Machine σ ε) : List ε → σ → Prop := m.Along m.enabled

instance decidableAlong {P : σ → ε → Prop} [∀ s e, Decidable (P s e)] :
    ∀ events s, Decidable (m.Along P events s)
  | [], _ => inferInstanceAs (Decidable True)
  | e :: events, s =>
      have := decidableAlong (P := P) events (m.next s e)
      inferInstanceAs (Decidable (P s e ∧ m.Along P events (m.next s e)))

instance decidableEnabledAlong [∀ s e, Decidable (m.enabled s e)] (events : List ε) (s : σ) :
    Decidable (m.EnabledAlong events s) :=
  inferInstanceAs (Decidable (m.Along m.enabled events s))

theorem run_append (events later : List ε) (s : σ) :
    m.run (events ++ later) s = m.run later (m.run events s) := by
  induction events generalizing s with
  | nil => rfl
  | cons e events ih => exact ih _

theorem along_append {P : σ → ε → Prop} (events later : List ε) (s : σ) :
    m.Along P (events ++ later) s ↔ m.Along P events s ∧ m.Along P later (m.run events s) := by
  induction events generalizing s with
  | nil => simp [Along, run]
  | cons e events ih =>
      rw [List.cons_append, Along, Along, ih, and_assoc]
      exact Iff.rfl

theorem Along.imp {P Q : σ → ε → Prop} (himp : ∀ s e, P s e → Q s e) {events : List ε} :
    ∀ {s : σ}, m.Along P events s → m.Along Q events s := by
  induction events with
  | nil =>
      intro s _
      trivial
  | cons e events ih =>
      intro s h
      exact ⟨himp s e h.1, ih h.2⟩

/-- What holds of each event wherever it happens holds along the list. -/
theorem along_of_mem {P : σ → ε → Prop} {events : List ε} (h : ∀ e ∈ events, ∀ s, P s e) :
    ∀ {s : σ}, m.Along P events s := by
  induction events with
  | nil =>
      intro s
      trivial
  | cons e events ih =>
      intro s
      exact ⟨h e List.mem_cons_self s, ih (fun e' he' => h e' (List.mem_cons_of_mem e he'))⟩

theorem enabledAlong_of_forall (h : ∀ s e, m.enabled s e) {events : List ε} :
    ∀ {s : σ}, m.EnabledAlong events s := by
  induction events with
  | nil =>
      intro s
      trivial
  | cons e events ih =>
      intro s
      exact ⟨h s e, ih⟩

/-- A weaker condition allows more runs. -/
theorem ReachableUnder.mono {s : σ} (h : m.ReachableUnder cond s)
    (himp : ∀ s e, cond s e → cond' s e) : m.ReachableUnder cond' s := by
  induction h with
  | init h => exact .init h
  | step _ henabled hcond ih => exact .step ih henabled (himp _ _ hcond)

/-- One more event, with the state it leads to. -/
theorem ReachableUnder.next_eq {s s' : σ} (h : m.ReachableUnder cond s) (e : ε)
    (henabled : m.enabled s e) (hcond : cond s e) (hnext : m.next s e = s') :
    m.ReachableUnder cond s' := by
  rw [← hnext]
  exact .step h henabled hcond

/-- Enabled events that meet the condition extend a run. -/
theorem ReachableUnder.run {events : List ε} :
    ∀ {s : σ}, m.ReachableUnder cond s → m.EnabledAlong events s → m.Along cond events s →
      m.ReachableUnder cond (m.run events s) := by
  induction events with
  | nil =>
      intro s h _ _
      exact h
  | cons e events ih =>
      intro s h henabled hcond
      exact ih (.step h henabled.1 hcond.1) henabled.2 hcond.2

/-- Enabled events lead from reachable states to reachable states. -/
theorem reachable_run {events : List ε} {s : σ} (h : m.Reachable s)
    (henabled : m.EnabledAlong events s) : m.Reachable (m.run events s) :=
  ReachableUnder.run h henabled (henabled.imp (fun _ _ _ => trivial))

/-- Two conditions that agree as long as the second one was met agree on every
run. -/
theorem along_iff_under {P Q : σ → ε → Prop}
    (hiff : ∀ s e, m.ReachableUnder Q s → m.enabled s e → (P s e ↔ Q s e)) {events : List ε} :
    ∀ {s : σ}, m.ReachableUnder Q s → m.EnabledAlong events s →
      (m.Along P events s ↔ m.Along Q events s) := by
  induction events with
  | nil =>
      intro s _ _
      exact Iff.rfl
  | cons e events ih =>
      intro s hs hrun
      have hhead := hiff s e hs hrun.1
      refine ⟨?_, ?_⟩
      · intro h
        have hq := hhead.mp h.1
        exact ⟨hq, (ih (.step hs hrun.1 hq) hrun.2).mp h.2⟩
      · intro h
        exact ⟨hhead.mpr h.1, (ih (.step hs hrun.1 h.1) hrun.2).mpr h.2⟩

/-- **From one event to a run.**  Two conditions that agree on every event a
reachable state allows agree on every run. -/
theorem along_iff {P Q : σ → ε → Prop}
    (hiff : ∀ s e, m.Reachable s → m.enabled s e → (P s e ↔ Q s e)) {events : List ε} :
    ∀ {s : σ}, m.Reachable s → m.EnabledAlong events s →
      (m.Along P events s ↔ m.Along Q events s) := by
  induction events with
  | nil =>
      intro s _ _
      exact Iff.rfl
  | cons e events ih =>
      intro s hs hrun
      have hhead := hiff s e hs hrun.1
      have htail := ih (.step hs hrun.1 trivial) hrun.2
      exact and_congr hhead htail

/-- **Running down a measure.**  If along a list of events, while a measure is positive, none
raises it and those that count lower it, then it is zero after some of the events, provided
that enough of them count. -/
theorem exists_prefix_zero {measure : σ → Nat} {counts : ε → Bool} {events : List ε} :
    ∀ {s : σ}, m.Along (fun s e => 0 < measure s → measure (m.next s e) ≤ measure s ∧
        (counts e = true → measure (m.next s e) < measure s)) events s →
      measure s ≤ events.countP counts →
        ∃ early, early <+: events ∧ measure (m.run early s) = 0 := by
  induction events with
  | nil =>
      intro s _ hle
      exact ⟨[], List.nil_prefix, Nat.le_zero.mp hle⟩
  | cons e events ih =>
      intro s hrun hle
      by_cases hzero : measure s = 0
      · exact ⟨[], List.nil_prefix, hzero⟩
      · obtain ⟨hfirst, hrest⟩ := hrun
        obtain ⟨hkept, hlower⟩ := hfirst (Nat.pos_of_ne_zero hzero)
        have hlater : measure (m.next s e) ≤ events.countP counts := by
          rw [List.countP_cons] at hle
          by_cases he : counts e = true
          · have hlt := hlower he
            rw [if_pos he] at hle
            omega
          · rw [if_neg he] at hle
            omega
        obtain ⟨early, hpre, hearly⟩ := ih hrest hlater
        exact ⟨e :: early, List.cons_prefix_cons.mpr ⟨rfl, hpre⟩, hearly⟩

end Machine

/-- What holds at the end and not at the start has held since some step. -/
theorem exists_since {p : Nat → Prop} {n : Nat} (hstart : ¬ p 0) :
    p n → ∃ i < n, ¬ p i ∧ ∀ k, i < k → k ≤ n → p k := by
  induction n with
  | zero =>
      intro hend
      exact absurd hend hstart
  | succ n ih =>
      intro hend
      by_cases hn : p n
      · obtain ⟨i, hi, hout, hsince⟩ := ih hn
        refine ⟨i, Nat.lt_succ_of_lt hi, hout, ?_⟩
        intro k hik hk
        rcases Nat.le_succ_iff.mp hk with hk | rfl
        · exact hsince k hik hk
        · exact hend
      · refine ⟨n, Nat.lt_succ_self n, hn, ?_⟩
        intro k hnk hk
        obtain rfl : k = n + 1 := by omega
        exact hend

end ReachableStates
