import Mathlib

/-!
# Taking turns by a counter that wraps

Calls are numbered by a counter of a word of `wrap` values, and the call with the number `k`
goes to the place `k % places`.

* `turn` — whose turn it is at the `k`-th call.
* `nodup_turns` — as many calls as there are places go to different places, unless the
  counter wraps between them.
* `served_le` — one place is served at most once more than another, and once more for
  each time the counter has wrapped.
-/

namespace RoundRobin

variable {wrap places : Nat}

/-- The place of the `k`-th call. -/
def turn (wrap places k : Nat) : Nat := k % wrap % places

/-- How many of the first `m` calls go to a place. -/
def served (wrap places i m : Nat) : Nat := Nat.count (fun k => turn wrap places k = i) m

theorem nodup_turns {k : Nat} (hwrap : k % wrap + places ≤ wrap) :
    ((List.range places).map (fun d => turn wrap places (k + d))).Nodup := by
  apply List.Nodup.map_on _ List.nodup_range
  intro d hd d' hd' heq
  rw [List.mem_range] at hd hd'
  unfold turn at heq
  have hlow {e : Nat} (he : e < places) : (k + e) % wrap = k % wrap + e := by
    rw [← Nat.mod_add_mod, Nat.mod_eq_of_lt (by omega)]
  rw [hlow hd, hlow hd'] at heq
  have hmod : d ≡ d' [MOD places] := Nat.ModEq.add_left_cancel' (k % wrap) heq
  exact Nat.ModEq.eq_of_lt_of_lt hmod hd hd'

/-- Before the counter wraps. -/
theorem served_of_le (hplaces : 0 < places) {i m : Nat} (hi : i < places) (hm : m ≤ wrap) :
    served wrap places i m = m / places + if i < m % places then 1 else 0 := by
  have hcount := Nat.count_modEq_card m hplaces i
  rw [Nat.mod_eq_of_lt hi] at hcount
  rw [← hcount]
  unfold served
  rw [Nat.count_eq_card_filter_range, Nat.count_eq_card_filter_range]
  congr 1
  apply Finset.filter_congr
  intro k hk
  rw [Finset.mem_range] at hk
  unfold turn Nat.ModEq
  rw [Nat.mod_eq_of_lt (lt_of_lt_of_le hk hm), Nat.mod_eq_of_lt hi]

/-- Each time the counter wraps, the turns begin anew. -/
theorem served_wrapped (i r : Nat) :
    ∀ q, served wrap places i (wrap * q + r) =
      q * served wrap places i wrap + served wrap places i r := by
  intro q
  induction q with
  | zero => simp
  | succ q ih =>
      have hsplit : wrap * (q + 1) + r = wrap + (wrap * q + r) := by
        rw [Nat.mul_succ]
        omega
      have hagain : (fun k => turn wrap places (wrap + k) = i) =
          fun k => turn wrap places k = i := by
        funext k
        unfold turn
        rw [Nat.add_mod_left]
      unfold served at ih ⊢
      rw [hsplit, Nat.count_add]
      simp only [hagain]
      rw [ih, Nat.succ_mul]
      omega

/-- **Fair turns.** -/
theorem served_le (hwrap : 0 < wrap) (hplaces : 0 < places) {i j : Nat} (hi : i < places)
    (hj : j < places) (m : Nat) :
    served wrap places i m ≤ served wrap places j m + m / wrap + 1 := by
  have honce {r : Nat} (hr : r ≤ wrap) :
      served wrap places i r ≤ served wrap places j r + 1 := by
    rw [served_of_le hplaces hi hr, served_of_le hplaces hj hr]
    split <;> split <;> omega
  have hm := Nat.div_add_mod m wrap
  have hi' := @served_wrapped wrap places i (m % wrap) (m / wrap)
  have hj' := @served_wrapped wrap places j (m % wrap) (m / wrap)
  rw [hm] at hi' hj'
  have hwhole := Nat.mul_le_mul_left (m / wrap) (honce (Nat.le_refl wrap))
  have hrest := honce (Nat.mod_lt m hwrap).le
  rw [hi', hj']
  rw [Nat.mul_succ] at hwhole
  omega

end RoundRobin
