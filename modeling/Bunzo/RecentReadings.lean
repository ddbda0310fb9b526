import Mathlib

/-!
# The latest readings of a stream, and their median

* `popFrontTo` — drop the oldest entries of a queue until it has a given length.
* `popFrontTo_push` — a queue that is pushed to and cut back holds the latest
  entries of everything pushed.
* `upperMedian` — the middle of the sorted readings, the upper one if there are
  two.
* `upperMedian_splits` — half of the readings are on either side of it.
-/

namespace RecentReadings

variable {α : Type}

/-! ## Bounded queues -/

/-- Drop from the front while the queue is too long. -/
def popFrontTo (size : Nat) : List α → List α
  | [] => []
  | x :: xs => if size < (x :: xs).length then popFrontTo size xs else x :: xs

theorem popFrontTo_eq_rtake (size : Nat) (l : List α) : popFrontTo size l = l.rtake size := by
  induction l with
  | nil => rw [List.rtake_nil, popFrontTo]
  | cons x xs ih =>
      rw [popFrontTo, List.rtake]
      by_cases hlong : size < (x :: xs).length
      · have hdrop : (x :: xs).length - size = (xs.length - size) + 1 := by
          rw [List.length_cons] at hlong ⊢
          omega
        rw [if_pos hlong, ih, hdrop, List.drop_succ_cons, List.rtake]
      · rw [if_neg hlong, Nat.sub_eq_zero_of_le (Nat.le_of_not_lt hlong), List.drop_zero]

/-- Of the latest `size + 1` entries the latest `size` are taken. -/
theorem rtake_rtake_succ (size : Nat) (l : List α) :
    (l.rtake (size + 1)).rtake size = l.rtake size := by
  rw [List.rtake_eq_reverse_take_reverse, List.rtake_eq_reverse_take_reverse,
    List.rtake_eq_reverse_take_reverse, List.reverse_reverse, List.take_take, Nat.min_eq_left]
  exact Nat.le_succ size

/-- Cutting back a queue of the latest entries after a push. -/
theorem popFrontTo_push (size : Nat) (l : List α) (x : α) :
    popFrontTo size (l.rtake size ++ [x]) = (l ++ [x]).rtake size := by
  rw [popFrontTo_eq_rtake]
  cases size with
  | zero => rw [List.rtake_zero, List.rtake_zero]
  | succ size =>
      rw [List.rtake_concat_succ, List.rtake_concat_succ, rtake_rtake_succ]

theorem length_rtake_le (size : Nat) (l : List α) : (l.rtake size).length ≤ size := by
  rw [List.rtake, List.length_drop]
  omega

theorem rtake_sublist (size : Nat) (l : List α) : (l.rtake size).Sublist l :=
  List.drop_sublist _ l

/-- The newest entry is kept. -/
theorem getLast?_rtake {size : Nat} (hsize : 0 < size) (l : List α) :
    (l.rtake size).getLast? = l.getLast? := by
  rw [List.rtake, List.getLast?_drop]
  by_cases hnil : l = []
  · rw [hnil]
    simp
  · have hpos := List.length_pos_iff.mpr hnil
    rw [if_neg (by omega)]

/-! ## Medians -/

section Median

variable [LE α] [DecidableLE α]

/-- The entry in the middle of the sorted list. -/
def upperMedian (l : List α) : Option α := (l.insertionSort (· ≤ ·))[l.length / 2]?

/-- At least half of the readings are on either side of `m`, which is one of
them. -/
structure Splits (m : α) (l : List α) : Prop where
  mem : m ∈ l
  below : l.length ≤ 2 * l.countP (· ≤ m)
  above : l.length ≤ 2 * l.countP (m ≤ ·)

theorem upperMedian_isSome {l : List α} (h : l ≠ []) : (upperMedian l).isSome := by
  have hpos := List.length_pos_iff.mpr h
  unfold upperMedian
  rw [List.getElem?_eq_getElem (by rw [List.length_insertionSort]; omega)]
  rfl

omit [LE α] [DecidableLE α] in
/-- Part of a list counts at least as many as it has, if all of them count. -/
theorem length_le_countP {p : α → Bool} {part l : List α} (h : part.Sublist l)
    (hall : ∀ a ∈ part, p a = true) : part.length ≤ l.countP p := by
  rw [← List.countP_eq_length.mpr hall]
  exact h.countP_le

variable [Std.IsLinearPreorder α]

/-- **The median splits the readings.**  Of the sorted list the first half and the
middle are not above the middle, and the middle and the second half not below. -/
theorem upperMedian_splits {l : List α} {m : α} (h : upperMedian l = some m) : Splits m l := by
  have hsorted : (l.insertionSort (· ≤ ·)).Pairwise (· ≤ ·) := List.pairwise_insertionSort _ l
  have hperm : (l.insertionSort (· ≤ ·)).Perm l := List.perm_insertionSort _ l
  unfold upperMedian at h
  generalize l.insertionSort (· ≤ ·) = sorted at h hsorted hperm
  obtain ⟨hmid, rfl⟩ := List.getElem?_eq_some_iff.mp h
  have hlength := hperm.length_eq
  refine ⟨hperm.subset (List.getElem_mem hmid), ?_, ?_⟩
  · rw [← hperm.countP_eq]
    have hfirst : (sorted.take (l.length / 2 + 1)).length ≤
        sorted.countP (· ≤ sorted[l.length / 2]) := by
      apply length_le_countP (List.take_sublist _ _)
      intro a ha
      obtain ⟨i, hi, rfl⟩ := List.mem_take_iff_getElem.mp ha
      simp only [decide_eq_true_eq]
      rcases Nat.lt_or_ge i (l.length / 2) with hlt | hge
      · exact List.pairwise_iff_getElem.mp hsorted i _ _ hmid hlt
      · obtain rfl : i = l.length / 2 := by omega
        exact Std.le_refl _
    rw [List.length_take] at hfirst
    omega
  · rw [← hperm.countP_eq]
    have hsecond : (sorted.drop (l.length / 2)).length ≤
        sorted.countP (sorted[l.length / 2] ≤ ·) := by
      apply length_le_countP (List.drop_sublist _ _)
      intro a ha
      obtain ⟨i, hi, rfl⟩ := List.mem_drop_iff_getElem.mp ha
      simp only [decide_eq_true_eq]
      rcases Nat.eq_zero_or_pos i with rfl | hpos
      · exact Std.le_refl _
      · exact List.pairwise_iff_getElem.mp hsorted _ (l.length / 2 + i) hmid (by omega) (by omega)
    rw [List.length_drop] at hsecond
    omega

end Median

end RecentReadings
