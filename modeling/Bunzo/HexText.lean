import Mathlib.Data.List.Basic
import Mathlib.Data.List.TakeWhile

/-!
# Hexadecimal digits in free text

A text is a list of characters.  Two things are done with it here:

* `afterFirst` — what stands behind the first occurrence of a pattern, and how
  that depends on what is written before and behind;
* `encode` and `decode` — bytes as pairs of digits, with the round trip
  `decode_encode`.
-/

namespace HexText

/-! ## The first occurrence of a pattern -/

section AfterFirst

variable {α : Type} [DecidableEq α] {pat u v t : List α}

/-- The text behind the first occurrence. -/
def afterFirst (pat : List α) : List α → Option (List α)
  | [] => if pat = [] then some [] else none
  | c :: cs =>
      if pat <+: c :: cs then some ((c :: cs).drop pat.length)
      else afterFirst pat cs

/-- What follows a pattern is shorter than the whole, at least by the pattern. -/
theorem afterFirst_length (h : afterFirst pat t = some v) : pat.length + v.length ≤ t.length := by
  induction t with
  | nil =>
      by_cases hnil : pat = []
      · rw [afterFirst, if_pos hnil] at h
        obtain rfl := Option.some.inj h
        simp [hnil]
      · rw [afterFirst, if_neg hnil] at h
        cases h
  | cons c cs ih =>
      by_cases hhere : pat <+: c :: cs
      · rw [afterFirst, if_pos hhere] at h
        obtain rfl := Option.some.inj h
        have hle := hhere.length_le
        rw [List.length_drop]
        omega
      · rw [afterFirst, if_neg hhere] at h
        exact (ih h).trans (Nat.le_succ _)

/-- Nothing follows a pattern that does not occur. -/
theorem afterFirst_eq_none_iff : afterFirst pat t = none ↔ ¬ pat <:+: t := by
  induction t with
  | nil => simp [afterFirst]
  | cons c cs ih =>
      rw [List.infix_cons_iff, afterFirst]
      by_cases hhere : pat <+: c :: cs
      · simp [hhere]
      · rw [if_neg hhere, ih, or_iff_right hhere]

/-- A later addition to the text does not move the first occurrence. -/
theorem afterFirst_append (h : afterFirst pat u = some v) (t : List α) :
    afterFirst pat (u ++ t) = some (v ++ t) := by
  induction u with
  | nil =>
      by_cases hnil : pat = []
      · rw [afterFirst, if_pos hnil] at h
        obtain rfl := Option.some.inj h
        cases t <;> simp [afterFirst, hnil]
      · rw [afterFirst, if_neg hnil] at h
        cases h
  | cons c cs ih =>
      rw [List.cons_append, afterFirst]
      by_cases hhere : pat <+: c :: cs
      · rw [afterFirst, if_pos hhere] at h
        obtain rfl := Option.some.inj h
        rw [← List.cons_append, if_pos (hhere.trans (List.prefix_append _ t)),
          List.drop_append_of_le_length hhere.length_le]
      · rw [afterFirst, if_neg hhere] at h
        -- an occurrence this early would lie within the old text
        have hnot : ¬ pat <+: c :: (cs ++ t) := by
          intro hearly
          have hlength := afterFirst_length h
          exact hhere (List.prefix_of_prefix_length_le hearly (List.prefix_append (c :: cs) t)
            (by rw [List.length_cons]; omega))
        rw [if_neg hnot]
        exact ih h

/-- Text that does not reach into the pattern is skipped. -/
theorem afterFirst_append_self (h : ¬ pat <:+: u ++ pat.dropLast) (t : List α) :
    afterFirst pat (u ++ (pat ++ t)) = some t := by
  induction u with
  | nil =>
      cases pat with
      | nil => exact absurd (List.nil_infix) h
      | cons p ps =>
          rw [List.nil_append, List.cons_append, afterFirst, ← List.cons_append,
            if_pos (List.prefix_append _ t), List.drop_left]
  | cons c cs ih =>
      rw [List.cons_append, List.infix_cons_iff, not_or] at h
      obtain ⟨hnot, hrest⟩ := h
      have hnow : ¬ pat <+: c :: (cs ++ (pat ++ t)) := by
        intro hearly
        refine hnot (List.prefix_of_prefix_length_le hearly ?_ ?_)
        · rw [← List.cons_append, ← List.cons_append]
          exact (List.prefix_append_right_inj _).mpr
            ((List.dropLast_prefix pat).trans (List.prefix_append pat t))
        · rw [List.length_cons, List.length_append, List.length_dropLast]
          omega
      rw [List.cons_append, afterFirst, if_neg hnow]
      exact ih hrest

/-- The first occurrence, as a position. -/
theorem exists_of_afterFirst (h : afterFirst pat t = some v) :
    ∃ i ≤ t.length, pat <+: t.drop i ∧ v = t.drop (i + pat.length) := by
  induction t with
  | nil =>
      by_cases hnil : pat = []
      · rw [afterFirst, if_pos hnil] at h
        obtain rfl := Option.some.inj h
        exact ⟨0, Nat.le_refl _, by simp [hnil], by simp⟩
      · rw [afterFirst, if_neg hnil] at h
        cases h
  | cons c cs ih =>
      by_cases hhere : pat <+: c :: cs
      · rw [afterFirst, if_pos hhere] at h
        obtain rfl := Option.some.inj h
        exact ⟨0, Nat.zero_le _, hhere, by rw [Nat.zero_add]⟩
      · rw [afterFirst, if_neg hhere] at h
        obtain ⟨i, hi, hpat, hv⟩ := ih h
        refine ⟨i + 1, Nat.succ_le_succ hi, hpat, ?_⟩
        rw [hv, Nat.add_right_comm, List.drop_succ_cons]

end AfterFirst

/-- A text of one kind of characters ends where another kind begins. -/
theorem takeWhile_append_of_stop {α : Type} {p : α → Bool} {body rest : List α}
    (hbody : ∀ c ∈ body, p c = true) (hrest : ∀ c, rest.head? = some c → p c = false) :
    (body ++ rest).takeWhile p = body := by
  rw [List.takeWhile_append_of_pos hbody]
  cases rest with
  | nil => simp
  | cons c cs => simp [hrest c rfl]

/-! ## Digits -/

/-- The value of a digit, in either case. -/
def hexVal (c : Char) : Option (BitVec 4) :=
  if '0' ≤ c ∧ c ≤ '9' then some (BitVec.ofNat 4 (c.toNat - '0'.toNat))
  else if 'a' ≤ c ∧ c ≤ 'f' then some (BitVec.ofNat 4 (c.toNat - 'a'.toNat + 10))
  else if 'A' ≤ c ∧ c ≤ 'F' then some (BitVec.ofNat 4 (c.toNat - 'A'.toNat + 10))
  else none

/-- Digits are the characters that have a value. -/
def isHexDigit (c : Char) : Bool := (hexVal c).isSome

/-- The lower-case digit of a value. -/
def hexDigit (n : BitVec 4) : Char :=
  ['0', '1', '2', '3', '4', '5', '6', '7', '8', '9', 'a', 'b', 'c', 'd', 'e', 'f'].get n.toFin

/-- A value is read back from its digit. -/
theorem hexVal_hexDigit : ∀ n : BitVec 4, hexVal (hexDigit n) = some n := by decide

/-- What is written are digits. -/
theorem isHexDigit_hexDigit (n : BitVec 4) : isHexDigit (hexDigit n) = true := by
  rw [isHexDigit, hexVal_hexDigit]
  rfl

/-- Both digits of a byte, the high one first. -/
def bytePair (b : BitVec 8) : List Char :=
  [hexDigit (b.extractLsb' 4 4), hexDigit (b.extractLsb' 0 4)]

/-- Two digits a byte. -/
def encode (bytes : List (BitVec 8)) : List Char := bytes.flatMap bytePair

/-- Digits in pairs; an odd one, or anything else, is refused. -/
def decode : List Char → Option (List (BitVec 8))
  | [] => some []
  | [_] => none
  | high :: low :: rest => do
      let x ← hexVal high
      let y ← hexVal low
      let bytes ← decode rest
      return (x ++ y) :: bytes

section Encode

variable (bytes : List (BitVec 8))

/-- The text has two digits a byte. -/
theorem length_encode : (encode bytes).length = 2 * bytes.length := by
  induction bytes with
  | nil => rfl
  | cons b bs ih =>
      rw [encode, List.flatMap_cons, List.length_append, ← encode, ih, List.length_cons]
      simp only [bytePair, List.length_cons, List.length_nil]
      omega

/-- And nothing but digits. -/
theorem isHexDigit_of_mem_encode {c : Char} (h : c ∈ encode bytes) : isHexDigit c = true := by
  obtain ⟨b, _, hc⟩ := List.mem_flatMap.mp h
  rw [bytePair, List.mem_pair] at hc
  rcases hc with rfl | rfl <;> exact isHexDigit_hexDigit _

/-- **Round trip.**  The digits of a byte string read back as that byte string. -/
theorem decode_encode : decode (encode bytes) = some bytes := by
  induction bytes with
  | nil => rfl
  | cons b bs ih =>
      have hbyte : b.extractLsb' 4 4 ++ b.extractLsb' 0 4 = b :=
        (BitVec.extractLsb'_append_extractLsb'_eq_extractLsb' rfl).trans
          BitVec.extractLsb'_eq_self
      rw [encode, List.flatMap_cons, ← encode]
      simp only [bytePair, List.cons_append, List.nil_append, decode, hexVal_hexDigit, ih,
        Option.bind_eq_bind, Option.bind_some, hbyte]
      rfl

end Encode

end HexText
