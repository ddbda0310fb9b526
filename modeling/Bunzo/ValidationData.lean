import Bunzo.ChainTypes

/-!
# Validation data

The entry point returns one word with an aggregator, or the mark of a failed
signature, and the times between which an operation is valid.  In the word of the
contract the aggregator is the low part; `parseValidationData` reads the times
there.

* `parse_pack` — what is read from a packed word.
* `parse_pack_iff` — for which words decoding undoes encoding.
-/

namespace Bunzo

open MachineWords

/-- Whether the signature failed, and the times from and until which an operation
is valid. -/
def parseValidationData (data : U256) : Bool × U64 × U64 :=
  let mask48 : U256 := 0xFFFFFFFFFFFF
  -- the masked values fit the narrower word
  let validAfter := (data &&& mask48).setWidth 64
  let shifted := data >>> 48
  let validUntil := (shifted &&& mask48).setWidth 64
  let sig := data >>> 160
  (sig == 1, validAfter, validUntil)

/-- The word as the contract packs it: the aggregator in the low 160 bits, the time
until which the operation is valid above it, and the time from which it is valid at
the top. -/
def packValidationData (aggregator : Address) (validUntil validAfter : BitVec 48) : U256 :=
  (validAfter ++ validUntil) ++ aggregator

section Fields

variable (aggregator : Address) (validUntil validAfter : BitVec 48)

/-- Masking keeps the low 48 bits. -/
theorem toNat_and_mask48 (data : U256) :
    ((data &&& (0xFFFFFFFFFFFF : U256)).setWidth 64).toNat = data.toNat % 2 ^ 48 := by
  have hmask : (0xFFFFFFFFFFFF : U256).toNat = 2 ^ 48 - 1 := rfl
  rw [BitVec.toNat_setWidth, BitVec.toNat_and, hmask, Nat.and_two_pow_sub_one_eq_mod]
  exact Nat.mod_eq_of_lt ((Nat.mod_lt _ (by decide)).trans (by decide))

theorem toNat_packValidationData :
    (packValidationData aggregator validUntil validAfter).toNat =
      (validAfter.toNat * 2 ^ 48 + validUntil.toNat) * 2 ^ 160 + aggregator.toNat := by
  unfold packValidationData
  exact (toNat_append (validAfter ++ validUntil) aggregator).trans
    (by rw [toNat_append validAfter validUntil])

/-- **What is read from a packed word.**  The times are the low bits of the
aggregator, and the mark of a failed signature depends on the times alone. -/
theorem parse_pack :
    parseValidationData (packValidationData aggregator validUntil validAfter) =
      (decide (validUntil = 1 ∧ validAfter = 0), (aggregator.extractLsb' 0 48).setWidth 64,
        (aggregator.extractLsb' 48 48).setWidth 64) := by
  have hagg := aggregator.isLt
  have huntil := validUntil.isLt
  have hafter := validAfter.isLt
  have hpack := toNat_packValidationData aggregator validUntil validAfter
  have hfield (start : Nat) : ((aggregator.extractLsb' start 48).setWidth 64).toNat =
      aggregator.toNat / 2 ^ start % 2 ^ 48 := by
    rw [BitVec.toNat_setWidth, BitVec.extractLsb'_toNat, Nat.shiftRight_eq_div_pow]
    exact Nat.mod_eq_of_lt ((Nat.mod_lt _ (by decide)).trans (by decide))
  refine Prod.ext ?_ (Prod.ext ?_ ?_)
  · change decide (packValidationData aggregator validUntil validAfter >>> 160 = 1) = _
    rw [decide_eq_decide, BitVec.toNat_eq, BitVec.toNat_ushiftRight, Nat.shiftRight_eq_div_pow,
      hpack, BitVec.toNat_eq, BitVec.toNat_eq]
    change (_ + _) / 2 ^ 160 = 1 ↔ validUntil.toNat = 1 ∧ validAfter.toNat = 0
    omega
  · apply BitVec.eq_of_toNat_eq
    refine (toNat_and_mask48 _).trans ?_
    rw [hfield, hpack]
    omega
  · apply BitVec.eq_of_toNat_eq
    refine (toNat_and_mask48 _).trans ?_
    rw [hfield, BitVec.toNat_ushiftRight, Nat.shiftRight_eq_div_pow, hpack]
    omega

/-- The aggregator field shows the times by chance, and neither it nor the times
look like the mark of a failed signature. -/
def ReadsBack : Prop :=
  aggregator ≠ 1 ∧ ¬ (validUntil = 1 ∧ validAfter = 0) ∧
    aggregator.extractLsb' 0 48 = validAfter ∧ aggregator.extractLsb' 48 48 = validUntil

/-- **Decoding undoes encoding** exactly if the low bits of the aggregator are the
times and no field is the mark of a failed signature; and a failed signature is
reported for one pair of times only. -/
theorem parse_pack_iff (aggregator : Address) (validUntil validAfter : BitVec 48) :
    (parseValidationData (packValidationData aggregator validUntil validAfter) =
        (decide (aggregator = 1), validAfter.setWidth 64, validUntil.setWidth 64) ↔
      ReadsBack aggregator validUntil validAfter) ∧
    ((parseValidationData (packValidationData 1 validUntil validAfter)).1 = true ↔
      validUntil = 1 ∧ validAfter = 0) := by
  have hwiden {x y : BitVec 48} : x.setWidth 64 = y.setWidth 64 ↔ x = y := by
    refine ⟨?_, fun h => h ▸ rfl⟩
    intro h
    have hnarrow := congrArg (BitVec.setWidth 48) h
    rwa [BitVec.setWidth_setWidth_of_le _ (by decide), BitVec.setWidth_setWidth_of_le _ (by decide),
      BitVec.setWidth_eq, BitVec.setWidth_eq] at hnarrow
  refine ⟨?_, ?_⟩
  · rw [parse_pack, Prod.mk.injEq, Prod.mk.injEq, hwiden, hwiden, decide_eq_decide]
    refine ⟨?_, ?_⟩
    · rintro ⟨hmark, hafter, huntil⟩
      have hnot : aggregator ≠ 1 := by
        rintro rfl
        -- the low bits of the mark are the time 1, but the mark asks for the time 0
        rw [← hafter] at hmark
        exact absurd (hmark.mpr rfl).2 (by decide)
      exact ⟨hnot, fun htimes => hnot (hmark.mp htimes), hafter, huntil⟩
    · rintro ⟨hnot, htimes, hafter, huntil⟩
      exact ⟨iff_of_false htimes hnot, hafter, huntil⟩
  · rw [parse_pack]
    exact decide_eq_true_iff

end Fields

/-- A failed signature without a limit in time reads as a good one that is valid
from the first second on. -/
theorem failed_signature_accepted :
    parseValidationData (packValidationData 1 0 0) = (false, 1, 0) := by
  decide

end Bunzo
