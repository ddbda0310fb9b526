import Bunzo.MachineWords

/-!
# Costs of byte strings

A byte string is paid for byte by byte, a zero at one price and any other byte at
another.  Two strings that differ in few places cost about the same.

* `Within` — strings of one length that differ in at most so many places; it adds
  up when strings are joined.
* `within_encodeTuple` — encoded tuples differ where their components do.
* `cost_le_of_within` — how far the costs of two such strings lie apart.
* `cost_encodeTuple_concat` — what another string at the end of a tuple costs.
* `byteCost_toNat` — the sum in a machine word is the exact one if it fits.
-/

namespace ByteCosts

open MachineWords

/-! ## Strings that differ in few places -/

/-- Strings of one length that differ in at most `n` places. -/
def Within (n : Nat) (xs ys : List Byte) : Prop :=
  xs.length = ys.length ∧ (xs.zip ys).countP (fun p => p.1 ≠ p.2) ≤ n

namespace Within

variable {m n : Nat} {xs ys xs' ys' : List Byte}

/-- A string differs from itself nowhere. -/
theorem refl (xs : List Byte) : Within 0 xs xs := by
  refine ⟨rfl, Nat.le_of_eq ?_⟩
  induction xs with
  | nil => rfl
  | cons x xs ih =>
      rw [List.zip_cons_cons, List.countP_cons_of_neg (by simp)]
      exact ih

/-- Places that differ do so either way. -/
theorem symm (h : Within n xs ys) : Within n ys xs := by
  refine ⟨h.1.symm, ?_⟩
  have hswap : ys.zip xs = (xs.zip ys).map Prod.swap := (List.zip_swap xs ys).symm
  rw [hswap, List.countP_map]
  refine le_trans (Nat.le_of_eq (List.countP_congr ?_)) h.2
  intro p _
  simp [ne_comm]

/-- Strings of one length differ in no more places than they have. -/
theorem of_length (hxs : xs.length = n) (hys : ys.length = n) : Within n xs ys := by
  refine ⟨hxs.trans hys.symm, List.countP_le_length.trans ?_⟩
  rw [List.length_zip, hxs, hys, Nat.min_self]

/-- Side by side, the places add up. -/
theorem append (h : Within m xs ys) (h' : Within n xs' ys') :
    Within (m + n) (xs ++ xs') (ys ++ ys') := by
  refine ⟨by rw [List.length_append, List.length_append, h.1, h'.1], ?_⟩
  rw [List.zip_append h.1, List.countP_append]
  exact Nat.add_le_add h.2 h'.2

/-- What stands before both strings does not matter. -/
theorem behind (h : Within n xs ys) (zs : List Byte) : Within n (zs ++ xs) (zs ++ ys) := by
  have hboth := (refl zs).append h
  rwa [Nat.zero_add] at hboth

/-- A bound may be raised. -/
theorem mono (h : Within m xs ys) (hle : m ≤ n) : Within n xs ys := ⟨h.1, h.2.trans hle⟩

/-- Padding adds no place. -/
theorem padRight (h : Within n xs ys) : Within n (MachineWords.padRight xs)
    (MachineWords.padRight ys) := by
  unfold MachineWords.padRight
  rw [h.1]
  exact h.append (refl _)

end Within

/-- The last digits of a number that has no more. -/
theorem toBeBytes_of_lt (m n x : Nat) (hx : x < 256 ^ n) :
    toBeBytes (m + n) x = List.replicate m 0 ++ toBeBytes n x := by
  induction n generalizing x with
  | zero =>
      obtain rfl : x = 0 := by simpa using hx
      have hzero (m : Nat) : toBeBytes m 0 = List.replicate m 0 := by
        induction m with
        | zero => rfl
        | succ m ih => rw [toBeBytes, Nat.zero_div, ih, List.replicate_succ']; rfl
      rw [Nat.add_zero, hzero, toBeBytes, List.append_nil]
  | succ n ih =>
      have hdiv : x / 256 < 256 ^ n := by
        rw [pow_succ] at hx
        omega
      rw [← Nat.add_assoc, toBeBytes, toBeBytes, ih _ hdiv, List.append_assoc]

/-- Small numbers differ in the low bytes of a word only. -/
theorem within_encodeWord {n x y : Nat} (hn : n ≤ 32) (hx : x < 256 ^ n) (hy : y < 256 ^ n) :
    Within n (encodeWord x) (encodeWord y) := by
  have hsplit : 32 = 32 - n + n := by omega
  unfold encodeWord
  rw [hsplit, toBeBytes_of_lt _ _ _ hx, toBeBytes_of_lt _ _ _ hy]
  have htail : Within n (toBeBytes n x) (toBeBytes n y) :=
    .of_length (length_toBeBytes n x) (length_toBeBytes n y)
  exact htail.behind _

/-! ## Tuples -/

/-- Components of one shape that differ in at most `n` bytes. -/
inductive Close : Nat → List Component → List Component → Prop
  | nil : Close 0 [] []
  | word {m n x y : Nat} {as bs : List Component} (hn : n ≤ 32) (hx : x < 256 ^ n)
      (hy : y < 256 ^ n) (h : Close m as bs) : Close (n + m) (.word x :: as) (.word y :: bs)
  | same {m : Nat} {as bs : List Component} (c : Component) (h : Close m as bs) :
      Close m (c :: as) (c :: bs)
  | bytes {m n : Nat} {xs ys : List Byte} {as bs : List Component} (hdata : Within n xs ys)
      (h : Close m as bs) : Close (n + m) (.bytes xs :: as) (.bytes ys :: bs)

/-- The offsets are the same, so that heads differ in words and tails in byte strings. -/
theorem Close.heads_tails {n : Nat} {as bs : List Component} (h : Close n as bs) :
    as.length = bs.length ∧ ∃ m₁ m₂, m₁ + m₂ = n ∧
      (∀ offset, Within m₁ (encodeHeads offset as) (encodeHeads offset bs)) ∧
      Within m₂ (as.flatMap Component.tail) (bs.flatMap Component.tail) := by
  induction h with
  | nil => exact ⟨rfl, 0, 0, rfl, fun _ => .refl _, .refl _⟩
  | @word m n x y as bs hn hx hy h ih =>
      obtain ⟨hlength, m₁, m₂, hsum, hheads, htails⟩ := ih
      refine ⟨congrArg Nat.succ hlength, n + m₁, m₂, by omega, ?_, htails⟩
      intro offset
      exact (within_encodeWord hn hx hy).append (hheads offset)
  | @same m as bs c h ih =>
      obtain ⟨hlength, m₁, m₂, hsum, hheads, htails⟩ := ih
      refine ⟨congrArg Nat.succ hlength, m₁, m₂, hsum, ?_, ?_⟩
      · intro offset
        cases c with
        | word value => exact (hheads offset).behind _
        | bytes data => exact (hheads _).behind _
      · exact htails.behind _
  | @bytes m n xs ys as bs hdata h ih =>
      obtain ⟨hlength, m₁, m₂, hsum, hheads, htails⟩ := ih
      have htail : Within n (Component.bytes xs).tail (Component.bytes ys).tail := by
        change Within n (encodeWord xs.length ++ MachineWords.padRight xs)
          (encodeWord ys.length ++ _)
        rw [hdata.1]
        exact hdata.padRight.behind _
      refine ⟨congrArg Nat.succ hlength, m₁, n + m₂, by omega, ?_, htail.append htails⟩
      intro offset
      unfold encodeHeads
      rw [htail.1]
      exact (hheads _).behind _

/-- **Encoded tuples** of one shape differ where their components do. -/
theorem within_encodeTuple {n : Nat} {as bs : List Component} (h : Close n as bs) :
    Within n (encodeTuple as) (encodeTuple bs) := by
  obtain ⟨hlength, m₁, m₂, rfl, hheads, htails⟩ := h.heads_tails
  unfold encodeTuple
  rw [hlength]
  exact (hheads _).append htails

/-- The heads do not depend on what the last byte string holds. -/
theorem encodeHeads_concat_bytes (cs : List Component) (xs ys : List Byte) (offset : Nat) :
    encodeHeads offset (cs ++ [.bytes xs]) = encodeHeads offset (cs ++ [.bytes ys]) := by
  induction cs generalizing offset with
  | nil => simp only [List.nil_append, encodeHeads]
  | cons c cs ih =>
      cases c with
      | word value =>
          rw [List.cons_append, List.cons_append, encodeHeads, encodeHeads, ih offset]
      | bytes data => rw [List.cons_append, List.cons_append, encodeHeads, encodeHeads, ih]

/-! ## Costs -/

/-- What the bytes cost, as an exact number. -/
def cost (zeroPrice nonZeroPrice : Nat) (bytes : List Byte) : Nat :=
  (bytes.map (fun b => if b = 0 then zeroPrice else nonZeroPrice)).sum

section Cost

variable {zeroPrice nonZeroPrice n : Nat} {xs ys : List Byte}

/-- Costs add up. -/
theorem cost_append (xs ys : List Byte) :
    cost zeroPrice nonZeroPrice (xs ++ ys) =
      cost zeroPrice nonZeroPrice xs + cost zeroPrice nonZeroPrice ys := by
  unfold cost
  rw [List.map_append, List.sum_append]

/-- Another string in the last place of a tuple makes a difference of the tails alone. -/
theorem cost_encodeTuple_concat (zeroPrice nonZeroPrice : Nat) (cs : List Component)
    (xs ys : List Byte) :
    cost zeroPrice nonZeroPrice (encodeTuple (cs ++ [.bytes xs])) +
        cost zeroPrice nonZeroPrice (Component.bytes ys).tail =
      cost zeroPrice nonZeroPrice (encodeTuple (cs ++ [.bytes ys])) +
        cost zeroPrice nonZeroPrice (Component.bytes xs).tail := by
  have htails (zs : List Byte) : (cs ++ [Component.bytes zs]).flatMap Component.tail =
      cs.flatMap Component.tail ++ (Component.bytes zs).tail := by
    rw [List.flatMap_append, List.flatMap_singleton]
  have hlength : (cs ++ [Component.bytes xs]).length = (cs ++ [Component.bytes ys]).length := by
    rw [List.length_append, List.length_append, List.length_singleton, List.length_singleton]
  unfold encodeTuple
  rw [hlength, encodeHeads_concat_bytes cs xs ys, htails xs, htails ys]
  simp only [cost_append]
  omega

/-- **Costs of similar strings.**  Each place in which they differ makes up for the
difference of the two prices at most. -/
theorem cost_le_of_within (h : Within n xs ys) :
    cost zeroPrice nonZeroPrice xs ≤
      cost zeroPrice nonZeroPrice ys + n * Nat.dist zeroPrice nonZeroPrice := by
  obtain ⟨hlength, hcount⟩ := h
  refine le_trans ?_ (Nat.add_le_add_left (Nat.mul_le_mul_right _ hcount) _)
  clear hcount
  induction xs generalizing ys with
  | nil => exact Nat.zero_le _
  | cons x xs ih =>
      cases ys with
      | nil => cases hlength
      | cons y ys =>
          have htail := ih (Nat.succ.inj hlength)
          unfold cost at htail ⊢
          rw [List.zip_cons_cons, List.map_cons, List.map_cons, List.sum_cons, List.sum_cons]
          by_cases hxy : x = y
          · rw [List.countP_cons_of_neg (by simp [hxy]), hxy]
            omega
          · have hstep : (if x = 0 then zeroPrice else nonZeroPrice) ≤
                (if y = 0 then zeroPrice else nonZeroPrice) +
                  Nat.dist zeroPrice nonZeroPrice := by
              unfold Nat.dist
              split <;> split <;> omega
            rw [List.countP_cons_of_pos (by simp [hxy]), Nat.succ_mul]
            omega

end Cost

/-- The same sum, as a machine computes it. -/
def byteCost {w : Nat} (zeroPrice nonZeroPrice : BitVec w) (bytes : List Byte) : BitVec w :=
  bytes.foldl (fun acc b => if b = 0 then acc + zeroPrice else acc + nonZeroPrice) 0

/-- The cost in a word is the cost, wrapped. -/
theorem byteCost_eq {w : Nat} (zeroPrice nonZeroPrice : BitVec w) (bytes : List Byte) :
    byteCost zeroPrice nonZeroPrice bytes =
      BitVec.ofNat w (cost zeroPrice.toNat nonZeroPrice.toNat bytes) := by
  have hword (x : BitVec w) : BitVec.ofNat w x.toNat = x := by
    rw [BitVec.ofNat_toNat, BitVec.setWidth_eq]
  have hadd := foldl_add_ofNat (w := w)
    (fun b : Byte => if b = 0 then zeroPrice.toNat else nonZeroPrice.toNat) bytes 0
  rw [Nat.zero_add, List.foldl_map] at hadd
  unfold byteCost cost
  rw [← hadd]
  congr 1
  funext acc b
  split <;> rw [hword]

/-- A cost that fits is not wrapped. -/
theorem byteCost_toNat {w : Nat} {zeroPrice nonZeroPrice : BitVec w} {bytes : List Byte}
    (hfits : cost zeroPrice.toNat nonZeroPrice.toNat bytes < 2 ^ w) :
    (byteCost zeroPrice nonZeroPrice bytes).toNat =
      cost zeroPrice.toNat nonZeroPrice.toNat bytes := by
  rw [byteCost_eq, BitVec.toNat_ofNat, Nat.mod_eq_of_lt hfits]

end ByteCosts
