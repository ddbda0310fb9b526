import Mathlib

/-!
# Machine words and their byte encodings

Unsigned machine integers are bit vectors: addition, multiplication and
division are those of the word, so they wrap as an optimised build does.  This
file adds what the word type itself lacks:

* minimum and maximum, the saturating and the checked operations;
* `toBeBytes` and `ofBeBytes` — big-endian byte strings of a given length,
  with the round trips `ofNat_ofBeBytes_toBeBytes` and
  `toBeBytes_ofNat_ofBeBytes`;
* `encodeTuple` — the head and tail layout in which a contract receives a
  tuple of word-sized and byte-string components;
* `encodeTuple_inj` — tuples of one shape are told apart by their encodings.
-/

namespace MachineWords

/-- Eight bits. -/
abbrev Byte := BitVec 8

section Arithmetic

variable {w : Nat}

instance minWord : Min (BitVec w) := minOfLe

instance maxWord : Max (BitVec w) := maxOfLe

/-- Addition that stops at the largest word. -/
def saturatingAdd (a b : BitVec w) : BitVec w :=
  if a.toNat + b.toNat < 2 ^ w then a + b else BitVec.allOnes w

/-- Subtraction that stops at zero. -/
def saturatingSub (a b : BitVec w) : BitVec w :=
  if b ≤ a then a - b else 0

/-- The sum, if it fits the word. -/
def checkedAdd (a b : BitVec w) : Option (BitVec w) :=
  if a.toNat + b.toNat < 2 ^ w then some (a + b) else none

/-- The product, if it fits the word. -/
def checkedMul (a b : BitVec w) : Option (BitVec w) :=
  if a.toNat * b.toNat < 2 ^ w then some (a * b) else none

/-- A sum that fits does not saturate. -/
theorem saturatingAdd_eq {a b : BitVec w} (h : a.toNat + b.toNat < 2 ^ w) :
    saturatingAdd a b = a + b :=
  if_pos h

/-- A saturating sum stops at the largest word. -/
theorem toNat_saturatingAdd (a b : BitVec w) :
    (saturatingAdd a b).toNat = min (a.toNat + b.toNat) (2 ^ w - 1) := by
  unfold saturatingAdd
  split
  · next hlt =>
      rw [BitVec.toNat_add, Nat.mod_eq_of_lt hlt]
      omega
  · rw [BitVec.toNat_allOnes]
    omega

/-- A saturating difference is no larger than what it is taken from. -/
theorem saturatingSub_le (a b : BitVec w) : saturatingSub a b ≤ a := by
  unfold saturatingSub
  split
  · next hle =>
      rw [BitVec.le_def, BitVec.toNat_sub_of_le hle]
      exact Nat.sub_le _ _
  · exact Nat.zero_le _

/-- Only zero is left as it is when something is taken from it. -/
theorem saturatingSub_eq_self {a b : BitVec w} : saturatingSub a b = a ↔ a = 0 ∨ b = 0 := by
  unfold saturatingSub
  split
  · next hle =>
      rw [sub_eq_self]
      refine ⟨?_, ?_⟩
      · exact Or.inr
      · intro h
        rcases h with h | h
        · rw [h] at hle
          exact BitVec.le_zero_iff.mp hle
        · exact h
  · next hlt =>
      have hb : b ≠ 0 := by
        intro h
        rw [h] at hlt
        exact hlt (Nat.zero_le _)
      rw [eq_comm, or_iff_left hb]

/-- A sum that fits does not wrap. -/
theorem toNat_add_of_lt {a b : BitVec w} (h : a.toNat + b.toNat < 2 ^ w) :
    (a + b).toNat = a.toNat + b.toNat := by
  rw [BitVec.toNat_add, Nat.mod_eq_of_lt h]

/-- Nor does a product that fits. -/
theorem toNat_mul_of_lt {a b : BitVec w} (h : a.toNat * b.toNat < 2 ^ w) :
    (a * b).toNat = a.toNat * b.toNat := by
  rw [BitVec.toNat_mul, Nat.mod_eq_of_lt h]

/-- A checked sum is answered exactly if it fits. -/
theorem checkedAdd_isSome {a b : BitVec w} :
    (checkedAdd a b).isSome ↔ a.toNat + b.toNat < 2 ^ w := by
  unfold checkedAdd
  split
  · next h => exact iff_of_true rfl h
  · next h => exact iff_of_false (by simp) h

/-- The smaller word has the smaller value. -/
theorem toNat_min (a b : BitVec w) : (min a b).toNat = min a.toNat b.toNat := by
  change (if a ≤ b then a else b).toNat = _
  split
  · next h => exact (Nat.min_eq_left h).symm
  · next h => exact (Nat.min_eq_right (Nat.le_of_not_le h)).symm

/-- The larger word has the larger value. -/
theorem toNat_max (a b : BitVec w) : (max a b).toNat = max a.toNat b.toNat := by
  change (if a ≤ b then b else a).toNat = _
  split
  · next h => exact (Nat.max_eq_right h).symm
  · next h => exact (Nat.max_eq_left (Nat.le_of_not_le h)).symm

/-- Adding up words is adding up numbers. -/
theorem foldl_add_ofNat {α : Type} (f : α → Nat) (l : List α) :
    ∀ acc : Nat, (l.map (fun a => BitVec.ofNat w (f a))).foldl (· + ·) (BitVec.ofNat w acc) =
      BitVec.ofNat w (acc + (l.map f).sum) := by
  induction l with
  | nil =>
      intro acc
      rfl
  | cons a l ih =>
      intro acc
      rw [List.map_cons, List.foldl_cons, ← BitVec.ofNat_add, ih, List.map_cons, List.sum_cons,
        Nat.add_assoc]

/-- Words side by side: the left one counts in units of the right one's range. -/
theorem toNat_append {m n : Nat} (x : BitVec m) (y : BitVec n) :
    (x ++ y).toNat = x.toNat * 2 ^ n + y.toNat := by
  rw [BitVec.toNat_append, ← Nat.shiftLeft_add_eq_or_of_lt y.isLt, Nat.shiftLeft_eq]

end Arithmetic

section Bytes

/-- The last `n` base-256 digits of `x`, most significant first. -/
def toBeBytes : Nat → Nat → List Byte
  | 0, _ => []
  | n + 1, x => toBeBytes n (x / 256) ++ [BitVec.ofNat 8 x]

/-- The number a big-endian byte string stands for. -/
def ofBeBytes (bytes : List Byte) : Nat :=
  bytes.foldl (fun acc b => acc * 256 + b.toNat) 0

/-- A number is written in as many bytes as are asked for. -/
@[simp] theorem length_toBeBytes (n x : Nat) : (toBeBytes n x).length = n := by
  induction n generalizing x with
  | zero => rfl
  | succ n ih => simp [toBeBytes, ih]

/-- A further byte is the lowest digit. -/
theorem ofBeBytes_append_singleton (bytes : List Byte) (b : Byte) :
    ofBeBytes (bytes ++ [b]) = ofBeBytes bytes * 256 + b.toNat := by
  simp [ofBeBytes]

/-- Reading back `n` digits gives the number below `256 ^ n`. -/
theorem ofBeBytes_toBeBytes (n x : Nat) : ofBeBytes (toBeBytes n x) = x % 256 ^ n := by
  induction n generalizing x with
  | zero => simp [toBeBytes, ofBeBytes, Nat.mod_one]
  | succ n ih =>
      have hdigit : (BitVec.ofNat 8 x).toNat = x % 256 := by simp
      rw [toBeBytes, ofBeBytes_append_singleton, ih, hdigit, pow_succ', Nat.mod_mul]
      ring

/-- So many bytes hold no larger number. -/
theorem ofBeBytes_lt (bytes : List Byte) : ofBeBytes bytes < 256 ^ bytes.length := by
  induction bytes using List.reverseRecOn with
  | nil => simp [ofBeBytes]
  | append_singleton bytes b ih =>
      have hb : b.toNat < 256 := b.isLt
      rw [ofBeBytes_append_singleton, List.length_append, List.length_singleton, pow_succ]
      omega

/-- Writing back as many digits as were read gives the byte string. -/
theorem toBeBytes_ofBeBytes (bytes : List Byte) :
    toBeBytes bytes.length (ofBeBytes bytes) = bytes := by
  induction bytes using List.reverseRecOn with
  | nil => rfl
  | append_singleton bytes b ih =>
      have hb : b.toNat < 256 := b.isLt
      have hrest : (ofBeBytes bytes * 256 + b.toNat) / 256 = ofBeBytes bytes := by omega
      have hdigit : BitVec.ofNat 8 (ofBeBytes bytes * 256 + b.toNat) = b := by
        apply BitVec.eq_of_toNat_eq
        rw [BitVec.toNat_ofNat]
        omega
      rw [ofBeBytes_append_singleton, List.length_append, List.length_singleton, toBeBytes, hrest,
        hdigit, ih]

/-- A word read back from its bytes. -/
theorem ofNat_ofBeBytes_toBeBytes {w n : Nat} (hw : w = 8 * n) (x : BitVec w) :
    BitVec.ofNat w (ofBeBytes (toBeBytes n x.toNat)) = x := by
  have hpow : 256 ^ n = 2 ^ w := by rw [hw, pow_mul]; rfl
  rw [ofBeBytes_toBeBytes, hpow, Nat.mod_eq_of_lt x.isLt, BitVec.ofNat_toNat, BitVec.setWidth_eq]

/-- Words are told apart by their bytes. -/
theorem toBeBytes_inj {w n : Nat} (hw : w = 8 * n) {x y : BitVec w}
    (h : toBeBytes n x.toNat = toBeBytes n y.toNat) : x = y := by
  rw [← ofNat_ofBeBytes_toBeBytes hw x, h, ofNat_ofBeBytes_toBeBytes hw y]

/-- The bytes of a word that was read from bytes. -/
theorem toBeBytes_ofNat_ofBeBytes {w n : Nat} (hw : w = 8 * n) {bytes : List Byte}
    (hlength : bytes.length = n) :
    toBeBytes n (BitVec.ofNat w (ofBeBytes bytes)).toNat = bytes := by
  have hpow : 256 ^ n = 2 ^ w := by rw [hw, pow_mul]; rfl
  have hlt := ofBeBytes_lt bytes
  rw [hlength, hpow] at hlt
  rw [BitVec.toNat_ofNat, Nat.mod_eq_of_lt hlt, ← hlength, toBeBytes_ofBeBytes]

end Bytes

section Layout

/-- One component of an encoded tuple: a value that fits a word, or a byte
string of any length. -/
inductive Component where
  | word (value : Nat)
  | bytes (data : List Byte)

/-- A value as one 32-byte word. -/
def encodeWord (value : Nat) : List Byte := toBeBytes 32 value

/-- A word takes 32 bytes. -/
@[simp] theorem length_encodeWord (value : Nat) : (encodeWord value).length = 32 :=
  length_toBeBytes 32 value

/-- Fill up with zero bytes to a whole number of words. -/
def padRight (data : List Byte) : List Byte :=
  data ++ List.replicate ((32 - data.length % 32) % 32) 0

/-- The tail of a component: nothing for a word, length and data for a byte
string. -/
def Component.tail : Component → List Byte
  | .word _ => []
  | .bytes data => encodeWord data.length ++ padRight data

/-- The heads, when the tails start `offset` bytes into the encoding: a word
stands in its head, a byte string leaves the offset of its tail there. -/
def encodeHeads : Nat → List Component → List Byte
  | _, [] => []
  | offset, .word value :: rest => encodeWord value ++ encodeHeads offset rest
  | offset, .bytes data :: rest =>
      encodeWord offset ++ encodeHeads (offset + (Component.bytes data).tail.length) rest

/-- All heads, one word each, then all tails. -/
def encodeTuple (components : List Component) : List Byte :=
  encodeHeads (32 * components.length) components ++ components.flatMap Component.tail

/-- Every component has one word at the front. -/
theorem length_encodeHeads (offset : Nat) (components : List Component) :
    (encodeHeads offset components).length = 32 * components.length := by
  induction components generalizing offset with
  | nil => rfl
  | cons c rest ih =>
      cases c with
      | word value => simp only [encodeHeads, List.length_append, length_encodeWord, ih,
          List.length_cons]; omega
      | bytes data => simp only [encodeHeads, List.length_append, length_encodeWord, ih,
          List.length_cons]; omega

end Layout

section Injectivity

/-- Two words, or two byte strings. -/
def Component.Alike : Component → Component → Prop
  | .word _, .word _ => True
  | .bytes _, .bytes _ => True
  | _, _ => False

/-- The value, or the length, fits one word. -/
def Component.Fits : Component → Prop
  | .word value => value < 2 ^ 256
  | .bytes data => data.length < 2 ^ 256

/-- A number below the range of a word is told by its bytes. -/
theorem encodeWord_inj {a b : Nat} (ha : a < 2 ^ 256) (hb : b < 2 ^ 256)
    (h : encodeWord a = encodeWord b) : a = b := by
  have hpow : 256 ^ 32 = 2 ^ 256 := by decide
  have hread := congrArg ofBeBytes h
  unfold encodeWord at hread
  rwa [ofBeBytes_toBeBytes, ofBeBytes_toBeBytes, hpow, Nat.mod_eq_of_lt ha,
    Nat.mod_eq_of_lt hb] at hread

/-- Padding depends on the length only. -/
theorem length_padRight {a b : List Byte} (h : a.length = b.length) :
    (padRight a).length = (padRight b).length := by
  simp only [padRight, List.length_append, List.length_replicate, h]

/-- Data of one length is told by its padded bytes. -/
theorem padRight_inj {a b : List Byte} (hlength : a.length = b.length)
    (h : padRight a = padRight b) : a = b :=
  List.append_inj_left h hlength

/-- Heads and tails together determine the components; the offsets in the heads
are not needed. -/
theorem components_inj {as bs : List Component} (hshape : List.Forall₂ Component.Alike as bs) :
    ∀ {m n : Nat}, (∀ a ∈ as, a.Fits) → (∀ b ∈ bs, b.Fits) →
      encodeHeads m as = encodeHeads n bs →
      as.flatMap Component.tail = bs.flatMap Component.tail → as = bs := by
  induction hshape with
  | nil =>
      intro m n _ _ _ _
      rfl
  | @cons a b as bs hab hshape ih =>
      intro m n hfa hfb hheads htails
      have ha := hfa a List.mem_cons_self
      have hb := hfb b List.mem_cons_self
      have hfa' := fun c hc => hfa c (List.mem_cons_of_mem a hc)
      have hfb' := fun c hc => hfb c (List.mem_cons_of_mem b hc)
      rw [List.flatMap_cons, List.flatMap_cons] at htails
      cases a with
      | word value =>
          cases b with
          | bytes data => exact hab.elim
          | word value' =>
              obtain ⟨hword, hrest⟩ := List.append_inj hheads (by simp)
              rw [encodeWord_inj ha hb hword, ih hfa' hfb' hrest htails]
      | bytes data =>
          cases b with
          | word value => exact hab.elim
          | bytes data' =>
              obtain ⟨_, hrest⟩ := List.append_inj hheads (by simp)
              simp only [Component.tail, List.append_assoc] at htails
              obtain ⟨hword, htails⟩ := List.append_inj htails (by simp)
              have hlength : data.length = data'.length := encodeWord_inj ha hb hword
              obtain ⟨hdata, htails⟩ := List.append_inj htails (length_padRight hlength)
              rw [padRight_inj hlength hdata, ih hfa' hfb' hrest htails]

/-- **No ambiguity.**  Two tuples of one shape with one encoding are equal. -/
theorem encodeTuple_inj {as bs : List Component} (hshape : List.Forall₂ Component.Alike as bs)
    (hfa : ∀ a ∈ as, a.Fits) (hfb : ∀ b ∈ bs, b.Fits) (h : encodeTuple as = encodeTuple bs) :
    as = bs := by
  obtain ⟨hheads, htails⟩ := List.append_inj h (by
    rw [length_encodeHeads, length_encodeHeads, hshape.length_eq])
  exact components_inj hshape hfa hfb hheads htails

end Injectivity

end MachineWords
