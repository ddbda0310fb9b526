import Bunzo.MachineWords

/-!
# Codecs of nested values

A contract receives its arguments as bytes.  A value of fixed size stands in its
place; any other leaves an offset there and stands behind all places.  A `Codec`
writes and reads the values of one type, a `Layout` those of several fields side
by side, and both carry the proof that what is written is read back, whatever
follows it.

* `Codec.word`, `Codec.bytes`, `Codec.via` — single values.
* `Layout.cons`, `Layout.elements` — fields of different types, and of one type.
* `Codec.tuple`, `Codec.array` — so that values nest to any depth.
-/

namespace AbiCodec

open MachineWords

/-! ## Words in a buffer -/

/-- The number in the first 32 bytes. -/
def readWord (buf : List Byte) : Option Nat :=
  if 32 ≤ buf.length then some (ofBeBytes (buf.take 32)) else none

/-- A word that a buffer begins with is read from it. -/
theorem readWord_of_startsWith {buf : List Byte} {value : Nat} (hvalue : value < 2 ^ 256)
    (h : encodeWord value <+: buf) : readWord buf = some value := by
  obtain ⟨rest, rfl⟩ := h
  have hpow : 256 ^ 32 = 2 ^ 256 := by decide
  have hread : ofBeBytes (encodeWord value) = value := by
    unfold encodeWord
    rw [ofBeBytes_toBeBytes, hpow, Nat.mod_eq_of_lt hvalue]
  unfold readWord
  rw [if_pos (by simp), List.take_left' (length_encodeWord value), hread]

/-- Padded data fills whole words. -/
theorem dvd_length_padRight (data : List Byte) : 32 ∣ (padRight data).length := by
  unfold padRight
  rw [List.length_append, List.length_replicate]
  omega

/-- Padding loses nothing. -/
theorem length_le_padRight (data : List Byte) : data.length ≤ (padRight data).length := by
  unfold padRight
  rw [List.length_append]
  exact Nat.le_add_right _ _

/-- What a prefix begins with, the buffer begins with. -/
theorem prefix_of_append {l m buf : List Byte} (h : l ++ m <+: buf) :
    l <+: buf ∧ m <+: buf.drop l.length := by
  obtain ⟨rest, rfl⟩ := h
  refine ⟨⟨m ++ rest, by rw [List.append_assoc]⟩, rest, ?_⟩
  rw [List.append_assoc, List.drop_left]

/-! ## Codecs -/

/-- How the values of a type are written and read.  The size is that of a value
which stands in its place; there is none if the length varies. -/
structure Codec (α : Type) where
  size : Option Nat
  encode : α → List Byte
  decode : List Byte → Option α
  length_encode : ∀ n, size = some n → ∀ a, (encode a).length = n
  aligned : ∀ a, 32 ∣ (encode a).length
  decode_of_startsWith : ∀ a buf, (encode a).length < 2 ^ 256 → encode a <+: buf →
    decode buf = some a

namespace Codec

variable {α β : Type}

/-- What a value takes in its place: itself, or an offset. -/
def headSize (c : Codec α) : Nat := c.size.getD 32

/-- **Round trip.** -/
theorem decode_encode (c : Codec α) {a : α} (h : (c.encode a).length < 2 ^ 256) :
    c.decode (c.encode a) = some a :=
  c.decode_of_startsWith a _ h (List.prefix_refl _)

/-! ### Single values -/

/-- A word is read back, whatever follows it. -/
theorem encodeWord_of_word {buf : List Byte} (x : BitVec 256)
    (h : encodeWord x.toNat <+: buf) :
    (readWord buf).map (BitVec.ofNat 256) = some x := by
  rw [readWord_of_startsWith x.isLt h, Option.map_some, BitVec.ofNat_toNat, BitVec.setWidth_eq]

/-- A word, big-endian. -/
def word : Codec (BitVec 256) where
  size := some 32
  encode x := encodeWord x.toNat
  decode buf := (readWord buf).map (BitVec.ofNat 256)
  length_encode _ hn x := (length_encodeWord x.toNat).trans (Option.some.inj hn)
  aligned x := ⟨1, length_encodeWord x.toNat⟩
  decode_of_startsWith x _ _ h := encodeWord_of_word x h

/-- A length and that many bytes, filled up to whole words. -/
def encodeBytes (data : List Byte) : List Byte := encodeWord data.length ++ padRight data

/-- As many bytes as the length says. -/
def decodeBytes (buf : List Byte) : Option (List Byte) := do
  let n ← readWord buf
  if n ≤ (buf.drop 32).length then some ((buf.drop 32).take n) else none

/-- The length and the padded data are whole words. -/
theorem dvd_length_encodeBytes (data : List Byte) : 32 ∣ (encodeBytes data).length := by
  unfold encodeBytes
  rw [List.length_append, length_encodeWord]
  exact Nat.dvd_add (Nat.dvd_refl 32) (dvd_length_padRight data)

/-- Data is read back by its length, whatever follows it. -/
theorem decodeBytes_of_startsWith (data buf : List Byte)
    (hfits : (encodeBytes data).length < 2 ^ 256) (h : encodeBytes data <+: buf) :
    decodeBytes buf = some data := by
  have hle : data.length ≤ (encodeBytes data).length := by
    unfold encodeBytes
    rw [List.length_append]
    exact (length_le_padRight data).trans (Nat.le_add_left _ _)
  obtain ⟨hlength, hbody⟩ := prefix_of_append h
  rw [length_encodeWord] at hbody
  have hdata : data <+: buf.drop 32 := (List.prefix_append _ _).trans hbody
  unfold decodeBytes
  rw [readWord_of_startsWith (lt_of_le_of_lt hle hfits) hlength, Option.bind_eq_bind,
    Option.bind_some, if_pos hdata.length_le, ← List.prefix_iff_eq_take.mp hdata]

/-- A byte string. -/
def bytes : Codec (List Byte) where
  size := none
  encode := encodeBytes
  decode := decodeBytes
  length_encode _ hn := nomatch hn
  aligned := dvd_length_encodeBytes
  decode_of_startsWith := decodeBytes_of_startsWith

/-- Values that are written as others; not every other value stands for one. -/
def via (c : Codec α) (read : α → Option β) (write : β → α) (h : ∀ b, read (write b) = some b) :
    Codec β where
  size := c.size
  encode b := c.encode (write b)
  decode buf := (c.decode buf).bind read
  length_encode n hn b := c.length_encode n hn (write b)
  aligned b := c.aligned (write b)
  decode_of_startsWith b buf hfits hpre := by
    rw [c.decode_of_startsWith (write b) buf hfits hpre, Option.bind_some, h b]

/-- A narrower word is found again in one of 256 bits. -/
theorem narrow_setWidth {w : Nat} (hw : w ≤ 256) (x : BitVec w) :
    (if (x.setWidth 256).toNat < 2 ^ w then some ((x.setWidth 256).setWidth w) else none) =
      some x := by
  have hx : (x.setWidth 256).toNat = x.toNat := by
    rw [BitVec.toNat_setWidth]
    exact Nat.mod_eq_of_lt (x.isLt.trans_le (Nat.pow_le_pow_right (by decide) hw))
  rw [if_pos (by rw [hx]; exact x.isLt), BitVec.setWidth_setWidth_of_le x hw, BitVec.setWidth_eq]

/-- A narrower word, in one of 256 bits; the bits above it are zero. -/
def narrow {w : Nat} (hw : w ≤ 256) : Codec (BitVec w) :=
  word.via (fun x => if x.toNat < 2 ^ w then some (x.setWidth w) else none) (BitVec.setWidth 256)
    (narrow_setWidth hw)

end Codec

/-! ## Fields side by side -/

/-- How several values are written and read: the heads stand at one position of a
buffer and the tails at an offset into it. -/
structure Layout (β : Type) where
  headSize : Nat
  dynamic : Bool
  heads : Nat → β → List Byte
  tails : β → List Byte
  read : List Byte → Nat → Option β
  length_heads : ∀ offset b, (heads offset b).length = headSize
  tails_eq_nil : dynamic = false → ∀ b, tails b = []
  aligned : ∀ b, 32 ∣ headSize ∧ 32 ∣ (tails b).length
  read_of_startsWith : ∀ {buf pos offset b}, headSize < 2 ^ 256 →
    offset + (tails b).length < 2 ^ 256 → heads offset b <+: buf.drop pos →
    tails b <+: buf.drop offset → read buf pos = some b

namespace Layout

variable {α β γ : Type}

/-- No fields. -/
def nil : Layout Unit where
  headSize := 0
  dynamic := false
  heads _ _ := []
  tails _ := []
  read _ _ := some ()
  length_heads _ _ := rfl
  tails_eq_nil _ _ := rfl
  aligned _ := ⟨⟨0, rfl⟩, ⟨0, rfl⟩⟩
  read_of_startsWith _ _ _ _ := rfl

section Cons

variable (c : Codec α) (l : Layout β)

/-- The heads, with one more field in front. -/
def consHeads (offset : Nat) (p : α × β) : List Byte :=
  match c.size with
  | some _ => c.encode p.1 ++ l.heads offset p.2
  | none => encodeWord offset ++ l.heads (offset + (c.encode p.1).length) p.2

/-- The tails, with one more field in front. -/
def consTails (p : α × β) : List Byte :=
  match c.size with
  | some _ => l.tails p.2
  | none => c.encode p.1 ++ l.tails p.2

/-- The value of one field, in its place or at the offset that stands there. -/
def readField (buf : List Byte) (pos : Nat) : Option α :=
  match c.size with
  | some _ => c.decode (buf.drop pos)
  | none => (readWord (buf.drop pos)).bind (fun offset => c.decode (buf.drop offset))

/-- Read a field at its place, then the others at theirs. -/
def consRead (buf : List Byte) (pos : Nat) : Option (α × β) := do
  let a ← readField c buf pos
  let b ← l.read buf (pos + c.headSize)
  return (a, b)

/-- The places of all fields are those of the first and of the others. -/
theorem length_consHeads (offset : Nat) (p : α × β) :
    (consHeads c l offset p).length = c.headSize + l.headSize := by
  unfold consHeads Codec.headSize
  cases hsize : c.size with
  | some n =>
      simp only [List.length_append, l.length_heads, Option.getD_some]
      rw [c.length_encode n hsize]
  | none => simp only [List.length_append, l.length_heads, length_encodeWord, Option.getD_none]

/-- Values of fixed size have nothing behind the places. -/
theorem consTails_eq_nil (hstatic : (c.size.isNone || l.dynamic) = false) (p : α × β) :
    consTails c l p = [] := by
  rw [Bool.or_eq_false_iff] at hstatic
  unfold consTails
  cases hsize : c.size with
  | some n => exact l.tails_eq_nil hstatic.2 p.2
  | none =>
      rw [hsize] at hstatic
      cases hstatic.1

/-- Places and tails are whole words. -/
theorem aligned_cons (p : α × β) :
    32 ∣ c.headSize + l.headSize ∧ 32 ∣ (consTails c l p).length := by
  obtain ⟨hheads, htails⟩ := l.aligned p.2
  have hfirst := c.aligned p.1
  unfold Codec.headSize consTails
  cases hsize : c.size with
  | some n =>
      rw [c.length_encode n hsize] at hfirst
      exact ⟨Nat.dvd_add hfirst hheads, htails⟩
  | none =>
      rw [List.length_append]
      exact ⟨Nat.dvd_add (Nat.dvd_refl 32) hheads, Nat.dvd_add hfirst htails⟩

/-- The first field is read, and the others start behind it. -/
theorem readField_of_startsWith {buf : List Byte} {pos offset : Nat} {p : α × β}
    (hsize : c.headSize + l.headSize < 2 ^ 256)
    (hfits : offset + (consTails c l p).length < 2 ^ 256)
    (hheads : consHeads c l offset p <+: buf.drop pos)
    (htails : consTails c l p <+: buf.drop offset) :
    readField c buf pos = some p.1 ∧
      ∃ offset', offset' + (l.tails p.2).length < 2 ^ 256 ∧
        l.heads offset' p.2 <+: buf.drop (pos + c.headSize) ∧
        l.tails p.2 <+: buf.drop offset' := by
  unfold consHeads at hheads
  unfold consTails at hfits htails
  unfold readField Codec.headSize at *
  cases hcase : c.size with
  | some n =>
      simp only [hcase, Option.getD_some] at hsize hfits hheads htails ⊢
      have hlength := c.length_encode n hcase p.1
      obtain ⟨hfirst, hothers⟩ := prefix_of_append hheads
      rw [List.drop_drop, hlength] at hothers
      refine ⟨c.decode_of_startsWith p.1 _ ?_ hfirst, offset, hfits, hothers, htails⟩
      rw [hlength]
      exact lt_of_le_of_lt (Nat.le_add_right n _) hsize
  | none =>
      simp only [hcase, Option.getD_none] at hsize hfits hheads htails ⊢
      rw [List.length_append] at hfits
      obtain ⟨hword, hothers⟩ := prefix_of_append hheads
      obtain ⟨hfirst, hlater⟩ := prefix_of_append htails
      rw [List.drop_drop, length_encodeWord] at hothers
      rw [List.drop_drop] at hlater
      refine ⟨?_, offset + (c.encode p.1).length, ?_, hothers, hlater⟩
      · rw [readWord_of_startsWith (lt_of_le_of_lt (Nat.le_add_right _ _) hfits) hword,
          Option.bind_some]
        exact c.decode_of_startsWith p.1 _ (by omega) hfirst
      · omega

/-- **Reading fields.**  They are read back from any buffer that has their places at
the position and their tails at the offset. -/
theorem consRead_of_startsWith {buf : List Byte} {pos offset : Nat} {p : α × β}
    (hsize : c.headSize + l.headSize < 2 ^ 256)
    (hfits : offset + (consTails c l p).length < 2 ^ 256)
    (hheads : consHeads c l offset p <+: buf.drop pos)
    (htails : consTails c l p <+: buf.drop offset) : consRead c l buf pos = some p := by
  obtain ⟨hfirst, offset', hfits', hheads', htails'⟩ :=
    readField_of_startsWith c l hsize hfits hheads htails
  have hothers := l.read_of_startsWith (lt_of_le_of_lt (Nat.le_add_left _ _) hsize) hfits' hheads'
    htails'
  unfold consRead
  rw [hfirst, Option.bind_eq_bind, Option.bind_some, hothers, Option.bind_eq_bind,
    Option.bind_some]
  rfl

/-- One more field in front. -/
def cons : Layout (α × β) where
  headSize := c.headSize + l.headSize
  dynamic := c.size.isNone || l.dynamic
  heads := consHeads c l
  tails := consTails c l
  read := consRead c l
  length_heads := length_consHeads c l
  tails_eq_nil := consTails_eq_nil c l
  aligned := aligned_cons c l
  read_of_startsWith := consRead_of_startsWith c l

end Cons

/-- The same fields, for values of another type. -/
def map (l : Layout β) (read : β → γ) (write : γ → β) (h : ∀ g, read (write g) = g) :
    Layout γ where
  headSize := l.headSize
  dynamic := l.dynamic
  heads offset g := l.heads offset (write g)
  tails g := l.tails (write g)
  read buf pos := (l.read buf pos).map read
  length_heads offset g := l.length_heads offset (write g)
  tails_eq_nil hstatic g := l.tails_eq_nil hstatic (write g)
  aligned g := l.aligned (write g)
  read_of_startsWith hsize hfits hheads htails := by
    rw [l.read_of_startsWith hsize hfits hheads htails, Option.map_some, h]

/-- As many fields of one type as a list has elements. -/
def elements (c : Codec α) : (n : Nat) → Layout (List.Vector α n)
  | 0 => nil.map (fun _ => List.Vector.nil) (fun _ => ()) (fun v => v.eq_nil.symm)
  | n + 1 => (cons c (elements c n)).map (fun p => p.1 ::ᵥ p.2) (fun v => (v.head, v.tail))
      (fun v => v.cons_head_tail)

/-- As many places as there are elements. -/
theorem headSize_elements (c : Codec α) (n : Nat) :
    (elements c n).headSize = n * c.headSize := by
  induction n with
  | zero => exact (Nat.zero_mul _).symm
  | succ n ih =>
      change c.headSize + (elements c n).headSize = _
      rw [ih, Nat.succ_mul, Nat.add_comm]

end Layout

/-! ## Nesting -/

namespace Codec

variable {α β : Type}

section Tuple

variable (l : Layout β)

/-- Heads, then tails. -/
def encodeTuple (b : β) : List Byte := l.heads l.headSize b ++ l.tails b

/-- A tuple is as long as its places and its tails. -/
theorem length_encodeTuple (b : β) :
    (encodeTuple l b).length = l.headSize + (l.tails b).length := by
  unfold encodeTuple
  rw [List.length_append, l.length_heads]

/-- A tuple without tails has the size of its places. -/
theorem size_tuple (n : Nat) (hn : (if l.dynamic then none else some l.headSize) = some n)
    (b : β) : (encodeTuple l b).length = n := by
  rw [length_encodeTuple]
  cases hdynamic : l.dynamic with
  | true =>
      rw [hdynamic] at hn
      cases hn
  | false =>
      rw [hdynamic] at hn
      rw [l.tails_eq_nil hdynamic, List.length_nil, Nat.add_zero]
      exact Option.some.inj hn

/-- A tuple is whole words. -/
theorem dvd_length_encodeTuple (b : β) : 32 ∣ (encodeTuple l b).length := by
  rw [length_encodeTuple]
  exact Nat.dvd_add (l.aligned b).1 (l.aligned b).2

/-- A tuple is read back, whatever follows it. -/
theorem read_encodeTuple (b : β) (buf : List Byte) (hfits : (encodeTuple l b).length < 2 ^ 256)
    (h : encodeTuple l b <+: buf) : l.read buf 0 = some b := by
  rw [length_encodeTuple] at hfits
  obtain ⟨hheads, htails⟩ := prefix_of_append h
  rw [l.length_heads] at htails
  exact l.read_of_startsWith (lt_of_le_of_lt (Nat.le_add_right _ _) hfits) hfits
    (by rwa [List.drop_zero]) htails

/-- The fields as one value. -/
def tuple : Codec β where
  size := if l.dynamic then none else some l.headSize
  encode := encodeTuple l
  decode buf := l.read buf 0
  length_encode := size_tuple l
  aligned := dvd_length_encodeTuple l
  decode_of_startsWith := read_encodeTuple l

end Tuple

section Array

variable (c : Codec α)

/-- The number of elements, then the elements. -/
def encodeArray (as : List α) : List Byte :=
  encodeWord as.length ++ (tuple (Layout.elements c as.length)).encode ⟨as, rfl⟩

/-- Nothing is read if the buffer has no room for the places of all elements. -/
def decodeArray (buf : List Byte) : Option (List α) := do
  let n ← readWord buf
  if n * c.headSize ≤ (buf.drop 32).length then
    ((tuple (Layout.elements c n)).decode (buf.drop 32)).map List.Vector.toList
  else
    none

/-- An array is its count and its elements, in whole words. -/
theorem dvd_length_encodeArray (as : List α) : 32 ∣ (encodeArray c as).length := by
  unfold encodeArray
  rw [List.length_append, length_encodeWord]
  exact Nat.dvd_add (Nat.dvd_refl 32) ((tuple (Layout.elements c as.length)).aligned _)

/-- An array is read back, whatever follows it. -/
theorem decodeArray_of_startsWith (hplace : 0 < c.headSize) (as : List α) (buf : List Byte)
    (hfits : (encodeArray c as).length < 2 ^ 256) (h : encodeArray c as <+: buf) :
    decodeArray c buf = some as := by
  have hfits' := hfits
  unfold encodeArray at hfits'
  rw [List.length_append, length_encodeWord] at hfits'
  obtain ⟨hcount, helements⟩ := prefix_of_append h
  rw [length_encodeWord] at helements
  have hroom : as.length * c.headSize ≤
      ((tuple (Layout.elements c as.length)).encode ⟨as, rfl⟩).length := by
    rw [← Layout.headSize_elements]
    exact (Nat.le_add_right _ _).trans (length_encodeTuple _ _).ge
  have hlength : as.length < 2 ^ 256 :=
    lt_of_le_of_lt ((Nat.le_mul_of_pos_right _ hplace).trans (hroom.trans (Nat.le_add_left _ _)))
      hfits'
  have hread := (tuple (Layout.elements c as.length)).decode_of_startsWith ⟨as, rfl⟩ (buf.drop 32)
    (by omega) helements
  unfold decodeArray
  rw [readWord_of_startsWith hlength hcount, Option.bind_eq_bind, Option.bind_some,
    if_pos (hroom.trans helements.length_le), hread]
  rfl

/-- A list of any length. -/
def array (hplace : 0 < c.headSize) : Codec (List α) where
  size := none
  encode := encodeArray c
  decode := decodeArray c
  length_encode _ hn := nomatch hn
  aligned := dvd_length_encodeArray c
  decode_of_startsWith := decodeArray_of_startsWith c hplace

end Array

end Codec

end AbiCodec
