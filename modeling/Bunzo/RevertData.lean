import Bunzo.BundleProposer
import Bunzo.HexText

/-!
# Revert data in error texts

A node reports a reverted call as a text with the revert data somewhere in it.
The data is taken from the first `0x` of the text, as far as digits follow; with
fewer than eight of them there is no second try.

* `extractRevertData_iff` — the data of a text is found exactly if no `0x` comes
  before it, an accident apart.
* `recovers_iff` — the same for the failed operation that it names.
-/

namespace Bunzo

open HexText MachineWords

/-- Error texts, as the node's library renders them. -/
abbrev ErrorText := List Char

/-- Errors of the entry point contract. -/
inductive IEntryPointErrors where
  | failedOp (opIndex : U256) (reason : String)
  | failedOpWithRevert (opIndex : U256) (reason : String) (inner : Bytes)
  | signatureValidationFailed (aggregator : Address)

inductive ValidationRevert where
  | failedOp (opIndex : Nat) (reason : String)
  | failedOpWithRevert (opIndex : Nat) (reason : String) (inner : Bytes)
  | signatureValidationFailed (aggregator : Address)
  | unknown (data : Bytes)

/-- Digits to bytes; a leading `0x` is dropped. -/
def constHexDecode (text : List Char) : Option Bytes :=
  match text with
  | '0' :: 'x' :: digits => decode digits
  | digits => decode digits

/-- The digits behind the first `0x`, if there are at least eight. -/
def extractRevertData (errStr : ErrorText) : Option Bytes :=
  match afterFirst ['0', 'x'] errStr with
  | some hexStr =>
      let hexData := hexStr.takeWhile isHexDigit
      if 8 ≤ hexData.length then constHexDecode hexData else none
  | none => none

/-- An index as a machine-sized number; a larger one panics. -/
def toUsize (n : U256) : Option Nat := if n.toNat < 2 ^ 64 then some n.toNat else none

/-- What the handler makes of the node's answer to a simulation, or a panic.
`abiDecode` reads the errors of the contract. -/
def callHandleOps (abiDecode : Bytes → Option IEntryPointErrors) (res : Except ErrorText Bytes) :
    Option (Except ProviderError HandleOpsOut) :=
  match res with
  | .ok _ => some (.ok .success)
  | .error errStr =>
      match extractRevertData errStr with
      | some data =>
          match abiDecode data with
          | some (.failedOp opIndex reason) =>
              (toUsize opIndex).map (fun index => .ok (.failedOp index [.text reason]))
          | some (.failedOpWithRevert opIndex reason _) =>
              (toUsize opIndex).map (fun index => .ok (.failedOp index [.text reason]))
          | some (.signatureValidationFailed aggregator) =>
              some (.ok (.signatureValidationFailed aggregator))
          | none => some (.ok (.revert data))
      | none => some (.error (.transport [.text (String.ofList errStr)]))

/-- The revert of a validation, or a panic. -/
def decodeValidationRevert (abiDecode : Bytes → Option IEntryPointErrors) (data : Bytes) :
    Option ValidationRevert :=
  match abiDecode data with
  | some (.failedOp opIndex reason) => (toUsize opIndex).map (fun index => .failedOp index reason)
  | some (.failedOpWithRevert opIndex reason inner) =>
      (toUsize opIndex).map (fun index => .failedOpWithRevert index reason inner)
  | some (.signatureValidationFailed aggregator) => some (.signatureValidationFailed aggregator)
  | none => some (.unknown data)

/-- What a simulation at the entry point makes of an error of the node. -/
def simulationError (abiDecode : Bytes → Option IEntryPointErrors) (errStr : ErrorText) :
    Option (Except ProviderError ValidationRevert) :=
  match extractRevertData errStr with
  | some data => (decodeValidationRevert abiDecode data).map Except.ok
  | none => some (.error (.simulationFailed [.text (String.ofList errStr)]))

/-- A text with revert data in it. -/
def revertText (pre : List Char) (data : Bytes) (suffix : List Char) : ErrorText :=
  pre ++ (['0', 'x'] ++ (encode data ++ suffix))

/-- No `0x` has eight digits behind it. -/
def ShortLiterals (text : List Char) : Prop :=
  ∀ i ≤ text.length, ['0', 'x'] <+: text.drop i →
    ((text.drop (i + 2)).takeWhile isHexDigit).length < 8

instance decidableShortLiterals (text : List Char) : Decidable (ShortLiterals text) :=
  inferInstanceAs (Decidable (∀ i ≤ text.length, ['0', 'x'] <+: text.drop i →
    ((text.drop (i + 2)).takeWhile isHexDigit).length < 8))

/-- No `0x` comes before the data; or the text before it ends in its first `0x` and
seven digits, which spell the data together with the zero that follows them. -/
def ReachesData (pre : List Char) (data : Bytes) : Prop :=
  match afterFirst ['0', 'x'] pre with
  | none => True
  | some digits =>
      digits.length = 7 ∧ (∀ c ∈ digits, isHexDigit c = true) ∧
        constHexDecode (digits ++ ['0']) = some data

/-! ## Finding the data -/

section Extract

variable {pre suffix digits : List Char} {data : Bytes}

theorem constHexDecode_of_digits (h : ∀ c ∈ digits, isHexDigit c = true) :
    constHexDecode digits = decode digits := by
  unfold constHexDecode
  split
  · exact absurd (h 'x' (by simp)) (by decide)
  · rfl

/-- A text that contains no `0x` contains none that ends in the marker's zero. -/
theorem not_infix_zero (h : ¬ ['0', 'x'] <:+: pre) : ¬ ['0', 'x'] <:+: pre ++ ['0'] := by
  rw [List.infix_concat_iff, not_or]
  refine ⟨?_, h⟩
  rintro ⟨t, ht⟩
  have hlast : (t ++ ['0', 'x']).getLast? = (pre ++ ['0']).getLast? := congrArg List.getLast? ht
  rw [List.getLast?_append, List.getLast?_concat] at hlast
  exact absurd (Option.some.inj hlast) (by decide)

theorem extractRevertData_of_afterFirst {text rest : List Char}
    (h : afterFirst ['0', 'x'] text = some rest) :
    extractRevertData text =
      if 8 ≤ (rest.takeWhile isHexDigit).length then constHexDecode (rest.takeWhile isHexDigit)
      else none := by
  unfold extractRevertData
  rw [h]

/-- Nothing before the data looks like data. -/
theorem extractRevertData_of_none (hdata : 4 ≤ data.length)
    (hsuffix : ∀ c, suffix.head? = some c → isHexDigit c = false)
    (h : afterFirst ['0', 'x'] pre = none) :
    extractRevertData (revertText pre data suffix) = some data := by
  have hdigits : (encode data ++ suffix).takeWhile isHexDigit = encode data :=
    takeWhile_append_of_stop (fun _ => isHexDigit_of_mem_encode data) hsuffix
  have hfirst : afterFirst ['0', 'x'] (revertText pre data suffix) = some (encode data ++ suffix) :=
    afterFirst_append_self (not_infix_zero (afterFirst_eq_none_iff.mp h)) _
  rw [extractRevertData_of_afterFirst hfirst, hdigits, length_encode, if_pos (by omega),
    constHexDecode_of_digits (fun _ => isHexDigit_of_mem_encode data), decode_encode]

/-- The digits behind an earlier `0x`, as far as they go. -/
theorem takeWhile_marker (rest : List Char) :
    (digits ++ (['0', 'x'] ++ rest)).takeWhile isHexDigit =
      if ∀ c ∈ digits, isHexDigit c = true then digits ++ ['0']
      else digits.takeWhile isHexDigit := by
  split
  · next hall =>
      have hzero : ∀ c ∈ digits ++ ['0'], isHexDigit c = true := by
        intro c hc
        rcases List.mem_append.mp hc with hc | hc
        · exact hall c hc
        · rw [List.mem_singleton.mp hc]
          decide
      have hsplit : digits ++ (['0', 'x'] ++ rest) = (digits ++ ['0']) ++ ('x' :: rest) := by simp
      rw [hsplit]
      apply takeWhile_append_of_stop hzero
      intro c hc
      obtain rfl := Option.some.inj hc
      decide
  · next hsome =>
      rw [List.takeWhile_append, if_neg]
      intro hlength
      have hwhole := (List.takeWhile_prefix isHexDigit).eq_of_length hlength
      exact hsome (fun c hc => List.mem_takeWhile_imp (hwhole.symm ▸ hc))

/-- Something before the data looks like data. -/
theorem extractRevertData_of_some (hshort : ShortLiterals pre)
    (h : afterFirst ['0', 'x'] pre = some digits) :
    extractRevertData (revertText pre data suffix) = some data ↔
      digits.length = 7 ∧ (∀ c ∈ digits, isHexDigit c = true) ∧
        constHexDecode (digits ++ ['0']) = some data := by
  obtain ⟨i, hi, hpat, hv⟩ := exists_of_afterFirst h
  have hrun : (digits.takeWhile isHexDigit).length < 8 := hv ▸ hshort i hi hpat
  have hfirst : afterFirst ['0', 'x'] (revertText pre data suffix) =
      some (digits ++ (['0', 'x'] ++ (encode data ++ suffix))) := afterFirst_append h _
  rw [extractRevertData_of_afterFirst hfirst, takeWhile_marker]
  by_cases hall : ∀ c ∈ digits, isHexDigit c = true
  · have hlength : digits.length < 8 := by
      rwa [List.takeWhile_eq_self_iff.mpr hall] at hrun
    rw [if_pos hall, List.length_append, List.length_singleton]
    by_cases hseven : digits.length = 7
    · rw [if_pos (by omega)]
      exact ⟨fun hfound => ⟨hseven, hall, hfound⟩, fun hspells => hspells.2.2⟩
    · rw [if_neg (by omega)]
      exact iff_of_false (by simp) (fun hspells => hseven hspells.1)
  · rw [if_neg hall, if_neg (by omega)]
    exact iff_of_false (by simp) (fun hspells => hall hspells.2.1)

/-- **The data of a text.**  It is found exactly if no `0x` comes before it, or one that
happens to spell it. -/
theorem extractRevertData_iff (hdata : 4 ≤ data.length)
    (hsuffix : ∀ c, suffix.head? = some c → isHexDigit c = false) (hshort : ShortLiterals pre) :
    extractRevertData (revertText pre data suffix) = some data ↔ ReachesData pre data := by
  unfold ReachesData
  split
  · next h => exact iff_of_true (extractRevertData_of_none hdata hsuffix h) trivial
  · next digits h => exact extractRevertData_of_some hshort h

end Extract

/-! ## What the caller learns -/

section Answers

variable {abiDecode : Bytes → Option IEntryPointErrors} {errStr : ErrorText} {data : Bytes}
  {opIndex : U256} {reason : String}

theorem toUsize_of_lt (h : opIndex.toNat < 2 ^ 64) : toUsize opIndex = some opIndex.toNat :=
  if_pos h

/-- A failed operation that is found in the text is answered with its index. -/
theorem callHandleOps_failedOp (hfound : extractRevertData errStr = some data)
    (hdecoded : abiDecode data = some (.failedOp opIndex reason))
    (hindex : opIndex.toNat < 2 ^ 64) :
    callHandleOps abiDecode (.error errStr) =
      some (.ok (.failedOp opIndex.toNat [.text reason])) := by
  simp only [callHandleOps, hfound, hdecoded, toUsize_of_lt hindex, Option.map_some]

/-- The entry point finds the same data in the same text. -/
theorem simulationError_failedOp (hfound : extractRevertData errStr = some data)
    (hdecoded : abiDecode data = some (.failedOp opIndex reason))
    (hindex : opIndex.toNat < 2 ^ 64) :
    simulationError abiDecode errStr = some (.ok (.failedOp opIndex.toNat reason)) := by
  simp only [simulationError, hfound, decodeValidationRevert, hdecoded, toUsize_of_lt hindex,
    Option.map_some]

/-- A text without data is passed on as an error of the connection. -/
theorem callHandleOps_of_none (hlost : extractRevertData errStr = none) :
    callHandleOps abiDecode (.error errStr) =
      some (.error (.transport [.text (String.ofList errStr)])) := by
  simp only [callHandleOps, hlost]

/-- The data is found, and a failed operation that it names arrives with its index. -/
def Recovers (abiDecode : Bytes → Option IEntryPointErrors) (errStr : ErrorText) (data : Bytes) :
    Prop :=
  extractRevertData errStr = some data ∧
    ∀ opIndex reason, abiDecode data = some (.failedOp opIndex reason) →
      opIndex.toNat < 2 ^ 64 →
      callHandleOps abiDecode (.error errStr) =
        some (.ok (.failedOp opIndex.toNat [.text reason]))

/-- **Failed operations.**  They arrive exactly if nothing before the data is taken for
it. -/
theorem recovers_iff (abiDecode : Bytes → Option IEntryPointErrors) {pre suffix : List Char}
    (hdata : 4 ≤ data.length) (hsuffix : ∀ c, suffix.head? = some c → isHexDigit c = false)
    (hshort : ShortLiterals pre) :
    Recovers abiDecode (revertText pre data suffix) data ↔ ReachesData pre data := by
  rw [← extractRevertData_iff hdata hsuffix hshort]
  exact ⟨And.left, fun hfound => ⟨hfound, fun _ _ => callHandleOps_failedOp hfound⟩⟩

end Answers

/-! ## A failed operation behind a short literal -/

/-- The error that names the second operation of a bundle. -/
def secondFailed : Bytes :=
  [0x22, 0x02, 0x66, 0xb6] ++
    encodeTuple [.word 1, .bytes ("AA25".toList.map (fun c => BitVec.ofNat 8 c.toNat))]

def secondFailedDecode (data : Bytes) : Option IEntryPointErrors :=
  if data = secondFailed then some (.failedOp 1 "AA25") else none

def plainText : List Char := "execution reverted, data: \"".toList

theorem head_quote : ∀ c, ['"'].head? = some c → isHexDigit c = false := by
  rintro c ⟨⟩
  decide

theorem secondFailedDecode_eq :
    secondFailedDecode secondFailed = some (.failedOp 1 "AA25") := if_pos rfl

/-- In a text without a literal the operation is named. -/
theorem recovers_iff_plain :
    callHandleOps secondFailedDecode (.error (revertText plainText secondFailed ['"'])) =
      some (.ok (.failedOp 1 [.text "AA25"])) := by
  have hreaches : ReachesData plainText secondFailed := by
    have hnone : afterFirst ['0', 'x'] plainText = none := by decide +kernel
    rw [ReachesData, hnone]
    trivial
  have hrecovers : Recovers secondFailedDecode (revertText plainText secondFailed ['"'])
      secondFailed :=
    (recovers_iff secondFailedDecode (by decide +kernel) head_quote (by decide +kernel)).mpr
      hreaches
  exact hrecovers.2 1 "AA25" secondFailedDecode_eq (by decide)

/-- A text with an address of four digits before the data. -/
def literalText : List Char := "execution reverted at 0x1234, data: \"".toList

/-- The four digits are taken for the data, and the operation is not named. -/
theorem literal_hides_failedOp :
    (4 ≤ secondFailed.length ∧ (∀ c, ['"'].head? = some c → isHexDigit c = false) ∧
        ShortLiterals literalText) ∧
      secondFailedDecode secondFailed = some (.failedOp 1 "AA25") ∧
      extractRevertData (revertText literalText secondFailed ['"']) = none ∧
      callHandleOps secondFailedDecode (.error (revertText literalText secondFailed ['"'])) =
        some (.error (.transport
          [.text (String.ofList (revertText literalText secondFailed ['"']))])) ∧
      ¬ Recovers secondFailedDecode (revertText literalText secondFailed ['"']) secondFailed := by
  have hlost : extractRevertData (revertText literalText secondFailed ['"']) = none := by
    decide +kernel
  refine ⟨⟨by decide +kernel, head_quote, by decide +kernel⟩, secondFailedDecode_eq, hlost,
    callHandleOps_of_none hlost, ?_⟩
  intro hrecovers
  have hfound := hrecovers.1
  rw [hlost] at hfound
  cases hfound

end Bunzo
