import Bunzo.AbiCodec
import Bunzo.PricedRuns

/-!
# The call that a bundle transaction makes

The input of a bundle transaction is the call of `handleOps`: four bytes that
name the function, then the operations and the beneficiary.  The entry point sees
nothing of a bundle but these bytes.

* `decode_encodeHandleOps` — the operations and the beneficiary are read back.
* `signed_decodes` — in every run, what is read from a signed transaction is the
  bundle that the task holds.
-/

namespace Bunzo

open AbiCodec MachineWords ReachableStates

/-! ## Operations as arguments -/

/-- An address takes the low bits of a word. -/
def addressCodec : Codec Address := Codec.narrow (by decide)

/-- The fields of a packed operation, in the order of the contract. -/
def packedFields : Layout PackedUserOperation :=
  (Layout.cons addressCodec <| Layout.cons Codec.word <|
    Layout.cons Codec.bytes <| Layout.cons Codec.bytes <| Layout.cons Codec.word <|
    Layout.cons Codec.word <| Layout.cons Codec.word <| Layout.cons Codec.bytes <|
    Layout.cons Codec.bytes Layout.nil).map
    (fun (sender, nonce, initCode, callData, accountGasLimits, preVerificationGas, gasFees,
        paymasterAndData, signature, ()) =>
      ⟨sender, nonce, initCode, callData, accountGasLimits, preVerificationGas, gasFees,
        paymasterAndData, signature⟩)
    (fun p => (p.sender, p.nonce, p.initCode, p.callData, p.accountGasLimits,
      p.preVerificationGas, p.gasFees, p.paymasterAndData, p.signature, ()))
    (fun _ => rfl)

def packedOperation : Codec PackedUserOperation := Codec.tuple packedFields

theorem packedOperation_encode (p : PackedUserOperation) :
    packedOperation.encode p = encodeTuple
      [.word p.sender.toNat, .word p.nonce.toNat, .bytes p.initCode, .bytes p.callData,
        .word p.accountGasLimits.toNat, .word p.preVerificationGas.toNat, .word p.gasFees.toNat,
        .bytes p.paymasterAndData, .bytes p.signature] := by
  have hsender : p.sender.toNat % 2 ^ 256 = p.sender.toNat :=
    Nat.mod_eq_of_lt (p.sender.isLt.trans (by decide))
  change Codec.encodeTuple packedFields p = _
  unfold Codec.encodeTuple packedFields
  simp only [Layout.map, Layout.cons, Layout.consHeads, Layout.consTails, Layout.nil,
    addressCodec, Codec.narrow, Codec.via, Codec.word, Codec.bytes, Codec.headSize,
    Codec.encodeBytes, encodeTuple, encodeHeads, BitVec.toNat_setWidth, hsender]
  simp [Component.tail]

/-- The encoding of an operation by itself is that of one argument. -/
theorem abiEncode_eq (p : PackedUserOperation) :
    p.abiEncode = (Codec.tuple (Layout.cons packedOperation Layout.nil)).encode (p, ()) := by
  have hdynamic : packedOperation.size = none := rfl
  change _ = Codec.encodeTuple (Layout.cons packedOperation Layout.nil) (p, ())
  unfold Codec.encodeTuple PackedUserOperation.abiEncode
  rw [← packedOperation_encode]
  simp [Layout.cons, Layout.consHeads, Layout.consTails, Layout.nil, Codec.headSize, hdynamic]

/-! ## The call -/

/-- The bytes of an ASCII text. -/
def asciiBytes (text : String) : Bytes := text.toList.map (fun c => BitVec.ofNat 8 c.toNat)

/-- The arguments of `handleOps`. -/
def handleOpsArgs : Layout (List PackedUserOperation × Address × Unit) :=
  Layout.cons (Codec.array packedOperation (by decide)) <|
    Layout.cons addressCodec Layout.nil

def handleOpsSignature : String :=
  "handleOps((address,uint256,bytes,bytes,bytes32,uint256,bytes32,bytes,bytes)[],address)"

section Calldata

variable [Keccak]

/-- Four bytes that name a function: the digest of its signature begins with them. -/
def selector (signature : String) : Bytes :=
  (toBeBytes 32 (keccak256 (asciiBytes signature)).toNat).take 4

theorem length_selector (signature : String) : (selector signature).length = 4 := by
  simp [selector]

/-- The call of `handleOps`. -/
def encodeHandleOps (ops : List PackedUserOperation) (beneficiary : Address) : Bytes :=
  selector handleOpsSignature ++ (Codec.tuple handleOpsArgs).encode (ops, beneficiary, ())

/-- What the contract reads from a call that names `handleOps`. -/
def decodeHandleOps (calldata : Bytes) : Option (List PackedUserOperation × Address) :=
  if calldata.take 4 = selector handleOpsSignature then
    ((Codec.tuple handleOpsArgs).decode (calldata.drop 4)).map
      (fun (ops, beneficiary, ()) => (ops, beneficiary))
  else
    none

/-- **Round trip.**  The contract reads what was written. -/
theorem decode_encodeHandleOps (ops : List PackedUserOperation) (beneficiary : Address)
    (hfits : (encodeHandleOps ops beneficiary).length < 2 ^ 256) :
    decodeHandleOps (encodeHandleOps ops beneficiary) = some (ops, beneficiary) := by
  have hlength := length_selector handleOpsSignature
  have hargs : ((Codec.tuple handleOpsArgs).encode (ops, beneficiary, ())).length < 2 ^ 256 := by
    unfold encodeHandleOps at hfits
    rw [List.length_append] at hfits
    exact lt_of_le_of_lt (Nat.le_add_left _ _) hfits
  have hread := (Codec.tuple handleOpsArgs).decode_encode hargs
  unfold decodeHandleOps encodeHandleOps
  rw [List.take_left' hlength, if_pos rfl, List.drop_left' hlength, hread, Option.map_some]

/-- The input of a transaction, as bytes. -/
def TxInput.calldata : TxInput → Bytes
  | .empty => []
  | .handleOps ops beneficiary => encodeHandleOps ops beneficiary

end Calldata

/-! ## Signed transactions -/

namespace BundlerTask

section Signed

variable {t t' : BundlerTask} {a : StepAnswers} {calls : List TaskCall}
  {tx signed : TransactionRequest} {chainId chainId' : U64}

/-- The one chain that a submission is signed for. -/
theorem chain_of_calls
    (hcalls : calls = [.sign signed chainId] ∨
      ∃ raw, calls = [.sign signed chainId, .submit signed raw])
    (hsign : .sign tx chainId' ∈ calls) : chainId' = chainId := by
  rcases hcalls with rfl | ⟨raw, rfl⟩ <;> simp_all

/-- A transaction that carries a bundle to the entry point. -/
structure Carries (t : BundlerTask) (bundle : Bundle) (tx : TransactionRequest) : Prop where
  recipient : tx.recipient = t.chainSpec.entryPointV07
  gasLimit : tx.gasLimit = bundle.gasEstimate
  value : tx.value = 0
  input : tx.input = .handleOps bundle.ops bundle.beneficiary
  fees : t.state = .submitting → tx.fees = bundle.gasFees

variable [Keccak]

/-- What a step signs carries the bundle that the task holds. -/
theorem TaskStep.sign_carries (h : Shape t) (hstep : TaskStep t a t' calls)
    (hsign : .sign tx chainId ∈ calls) :
    chainId = t.chainSpec.id ∧ ∃ bundle, t.currentBundle = some bundle ∧
      t.Carries bundle tx := by
  have hescalating (fees : U128 × U128) (bundle : Bundle) (hs : t.state = .escalating) :
      t.Carries bundle (t.escalationTx bundle fees) :=
    ⟨rfl, rfl, rfl, rfl, fun hs' => absurd (hs.symm.trans hs') (by decide)⟩
  cases hstep with
  | submitFails hs bundle hb _ hcalls =>
      obtain rfl := sign_of_calls (hcalls.imp id And.right) hsign
      exact ⟨chain_of_calls (hcalls.imp id And.right) hsign, bundle, hb, rfl, rfl, rfl, rfl,
        fun _ => rfl⟩
  | submit hs bundle hb raw newHash hhash =>
      obtain rfl := sign_of_calls (Or.inr ⟨raw, rfl⟩) hsign
      exact ⟨chain_of_calls (Or.inr ⟨raw, rfl⟩) hsign, bundle, hb, rfl, rfl, rfl, rfl,
        fun _ => rfl⟩
  | escalateFails hs fees hfees bundle hb _ hcalls =>
      obtain rfl := sign_of_calls (hcalls.imp id And.right) hsign
      exact ⟨chain_of_calls (hcalls.imp id And.right) hsign, bundle, hb,
        hescalating fees bundle hs⟩
  | escalate hs fees hfees bundle hb raw newHash hhash =>
      obtain rfl := sign_of_calls (Or.inr ⟨raw, rfl⟩) hsign
      exact ⟨chain_of_calls (Or.inr ⟨raw, rfl⟩) hsign, bundle, hb, hescalating fees bundle hs⟩
  | cancel hs p hp _ hcalls => exact absurd hs h.not_cancelling
  | _ => cases hsign

end Signed

end BundlerTask

/-! ## What the contract reads -/

section Runs

variable [Keccak]

/-- **What the contract reads.**  In every state of every run, each transaction that the
task gives to the signer is a call of the entry point from which the contract reads the
operations and the beneficiary of the bundle that the task holds. -/
theorem signed_decodes {cond : BundlerTask → TaskEvent → Prop} {t : BundlerTask}
    (h : bundlerMachine.ReachableUnder cond t) (a : StepAnswers) (tx : TransactionRequest)
    (chainId : U64) (hsign : .sign tx chainId ∈ t.calls a)
    (hfits : tx.input.calldata.length < 2 ^ 256) :
    chainId = t.chainSpec.id ∧ tx.recipient = t.chainSpec.entryPointV07 ∧
      ∃ bundle, t.currentBundle = some bundle ∧
        decodeHandleOps tx.input.calldata = some (bundle.ops, bundle.beneficiary) := by
  obtain ⟨hchain, bundle, hb, hcarries⟩ :=
    (BundlerTask.step_taskStep t a).sign_carries (.of_reachable h) hsign
  refine ⟨hchain, hcarries.recipient, bundle, hb, ?_⟩
  rw [hcarries.input] at hfits ⊢
  exact decode_encodeHandleOps bundle.ops bundle.beneficiary hfits

end Runs

/-- What the contract reads from the first transaction of a run from nonce five. -/
def submittingAtFive : BundlerTask :=
  letI := polynomialDigest
  bundlerMachine.run ((submission 0xAAA).take 3) (startedTask 5)

theorem signed_decodes_at_five :
    letI := polynomialDigest
    (1 : U64) = submittingAtFive.chainSpec.id ∧
      (submittingAtFive.buildBundleTx oneBundle 5).recipient =
        submittingAtFive.chainSpec.entryPointV07 ∧
      ∃ bundle, submittingAtFive.currentBundle = some bundle ∧
        decodeHandleOps (submittingAtFive.buildBundleTx oneBundle 5).input.calldata =
          some (bundle.ops, bundle.beneficiary) := by
  let _ := polynomialDigest
  have hreach : bundlerMachine.Reachable submittingAtFive := by
    apply Machine.reachable_run (.init (startedTask_init 5))
    exact ⟨trivial, trivial, trivial, trivial⟩
  exact signed_decodes hreach silentAnswers _ _ (by decide +kernel) (by decide +kernel)

end Bunzo
