import Bunzo.ByteCosts
import Bunzo.EthApi
import Bunzo.HandleOpsCalldata
import Bunzo.RevertData
import Bunzo.ValidationData

/-!
# Estimating the gas of an operation

A client asks for gas limits before it signs an operation.  The handler fills in
what is missing, lets the entry point simulate the result twice, and adds up what
the bytes of the operation cost.

* `simulateValidation`, `simulateHandleOp` — the node's answers, decoded.
* `within_abiEncode` — what a client makes of a request differs from it in few
  bytes under one signature.
* `estimate_close` — so the estimate is close to what the finished operation costs.
-/

namespace Bunzo

open AbiCodec ByteCosts MachineWords

/-! ## Operations without gas limits -/

/-- An operation as a client sends it for an estimate. -/
structure UserOperationOptionalGas where
  sender : Address
  nonce : U256
  callData : Bytes
  signature : Bytes
  factory : Option Address
  factoryData : Bytes
  paymaster : Option Address
  paymasterData : Bytes
  callGasLimit : Option U128
  verificationGasLimit : Option U128
  preVerificationGas : Option U128
  maxFeePerGas : Option U128
  maxPriorityFeePerGas : Option U128
  paymasterVerificationGasLimit : Option U128
  paymasterPostOpGasLimit : Option U128

/-- Fill in what is missing. -/
def UserOperationOptionalGas.intoUserOperation [Keccak] (request : UserOperationOptionalGas)
    (entryPoint : Address) (chainId : U64) (maxVerificationGas maxCallGas : U128) :
    UserOperation :=
  UserOperation.new {
    sender := request.sender
    nonce := request.nonce
    callData := request.callData
    callGasLimit := request.callGasLimit.getD maxCallGas
    verificationGasLimit := request.verificationGasLimit.getD maxVerificationGas
    preVerificationGas := request.preVerificationGas.getD 0
    maxFeePerGas := request.maxFeePerGas.getD 0
    maxPriorityFeePerGas := request.maxPriorityFeePerGas.getD 0
    signature := request.signature
    factory := request.factory
    factoryData := request.factoryData
    paymaster := request.paymaster
    paymasterVerificationGasLimit := request.paymasterVerificationGasLimit.getD 0
    paymasterPostOpGasLimit := request.paymasterPostOpGasLimit.getD 0
    paymasterData := request.paymasterData
    entryPoint := entryPoint
    chainId := chainId
    cachedHash := none }

/-! ## Simulations at the entry point -/

namespace IEntryPointSimulations

/-- What the validation costs and returns, in the contract's own types. -/
structure ReturnInfo where
  preOpGas : U256
  prefund : U256
  accountValidationData : U256
  paymasterValidationData : U256
  paymasterContext : Bytes

/-- A stake, and the time that it takes to withdraw. -/
structure StakeInfo where
  stake : U256
  unstakeDelaySec : U256

/-- An aggregator with its stake. -/
structure AggregatorStakeInfo where
  aggregator : Address
  stakeInfo : StakeInfo

/-- What a simulation of the validation returns. -/
structure ValidationResult where
  returnInfo : ReturnInfo
  senderInfo : StakeInfo
  factoryInfo : StakeInfo
  paymasterInfo : StakeInfo
  aggregatorInfo : AggregatorStakeInfo

/-- What a simulation of the whole operation returns. -/
structure ExecutionResult where
  preOpGas : U256
  paid : U256
  accountValidationData : U256
  paymasterValidationData : U256
  targetSuccess : Bool
  targetResult : Bytes

end IEntryPointSimulations

/-- The same stake, with the time in a machine word. -/
structure StakeInfo where
  stake : U256
  unstakeDelaySec : U64

/-- What is made of a simulated validation: its gas, its times, both signatures'
verdicts and the stakes. -/
structure ValidationOutput where
  preOpGas : U128
  prefund : U256
  validAfter : U64
  validUntil : U64
  accountSigFailed : Bool
  paymasterSigFailed : Bool
  senderInfo : StakeInfo
  factoryInfo : StakeInfo
  paymasterInfo : StakeInfo
  aggregator : Option Address

/-- What is made of a simulated execution. -/
structure ExecutionResult where
  preOpGas : U128
  paid : U256
  targetSuccess : Bool
  targetResult : Bytes

/-- A word as a narrower one; a larger value panics. -/
def narrowed (w : Nat) (n : U256) : Option (BitVec w) :=
  if n.toNat < 2 ^ w then some (n.setWidth w) else none

/-- A delay that does not fit panics. -/
def StakeInfo.ofContract (info : IEntryPointSimulations.StakeInfo) : Option StakeInfo := do
  let unstakeDelaySec ← narrowed 64 info.unstakeDelaySec
  return { stake := info.stake, unstakeDelaySec := unstakeDelaySec }

/-- Start, end and verdict come from the account's word; of the paymaster's word only
the verdict is kept. -/
def ValidationOutput.ofContract (vr : IEntryPointSimulations.ValidationResult) :
    Option ValidationOutput := do
  let (accountSigFailed, validAfter, validUntil) :=
    parseValidationData vr.returnInfo.accountValidationData
  let (paymasterSigFailed, _, _) := parseValidationData vr.returnInfo.paymasterValidationData
  let preOpGas ← narrowed 128 vr.returnInfo.preOpGas
  let senderInfo ← StakeInfo.ofContract vr.senderInfo
  let factoryInfo ← StakeInfo.ofContract vr.factoryInfo
  let paymasterInfo ← StakeInfo.ofContract vr.paymasterInfo
  return {
    preOpGas := preOpGas
    prefund := vr.returnInfo.prefund
    validAfter := validAfter
    validUntil := validUntil
    accountSigFailed := accountSigFailed
    paymasterSigFailed := paymasterSigFailed
    senderInfo := senderInfo
    factoryInfo := factoryInfo
    paymasterInfo := paymasterInfo
    aggregator :=
      if vr.aggregatorInfo.aggregator = 0 then none else some vr.aggregatorInfo.aggregator }

/-- Gas that does not fit panics. -/
def ExecutionResult.ofContract (er : IEntryPointSimulations.ExecutionResult) :
    Option ExecutionResult := do
  let preOpGas ← narrowed 128 er.preOpGas
  return {
    preOpGas := preOpGas
    paid := er.paid
    targetSuccess := er.targetSuccess
    targetResult := er.targetResult }

/-- What the library of the contract's bindings reads from bytes. -/
structure AbiDecoders where
  errors : Bytes → Option IEntryPointErrors
  validationResult : Bytes → Except Message IEntryPointSimulations.ValidationResult
  executionResult : Bytes → Except Message IEntryPointSimulations.ExecutionResult

/-- The node answers a call of the entry point. -/
abbrev NodeCall := Address → Bytes → Except ErrorText Bytes

section Simulations

variable [Keccak] (d : AbiDecoders) (node : NodeCall) (entryPoint : Address)

/-- The first of the two simulation methods. -/
def simulateValidationSignature : String :=
  "simulateValidation((address,uint256,bytes,bytes,bytes32,uint256,bytes32,bytes,bytes))"

/-- The second of them. -/
def simulateHandleOpSignature : String :=
  "simulateHandleOp((address,uint256,bytes,bytes,bytes32,uint256,bytes32,bytes,bytes)," ++
    "address,bytes)"

/-- Simulate the validation of an operation; a value that does not fit panics. -/
def simulateValidation (userOp : PackedUserOperation) :
    Option (Except ProviderError (Except ValidationRevert ValidationOutput)) :=
  match node entryPoint (selector simulateValidationSignature ++ userOp.abiEncode) with
  | .ok output =>
      match d.validationResult output with
      | .ok vr => (ValidationOutput.ofContract vr).map (fun out => .ok (.ok out))
      | .error e =>
          some (.error (.invalidResponse
            ([.text "failed to decode simulateValidation result: "] ++ e)))
  | .error errStr => (simulationError d.errors errStr).map (Except.map Except.error)

/-- The arguments of `simulateHandleOp`. -/
def simulateHandleOpArgs : Layout (PackedUserOperation × Address × Bytes × Unit) :=
  Layout.cons packedOperation <| Layout.cons addressCodec <| Layout.cons Codec.bytes Layout.nil

/-- Simulate an operation as a whole; a value that does not fit panics. -/
def simulateHandleOp (userOp : PackedUserOperation) (target : Address) (targetCallData : Bytes) :
    Option (Except ProviderError (Except ValidationRevert ExecutionResult)) :=
  match node entryPoint (selector simulateHandleOpSignature ++
      (Codec.tuple simulateHandleOpArgs).encode (userOp, target, targetCallData, ())) with
  | .ok output =>
      match d.executionResult output with
      | .ok er => (ExecutionResult.ofContract er).map (fun res => .ok (.ok res))
      | .error e =>
          some (.error (.invalidResponse
            ([.text "failed to decode simulateHandleOp result: "] ++ e)))
  | .error errStr => (simulationError d.errors errStr).map (Except.map Except.error)

end Simulations

/-! ## The handler -/

/-- The text an error is printed as. -/
def ProviderError.display : ProviderError → Message
  | .transport msg => [.text "rpc transport error: "] ++ msg
  | .contractRevert msg => [.text "contract revert: "] ++ msg
  | .entryPoint msg => [.text "entry point error: "] ++ msg
  | .simulationFailed msg => [.text "simulation failed: "] ++ msg
  | .invalidResponse msg => [.text "invalid response: "] ++ msg
  | .other msg => msg

/-- The text a revert is printed as. -/
def ValidationRevert.display : ValidationRevert → Message
  | .failedOp opIndex reason =>
      [.text "FailedOp(index=", .number opIndex, .text ", reason=", .text reason, .text ")"]
  | .failedOpWithRevert opIndex reason inner =>
      [.text "FailedOpWithRevert(index=", .number opIndex, .text ", reason=", .text reason,
        .text ", inner=0x", .hex inner, .text ")"]
  | .signatureValidationFailed aggregator =>
      [.text "SignatureValidationFailed(aggregator=", .address aggregator, .text ")"]
  | .unknown data => [.text "Unknown(0x", .hex data, .text ")"]

/-- Errors of the handlers that ask the node. -/
inductive HandlerError where
  | rpc (e : RpcError)
  | internal (msg : Message)
deriving DecidableEq

/-- What the chain specification says about the price of calldata. -/
structure CalldataGas where
  calldataZeroByteGas : U64
  calldataNonZeroByteGas : U64

/-- The same on all known chains. -/
def CalldataGas.default : CalldataGas where
  calldataZeroByteGas := 4
  calldataNonZeroByteGas := 16

/-- The gas limits that a client is advised to set. -/
structure GasEstimate where
  preVerificationGas : U128
  callGasLimit : U128
  verificationGasLimit : U128
  paymasterVerificationGasLimit : Option U128
deriving DecidableEq

namespace UserOperation

/-- The bytes of the packed operation, as an argument of a call. -/
def abiEncodedSize (uo : UserOperation) : Nat := uo.pack.abiEncode.length

/-- The price of the bytes, summed up in a word of 64 bits. -/
def calldataGasCost (uo : UserOperation) (zeroByteCost nonZeroByteCost : U64) : U128 :=
  (byteCost zeroByteCost nonZeroByteCost uo.pack.abiEncode).setWidth 128

end UserOperation

/-- The gas of the calls, after a simulation of the validation alone and one of the whole;
a payment that does not fit panics. -/
def EthApiImpl.callGas (api : EthApiImpl) (preOpGas : U128) (res : ExecutionResult) :
    Option U128 :=
  if preOpGas < res.preOpGas then some (res.preOpGas - preOpGas)
  else (narrowed 128 res.paid).map (fun paid => paid / max api.currentBaseFee 1)

/-- The answer to a request for an estimate, or a panic.  The entry point provider is not
there in every configuration. -/
def EthApiImpl.estimateUserOperationGas [Keccak] (api : EthApiImpl) (prices : CalldataGas)
    (d : AbiDecoders) (provider : Option NodeCall) (userOp : UserOperationOptionalGas)
    (entryPoint : Address) : Option (Except HandlerError GasEstimate) :=
  if entryPoint ≠ api.chainSpec.entryPointV07 then
    some (.error (.rpc (.invalidParams
      [.text "unsupported entry point: ", .address entryPoint])))
  else
    match provider with
    | none => some (.error (.internal [.text "provider not configured for gas estimation"]))
    | some node =>
        let fullOp := userOp.intoUserOperation entryPoint api.chainSpec.id 1000000 10000000
        match simulateValidation d node entryPoint fullOp.pack with
        | none => none
        | some (.error e) =>
            some (.error (.internal ([.text "simulation failed: "] ++ e.display)))
        | some (.ok (.error e)) =>
            some (.error (.rpc (.invalidParams
              ([.text "validation reverted: "] ++ e.display))))
        | some (.ok (.ok validation)) =>
            match simulateHandleOp d node entryPoint fullOp.pack 0 [] with
            | none => none
            | some (.error e) =>
                some (.error (.internal ([.text "simulation failed: "] ++ e.display)))
            | some (.ok (.error e)) =>
                some (.error (.rpc (.invalidParams
                  ([.text "execution reverted: "] ++ e.display))))
            | some (.ok (.ok res)) =>
                (api.callGas validation.preOpGas res).map (fun callGasLimit => .ok {
                  preVerificationGas :=
                    fullOp.calldataGasCost prices.calldataZeroByteGas
                        prices.calldataNonZeroByteGas +
                      api.chainSpec.perUserOpV07Gas.setWidth 128
                  callGasLimit := callGasLimit
                  verificationGasLimit := validation.preOpGas
                  paymasterVerificationGasLimit :=
                    fullOp.paymaster.map (fun _ => validation.preOpGas) })

/-! ## Operations that are made of a request -/

namespace UserOperation

/-- The operation that a client makes of another one: gas limits, fees and signature are
anything, and the data of factory and paymaster may change in `m` and `n` places. -/
structure MadeFrom (m n : Nat) (a b : UserOperation) : Prop where
  sender : a.sender = b.sender
  nonce : a.nonce = b.nonce
  callData : a.callData = b.callData
  factory : a.factory = b.factory
  factoryData : Within m a.factoryData b.factoryData
  paymaster : a.paymaster = b.paymaster
  paymasterData : Within n a.paymasterData b.paymasterData

namespace MadeFrom

variable {m n : Nat} {a b : UserOperation}

/-- The parts that may differ may differ either way. -/
theorem symm (h : MadeFrom m n a b) : MadeFrom m n b a where
  sender := h.sender.symm
  nonce := h.nonce.symm
  callData := h.callData.symm
  factory := h.factory.symm
  factoryData := h.factoryData.symm
  paymaster := h.paymaster.symm
  paymasterData := h.paymasterData.symm

/-- The factory's data is all that differs in the init code. -/
theorem within_initCode (h : MadeFrom m n a b) : Within m a.initCode b.initCode := by
  unfold UserOperation.initCode
  rw [h.factory]
  cases b.factory with
  | none => exact (Within.refl _).mono (Nat.zero_le m)
  | some factory => exact h.factoryData.behind _

/-- The gas limits of a paymaster are the only numbers among its bytes. -/
theorem within_paymasterAndData (h : MadeFrom m n a b) :
    Within (32 + n) a.paymasterAndData b.paymasterAndData := by
  unfold UserOperation.paymasterAndData
  rw [h.paymaster]
  cases b.paymaster with
  | none => exact (Within.refl _).mono (Nat.zero_le _)
  | some paymaster =>
      have hlimits (x y : U128) : Within 16 (toBeBytes 16 x.toNat) (toBeBytes 16 y.toNat) :=
        .of_length (length_toBeBytes _ _) (length_toBeBytes _ _)
      have hall := (((Within.refl (toBeBytes 20 paymaster.toNat)).append
        (hlimits a.paymasterVerificationGasLimit b.paymasterVerificationGasLimit)).append
        (hlimits a.paymasterPostOpGasLimit b.paymasterPostOpGasLimit)).append h.paymasterData
      exact hall.mono (by omega)

/-- **Few bytes differ.**  Under one signature, gas limits and fees take 112 bytes of an
encoded operation. -/
theorem within_abiEncode (h : MadeFrom m n a b) (signature : Bytes) :
    Within (112 + m + n) { a.pack with signature := signature }.abiEncode
      { b.pack with signature := signature }.abiEncode := by
  have hword (x : B256) : x.toNat < 256 ^ 32 := x.isLt
  have hlimit (x : U128) : (x.setWidth 256).toNat < 256 ^ 16 := by
    rw [BitVec.toNat_setWidth, Nat.mod_eq_of_lt (x.isLt.trans (by decide))]
    exact x.isLt
  apply Within.behind
  refine Within.mono (m := m + (32 + (16 + (32 + (32 + n + 0))))) ?_ (by omega)
  apply within_encodeTuple
  unfold UserOperation.pack
  rw [h.sender, h.nonce, h.callData]
  refine .same _ (.same _ (.bytes h.within_initCode (.same _ ?_)))
  exact .word (n := 32) (Nat.le_refl _) (hword _) (hword _) <|
    .word (n := 16) (by decide) (hlimit _) (hlimit _) <|
    .word (n := 32) (Nat.le_refl _) (hword _) (hword _) <|
    .bytes h.within_paymasterAndData <| .same _ .nil

end MadeFrom

end UserOperation

/-- What a signature costs: the word of its length and its bytes, filled up to words. -/
def CalldataGas.signatureCost (prices : CalldataGas) (signature : Bytes) : Nat :=
  cost prices.calldataZeroByteGas.toNat prices.calldataNonZeroByteGas.toNat
    (Component.bytes signature).tail

/-- What the bytes of an operation cost, as an exact number. -/
def CalldataGas.exactCost (prices : CalldataGas) (uo : UserOperation) : Nat :=
  cost prices.calldataZeroByteGas.toNat prices.calldataNonZeroByteGas.toNat uo.pack.abiEncode

/-- How far the prices of the two kinds of bytes lie apart. -/
def CalldataGas.spread (prices : CalldataGas) : Nat :=
  Nat.dist prices.calldataZeroByteGas.toNat prices.calldataNonZeroByteGas.toNat

/-- Another signature makes a difference of the costs of the two signatures. -/
theorem CalldataGas.cost_signature (prices : CalldataGas) (p : PackedUserOperation)
    (signature : Bytes) :
    cost prices.calldataZeroByteGas.toNat prices.calldataNonZeroByteGas.toNat p.abiEncode +
        prices.signatureCost signature =
      cost prices.calldataZeroByteGas.toNat prices.calldataNonZeroByteGas.toNat
          { p with signature := signature }.abiEncode +
        prices.signatureCost p.signature := by
  unfold PackedUserOperation.abiEncode CalldataGas.signatureCost
  have hlast := cost_encodeTuple_concat prices.calldataZeroByteGas.toNat
    prices.calldataNonZeroByteGas.toNat
    [.word p.sender.toNat, .word p.nonce.toNat, .bytes p.initCode, .bytes p.callData,
      .word p.accountGasLimits.toNat, .word p.preVerificationGas.toNat, .word p.gasFees.toNat,
      .bytes p.paymasterAndData] p.signature signature
  simp only [cost_append, List.cons_append, List.nil_append] at hlast ⊢
  omega

/-- The costs of an operation and of what is made of it lie close to each other, apart from
the signatures. -/
theorem CalldataGas.exactCost_le (prices : CalldataGas) {m n : Nat} {a b : UserOperation}
    (h : a.MadeFrom m n b) :
    prices.exactCost a + prices.signatureCost b.signature ≤
      prices.exactCost b + prices.signatureCost a.signature + (112 + m + n) * prices.spread := by
  -- under one signature, both are encoded alike
  have hsigned : prices.exactCost a + prices.signatureCost b.signature =
      cost prices.calldataZeroByteGas.toNat prices.calldataNonZeroByteGas.toNat
          { a.pack with signature := b.signature }.abiEncode +
        prices.signatureCost a.signature := prices.cost_signature a.pack b.signature
  have hle : cost prices.calldataZeroByteGas.toNat prices.calldataNonZeroByteGas.toNat
      { a.pack with signature := b.signature }.abiEncode ≤
        prices.exactCost b + (112 + m + n) * prices.spread :=
    cost_le_of_within (h.within_abiEncode b.signature)
  rw [hsigned, add_right_comm]
  exact Nat.add_le_add_right hle _

/-! ## How close an estimate is -/

section Closeness

variable [Keccak] {api : EthApiImpl} {prices : CalldataGas} {d : AbiDecoders}
  {provider : Option NodeCall} {request : UserOperationOptionalGas} {entryPoint : Address}
  {g : GasEstimate}

/-- What both simulations say about a request that is answered with an estimate. -/
theorem EthApiImpl.estimate_ok
    (h : api.estimateUserOperationGas prices d provider request entryPoint = some (.ok g)) :
    ∃ node validation res, provider = some node ∧
      simulateValidation d node entryPoint
          (request.intoUserOperation entryPoint api.chainSpec.id 1000000 10000000).pack =
        some (.ok (.ok validation)) ∧
      simulateHandleOp d node entryPoint
          (request.intoUserOperation entryPoint api.chainSpec.id 1000000 10000000).pack 0 [] =
        some (.ok (.ok res)) ∧
      api.callGas validation.preOpGas res = some g.callGasLimit ∧
      g.verificationGasLimit = validation.preOpGas ∧
      g.paymasterVerificationGasLimit = request.paymaster.map (fun _ => validation.preOpGas) ∧
      g.preVerificationGas =
        (request.intoUserOperation entryPoint api.chainSpec.id 1000000 10000000).calldataGasCost
            prices.calldataZeroByteGas prices.calldataNonZeroByteGas +
          api.chainSpec.perUserOpV07Gas.setWidth 128 := by
  unfold EthApiImpl.estimateUserOperationGas at h
  split at h
  · cases h
  · split at h
    · cases h
    · rename_i node
      simp only at h
      split at h <;> try cases h
      rename_i validation hvalidation
      split at h <;> try cases h
      rename_i res hres
      obtain ⟨callGasLimit, hcall, hg⟩ := Option.map_eq_some_iff.mp h
      obtain rfl := Except.ok.inj hg
      exact ⟨node, validation, res, rfl, hvalidation, hres, hcall, rfl, rfl, rfl⟩

/-- The gas before verification is an exact sum, if the bytes are paid in 64 bits. -/
theorem EthApiImpl.preVerificationGas_eq
    (h : api.estimateUserOperationGas prices d provider request entryPoint = some (.ok g))
    (hfits : prices.exactCost
      (request.intoUserOperation entryPoint api.chainSpec.id 1000000 10000000) < 2 ^ 64) :
    g.preVerificationGas.toNat =
      prices.exactCost (request.intoUserOperation entryPoint api.chainSpec.id 1000000 10000000) +
        api.chainSpec.perUserOpV07Gas.toNat := by
  obtain ⟨_, _, _, _, _, _, _, _, _, hpre⟩ := EthApiImpl.estimate_ok h
  have hperOp := api.chainSpec.perUserOpV07Gas.isLt
  have hcost := byteCost_toNat hfits
  rw [hpre, UserOperation.calldataGasCost, BitVec.toNat_add, BitVec.toNat_setWidth,
    BitVec.toNat_setWidth, hcost]
  unfold CalldataGas.exactCost at hfits ⊢
  omega

/-- **How close an estimate is.**  A client puts gas limits, fees and a signature into the
operation it asked about, and changes the data of factory and paymaster in a few places.  Apart
from what the two signatures cost, the estimated gas before verification and what the finished
operation costs then differ by 112 bytes and the changed places at most. -/
theorem EthApiImpl.estimate_close
    (h : api.estimateUserOperationGas prices d provider request entryPoint = some (.ok g))
    (hfits : prices.exactCost
      (request.intoUserOperation entryPoint api.chainSpec.id 1000000 10000000) < 2 ^ 64)
    {uo : UserOperation} {m n : Nat}
    (hmade : uo.MadeFrom m n
      (request.intoUserOperation entryPoint api.chainSpec.id 1000000 10000000)) :
    let exact := prices.exactCost uo + api.chainSpec.perUserOpV07Gas.toNat
    let slack := (112 + m + n) * prices.spread
    exact + prices.signatureCost request.signature ≤
        g.preVerificationGas.toNat + prices.signatureCost uo.signature + slack ∧
      g.preVerificationGas.toNat + prices.signatureCost uo.signature ≤
        exact + prices.signatureCost request.signature + slack := by
  have hpre := EthApiImpl.preVerificationGas_eq h hfits
  have hle := prices.exactCost_le hmade
  have hge := prices.exactCost_le hmade.symm
  have hsignature : (request.intoUserOperation entryPoint api.chainSpec.id 1000000
      10000000).signature = request.signature := rfl
  rw [hsignature] at hle hge
  refine ⟨?_, ?_⟩ <;> linarith

end Closeness

/-! ## An estimate -/

section Estimated

/-- A request with one byte of call data. -/
def plainRequest : UserOperationOptionalGas where
  sender := 1
  nonce := 0
  callData := [0xab]
  signature := [0x01]
  factory := none
  factoryData := []
  paymaster := none
  paymasterData := []
  callGasLimit := none
  verificationGasLimit := none
  preVerificationGas := none
  maxFeePerGas := none
  maxPriorityFeePerGas := none
  paymasterVerificationGasLimit := none
  paymasterPostOpGasLimit := none

/-- Both simulations succeed. -/
def succeedingDecoders : AbiDecoders where
  errors _ := none
  validationResult _ := .ok {
    returnInfo := {
      preOpGas := 50000
      prefund := 0
      accountValidationData := 0
      paymasterValidationData := 0
      paymasterContext := [] }
    senderInfo := ⟨0, 0⟩
    factoryInfo := ⟨0, 0⟩
    paymasterInfo := ⟨0, 0⟩
    aggregatorInfo := ⟨0, ⟨0, 0⟩⟩ }
  executionResult _ := .ok {
    preOpGas := 80000
    paid := 0
    accountValidationData := 0
    paymasterValidationData := 0
    targetSuccess := true
    targetResult := [] }

/-- What the handler answers. -/
def plainEstimate : GasEstimate where
  preVerificationGas := 21788
  callGasLimit := 30000
  verificationGasLimit := 50000
  paymasterVerificationGasLimit := none

/-- The operation the client signs, with the estimated limits, fees of its own and a
signature of 65 bytes. -/
def estimatedOperation : UserOperation :=
  { plainOperation 1 0 30000000000 with
    callGasLimit := plainEstimate.callGasLimit
    verificationGasLimit := plainEstimate.verificationGasLimit
    preVerificationGas := plainEstimate.preVerificationGas
    signature := List.replicate 65 0xff }

/-- An estimate and a finished operation that differs in its gas and its signature. -/
theorem estimate_close_plain :
    letI := polynomialDigest
    let prices := CalldataGas.default
    let exact := prices.exactCost estimatedOperation +
      startedApi.chainSpec.perUserOpV07Gas.toNat
    let slack := (112 + 0 + 0) * prices.spread
    exact + prices.signatureCost plainRequest.signature ≤
        plainEstimate.preVerificationGas.toNat +
          prices.signatureCost estimatedOperation.signature + slack ∧
      plainEstimate.preVerificationGas.toNat +
          prices.signatureCost estimatedOperation.signature ≤
        exact + prices.signatureCost plainRequest.signature + slack := by
  let _ := polynomialDigest
  have hanswer : startedApi.estimateUserOperationGas CalldataGas.default succeedingDecoders
      (some fun _ _ => .ok []) plainRequest ChainSpec.mainnet.entryPointV07 =
        some (.ok plainEstimate) := by decide +kernel
  have hmade : estimatedOperation.MadeFrom 0 0 (plainRequest.intoUserOperation
      ChainSpec.mainnet.entryPointV07 startedApi.chainSpec.id 1000000 10000000) :=
    ⟨rfl, rfl, rfl, rfl, .refl _, rfl, .refl _⟩
  exact EthApiImpl.estimate_close hanswer (by decide +kernel) hmade

end Estimated

end Bunzo
