import Bunzo.ChainTypes

/-!
# The user operation and its packed form

An operation travels in two forms: `UserOperation`, with every limit a field
of its own, and `PackedUserOperation`, the form in which the entry point
contract receives it.  `pack` and `unpack` go between them, `computeHash` is
the identifier the bundler gives an operation.

The hash and its context are cached in the operation; `new` and `setContext`
are the two places that fill the cache.
-/

namespace Bunzo

open MachineWords

/-- The pair an operation is replaced by: its sender and its nonce. -/
structure UserOperationId where
  sender : Address
  nonce : U256
deriving DecidableEq

namespace UserOperationId

/-- The upper 192 bits of the nonce. -/
def nonceKey (id : UserOperationId) : U256 := id.nonce >>> 64

/-- The lower 64 bits of the nonce. -/
def nonceSequence (id : UserOperationId) : U64 :=
  (id.nonce &&& 0xffffffffffffffff).setWidth 64

instance : Ord UserOperationId :=
  ⟨compareLex (compareOn UserOperationId.sender) (compareOn UserOperationId.nonce)⟩

instance : Std.TransOrd UserOperationId :=
  inferInstanceAs (Std.TransCmp (compareLex (compareOn UserOperationId.sender)
    (compareOn UserOperationId.nonce)))

instance : Std.LawfulEqOrd UserOperationId where
  eq_of_compare {a b} h := by
    obtain ⟨hsender, hnonce⟩ := Ordering.then_eq_eq.mp h
    cases a
    cases b
    congr
    · exact Std.LawfulEqCmp.eq_of_compare hsender
    · exact Std.LawfulEqCmp.eq_of_compare hnonce

end UserOperationId

/-- The operation as the entry point contract receives it. -/
structure PackedUserOperation where
  sender : Address
  nonce : U256
  initCode : Bytes
  callData : Bytes
  accountGasLimits : B256
  preVerificationGas : U256
  gasFees : B256
  paymasterAndData : Bytes
  signature : Bytes
deriving DecidableEq

namespace PackedUserOperation

/-- The struct has dynamic fields, so its encoding is one offset word followed
by the tuple of its fields. -/
def abiEncode (p : PackedUserOperation) : Bytes :=
  encodeWord 32 ++ encodeTuple
    [.word p.sender.toNat, .word p.nonce.toNat, .bytes p.initCode, .bytes p.callData,
      .word p.accountGasLimits.toNat, .word p.preVerificationGas.toNat, .word p.gasFees.toNat,
      .bytes p.paymasterAndData, .bytes p.signature]

end PackedUserOperation

/-- Two 128-bit values in one word, high half first. -/
def packU128Pair (high low : U128) : B256 := high ++ low

/-- The two halves of a word, high half first. -/
def unpackU128Pair (w : B256) : U128 × U128 :=
  (w.extractLsb' 128 128, w.extractLsb' 0 128)

/-- The operation with unpacked fields, and the cached context and hash. -/
structure UserOperation where
  sender : Address
  nonce : U256
  callData : Bytes
  callGasLimit : U128
  verificationGasLimit : U128
  preVerificationGas : U128
  maxFeePerGas : U128
  maxPriorityFeePerGas : U128
  signature : Bytes
  factory : Option Address
  factoryData : Bytes
  paymaster : Option Address
  paymasterVerificationGasLimit : U128
  paymasterPostOpGasLimit : U128
  paymasterData : Bytes
  entryPoint : Address
  chainId : U64
  cachedHash : Option B256
deriving DecidableEq

namespace UserOperation

/-! ## Packing -/

/-- The factory and its data, or nothing. -/
def initCode (uo : UserOperation) : Bytes :=
  match uo.factory with
  | some factory => toBeBytes 20 factory.toNat ++ uo.factoryData
  | none => []

/-- The paymaster, its two gas limits and its data, or nothing. -/
def paymasterAndData (uo : UserOperation) : Bytes :=
  match uo.paymaster with
  | some paymaster =>
      toBeBytes 20 paymaster.toNat ++ toBeBytes 16 uo.paymasterVerificationGasLimit.toNat ++
        toBeBytes 16 uo.paymasterPostOpGasLimit.toNat ++ uo.paymasterData
  | none => []

def pack (uo : UserOperation) : PackedUserOperation where
  sender := uo.sender
  nonce := uo.nonce
  initCode := uo.initCode
  callData := uo.callData
  accountGasLimits := packU128Pair uo.verificationGasLimit uo.callGasLimit
  preVerificationGas := uo.preVerificationGas.setWidth 256
  gasFees := packU128Pair uo.maxPriorityFeePerGas uo.maxFeePerGas
  paymasterAndData := uo.paymasterAndData
  signature := uo.signature

/-! ## The hash -/

section Hash

variable [Keccak]

/-- What is hashed first: the packed operation without its signature. -/
def innerPreimage (uo : UserOperation) : Bytes :=
  { uo.pack with signature := [] }.abiEncode

/-- What is hashed second: the inner hash, the entry point and the chain. -/
def outerPreimage (uo : UserOperation) : Bytes :=
  toBeBytes 32 (keccak256 uo.innerPreimage).toNat ++ toBeBytes 20 uo.entryPoint.toNat ++
    toBeBytes 32 uo.chainId.toNat

def computeHash (uo : UserOperation) : B256 :=
  keccak256 uo.outerPreimage

/-- Record the context and compute the hash anew. -/
def setContext (uo : UserOperation) (entryPoint : Address) (chainId : U64) : UserOperation :=
  let uo := { uo with entryPoint := entryPoint, chainId := chainId }
  { uo with cachedHash := some uo.computeHash }

/-- An operation of given fields, with its hash; the cache of the argument is
ignored. -/
def new (fields : UserOperation) : UserOperation :=
  let uo := { fields with cachedHash := none }
  { uo with cachedHash := some uo.computeHash }

/-- The cached hash, or a fresh one. -/
def hash (uo : UserOperation) : B256 :=
  uo.cachedHash.getD uo.computeHash

/-- The factory and its data, read from the init code of a packed operation. -/
def unpackFactory (initCode : Bytes) : Option Address × Bytes :=
  if 20 ≤ initCode.length then
    (some (BitVec.ofNat 160 (ofBeBytes (initCode.take 20))), initCode.drop 20)
  else
    (none, [])

/-- The paymaster, its gas limits and its data, read from a packed operation. -/
def unpackPaymaster (data : Bytes) : Option Address × U128 × U128 × Bytes :=
  if 52 ≤ data.length then
    (some (BitVec.ofNat 160 (ofBeBytes (data.take 20))),
      BitVec.ofNat 128 (ofBeBytes ((data.drop 20).take 16)),
      BitVec.ofNat 128 (ofBeBytes ((data.drop 36).take 16)),
      data.drop 52)
  else
    (none, 0, 0, [])

def unpack (packed : PackedUserOperation) (entryPoint : Address) (chainId : U64) :
    UserOperation :=
  let (verificationGasLimit, callGasLimit) := unpackU128Pair packed.accountGasLimits
  let (maxPriorityFeePerGas, maxFeePerGas) := unpackU128Pair packed.gasFees
  let (factory, factoryData) := unpackFactory packed.initCode
  let (paymaster, pmVerificationGas, pmPostOpGas, paymasterData) :=
    unpackPaymaster packed.paymasterAndData
  new {
    sender := packed.sender
    nonce := packed.nonce
    callData := packed.callData
    callGasLimit := callGasLimit
    verificationGasLimit := verificationGasLimit
    -- a value that does not fit becomes the largest one that does
    preVerificationGas :=
      if packed.preVerificationGas.toNat < 2 ^ 128 then packed.preVerificationGas.setWidth 128
      else BitVec.allOnes 128
    maxFeePerGas := maxFeePerGas
    maxPriorityFeePerGas := maxPriorityFeePerGas
    signature := packed.signature
    factory := factory
    factoryData := factoryData
    paymaster := paymaster
    paymasterVerificationGasLimit := pmVerificationGas
    paymasterPostOpGasLimit := pmPostOpGas
    paymasterData := paymasterData
    entryPoint := entryPoint
    chainId := chainId
    cachedHash := none }

end Hash

/-! ## What other components read -/

def id (uo : UserOperation) : UserOperationId :=
  { sender := uo.sender, nonce := uo.nonce }

def gasFees (uo : UserOperation) : GasFees :=
  { maxFeePerGas := uo.maxFeePerGas, maxPriorityFeePerGas := uo.maxPriorityFeePerGas }

def effectiveGasPrice (uo : UserOperation) (baseFee : U128) : U128 :=
  uo.gasFees.effectiveGasPrice baseFee

/-- The sum of all gas limits, in the word of the limits. -/
def totalGasLimit (uo : UserOperation) : U128 :=
  uo.preVerificationGas + uo.verificationGasLimit + uo.callGasLimit +
    uo.paymasterVerificationGasLimit + uo.paymasterPostOpGasLimit

/-- Everyone an operation refers to, the sender first. -/
def entities (uo : UserOperation) : List Entity :=
  [{ kind := .account, address := uo.sender }] ++
    (uo.factory.map (fun a => { kind := .factory, address := a })).toList ++
    (uo.paymaster.map (fun a => { kind := .paymaster, address := a })).toList

@[simp] theorem id_pack (uo : UserOperation) :
    (⟨uo.pack.sender, uo.pack.nonce⟩ : UserOperationId) = uo.id := rfl

section Lemmas

variable [Keccak]

@[simp] theorem hash_new (fields : UserOperation) :
    (new fields).hash = fields.computeHash := rfl

@[simp] theorem hash_setContext (uo : UserOperation) (entryPoint : Address) (chainId : U64) :
    (uo.setContext entryPoint chainId).hash =
      { uo with entryPoint := entryPoint, chainId := chainId }.computeHash := rfl

/-- Unpacking keeps sender and nonce, whatever the other fields hold. -/
@[simp] theorem id_unpack (packed : PackedUserOperation) (entryPoint : Address) (chainId : U64) :
    (unpack packed entryPoint chainId).id = ⟨packed.sender, packed.nonce⟩ := rfl

end Lemmas

end UserOperation

/-- An operation without factory and paymaster, with one byte of call data. -/
def plainOperation (sender : Address) (nonce : U256) (maxFee : U128) : UserOperation where
  sender := sender
  nonce := nonce
  callData := [0xab]
  callGasLimit := 100000
  verificationGasLimit := 200000
  preVerificationGas := 50000
  maxFeePerGas := maxFee
  maxPriorityFeePerGas := 1000000000
  signature := [0x01]
  factory := none
  factoryData := []
  paymaster := none
  paymasterVerificationGasLimit := 0
  paymasterPostOpGasLimit := 0
  paymasterData := []
  entryPoint := 0
  chainId := 0
  cachedHash := none

/-- A digest by base 257 evaluation, for runs on given operations. -/
@[reducible] def polynomialDigest : Keccak where
  keccak256 data := data.foldl (fun acc b => acc * 257 + b.setWidth 256 + 1) 0

end Bunzo
