import Bunzo.MachineWords

/-!
# Values shared by every component

Words, addresses and byte strings, the digest function, message texts, gas
fees, entities, and the fields of the chain specification that the components
below read.

The digest is a parameter: the class `Keccak` names one function from byte
strings to 32-byte words, about which nothing is assumed here.
-/

namespace Bunzo

open MachineWords

abbrev U32 := BitVec 32
abbrev U64 := BitVec 64
abbrev U128 := BitVec 128
abbrev U256 := BitVec 256
abbrev Address := BitVec 160
abbrev B256 := BitVec 256
abbrev Bytes := List Byte

-- one instance a key type, so that all maps over it are of one type
instance Address.transOrd : Std.TransOrd Address := BitVec.instTransOrd

instance B256.transOrd : Std.TransOrd B256 := BitVec.instTransOrd

/-- The digest function of the library the program links against. -/
class Keccak where
  keccak256 : Bytes → B256

export Keccak (keccak256)

/-- One piece of a formatted text; a value is kept, not rendered. -/
inductive Piece where
  | text (s : String)
  | address (a : Address)
  | number (n : Nat)
  | hex (data : Bytes)
deriving DecidableEq

/-- A text built by the formatting machinery. -/
abbrev Message := List Piece

/-- Errors of the node connection. -/
inductive ProviderError where
  | transport (msg : Message)
  | contractRevert (msg : Message)
  | entryPoint (msg : Message)
  | simulationFailed (msg : Message)
  | invalidResponse (msg : Message)
  | other (msg : Message)
deriving DecidableEq

/-! ## Gas fees -/

/-- The two fees that an operation or a transaction offers. -/
structure GasFees where
  maxFeePerGas : U128
  maxPriorityFeePerGas : U128
deriving DecidableEq

namespace GasFees

/-- The gas price paid at a base fee. -/
def effectiveGasPrice (fees : GasFees) (baseFee : U128) : U128 :=
  min fees.maxFeePerGas (baseFee + fees.maxPriorityFeePerGas)

/-- Whether the fees pay a base fee and a minimum tip. -/
def covers (fees : GasFees) (baseFee minPriorityFee : U128) : Bool :=
  decide (baseFee + minPriorityFee ≤ fees.maxFeePerGas) &&
    decide (minPriorityFee ≤ fees.maxPriorityFeePerGas)

end GasFees

/-! ## Entities -/

/-- Who takes part in an operation. -/
inductive EntityType where
  | account
  | paymaster
  | factory
  | aggregator
deriving DecidableEq

/-- The name an entity type is printed with. -/
def EntityType.display : EntityType → String
  | .account => "account"
  | .paymaster => "paymaster"
  | .factory => "factory"
  | .aggregator => "aggregator"

/-- One address that takes part, and as what. -/
structure Entity where
  kind : EntityType
  address : Address
deriving DecidableEq

/-- An entity is printed as its kind and its address. -/
def Entity.display (e : Entity) : Message :=
  [.text e.kind.display, .text ":", .address e.address]

/-! ## Chain specification -/

/-- The fields of the chain specification that a modelled component reads. -/
structure ChainSpec where
  id : U64
  entryPointV07 : Address
  maxTransactionSizeBytes : Nat
  transactionIntrinsicGas : U64
  perUserOpV07Gas : U64
  maxBundleSize : Nat
  maxPoolSize : Nat
  maxOpsPerSender : Nat
  chainHistorySize : U64
  minMaxPriorityFeePerGas : U128
  replacementFeeBumpBps : U32
deriving DecidableEq

namespace ChainSpec

/-- The main chain. -/
def mainnet : ChainSpec where
  id := 1
  entryPointV07 := 0x0000000071727De22E5E9d8BAf0edAc6f37da032
  maxTransactionSizeBytes := 131072
  transactionIntrinsicGas := 21000
  perUserOpV07Gas := 19500
  maxBundleSize := 16
  maxPoolSize := 4096
  maxOpsPerSender := 4
  chainHistorySize := 128
  minMaxPriorityFeePerGas := 100000000
  replacementFeeBumpBps := 1000

/-- A chain for development: no minimum tip, a shorter history. -/
def dev : ChainSpec where
  id := 31337
  entryPointV07 := 0
  maxTransactionSizeBytes := 131072
  transactionIntrinsicGas := 21000
  perUserOpV07Gas := 19500
  maxBundleSize := 16
  maxPoolSize := 4096
  maxOpsPerSender := 4
  chainHistorySize := 64
  minMaxPriorityFeePerGas := 0
  replacementFeeBumpBps := 1000

end ChainSpec

end Bunzo
