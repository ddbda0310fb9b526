import Bunzo.PoolContents
import Bunzo.Validation

/-!
# The price an operation is ranked by

Validation asks whether the fees of an operation cover a base fee and a minimum
tip; the pool ranks the operation by what it pays at that base fee.  The first
adds the minimum tip to the base fee, the second the tip of the operation, which
may be any word.

* `covers_iff` — validation adds within the word.
* `price_of_wrap` — the price when the second sum does not fit the word.
* `submitPrice_iff` — when an admitted operation is ranked by what it pays.
-/

namespace Bunzo

open MachineWords

namespace GasFees

variable {fees : GasFees} {baseFee minTip : U128}

/-- What is compared if base fee and minimum tip fit the word together. -/
theorem covers_iff_of_fits (hfits : baseFee.toNat + minTip.toNat < 2 ^ 128) :
    fees.covers baseFee minTip = true ↔
      baseFee.toNat + minTip.toNat ≤ fees.maxFeePerGas.toNat ∧
        minTip.toNat ≤ fees.maxPriorityFeePerGas.toNat := by
  unfold covers
  rw [Bool.and_eq_true, decide_eq_true_eq, decide_eq_true_eq, BitVec.le_def, BitVec.le_def,
    toNat_add_of_lt hfits]

/-- Two sums of small words: what validation compares. -/
theorem covers_iff (hbase : baseFee.toNat < 2 ^ 64) (htip : minTip.toNat < 2 ^ 64) :
    fees.covers baseFee minTip = true ↔
      baseFee.toNat + minTip.toNat ≤ fees.maxFeePerGas.toNat ∧
        minTip.toNat ≤ fees.maxPriorityFeePerGas.toNat :=
  covers_iff_of_fits (by omega)

/-- What the operation pays, in numbers of any size. -/
def exactPrice (fees : GasFees) (baseFee : U128) : Nat :=
  min fees.maxFeePerGas.toNat (baseFee.toNat + fees.maxPriorityFeePerGas.toNat)

theorem price_of_fits (hfits : baseFee.toNat + fees.maxPriorityFeePerGas.toNat < 2 ^ 128) :
    (fees.effectiveGasPrice baseFee).toNat = fees.exactPrice baseFee := by
  unfold effectiveGasPrice exactPrice
  rw [toNat_min, toNat_add_of_lt hfits]

/-- A sum that does not fit comes out below both of its parts, and the price with
it. -/
theorem price_of_wrap (hwraps : 2 ^ 128 ≤ baseFee.toNat + fees.maxPriorityFeePerGas.toNat) :
    (fees.effectiveGasPrice baseFee).toNat < baseFee.toNat ∧
      (fees.effectiveGasPrice baseFee).toNat < fees.maxPriorityFeePerGas.toNat := by
  have hbase := baseFee.isLt
  have htip := fees.maxPriorityFeePerGas.isLt
  have hle : (fees.effectiveGasPrice baseFee).toNat ≤
      (baseFee + fees.maxPriorityFeePerGas).toNat := by
    unfold effectiveGasPrice
    rw [toNat_min]
    exact Nat.min_le_right _ _
  rw [BitVec.toNat_add] at hle
  omega

/-- With a tip within the cap the price is exact if the sum fits, and only then. -/
theorem price_eq_exact_iff (htip : fees.maxPriorityFeePerGas ≤ fees.maxFeePerGas) :
    (fees.effectiveGasPrice baseFee).toNat = fees.exactPrice baseFee ↔
      baseFee.toNat + fees.maxPriorityFeePerGas.toNat < 2 ^ 128 := by
  refine ⟨?_, price_of_fits⟩
  intro hexact
  by_contra hwraps
  have hlow := (price_of_wrap (Nat.le_of_not_lt hwraps)).2
  have hle : fees.maxPriorityFeePerGas.toNat ≤ fees.exactPrice baseFee :=
    le_min htip (Nat.le_add_left _ _)
  omega

/-- Fees that cover a base fee and a tip are priced at least at their sum if the
other sum fits, and only then. -/
theorem covered_le_price_iff
    (hcovers : baseFee.toNat + minTip.toNat ≤ fees.maxFeePerGas.toNat ∧
      minTip.toNat ≤ fees.maxPriorityFeePerGas.toNat) :
    baseFee.toNat + minTip.toNat ≤ (fees.effectiveGasPrice baseFee).toNat ↔
      baseFee.toNat + fees.maxPriorityFeePerGas.toNat < 2 ^ 128 := by
  refine ⟨?_, ?_⟩
  · intro hle
    by_contra hwraps
    have hlow := (price_of_wrap (Nat.le_of_not_lt hwraps)).1
    omega
  · intro hfits
    rw [price_of_fits hfits]
    exact le_min hcovers.1 (Nat.add_le_add_left hcovers.2 _)

end GasFees

namespace Validator

variable {v : Validator} {uo : UserOperation} {baseFee : U128}

/-- What an admitted operation says about its fees. -/
theorem Passes.fees (h : v.Passes uo baseFee) :
    uo.gasFees.covers baseFee v.chainSpec.minMaxPriorityFeePerGas = true ∧
      uo.maxPriorityFeePerGas ≤ uo.maxFeePerGas := by
  have hfields := h.1
  unfold validateFields at hfields
  cases hstatic : v.validateStaticFields uo with
  | error e =>
      rw [hstatic] at hfields
      cases hfields
  | ok u =>
      rw [hstatic] at hfields
      refine ⟨?_, ?_⟩
      · by_contra hcovers
        have hprice : v.validateGasPrice uo baseFee =
            .error (.maxFeeTooLow uo.maxFeePerGas baseFee) := if_neg hcovers
        rw [hprice] at hfields
        cases hfields
      · by_contra hexceeds
        unfold validateStaticFields at hstatic
        simp only [BitVec.not_le.mp hexceeds, if_true] at hstatic
        split at hstatic <;> try cases hstatic
        split at hstatic <;> try cases hstatic
        split at hstatic <;> cases hstatic

end Validator

section Added

variable [Keccak]

/-- An operation that was added is found under its hash, with the price it has at
the base fee of the call. -/
theorem getByHash_of_added {pool : OperationPool} {S : Finset PoolEntry} (h : Describes pool S)
    {uo : UserOperation} {baseFee : U128} {hash : B256}
    (hadded : (pool.add uo baseFee).1 = .ok hash) :
    (pool.add uo baseFee).2.getByHash hash =
      some (PoolEntry.new uo baseFee pool.nextSequence) := by
  rcases h.add_outcomes uo baseFee with ⟨_, err, hrej⟩ | ⟨_, _, hadd, hafter⟩ |
    ⟨_, _, _, _, _, hadd, hafter⟩
  · rw [hrej] at hadded
    cases hadded
  all_goals
    rw [hadd] at hadded ⊢
    obtain rfl := Except.ok.inj hadded
    exact (hafter.byHash _ _).mpr ⟨Finset.mem_insert_self _ _, rfl⟩

/-- **When the rank says what an operation pays.**  For an operation that passes
validation and is added at the same base fee, the pool holds an entry whose price
is the exact one, is at least the base fee and the minimum tip, and is computed
without a carry, each exactly if base fee and tip of the operation fit the word
together. -/
theorem submitPrice_iff (config : PoolConfig) (calls : List PoolCall) (v : Validator)
    (uo : UserOperation) (baseFee : U128) (hash : B256)
    (hpasses : (v.validateSync uo baseFee).1 = .ok ()) (hbase : baseFee.toNat < 2 ^ 64)
    (htip : v.chainSpec.minMaxPriorityFeePerGas.toNat < 2 ^ 64)
    (hadded : ((runCalls calls (OperationPool.new config)).add uo baseFee).1 = .ok hash) :
    ∃ entry, ((runCalls calls (OperationPool.new config)).add uo baseFee).2.getByHash hash =
        some entry ∧ entry.uo = uo ∧
      (entry.submitGasPrice.toNat = uo.gasFees.exactPrice baseFee ↔
        baseFee.toNat + uo.maxPriorityFeePerGas.toNat < 2 ^ 128) ∧
      ((checkedAdd baseFee uo.maxPriorityFeePerGas).isSome ↔
        baseFee.toNat + uo.maxPriorityFeePerGas.toNat < 2 ^ 128) ∧
      (baseFee.toNat + v.chainSpec.minMaxPriorityFeePerGas.toNat ≤ entry.submitGasPrice.toNat ↔
        baseFee.toNat + uo.maxPriorityFeePerGas.toNat < 2 ^ 128) := by
  obtain ⟨S, h⟩ := describes_runCalls config calls
  have hpassed : v.Passes uo baseFee := by
    rcases v.validateSync_cases uo baseFee with ⟨_, err, hrefused⟩ | ⟨hpassed, _⟩
    · rw [hrefused] at hpasses
      cases hpasses
    · exact hpassed
  obtain ⟨hcovers, hcap⟩ := hpassed.fees
  refine ⟨_, getByHash_of_added h hadded, rfl, ?_, checkedAdd_isSome, ?_⟩
  · exact GasFees.price_eq_exact_iff hcap
  · exact GasFees.covered_le_price_iff ((GasFees.covers_iff hbase htip).mp hcovers)

end Added

/-! ## The largest tip -/

/-- An operation that offers the largest word as cap and as tip. -/
def largestTip : UserOperation :=
  letI := polynomialDigest
  { plainOperation 1 0 30000000000 with
      maxFeePerGas := BitVec.allOnes 128
      maxPriorityFeePerGas := BitVec.allOnes 128 }
  |>.setContext ChainSpec.mainnet.entryPointV07 1

def mainnetValidator : Validator where
  chainSpec := ChainSpec.mainnet
  reputation := ReputationManager.new ReputationConfig.default
  pool := none

/-- It is admitted at a base fee of 15 gwei, and ranked one wei below that. -/
theorem largestTip_underpriced :
    letI := polynomialDigest
    let pool := OperationPool.new (PoolConfig.ofChainSpec ChainSpec.mainnet)
    (mainnetValidator.validateSync largestTip 15000000000).1 = .ok () ∧
      (pool.add largestTip 15000000000).1 = .ok largestTip.hash ∧
      ∃ entry, (pool.add largestTip 15000000000).2.getByHash largestTip.hash = some entry ∧
        entry.submitGasPrice = 14999999999 ∧
        ¬ (entry.submitGasPrice.toNat = largestTip.gasFees.exactPrice 15000000000 ∧
          (checkedAdd (15000000000 : U128) largestTip.maxPriorityFeePerGas).isSome ∧
          (15000000000 : U128).toNat + ChainSpec.mainnet.minMaxPriorityFeePerGas.toNat ≤
            entry.submitGasPrice.toNat) := by
  let _ := polynomialDigest
  intro pool
  have hadded : (pool.add largestTip 15000000000).1 = .ok largestTip.hash := by decide +kernel
  refine ⟨by decide +kernel, hadded, PoolEntry.new largestTip 15000000000 0, ?_, by decide +kernel,
    ?_⟩
  · exact getByHash_of_added (Describes.new _) hadded
  · decide +kernel

/-- An operation with a tip of one gwei is ranked by what it pays. -/
theorem submitPrice_iff_plain :
    letI := polynomialDigest
    let uo := (plainOperation 1 0 30000000000).setContext ChainSpec.mainnet.entryPointV07 1
    let pool := OperationPool.new (PoolConfig.ofChainSpec ChainSpec.mainnet)
    ∃ entry, (pool.add uo 15000000000).2.getByHash uo.hash = some entry ∧ entry.uo = uo ∧
      (entry.submitGasPrice.toNat = uo.gasFees.exactPrice 15000000000 ↔
        (15000000000 : U128).toNat + uo.maxPriorityFeePerGas.toNat < 2 ^ 128) ∧
      ((checkedAdd (15000000000 : U128) uo.maxPriorityFeePerGas).isSome ↔
        (15000000000 : U128).toNat + uo.maxPriorityFeePerGas.toNat < 2 ^ 128) ∧
      ((15000000000 : U128).toNat + mainnetValidator.chainSpec.minMaxPriorityFeePerGas.toNat ≤
          entry.submitGasPrice.toNat ↔
        (15000000000 : U128).toNat + uo.maxPriorityFeePerGas.toNat < 2 ^ 128) := by
  let _ := polynomialDigest
  intro uo pool
  exact @submitPrice_iff polynomialDigest (PoolConfig.ofChainSpec ChainSpec.mainnet) []
    mainnetValidator uo 15000000000 uo.hash (by decide +kernel) (by decide) (by decide)
    (by decide +kernel)

end Bunzo
