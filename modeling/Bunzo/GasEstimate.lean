import Bunzo.PoolIndices
import Bunzo.BundleProposer
import Bunzo.Validation

/-!
# The gas of a bundle

The estimate adds five 128-bit limits for each operation, narrows the sum to 64
bits, adds up the operations and puts a twentieth on top.  None of these steps
is checked, and validation sets no upper bound to a limit.

* `exactGas` — the same sum in numbers.
* `estimateBundleGas_eq` — the estimate is that number, reduced to 64 bits.
* `gasEstimate_iff` — a returned bundle has enough gas exactly as long as the
  number with its twentieth fits the word.
-/

namespace Bunzo

open MachineWords

/-! ## Sums in words and in numbers -/

/-- The sum of the five limits, as a number. -/
def UserOperation.exactGasLimit (uo : UserOperation) : Nat :=
  uo.preVerificationGas.toNat + uo.verificationGasLimit.toNat + uo.callGasLimit.toNat +
    uo.paymasterVerificationGasLimit.toNat + uo.paymasterPostOpGasLimit.toNat

theorem UserOperation.toNat_totalGasLimit (uo : UserOperation) :
    uo.totalGasLimit.toNat = uo.exactGasLimit % 2 ^ 128 := by
  unfold totalGasLimit exactGasLimit
  simp only [BitVec.toNat_add, Nat.mod_add_mod]

/-- Narrowing loses nothing more than the sum in words has lost already. -/
theorem UserOperation.setWidth_totalGasLimit (uo : UserOperation) :
    uo.totalGasLimit.setWidth 64 = BitVec.ofNat 64 uo.exactGasLimit := by
  apply BitVec.eq_of_toNat_eq
  rw [BitVec.toNat_setWidth, uo.toNat_totalGasLimit, BitVec.toNat_ofNat]
  exact Nat.mod_mod_of_dvd _ (pow_dvd_pow 2 (by decide))

namespace BundleProposerImpl

variable (proposer : BundleProposerImpl) (ops : List PoolEntry)

/-- The intrinsic gas, the overhead of every operation and all limits, as a
number. -/
def exactGas : Nat :=
  proposer.chainSpec.transactionIntrinsicGas.toNat +
    proposer.chainSpec.perUserOpV07Gas.toNat * ops.length +
    (ops.map (fun e => e.uo.exactGasLimit)).sum

/-- The estimate is the exact number, reduced to its word. -/
theorem estimateBundleGas_eq :
    proposer.estimateBundleGas ops = BitVec.ofNat 64 (proposer.exactGas ops) := by
  have hlimits : (ops.map (fun e => e.uo.totalGasLimit.setWidth 64)) =
      ops.map (fun e => BitVec.ofNat 64 e.uo.exactGasLimit) := by
    apply List.map_congr_left
    intro e _
    exact e.uo.setWidth_totalGasLimit
  have hsum : (ops.map (fun e => BitVec.ofNat 64 e.uo.exactGasLimit)).foldl (· + ·) 0 = _ :=
    foldl_add_ofNat (w := 64) (fun e : PoolEntry => e.uo.exactGasLimit) ops 0
  have hword (x : U64) : BitVec.ofNat 64 x.toNat = x := BitVec.ofNat_toNat 64 x
  unfold estimateBundleGas exactGas
  rw [hlimits, hsum, Nat.zero_add, Nat.add_right_comm, BitVec.ofNat_add, BitVec.ofNat_add,
    BitVec.ofNat_mul, hword, hword]

/-- The exact number with its twentieth fits the word of the estimate. -/
def GasFits : Prop := proposer.exactGas ops + proposer.exactGas ops / 20 < 2 ^ 64

instance : Decidable (proposer.GasFits ops) := inferInstanceAs (Decidable (_ < _))

/-- The gas of a bundle is at least the exact number, and no step on the way to it
has lost anything. -/
structure FullyFunded (gasEstimate : U64) : Prop where
  covers : proposer.exactGas ops ≤ gasEstimate.toNat
  limits : ∀ e ∈ ops, e.uo.totalGasLimit.toNat = e.uo.exactGasLimit
  narrowed : ∀ e ∈ ops, (e.uo.totalGasLimit.setWidth 64).toNat = e.uo.exactGasLimit
  estimated : (proposer.estimateBundleGas ops).toNat = proposer.exactGas ops
  buffered : gasEstimate.toNat = proposer.exactGas ops + proposer.exactGas ops / 20

theorem exactGasLimit_le {e : PoolEntry} (he : e ∈ ops) :
    e.uo.exactGasLimit ≤ proposer.exactGas ops := by
  have hsum := List.le_sum_of_mem (List.mem_map_of_mem (f := fun e => e.uo.exactGasLimit) he)
  unfold exactGas
  omega

variable {proposer ops}

/-- The gas of a bundle of these operations. -/
theorem toNat_gasEstimate (fees : GasFees) (rejectedOps : List RejectedOp) :
    (proposer.bundleOf fees ops rejectedOps).gasEstimate.toNat =
      (proposer.exactGas ops % 2 ^ 64 + proposer.exactGas ops % 2 ^ 64 / 20) % 2 ^ 64 := by
  change (proposer.estimateBundleGas ops + proposer.estimateBundleGas ops / 20).toNat = _
  rw [proposer.estimateBundleGas_eq, BitVec.toNat_add, BitVec.toNat_udiv, BitVec.toNat_ofNat]
  rfl

theorem toNat_gasEstimate_of_lt (fees : GasFees) (rejectedOps : List RejectedOp)
    (h : proposer.exactGas ops < 2 ^ 64) :
    (proposer.bundleOf fees ops rejectedOps).gasEstimate.toNat =
      (proposer.exactGas ops + proposer.exactGas ops / 20) % 2 ^ 64 := by
  rw [toNat_gasEstimate, Nat.mod_eq_of_lt h]

/-- Too large a number always makes the estimate too low. -/
theorem covers_iff (fees : GasFees) (rejectedOps : List RejectedOp) :
    proposer.exactGas ops ≤ (proposer.bundleOf fees ops rejectedOps).gasEstimate.toNat ↔
      proposer.GasFits ops := by
  have hlt := (proposer.bundleOf fees ops rejectedOps).gasEstimate.isLt
  by_cases hnarrow : proposer.exactGas ops < 2 ^ 64
  · rw [toNat_gasEstimate_of_lt fees rejectedOps hnarrow]
    unfold GasFits
    -- a sum that wraps falls behind its larger part
    by_cases hfits : proposer.exactGas ops + proposer.exactGas ops / 20 < 2 ^ 64
    · rw [Nat.mod_eq_of_lt hfits]
      omega
    · rw [Nat.mod_eq_sub_mod (by omega), Nat.mod_eq_of_lt (by omega)]
      omega
  · unfold GasFits
    omega

theorem fullyFunded_iff (fees : GasFees) (rejectedOps : List RejectedOp) :
    proposer.FullyFunded ops (proposer.bundleOf fees ops rejectedOps).gasEstimate ↔
      proposer.GasFits ops := by
  refine ⟨fun h => (covers_iff fees rejectedOps).mp h.covers, ?_⟩
  intro hfits
  have hlt : proposer.exactGas ops + proposer.exactGas ops / 20 < 2 ^ 64 := hfits
  refine ⟨(covers_iff fees rejectedOps).mpr hfits, ?_, ?_, ?_, ?_⟩
  · intro e he
    have hle := exactGasLimit_le proposer ops he
    rw [e.uo.toNat_totalGasLimit]
    exact Nat.mod_eq_of_lt (by omega)
  · intro e he
    have hle := exactGasLimit_le proposer ops he
    rw [e.uo.setWidth_totalGasLimit, BitVec.toNat_ofNat]
    exact Nat.mod_eq_of_lt (by omega)
  · rw [proposer.estimateBundleGas_eq, BitVec.toNat_ofNat]
    exact Nat.mod_eq_of_lt (by omega)
  · rw [toNat_gasEstimate_of_lt fees rejectedOps (by omega)]
    exact Nat.mod_eq_of_lt hlt

/-- Fewer operations need no more gas. -/
theorem GasFits.of_sublist {ops' : List PoolEntry} (h : proposer.GasFits ops)
    (hsub : ops'.Sublist ops) : proposer.GasFits ops' := by
  have hlength := Nat.mul_le_mul_left proposer.chainSpec.perUserOpV07Gas.toNat hsub.length_le
  have hsum := (hsub.map (fun e => e.uo.exactGasLimit)).sum_le_sum (by simp)
  unfold GasFits exactGas at h ⊢
  omega

/-! ## What a bundle is made of -/

/-- A proposal returns a bundle of some of the candidates. -/
theorem makeBundle_ok {pool : OperationPool} {currentFees : Except ProviderError GasFees}
    {baseFee : Except ProviderError U128} {answers : Nat → Except ProviderError HandleOpsOut}
    {bundle : Bundle}
    (h : (proposer.makeBundle pool currentFees baseFee answers).result = .ok bundle) :
    ∃ fees base ops rejectedOps, baseFee = .ok base ∧ proposer.candidates pool base ≠ [] ∧
      ops.Sublist (proposer.candidates pool base) ∧
      bundle = proposer.bundleOf fees ops rejectedOps := by
  cases currentFees with
  | error e => cases h
  | ok fees =>
      cases baseFee with
      | error e => cases h
      | ok base =>
          by_cases hsome : proposer.candidates pool base = []
          · rw [makeBundle_of_none fees answers hsome] at h
            cases h
          · rw [makeBundle_of_candidates fees answers hsome] at h
            obtain ⟨ops, rejectedOps, hsub, _, hbundle⟩ := retryLoop_ok h
            exact ⟨fees, base, ops, rejectedOps, rfl, hsome, hsub, hbundle⟩

/-- The handler accepts the first simulation: all candidates are in the bundle. -/
theorem makeBundle_success {pool : OperationPool} {base : U128} (fees : GasFees)
    (hsome : proposer.candidates pool base ≠ []) :
    (proposer.makeBundle pool (.ok fees) (.ok base) (fun _ => .ok .success)).result =
      .ok (proposer.bundleOf fees (proposer.candidates pool base) []) := by
  rw [makeBundle_of_candidates fees _ hsome, List.range_succ_eq_map]
  obtain ⟨call, _, _, ⟨hpass, _⟩ | ⟨_, hloop⟩ | ⟨_, _, hfail, _⟩ | ⟨_, _, _, hfail, _⟩⟩ :=
    proposer.retryLoop_cases fees (fun _ => .ok .success) hsome 0 _ []
  · exact absurd rfl hpass
  · rw [hloop]
  · cases hfail
  · cases hfail

/-- The bundle is made of some of the candidates, and has all the gas they need. -/
def Funds (proposer : BundleProposerImpl) (candidates : List PoolEntry) (bundle : Bundle) : Prop :=
  ∃ ops, ops.Sublist candidates ∧ bundle.ops = packOps ops ∧
    proposer.FullyFunded ops bundle.gasEstimate

/-- **The gas of a bundle.**  Each returned bundle is made of some of the
candidates, and it has the gas they need, computed without a loss, exactly if
their exact gas with its twentieth fits the word; so all bundles that the answers
of the handler can lead to have it exactly if that of all candidates fits. -/
theorem gasEstimate_iff (proposer : BundleProposerImpl) (pool : OperationPool) :
    (∀ currentFees baseFee answers bundle,
      (proposer.makeBundle pool currentFees baseFee answers).result = .ok bundle →
      ∃ base ops, baseFee = .ok base ∧ ops.Sublist (proposer.candidates pool base) ∧
        bundle.ops = packOps ops ∧
        (proposer.FullyFunded ops bundle.gasEstimate ↔ proposer.GasFits ops) ∧
        (proposer.exactGas ops ≤ bundle.gasEstimate.toNat ↔ proposer.GasFits ops)) ∧
    ∀ fees base,
      (∀ answers bundle,
        (proposer.makeBundle pool (.ok fees) (.ok base) answers).result = .ok bundle →
        proposer.Funds (proposer.candidates pool base) bundle) ↔
      (proposer.candidates pool base = [] ∨ proposer.GasFits (proposer.candidates pool base)) := by
  refine ⟨?_, ?_⟩
  · intro currentFees baseFee answers bundle h
    obtain ⟨fees, base, ops, rejectedOps, hbase, _, hsub, rfl⟩ := makeBundle_ok h
    exact ⟨base, ops, hbase, hsub, rfl, fullyFunded_iff fees rejectedOps,
      covers_iff fees rejectedOps⟩
  · intro fees base
    refine ⟨?_, ?_⟩
    · intro hall
      by_cases hsome : proposer.candidates pool base = []
      · exact Or.inl hsome
      · right
        obtain ⟨ops, hsub, hops, hfunded⟩ := hall _ _ (makeBundle_success fees hsome)
        have hlength := congrArg List.length hops
        unfold bundleOf packOps at hlength
        rw [List.length_map, List.length_map] at hlength
        obtain rfl := hsub.eq_of_length hlength.symm
        exact (fullyFunded_iff fees []).mp hfunded
    · intro hfits answers bundle h
      obtain ⟨fees', base', ops, rejectedOps, hbase, hsome, hsub, rfl⟩ := makeBundle_ok h
      obtain rfl : base = base' := Except.ok.inj hbase
      refine ⟨ops, hsub, rfl, (fullyFunded_iff fees' rejectedOps).mpr ?_⟩
      rcases hfits with hnone | hfits
      · exact absurd hnone hsome
      · exact hfits.of_sublist hsub

end BundleProposerImpl

/-- The bundle of the four operations has all the gas they need. -/
theorem gasEstimate_iff_four :
    let proposer := BundleProposerImpl.new ChainSpec.mainnet 7
    proposer.Funds (proposer.candidates fourOperations 15000000000)
      (proposer.bundleOf { maxFeePerGas := 20000000000, maxPriorityFeePerGas := 1000000000 }
        (proposer.candidates fourOperations 15000000000) []) := by
  intro proposer
  have hsome : proposer.candidates fourOperations 15000000000 ≠ [] := by decide +kernel
  exact ((BundleProposerImpl.gasEstimate_iff proposer fourOperations).2 _ _).mpr
    (Or.inr (by decide +kernel)) _ _ (BundleProposerImpl.makeBundle_success _ hsome)

/-- An operation whose call gas limit is `2 ^ 64`. -/
def hugeOperation : UserOperation :=
  letI := polynomialDigest
  { plainOperation 1 0 30000000000 with callGasLimit := 0x10000000000000000 }.setContext
    ChainSpec.mainnet.entryPointV07 1

/-- Validation accepts the operation, and its bundle gets 305025 gas. -/
theorem hugeOperation_underfunded :
    letI := polynomialDigest
    let pool := runCalls [.add hugeOperation 15000000000]
      (OperationPool.new (PoolConfig.ofChainSpec ChainSpec.mainnet))
    let validator : Validator :=
      { chainSpec := ChainSpec.mainnet
        reputation := .new .default
        pool := some (OperationPool.new (PoolConfig.ofChainSpec ChainSpec.mainnet)) }
    let proposer := BundleProposerImpl.new ChainSpec.mainnet 7
    (validator.validateSync hugeOperation 15000000000).1 = .ok () ∧
      (proposer.makeBundle pool (.ok { maxFeePerGas := 20000000000, maxPriorityFeePerGas := 1 })
        (.ok 15000000000) (fun _ => .ok .success)).result.toOption.map
          (fun bundle => (bundle.ops, bundle.gasEstimate)) =
        some (BundleProposerImpl.packOps (proposer.candidates pool 15000000000), 305025) ∧
      proposer.exactGas (proposer.candidates pool 15000000000) = 2 ^ 64 + 290500 := by
  decide +kernel

end Bunzo
