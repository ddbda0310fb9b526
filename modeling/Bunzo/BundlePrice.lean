import Bunzo.CandidateOrder
import Bunzo.GasEstimate
import Bunzo.PackRoundTrip
import Bunzo.PricedRuns
import Bunzo.SubmitPrice

/-!
# What a bundle pays, and what it is paid

The proposer keeps operations that pay the base fee and the minimum tip of the
chain, and offers the fees of the oracle for the bundle.  The two prices are
chosen independently.

* `floor_le_price` — what every operation that is kept pays at least.
* `neverLoses_iff` — the operations of one pool.
* `pays_iff` — for which oracle answers no pool leads to a bundle that pays more
  than it is paid.
-/

namespace Bunzo

open FiniteIndices MachineWords

/-- Operations with one packed form have the same fees. -/
theorem UserOperation.gasFees_eq_of_pack {uo uo' : UserOperation} (h : uo.pack = uo'.pack) :
    uo.gasFees = uo'.gasFees := by
  have hpacked : packU128Pair uo.maxPriorityFeePerGas uo.maxFeePerGas =
      packU128Pair uo'.maxPriorityFeePerGas uo'.maxFeePerGas :=
    congrArg PackedUserOperation.gasFees h
  have hpairs := congrArg unpackU128Pair hpacked
  rw [unpackU128Pair_packU128Pair, unpackU128Pair_packU128Pair] at hpairs
  obtain ⟨htip, hmax⟩ := Prod.mk.inj hpairs
  unfold gasFees
  rw [htip, hmax]

/-- Fees that cover a base fee and a tip pay at least their sum. -/
theorem GasFees.floor_le_price {fees : GasFees} {base minTip : U128}
    (hcovers : fees.covers base minTip = true) (hfloor : base.toNat + minTip.toNat < 2 ^ 128)
    (hfits : base.toNat + fees.maxPriorityFeePerGas.toNat < 2 ^ 128) :
    base + minTip ≤ fees.effectiveGasPrice base := by
  rw [BitVec.le_def, toNat_add_of_lt hfloor]
  exact (covered_le_price_iff ((covers_iff_of_fits hfloor).mp hcovers)).mpr hfits

/-- Base fee and tip of the operation fit the word together. -/
def UserOperation.SumFits (uo : UserOperation) (base : U128) : Prop :=
  base.toNat + uo.maxPriorityFeePerGas.toNat < 2 ^ 128

/-- Each operation of the bundle pays at least `price` at the base fee. -/
def Bundle.PaysAtLeast (bundle : Bundle) (base price : U128) : Prop :=
  ∀ uo : UserOperation, uo.pack ∈ bundle.ops → uo.SumFits base →
    price ≤ uo.effectiveGasPrice base

namespace BundleProposerImpl

section Prices

variable {proposer : BundleProposerImpl} {pool : OperationPool} {fees : GasFees} {base : U128}

theorem pack_mem_bundleOf {ops : List PoolEntry} {rejectedOps : List RejectedOp} {e : PoolEntry}
    (he : e ∈ ops) : e.uo.pack ∈ (proposer.bundleOf fees ops rejectedOps).ops :=
  List.mem_map_of_mem he

/-- What the operations of a bundle pay is what the entries behind them pay. -/
theorem paysAtLeast_bundleOf {ops : List PoolEntry} {rejectedOps : List RejectedOp}
    {price : U128} :
    (proposer.bundleOf fees ops rejectedOps).PaysAtLeast base price ↔
      ∀ e ∈ ops, e.uo.SumFits base → price ≤ e.uo.effectiveGasPrice base := by
  constructor
  · intro h e he
    exact h e.uo (pack_mem_bundleOf he)
  · intro h uo hmem hfits
    obtain ⟨e, he, hpack⟩ := List.mem_map.mp hmem
    have hfees : e.uo.gasFees = uo.gasFees := UserOperation.gasFees_eq_of_pack hpack
    have htip : e.uo.maxPriorityFeePerGas = uo.maxPriorityFeePerGas :=
      congrArg GasFees.maxPriorityFeePerGas hfees
    have hprice : e.uo.effectiveGasPrice base = uo.effectiveGasPrice base := by
      unfold UserOperation.effectiveGasPrice
      rw [hfees]
    rw [← hprice]
    apply h e he
    unfold UserOperation.SumFits
    rw [htip]
    exact hfits

/-- **The floor.**  Every operation of a bundle pays the base fee and the minimum tip. -/
theorem paysAtLeast_floor
    (hfloor : base.toNat + proposer.chainSpec.minMaxPriorityFeePerGas.toNat < 2 ^ 128)
    {answers : Nat → Except ProviderError HandleOpsOut} {bundle : Bundle}
    (h : (proposer.makeBundle pool (.ok fees) (.ok base) answers).result = .ok bundle) :
    bundle.PaysAtLeast base (base + proposer.chainSpec.minMaxPriorityFeePerGas) := by
  obtain ⟨_, base', ops, rejectedOps, hbase, _, hsub, rfl⟩ := makeBundle_ok h
  obtain rfl := Except.ok.inj hbase
  rw [paysAtLeast_bundleOf]
  intro e he hfits
  have hpays : proposer.pays base e := (mem_candidates.mp (hsub.subset he)).2.2
  exact GasFees.floor_le_price hpays hfloor hfits

end Prices

/-- No bundle pays more for gas than one of its operations does. -/
def NeverLoses (proposer : BundleProposerImpl) (fees : GasFees) (base : U128)
    (pool : OperationPool) : Prop :=
  ∀ answers bundle, (proposer.makeBundle pool (.ok fees) (.ok base) answers).result = .ok bundle →
    bundle.PaysAtLeast base (bundle.gasFees.effectiveGasPrice base)

section Pools

variable {proposer : BundleProposerImpl} {pool : OperationPool} {fees : GasFees} {base : U128}

/-- **One pool.**  What can be lost is told by the candidates: a handler that accepts
all of them puts them into one bundle. -/
theorem neverLoses_iff :
    proposer.NeverLoses fees base pool ↔
      ∀ e ∈ proposer.candidates pool base, e.uo.SumFits base →
        fees.effectiveGasPrice base ≤ e.uo.effectiveGasPrice base := by
  constructor
  · intro h
    by_cases hnone : proposer.candidates pool base = []
    · rw [hnone]
      intro e he
      cases he
    · exact paysAtLeast_bundleOf.mp (h _ _ (makeBundle_success fees hnone))
  · intro h answers bundle hbundle
    obtain ⟨fees', base', ops, rejectedOps, hbase, _, hsub, rfl⟩ := makeBundle_ok hbundle
    obtain rfl := Except.ok.inj hbase
    obtain rfl := Except.ok.inj (makeBundle_fees hbundle)
    exact paysAtLeast_bundleOf.mpr (fun e he => h e (hsub.subset he))

/-- No pool leads to a loss where the bundle pays at most what every operation does. -/
theorem neverLoses_of_le
    (hfloor : base.toNat + proposer.chainSpec.minMaxPriorityFeePerGas.toNat < 2 ^ 128)
    (hcase : proposer.chainSpec.maxBundleSize = 0 ∨
      fees.effectiveGasPrice base ≤ base + proposer.chainSpec.minMaxPriorityFeePerGas) :
    proposer.NeverLoses fees base pool := by
  rw [neverLoses_iff]
  intro e he hfits
  obtain ⟨_, hfew, hpays⟩ := mem_candidates.mp he
  rcases hcase with hsize | hle
  · rw [hsize] at hfew
    exact absurd hfew (Nat.not_lt_zero _)
  · exact BitVec.le_trans hle (GasFees.floor_le_price hpays hfloor hfits)

end Pools

end BundleProposerImpl

/-! ## All pools -/

section AllPools

variable [Keccak]

/-- A new pool to which one operation was added. -/
def poolOf (uo : UserOperation) (base : U128) : OperationPool :=
  runCalls [.add uo base] (OperationPool.new (PoolConfig.ofChainSpec ChainSpec.mainnet))

/-- It has the entry of that operation and no other. -/
theorem describes_poolOf (uo : UserOperation) (base : U128) :
    Describes (poolOf uo base) {PoolEntry.new uo base 0} := by
  have hnew := Describes.new (PoolConfig.ofChainSpec ChainSpec.mainnet)
  have hroom : ¬ (OperationPool.new (PoolConfig.ofChainSpec ChainSpec.mainnet)).Rejects uo := by
    simp [OperationPool.Rejects, OperationPool.NoRoom, OperationPool.size, OperationPool.new,
      PoolConfig.ofChainSpec, ChainSpec.mainnet]
  rcases hnew.add_outcomes uo base with ⟨hrej, _⟩ | ⟨_, _, hadd, hafter⟩ | ⟨_, entry, hin, _⟩
  · exact absurd hrej hroom
  · have hpool : poolOf uo base = ((OperationPool.new (PoolConfig.ofChainSpec
        ChainSpec.mainnet)).add uo base).2 := rfl
    rw [hpool, hadd]
    exact hafter
  · cases hin

/-- With room in the bundle an operation that pays is a candidate there. -/
theorem mem_candidates_poolOf {proposer : BundleProposerImpl} {uo : UserOperation} {base : U128}
    (hsize : proposer.chainSpec.maxBundleSize ≠ 0)
    (hpays : proposer.pays base (PoolEntry.new uo base 0)) :
    PoolEntry.new uo base 0 ∈ proposer.candidates (poolOf uo base) base := by
  have hlisted : ∀ e, e ∈ (poolOf uo base).ordered.toList ↔ e = PoolEntry.new uo base 0 := by
    intro e
    rw [(describes_poolOf uo base).ordered.2 e, Finset.mem_singleton]
  refine BundleProposerImpl.mem_candidates.mpr ⟨(hlisted _).mpr rfl, ?_, hpays⟩
  have hfirst : (poolOf uo base).before (PoolEntry.new uo base 0) = [] := by
    apply List.eq_nil_iff_forall_not_mem.mpr
    intro e he
    obtain ⟨hmem, hlt⟩ := mem_ahead.mp he
    rw [(hlisted e).mp hmem] at hlt
    exact ord_ne_lt_of_lt hlt hlt
  rw [hfirst]
  exact Nat.pos_of_ne_zero hsize

/-- An operation that offers the base fee and the minimum tip, and nothing beyond. -/
def floorOperation (base minTip : U128) : UserOperation :=
  { plainOperation 1 0 (base + minTip) with maxPriorityFeePerGas := minTip }

omit [Keccak] in
theorem floorOperation_price (base minTip : U128) :
    (floorOperation base minTip).effectiveGasPrice base = base + minTip := by
  change (if base + minTip ≤ base + minTip then base + minTip else base + minTip) = _
  rw [ite_self]

omit [Keccak] in
theorem floorOperation_covers (base minTip : U128) :
    (floorOperation base minTip).gasFees.covers base minTip = true := by
  change (decide (base + minTip ≤ base + minTip) && decide (minTip ≤ minTip)) = true
  simp

/-- A pool with one operation at the floor tells whether anything can be lost. -/
theorem le_floor_of_neverLoses {proposer : BundleProposerImpl} {fees : GasFees} {base : U128}
    (hfloor : base.toNat + proposer.chainSpec.minMaxPriorityFeePerGas.toNat < 2 ^ 128)
    (h : proposer.NeverLoses fees base
      (poolOf (floorOperation base proposer.chainSpec.minMaxPriorityFeePerGas) base)) :
    proposer.chainSpec.maxBundleSize = 0 ∨
      fees.effectiveGasPrice base ≤ base + proposer.chainSpec.minMaxPriorityFeePerGas := by
  by_cases hsize : proposer.chainSpec.maxBundleSize = 0
  · exact Or.inl hsize
  · right
    have hcandidate := mem_candidates_poolOf hsize
      (floorOperation_covers base proposer.chainSpec.minMaxPriorityFeePerGas)
    have hpaid := BundleProposerImpl.neverLoses_iff.mp h _ hcandidate hfloor
    rwa [show (PoolEntry.new _ base 0).uo.effectiveGasPrice base = _ from
      floorOperation_price base _] at hpaid

/-- **When bundles lose nothing.**  In every bundle each operation pays the base fee
and the minimum tip; and for the answers of the oracle no pool, reachable or not,
leads to a bundle that pays more for gas than one of its operations does, exactly if
the bundle pays no more than that. -/
theorem pays_iff (proposer : BundleProposerImpl) (fees : GasFees) (base : U128)
    (hfloor : base.toNat + proposer.chainSpec.minMaxPriorityFeePerGas.toNat < 2 ^ 128) :
    (∀ pool answers bundle,
      (proposer.makeBundle pool (.ok fees) (.ok base) answers).result = .ok bundle →
      bundle.PaysAtLeast base (base + proposer.chainSpec.minMaxPriorityFeePerGas)) ∧
    ((∀ pool, proposer.NeverLoses fees base pool) ↔
      proposer.chainSpec.maxBundleSize = 0 ∨
        fees.effectiveGasPrice base ≤ base + proposer.chainSpec.minMaxPriorityFeePerGas) ∧
    ((∀ config calls, proposer.NeverLoses fees base (runCalls calls (OperationPool.new config))) ↔
      proposer.chainSpec.maxBundleSize = 0 ∨
        fees.effectiveGasPrice base ≤ base + proposer.chainSpec.minMaxPriorityFeePerGas) := by
  have henough : (proposer.chainSpec.maxBundleSize = 0 ∨
      fees.effectiveGasPrice base ≤ base + proposer.chainSpec.minMaxPriorityFeePerGas) →
      ∀ pool, proposer.NeverLoses fees base pool :=
    fun hcase _ => BundleProposerImpl.neverLoses_of_le hfloor hcase
  have hneeded : (∀ config calls,
      proposer.NeverLoses fees base (runCalls calls (OperationPool.new config))) →
      proposer.chainSpec.maxBundleSize = 0 ∨
        fees.effectiveGasPrice base ≤ base + proposer.chainSpec.minMaxPriorityFeePerGas :=
    fun h => le_floor_of_neverLoses hfloor (h _ _)
  refine ⟨fun _ _ _ => BundleProposerImpl.paysAtLeast_floor hfloor, ?_, ?_⟩
  · exact ⟨fun h => hneeded (fun _ _ => h _), henough⟩
  · exact ⟨hneeded, fun hcase _ _ => henough hcase _⟩

end AllPools

/-! ## A tip below the market -/

section CheapTip

/-- The smallest tip that mainnet admits, where the market pays one gwei. -/
def cheapTip : UserOperation :=
  letI := polynomialDigest
  { plainOperation 1 0 30000000000 with maxPriorityFeePerGas := 100000000 }.setContext
    ChainSpec.mainnet.entryPointV07 1

/-- It is admitted and bundled, and pays 15.1 gwei in a bundle that pays 16. -/
theorem cheapTip_underpays :
    letI := polynomialDigest
    let proposer := BundleProposerImpl.new ChainSpec.mainnet 7
    let fees : GasFees := ⟨16000000000, 1000000000⟩
    (mainnetValidator.validateSync cheapTip 15000000000).1 = .ok () ∧
      (ProviderGasOracle.new.currentFees gweiAnswers).1 = .ok fees ∧
      (ProviderGasOracle.new.baseFee gweiAnswers).1 = .ok 15000000000 ∧
      ∃ bundle, (proposer.makeBundle (poolOf cheapTip 15000000000) (.ok fees) (.ok 15000000000)
          (fun _ => .ok .success)).result = .ok bundle ∧
        cheapTip.pack ∈ bundle.ops ∧ cheapTip.SumFits 15000000000 ∧
        cheapTip.effectiveGasPrice 15000000000 = 15100000000 ∧
        bundle.gasFees.effectiveGasPrice 15000000000 = 16000000000 ∧
        ¬ bundle.PaysAtLeast 15000000000 (bundle.gasFees.effectiveGasPrice 15000000000) := by
  let _ := polynomialDigest
  intro proposer fees
  have hcandidate : PoolEntry.new cheapTip 15000000000 0 ∈
      proposer.candidates (poolOf cheapTip 15000000000) 15000000000 :=
    mem_candidates_poolOf (by decide) (by decide +kernel)
  have hfits : cheapTip.SumFits 15000000000 := by
    unfold UserOperation.SumFits
    decide +kernel
  have hpack : cheapTip.pack ∈ (proposer.bundleOf fees
      (proposer.candidates (poolOf cheapTip 15000000000) 15000000000) []).ops :=
    BundleProposerImpl.pack_mem_bundleOf hcandidate
  refine ⟨by decide +kernel, by decide, by decide, _,
    BundleProposerImpl.makeBundle_success fees (List.ne_nil_of_mem hcandidate), hpack, hfits,
    by decide +kernel, by decide, ?_⟩
  intro hpays
  exact absurd (hpays cheapTip hpack hfits) (by decide +kernel)

/-- A market tip of 0.1 gwei is the smallest that mainnet admits: nothing is lost. -/
theorem pays_iff_mainnet :
    letI := polynomialDigest
    (BundleProposerImpl.new ChainSpec.mainnet 7).NeverLoses ⟨15100000000, 100000000⟩ 15000000000
      (poolOf cheapTip 15000000000) := by
  let _ := polynomialDigest
  exact (@pays_iff polynomialDigest (BundleProposerImpl.new ChainSpec.mainnet 7)
    ⟨15100000000, 100000000⟩ 15000000000 (by decide)).2.1.mpr (Or.inr (by decide)) _

end CheapTip

end Bunzo
