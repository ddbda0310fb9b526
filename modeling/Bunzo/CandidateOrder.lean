import Bunzo.BundleProposer
import Bunzo.NonceSequences

/-!
# Which operations a bundle starts with

The proposer takes a prefix of the pool, which is ordered by the price at
submission, and drops what does not pay at the current base fee.  Neither step
looks at nonces, and the first one does not look at the current fees.

* `Describes.mem_candidates` — an entry is a candidate if it pays and few
  entries come before it.
* `inNonceOrder_iff` — when the first simulated list respects nonces.
* `simulates_iff` — when a pooled operation that pays leads to a simulation.
-/

namespace Bunzo

open FiniteIndices MachineWords

/-! ## Candidates -/

/-- The entries that come before an entry in the order of the pool. -/
def OperationPool.before (pool : OperationPool) (e : PoolEntry) : List PoolEntry :=
  ahead pool.ordered e

namespace BundleProposerImpl

variable (proposer : BundleProposerImpl) (pool : OperationPool) (fees : GasFees) (baseFee : U128)
  (answers : Nat → Except ProviderError HandleOpsOut)

/-- The operation pays the current base fee and the minimum tip. -/
def pays (e : PoolEntry) : Bool :=
  e.uo.gasFees.covers baseFee proposer.chainSpec.minMaxPriorityFeePerGas

variable {proposer pool baseFee} in
/-- **Candidates.**  They are the entries that pay and have few before them. -/
theorem mem_candidates {e : PoolEntry} :
    e ∈ proposer.candidates pool baseFee ↔
      e ∈ pool.ordered.toList ∧ (pool.before e).length < proposer.chainSpec.maxBundleSize ∧
        proposer.pays baseFee e := by
  change e ∈ List.filter (proposer.pays baseFee)
    (pool.ordered.toList.take proposer.chainSpec.maxBundleSize) ↔ _
  rw [List.mem_filter, mem_take_iff, and_assoc]
  rfl

/-- They come in the order of the pool. -/
theorem sorted_candidates :
    (proposer.candidates pool baseFee).Pairwise (fun a b => OrderEntry.cmp a b = .lt) :=
  (sorted_toList.sublist (List.take_sublist _ _)).filter _

/-- With no candidate nothing is simulated, and otherwise all of them are first. -/
theorem head_calls :
    ((proposer.makeBundle pool (.ok fees) (.ok baseFee) answers).calls.head?).map
        HandleOpsCall.ops =
      if (proposer.candidates pool baseFee).isEmpty then none
      else some (packOps (proposer.candidates pool baseFee)) := by
  by_cases hnone : proposer.candidates pool baseFee = []
  · rw [makeBundle_of_none fees answers hnone, hnone]
    rfl
  · rw [makeBundle_of_candidates fees answers hnone, List.range_succ_eq_map,
      if_neg (by simpa using hnone)]
    obtain ⟨call, hcall, _, ⟨_, _, e, hloop⟩ | ⟨_, hloop⟩ | ⟨_, _, _, _, hloop⟩ |
      ⟨_, _, _, _, _, hloop⟩⟩ := proposer.retryLoop_cases fees answers hnone 0 _ []
    all_goals
      rw [hloop]
      exact congrArg some hcall

end BundleProposerImpl

/-! ## Nonces in a bundle -/

/-- The id under which an operation is executed. -/
def PackedUserOperation.id (op : PackedUserOperation) : UserOperationId :=
  { sender := op.sender, nonce := op.nonce }

/-- Same sender and same key, so that the one nonce counts on from the other. -/
def UserOperationId.SameLane (a b : UserOperationId) : Prop :=
  a.sender = b.sender ∧ a.nonceKey = b.nonceKey

/-- In every lane the list counts upwards and starts with the lowest pooled
number. -/
structure InNonceOrder (pooled : Set UserOperationId) (listed : List UserOperationId) : Prop where
  increasing : listed.Pairwise (fun a b => a.SameLane b → a.nonceSequence < b.nonceSequence)
  complete : ∀ b ∈ listed, ∀ a ∈ pooled, a.SameLane b → a.nonceSequence < b.nonceSequence →
    a ∈ listed

/-- Before an operation that pays and has few before it, the pool has those of
its lane with a lower number, and they pay as well. -/
def BundleProposerImpl.LanesFirst (proposer : BundleProposerImpl) (pool : OperationPool)
    (baseFee : U128) : Prop :=
  ∀ a ∈ pool.ordered.toList, ∀ b ∈ pool.ordered.toList, a.id.SameLane b.id →
    a.id.nonceSequence < b.id.nonceSequence →
    (pool.before b).length < proposer.chainSpec.maxBundleSize → proposer.pays baseFee b →
    OrderEntry.cmp a b = .lt ∧ proposer.pays baseFee a

namespace Describes

variable {pool : OperationPool} {S : Finset PoolEntry} {proposer : BundleProposerImpl}
  {baseFee : U128}

/-- The pooled ids are those of the members. -/
theorem mem_ids (h : Describes pool S) {id : UserOperationId} :
    id ∈ pool.ids ↔ ∃ e ∈ S, e.id = id := by
  rw [OperationPool.mem_ids, Std.ExtTreeMap.mem_iff_isSome_getElem?, Option.isSome_iff_exists]
  exact exists_congr (h.byId id)

/-- **The candidates of a pool respect nonces exactly if its order does**, as
far as the operations that pay and have few before them are concerned. -/
theorem inNonceOrder_candidates (h : Describes pool S) :
    InNonceOrder pool.ids ((proposer.candidates pool baseFee).map PoolEntry.id) ↔
      proposer.LanesFirst pool baseFee := by
  have hmem : ∀ {e}, e ∈ pool.ordered.toList ↔ e ∈ S := fun {e} => h.ordered.2 e
  have hpairs := pairwise_iff_of_sorted
    (R := fun a b => a.id.SameLane b.id → a.id.nonceSequence < b.id.nonceSequence)
    (proposer.sorted_candidates pool baseFee)
  refine ⟨?_, ?_⟩
  · rintro ⟨hincreasing, hcomplete⟩ a ha b hb hlane hlt hfew hpays
    rw [List.pairwise_map, hpairs] at hincreasing
    have hbcand := BundleProposerImpl.mem_candidates.mpr ⟨hb, hfew, hpays⟩
    have hpooled : a.id ∈ pool.ids := h.mem_ids.mpr ⟨a, hmem.mp ha, rfl⟩
    have hlisted := hcomplete b.id (List.mem_map_of_mem hbcand) a.id hpooled hlane hlt
    -- the entry listed under the id is the pooled one
    obtain ⟨a', ha', hid⟩ := List.mem_map.mp hlisted
    obtain ⟨hin, _, hapays⟩ := BundleProposerImpl.mem_candidates.mp ha'
    obtain rfl := h.byId.key_injOn (hmem.mp hin) (hmem.mp ha) hid
    refine ⟨?_, hapays⟩
    cases hord : OrderEntry.cmp a' b with
    | lt => rfl
    | eq =>
        have hhash := OrderEntry.hash_eq_of_cmp hord
        obtain rfl := h.byHash.key_injOn (hmem.mp ha) (hmem.mp hb) hhash
        exact absurd hlt (BitVec.lt_irrefl _)
    | gt =>
        have hba : OrderEntry.cmp b a' = .lt := Std.OrientedCmp.gt_iff_lt.mp hord
        have hle := hincreasing b hbcand a' ha' hba ⟨hlane.1.symm, hlane.2.symm⟩
        exact absurd (BitVec.lt_trans hlt hle) (BitVec.lt_irrefl _)
  · intro hfirst
    refine ⟨?_, ?_⟩
    · rw [List.pairwise_map, hpairs]
      intro a ha b hb hord hlane
      obtain ⟨hain, hafew, hapays⟩ := BundleProposerImpl.mem_candidates.mp ha
      obtain ⟨hbin, _, _⟩ := BundleProposerImpl.mem_candidates.mp hb
      rcases BitVec.lt_trichotomy a.id.nonceSequence b.id.nonceSequence with hlt | heq | hlt
      · exact hlt
      · have hid := UserOperationId.ext_of_parts hlane.1 hlane.2 heq
        obtain rfl := h.byId.key_injOn (hmem.mp hain) (hmem.mp hbin) hid
        exact absurd hord (ord_ne_lt_of_lt hord)
      · have hba := (hfirst b hbin a hain ⟨hlane.1.symm, hlane.2.symm⟩ hlt hafew hapays).1
        exact absurd hba (ord_ne_lt_of_lt hord)
    · intro id hid id' hid' hlane hlt
      obtain ⟨b, hb, rfl⟩ := List.mem_map.mp hid
      obtain ⟨hbin, hbfew, hbpays⟩ := BundleProposerImpl.mem_candidates.mp hb
      obtain ⟨a, haS, rfl⟩ := h.mem_ids.mp hid'
      have hain := hmem.mpr haS
      obtain ⟨hord, hapays⟩ := hfirst a hain b hbin hlane hlt hbfew hbpays
      have hafew : (pool.before a).length < (pool.before b).length := length_ahead_lt hain hord
      exact List.mem_map_of_mem
        (BundleProposerImpl.mem_candidates.mpr ⟨hain, hafew.trans hbfew, hapays⟩)

end Describes

theorem map_id_packOps (ops : List PoolEntry) :
    (BundleProposerImpl.packOps ops).map PackedUserOperation.id = ops.map (fun e => e.uo.id) := by
  unfold BundleProposerImpl.packOps
  rw [List.map_map]
  rfl

/-- **The first simulated list.**  For any pool and all answers of the oracle and
the handler, it respects nonces exactly if the order of the pool does. -/
theorem inNonceOrder_iff [Keccak] (config : PoolConfig) (calls : List PoolCall)
    (proposer : BundleProposerImpl) (currentFees : Except ProviderError GasFees)
    (baseFee : Except ProviderError U128) (answers : Nat → Except ProviderError HandleOpsOut) :
    (∀ call, (proposer.makeBundle (runCalls calls (OperationPool.new config)) currentFees baseFee
        answers).calls.head? = some call →
      InNonceOrder (runCalls calls (OperationPool.new config)).ids
        (call.ops.map PackedUserOperation.id)) ↔
    ∀ fees base, currentFees = .ok fees → baseFee = .ok base →
      proposer.LanesFirst (runCalls calls (OperationPool.new config)) base := by
  obtain ⟨S, h, hstored⟩ := describes_forall (P := fun e => e.id = e.uo.id)
    (Describes.new config) (by simp) (fun _ _ (_ : _ ∈ calls) _ => rfl)
  cases currentFees with
  | error e => exact iff_of_true (by intro call hcall; cases hcall) (by simp)
  | ok fees =>
      cases baseFee with
      | error e => exact iff_of_true (by intro call hcall; cases hcall) (by simp)
      | ok base =>
          have hhead := proposer.head_calls (runCalls calls (OperationPool.new config)) fees base
            answers
          have hids : (proposer.candidates (runCalls calls (OperationPool.new config)) base).map
              (fun e => e.uo.id) =
              (proposer.candidates (runCalls calls (OperationPool.new config)) base).map
                PoolEntry.id := by
            apply List.map_congr_left
            intro e he
            have hin := (BundleProposerImpl.mem_candidates.mp he).1
            exact (hstored e ((h.ordered.2 e).mp hin)).symm
          have hanswered : (∀ f b, (Except.ok fees : Except ProviderError GasFees) = .ok f →
              (Except.ok base : Except ProviderError U128) = .ok b →
              proposer.LanesFirst (runCalls calls (OperationPool.new config)) b) ↔
              proposer.LanesFirst (runCalls calls (OperationPool.new config)) base := by
            refine ⟨fun hall => hall fees base rfl rfl, ?_⟩
            intro hfirst f b _ hb
            obtain rfl : base = b := Except.ok.inj hb
            exact hfirst
          rw [hanswered, ← h.inNonceOrder_candidates, ← hids, ← map_id_packOps]
          split at hhead
          · next hempty =>
              rw [Option.map_eq_none_iff] at hhead
              rw [hhead, List.isEmpty_iff.mp hempty]
              exact iff_of_true (by simp) ⟨List.Pairwise.nil, by simp [BundleProposerImpl.packOps]⟩
          · obtain ⟨call, hcall, hops⟩ := Option.map_eq_some_iff.mp hhead
            rw [hcall, ← hops]
            simp

/-- Two operations of one sender, of which the one with the higher nonce paid more
when the base fee was 15 gwei. -/
def risingPrices : OperationPool :=
  letI := polynomialDigest
  runCalls
    [.add ((plainOperation 1 0 15500000000).setContext ChainSpec.mainnet.entryPointV07 1)
        15000000000,
      .add ((plainOperation 1 1 30000000000).setContext ChainSpec.mainnet.entryPointV07 1)
        15000000000]
    (OperationPool.new (PoolConfig.ofChainSpec ChainSpec.mainnet))

/-- At a base fee of one gwei both pay, and nonce 1 is simulated before nonce 0. -/
theorem risingPrices_out_of_order :
    ¬ ∀ call, ((BundleProposerImpl.new ChainSpec.mainnet 7).makeBundle risingPrices
        (.ok { maxFeePerGas := 20000000000, maxPriorityFeePerGas := 1000000000 })
        (.ok 1000000000) (fun _ => .ok .success)).calls.head? = some call →
      InNonceOrder risingPrices.ids (call.ops.map PackedUserOperation.id) := by
  intro hall
  have hids : ((BundleProposerImpl.new ChainSpec.mainnet 7).makeBundle risingPrices
      (.ok { maxFeePerGas := 20000000000, maxPriorityFeePerGas := 1000000000 })
      (.ok 1000000000) (fun _ => .ok .success)).calls.head?.map
        (fun call => call.ops.map PackedUserOperation.id) = some [⟨1, 1⟩, ⟨1, 0⟩] := by
    decide +kernel
  obtain ⟨call, hcall, hops⟩ := Option.map_eq_some_iff.mp hids
  have horder := (hall call hcall).increasing
  rw [hops, List.pairwise_pair] at horder
  exact absurd (horder ⟨rfl, by decide⟩) (by decide)

/-! ## Operations that pay -/

/-- The entries before an entry that do not pay. -/
def BundleProposerImpl.unpaidBefore (proposer : BundleProposerImpl) (pool : OperationPool)
    (baseFee : U128) (e : PoolEntry) : List PoolEntry :=
  (pool.before e).filter (fun b => !proposer.pays baseFee b)

namespace BundleProposerImpl

variable {proposer : BundleProposerImpl} {pool : OperationPool} {baseFee : U128}

/-- There is a candidate exactly if an entry that pays has few unpaid ones before
it. -/
theorem candidates_ne_nil :
    proposer.candidates pool baseFee ≠ [] ↔ ∃ e ∈ pool.ordered.toList, proposer.pays baseFee e ∧
      (proposer.unpaidBefore pool baseFee e).length < proposer.chainSpec.maxBundleSize := by
  refine ⟨?_, ?_⟩
  · intro hne
    obtain ⟨e, he⟩ := List.exists_mem_of_ne_nil _ hne
    obtain ⟨hin, hfew, hpays⟩ := mem_candidates.mp he
    exact ⟨e, hin, hpays, (List.length_filter_le _ _).trans_lt hfew⟩
  · rintro ⟨e, hin, hpays, hfew⟩
    obtain ⟨first, hfirst, hfirstPays, hleast⟩ :=
      exists_first (p := proposer.pays baseFee) ⟨e, hin, hpays⟩
    -- what comes before the first entry that pays is unpaid, and before every other one
    have hsub : pool.before first ⊆ proposer.unpaidBefore pool baseFee e := by
      intro b hb
      obtain ⟨hbin, hlt⟩ := mem_ahead.mp hb
      have hunpaid : ¬ proposer.pays baseFee b := by
        intro hb
        rcases hleast b hbin hb with rfl | hafter
        · exact ord_ne_lt_of_lt hlt hlt
        · exact ord_ne_lt_of_lt hlt hafter
      refine List.mem_filter.mpr ⟨mem_ahead.mpr ⟨hbin, ?_⟩, by simpa using hunpaid⟩
      rcases hleast e hin hpays with rfl | hafter
      · exact hlt
      · exact Std.TransCmp.lt_trans hlt hafter
    have hnodup : (pool.before first).Nodup := nodup_toList.filter _
    exact List.ne_nil_of_mem (mem_candidates.mpr
      ⟨hfirst, (hnodup.subperm hsub).length_le.trans_lt hfew, hfirstPays⟩)

end BundleProposerImpl

/-- **Crowding out.**  Pooled operations that pay lead to a simulation exactly if
one of them has fewer unpaid ones before it than a bundle has places. -/
theorem simulates_iff [Keccak] (config : PoolConfig) (calls : List PoolCall)
    (proposer : BundleProposerImpl) (fees : GasFees) (baseFee : U128)
    (answers : Nat → Except ProviderError HandleOpsOut) :
    ((∃ e ∈ (runCalls calls (OperationPool.new config)).ordered.toList,
        proposer.pays baseFee e) →
      ∃ call, (proposer.makeBundle (runCalls calls (OperationPool.new config)) (.ok fees)
        (.ok baseFee) answers).calls.head? = some call ∧ call.ops ≠ []) ↔
    ((∃ e ∈ (runCalls calls (OperationPool.new config)).ordered.toList,
        proposer.pays baseFee e) →
      ∃ e ∈ (runCalls calls (OperationPool.new config)).ordered.toList, proposer.pays baseFee e ∧
        (proposer.unpaidBefore (runCalls calls (OperationPool.new config)) baseFee e).length <
          proposer.chainSpec.maxBundleSize) := by
  have hhead := proposer.head_calls (runCalls calls (OperationPool.new config)) fees baseFee
    answers
  apply imp_congr_right
  intro _
  rw [← BundleProposerImpl.candidates_ne_nil]
  split at hhead
  · next hempty =>
      rw [Option.map_eq_none_iff] at hhead
      rw [hhead, List.isEmpty_iff.mp hempty]
      exact iff_of_false (by simp) (by simp)
  · next hempty =>
      obtain ⟨call, hcall, hops⟩ := Option.map_eq_some_iff.mp hhead
      rw [← BundleProposerImpl.packOps_isEmpty, List.isEmpty_iff] at hempty
      refine iff_of_true ⟨call, hcall, hops ▸ hempty⟩ ?_
      intro hnil
      exact hempty (by rw [hnil]; rfl)

/-- An operation added at a high base fee with a cap of 60 gwei, and one added at a
low base fee with a cap of 200 gwei. -/
def hiddenOperation : OperationPool :=
  letI := polynomialDigest
  runCalls
    [.add ((plainOperation 1 0 60000000000).setContext ChainSpec.mainnet.entryPointV07 1)
        50000000000,
      .add ((plainOperation 2 0 200000000000).setContext ChainSpec.mainnet.entryPointV07 1)
        5000000000]
    (OperationPool.new (PoolConfig.ofChainSpec ChainSpec.mainnet))

/-- With one place in a bundle and a base fee of 100 gwei the first one hides the
second, which alone pays: nothing is simulated. -/
theorem hiddenOperation_not_simulated :
    let proposer := BundleProposerImpl.new { ChainSpec.mainnet with maxBundleSize := 1 } 7
    let proposal := proposer.makeBundle hiddenOperation
      (.ok { maxFeePerGas := 150000000000, maxPriorityFeePerGas := 1000000000 })
      (.ok 100000000000) (fun _ => .ok .success)
    (∃ e ∈ hiddenOperation.ordered.toList, proposer.pays 100000000000 e) ∧
      ¬ ∃ call, proposal.calls.head? = some call ∧ call.ops ≠ [] := by
  intro proposer proposal
  refine ⟨?_, ?_⟩
  · have hany : hiddenOperation.ordered.toList.any (proposer.pays 100000000000) = true := by
      decide +kernel
    exact List.any_eq_true.mp hany
  · have hnone : proposal.calls.length = 0 := by decide +kernel
    rintro ⟨call, hcall, _⟩
    rw [List.length_eq_zero_iff.mp hnone] at hcall
    cases hcall

end Bunzo
