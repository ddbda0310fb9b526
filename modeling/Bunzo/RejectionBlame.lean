import Bunzo.CandidateOrder

/-!
# Who is blamed for a failing simulation

The handler names a failing operation by its index, and the list that the index
belongs to gets shorter with every attempt.

* `Drops` — the calls of a loop, each dropping the entry it names from the list
  it was asked about.
* `Drops.perm`, `Drops.blamed` — nothing is lost or doubled on the way, and every
  rejection says what was answered about the entry that it drops.
* `makeBundle_accounts` — a returned bundle accounts for every candidate.
-/

namespace Bunzo

open FiniteIndices BundleProposerImpl

/-- The calls drop entries from a list, each one the entry that it names, until
`kept` is left. -/
inductive Drops : List PoolEntry → List HandleOpsCall → List PoolEntry → List RejectedOp →
    List PoolEntry → Prop
  | done (ops : List PoolEntry) (calls : List HandleOpsCall) : Drops ops calls [] [] ops
  | drop {ops kept dropped : List PoolEntry} {calls : List HandleOpsCall}
      {rejectedOps : List RejectedOp} {call : HandleOpsCall} {index : Nat} {reason : Message}
      (hindex : index < ops.length) (hops : call.ops = packOps ops)
      (hanswer : call.answer = .ok (.failedOp index reason))
      (tail : Drops (ops.eraseIdx index) calls dropped rejectedOps kept) :
      Drops ops (call :: calls) (ops[index] :: dropped)
        ({ hash := ops[index].hash, reason := reason } :: rejectedOps) kept

/-- The rejection says what a call answered about the entry: it stood at the
index of the answer, in the list of the call. -/
def Blames (candidates : List PoolEntry) (calls : List HandleOpsCall) (e : PoolEntry)
    (r : RejectedOp) : Prop :=
  r.hash = e.hash ∧ ∃ call ∈ calls, ∃ index listed,
    call.answer = .ok (.failedOp index r.reason) ∧ call.ops = packOps listed ∧
      listed.Sublist candidates ∧ listed[index]? = some e

theorem Blames.mono {ops candidates : List PoolEntry} {calls calls' : List HandleOpsCall}
    {e : PoolEntry} {r : RejectedOp} (h : Blames ops calls e r) (hops : ops.Sublist candidates)
    (hcalls : calls ⊆ calls') : Blames candidates calls' e r := by
  obtain ⟨hhash, call, hcall, index, listed, hanswer, hlisted, hsub, hat⟩ := h
  exact ⟨hhash, call, hcalls hcall, index, listed, hanswer, hlisted, hsub.trans hops, hat⟩

namespace Drops

variable {ops kept dropped : List PoolEntry} {calls : List HandleOpsCall}
  {rejectedOps : List RejectedOp}

/-- What is left keeps its order. -/
theorem kept_sublist (h : Drops ops calls dropped rejectedOps kept) : kept.Sublist ops := by
  induction h with
  | done ops calls => exact List.Sublist.refl ops
  | drop hindex hops hanswer tail ih => exact ih.trans (List.eraseIdx_sublist _ _)

/-- Every entry is left or dropped, once. -/
theorem perm (h : Drops ops calls dropped rejectedOps kept) : (kept ++ dropped).Perm ops := by
  induction h with
  | done ops calls => rw [List.append_nil]
  | @drop ops kept dropped calls rejectedOps call index reason hindex hops hanswer tail ih =>
      have hhead : (kept ++ ops[index] :: dropped).Perm (ops[index] :: (kept ++ dropped)) :=
        List.perm_middle
      exact hhead.trans ((ih.cons _).trans (List.getElem_cons_eraseIdx_perm hindex))

/-- Every rejection blames the entry that it drops. -/
theorem blamed (h : Drops ops calls dropped rejectedOps kept) :
    List.Forall₂ (Blames ops calls) dropped rejectedOps := by
  induction h with
  | done ops calls => exact List.Forall₂.nil
  | @drop ops kept dropped calls rejectedOps call index reason hindex hops hanswer tail ih =>
      refine List.Forall₂.cons ?_ (ih.imp ?_)
      · exact ⟨rfl, call, List.mem_cons_self, index, ops, hanswer, hops, List.Sublist.refl ops,
          List.getElem?_eq_getElem hindex⟩
      · intro e r hblames
        exact hblames.mono (List.eraseIdx_sublist _ _) (List.subset_cons_self _ _)

end Drops

namespace BundleProposerImpl

variable (proposer : BundleProposerImpl) (fees : GasFees)
  (answers : Nat → Except ProviderError HandleOpsOut)

/-- The attempts before the last one. -/
theorem attempts_before_last :
    (List.range (proposer.maxRetries + 1)).countP (· < proposer.maxRetries) ≤
      proposer.maxRetries := by
  rw [List.range_succ, List.countP_append, List.countP_singleton]
  have hle := List.countP_le_length (p := (· < proposer.maxRetries))
    (l := List.range proposer.maxRetries)
  rw [List.length_range] at hle
  simpa using hle

theorem nodup_candidates (pool : OperationPool) (base : U128) :
    (proposer.candidates pool base).Nodup :=
  (nodup_toList.sublist (List.take_sublist _ _)).filter _

/-- Returning the list as it is drops nothing. -/
theorem drops_of_whole {bundle : Bundle} {ops : List PoolEntry} {rejectedOps : List RejectedOp}
    (calls : List HandleOpsCall) (attempts : List Nat)
    (hbundle : proposer.bundleOf fees ops rejectedOps = bundle) :
    ∃ dropped rejectedOps' kept,
      Drops ops calls dropped rejectedOps' kept ∧
      rejectedOps'.length ≤ attempts.countP (· < proposer.maxRetries) ∧
      bundle = proposer.bundleOf fees kept (rejectedOps ++ rejectedOps') :=
  ⟨[], [], ops, Drops.done ops calls, Nat.zero_le _, by rw [List.append_nil, hbundle]⟩

/-- **What the loop does to its list.**  If it returns a bundle, its calls drop
entries, at most one an attempt before the last, and the bundle is made of what
is left. -/
theorem retryLoop_drops {bundle : Bundle} (attempts : List Nat) :
    ∀ (ops : List PoolEntry) (rejectedOps : List RejectedOp),
      (proposer.retryLoop fees answers attempts ops rejectedOps).result = .ok bundle →
      ∃ dropped rejectedOps' kept,
        Drops ops (proposer.retryLoop fees answers attempts ops rejectedOps).calls dropped
          rejectedOps' kept ∧
        rejectedOps'.length ≤ attempts.countP (· < proposer.maxRetries) ∧
        bundle = proposer.bundleOf fees kept (rejectedOps ++ rejectedOps') := by
  induction attempts with
  | nil =>
      intro ops rejectedOps hbundle
      by_cases hops : ops = []
      · subst hops
        cases hbundle
      · change proposer.fallThrough fees ops rejectedOps = .ok bundle at hbundle
        rw [proposer.fallThrough_eq fees hops] at hbundle
        exact proposer.drops_of_whole fees _ _ (Except.ok.inj hbundle)
  | cons attempt attempts ih =>
      intro ops rejectedOps hbundle
      by_cases hops : ops = []
      · subst hops
        rw [retryLoop_nil] at hbundle
        cases hbundle
      · obtain ⟨call, hcall, hanswer, ⟨_, _, e, hloop⟩ | ⟨_, hloop⟩ | ⟨_, _, _, _, hloop⟩ |
          ⟨index, reason, hindex, hfail, hlt, hloop⟩⟩ :=
          proposer.retryLoop_cases fees answers hops attempt attempts rejectedOps
        · rw [hloop] at hbundle
          cases hbundle
        · rw [hloop] at hbundle
          exact proposer.drops_of_whole fees _ _ (Except.ok.inj hbundle)
        · rw [hloop] at hbundle
          exact proposer.drops_of_whole fees _ _ (Except.ok.inj hbundle)
        · rw [hloop] at hbundle ⊢
          obtain ⟨dropped, rejectedOps', kept, hdrops, hfew, hkept⟩ := ih _ _ hbundle
          refine ⟨_, _, kept, hdrops.drop hindex hcall (hanswer.trans hfail), ?_, ?_⟩
          · rw [List.countP_cons_of_pos (by simpa using hlt), List.length_cons]
            omega
          · rw [hkept, List.append_assoc, List.singleton_append]

/-- A bundle that accounts for every candidate: the candidates are different
entries in the order of the pool, the bundle has some of them packed in that
order, and rejects the others for what the handler answered about them. -/
structure Accounts (proposer : BundleProposerImpl) (pool : OperationPool) (base : U128)
    (calls : List HandleOpsCall) (bundle : Bundle) : Prop where
  sorted : (proposer.candidates pool base).Pairwise (fun a b => OrderEntry.cmp a b = .lt)
  byHash : ∀ e ∈ proposer.candidates pool base, pool.getByHash e.hash = some e
  pays : ∀ e ∈ proposer.candidates pool base, proposer.pays base e
  accounted : ∃ kept dropped : List PoolEntry,
    kept.Sublist (proposer.candidates pool base) ∧ bundle.ops = packOps kept ∧
      (kept ++ dropped).Perm (proposer.candidates pool base) ∧ (kept ++ dropped).Nodup ∧
      List.Forall₂ (Blames (proposer.candidates pool base) calls) dropped bundle.rejectedOps
  few : bundle.rejectedOps.length ≤ proposer.maxRetries

end BundleProposerImpl

/-- **Who is blamed.**  For every reachable pool and all answers of the oracle and
the handler, a returned bundle accounts for every candidate at the base fee it
was made for. -/
theorem makeBundle_accounts [Keccak] (config : PoolConfig) (calls : List PoolCall)
    (proposer : BundleProposerImpl) (currentFees : Except ProviderError GasFees)
    (baseFee : Except ProviderError U128) (answers : Nat → Except ProviderError HandleOpsOut)
    (bundle : Bundle)
    (hbundle : (proposer.makeBundle (runCalls calls (OperationPool.new config)) currentFees baseFee
      answers).result = .ok bundle) :
    ∃ base, baseFee = .ok base ∧
      Accounts proposer (runCalls calls (OperationPool.new config)) base
        (proposer.makeBundle (runCalls calls (OperationPool.new config)) currentFees baseFee
          answers).calls bundle := by
  obtain ⟨S, h⟩ := describes_runCalls config calls
  cases currentFees with
  | error e => cases hbundle
  | ok fees =>
      cases baseFee with
      | error e => cases hbundle
      | ok base =>
          refine ⟨base, rfl, ?_⟩
          by_cases hnone : proposer.candidates (runCalls calls (OperationPool.new config)) base = []
          · rw [makeBundle_of_none fees answers hnone] at hbundle
            cases hbundle
          · rw [makeBundle_of_candidates fees answers hnone] at hbundle ⊢
            obtain ⟨dropped, rejectedOps, kept, hdrops, hfew, rfl⟩ :=
              proposer.retryLoop_drops fees answers _ _ _ hbundle
            refine ⟨proposer.sorted_candidates _ base, ?_, fun e he => (mem_candidates.mp he).2.2,
              ?_, ?_⟩
            · intro e he
              exact (h.byHash e.hash e).mpr ⟨(h.ordered.2 e).mp (mem_candidates.mp he).1, rfl⟩
            · refine ⟨kept, dropped, hdrops.kept_sublist, rfl, hdrops.perm, ?_, ?_⟩
              · exact hdrops.perm.nodup_iff.mpr (proposer.nodup_candidates _ base)
              · exact hdrops.blamed
            · exact hfew.trans proposer.attempts_before_last

/-- The handler fails the first operation of the first list, and passes the rest. -/
def failsOnce : Nat → Except ProviderError HandleOpsOut
  | 0 => .ok (.failedOp 0 [.text "AA21 didn't pay prefund"])
  | _ + 1 => .ok .success

/-- With two candidates and one failure the bundle has one operation, and accounts
for both. -/
theorem risingPrices_accounts :
    let proposer := BundleProposerImpl.new ChainSpec.mainnet 7
    let proposal := proposer.makeBundle risingPrices
      (.ok { maxFeePerGas := 20000000000, maxPriorityFeePerGas := 1000000000 })
      (.ok 1000000000) failsOnce
    ∃ bundle, proposal.result = .ok bundle ∧ bundle.rejectedOps.length = 1 ∧
      ∃ base, (.ok 1000000000 : Except ProviderError U128) = .ok base ∧
        Accounts proposer risingPrices base proposal.calls bundle := by
  intro proposer proposal
  have hlengths : proposal.result.toOption.map (fun b => b.rejectedOps.length) = some 1 := by
    decide +kernel
  obtain ⟨bundle, hsome, hlength⟩ := Option.map_eq_some_iff.mp hlengths
  have hbundle : proposal.result = .ok bundle := by
    cases hresult : proposal.result with
    | error e =>
        rw [hresult] at hsome
        cases hsome
    | ok b =>
        rw [hresult] at hsome
        exact congrArg Except.ok (Option.some.inj hsome)
  exact ⟨bundle, hbundle, hlength,
    @makeBundle_accounts polynomialDigest _ _ proposer _ _ failsOnce bundle hbundle⟩

end Bunzo
