import Bunzo.GasEstimate
import Bunzo.HandleOpsCalldata
import Bunzo.SystemRuns

/-!
# Signed operations of the assembled bundler

Operations go a long way from a client to the entry point: accepted, pooled,
proposed, simulated, signed, maybe signed again at higher fees.

* `signed_as_simulated` — what is signed is what was simulated last, with a
  twentieth more gas.
* `signed_accepted` — what the entry point reads from it are operations that were
  accepted, each at most once.
-/

namespace Bunzo

open FiniteIndices ReachableStates

/-! ## What was simulated -/

/-- The transaction that the handler simulates; it has no nonce. -/
structure SimulatedTx where
  recipient : Address
  gasLimit : U64
  fees : GasFees
  calldata : Bytes

def buildHandleOpsTx [Keccak] (entryPoint : Address) (call : HandleOpsCall) : SimulatedTx where
  recipient := entryPoint
  gasLimit := call.gasLimit
  fees := call.gasFees
  calldata := encodeHandleOps call.ops call.beneficiary

/-- The bundle that is returned is what the call was asked for; a twentieth is added to
its gas. -/
structure AskedFor (bundle : Bundle) (call : HandleOpsCall) : Prop where
  ops : call.ops = bundle.ops
  beneficiary : call.beneficiary = bundle.beneficiary
  gasFees : call.gasFees = bundle.gasFees
  gasEstimate : bundle.gasEstimate = call.gasLimit + call.gasLimit / 20

/-- The last simulation of a proposal that returns a bundle. -/
def Proposal.EndsWith (p : Proposal) (bundle : Bundle) (call : HandleOpsCall) : Prop :=
  p.result = .ok bundle ∧ p.calls.getLast? = some call ∧ AskedFor bundle call

namespace BundleProposerImpl

variable {proposer : BundleProposerImpl} {fees : GasFees}
  {answers : Nat → Except ProviderError HandleOpsOut} {bundle : Bundle}

theorem endsWith_single {ops : List PoolEntry} {rejectedOps : List RejectedOp}
    {answer : Except ProviderError HandleOpsOut} {call : HandleOpsCall}
    (hcall : call = ⟨packOps ops, proposer.beneficiary, proposer.estimateBundleGas ops, fees,
      answer⟩)
    (h : Except.ok (proposer.bundleOf fees ops rejectedOps) =
      (Except.ok bundle : Except ProposerError Bundle)) :
    Proposal.EndsWith
      { result := .ok (proposer.bundleOf fees ops rejectedOps), calls := [call] } bundle call := by
  obtain rfl := Except.ok.inj h
  subst hcall
  exact ⟨rfl, rfl, rfl, rfl, rfl, rfl⟩

/-- Earlier simulations do not come last. -/
theorem EndsWith.cons {p : Proposal} {call : HandleOpsCall} (h : p.EndsWith bundle call)
    (earlier : HandleOpsCall) :
    Proposal.EndsWith { result := p.result, calls := earlier :: p.calls } bundle call := by
  obtain ⟨hresult, hlast, hasked⟩ := h
  refine ⟨hresult, ?_, hasked⟩
  rw [List.getLast?_cons, hlast]
  rfl

/-- One round of the loop, given what the rounds after it do. -/
theorem endsWith_round {attempt : Nat} {attempts : List Nat} {ops : List PoolEntry}
    {rejectedOps : List RejectedOp}
    (hrest : attempt < proposer.maxRetries → ∀ ops' rejectedOps',
      (proposer.retryLoop fees answers attempts ops' rejectedOps').result = .ok bundle →
      ∃ call, (proposer.retryLoop fees answers attempts ops' rejectedOps').EndsWith bundle call)
    (h : (proposer.retryLoop fees answers (attempt :: attempts) ops rejectedOps).result =
      .ok bundle) :
    ∃ call, (proposer.retryLoop fees answers (attempt :: attempts) ops rejectedOps).EndsWith
      bundle call := by
  by_cases hops : ops = []
  · subst hops
    rw [retryLoop_nil] at h
    cases h
  · rw [retryLoop, if_neg (by simpa using hops)] at h ⊢
    cases hanswer : answers attempt with
    | error e =>
        simp only [hanswer] at h
        cases h
    | ok out =>
        cases out with
        | success =>
            simp only [hanswer] at h ⊢
            exact ⟨_, endsWith_single rfl h⟩
        | signatureValidationFailed addr =>
            simp only [hanswer] at h
            cases h
        | revert data =>
            simp only [hanswer] at h
            cases h
        | failedOp index reason =>
            simp only [hanswer, proposer.fallThrough_eq fees hops] at h ⊢
            by_cases hlast : proposer.maxRetries ≤ attempt
            · simp only [hlast, if_true] at h ⊢
              exact ⟨_, endsWith_single rfl h⟩
            · simp only [hlast, if_false] at h ⊢
              cases hindex : ops[index]? with
              | none =>
                  simp only [hindex] at h ⊢
                  exact ⟨_, endsWith_single rfl h⟩
              | some removed =>
                  simp only [hindex] at h ⊢
                  obtain ⟨call, hcall⟩ := hrest (Nat.lt_of_not_le hlast) _ _ h
                  exact ⟨call, EndsWith.cons hcall _⟩

/-- Whatever way the loop ends, the bundle that it returns is what it asked for last. -/
theorem retryLoop_endsWith :
    ∀ (left attempt : Nat) (ops : List PoolEntry) (rejectedOps : List RejectedOp),
      attempt + left = proposer.maxRetries →
      (proposer.retryLoop fees answers (List.range' attempt (left + 1)) ops
        rejectedOps).result = .ok bundle →
      ∃ call, (proposer.retryLoop fees answers (List.range' attempt (left + 1)) ops
        rejectedOps).EndsWith bundle call := by
  intro left
  induction left with
  | zero =>
      intro attempt ops rejectedOps hmax h
      refine endsWith_round ?_ h
      intro hlt
      omega
  | succ left ih =>
      intro attempt ops rejectedOps hmax h
      refine endsWith_round ?_ h
      intro _ ops' rejectedOps'
      exact ih (attempt + 1) ops' rejectedOps' (by omega)

/-- A bundle is what its proposal asked for last. -/
theorem makeBundle_endsWith {pool : OperationPool} {currentFees : Except ProviderError GasFees}
    {baseFee : Except ProviderError U128}
    (h : (proposer.makeBundle pool currentFees baseFee answers).result = .ok bundle) :
    ∃ call, (proposer.makeBundle pool currentFees baseFee answers).EndsWith bundle call := by
  cases currentFees with
  | error e => cases h
  | ok fees =>
      cases baseFee with
      | error e => cases h
      | ok base =>
          by_cases hsome : proposer.candidates pool base = []
          · rw [makeBundle_of_none fees answers hsome] at h
            cases h
          · rw [makeBundle_of_candidates fees answers hsome, List.range_eq_range'] at h ⊢
            exact retryLoop_endsWith proposer.maxRetries 0 _ _ (Nat.zero_add _) h

end BundleProposerImpl

/-! ## What is signed -/

/-- A signed transaction is the simulated one, with a twentieth more gas and maybe other
fees. -/
structure SignedAs [Keccak] (tx : TransactionRequest) (simulated : SimulatedTx) : Prop where
  recipient : tx.recipient = simulated.recipient
  gasLimit : tx.gasLimit = simulated.gasLimit + simulated.gasLimit / 20
  calldata : tx.input.calldata = simulated.calldata

section Runs

variable [Keccak]

namespace RecordedSystem

variable {s : RecordedSystem} {bundle : Bundle}

omit [Keccak] in
/-- A bundle of the bundler's proposer is made of some pooled operations, one for an id. -/
theorem makeBundle_of_pool {pool : OperationPool} {S : Finset PoolEntry} (h : Describes pool S)
    {proposer : BundleProposerImpl} {currentFees : Except ProviderError GasFees}
    {baseFee : Except ProviderError U128} {answers : Nat → Except ProviderError HandleOpsOut}
    (hbundle : (proposer.makeBundle pool currentFees baseFee answers).result = .ok bundle) :
    bundle.beneficiary = proposer.beneficiary ∧ ∃ entries : List PoolEntry,
      bundle.ops = BundleProposerImpl.packOps entries ∧
      entries.length ≤ proposer.chainSpec.maxBundleSize ∧ (entries.map PoolEntry.id).Nodup ∧
      ∀ e ∈ entries, e ∈ S := by
  obtain ⟨fees, base, entries, rejectedOps, _, _, hsub, rfl⟩ :=
    BundleProposerImpl.makeBundle_ok hbundle
  have hbest : entries.Sublist (pool.bestOperations proposer.chainSpec.maxBundleSize) :=
    hsub.trans List.filter_sublist
  have hall : entries.Sublist pool.ordered.toList := hbest.trans (List.take_sublist _ _)
  have hmem : ∀ e ∈ entries, e ∈ S := fun e he => (h.ordered.2 e).mp (hall.subset he)
  refine ⟨rfl, entries, rfl, hbest.length_le.trans (List.length_take_le _ _), ?_, hmem⟩
  apply (hall.nodup nodup_toList).map_on
  intro a ha b hb hid
  exact h.byId.key_injOn (hmem a ha) (hmem b hb) hid

/-- The proposal of the bundler's proposer over a pool. -/
def proposal (s : RecordedSystem) (pool : OperationPool)
    (currentFees : Except ProviderError GasFees) (baseFee : Except ProviderError U128)
    (answers : Nat → Except ProviderError HandleOpsOut) : Proposal :=
  (BundleProposerImpl.new s.system.task.chainSpec s.system.task.signerAddress).makeBundle pool
    currentFees baseFee answers

/-- What is known of the bundle of a run: it was proposed, and it is made of accepted
operations. -/
structure Bundled (s : RecordedSystem) (bundle : Bundle) : Prop where
  proposed : ∃ pool currentFees baseFee answers,
    (s.proposal pool currentFees baseFee answers).result = .ok bundle
  beneficiary : bundle.beneficiary = s.system.task.signerAddress
  accepted : ∃ uos : List UserOperation, bundle.ops = uos.map UserOperation.pack ∧
    uos.length ≤ s.system.task.chainSpec.maxBundleSize ∧ (uos.map UserOperation.id).Nodup ∧
    ∀ uo ∈ uos, uo ∈ s.accepted

/-- The task is in shape, and its bundle is known. -/
structure Carries (s : RecordedSystem) : Prop where
  shape : s.system.task.FullShape
  bundled : ∀ bundle, s.system.task.currentBundle = some bundle → s.Bundled bundle

omit [Keccak] in
/-- The constants of the task and more acceptances keep what is known of a bundle. -/
theorem Bundled.mono {s' : RecordedSystem} (h : s.Bundled bundle)
    (hspec : s'.system.task.chainSpec = s.system.task.chainSpec)
    (hsigner : s'.system.task.signerAddress = s.system.task.signerAddress)
    (haccepted : s.accepted ⊆ s'.accepted) : s'.Bundled bundle := by
  obtain ⟨hproposed, hbeneficiary, uos, hops, hlength, hids, huos⟩ := h
  constructor
  · unfold proposal at hproposed ⊢
    rwa [hspec, hsigner]
  · rwa [hsigner]
  · refine ⟨uos, hops, ?_, hids, fun uo huo => haccepted (huos uo huo)⟩
    rwa [hspec]

/-- A bundle that is proposed from the pool of a run is known. -/
theorem bundled_of_proposal {S : Finset PoolEntry} (hS : s.Holds S)
    {currentFees : Except ProviderError GasFees} {baseFee : Except ProviderError U128}
    {answers : Nat → Except ProviderError HandleOpsOut}
    (hbundle : (s.proposal s.system.task.pool currentFees baseFee answers).result =
      .ok bundle) : s.Bundled bundle := by
  obtain ⟨hbeneficiary, entries, hops, hlength, hids, hmem⟩ :=
    makeBundle_of_pool hS.describes hbundle
  have hkey : entries.map PoolEntry.id = (entries.map PoolEntry.uo).map UserOperation.id := by
    rw [List.map_map]
    exact List.map_congr_left (fun e he => (hS.entries e (hmem e he)).id_eq)
  refine ⟨⟨_, _, _, _, hbundle⟩, hbeneficiary, entries.map PoolEntry.uo, ?_, ?_, ?_, ?_⟩
  · rw [hops, List.map_map]
    rfl
  · rwa [List.length_map]
  · rwa [← hkey]
  · intro uo huo
    obtain ⟨e, he, rfl⟩ := List.mem_map.mp huo
    obtain ⟨⟨i, hi, _⟩, _⟩ := hS.entries e (hmem e he)
    exact List.mem_of_getElem? hi

theorem Carries.step (h : s.Carries) {S : Finset PoolEntry} (hS : s.Holds S) (a : StepAnswers)
    (hproposes : s.system.ProposesFromPool (.step a)) : (s.next (.step a)).Carries where
  shape := h.shape.step a
  bundled bundle hb := by
    have hstep := BundlerTask.step_taskStep s.system.task a
    have hkeep : s.Bundled bundle := by
      rcases hstep.bundle_cases hb with hold | ⟨hbuilding, hproposal⟩
      · exact h.bundled bundle hold
      · obtain ⟨currentFees, baseFee, answers, hmade⟩ := hproposes hbuilding
        exact bundled_of_proposal hS (hmade.symm.trans hproposal)
    exact hkeep.mono hstep.constants.1 hstep.constants.2 (List.Subset.refl _)

theorem Carries.submit (h : s.Carries) {S : Finset PoolEntry} (hS : s.Holds S)
    (uo : UserOperation) (entryPoint : Address) :
    (s.next (.submit uo entryPoint)).Carries := by
  have hgrows : s.accepted ⊆ (s.next (.submit uo entryPoint)).accepted := by
    change s.accepted ⊆ (if _ then _ else _)
    split
    · exact List.subset_append_left _ _
    · exact List.Subset.refl _
  have htask : ∃ pool, (s.next (.submit uo entryPoint)).system.task =
      { s.system.task with pool := pool } := by
    rcases BundlerSystem.sendUserOperation_cases hS.describes uo entryPoint with
      ⟨_, htask⟩ | ⟨_, _, htask⟩
    · exact ⟨s.system.task.pool, htask⟩
    · exact ⟨_, htask⟩
  obtain ⟨pool, htask⟩ := htask
  obtain ⟨hshape, hnonempty, hattempts, hmined⟩ := h.shape
  constructor
  · rw [htask]
    exact ⟨⟨hshape.bundle_isSome, hshape.pending_isSome, hshape.nonce_eq, hshape.not_cancelling⟩,
      hnonempty, hattempts, hmined⟩
  · intro bundle hb
    rw [htask] at hb
    exact (h.bundled bundle hb).mono (by rw [htask]) (by rw [htask]) hgrows

theorem Carries.of_init (h : recordedMachine.init s) : s.Carries := by
  obtain ⟨⟨chainId, entryPoint, maxPoolSize, signerAddress, nonce, hstart, _⟩, _⟩ := h
  have hbundlerInit : bundlerMachine.init s.system.task := ⟨_, _, _, _, hstart⟩
  have hreach : bundlerMachine.Reachable s.system.task := .init hbundlerInit
  obtain ⟨_, hnone, _⟩ := BundlerTask.start_eq hstart
  exact ⟨BundlerTask.FullShape.of_reachable hreach, fun bundle hb => by rw [hnone] at hb; cases hb⟩

theorem Carries.of_reachable {cond : RecordedSystem → SystemEvent → Prop}
    (h : recordedMachine.ReachableUnder cond s) : s.Carries := by
  have hboth : s.Carries ∧ ∃ S, s.Holds S := by
    apply h.invariant
    · intro s hinit
      exact ⟨.of_init hinit, ∅, .of_init hinit⟩
    · intro s e hs henabled _
      obtain ⟨hcarries, S, hS⟩ := hs
      cases e with
      | submit uo entryPoint => exact ⟨hcarries.submit hS uo entryPoint, hS.submit uo entryPoint⟩
      | step a => exact ⟨hcarries.step hS a henabled, _, hS.step a⟩
  exact hboth.1

variable {a : StepAnswers} {tx : TransactionRequest} {chainId : U64}

/-- **What is signed was simulated.**  In every run of the assembled bundler, a transaction
that is given to the signer, first or replaced, carries a bundle that was proposed.  Whatever
proposal it was that returned the bundle, the transaction goes to the entry point with the very
bytes of the last simulation of that proposal, and a twentieth more gas; its first submission
pays the simulated fees. -/
theorem signed_as_simulated {cond : RecordedSystem → SystemEvent → Prop}
    (h : recordedMachine.ReachableUnder cond s)
    (hsign : .sign tx chainId ∈ s.system.task.calls a) :
    ∃ bundle, s.system.task.currentBundle = some bundle ∧
      (∃ pool currentFees baseFee answers,
        (s.proposal pool currentFees baseFee answers).result = .ok bundle) ∧
      ∀ pool currentFees baseFee answers,
        (s.proposal pool currentFees baseFee answers).result = .ok bundle →
        ∃ call, (s.proposal pool currentFees baseFee answers).EndsWith bundle call ∧
          SignedAs tx (buildHandleOpsTx s.system.task.chainSpec.entryPointV07 call) ∧
          (s.system.task.state = .submitting →
            tx.fees = (buildHandleOpsTx s.system.task.chainSpec.entryPointV07 call).fees) := by
  have hcarries := Carries.of_reachable h
  obtain ⟨_, bundle, hb, htx⟩ :=
    (BundlerTask.step_taskStep s.system.task a).sign_carries hcarries.shape.toShape hsign
  refine ⟨bundle, hb, (hcarries.bundled bundle hb).proposed, ?_⟩
  intro pool currentFees baseFee answers hproposed
  obtain ⟨call, hends⟩ := BundleProposerImpl.makeBundle_endsWith hproposed
  have hasked := hends.2.2
  refine ⟨call, hends, ⟨htx.recipient, ?_, ?_⟩, ?_⟩
  · exact htx.gasLimit.trans hasked.gasEstimate
  · rw [htx.input]
    change encodeHandleOps bundle.ops bundle.beneficiary = encodeHandleOps call.ops call.beneficiary
    rw [hasked.ops, hasked.beneficiary]
  · intro hs
    exact (htx.fees hs).trans hasked.gasFees.symm

end RecordedSystem

end Runs

/-! ## One operation -/

/-- The bundler about to sign the bundle of one operation. -/
def oneSubmitting [Keccak] : RecordedSystem :=
  recordedMachine.run ((roundEvents 0).take 3) recordedStart

/-- The transaction that it signs. -/
def oneTx [Keccak] : TransactionRequest :=
  oneSubmitting.system.task.buildBundleTx (roundBundle 0) 0

theorem oneTx_signed :
    letI := polynomialDigest
    .sign oneTx 1 ∈ oneSubmitting.system.task.calls silentAnswers := by
  decide +kernel

theorem signed_as_simulated_one :
    letI := polynomialDigest
    ∃ bundle, oneSubmitting.system.task.currentBundle = some bundle ∧
      (∃ pool currentFees baseFee answers,
        (oneSubmitting.proposal pool currentFees baseFee answers).result = .ok bundle) ∧
      ∀ pool currentFees baseFee answers,
        (oneSubmitting.proposal pool currentFees baseFee answers).result = .ok bundle →
        ∃ call, (oneSubmitting.proposal pool currentFees baseFee answers).EndsWith bundle call ∧
          SignedAs oneTx
            (buildHandleOpsTx oneSubmitting.system.task.chainSpec.entryPointV07 call) ∧
          (oneSubmitting.system.task.state = .submitting → oneTx.fees =
            (buildHandleOpsTx oneSubmitting.system.task.chainSpec.entryPointV07 call).fees) :=
  let _ := polynomialDigest
  RecordedSystem.signed_as_simulated (recorded_reachable 3) oneTx_signed

end Bunzo
