import Bunzo.OperationPool

/-!
# Proposing a bundle

`makeBundle` takes the best operations of the pool, keeps those that pay
enough under the current fees, and asks the bundle handler to simulate the
rest.  An operation the handler names as failing is dropped, and the shorter
list is simulated again, a limited number of times.

The loop has two ways to its end.  A successful simulation returns the list
just simulated.  A `break` falls through to code that returns whatever list is
left, although the handler has just refused it.  `simulated_iff` says exactly
which answers of the handler lead there.
-/

namespace Bunzo

/-- What the handler answers to a simulation. -/
inductive HandleOpsOut where
  | success
  | failedOp (index : Nat) (reason : Message)
  | signatureValidationFailed (aggregator : Address)
  | revert (data : Bytes)
deriving DecidableEq

inductive ProposerError where
  | provider (e : ProviderError)
  | noOperations
  | other (msg : Message)
deriving DecidableEq

structure RejectedOp where
  hash : B256
  reason : Message
deriving DecidableEq

structure Bundle where
  ops : List PackedUserOperation
  beneficiary : Address
  gasEstimate : U64
  gasFees : GasFees
  rejectedOps : List RejectedOp
deriving DecidableEq

def Bundle.isEmpty (bundle : Bundle) : Bool := bundle.ops.isEmpty

/-- One simulation: what was asked and what was answered. -/
structure HandleOpsCall where
  ops : List PackedUserOperation
  beneficiary : Address
  gasLimit : U64
  gasFees : GasFees
  answer : Except ProviderError HandleOpsOut

/-- What a proposal returns, and the simulations it asked for. -/
structure Proposal where
  result : Except ProposerError Bundle
  calls : List HandleOpsCall

structure BundleProposerImpl where
  chainSpec : ChainSpec
  beneficiary : Address
  maxRetries : Nat

namespace BundleProposerImpl

def new (chainSpec : ChainSpec) (beneficiary : Address) : BundleProposerImpl where
  chainSpec := chainSpec
  beneficiary := beneficiary
  maxRetries := 3

/-- The gas of all operations, an overhead for each, and the intrinsic gas. -/
def estimateBundleGas (proposer : BundleProposerImpl) (ops : List PoolEntry) : U64 :=
  proposer.chainSpec.transactionIntrinsicGas +
    (ops.map (fun entry => entry.uo.totalGasLimit.setWidth 64)).foldl (· + ·) 0 +
    proposer.chainSpec.perUserOpV07Gas * BitVec.ofNat 64 ops.length

/-- The packed form of a list of entries. -/
def packOps (ops : List PoolEntry) : List PackedUserOperation := ops.map (fun e => e.uo.pack)

@[simp] theorem packOps_isEmpty (ops : List PoolEntry) : (packOps ops).isEmpty = ops.isEmpty := by
  cases ops <;> rfl

/-- The bundle of a list of entries, with a gas limit a twentieth above the
estimate. -/
def bundleOf (proposer : BundleProposerImpl) (fees : GasFees) (ops : List PoolEntry)
    (rejectedOps : List RejectedOp) : Bundle :=
  let totalGas := proposer.estimateBundleGas ops
  { ops := packOps ops
    beneficiary := proposer.beneficiary
    gasEstimate := totalGas + totalGas / 20
    gasFees := fees
    rejectedOps := rejectedOps }

/-- Behind the loop: whatever list is left becomes the bundle. -/
def fallThrough (proposer : BundleProposerImpl) (fees : GasFees) (ops : List PoolEntry)
    (rejectedOps : List RejectedOp) : Except ProposerError Bundle :=
  if (packOps ops).isEmpty then .error .noOperations
  else .ok (proposer.bundleOf fees ops rejectedOps)

/-- The loop over the remaining attempts.  The handler answers the attempt of
each number once. -/
def retryLoop (proposer : BundleProposerImpl) (fees : GasFees)
    (answers : Nat → Except ProviderError HandleOpsOut) :
    List Nat → List PoolEntry → List RejectedOp → Proposal
  | [], ops, rejectedOps => { result := proposer.fallThrough fees ops rejectedOps, calls := [] }
  | attempt :: attempts, ops, rejectedOps =>
      if (packOps ops).isEmpty then
        { result := .error .noOperations, calls := [] }
      else
        let call : HandleOpsCall :=
          { ops := packOps ops
            beneficiary := proposer.beneficiary
            gasLimit := proposer.estimateBundleGas ops
            gasFees := fees
            answer := answers attempt }
        match answers attempt with
        | .error e => { result := .error (.provider e), calls := [call] }
        | .ok .success =>
            { result := .ok (proposer.bundleOf fees ops rejectedOps), calls := [call] }
        | .ok (.failedOp index reason) =>
            if proposer.maxRetries ≤ attempt then
              { result := proposer.fallThrough fees ops rejectedOps, calls := [call] }
            else
              match ops[index]? with
              | some removed =>
                  let rest := retryLoop proposer fees answers attempts (ops.eraseIdx index)
                    (rejectedOps ++ [{ hash := removed.hash, reason := reason }])
                  { result := rest.result, calls := call :: rest.calls }
              | none =>
                  { result := proposer.fallThrough fees ops rejectedOps, calls := [call] }
        | .ok (.signatureValidationFailed addr) =>
            { result := .error (.other
                [.text "aggregator signature validation failed: ", .address addr])
              calls := [call] }
        | .ok (.revert data) =>
            { result := .error (.other [.text "handleOps reverted: 0x", .hex data])
              calls := [call] }

/-- The best operations that pay enough for the current conditions. -/
def candidates (proposer : BundleProposerImpl) (pool : OperationPool) (baseFee : U128) :
    List PoolEntry :=
  (pool.bestOperations proposer.chainSpec.maxBundleSize).filter
    (fun e => e.uo.gasFees.covers baseFee proposer.chainSpec.minMaxPriorityFeePerGas)

/-- Propose a bundle, given what the gas oracle and the handler answer. -/
def makeBundle (proposer : BundleProposerImpl) (pool : OperationPool)
    (currentFees : Except ProviderError GasFees) (baseFee : Except ProviderError U128)
    (answers : Nat → Except ProviderError HandleOpsOut) : Proposal :=
  match currentFees with
  | .error e => { result := .error (.provider e), calls := [] }
  | .ok fees =>
      match baseFee with
      | .error e => { result := .error (.provider e), calls := [] }
      | .ok baseFee =>
          if (pool.bestOperations proposer.chainSpec.maxBundleSize).isEmpty then
            { result := .error .noOperations, calls := [] }
          else if (proposer.candidates pool baseFee).isEmpty then
            { result := .error .noOperations, calls := [] }
          else
            proposer.retryLoop fees answers (List.range (proposer.maxRetries + 1))
              (proposer.candidates pool baseFee) []


end BundleProposerImpl

/-! ## What was simulated is what is sent -/

/-- A returned bundle was simulated last, exactly as it is, and passed. -/
def Proposal.SimulatedAsSent (p : Proposal) : Prop :=
  ∀ bundle, p.result = .ok bundle →
    ∃ call, p.calls.getLast? = some call ∧ call.ops = bundle.ops ∧ call.answer = .ok .success

/-- From attempt `attempt` on and with `n` operations left, the handler names
operations in range until, with at least one operation left, it fails the last
attempt or names an operation out of range. -/
def BreaksOff (answers : Nat → Except ProviderError HandleOpsOut)
    (maxRetries attempt n : Nat) : Prop :=
  ∃ k, k < n ∧ attempt + k ≤ maxRetries ∧
    (∀ j < k, ∃ index reason,
      answers (attempt + j) = .ok (.failedOp index reason) ∧ index < n - j) ∧
    ∃ index reason, answers (attempt + k) = .ok (.failedOp index reason) ∧
      (attempt + k = maxRetries ∨ n - k ≤ index)

section BreaksOff

variable {answers : Nat → Except ProviderError HandleOpsOut} {maxRetries attempt n : Nat}

theorem breaksOff_zero : ¬ BreaksOff answers maxRetries attempt 0 := by
  intro h
  obtain ⟨k, hk, _⟩ := h
  omega

/-- Operations in range are named at `k + 1` attempts: at the first one, and at `k` more with
an operation less. -/
theorem named_succ_iff {k : Nat} :
    (∀ j < k + 1, ∃ index reason,
        answers (attempt + j) = .ok (.failedOp index reason) ∧ index < n - j) ↔
      (∃ index reason, answers attempt = .ok (.failedOp index reason) ∧ index < n) ∧
        ∀ j < k, ∃ index reason,
          answers (attempt + 1 + j) = .ok (.failedOp index reason) ∧ index < n - 1 - j := by
  rw [Nat.forall_lt_succ_left]
  refine and_congr Iff.rfl (forall₂_congr fun j _ => ?_)
  have hattempt : attempt + (j + 1) = attempt + 1 + j := by omega
  have hleft : n - (j + 1) = n - 1 - j := by omega
  rw [hattempt, hleft]

/-- Breaking off now, or dropping one operation and breaking off later. -/
theorem breaksOff_iff (hn : 0 < n) (hattempt : attempt ≤ maxRetries) :
    BreaksOff answers maxRetries attempt n ↔
      ∃ index reason, answers attempt = .ok (.failedOp index reason) ∧
        (attempt = maxRetries ∨ n ≤ index ∨
          (index < n ∧ BreaksOff answers maxRetries (attempt + 1) (n - 1))) := by
  refine ⟨?_, ?_⟩
  · intro h
    obtain ⟨k, hk, hle, hbefore, index, reason, hlast, hend⟩ := h
    cases k with
    | zero => exact ⟨index, reason, hlast, by omega⟩
    | succ k =>
        obtain ⟨⟨index₀, reason₀, hfirst, hin⟩, hrest⟩ := named_succ_iff.mp hbefore
        have hshift : attempt + (k + 1) = attempt + 1 + k := by omega
        rw [hshift] at hlast
        exact ⟨index₀, reason₀, hfirst, Or.inr (Or.inr
          ⟨hin, k, by omega, by omega, hrest, index, reason, hlast, by omega⟩)⟩
  · intro h
    obtain ⟨index, reason, hans, hcase⟩ := h
    rcases hcase with hmax | hout | ⟨hin, k, hk, hle, hrest, i, r, hlast, hend⟩
    · exact ⟨0, hn, hattempt, by omega, index, reason, hans, Or.inl hmax⟩
    · exact ⟨0, hn, hattempt, by omega, index, reason, hans, Or.inr hout⟩
    · have hshift : attempt + 1 + k = attempt + (k + 1) := by omega
      rw [hshift] at hlast
      exact ⟨k + 1, by omega, by omega, named_succ_iff.mpr ⟨⟨index, reason, hans, hin⟩, hrest⟩,
        i, r, hlast, by omega⟩

end BreaksOff

theorem simulatedAsSent_error {e : ProposerError} {calls : List HandleOpsCall} :
    Proposal.SimulatedAsSent { result := .error e, calls := calls } := by
  intro bundle hresult
  cases hresult

theorem simulatedAsSent_single {bundle : Bundle} {call : HandleOpsCall} :
    Proposal.SimulatedAsSent { result := .ok bundle, calls := [call] } ↔
      call.ops = bundle.ops ∧ call.answer = .ok .success := by
  refine ⟨?_, ?_⟩
  · intro h
    obtain ⟨last, hlast, hops, hanswer⟩ := h bundle rfl
    obtain rfl : call = last := by simpa using hlast
    exact ⟨hops, hanswer⟩
  · intro h b hb
    obtain rfl : bundle = b := Except.ok.inj hb
    exact ⟨call, rfl, h⟩

/-- An earlier simulation does not matter once there is a later one. -/
theorem simulatedAsSent_cons {rest : Proposal} (call : HandleOpsCall)
    (h : rest.calls = [] → ∃ e, rest.result = .error e) :
    Proposal.SimulatedAsSent { result := rest.result, calls := call :: rest.calls } ↔
      rest.SimulatedAsSent := by
  by_cases hcalls : rest.calls = []
  · obtain ⟨e, he⟩ := h hcalls
    simp [Proposal.SimulatedAsSent, he]
  · have hlast : (call :: rest.calls).getLast? = rest.calls.getLast? := by
      rw [List.getLast?_cons, Option.getD_of_ne_none]
      simpa using hcalls
    simp [Proposal.SimulatedAsSent, hlast]

namespace BundleProposerImpl

variable (proposer : BundleProposerImpl) (fees : GasFees)
  (answers : Nat → Except ProviderError HandleOpsOut)

theorem fallThrough_eq {ops : List PoolEntry} (hops : ops ≠ []) (rejectedOps : List RejectedOp) :
    proposer.fallThrough fees ops rejectedOps = .ok (proposer.bundleOf fees ops rejectedOps) := by
  unfold fallThrough
  rw [packOps_isEmpty, if_neg (by simpa using hops)]

theorem fallThrough_nil (rejectedOps : List RejectedOp) :
    proposer.fallThrough fees [] rejectedOps = .error .noOperations := rfl

theorem retryLoop_nil (attempt : Nat) (attempts : List Nat) (rejectedOps : List RejectedOp) :
    proposer.retryLoop fees answers (attempt :: attempts) [] rejectedOps =
      { result := .error .noOperations, calls := [] } := by
  unfold retryLoop
  exact if_pos rfl

/-- **What an attempt can do.**  It simulates the operations that are left, and then
it stops with an error, returns them because they passed, returns them although one
of them failed, or drops the failed one and goes on. -/
theorem retryLoop_cases {ops : List PoolEntry} (hops : ops ≠ []) (attempt : Nat)
    (attempts : List Nat) (rejectedOps : List RejectedOp) :
    ∃ call : HandleOpsCall, call.ops = packOps ops ∧ call.answer = answers attempt ∧
      ((answers attempt ≠ .ok .success ∧
          (∀ index reason, answers attempt ≠ .ok (.failedOp index reason)) ∧
          ∃ e, proposer.retryLoop fees answers (attempt :: attempts) ops rejectedOps =
            { result := .error e, calls := [call] }) ∨
        (answers attempt = .ok .success ∧
          proposer.retryLoop fees answers (attempt :: attempts) ops rejectedOps =
            { result := .ok (proposer.bundleOf fees ops rejectedOps), calls := [call] }) ∨
        (∃ index reason, answers attempt = .ok (.failedOp index reason) ∧
          (proposer.maxRetries ≤ attempt ∨ ops.length ≤ index) ∧
          proposer.retryLoop fees answers (attempt :: attempts) ops rejectedOps =
            { result := .ok (proposer.bundleOf fees ops rejectedOps), calls := [call] }) ∨
        (∃ index reason, ∃ hindex : index < ops.length,
          answers attempt = .ok (.failedOp index reason) ∧ attempt < proposer.maxRetries ∧
          proposer.retryLoop fees answers (attempt :: attempts) ops rejectedOps =
            { result := (proposer.retryLoop fees answers attempts (ops.eraseIdx index)
                (rejectedOps ++ [{ hash := ops[index].hash, reason := reason }])).result
              calls := call :: (proposer.retryLoop fees answers attempts (ops.eraseIdx index)
                (rejectedOps ++ [{ hash := ops[index].hash, reason := reason }])).calls })) := by
  refine ⟨⟨packOps ops, proposer.beneficiary, proposer.estimateBundleGas ops, fees,
    answers attempt⟩, rfl, rfl, ?_⟩
  rw [retryLoop, if_neg (by simpa using hops)]
  rcases answers attempt with e | out
  · exact Or.inl ⟨by simp, by simp, .provider e, rfl⟩
  · cases out with
    | success => exact Or.inr (Or.inl ⟨rfl, rfl⟩)
    | signatureValidationFailed addr => exact Or.inl ⟨by simp, by simp, _, rfl⟩
    | revert data => exact Or.inl ⟨by simp, by simp, _, rfl⟩
    | failedOp index reason =>
        right
        right
        simp only [proposer.fallThrough_eq fees hops]
        by_cases hlast : proposer.maxRetries ≤ attempt
        · exact Or.inl ⟨index, reason, rfl, Or.inl hlast, if_pos hlast⟩
        · rw [if_neg hlast]
          by_cases hindex : index < ops.length
          · rw [List.getElem?_eq_getElem hindex]
            exact Or.inr ⟨index, reason, hindex, rfl, Nat.lt_of_not_le hlast, rfl⟩
          · rw [List.getElem?_eq_none (Nat.le_of_not_lt hindex)]
            exact Or.inl ⟨index, reason, rfl, Or.inr (Nat.le_of_not_lt hindex), rfl⟩

variable {proposer fees answers} in
/-- A returned bundle is made of operations the loop is given, and not empty. -/
theorem retryLoop_ok {attempts : List Nat} {bundle : Bundle} :
    ∀ {ops : List PoolEntry} {rejectedOps : List RejectedOp},
      (proposer.retryLoop fees answers attempts ops rejectedOps).result = .ok bundle →
      ∃ ops' rejectedOps', ops'.Sublist ops ∧ ops' ≠ [] ∧
        bundle = proposer.bundleOf fees ops' rejectedOps' := by
  induction attempts with
  | nil =>
      intro ops rejectedOps h
      by_cases hops : ops = []
      · subst hops
        cases h
      · have hbundle := (proposer.fallThrough_eq fees hops rejectedOps).symm.trans h
        exact ⟨ops, rejectedOps, List.Sublist.refl ops, hops, (Except.ok.inj hbundle).symm⟩
  | cons attempt attempts ih =>
      intro ops rejectedOps h
      by_cases hops : ops = []
      · subst hops
        rw [retryLoop_nil] at h
        cases h
      · obtain ⟨call, _, _, ⟨_, _, e, hloop⟩ | ⟨_, hloop⟩ | ⟨_, _, _, _, hloop⟩ |
          ⟨index, reason, hindex, _, _, hloop⟩⟩ :=
          proposer.retryLoop_cases fees answers hops attempt attempts rejectedOps
        · rw [hloop] at h
          cases h
        · rw [hloop] at h
          exact ⟨ops, rejectedOps, List.Sublist.refl ops, hops, (Except.ok.inj h).symm⟩
        · rw [hloop] at h
          exact ⟨ops, rejectedOps, List.Sublist.refl ops, hops, (Except.ok.inj h).symm⟩
        · rw [hloop] at h
          obtain ⟨ops', rejectedOps', hsub, hsome, hbundle⟩ := ih h
          exact ⟨ops', rejectedOps', hsub.trans (List.eraseIdx_sublist _ _), hsome, hbundle⟩

/-- A loop with an attempt left either simulates or returns an error. -/
theorem retryLoop_no_calls (attempt : Nat) (attempts : List Nat) (ops : List PoolEntry)
    (rejectedOps : List RejectedOp)
    (h : (proposer.retryLoop fees answers (attempt :: attempts) ops rejectedOps).calls = []) :
    ∃ e, (proposer.retryLoop fees answers (attempt :: attempts) ops rejectedOps).result =
      .error e := by
  by_cases hops : ops = []
  · subst hops
    rw [retryLoop_nil]
    exact ⟨_, rfl⟩
  · exfalso
    obtain ⟨call, _, _, ⟨_, _, e, hloop⟩ | ⟨_, hloop⟩ | ⟨_, _, _, _, hloop⟩ |
      ⟨_, _, _, _, _, hloop⟩⟩ :=
      proposer.retryLoop_cases fees answers hops attempt attempts rejectedOps
    all_goals
      rw [hloop] at h
      cases h

/-- One round of the loop, given what the rounds after it do. -/
theorem retryLoop_round (attempt : Nat) (attempts : List Nat) (ops : List PoolEntry)
    (rejectedOps : List RejectedOp) (hattempt : attempt ≤ proposer.maxRetries)
    (hrest : attempt < proposer.maxRetries → attempts ≠ [] ∧
      ∀ ops' rejectedOps', (proposer.retryLoop fees answers attempts ops'
          rejectedOps').SimulatedAsSent ↔
        ¬ BreaksOff answers proposer.maxRetries (attempt + 1) ops'.length) :
    (proposer.retryLoop fees answers (attempt :: attempts) ops rejectedOps).SimulatedAsSent ↔
      ¬ BreaksOff answers proposer.maxRetries attempt ops.length := by
  by_cases hops : ops = []
  · subst hops
    rw [retryLoop_nil]
    exact iff_of_true simulatedAsSent_error breaksOff_zero
  · rw [breaksOff_iff (List.length_pos_iff.mpr hops) hattempt]
    obtain ⟨call, hcall, hanswer, ⟨_, hnone, e, hloop⟩ | ⟨hpass, hloop⟩ |
      ⟨index, reason, hfail, hend, hloop⟩ | ⟨index, reason, hindex, hfail, hlt, hloop⟩⟩ :=
      proposer.retryLoop_cases fees answers hops attempt attempts rejectedOps
    · rw [hloop]
      apply iff_of_true simulatedAsSent_error
      rintro ⟨i, r, hans, _⟩
      exact hnone i r hans
    · rw [hloop, simulatedAsSent_single]
      exact iff_of_true ⟨hcall, hanswer.trans hpass⟩ (by simp [hpass])
    · rw [hloop, simulatedAsSent_single, hanswer, hfail]
      apply iff_of_false (by simp)
      simp only [not_not]
      refine ⟨index, reason, rfl, ?_⟩
      omega
    · obtain ⟨hmore, hiff⟩ := hrest hlt
      have hcalls : ∀ rejectedOps',
          (proposer.retryLoop fees answers attempts (ops.eraseIdx index) rejectedOps').calls = [] →
          ∃ e, (proposer.retryLoop fees answers attempts (ops.eraseIdx index)
            rejectedOps').result = .error e := by
        intro rejectedOps'
        obtain ⟨next, rest, rfl⟩ := List.exists_cons_of_ne_nil hmore
        exact proposer.retryLoop_no_calls fees answers next rest _ rejectedOps'
      rw [hloop, simulatedAsSent_cons call (hcalls _), hiff,
        List.length_eraseIdx_of_lt hindex, hfail]
      apply not_congr
      refine ⟨?_, ?_⟩
      · intro hbreaks
        exact ⟨index, reason, rfl, Or.inr (Or.inr ⟨hindex, hbreaks⟩)⟩
      · rintro ⟨i, r, heq, hcase⟩
        obtain ⟨rfl, rfl⟩ : index = i ∧ reason = r := by simpa using heq
        rcases hcase with h | h | h
        · omega
        · omega
        · exact h.2

/-- What the loop returns was simulated as it is, unless the answers make it
break off. -/
theorem retryLoop_simulated_iff :
    ∀ (left attempt : Nat) (ops : List PoolEntry) (rejectedOps : List RejectedOp),
      attempt + left = proposer.maxRetries →
      ((proposer.retryLoop fees answers (List.range' attempt (left + 1)) ops
          rejectedOps).SimulatedAsSent ↔
        ¬ BreaksOff answers proposer.maxRetries attempt ops.length) := by
  intro left
  induction left with
  | zero =>
      intro attempt ops rejectedOps hmax
      apply retryLoop_round
      · omega
      · intro hlt
        omega
  | succ left ih =>
      intro attempt ops rejectedOps hmax
      apply retryLoop_round
      · omega
      · intro _
        refine ⟨by simp [List.range'_succ], ?_⟩
        intro ops' rejectedOps'
        exact ih (attempt + 1) ops' rejectedOps' (by omega)

variable {proposer} in
/-- Without candidates there is no bundle and no simulation. -/
theorem makeBundle_of_none {pool : OperationPool} {base : U128}
    (hnone : proposer.candidates pool base = []) :
    proposer.makeBundle pool (.ok fees) (.ok base) answers =
      { result := .error .noOperations, calls := [] } := by
  unfold makeBundle
  simp only [hnone, List.isEmpty_nil, if_true, ite_self]

variable {proposer} in
/-- The loop starts with all candidates. -/
theorem makeBundle_of_candidates {pool : OperationPool} {base : U128}
    (hsome : proposer.candidates pool base ≠ []) :
    proposer.makeBundle pool (.ok fees) (.ok base) answers =
      proposer.retryLoop fees answers (List.range (proposer.maxRetries + 1))
        (proposer.candidates pool base) [] := by
  have hbest : pool.bestOperations proposer.chainSpec.maxBundleSize ≠ [] := by
    intro hnone
    apply hsome
    unfold candidates
    rw [hnone]
    rfl
  unfold makeBundle
  simp only [List.isEmpty_iff, hsome, hbest, if_false]

/-- The answers make a proposal break off: the oracle answers, and so does the
handler, with the candidates that cover the fees as the list to start with. -/
def BreaksOffOn (pool : OperationPool) (currentFees : Except ProviderError GasFees)
    (baseFee : Except ProviderError U128) : Prop :=
  ∃ fees base, currentFees = .ok fees ∧ baseFee = .ok base ∧
    BreaksOff answers proposer.maxRetries 0 (proposer.candidates pool base).length

/-- **A returned bundle was simulated as it is sent, unless the answers make
the loop break off.**  This holds for every pool, all answers of the oracle and
every sequence of answers of the handler. -/
theorem simulated_iff (pool : OperationPool) (currentFees : Except ProviderError GasFees)
    (baseFee : Except ProviderError U128) :
    (proposer.makeBundle pool currentFees baseFee answers).SimulatedAsSent ↔
      ¬ proposer.BreaksOffOn answers pool currentFees baseFee := by
  unfold BreaksOffOn
  cases currentFees with
  | error e => exact iff_of_true simulatedAsSent_error (by simp)
  | ok fees =>
      cases baseFee with
      | error e => exact iff_of_true simulatedAsSent_error (by simp)
      | ok base =>
          have hexists : (∃ f b, (Except.ok fees : Except ProviderError GasFees) = .ok f ∧
              (Except.ok base : Except ProviderError U128) = .ok b ∧
              BreaksOff answers proposer.maxRetries 0 (proposer.candidates pool b).length) ↔
              BreaksOff answers proposer.maxRetries 0
                (proposer.candidates pool base).length := by
            refine ⟨?_, ?_⟩
            · intro h
              obtain ⟨f, b, hf, hb, hbreaks⟩ := h
              obtain rfl : base = b := Except.ok.inj hb
              exact hbreaks
            · intro h
              exact ⟨fees, base, rfl, rfl, h⟩
          rw [hexists]
          by_cases hnone : proposer.candidates pool base = []
          · rw [makeBundle_of_none fees answers hnone, hnone]
            exact iff_of_true simulatedAsSent_error breaksOff_zero
          · rw [makeBundle_of_candidates fees answers hnone, List.range_eq_range']
            exact proposer.retryLoop_simulated_iff fees answers proposer.maxRetries 0 _ _
              (by omega)

end BundleProposerImpl

/-! ## Four failing operations -/

/-- A pool of four operations of different senders. -/
def fourOperations : OperationPool :=
  letI := polynomialDigest
  [1, 2, 3, 4].foldl
    (fun pool sender => (pool.add ((plainOperation sender 0 30000000000).setContext
      ChainSpec.mainnet.entryPointV07 1) 15000000000).2)
    (OperationPool.new (PoolConfig.ofChainSpec ChainSpec.mainnet))

/-- A proposal whose handler fails the first operation of every list. -/
def refusedProposal : Proposal :=
  (BundleProposerImpl.new ChainSpec.mainnet 7).makeBundle fourOperations
    (.ok { maxFeePerGas := 20000000000, maxPriorityFeePerGas := 1000000000 })
    (.ok 15000000000) (fun _ => .ok (.failedOp 0 [.text "AA21 didn't pay prefund"]))

/-- The bundle that is returned was refused in its only simulation. -/
theorem refusedProposal_not_simulated : ¬ refusedProposal.SimulatedAsSent := by
  intro h
  have hok : refusedProposal.result.toBool = true := by decide +kernel
  have hlast : refusedProposal.calls.getLast?.all
      (fun call => !(call.answer matches .ok .success)) = true := by decide +kernel
  cases hresult : refusedProposal.result with
  | error e => simp [hresult, Except.toBool] at hok
  | ok bundle =>
      obtain ⟨call, hcall, _, hanswer⟩ := h bundle hresult
      simp [hcall, hanswer] at hlast

end Bunzo
