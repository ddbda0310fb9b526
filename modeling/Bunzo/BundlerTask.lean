import Bunzo.BundleProposer
import Bunzo.TransactionTracker

/-!
# The bundler task

One task takes bundles through their life: proposed, signed and submitted,
polled until mined or dropped, replaced at higher fees when they are stuck,
confirmed or abandoned.  `step` runs the handler of the current state once;
what proposer, signer, submission strategy and node answer in that step is the
argument `StepAnswers`, and the requests to signer and strategy are recorded
as `TaskCall`s.

`TaskStep` has one constructor for each way through a handler, and
`step_taskStep` says there are no others.  Facts about the task are proved by
cases on it.
-/

namespace Bunzo

/-- The states a bundle passes through, from an idle task to a confirmed or abandoned
transaction. -/
inductive BundleSenderState where
  | idle
  | building
  | submitting
  | pending
  | escalating
  | cancelling
  | confirming
  | confirmed
  | abandoned
deriving DecidableEq

/-- Why the signer manager does not return a signed transaction. -/
inductive SignerError where
  | noSigner
  | signingFailed (msg : Message)
  | other (msg : Message)
deriving DecidableEq

/-- Why a submission strategy does not return a transaction hash. -/
inductive SubmitError where
  | retryable (msg : Message)
  | strategyFailed (msg : Message)
  | terminal (msg : Message)
deriving DecidableEq

/-- What a strategy reports of a cancellation. -/
inductive CancelOutcome where
  | cancelled
  | alreadyMined
  | failed (msg : Message)
deriving DecidableEq

/-- The input of a transaction: none, or the call of `handleOps`. -/
inductive TxInput where
  | empty
  | handleOps (ops : List PackedUserOperation) (beneficiary : Address)
deriving DecidableEq

/-- The fields of the transactions that the task has signed. -/
structure TransactionRequest where
  recipient : Address
  nonce : U64
  gasLimit : U64
  maxFeePerGas : U128
  maxPriorityFeePerGas : U128
  value : U256
  input : TxInput
deriving DecidableEq

/-- What the task is answered in one step. -/
structure StepAnswers where
  now : Nat
  proposal : Except ProposerError Bundle
  signed : Except SignerError Bytes
  submitted : Except SubmitError B256
  cancelled : Except SubmitError CancelOutcome
  receipt : Except ProviderError (Option TransactionReceipt)
  nonce : Except ProviderError U64
  baseFee : Except ProviderError U128
  priorityFee : Except ProviderError U128
  blockNumber : Except ProviderError U64

/-- What the task asks of signer and submission strategy.  The bytes of a
submission are what the signer returned for the request. -/
inductive TaskCall where
  | sign (tx : TransactionRequest) (chainId : U64)
  | submit (tx : TransactionRequest) (raw : Bytes)
  | cancel (txHash : B256) (raw : Bytes)
deriving DecidableEq

/-- The submission among the requests, under the hash the strategy answered. -/
def acceptedBy (submitted : Except SubmitError B256) (calls : List TaskCall) :
    Option (B256 × TransactionRequest) :=
  match submitted with
  | .error _ => none
  | .ok txHash =>
      calls.findSome? (fun call =>
        match call with
        | .submit tx _ => some (txHash, tx)
        | _ => none)

section AcceptedBy

variable (submitted : Except SubmitError B256) (tx : TransactionRequest) (chainId : U64)

/-- A failed submission accepts nothing, whatever was asked. -/
@[simp] theorem acceptedBy_error (e : SubmitError) (calls : List TaskCall) :
    acceptedBy (.error e) calls = none := rfl

/-- A step without requests accepts nothing. -/
@[simp] theorem acceptedBy_nil : acceptedBy submitted [] = none := by
  cases submitted <;> rfl

/-- Nor does one that only signs, whatever the strategy would answer. -/
@[simp] theorem acceptedBy_sign : acceptedBy submitted [.sign tx chainId] = none := by
  cases submitted <;> rfl

/-- A cancellation is no submission, though it is signed the same way. -/
@[simp] theorem acceptedBy_cancel (txHash : B256) (raw : Bytes) :
    acceptedBy submitted [.sign tx chainId, .cancel txHash raw] = none := by
  cases submitted <;> rfl

/-- A submission that succeeds accepts the transaction that was signed. -/
@[simp] theorem acceptedBy_submit (txHash : B256) (raw : Bytes) :
    acceptedBy (.ok txHash) [.sign tx chainId, .submit tx raw] = some (txHash, tx) := rfl

end AcceptedBy

/-- A submission that fails, or is not reached, is not accepted. -/
theorem acceptedBy_of_failure {submitted : Except SubmitError B256} {tx : TransactionRequest}
    {chainId : U64} {calls : List TaskCall}
    (hcalls : calls = [.sign tx chainId] ∨
      ((∃ e, submitted = .error e) ∧ ∃ raw, calls = [.sign tx chainId, .submit tx raw])) :
    acceptedBy submitted calls = none := by
  rcases hcalls with hcalls | ⟨⟨e, he⟩, raw, hcalls⟩
  · rw [hcalls, acceptedBy_sign]
  · rw [he, acceptedBy_error]

/-- One bundle sender: the pool it takes operations from, its tracker, and the bundle
that it is at work on. -/
structure BundlerTask where
  chainSpec : ChainSpec
  signerAddress : Address
  tracker : TransactionTracker
  pool : OperationPool
  state : BundleSenderState
  currentBundle : Option Bundle
  confirmationDepth : U64
  minedBlock : Option U64

/-- What a handler leaves: the task, its next state, and the requests made. -/
structure Handled where
  task : BundlerTask
  next : BundleSenderState
  calls : List TaskCall

namespace BundlerTask

/-- A task in the idle state, as it is assembled.  The confirmation depth is not taken
from the chain. -/
def new (signerAddress : Address) (pool : OperationPool) (chainSpec : ChainSpec) : BundlerTask where
  chainSpec := chainSpec
  signerAddress := signerAddress
  tracker := TransactionTracker.new signerAddress EscalationConfig.default
  pool := pool
  state := .idle
  currentBundle := none
  confirmationDepth := 3
  minedBlock := none

/-- What `run` does before its loop: without an answer there is no loop. -/
def start (t : BundlerTask) (nonce : Except ProviderError U64) :
    Except ProviderError BundlerTask := do
  let tracker ← t.tracker.initializeTracker nonce
  return { t with tracker := tracker }

/-- The `handleOps` transaction of a bundle. -/
def buildBundleTx (t : BundlerTask) (bundle : Bundle) (nonce : U64) : TransactionRequest where
  recipient := t.chainSpec.entryPointV07
  nonce := nonce
  gasLimit := bundle.gasEstimate
  maxFeePerGas := bundle.gasFees.maxFeePerGas
  maxPriorityFeePerGas := bundle.gasFees.maxPriorityFeePerGas
  value := 0
  input := .handleOps bundle.ops bundle.beneficiary

/-- Take the operations of a list of rejections out of the pool. -/
def removeRejected (pool : OperationPool) (rejectedOps : List RejectedOp) : OperationPool :=
  rejectedOps.foldl (fun pool rejected => (pool.removeByHash rejected.hash).2) pool

/-- The id of a packed operation. -/
def packedId [Keccak] (spec : ChainSpec) (packedOp : PackedUserOperation) : UserOperationId :=
  (UserOperation.unpack packedOp spec.entryPointV07 spec.id).id

/-- Take packed operations out of the pool, by their ids. -/
def removeOps [Keccak] (spec : ChainSpec) (pool : OperationPool)
    (ops : List PackedUserOperation) : OperationPool :=
  ops.foldl (fun pool packedOp => (pool.removeById (packedId spec packedOp)).2) pool

/-- Take the operations of the current bundle out of the pool. -/
def removeBundledOps [Keccak] (t : BundlerTask) : BundlerTask :=
  match t.currentBundle with
  | none => t
  | some bundle => { t with pool := removeOps t.chainSpec t.pool bundle.ops }

section RemoveBundledOps

variable [Keccak] (t : BundlerTask)

/-- Removing operations does not touch the tracker. -/
@[simp] theorem removeBundledOps_tracker : t.removeBundledOps.tracker = t.tracker := by
  unfold removeBundledOps
  split <;> rfl

/-- The bundle stays at hand until a terminal state. -/
@[simp] theorem removeBundledOps_currentBundle :
    t.removeBundledOps.currentBundle = t.currentBundle := by
  unfold removeBundledOps
  split <;> rfl

/-- The bundle at hand says which operations go. -/
theorem removeBundledOps_pool {bundle : Bundle} (hb : t.currentBundle = some bundle) :
    t.removeBundledOps.pool = removeOps t.chainSpec t.pool bundle.ops := by
  unfold removeBundledOps
  rw [hb]

end RemoveBundledOps

/-! ## Handlers -/

/-- An empty pool leaves the task idle; it is asked again in the next step. -/
def handleIdle (t : BundlerTask) : Handled :=
  if t.pool.size = 0 then { task := t, next := .idle, calls := [] }
  else { task := t, next := .building, calls := [] }

/-- Ask for a bundle.  The operations it rejects leave the pool, the bundle is kept
for signing, and an empty one is forgotten. -/
def handleBuilding (t : BundlerTask) (a : StepAnswers) : Handled :=
  match a.proposal with
  | .error _ => { task := t, next := .idle, calls := [] }
  | .ok bundle =>
      if bundle.isEmpty then { task := t, next := .idle, calls := [] }
      else
        { task :=
            { t with
              pool := removeRejected t.pool bundle.rejectedOps
              currentBundle := some bundle }
          next := .submitting
          calls := [] }

/-- Sign the bundle with the next nonce and submit it.  Any failure abandons it. -/
def handleSubmitting (t : BundlerTask) (a : StepAnswers) : Handled :=
  match t.currentBundle with
  | none => { task := t, next := .idle, calls := [] }
  | some bundle =>
      let nonce := t.tracker.nextNonce
      let tx := t.buildBundleTx bundle nonce
      match a.signed with
      | .error _ => { task := t, next := .abandoned, calls := [.sign tx t.chainSpec.id] }
      | .ok raw =>
          match a.submitted with
          | .ok txHash =>
              { task :=
                  { t with
                    tracker := t.tracker.recordSubmission a.now txHash nonce
                      bundle.gasFees.maxFeePerGas bundle.gasFees.maxPriorityFeePerGas }
                next := .pending
                calls := [.sign tx t.chainSpec.id, .submit tx raw] }
          | .error _ =>
              { task := t, next := .abandoned,
                calls := [.sign tx t.chainSpec.id, .submit tx raw] }

/-- Look for the receipt of the tracked transaction: once it is there, its operations
leave the pool.  A nonce consumed without it abandons the bundle, and a wait that is
too long leads to an escalation. -/
def handlePending [Keccak] (t : BundlerTask) (a : StepAnswers) : Handled :=
  let (answer, tracker) := t.tracker.checkPending a.receipt a.nonce
  let t := { t with tracker := tracker }
  match answer with
  | .ok (some (.mined blockNumber)) =>
      { task := removeBundledOps { t with minedBlock := some blockNumber }
        next := .confirming
        calls := [] }
  | .ok (some .dropped) => { task := t, next := .abandoned, calls := [] }
  | .ok (some .pending) =>
      if t.tracker.needsEscalation a.now then { task := t, next := .escalating, calls := [] }
      else { task := t, next := .pending, calls := [] }
  | .ok none => { task := t, next := .idle, calls := [] }
  | .error _ => { task := t, next := .pending, calls := [] }

/-- The replacement that an escalation signs. -/
def escalationTx (t : BundlerTask) (bundle : Bundle) (fees : U128 × U128) : TransactionRequest :=
  { t.buildBundleTx bundle (MachineWords.saturatingSub t.tracker.nextNonce 1) with
    maxFeePerGas := fees.1
    maxPriorityFeePerGas := fees.2 }

/-- Replace the tracked transaction by one with higher fees.  Without such fees the
task gives up; a failure to sign or submit leaves the old one tracked. -/
def handleEscalating (t : BundlerTask) (a : StepAnswers) : Handled :=
  match t.tracker.escalatedFees a.baseFee a.priorityFee with
  | none =>
      { task := { t with tracker := t.tracker.clearPending }, next := .abandoned, calls := [] }
  | some fees =>
      match t.currentBundle with
      | none =>
          { task := { t with tracker := t.tracker.clearPending }, next := .abandoned, calls := [] }
      | some bundle =>
          let tx := t.escalationTx bundle fees
          match a.signed with
          | .error _ => { task := t, next := .pending, calls := [.sign tx t.chainSpec.id] }
          | .ok raw =>
              match a.submitted with
              | .ok newTxHash =>
                  { task :=
                      { t with tracker := t.tracker.recordEscalation newTxHash fees.1 fees.2 }
                    next := .pending
                    calls := [.sign tx t.chainSpec.id, .submit tx raw] }
              | .error _ =>
                  { task := t, next := .pending,
                    calls := [.sign tx t.chainSpec.id, .submit tx raw] }

/-- The transfer of nothing to itself that takes a transaction's nonce. -/
def cancelTx (t : BundlerTask) (pending : PendingTransaction) : TransactionRequest where
  recipient := t.signerAddress
  nonce := pending.nonce
  gasLimit := 21000
  maxFeePerGas := pending.maxFeePerGas * 2
  maxPriorityFeePerGas := pending.maxPriorityFeePerGas * 2
  value := 0
  input := .empty

/-- Ask the strategy to cancel the tracked transaction, and forget it whatever the
answer. -/
def handleCancelling (t : BundlerTask) (a : StepAnswers) : Handled :=
  match t.tracker.pending with
  | none => { task := t, next := .idle, calls := [] }
  | some pending =>
      let tx := t.cancelTx pending
      let cleared := { t with tracker := t.tracker.clearPending }
      match a.signed with
      | .error _ => { task := cleared, next := .abandoned, calls := [.sign tx t.chainSpec.id] }
      | .ok raw =>
          { task := cleared, next := .abandoned,
            calls := [.sign tx t.chainSpec.id, .cancel pending.txHash raw] }

/-- Wait until the block of the receipt is deep enough.  The receipt itself is not
asked for again. -/
def handleConfirming (t : BundlerTask) (a : StepAnswers) : Handled :=
  match t.minedBlock with
  | none => { task := t, next := .confirmed, calls := [] }
  | some minedAt =>
      match a.blockNumber with
      | .error _ => { task := t, next := .confirming, calls := [] }
      | .ok currentBlock =>
          if t.confirmationDepth ≤ MachineWords.saturatingSub currentBlock minedAt then
            { task := t, next := .confirmed, calls := [] }
          else { task := t, next := .confirming, calls := [] }

/-- The terminal states forget the bundle. -/
def handleTerminal (t : BundlerTask) : Handled :=
  { task := { t with currentBundle := none, minedBlock := none }, next := .idle, calls := [] }

section Step

variable [Keccak]

/-- The handler of the current state. -/
def handle (t : BundlerTask) (a : StepAnswers) : Handled :=
  match t.state with
  | .idle => t.handleIdle
  | .building => t.handleBuilding a
  | .submitting => t.handleSubmitting a
  | .pending => t.handlePending a
  | .escalating => t.handleEscalating a
  | .cancelling => t.handleCancelling a
  | .confirming => t.handleConfirming a
  | .confirmed => t.handleTerminal
  | .abandoned => t.handleTerminal

/-- One step: the task in its next state. -/
def step (t : BundlerTask) (a : StepAnswers) : BundlerTask :=
  { (t.handle a).task with state := (t.handle a).next }

/-- The requests made in one step. -/
def calls (t : BundlerTask) (a : StepAnswers) : List TaskCall := (t.handle a).calls

end Step

/-! ## Ways through a step -/

section Cases

variable [Keccak]

/-- The ways through one step, each with the task it leaves and its requests. -/
inductive TaskStep (t : BundlerTask) (a : StepAnswers) : BundlerTask → List TaskCall → Prop
  | idle (hs : t.state = .idle) (next : BundleSenderState)
      (hnext : next = .idle ∨ next = .building) : TaskStep t a { t with state := next } []
  | buildNothing (hs : t.state = .building) : TaskStep t a { t with state := .idle } []
  | build (hs : t.state = .building) (bundle : Bundle) (hbundle : a.proposal = .ok bundle)
      (hne : bundle.isEmpty = false) :
      TaskStep t a
        { t with
          pool := removeRejected t.pool bundle.rejectedOps
          currentBundle := some bundle
          state := .submitting } []
  | submitNothing (hs : t.state = .submitting) (hb : t.currentBundle = none) :
      TaskStep t a { t with state := .idle } []
  | submitFails (hs : t.state = .submitting) (bundle : Bundle) (hb : t.currentBundle = some bundle)
      (calls : List TaskCall)
      (hcalls : calls = [.sign (t.buildBundleTx bundle t.tracker.nextNonce) t.chainSpec.id] ∨
        ((∃ e, a.submitted = .error e) ∧ ∃ raw,
          calls = [.sign (t.buildBundleTx bundle t.tracker.nextNonce) t.chainSpec.id,
            .submit (t.buildBundleTx bundle t.tracker.nextNonce) raw])) :
      TaskStep t a { t with state := .abandoned } calls
  | submit (hs : t.state = .submitting) (bundle : Bundle) (hb : t.currentBundle = some bundle)
      (raw : Bytes) (txHash : B256) (hhash : a.submitted = .ok txHash) :
      TaskStep t a
        { t with
          tracker := t.tracker.recordSubmission a.now txHash t.tracker.nextNonce
            bundle.gasFees.maxFeePerGas bundle.gasFees.maxPriorityFeePerGas
          state := .pending }
        [.sign (t.buildBundleTx bundle t.tracker.nextNonce) t.chainSpec.id,
          .submit (t.buildBundleTx bundle t.tracker.nextNonce) raw]
  | pollNothing (hs : t.state = .pending) (hp : t.tracker.pending = none) :
      TaskStep t a { t with state := .idle } []
  | pollFails (hs : t.state = .pending) (p : PendingTransaction) (hp : t.tracker.pending = some p)
      (herr : (∃ e, a.receipt = .error e) ∨ a.receipt = .ok none ∧ ∃ e, a.nonce = .error e) :
      TaskStep t a t []
  | mined (hs : t.state = .pending) (p : PendingTransaction) (hp : t.tracker.pending = some p)
      (r : TransactionReceipt) (hr : a.receipt = .ok (some r)) :
      TaskStep t a
        { removeBundledOps
            { t with
              tracker := { t.tracker with currentNonce := p.nonce + 1, pending := none }
              minedBlock := some (r.blockNumber.getD 0) } with
          state := .confirming } []
  | dropped (hs : t.state = .pending) (p : PendingTransaction) (hp : t.tracker.pending = some p)
      (hr : a.receipt = .ok none) (n : U64) (hn : a.nonce = .ok n) (hlt : p.nonce < n) :
      TaskStep t a
        { t with
          tracker := { t.tracker with currentNonce := n, pending := none }
          state := .abandoned } []
  | still (hs : t.state = .pending) (p : PendingTransaction) (hp : t.tracker.pending = some p)
      (hr : a.receipt = .ok none) (n : U64) (hn : a.nonce = .ok n) (hle : ¬ p.nonce < n)
      (next : BundleSenderState) (hnext : next = .pending ∨ next = .escalating) :
      TaskStep t a { t with state := next } []
  | giveUp (hs : t.state = .escalating)
      (hfees : t.tracker.escalatedFees a.baseFee a.priorityFee = none ∨ t.currentBundle = none) :
      TaskStep t a { t with tracker := t.tracker.clearPending, state := .abandoned } []
  | escalateFails (hs : t.state = .escalating) (fees : U128 × U128)
      (hfees : t.tracker.escalatedFees a.baseFee a.priorityFee = some fees) (bundle : Bundle)
      (hb : t.currentBundle = some bundle) (calls : List TaskCall)
      (hcalls : calls = [.sign (t.escalationTx bundle fees) t.chainSpec.id] ∨
        ((∃ e, a.submitted = .error e) ∧ ∃ raw,
          calls = [.sign (t.escalationTx bundle fees) t.chainSpec.id,
            .submit (t.escalationTx bundle fees) raw])) :
      TaskStep t a { t with state := .pending } calls
  | escalate (hs : t.state = .escalating) (fees : U128 × U128)
      (hfees : t.tracker.escalatedFees a.baseFee a.priorityFee = some fees) (bundle : Bundle)
      (hb : t.currentBundle = some bundle) (raw : Bytes) (txHash : B256)
      (hhash : a.submitted = .ok txHash) :
      TaskStep t a
        { t with
          tracker := t.tracker.recordEscalation txHash fees.1 fees.2
          state := .pending }
        [.sign (t.escalationTx bundle fees) t.chainSpec.id,
          .submit (t.escalationTx bundle fees) raw]
  | cancelNothing (hs : t.state = .cancelling) (hp : t.tracker.pending = none) :
      TaskStep t a { t with state := .idle } []
  | cancel (hs : t.state = .cancelling) (p : PendingTransaction) (hp : t.tracker.pending = some p)
      (calls : List TaskCall)
      (hcalls : calls = [.sign (t.cancelTx p) t.chainSpec.id] ∨ ∃ raw,
        calls = [.sign (t.cancelTx p) t.chainSpec.id, .cancel p.txHash raw]) :
      TaskStep t a { t with tracker := t.tracker.clearPending, state := .abandoned } calls
  | confirming (hs : t.state = .confirming) (next : BundleSenderState)
      (hnext : next = .confirming ∨ next = .confirmed) :
      TaskStep t a { t with state := next } []
  | reset (hs : t.state = .confirmed ∨ t.state = .abandoned) :
      TaskStep t a { t with currentBundle := none, minedBlock := none, state := .idle } []

/-- A handler's answer is a step, in the state that it names. -/
theorem taskStep_of_handle {t task : BundlerTask} {a : StepAnswers} {next : BundleSenderState}
    {calls : List TaskCall} (h : t.handle a = { task := task, next := next, calls := calls })
    (hstep : TaskStep t a { task with state := next } calls) :
    TaskStep t a (t.step a) (t.calls a) := by
  unfold step BundlerTask.calls
  rw [h]
  exact hstep

/-- An idle task stays idle or starts building. -/
theorem idle_taskStep {t : BundlerTask} (a : StepAnswers) (hs : t.state = .idle) :
    TaskStep t a (t.step a) (t.calls a) := by
  by_cases hsize : t.pool.size = 0
  · have h : t.handle a = { task := t, next := .idle, calls := [] } := by
      simp only [handle, hs, handleIdle, hsize, if_true]
    exact taskStep_of_handle h (.idle hs .idle (Or.inl rfl))
  · have h : t.handle a = { task := t, next := .building, calls := [] } := by
      simp only [handle, hs, handleIdle, hsize, if_false]
    exact taskStep_of_handle h (.idle hs .building (Or.inr rfl))

/-- Building keeps a bundle or falls back to idle. -/
theorem building_taskStep {t : BundlerTask} (a : StepAnswers) (hs : t.state = .building) :
    TaskStep t a (t.step a) (t.calls a) := by
  have hhandle : t.handle a = t.handleBuilding a := by simp only [handle, hs]
  unfold handleBuilding at hhandle
  cases hprop : a.proposal with
  | error e =>
      simp only [hprop] at hhandle
      exact taskStep_of_handle hhandle (.buildNothing hs)
  | ok bundle =>
      cases hempty : bundle.isEmpty with
      | true =>
          simp only [hprop, hempty, if_true] at hhandle
          exact taskStep_of_handle hhandle (.buildNothing hs)
      | false =>
          simp only [hprop, hempty, Bool.false_eq_true, if_false] at hhandle
          exact taskStep_of_handle hhandle (.build hs bundle hprop hempty)

/-- Submitting goes on to pending, or is abandoned. -/
theorem submitting_taskStep {t : BundlerTask} (a : StepAnswers) (hs : t.state = .submitting) :
    TaskStep t a (t.step a) (t.calls a) := by
  have hhandle : t.handle a = t.handleSubmitting a := by simp only [handle, hs]
  unfold handleSubmitting at hhandle
  cases hb : t.currentBundle with
  | none =>
      rw [hb] at hhandle
      exact taskStep_of_handle hhandle (.submitNothing hs hb)
  | some bundle =>
      rw [hb] at hhandle
      rcases hsigned : a.signed with e | raw
      · rw [hsigned] at hhandle
        exact taskStep_of_handle hhandle (.submitFails hs bundle hb _ (Or.inl rfl))
      · rw [hsigned] at hhandle
        rcases hsub : a.submitted with e | txHash
        · rw [hsub] at hhandle
          exact taskStep_of_handle hhandle
            (.submitFails hs bundle hb _ (Or.inr ⟨⟨e, hsub⟩, raw, rfl⟩))
        · have hkeep := TaskStep.submit hs bundle hb raw txHash hsub
          rw [hsub] at hhandle
          apply taskStep_of_handle hhandle
          rw [← hb]
          exact hkeep

/-- A pending task is left by a receipt or a consumed nonce, and goes to escalation
when it is due. -/
theorem pending_taskStep {t : BundlerTask} (a : StepAnswers) (hs : t.state = .pending) :
    TaskStep t a (t.step a) (t.calls a) := by
  have hhandle : t.handle a = t.handlePending a := by simp only [handle, hs]
  unfold handlePending at hhandle
  cases hp : t.tracker.pending with
  | none =>
      rw [TransactionTracker.checkPending_of_none hp] at hhandle
      exact taskStep_of_handle hhandle (.pollNothing hs hp)
  | some p =>
      rcases TransactionTracker.checkPending_cases hp a.receipt a.nonce with
        ⟨e, hcheck, herr⟩ | ⟨r, hr, hcheck⟩ | ⟨n, hr, hn, hlt, hcheck⟩ | ⟨n, hr, hn, hle, hcheck⟩
      · rw [hcheck] at hhandle
        have hfail : (∃ e, a.receipt = .error e) ∨
            a.receipt = .ok none ∧ ∃ e, a.nonce = .error e := by
          rcases herr with herr | ⟨hr, hn⟩
          · exact Or.inl ⟨e, herr⟩
          · exact Or.inr ⟨hr, e, hn⟩
        have hsame : { t with state := .pending } = t := by rw [← hs]
        have hstay := TaskStep.pollFails (a := a) hs p hp hfail
        apply taskStep_of_handle hhandle
        exact hsame.symm ▸ hstay
      · rw [hcheck] at hhandle
        exact taskStep_of_handle hhandle (.mined hs p hp r hr)
      · rw [hcheck] at hhandle
        exact taskStep_of_handle hhandle (.dropped hs p hp hr n hn hlt)
      · rw [hcheck] at hhandle
        by_cases hneeds : t.tracker.needsEscalation a.now
        · simp only [hneeds, if_true] at hhandle
          exact taskStep_of_handle hhandle (.still hs p hp hr n hn hle .escalating (Or.inr rfl))
        · simp only [hneeds] at hhandle
          exact taskStep_of_handle hhandle (.still hs p hp hr n hn hle .pending (Or.inl rfl))

/-- Escalating returns to pending, unless there are no fees or no bundle. -/
theorem escalating_taskStep {t : BundlerTask} (a : StepAnswers) (hs : t.state = .escalating) :
    TaskStep t a (t.step a) (t.calls a) := by
  have hhandle : t.handle a = t.handleEscalating a := by simp only [handle, hs]
  unfold handleEscalating at hhandle
  cases hfees : t.tracker.escalatedFees a.baseFee a.priorityFee with
  | none =>
      rw [hfees] at hhandle
      exact taskStep_of_handle hhandle (.giveUp hs (Or.inl hfees))
  | some fees =>
      rw [hfees] at hhandle
      cases hb : t.currentBundle with
      | none =>
          have hgive := TaskStep.giveUp (a := a) hs (Or.inr hb)
          rw [hb] at hhandle
          apply taskStep_of_handle hhandle
          rw [← hb]
          exact hgive
      | some bundle =>
          rw [hb] at hhandle
          rcases hsigned : a.signed with e | raw
          · rw [hsigned] at hhandle
            exact taskStep_of_handle hhandle
              (.escalateFails hs fees hfees bundle hb _ (Or.inl rfl))
          · rw [hsigned] at hhandle
            rcases hsub : a.submitted with e | txHash
            · rw [hsub] at hhandle
              exact taskStep_of_handle hhandle
                (.escalateFails hs fees hfees bundle hb _ (Or.inr ⟨⟨e, hsub⟩, raw, rfl⟩))
            · have hkeep := TaskStep.escalate hs fees hfees bundle hb raw txHash hsub
              rw [hsub] at hhandle
              apply taskStep_of_handle hhandle
              rw [← hb]
              exact hkeep

/-- Cancelling forgets the tracked transaction, if there is one. -/
theorem cancelling_taskStep {t : BundlerTask} (a : StepAnswers) (hs : t.state = .cancelling) :
    TaskStep t a (t.step a) (t.calls a) := by
  have hhandle : t.handle a = t.handleCancelling a := by simp only [handle, hs]
  unfold handleCancelling at hhandle
  cases hp : t.tracker.pending with
  | none =>
      rw [hp] at hhandle
      exact taskStep_of_handle hhandle (.cancelNothing hs hp)
  | some p =>
      rw [hp] at hhandle
      rcases hsigned : a.signed with e | raw
      · rw [hsigned] at hhandle
        exact taskStep_of_handle hhandle (.cancel hs p hp _ (Or.inl rfl))
      · rw [hsigned] at hhandle
        exact taskStep_of_handle hhandle (.cancel hs p hp _ (Or.inr ⟨raw, rfl⟩))

/-- Confirming only waits. -/
theorem confirming_taskStep {t : BundlerTask} (a : StepAnswers) (hs : t.state = .confirming) :
    TaskStep t a (t.step a) (t.calls a) := by
  have hhandle : t.handle a = t.handleConfirming a := by simp only [handle, hs]
  unfold handleConfirming at hhandle
  cases hmined : t.minedBlock with
  | none =>
      rw [hmined] at hhandle
      exact taskStep_of_handle hhandle (.confirming hs .confirmed (Or.inr rfl))
  | some minedAt =>
      rw [hmined] at hhandle
      rcases hblock : a.blockNumber with e | currentBlock
      · rw [hblock] at hhandle
        exact taskStep_of_handle hhandle (.confirming hs .confirming (Or.inl rfl))
      · rw [hblock] at hhandle
        by_cases hdeep :
          t.confirmationDepth ≤ MachineWords.saturatingSub currentBlock minedAt
        · simp only [hdeep, if_true] at hhandle
          exact taskStep_of_handle hhandle (.confirming hs .confirmed (Or.inr rfl))
        · simp only [hdeep, if_false] at hhandle
          exact taskStep_of_handle hhandle (.confirming hs .confirming (Or.inl rfl))

/-- Both terminal states lead back to idle. -/
theorem terminal_taskStep {t : BundlerTask} (a : StepAnswers)
    (hs : t.state = .confirmed ∨ t.state = .abandoned) :
    TaskStep t a (t.step a) (t.calls a) := by
  have hhandle : t.handle a = t.handleTerminal := by
    rcases hs with hs | hs <;> simp only [handle, hs]
  exact taskStep_of_handle hhandle (.reset hs)

/-- **Every step is one of these.** -/
theorem step_taskStep (t : BundlerTask) (a : StepAnswers) :
    TaskStep t a (t.step a) (t.calls a) := by
  cases hs : t.state with
  | idle => exact idle_taskStep a hs
  | building => exact building_taskStep a hs
  | submitting => exact submitting_taskStep a hs
  | pending => exact pending_taskStep a hs
  | escalating => exact escalating_taskStep a hs
  | cancelling => exact cancelling_taskStep a hs
  | confirming => exact confirming_taskStep a hs
  | confirmed => exact terminal_taskStep a (Or.inl hs)
  | abandoned => exact terminal_taskStep a (Or.inr hs)

end Cases

end BundlerTask

end Bunzo
