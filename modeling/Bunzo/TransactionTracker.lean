import Bunzo.ChainTypes

/-!
# The transaction in flight

The tracker remembers at most one submitted transaction and the nonce for the
next one.  What the node answers to its queries is an argument of each method.

`checkPending_cases` lists what one poll can do; every fact about polling
below and in other files follows from it.
-/

namespace Bunzo

/-- A receipt, as far as a bundler can use it: whether the transaction
succeeded, and its block, if it is known. -/
structure TransactionReceipt where
  status : Bool
  blockNumber : Option U64
deriving DecidableEq

/-- The transaction in flight: its hash and fees are those of the last attempt, its
nonce and time those of the first. -/
structure PendingTransaction where
  txHash : B256
  nonce : U64
  escalationCount : U32
  /-- The time of submission in milliseconds. -/
  submittedAt : Nat
  maxFeePerGas : U128
  maxPriorityFeePerGas : U128
deriving DecidableEq

/-- What a poll says of the tracked transaction. -/
inductive TransactionStatus where
  | pending
  | mined (blockNumber : U64)
  | dropped
deriving DecidableEq

/-- Whether an escalation looks at the market. -/
inductive EscalationStrategy where
  | linear
  | networkTracking
deriving DecidableEq

/-- When a transaction is escalated, by how much, and how often. -/
structure EscalationConfig where
  /-- The wait before the first escalation in milliseconds. -/
  initialWait : Nat
  feeBumpBps : U32
  maxAttempts : U32
  strategy : EscalationStrategy
  networkPremiumBps : U32
deriving DecidableEq

/-- The configuration of a new tracker. -/
def EscalationConfig.default : EscalationConfig where
  initialWait := 30000
  feeBumpBps := 1250
  maxAttempts := 5
  strategy := .networkTracking
  networkPremiumBps := 1500

/-- What the task knows of its signer: the transaction in flight and the next
nonce. -/
structure TransactionTracker where
  signerAddress : Address
  pending : Option PendingTransaction
  currentNonce : U64
  escalationConfig : EscalationConfig
deriving DecidableEq

namespace TransactionTracker

/-- A tracker that has not asked for its nonce yet. -/
def new (signerAddress : Address) (escalationConfig : EscalationConfig) : TransactionTracker where
  signerAddress := signerAddress
  pending := none
  currentNonce := 0
  escalationConfig := escalationConfig

/-- Start from the nonce the node reports. -/
def initializeTracker (tracker : TransactionTracker) (nonce : Except ProviderError U64) :
    Except ProviderError TransactionTracker := do
  let currentNonce ← nonce
  return { tracker with currentNonce := currentNonce }

/-- The nonce of the next transaction. -/
def nextNonce (tracker : TransactionTracker) : U64 := tracker.currentNonce

/-- Track a transaction from its first attempt on.  The nonce stays where it is. -/
def recordSubmission (tracker : TransactionTracker) (now : Nat) (txHash : B256) (nonce : U64)
    (maxFeePerGas maxPriorityFeePerGas : U128) : TransactionTracker :=
  { tracker with
    pending := some
      { txHash := txHash
        nonce := nonce
        escalationCount := 0
        submittedAt := now
        maxFeePerGas := maxFeePerGas
        maxPriorityFeePerGas := maxPriorityFeePerGas } }

/-- Track nothing. -/
def clearPending (tracker : TransactionTracker) : TransactionTracker :=
  { tracker with pending := none }

/-- Look for the receipt of the tracked transaction, and without one for the
nonce of the signer.  `receipt` and `chainNonce` are the node's answers. -/
def checkPending (tracker : TransactionTracker)
    (receipt : Except ProviderError (Option TransactionReceipt))
    (chainNonce : Except ProviderError U64) :
    Except ProviderError (Option TransactionStatus) × TransactionTracker :=
  match tracker.pending with
  | none => (.ok none, tracker)
  | some pending =>
      match receipt with
      | .error e => (.error e, tracker)
      | .ok (some receipt) =>
          -- the status of the receipt is not looked at
          (.ok (some (.mined (receipt.blockNumber.getD 0))),
            { tracker with currentNonce := pending.nonce + 1, pending := none })
      | .ok none =>
          match chainNonce with
          | .error e => (.error e, tracker)
          | .ok chainNonce =>
              if pending.nonce < chainNonce then
                (.ok (some .dropped), { tracker with currentNonce := chainNonce, pending := none })
              else
                (.ok (some .pending), tracker)

/-- The wait is over and attempts are left. -/
def needsEscalation (tracker : TransactionTracker) (now : Nat) : Bool :=
  match tracker.pending with
  | some p =>
      decide (tracker.escalationConfig.initialWait ≤ now - p.submittedAt) &&
        decide (p.escalationCount < tracker.escalationConfig.maxAttempts)
  | none => false

/-- A fee raised by basis points. -/
def bumped (fee : U128) (bps : U32) : U128 := fee * (10000 + bps.setWidth 128) / 10000

/-- The market fees with a premium, but at least the minimum bump. -/
def escalatedFeesNetwork (tracker : TransactionTracker)
    (baseFee priorityFee : Except ProviderError U128) : Option (U128 × U128) := do
  let pending ← tracker.pending
  let baseFee ← baseFee.toOption
  let priorityFee ← priorityFee.toOption
  let marketMaxFee := bumped (baseFee + priorityFee) tracker.escalationConfig.networkPremiumBps
  let marketPriority := bumped priorityFee tracker.escalationConfig.networkPremiumBps
  let minMaxFee := bumped pending.maxFeePerGas tracker.escalationConfig.feeBumpBps
  let minPriority := bumped pending.maxPriorityFeePerGas tracker.escalationConfig.feeBumpBps
  return (max marketMaxFee minMaxFee, max marketPriority minPriority)

/-- The fees of the next replacement, if there is one. -/
def escalatedFees (tracker : TransactionTracker)
    (baseFee priorityFee : Except ProviderError U128) : Option (U128 × U128) := do
  let pending ← tracker.pending
  if tracker.escalationConfig.maxAttempts ≤ pending.escalationCount then
    none
  else
    match tracker.escalationConfig.strategy with
    | .linear =>
        return (bumped pending.maxFeePerGas tracker.escalationConfig.feeBumpBps,
          bumped pending.maxPriorityFeePerGas tracker.escalationConfig.feeBumpBps)
    | .networkTracking => tracker.escalatedFeesNetwork baseFee priorityFee

/-- The replacement takes the place of the tracked transaction; nonce and time
of submission stay. -/
def recordEscalation (tracker : TransactionTracker) (newTxHash : B256)
    (newMaxFee newPriorityFee : U128) : TransactionTracker :=
  { tracker with
    pending := tracker.pending.map (fun pending =>
      { pending with
        txHash := newTxHash
        maxFeePerGas := newMaxFee
        maxPriorityFeePerGas := newPriorityFee
        escalationCount := pending.escalationCount + 1 }) }

/-- **One poll of a tracked transaction.**  A failed query and an unconsumed
nonce change nothing; a receipt or a consumed nonce ends the tracking. -/
theorem checkPending_cases {tracker : TransactionTracker} {p : PendingTransaction}
    (hp : tracker.pending = some p) (receipt : Except ProviderError (Option TransactionReceipt))
    (chainNonce : Except ProviderError U64) :
    (∃ e, tracker.checkPending receipt chainNonce = (.error e, tracker) ∧
      (receipt = .error e ∨ (receipt = .ok none ∧ chainNonce = .error e))) ∨
    (∃ r, receipt = .ok (some r) ∧ tracker.checkPending receipt chainNonce =
      (.ok (some (.mined (r.blockNumber.getD 0))),
        { tracker with currentNonce := p.nonce + 1, pending := none })) ∨
    (∃ n, receipt = .ok none ∧ chainNonce = .ok n ∧ p.nonce < n ∧
      tracker.checkPending receipt chainNonce =
        (.ok (some .dropped), { tracker with currentNonce := n, pending := none })) ∨
    (∃ n, receipt = .ok none ∧ chainNonce = .ok n ∧ ¬ p.nonce < n ∧
      tracker.checkPending receipt chainNonce = (.ok (some .pending), tracker)) := by
  unfold checkPending
  simp only [hp]
  rcases receipt with e | receipt
  · exact Or.inl ⟨e, rfl, Or.inl rfl⟩
  · rcases receipt with _ | r
    · rcases chainNonce with e | n
      · exact Or.inl ⟨e, rfl, Or.inr ⟨rfl, rfl⟩⟩
      · by_cases hn : p.nonce < n
        · exact Or.inr (Or.inr (Or.inl ⟨n, rfl, rfl, hn, by simp only [hn, if_true]⟩))
        · exact Or.inr (Or.inr (Or.inr ⟨n, rfl, rfl, hn, by simp only [hn, if_false]⟩))
    · exact Or.inr (Or.inl ⟨r, rfl, rfl⟩)

/-- Without a tracked transaction there is nothing to look for. -/
theorem checkPending_of_none {tracker : TransactionTracker} (hp : tracker.pending = none)
    (receipt : Except ProviderError (Option TransactionReceipt))
    (chainNonce : Except ProviderError U64) :
    tracker.checkPending receipt chainNonce = (.ok none, tracker) := by
  unfold checkPending
  rw [hp]

/-- A submission does not move the nonce. -/
@[simp] theorem recordSubmission_currentNonce (tracker : TransactionTracker) (now : Nat)
    (txHash : B256) (nonce : U64) (maxFee priorityFee : U128) :
    (tracker.recordSubmission now txHash nonce maxFee priorityFee).currentNonce =
      tracker.currentNonce := rfl

/-- Nor does giving up. -/
@[simp] theorem clearPending_currentNonce (tracker : TransactionTracker) :
    tracker.clearPending.currentNonce = tracker.currentNonce := rfl

/-- What is given up is not tracked. -/
@[simp] theorem clearPending_pending (tracker : TransactionTracker) :
    tracker.clearPending.pending = none := rfl

/-- An escalation does not move the nonce. -/
@[simp] theorem recordEscalation_currentNonce (tracker : TransactionTracker) (txHash : B256)
    (maxFee priorityFee : U128) :
    (tracker.recordEscalation txHash maxFee priorityFee).currentNonce = tracker.currentNonce := rfl

/-- An escalation tracks a transaction if one was tracked. -/
@[simp] theorem recordEscalation_pending_isSome (tracker : TransactionTracker) (txHash : B256)
    (maxFee priorityFee : U128) :
    (tracker.recordEscalation txHash maxFee priorityFee).pending.isSome =
      tracker.pending.isSome := by
  simp [recordEscalation]

/-- The replacement is tracked under its own hash and the old nonce. -/
theorem recordEscalation_pending {tracker : TransactionTracker} {txHash : B256}
    {maxFee priorityFee : U128} {p : PendingTransaction}
    (h : (tracker.recordEscalation txHash maxFee priorityFee).pending = some p) :
    ∃ q, tracker.pending = some q ∧ p.nonce = q.nonce ∧ p.txHash = txHash := by
  unfold recordEscalation at h
  obtain ⟨q, hq, heq⟩ := Option.map_eq_some_iff.mp h
  refine ⟨q, hq, ?_, ?_⟩ <;> rw [← heq]

end TransactionTracker

end Bunzo
