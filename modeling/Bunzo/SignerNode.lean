import Bunzo.BundlerRuns

/-!
# The task and the node it submits to

The node knows the signer's next nonce, the accepted transactions by hash,
each with the nonce slot it competes for, and the receipts of the mined ones.
Only the task uses the signer.

A run interleaves the steps of the task with mining, in any order.  One poll
asks for the receipt first and for the nonce afterwards, and transactions can
be mined in between.  The node may fail to answer, but it never lies.

* `SignerNode.Sound` — a hash has one slot, and only mined slots have receipts.
* `nodeMachine` — the runs, for a given assignment of slots to transactions.
* `NodeRun.Regular.of_reachable` — the node stays sound along every run.
-/

namespace Bunzo

open ReachableStates

/-- The node's view of one signer: its next nonce, the transactions that were accepted
with their slots, and the receipts of the mined ones, newest first. -/
structure SignerNode where
  nonce : U64
  accepted : List (B256 × U64)
  receipts : List (B256 × TransactionReceipt)

namespace SignerNode

/-- The receipt the node answers for a hash. -/
def receiptOf (node : SignerNode) (txHash : B256) : Option TransactionReceipt :=
  node.receipts.lookup txHash

/-- A transaction is mined when its slot is next. -/
def Minable (node : SignerNode) (txHash : B256) : Prop := (txHash, node.nonce) ∈ node.accepted

instance (node : SignerNode) (txHash : B256) : Decidable (node.Minable txHash) :=
  inferInstanceAs (Decidable ((txHash, node.nonce) ∈ node.accepted))

/-- Mining a transaction takes its slot and leaves a receipt. -/
def mine (node : SignerNode) (mined : B256 × TransactionReceipt) : SignerNode :=
  { node with nonce := node.nonce + 1, receipts := mined :: node.receipts }

/-- Nothing is accepted twice, below the next nonce, or at the last one. -/
def Accepts (node : SignerNode) (txHash : B256) (slot : U64) : Prop :=
  (∀ known ∈ node.accepted, known.1 ≠ txHash) ∧ node.nonce ≤ slot ∧ slot.toNat + 1 < 2 ^ 64

instance (node : SignerNode) (txHash : B256) (slot : U64) :
    Decidable (node.Accepts txHash slot) :=
  inferInstanceAs (Decidable (_ ∧ _ ∧ _))

/-- An accepted transaction is known from then on. -/
def accept (node : SignerNode) (txHash : B256) (slot : U64) : SignerNode :=
  { node with accepted := (txHash, slot) :: node.accepted }

/-- Several transactions, mined one after another. -/
def mineAll : List (B256 × TransactionReceipt) → SignerNode → SignerNode
  | [], node => node
  | mined :: rest, node => mineAll rest (node.mine mined)

/-- Each of them is next when it is mined. -/
def MinableAll : List (B256 × TransactionReceipt) → SignerNode → Prop
  | [], _ => True
  | mined :: rest, node => node.Minable mined.1 ∧ MinableAll rest (node.mine mined)

instance decidableMinableAll : ∀ between node, Decidable (MinableAll between node)
  | [], _ => inferInstanceAs (Decidable True)
  | mined :: rest, node =>
      have := decidableMinableAll rest (node.mine mined)
      inferInstanceAs (Decidable (node.Minable mined.1 ∧ MinableAll rest (node.mine mined)))

/-- The transaction was mined and succeeded. -/
def Succeeded (node : SignerNode) (txHash : B256) : Prop :=
  ∃ receipt, (txHash, receipt) ∈ node.receipts ∧ receipt.status = true

/-- A hash stands for one transaction, slots leave room for the next nonce, and
what has a receipt was accepted at a slot below the next nonce. -/
structure Sound (node : SignerNode) : Prop where
  slot_unique : ∀ txHash slot slot', (txHash, slot) ∈ node.accepted →
    (txHash, slot') ∈ node.accepted → slot = slot'
  slot_lt : ∀ txHash slot, (txHash, slot) ∈ node.accepted → slot.toNat + 1 < 2 ^ 64
  mined_lt : ∀ txHash receipt, (txHash, receipt) ∈ node.receipts →
    ∃ slot, (txHash, slot) ∈ node.accepted ∧ slot.toNat < node.nonce.toNat

variable {node : SignerNode}

/-- Without a receipt there is no success. -/
theorem not_succeeded_of_receiptOf {txHash : B256} (h : node.receiptOf txHash = none) :
    ¬ node.Succeeded txHash := by
  intro hok
  obtain ⟨receipt, hmem, _⟩ := hok
  unfold receiptOf at h
  rw [List.lookup_eq_none_iff] at h
  have hne := h _ hmem
  simp at hne

/-- Mining makes the mined transaction succeed, if its receipt says so. -/
theorem succeeded_mine {mined : B256 × TransactionReceipt} {txHash : B256} :
    (node.mine mined).Succeeded txHash ↔
      node.Succeeded txHash ∨ (mined.1 = txHash ∧ mined.2.status = true) := by
  unfold Succeeded mine
  refine ⟨?_, ?_⟩
  · intro h
    obtain ⟨receipt, hmem, hok⟩ := h
    rcases List.mem_cons.mp hmem with hnew | hold
    · exact Or.inr ⟨by rw [← hnew], by rw [← hnew]; exact hok⟩
    · exact Or.inl ⟨receipt, hold, hok⟩
  · intro h
    rcases h with ⟨receipt, hmem, hok⟩ | ⟨hhash, hok⟩
    · exact ⟨receipt, List.mem_cons_of_mem _ hmem, hok⟩
    · exact ⟨mined.2, by rw [← hhash]; exact List.mem_cons_self, hok⟩

/-- What succeeded after several were mined had succeeded before or is one of them. -/
theorem succeeded_mineAll {between : List (B256 × TransactionReceipt)} {txHash : B256} :
    ∀ {node : SignerNode}, (mineAll between node).Succeeded txHash ↔
      node.Succeeded txHash ∨ ∃ receipt, (txHash, receipt) ∈ between ∧ receipt.status = true := by
  induction between with
  | nil => simp [mineAll]
  | cons mined rest ih =>
      intro node
      rw [mineAll, ih, succeeded_mine]
      refine ⟨?_, ?_⟩
      · intro h
        rcases h with (h | ⟨hhash, hok⟩) | ⟨receipt, hmem, hok⟩
        · exact Or.inl h
        · exact Or.inr ⟨mined.2, by rw [← hhash]; exact List.mem_cons_self, hok⟩
        · exact Or.inr ⟨receipt, List.mem_cons_of_mem _ hmem, hok⟩
      · intro h
        rcases h with h | ⟨receipt, hmem, hok⟩
        · exact Or.inl (Or.inl h)
        · rcases List.mem_cons.mp hmem with hnew | hold
          · exact Or.inl (Or.inr ⟨by rw [← hnew], by rw [← hnew]; exact hok⟩)
          · exact Or.inr ⟨receipt, hold, hok⟩

/-- Mining accepts nothing. -/
@[simp] theorem mineAll_accepted (between : List (B256 × TransactionReceipt)) :
    ∀ node : SignerNode, (mineAll between node).accepted = node.accepted := by
  induction between with
  | nil =>
      intro node
      rfl
  | cons mined rest ih =>
      intro node
      exact ih _

namespace Sound

/-- The slot that is taken leaves room for the next nonce. -/
theorem nonce_mine (h : Sound node) {mined : B256 × TransactionReceipt}
    (hmine : node.Minable mined.1) : (node.mine mined).nonce.toNat = node.nonce.toNat + 1 :=
  MachineWords.toNat_add_of_lt (h.slot_lt _ _ hmine)

/-- Mining keeps a node sound. -/
theorem mine (h : Sound node) {mined : B256 × TransactionReceipt}
    (hmine : node.Minable mined.1) : Sound (node.mine mined) := by
  have hnonce := h.nonce_mine hmine
  refine ⟨h.slot_unique, h.slot_lt, ?_⟩
  intro txHash receipt hmem
  rw [hnonce]
  rcases List.mem_cons.mp hmem with hnew | hold
  · refine ⟨node.nonce, ?_, Nat.lt_succ_self _⟩
    have hhash : mined.1 = txHash := by rw [← hnew]
    exact hhash ▸ hmine
  · obtain ⟨slot, hslot, hlt⟩ := h.mined_lt txHash receipt hold
    exact ⟨slot, hslot, Nat.lt_succ_of_lt hlt⟩

/-- So does mining several. -/
theorem mineAll {between : List (B256 × TransactionReceipt)} :
    ∀ {node : SignerNode}, Sound node → MinableAll between node →
      Sound (mineAll between node) := by
  induction between with
  | nil =>
      intro node h _
      exact h
  | cons mined rest ih =>
      intro node h hmine
      exact ih (h.mine hmine.1) hmine.2

/-- Accepting a transaction at a free slot keeps a node sound. -/
theorem accept (h : Sound node) {txHash : B256} {slot : U64} (hok : node.Accepts txHash slot) :
    Sound (node.accept txHash slot) := by
  obtain ⟨hfresh, _, hlt⟩ := hok
  have hold : ∀ slot', (txHash, slot') ∉ node.accepted := fun slot' hmem => hfresh _ hmem rfl
  refine ⟨?_, ?_, ?_⟩
  · intro known s s' hs hs'
    have hunique := h.slot_unique known s s'
    simp only [SignerNode.accept, List.mem_cons] at hs hs'
    grind
  · intro known s hs
    rcases List.mem_cons.mp hs with hnew | hmem
    · cases hnew
      exact hlt
    · exact h.slot_lt known s hmem
  · intro known receipt hmem
    obtain ⟨s, hs, hbelow⟩ := h.mined_lt known receipt hmem
    exact ⟨s, List.mem_cons_of_mem _ hs, hbelow⟩

/-- What was never accepted has not succeeded. -/
theorem not_succeeded_of_fresh (h : Sound node) {txHash : B256} {slot : U64}
    (hok : node.Accepts txHash slot) : ¬ node.Succeeded txHash := by
  intro hdone
  obtain ⟨receipt, hmem, _⟩ := hdone
  obtain ⟨s, hs, _⟩ := h.mined_lt txHash receipt hmem
  exact hok.1 _ hs rfl

end Sound

end SignerNode

/-! ## Runs -/

/-- The task, its node, the hashes accepted for the bundle in flight, and
those of bundles that were given up or taken as dropped. -/
structure NodeRun where
  task : BundlerTask
  node : SignerNode
  attempt : List B256
  abandoned : List B256

/-- `step` runs the task with its answers and mines `between` the two queries
of a poll. -/
inductive NodeEvent where
  | mine (mined : B256 × TransactionReceipt)
  | step (a : StepAnswers) (between : List (B256 × TransactionReceipt))
  | pool (call : PoolCall)

/-- A transaction of the bundle is in flight. -/
def BundlerTask.Waiting (t : BundlerTask) : Prop := t.state = .pending ∨ t.state = .escalating

instance (t : BundlerTask) : Decidable t.Waiting :=
  inferInstanceAs (Decidable (t.state = .pending ∨ t.state = .escalating))

/-- The slot of a transaction is the nonce it is signed with. -/
def signedSlot (_ : BundlerTask) (tx : TransactionRequest) : U64 := tx.nonce

/-- Every transaction of a bundle competes for the slot of the pending nonce. -/
def pendingSlot (t : BundlerTask) (_ : TransactionRequest) : U64 := t.tracker.currentNonce

section Machine

variable [Keccak] (slotOf : BundlerTask → TransactionRequest → U64)

namespace NodeRun

/-- The submission that the node accepts in a step. -/
def accepted (s : NodeRun) (a : StepAnswers) : Option (B256 × TransactionRequest) :=
  acceptedBy a.submitted (s.task.calls a)

/-- The node after a step: what is mined in between, then what is accepted. -/
def nodeAfter (s : NodeRun) (a : StepAnswers) (between : List (B256 × TransactionReceipt)) :
    SignerNode :=
  match s.accepted a with
  | none => SignerNode.mineAll between s.node
  | some (txHash, tx) => (SignerNode.mineAll between s.node).accept txHash (slotOf s.task tx)

/-- One event.  A step is taken with the answers it gets; what was mined during the
step and what it submitted are with the node afterwards. -/
def next (s : NodeRun) : NodeEvent → NodeRun
  | .mine mined => { s with node := s.node.mine mined }
  | .pool call => { s with task := (TaskEvent.pool call).apply s.task }
  | .step a between =>
      let task := s.task.step a
      let attempt := s.attempt ++ ((s.accepted a).map Prod.fst).toList
      { task := task
        node := s.nodeAfter slotOf a between
        attempt := if task.Waiting then attempt else []
        abandoned :=
          if s.task.Waiting ∧ ¬ task.Waiting ∧ task.state ≠ .confirming then
            s.abandoned ++ attempt
          else s.abandoned }

/-- Answers of the node are true, if they come at all; what it accepts it may
accept.  Mining splits a poll only between its two queries. -/
structure Truthful (s : NodeRun) (a : StepAnswers) (between : List (B256 × TransactionReceipt)) :
    Prop where
  receipt : ∀ r ∈ a.receipt.toOption, ∀ p ∈ s.task.tracker.pending, r = s.node.receiptOf p.txHash
  nonce : ∀ n ∈ a.nonce.toOption, n = (SignerNode.mineAll between s.node).nonce
  between_poll : between ≠ [] → s.task.state = .pending
  minable : SignerNode.MinableAll between s.node
  accepts : ∀ sent ∈ s.accepted a, s.node.Accepts sent.1 (slotOf s.task sent.2)

instance (s : NodeRun) (a : StepAnswers) (between : List (B256 × TransactionReceipt)) :
    Decidable (s.Truthful slotOf a between) :=
  decidable_of_iff
    ((∀ r ∈ a.receipt.toOption, ∀ p ∈ s.task.tracker.pending, r = s.node.receiptOf p.txHash) ∧
      (∀ n ∈ a.nonce.toOption, n = (SignerNode.mineAll between s.node).nonce) ∧
      (between ≠ [] → s.task.state = .pending) ∧ SignerNode.MinableAll between s.node ∧
      (∀ sent ∈ s.accepted a, s.node.Accepts sent.1 (slotOf s.task sent.2)))
    ⟨fun h => ⟨h.1, h.2.1, h.2.2.1, h.2.2.2.1, h.2.2.2.2⟩,
      fun h => ⟨h.receipt, h.nonce, h.between_poll, h.minable, h.accepts⟩⟩

/-- A node mines what is next, and its answers are truthful. -/
def Enabled (s : NodeRun) : NodeEvent → Prop
  | .mine mined => s.node.Minable mined.1
  | .pool _ => True
  | .step a between => s.Truthful slotOf a between

instance (s : NodeRun) : ∀ e, Decidable (s.Enabled slotOf e)
  | .mine mined => inferInstanceAs (Decidable (s.node.Minable mined.1))
  | .pool _ => inferInstanceAs (Decidable True)
  | .step a between => inferInstanceAs (Decidable (s.Truthful slotOf a between))

end NodeRun

/-- The task starts with the nonce of a node that holds nothing of the signer. -/
def nodeMachine : Machine NodeRun NodeEvent where
  init s := bundlerMachine.init s.task ∧
    s.node = { nonce := s.task.tracker.currentNonce, accepted := [], receipts := [] } ∧
    s.attempt = [] ∧ s.abandoned = []
  enabled s e := s.Enabled slotOf e
  next s e := s.next slotOf e

instance (s : NodeRun) (e : NodeEvent) : Decidable ((nodeMachine slotOf).enabled s e) :=
  inferInstanceAs (Decidable (s.Enabled slotOf e))

namespace NodeRun

variable {slotOf} {s : NodeRun} {a : StepAnswers} {between : List (B256 × TransactionReceipt)}

/-- A step that nothing is accepted in only mines. -/
theorem nodeAfter_of_none (h : s.accepted a = none) :
    s.nodeAfter slotOf a between = SignerNode.mineAll between s.node := by
  unfold nodeAfter
  rw [h]

/-- A transaction tracked after a step that nothing is accepted in was tracked before. -/
theorem tracked_of_none (hshape : s.task.Shape) (hacc : s.accepted a = none)
    {p : PendingTransaction} (hp : (s.task.step a).tracker.pending = some p) :
    s.task.tracker.pending = some p ∧
      (s.task.step a).tracker.currentNonce = s.task.tracker.currentNonce := by
  rcases (BundlerTask.step_taskStep s.task a).tracked_cases hshape hp with
    ⟨_, hold, _, hkept⟩ | ⟨tx, hsome⟩
  · exact ⟨hold, hkept⟩
  · rw [show acceptedBy a.submitted (s.task.calls a) = none from hacc] at hsome
    cases hsome

/-- Only a step that polls has room for mining between two queries. -/
theorem Truthful.between_eq_nil (htrue : s.Truthful slotOf a between)
    (hs : s.task.state ≠ .pending) : between = [] := by
  by_contra hne
  exact hs (htrue.between_poll hne)

/-- Nothing is mined in a step that submits. -/
theorem nodeAfter_of_some (hshape : s.task.Shape) (htrue : s.Truthful slotOf a between)
    {txHash : B256} {tx : TransactionRequest} (h : s.accepted a = some (txHash, tx)) :
    s.nodeAfter slotOf a between = s.node.accept txHash (slotOf s.task tx) := by
  obtain ⟨_, _, _, _, _, _, _, _, _, hstate⟩ :=
    (BundlerTask.step_taskStep s.task a).accepted_cases hshape h
  have hnil : between = [] := htrue.between_eq_nil (by grind)
  unfold nodeAfter
  rw [h, hnil]
  rfl

/-- A step whose queries fail and that submits nothing is possible anywhere. -/
theorem truthful_of_silent (hreceipt : a.receipt.toOption = none)
    (hnonce : a.nonce.toOption = none) (hacc : s.accepted a = none) :
    s.Truthful slotOf a [] := by
  refine ⟨?_, ?_, fun hne => absurd rfl hne, trivial, ?_⟩
  · simp [hreceipt]
  · simp [hnonce]
  · simp [hacc]

/-- So is a submission that the node may accept. -/
theorem truthful_of_accepted (hreceipt : a.receipt.toOption = none)
    (hnonce : a.nonce.toOption = none) {txHash : B256} {tx : TransactionRequest}
    (hacc : s.accepted a = some (txHash, tx))
    (hok : s.node.Accepts txHash (slotOf s.task tx)) : s.Truthful slotOf a [] := by
  refine ⟨?_, ?_, fun hne => absurd rfl hne, trivial, ?_⟩
  · simp [hreceipt]
  · simp [hnonce]
  · intro sent hsent
    cases hacc.symm.trans hsent
    exact hok

/-- So is a poll that is answered. -/
theorem truthful_of_poll {p : PendingTransaction} (hp : s.task.tracker.pending = some p)
    (hreceipt : a.receipt = .ok (s.node.receiptOf p.txHash)) (hnonce : a.nonce = .ok s.node.nonce)
    (hacc : s.accepted a = none) : s.Truthful slotOf a [] := by
  refine ⟨?_, ?_, fun hne => absurd rfl hne, trivial, ?_⟩
  · intro r hr q hq
    rw [hreceipt] at hr
    cases hp.symm.trans hq
    exact (Option.some.inj hr).symm
  · intro n hn
    rw [hnonce] at hn
    exact (Option.some.inj hn).symm
  · simp [hacc]

/-- The task has its shape, and the node is sound. -/
structure Regular (s : NodeRun) : Prop where
  shape : s.task.Shape
  sound : s.node.Sound

/-- At the start there is nothing to be unsound about. -/
theorem Regular.of_init (h : (nodeMachine slotOf).init s) : Regular s := by
  obtain ⟨⟨_, _, _, _, hstart⟩, hnode, _⟩ := h
  refine ⟨BundlerTask.Shape.of_start hstart, ?_⟩
  rw [hnode]
  constructor <;> simp

/-- **One event** keeps a node sound and the task in shape. -/
theorem Regular.next (h : Regular s) {e : NodeEvent} (he : s.Enabled slotOf e) :
    Regular (s.next slotOf e) := by
  cases e with
  | mine mined => exact ⟨h.shape, h.sound.mine he⟩
  | pool call => exact ⟨h.shape.apply (.pool call), h.sound⟩
  | step a between =>
      refine ⟨h.shape.step a, ?_⟩
      show (s.nodeAfter slotOf a between).Sound
      cases hacc : s.accepted a with
      | none =>
          rw [nodeAfter_of_none hacc]
          exact h.sound.mineAll he.minable
      | some sent =>
          rw [nodeAfter_of_some h.shape he hacc]
          exact h.sound.accept (he.accepts sent hacc)

/-- **The node stays sound.** -/
theorem Regular.of_reachable {cond : NodeRun → NodeEvent → Prop}
    (h : (nodeMachine slotOf).ReachableUnder cond s) : Regular s := by
  apply h.invariant
  · intro s hinit
    exact of_init hinit
  · intro s e hs he _
    exact hs.next he

end NodeRun

end Machine

/-! ## An operation on its way -/

section OnItsWay

variable [Keccak]

/-- The pool with one operation. -/
def pooledOne : OperationPool :=
  (PoolCall.add ((plainOperation 1 0 30).setContext 0xEE 1) 15).apply
    (OperationPool.new (PoolConfig.ofChainSpec ChainSpec.mainnet))

/-- A task with one operation pooled, which may be bundled and submitted. -/
def taskAt (nonce : U64) (pending : Option PendingTransaction) (state : BundleSenderState)
    (bundle : Option Bundle) : BundlerTask :=
  { startedTask nonce with
    tracker := { (startedTask nonce).tracker with pending := pending }
    pool := pooledOne
    state := state
    currentBundle := bundle }

/-- A transaction in its first attempt. -/
def firstPending (nonce : U64) : PendingTransaction where
  txHash := 0xAAA
  nonce := nonce
  escalationCount := 0
  submittedAt := 0
  maxFeePerGas := 30
  maxPriorityFeePerGas := 1

/-- Nothing is tracked, and the task is in a state between two bundles. -/
def restingRun (nonce : U64) (state : BundleSenderState) (bundle : Option Bundle)
    (node : SignerNode) (abandoned : List B256) : NodeRun where
  task := taskAt nonce none state bundle
  node := node
  attempt := []
  abandoned := abandoned

/-- The node before anything is submitted. -/
def emptyNode (nonce : U64) : SignerNode where
  nonce := nonce
  accepted := []
  receipts := []

/-- The first transaction is accepted and not mined. -/
def firstNode (nonce : U64) : SignerNode where
  nonce := nonce
  accepted := [(0xAAA, nonce)]
  receipts := []

/-- The first transaction is in flight. -/
def flyingRun (nonce : U64) (state : BundleSenderState) : NodeRun where
  task := taskAt nonce (some (firstPending nonce)) state (some oneBundle)
  node := firstNode nonce
  attempt := [0xAAA]
  abandoned := []

namespace NodeRun

variable {slotOf : BundlerTask → TransactionRequest → U64} {nonce : U64}

/-- From idle to submitting, whatever the node holds. -/
theorem submitting_reachable {cond : NodeRun → NodeEvent → Prop} (hsize : pooledOne.size ≠ 0)
    {node : SignerNode} {abandoned : List B256}
    (h : (nodeMachine slotOf).ReachableUnder cond (restingRun nonce .idle none node abandoned))
    (hcond : ∀ s a, s.task.tracker.pending = none → cond s (.step a [])) :
    (nodeMachine slotOf).ReachableUnder cond
      (restingRun nonce .submitting (some oneBundle) node abandoned) := by
  have hhandle : (taskAt nonce none .idle none).handle silentAnswers =
      { task := taskAt nonce none .idle none, next := .building, calls := [] } := by
    show (taskAt nonce none .idle none).handleIdle = _
    unfold BundlerTask.handleIdle
    exact if_neg hsize
  have hidle : (nodeMachine slotOf).next (restingRun nonce .idle none node abandoned)
      (.step silentAnswers []) = restingRun nonce .building none node abandoned := by
    have hstep : (taskAt nonce none .idle none).step silentAnswers =
        taskAt nonce none .building none := by
      unfold BundlerTask.step
      rw [hhandle]
      rfl
    simp only [nodeMachine, NodeRun.next, restingRun, hstep]
    rfl
  have hbuilding := h.next_eq (.step silentAnswers []) (truthful_of_silent rfl rfl rfl)
    (hcond _ _ rfl) hidle
  exact hbuilding.next_eq (.step { silentAnswers with proposal := .ok oneBundle } [])
    (truthful_of_silent rfl rfl rfl) (hcond _ _ rfl) rfl

/-- The operation is pooled. -/
theorem pooled_reachable {cond : NodeRun → NodeEvent → Prop}
    (hcond : ∀ s call, cond s (.pool call)) :
    (nodeMachine slotOf).ReachableUnder cond
      (restingRun nonce .idle none (emptyNode nonce) []) := by
  have hstart : (nodeMachine slotOf).ReachableUnder cond
      { task := startedTask nonce, node := emptyNode nonce, attempt := [], abandoned := [] } :=
    .init ⟨startedTask_init nonce, rfl, rfl, rfl⟩
  exact hstart.next_eq (.pool (.add ((plainOperation 1 0 30).setContext 0xEE 1) 15)) trivial
    (hcond _ _) rfl

/-- From the start to a transaction in flight. -/
theorem flying_reachable {cond : NodeRun → NodeEvent → Prop} (hsize : pooledOne.size ≠ 0)
    (hnonce : nonce.toNat + 1 < 2 ^ 64)
    (hslot : slotOf (taskAt nonce none .submitting (some oneBundle))
      ((taskAt nonce none .submitting (some oneBundle)).buildBundleTx oneBundle nonce) = nonce)
    (hpool : ∀ s call, cond s (.pool call))
    (hcond : ∀ s a, s.task.tracker.pending = none → cond s (.step a [])) :
    (nodeMachine slotOf).ReachableUnder cond (flyingRun nonce .pending) := by
  have hpooled : (nodeMachine slotOf).ReachableUnder cond
      (restingRun nonce .idle none (emptyNode nonce) []) := pooled_reachable hpool
  have hsubmitting := submitting_reachable hsize hpooled hcond
  have haccepts : (emptyNode nonce).Accepts 0xAAA
      (slotOf (taskAt nonce none .submitting (some oneBundle))
        ((taskAt nonce none .submitting (some oneBundle)).buildBundleTx oneBundle nonce)) := by
    rw [hslot]
    exact ⟨by simp [emptyNode], Nat.le_refl _, hnonce⟩
  have hnode : (emptyNode nonce).accept 0xAAA
      (slotOf (taskAt nonce none .submitting (some oneBundle))
        ((taskAt nonce none .submitting (some oneBundle)).buildBundleTx oneBundle nonce)) =
      firstNode nonce := by
    rw [hslot]
    rfl
  apply hsubmitting.next_eq
    (.step { silentAnswers with signed := .ok [], submitted := .ok 0xAAA } [])
  · exact truthful_of_accepted rfl rfl rfl haccepts
  · exact hcond _ _ rfl
  · exact congrArg (fun node => NodeRun.mk _ node _ _) hnode

end NodeRun

end OnItsWay

end Bunzo
