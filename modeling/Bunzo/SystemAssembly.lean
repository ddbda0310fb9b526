import Bunzo.BundleProposer
import Bunzo.BundlerRuns
import Bunzo.EthApi
import Bunzo.FiniteIndices

/-!
# The assembled bundler

One validator with its reputation, one pool, and one bundler task with its
proposer share the process.  Clients submit operations and the task steps, in
any order.  Nothing in this assembly watches the chain for included
operations.

* `NeverIncluded` — so no address ever has an inclusion to its credit.
* `keepsStanding_iff` — an address whose operations are all mined in time is
  never refused exactly when it is never the first that was seen more than ten
  times among the entities of an otherwise valid submission.
* `refused_after_eleven` — the run in which the twelfth operation of an account
  is refused although the first eleven were mined, one by one.
-/

namespace Bunzo

open ReachableStates FiniteIndices

/-- The parts that `main` connects, and the accepted operations that the task
has not yet seen mined. -/
structure BundlerSystem where
  reputation : ReputationManager
  task : BundlerTask
  unmined : List UserOperation

/-- What happens to the assembled program: a client submits an operation, or the task
takes a step. -/
inductive SystemEvent where
  | submit (uo : UserOperation) (entryPoint : Address)
  | step (a : StepAnswers)

/-- The specification that `main` starts from: known for two chains, that of
mainnet for all others. -/
def assembledSpec (chainId : U64) (entryPoint : Address) (maxPoolSize : Nat) : ChainSpec :=
  { (if chainId = 31337 then ChainSpec.dev else ChainSpec.mainnet) with
    entryPointV07 := entryPoint
    id := chainId
    maxPoolSize := maxPoolSize }

namespace BundlerSystem

/-- The base fee of the RPC handler, which nothing ever sets. -/
def currentBaseFee : U128 := 0

/-- The request handler over the specification and the pool of the task, and the shared
reputation. -/
def api (s : BundlerSystem) : EthApiImpl where
  chainSpec := s.task.chainSpec
  pool := s.task.pool
  reputation := s.reputation
  baseFee := 0

/-- The validator of the handler, which sees the pool of the task. -/
def validator (s : BundlerSystem) : Validator := s.api.validator

section Machine

variable [Keccak]

/-- What validation looks at: the operation in the context of the call. -/
def contextual (s : BundlerSystem) (uo : UserOperation) (entryPoint : Address) : UserOperation :=
  s.api.contextual uo entryPoint

/-- What a client sends goes to the request handler; an operation that is accepted is not
mined yet. -/
def sendUserOperation (s : BundlerSystem) (uo : UserOperation) (entryPoint : Address) :
    Except RpcError B256 × BundlerSystem :=
  match s.api.sendUserOperation uo entryPoint with
  | (.error e, api) =>
      (.error e,
        { s with reputation := api.reputation, task := { s.task with pool := api.pool } })
  | (.ok hash, api) =>
      (.ok hash,
        { s with
          reputation := api.reputation
          task := { s.task with pool := api.pool }
          unmined := s.unmined ++ [s.contextual uo entryPoint] })

/-- The operations of a bundle that a poll sees mined. -/
def minedOps (s : BundlerSystem) (a : StepAnswers) : List PackedUserOperation :=
  if s.task.state = .pending ∧ (s.task.step a).state = .confirming then
    (s.task.currentBundle.map Bundle.ops).getD []
  else []

/-- Both run on the one pool, which the task holds.  An operation is unmined until a
step sees it mined. -/
def next (s : BundlerSystem) : SystemEvent → BundlerSystem
  | .submit uo entryPoint => (s.sendUserOperation uo entryPoint).2
  | .step a =>
      { s with
        task := s.task.step a
        unmined := s.unmined.filter (fun uo => uo.pack ∉ s.minedOps a) }

/-- Proposals are those of the proposer over the shared pool. -/
def ProposesFromPool (s : BundlerSystem) : SystemEvent → Prop
  | .submit _ _ => True
  | .step a => s.task.state = .building → ∃ currentFees baseFee answers,
      a.proposal = ((BundleProposerImpl.new s.task.chainSpec s.task.signerAddress).makeBundle
        s.task.pool currentFees baseFee answers).result

end Machine

end BundlerSystem

namespace BundlerSystem

section Standing

variable {s : BundlerSystem}

/-- The thresholds are the default ones, and nothing was ever included. -/
structure NeverIncluded (s : BundlerSystem) : Prop where
  config_eq : s.reputation.config = ReputationConfig.default
  included_eq : ∀ a, s.reputation.opsIncluded a = 0

/-- Counting what was seen includes nothing. -/
theorem NeverIncluded.recordEntities (h : NeverIncluded s) (entities : List Entity) :
    (Validator.recordEntities s.reputation entities).config = ReputationConfig.default ∧
      ∀ a, (Validator.recordEntities s.reputation entities).opsIncluded a = 0 := by
  refine ⟨(Validator.opsIncluded_recordEntities entities 0 _).2.trans h.config_eq, ?_⟩
  intro a
  exact (Validator.opsIncluded_recordEntities entities a _).1.trans (h.included_eq a)

/-- An address has a bad standing once it was seen more than ten times. -/
theorem NeverIncluded.status_eq_ok_iff (h : NeverIncluded s) (a : Address) :
    s.reputation.status a = .ok ↔ ¬ 10 < s.reputation.opsSeen a := by
  have hincluded : (s.reputation.entryOf a).opsIncluded = 0 := h.included_eq a
  rw [ReputationManager.status_eq, h.config_eq]
  unfold ReputationManager.opsSeen ReputationEntry.status ReputationConfig.default
  rw [hincluded]
  by_cases hzero : (s.reputation.entryOf a).opsSeen = 0
  · rw [if_pos hzero, hzero]
    exact ⟨fun _ => by decide, fun _ => rfl⟩
  · rw [if_neg hzero]
    by_cases hmany : (10 : U64) < (s.reputation.entryOf a).opsSeen
    · simp
    · simp

/-- The first entity of an operation that was seen more than ten times. -/
def overseen (s : BundlerSystem) (uo : UserOperation) : Option Address :=
  (uo.entities.find? (fun e => 10 < s.reputation.opsSeen e.address)).map Entity.address

/-- The first suspect of an operation is the first of its entities that was seen too
often. -/
theorem NeverIncluded.firstSuspect_eq (h : NeverIncluded s) (uo : UserOperation) :
    (s.validator.firstSuspect uo).map Entity.address = s.overseen uo := by
  have hpred : ∀ e : Entity, decide (s.validator.reputation.status e.address ≠ .ok) =
      decide (10 < s.reputation.opsSeen e.address) := by
    intro e
    rw [decide_eq_decide, ne_eq, show s.validator.reputation = s.reputation from rfl,
      h.status_eq_ok_iff, not_not]
  unfold Validator.firstSuspect overseen
  simp only [hpred]

end Standing

end BundlerSystem

section Assembly

variable [Keccak]

/-- The system from its start by `main`. -/
def systemMachine : Machine BundlerSystem SystemEvent where
  init s := ∃ chainId entryPoint maxPoolSize signerAddress nonce,
    (BundlerTask.new signerAddress
      (OperationPool.new (PoolConfig.ofChainSpec (assembledSpec chainId entryPoint maxPoolSize)))
      (assembledSpec chainId entryPoint maxPoolSize)).start nonce = .ok s.task ∧
    s.reputation = ReputationManager.new ReputationConfig.default ∧ s.unmined = []
  enabled s e := s.ProposesFromPool e
  next s e := s.next e

@[simp] theorem systemMachine_next (s : BundlerSystem) (e : SystemEvent) :
    systemMachine.next s e = s.next e := rfl

namespace BundlerSystem

variable {s : BundlerSystem}

/-- A submission that is validated and pooled. -/
theorem sendUserOperation_of_accepted {uo : UserOperation} {entryPoint : Address} {v : Validator}
    {hash : B256} {pool : OperationPool} (hentry : entryPoint = s.task.chainSpec.entryPointV07)
    (hvalid : s.validator.validateSync (s.contextual uo entryPoint) currentBaseFee = (.ok (), v))
    (hadd : s.task.pool.add (s.contextual uo entryPoint) currentBaseFee = (.ok hash, pool)) :
    s.sendUserOperation uo entryPoint =
      (.ok hash,
        { s with
          reputation := v.reputation
          task := { s.task with pool := pool }
          unmined := s.unmined ++ [s.contextual uo entryPoint] }) := by
  have hentry' : ¬ entryPoint ≠ s.api.chainSpec.entryPointV07 := not_not.mpr hentry
  have hvalid' : s.api.validator.validateSync (s.api.contextual uo entryPoint)
      s.api.currentBaseFee = (.ok (), v) := hvalid
  have hadd' : s.api.pool.add (s.api.contextual uo entryPoint) s.api.currentBaseFee =
      (.ok hash, pool) := hadd
  unfold sendUserOperation EthApiImpl.sendUserOperation EthApiImpl.validateAndAdd
  rw [if_neg hentry', hvalid']
  simp only [hadd']

/-- Only a poll can find operations mined. -/
theorem next_of_not_pending {a : StepAnswers} (hs : s.task.state ≠ .pending) :
    s.next (.step a) = { s with task := s.task.step a } := by
  have hmined : s.minedOps a = [] := by
    unfold minedOps
    rw [if_neg (fun h => hs h.1)]
  have hall : s.unmined.filter (fun uo => uo.pack ∉ s.minedOps a) = s.unmined := by
    rw [hmined, List.filter_eq_self]
    intro uo _
    simp
  change { s with task := s.task.step a, unmined := s.unmined.filter _ } = _
  rw [hall]

/-- A submission changes the reputation as its request does. -/
theorem reputation_sendUserOperation (s : BundlerSystem) (uo : UserOperation)
    (entryPoint : Address) :
    (s.sendUserOperation uo entryPoint).2.reputation =
      (s.api.sendUserOperation uo entryPoint).2.reputation := by
  unfold sendUserOperation
  rcases s.api.sendUserOperation uo entryPoint with ⟨_ | _, _⟩ <;> rfl

/-- **The invariant, one event on.**  Nothing in the program counts an inclusion. -/
theorem NeverIncluded.next (h : NeverIncluded s) (e : SystemEvent) : NeverIncluded (s.next e) := by
  cases e with
  | submit uo entryPoint =>
      have hsame : (s.next (.submit uo entryPoint)).reputation = _ :=
        reputation_sendUserOperation s uo entryPoint
      rcases s.api.sendUserOperation_cases uo entryPoint with ⟨_, _, hfails⟩ | ⟨_, _, hcounts, _⟩
      · rw [hfails] at hsame
        exact ⟨hsame ▸ h.config_eq, hsame ▸ h.included_eq⟩
      · obtain ⟨hconfig, hincluded⟩ := h.recordEntities uo.entities
        rw [hcounts] at hsame
        exact ⟨hsame ▸ hconfig, hsame ▸ hincluded⟩
  | step a => exact ⟨h.config_eq, h.included_eq⟩

/-- **Nothing is ever included.** -/
theorem NeverIncluded.of_reachable (h : systemMachine.Reachable s) : NeverIncluded s := by
  apply h.invariant
  · intro s hinit
    obtain ⟨_, _, _, _, _, _, hreputation, _⟩ := hinit
    refine ⟨?_, ?_⟩
    · rw [hreputation]
      rfl
    · intro a
      rw [hreputation, ReputationManager.opsIncluded, ReputationManager.entryOf_new]
      rfl
  · intro s e hs _ _
    exact hs.next e

/-- No submission is refused for the standing of the address. -/
def NotRefused (a : Address) (s : BundlerSystem) : SystemEvent → Prop
  | .submit uo entryPoint =>
      entryPoint = s.task.chainSpec.entryPointV07 →
        ¬ s.validator.RefusedFor (s.contextual uo entryPoint) currentBaseFee a
  | .step _ => True

/-- The address is not the first one seen more than ten times among the
entities of a submission that passes the other checks. -/
def SeldomSeen (a : Address) (s : BundlerSystem) : SystemEvent → Prop
  | .submit uo entryPoint =>
      entryPoint = s.task.chainSpec.entryPointV07 →
        s.validator.validateFields (s.contextual uo entryPoint) currentBaseFee = .ok () →
          s.overseen uo ≠ some a
  | .step _ => True

/-- A submission that refers to the address finds every accepted operation
that does so mined. -/
def MinedInTime (a : Address) (s : BundlerSystem) : SystemEvent → Prop
  | .submit uo _ =>
      a ∈ uo.entities.map Entity.address →
        ∀ earlier ∈ s.unmined, a ∉ earlier.entities.map Entity.address
  | .step _ => True

/-- If its operations are mined in time, an address is never refused. -/
def KeepsStanding (a : Address) (events : List SystemEvent) (s : BundlerSystem) : Prop :=
  systemMachine.Along (MinedInTime a) events s → systemMachine.Along (NotRefused a) events s

/-- To be refused is to have been seen too often. -/
theorem NeverIncluded.notRefused_iff (h : NeverIncluded s) (a : Address) (e : SystemEvent) :
    NotRefused a s e ↔ SeldomSeen a s e := by
  cases e with
  | step answers => exact Iff.rfl
  | submit uo entryPoint =>
      have hrefused : s.validator.RefusedFor (s.contextual uo entryPoint) currentBaseFee a ↔
          s.validator.validateFields (s.contextual uo entryPoint) currentBaseFee = .ok () ∧
            s.overseen uo = some a := by
        rw [Validator.refusedFor_iff, h.firstSuspect_eq]
        rfl
      apply imp_congr_right
      intro _
      rw [hrefused, not_and]

/-- **Who keeps a good standing.**  An address whose operations are all mined
in time is never refused on a run, exactly if on such a run it is never the
first one seen more than ten times: that they are mined does not count. -/
theorem keepsStanding_iff (hinit : systemMachine.init s) (events : List SystemEvent)
    (hrun : systemMachine.EnabledAlong events s) (a : Address) :
    KeepsStanding a events s ↔
      (systemMachine.Along (MinedInTime a) events s →
        systemMachine.Along (SeldomSeen a) events s) := by
  apply imp_congr_right
  intro _
  apply Machine.along_iff _ (.init hinit) hrun
  intro s e hs _
  exact (NeverIncluded.of_reachable hs).notRefused_iff a e

end BundlerSystem

end Assembly

/-! ## Twelve operations of one account -/

section Rounds

/-- A pool that holds nothing. -/
def hollowPool (config : PoolConfig) (sequence : U64) : OperationPool :=
  { OperationPool.new config with nextSequence := sequence }

/-- What is inserted into it and removed leaves nothing but a later number. -/
theorem removeInner_hollowPool (config : PoolConfig) (sequence : U64) (e : PoolEntry) :
    ((hollowPool config sequence).insertEntry e).removeInner e =
      hollowPool config (MachineWords.saturatingAdd sequence 1) := by
  have hhash : ((∅ : Std.ExtTreeMap B256 PoolEntry).insert e.hash e).erase e.hash = ∅ := by
    apply Std.ExtTreeMap.ext_getElem?
    simp
  have hid : ((∅ : Std.ExtTreeMap UserOperationId PoolEntry).insert e.id e).erase e.id = ∅ := by
    apply Std.ExtTreeMap.ext_getElem?
    simp
  have hordered : ((∅ : Std.ExtTreeSet PoolEntry OrderEntry.cmp).insert e).erase e = ∅ := by
    apply Std.ExtTreeSet.ext_get?
    intro b
    rw [Std.ExtTreeSet.get?_erase, Std.ExtTreeSet.get?_insert]
    by_cases htie : OrderEntry.cmp e b = .eq <;> simp [htie]
  have hcount : decremented (incremented ∅ e.id.sender) e.id.sender = ∅ := by
    apply Std.ExtTreeMap.ext_getElem?
    simp [decremented, incremented]
  unfold OperationPool.removeInner OperationPool.insertEntry hollowPool OperationPool.new
  simp only [hhash, hid, hordered, hcount]

/-- One operation is all there is. -/
theorem size_insertEntry_hollowPool (config : PoolConfig) (sequence : U64) (e : PoolEntry) :
    ((hollowPool config sequence).insertEntry e).size = 1 := by
  simp [hollowPool, OperationPool.size, OperationPool.insertEntry, OperationPool.new,
    Std.ExtTreeMap.size_insert]

/-- The best of one operation is this operation. -/
theorem bestOperations_insertEntry_hollowPool (config : PoolConfig) (sequence : U64)
    (e : PoolEntry) (maxCount : Nat) :
    ((hollowPool config sequence).insertEntry e).bestOperations (maxCount + 1) = [e] := by
  have hempty : ∀ b ∈ (∅ : Std.ExtTreeSet PoolEntry OrderEntry.cmp).toList,
      OrderEntry.cmp e b ≠ .eq := by
    intro b hb
    exact absurd ((Enumerates.empty.2 b).mp hb) (Finset.notMem_empty b)
  have h := Enumerates.empty.insert hempty
  have hperm : (((∅ : Std.ExtTreeSet PoolEntry OrderEntry.cmp).insert e).toList).Perm [e] := by
    rw [List.perm_ext_iff_of_nodup h.1 (List.nodup_singleton e)]
    intro b
    rw [h.2 b]
    simp
  unfold OperationPool.bestOperations OperationPool.insertEntry hollowPool OperationPool.new
  rw [List.perm_singleton.mp hperm]
  simp

/-- The counters of account one after it was seen a number of times. -/
def seenTimes : Nat → ReputationManager
  | 0 => ReputationManager.new ReputationConfig.default
  | n + 1 => (seenTimes n).recordSeen 1

/-- Account one was seen as often as it was recorded. -/
theorem opsSeen_seenTimes (n : Nat) : (seenTimes n).opsSeen 1 = BitVec.ofNat 64 n := by
  induction n with
  | zero =>
      rw [seenTimes, ReputationManager.opsSeen, ReputationManager.entryOf_new]
      rfl
  | succ n ih =>
      rw [seenTimes, ReputationManager.opsSeen_recordSeen, if_pos rfl, ih]
      simp [BitVec.ofNat_add]

/-- The number the pool gives out next, after as many operations. -/
def sequenceAfter : Nat → U64
  | 0 => 0
  | n + 1 => MachineWords.saturatingAdd (sequenceAfter n) 1

/-- The nonce of the next bundle, after as many. -/
def nonceAfter : Nat → U64
  | 0 => 0
  | n + 1 => nonceAfter n + 1

/-- A poll that finds the transaction mined. -/
def roundPoll : StepAnswers :=
  { silentAnswers with receipt := .ok (some { status := true, blockNumber := some 7 }) }

/-- Mainnet, with room for one operation of a sender. -/
def roundSpec : ChainSpec := assembledSpec 1 ChainSpec.mainnet.entryPointV07 4096

/-- The operation of a round as a client sends it, under the round's number as
nonce. -/
def roundOp (n : Nat) : UserOperation := plainOperation 1 (BitVec.ofNat 256 n) 30000000000

/-- The pool before the operation of a round. -/
def clearedPool (n : Nat) : OperationPool :=
  hollowPool (PoolConfig.ofChainSpec roundSpec) (sequenceAfter n)

/-- The task between two rounds. -/
def restedTask (n : Nat) : BundlerTask :=
  let task := BundlerTask.new 0xB0 (clearedPool n) roundSpec
  { task with tracker := { task.tracker with currentNonce := nonceAfter n } }

/-- Everything before a round: the operations of the rounds before it were
seen, mined and removed. -/
def rested (n : Nat) : BundlerSystem where
  reputation := seenTimes n
  task := restedTask n
  unmined := []

variable [Keccak]

/-- The operation of a round as the validator and the pool get it. -/
def roundUo (n : Nat) : UserOperation := (roundOp n).setContext roundSpec.entryPointV07 roundSpec.id

/-- The operation of a round in the pool. -/
def roundEntry (n : Nat) : PoolEntry := PoolEntry.new (roundUo n) 0 (sequenceAfter n)

/-- The fees of every round's bundle. -/
def roundFees : GasFees := { maxFeePerGas := 20, maxPriorityFeePerGas := 1 }

/-- The bundle that a round's operation makes. -/
def roundBundle (n : Nat) : Bundle :=
  (BundleProposerImpl.new roundSpec 0xB0).bundleOf roundFees [roundEntry n] []

/-- One operation of account one, from its submission to its confirmation. -/
def roundEvents (n : Nat) : List SystemEvent :=
  [.submit (roundOp n) roundSpec.entryPointV07,
    .step silentAnswers,
    .step { silentAnswers with proposal := .ok (roundBundle n) },
    .step { silentAnswers with signed := .ok [], submitted := .ok 0xAAA },
    .step roundPoll,
    .step { silentAnswers with blockNumber := .ok 10 },
    .step silentAnswers]

omit [Keccak] in
/-- Between rounds the pool is empty. -/
@[simp] theorem validator_rested_pool (n : Nat) :
    (rested n).validator.pool = some (clearedPool n) := rfl

/-- The static and the fee checks let every round's operation through. -/
theorem validateFields_rested (n : Nat) :
    (rested n).validator.validateFields (roundUo n) 0 = .ok () := by
  have hstatic : (rested n).validator.validateStaticFields (roundUo n) = .ok () := by
    unfold Validator.validateStaticFields
    simp [roundUo, roundOp, plainOperation, UserOperation.setContext, BundlerSystem.validator,
      BundlerSystem.api, EthApiImpl.validator, rested, restedTask, BundlerTask.new, roundSpec,
      assembledSpec, ChainSpec.mainnet]
  have hprice : (rested n).validator.validateGasPrice (roundUo n) 0 = .ok () := by
    unfold Validator.validateGasPrice
    rw [if_pos]
    exact (by decide : GasFees.covers ⟨30000000000, 1000000000⟩ 0 100000000 = true)
  have hid : (clearedPool n).getById (roundUo n).id = none := by
    simp [clearedPool, hollowPool, OperationPool.new, OperationPool.getById]
  have hseq : (clearedPool n).maxNonceSequence (roundUo n).sender (roundUo n).id.nonceKey =
      none := by
    have hkeys : (clearedPool n).byId.keys = [] := Std.ExtTreeMap.keys_eq_nil_iff.mpr rfl
    unfold OperationPool.maxNonceSequence
    rw [hkeys]
    rfl
  have hnonce : (rested n).validator.validateNonce (roundUo n) = .ok () := by
    unfold Validator.validateNonce
    simp only [validator_rested_pool, hid, hseq]
    rfl
  unfold Validator.validateFields
  rw [hstatic, hprice, hnonce]
  rfl

/-- An empty pool takes the operation of the next round. -/
theorem add_clearedPool (n : Nat) :
    (clearedPool n).add (roundUo n) 0 =
      (.ok (roundUo n).hash, (clearedPool n).insertEntry (roundEntry n)) := by
  have hknown : (clearedPool n).byHash.contains (roundUo n).hash = false := by
    simp [clearedPool, hollowPool, OperationPool.new]
  have hid : (clearedPool n).byId.get? (roundUo n).id = none := by
    simp [clearedPool, hollowPool, OperationPool.new]
  have hcount : (clearedPool n).senderCount.get? (roundUo n).sender = none := by
    simp [clearedPool, hollowPool, OperationPool.new]
  have hsize : (clearedPool n).size = 0 := by
    simp [clearedPool, hollowPool, OperationPool.new, OperationPool.size]
  rw [OperationPool.add_eq, hknown, hid]
  unfold OperationPool.accept
  simp only [hcount, hsize, Bool.false_eq_true, if_false]
  rfl

/-- The operation is pooled, and the task is somewhere on its way with it. -/
def underway (n : Nat) (pending : Option PendingTransaction) (state : BundleSenderState)
    (bundle : Option Bundle) : BundlerSystem where
  reputation := seenTimes (n + 1)
  task :=
    { restedTask n with
      tracker := { (restedTask n).tracker with pending := pending }
      pool := (clearedPool n).insertEntry (roundEntry n)
      state := state
      currentBundle := bundle }
  unmined := [roundUo n]

/-- The operation is mined and removed. -/
def settling (n : Nat) (state : BundleSenderState) : BundlerSystem where
  reputation := seenTimes (n + 1)
  task :=
    { restedTask (n + 1) with
      state := state
      currentBundle := some (roundBundle n)
      minedBlock := some 7 }
  unmined := []

/-- Up to ten rounds, the next submission is accepted. -/
theorem next_submit {n : Nat} (hn : n ≤ 10) (h : (rested n).NeverIncluded) :
    (rested n).next (.submit (roundOp n) roundSpec.entryPointV07) = underway n none .idle none := by
  have hstatus : (rested n).validator.reputation.status 1 = .ok := by
    apply (h.status_eq_ok_iff 1).mpr
    change ¬ 10 < ((seenTimes n).opsSeen 1).toNat
    rw [opsSeen_seenTimes, BitVec.toNat_ofNat]
    have := Nat.mod_le n (2 ^ 64)
    omega
  have hentities : (rested n).validator.checkEntities (roundUo n).entities = .ok () := by
    change Validator.checkEntities _ [{ kind := .account, address := 1 }] = _
    unfold Validator.checkEntities ReputationManager.checkEntity
    rw [hstatus]
    rfl
  have hvalid : (rested n).validator.validateSync (roundUo n) 0 =
      (.ok (), { (rested n).validator with reputation := seenTimes (n + 1) }) := by
    unfold Validator.validateSync Validator.validateReputation
    rw [validateFields_rested]
    simp only [hentities]
    rfl
  have hsent : (rested n).sendUserOperation (roundOp n) roundSpec.entryPointV07 = _ :=
    BundlerSystem.sendUserOperation_of_accepted rfl hvalid (add_clearedPool n)
  exact congrArg Prod.snd hsent

/-- The transaction of a round, as it is tracked. -/
def roundPending (n : Nat) : PendingTransaction where
  txHash := 0xAAA
  nonce := nonceAfter n
  escalationCount := 0
  submittedAt := 0
  maxFeePerGas := 20
  maxPriorityFeePerGas := 1

/-- What the proposer proposes over the pool of a round. -/
theorem makeBundle_round (n : Nat) :
    ((BundleProposerImpl.new roundSpec 0xB0).makeBundle ((clearedPool n).insertEntry (roundEntry n))
      (.ok roundFees) (.ok 0) (fun _ => .ok .success)).result = .ok (roundBundle n) := by
  have hbest : ((clearedPool n).insertEntry (roundEntry n)).bestOperations
      (BundleProposerImpl.new roundSpec 0xB0).chainSpec.maxBundleSize = [roundEntry n] :=
    bestOperations_insertEntry_hollowPool _ _ _ 15
  have hcandidates : (BundleProposerImpl.new roundSpec 0xB0).candidates
      ((clearedPool n).insertEntry (roundEntry n)) 0 = [roundEntry n] := by
    unfold BundleProposerImpl.candidates
    rw [hbest, List.filter_cons_of_pos]
    · rfl
    · exact (by decide : GasFees.covers ⟨30000000000, 1000000000⟩ 0 100000000 = true)
  rw [BundleProposerImpl.makeBundle_of_candidates _ _
      (by rw [hcandidates]; exact List.cons_ne_nil _ _),
    hcandidates]
  rfl

/-- There is something in the pool, so the task builds. -/
theorem next_building (n : Nat) :
    (underway n none .idle none).next (.step silentAnswers) = underway n none .building none := by
  have hsize : (underway n none .idle none).task.pool.size ≠ 0 := by
    rw [show (underway n none .idle none).task.pool.size = 1 from
      size_insertEntry_hollowPool _ _ _]
    decide
  have hidle : (underway n none .idle none).task.handleIdle =
      { task := (underway n none .idle none).task, next := .building, calls := [] } :=
    if_neg hsize
  rw [BundlerSystem.next_of_not_pending (fun h => by cases h)]
  unfold BundlerTask.step BundlerTask.handle
  change BundlerSystem.mk _
    { (BundlerTask.handleIdle _).task with state := (BundlerTask.handleIdle _).next } _ = _
  rw [hidle]
  rfl

/-- The bundle of the round is kept for submission. -/
theorem next_submitting (n : Nat) :
    (underway n none .building none).next
        (.step { silentAnswers with proposal := .ok (roundBundle n) }) =
      underway n none .submitting (some (roundBundle n)) := by
  rw [BundlerSystem.next_of_not_pending (fun h => by cases h)]
  rfl

/-- Its transaction is signed, accepted and tracked. -/
theorem next_pending (n : Nat) :
    (underway n none .submitting (some (roundBundle n))).next
        (.step { silentAnswers with signed := .ok [], submitted := .ok 0xAAA }) =
      underway n (some (roundPending n)) .pending (some (roundBundle n)) := by
  rw [BundlerSystem.next_of_not_pending (fun h => by cases h)]
  rfl

/-- Once mined, the operation leaves an empty pool behind. -/
theorem removeOps_round (n : Nat) :
    BundlerTask.removeOps roundSpec ((clearedPool n).insertEntry (roundEntry n))
      [(roundEntry n).uo.pack] = clearedPool (n + 1) := by
  have hfound : ((clearedPool n).insertEntry (roundEntry n)).byId.get? (roundEntry n).id =
      some (roundEntry n) := by
    unfold OperationPool.insertEntry
    simp
  have hid : BundlerTask.packedId roundSpec (roundEntry n).uo.pack = (roundEntry n).id := by
    unfold BundlerTask.packedId
    rw [UserOperation.id_unpack, UserOperation.id_pack]
    rfl
  unfold BundlerTask.removeOps
  rw [List.foldl_cons, List.foldl_nil, hid, OperationPool.removeById_eq, hfound]
  exact removeInner_hollowPool _ _ _

/-- The receipt is found, and the operation is no longer unmined. -/
theorem next_confirming (n : Nat) :
    (underway n (some (roundPending n)) .pending (some (roundBundle n))).next (.step roundPoll) =
      settling n .confirming := by
  have hremoved := removeOps_round n
  have hstep : (underway n (some (roundPending n)) .pending (some (roundBundle n))).task.step
      roundPoll = (settling n .confirming).task := by
    unfold settling restedTask
    rw [← hremoved]
    rfl
  have hmined : (underway n (some (roundPending n)) .pending (some (roundBundle n))).minedOps
      roundPoll = [(roundUo n).pack] := by
    unfold BundlerSystem.minedOps
    rw [hstep, if_pos ⟨rfl, rfl⟩]
    rfl
  have hunmined : (underway n (some (roundPending n)) .pending (some (roundBundle n))).unmined =
      [roundUo n] := rfl
  simp only [BundlerSystem.next, hstep, hmined, hunmined]
  rw [List.filter_cons_of_neg (by simp)]
  rfl

/-- Three blocks later the bundle is confirmed. -/
theorem next_confirmed (n : Nat) :
    (settling n .confirming).next (.step { silentAnswers with blockNumber := .ok 10 }) =
      settling n .confirmed := by
  rw [BundlerSystem.next_of_not_pending (fun h => by cases h)]
  rfl

/-- The task is back where it was, one round on. -/
theorem next_rested (n : Nat) :
    (settling n .confirmed).next (.step silentAnswers) = rested (n + 1) := by
  rw [BundlerSystem.next_of_not_pending (fun h => by cases h)]
  rfl

/-- **One round.**  It is a run, its operation is mined in time, and it leaves
everything as it was but for the counters. -/
theorem round_run {n : Nat} (hn : n ≤ 10) (h : (rested n).NeverIncluded) :
    systemMachine.run (roundEvents n) (rested n) = rested (n + 1) ∧
      systemMachine.EnabledAlong (roundEvents n) (rested n) ∧
      systemMachine.Along (BundlerSystem.MinedInTime 1) (roundEvents n) (rested n) := by
  refine ⟨?_, ?_, ?_⟩
  · simp only [roundEvents, Machine.run, systemMachine_next, next_submit hn h, next_building,
      next_submitting, next_pending, next_confirming, next_confirmed, next_rested]
  · simp only [roundEvents, Machine.EnabledAlong, Machine.Along, systemMachine_next,
      next_submit hn h, next_building, next_submitting, next_pending, next_confirming,
      next_confirmed]
    have hbuild : (underway n none .building none).ProposesFromPool
        (.step { silentAnswers with proposal := .ok (roundBundle n) }) :=
      fun _ => ⟨.ok roundFees, .ok 0, fun _ => .ok .success, (makeBundle_round n).symm⟩
    refine ⟨trivial, ?_, hbuild, ?_, ?_, ?_, ?_, trivial⟩ <;> intro hs <;> cases hs
  · simp only [roundEvents, Machine.Along, systemMachine_next]
    refine ⟨?_, trivial, trivial, trivial, trivial, trivial, trivial, trivial⟩
    intro _ earlier hearlier
    cases hearlier

/-- The events of the first rounds. -/
def roundsEvents : Nat → List SystemEvent
  | 0 => []
  | n + 1 => roundsEvents n ++ roundEvents n

/-- The first round starts with a program that has just been assembled. -/
theorem rested_init : systemMachine.init (rested 0) :=
  ⟨1, ChainSpec.mainnet.entryPointV07, 4096, 0xB0, .ok 0, rfl, rfl, rfl⟩

/-- **Eleven rounds**, each operation of which is mined before the next is
submitted. -/
theorem rounds_run {n : Nat} (hn : n ≤ 11) :
    systemMachine.run (roundsEvents n) (rested 0) = rested n ∧
      systemMachine.EnabledAlong (roundsEvents n) (rested 0) ∧
      systemMachine.Along (BundlerSystem.MinedInTime 1) (roundsEvents n) (rested 0) := by
  induction n with
  | zero => exact ⟨rfl, trivial, trivial⟩
  | succ n ih =>
      obtain ⟨hrun, henabled, hmined⟩ := ih (by omega)
      have hreach : systemMachine.Reachable (rested n) := by
        rw [← hrun]
        exact Machine.reachable_run (.init rested_init) henabled
      obtain ⟨hrun', henabled', hmined'⟩ :=
        round_run (by omega) (BundlerSystem.NeverIncluded.of_reachable hreach)
      unfold Machine.EnabledAlong at henabled henabled' ⊢
      rw [roundsEvents, Machine.run_append, Machine.along_append, Machine.along_append, hrun]
      exact ⟨hrun', ⟨henabled, henabled'⟩, hmined, hmined'⟩

/-- Eleven operations of account one, mined one by one, and a twelfth. -/
def twelveSubmissions : List SystemEvent :=
  roundsEvents 11 ++ [.submit (roundOp 11) roundSpec.entryPointV07]

/-- The twelfth submission can be made. -/
theorem twelveSubmissions_enabled : systemMachine.EnabledAlong twelveSubmissions (rested 0) := by
  have henabled := (rounds_run (n := 11) (by omega)).2.1
  unfold Machine.EnabledAlong at henabled ⊢
  rw [twelveSubmissions, Machine.along_append]
  exact ⟨henabled, trivial, trivial⟩

end Rounds

/-- The twelfth operation is refused, although the first eleven were mined. -/
theorem refused_after_eleven :
    letI := polynomialDigest
    systemMachine.init (rested 0) ∧ systemMachine.EnabledAlong twelveSubmissions (rested 0) ∧
      ¬ BundlerSystem.KeepsStanding 1 twelveSubmissions (rested 0) := by
  let _ := polynomialDigest
  refine ⟨rested_init, twelveSubmissions_enabled, ?_⟩
  obtain ⟨hrun, henabled, hmined⟩ := rounds_run (n := 11) (by omega)
  have hreach : systemMachine.Reachable (rested 11) := by
    rw [← hrun]
    exact Machine.reachable_run (.init rested_init) henabled
  have hnever := BundlerSystem.NeverIncluded.of_reachable hreach
  intro hkeeps
  have hrefused := hkeeps ((Machine.along_append _ _ _).mpr ⟨hmined, by
    rw [hrun]
    exact ⟨fun _ _ hearlier => (by cases hearlier), trivial⟩⟩)
  have hlast := ((Machine.along_append _ _ _).mp hrefused).2.1
  rw [hrun, hnever.notRefused_iff] at hlast
  apply hlast rfl (validateFields_rested 11)
  have hseen : (10 : U64) < (rested 11).reputation.opsSeen 1 := by
    change _ < (seenTimes 11).opsSeen 1
    rw [opsSeen_seenTimes]
    decide
  change (List.find? _ [({ kind := .account, address := 1 } : Entity)]).map _ = _
  rw [List.find?_cons_of_pos (by simpa using hseen)]
  rfl

/-- The same for twelve operations of one account. -/
theorem keepsStanding_iff_twelve :
    letI := polynomialDigest
    BundlerSystem.KeepsStanding 1 twelveSubmissions (rested 0) ↔
      (systemMachine.Along (BundlerSystem.MinedInTime 1) twelveSubmissions (rested 0) →
        systemMachine.Along (BundlerSystem.SeldomSeen 1) twelveSubmissions (rested 0)) :=
  let _ := polynomialDigest
  BundlerSystem.keepsStanding_iff rested_init twelveSubmissions twelveSubmissions_enabled 1

end Bunzo
