import Bunzo.PoolIndices
import Bunzo.ReachableStates
import Bunzo.Validation

/-!
# The request handler

`sendUserOperation` checks the entry point, validates the operation and then
gives it to the pool.  Validation counts the operation as seen before the pool
has decided.

* `validateAndAdd_cases` — the three ways a request ends.
* `rejects_iff` — when the pool turns an operation down, from its indices.
* `countsAccepted_iff` — the counters of a run tell the accepted requests
  exactly if no request of the run is valid and then turned down by the pool.
* `counted_twice` — one operation, sent twice.
-/

namespace Bunzo

open ReachableStates

inductive RpcError where
  | invalidParams (msg : Message)
  | pool (e : PoolError)
deriving DecidableEq

/-- The handler with the pool and the validator it shares. -/
structure EthApiImpl where
  chainSpec : ChainSpec
  pool : OperationPool
  reputation : ReputationManager
  baseFee : U64

namespace EthApiImpl

/-- The validator sees the pool of the handler. -/
def validator (api : EthApiImpl) : Validator where
  chainSpec := api.chainSpec
  reputation := api.reputation
  pool := some api.pool

def currentBaseFee (api : EthApiImpl) : U128 := api.baseFee.setWidth 128

def setBaseFee (api : EthApiImpl) (baseFee : U128) : EthApiImpl :=
  { api with baseFee := baseFee.setWidth 64 }

section Requests

variable [Keccak]

/-- Validate an operation and give it to the pool. -/
def validateAndAdd (api : EthApiImpl) (uo : UserOperation) : Except RpcError B256 × EthApiImpl :=
  match api.validator.validateSync uo api.currentBaseFee with
  | (.error e, v) => (.error (.invalidParams e.display), { api with reputation := v.reputation })
  | (.ok (), v) =>
      match api.pool.add uo api.currentBaseFee with
      | (.error e, pool) =>
          (.error (.pool e), { api with reputation := v.reputation, pool := pool })
      | (.ok hash, pool) => (.ok hash, { api with reputation := v.reputation, pool := pool })

/-- What is validated: the operation in the context of the call. -/
def contextual (api : EthApiImpl) (uo : UserOperation) (entryPoint : Address) : UserOperation :=
  uo.setContext entryPoint api.chainSpec.id

def sendUserOperation (api : EthApiImpl) (uo : UserOperation) (entryPoint : Address) :
    Except RpcError B256 × EthApiImpl :=
  if entryPoint ≠ api.chainSpec.entryPointV07 then
    (.error (.invalidParams [.text "unsupported entry point: ", .address entryPoint]), api)
  else
    api.validateAndAdd (api.contextual uo entryPoint)

end Requests

end EthApiImpl

/-! ## When the pool turns an operation down -/

namespace OperationPool

/-- No room is left for an operation of the sender. -/
def NoRoom (pool : OperationPool) (sender : Address) : Prop :=
  pool.config.maxOpsPerSender ≤ (pool.senderCount.get? sender).getD 0 ∨
    pool.config.maxSize ≤ pool.size

section Rejections

variable [Keccak]

/-- The operation is pooled already, it pays too little to replace the one with
its id, or no room is left for it. -/
def Rejects (pool : OperationPool) (uo : UserOperation) : Prop :=
  pool.byHash.contains uo.hash ∨
    match pool.byId.get? uo.id with
    | none => pool.NoRoom uo.sender
    | some entry =>
        uo.maxFeePerGas < pool.config.minBump entry.uo.maxFeePerGas ∨
          (pool.removeInner entry).NoRoom uo.sender

theorem accept_cases (pool : OperationPool) (uo : UserOperation) (baseFee : U128) :
    (pool.NoRoom uo.sender ∧ ∃ e, pool.accept uo baseFee = (.error e, pool)) ∨
    (¬ pool.NoRoom uo.sender ∧
      pool.accept uo baseFee =
        (.ok uo.hash, pool.insertEntry (PoolEntry.new uo baseFee pool.nextSequence))) := by
  unfold accept NoRoom
  by_cases hcount : pool.config.maxOpsPerSender ≤ (pool.senderCount.get? uo.sender).getD 0
  · left
    exact ⟨Or.inl hcount, _, if_pos hcount⟩
  · by_cases hsize : pool.config.maxSize ≤ pool.size
    · left
      exact ⟨Or.inr hsize, _, (if_neg hcount).trans (if_pos hsize)⟩
    · right
      refine ⟨?_, (if_neg hcount).trans (if_neg hsize)⟩
      rw [not_or]
      exact ⟨hcount, hsize⟩

/-- **Whether the pool turns an operation down.** -/
theorem rejects_iff (pool : OperationPool) (uo : UserOperation) (baseFee : U128) :
    (∃ e, (pool.add uo baseFee).1 = .error e) ↔ pool.Rejects uo := by
  rw [add_eq]
  unfold Rejects
  by_cases hknown : pool.byHash.contains uo.hash
  · simp [hknown]
  · simp only [hknown, Bool.false_eq_true, if_false, false_or]
    cases pool.byId.get? uo.id with
    | none =>
        rcases pool.accept_cases uo baseFee with ⟨hroom, e, herr⟩ | ⟨hroom, hok⟩
        · simp [hroom, herr]
        · simp [hroom, hok]
    | some entry =>
        by_cases hfee : uo.maxFeePerGas < pool.config.minBump entry.uo.maxFeePerGas
        · simp [hfee]
        · simp only [hfee, if_false, false_or]
          rcases (pool.removeInner entry).accept_cases uo baseFee with
            ⟨hroom, e, herr⟩ | ⟨hroom, hok⟩
          · simp [hroom, herr]
          · simp [hroom, hok]

end Rejections

end OperationPool

/-! ## Runs of requests -/

/-- A request, a call that bundler or watcher makes to the shared pool, an
inclusion the watcher records, a new base fee. -/
inductive ApiEvent where
  | request (uo : UserOperation) (entryPoint : Address)
  | pool (call : PoolCall)
  | included (a : Address)
  | baseFee (fee : U128)

section Counting

variable [Keccak]

namespace EthApiImpl

variable {api : EthApiImpl} {uo : UserOperation}

/-- **The three ways a request ends.** -/
theorem validateAndAdd_cases (api : EthApiImpl) (uo : UserOperation) :
    (¬ api.validator.Passes uo api.currentBaseFee ∧ ∃ e, api.validateAndAdd uo = (.error e, api)) ∨
    (api.validator.Passes uo api.currentBaseFee ∧ api.pool.Rejects uo ∧ ∃ e,
      api.validateAndAdd uo = (.error e,
        { api with
          reputation := Validator.recordEntities api.reputation uo.entities
          pool := (api.pool.add uo api.currentBaseFee).2 })) ∨
    (api.validator.Passes uo api.currentBaseFee ∧ ¬ api.pool.Rejects uo ∧ ∃ hash,
      (api.pool.add uo api.currentBaseFee).1 = .ok hash ∧ api.validateAndAdd uo = (.ok hash,
        { api with
          reputation := Validator.recordEntities api.reputation uo.entities
          pool := (api.pool.add uo api.currentBaseFee).2 })) := by
  have hrejects := api.pool.rejects_iff uo api.currentBaseFee
  unfold validateAndAdd
  rcases api.validator.validateSync_cases uo api.currentBaseFee with ⟨hfail, e, he⟩ | ⟨hpass, hok⟩
  · rw [he]
    exact Or.inl ⟨hfail, _, rfl⟩
  · rw [hok]
    right
    rcases hadd : api.pool.add uo api.currentBaseFee with ⟨answer, pool⟩
    rw [hadd] at hrejects
    cases answer with
    | error e => exact Or.inl ⟨hpass, hrejects.mp ⟨e, rfl⟩, _, rfl⟩
    | ok hash =>
        refine Or.inr ⟨hpass, ?_, hash, rfl, rfl⟩
        intro h
        obtain ⟨e, he⟩ := hrejects.mpr h
        cases he

end EthApiImpl

namespace ApiEvent

def apply : ApiEvent → EthApiImpl → EthApiImpl
  | .request uo entryPoint, api => (api.sendUserOperation uo entryPoint).2
  | .pool call, api => { api with pool := call.apply api.pool }
  | .included a, api => { api with reputation := api.reputation.recordIncluded a }
  | .baseFee fee, api => api.setBaseFee fee

end ApiEvent

/-- The handler on an empty pool, with nothing counted yet. -/
def apiMachine : Machine EthApiImpl ApiEvent where
  init api := (∃ config, api.pool = OperationPool.new config) ∧
    ∃ config, api.reputation = ReputationManager.new config
  enabled _ _ := True
  next api e := e.apply api

@[simp] theorem apiMachine_next (api : EthApiImpl) (e : ApiEvent) :
    apiMachine.next api e = e.apply api := rfl

namespace EthApiImpl

/-- A request that ends in an error leaves the counters of all addresses. -/
def UnchangedOnError (api : EthApiImpl) : ApiEvent → Prop
  | .request uo entryPoint =>
      (∃ e, (api.sendUserOperation uo entryPoint).1 = .error e) →
        ∀ a, (api.sendUserOperation uo entryPoint).2.reputation.opsSeen a =
            api.reputation.opsSeen a ∧
          (api.sendUserOperation uo entryPoint).2.reputation.opsIncluded a =
            api.reputation.opsIncluded a
  | _ => True

/-- A request with a pooled operation leaves the standing of all addresses. -/
def ResentKeepsStanding (api : EthApiImpl) : ApiEvent → Prop
  | .request uo entryPoint =>
      api.pool.byHash.contains (api.contextual uo entryPoint).hash →
        ∀ a, (api.sendUserOperation uo entryPoint).2.reputation.status a = api.reputation.status a
  | _ => True

/-- How often an event, if it is an accepted request, mentions an address. -/
def eventMentions (a : Address) (api : EthApiImpl) : ApiEvent → Nat
  | .request uo entryPoint =>
      if (api.sendUserOperation uo entryPoint).1.toBool then Validator.mentions a uo.entities else 0
  | _ => 0

/-- How often the accepted requests of a run mention an address. -/
def acceptedMentions (a : Address) : List ApiEvent → EthApiImpl → Nat
  | [], _ => 0
  | e :: events, api => eventMentions a api e + acceptedMentions a events (e.apply api)

/-- The counters tell the accepted requests: a failed one leaves them, each
address was seen as often as accepted requests mention it, and sending a pooled
operation again harms no one. -/
structure CountsAccepted (events : List ApiEvent) (api : EthApiImpl) : Prop where
  unchanged : apiMachine.Along UnchangedOnError events api
  seen_eq : ∀ a, (apiMachine.run events api).reputation.opsSeen a =
    BitVec.ofNat 64 (acceptedMentions a events api)
  resent : apiMachine.Along ResentKeepsStanding events api

/-- A request that is valid is not turned down by the pool. -/
def PooledIfValid (api : EthApiImpl) : ApiEvent → Prop
  | .request uo entryPoint =>
      entryPoint = api.chainSpec.entryPointV07 →
        api.validator.Passes (api.contextual uo entryPoint) api.currentBaseFee →
          ¬ api.pool.Rejects (api.contextual uo entryPoint)
  | _ => True

variable {events : List ApiEvent}

/-- The ways `sendUserOperation` ends. -/
theorem sendUserOperation_cases (api : EthApiImpl) (uo : UserOperation) (entryPoint : Address) :
    ((entryPoint = api.chainSpec.entryPointV07 →
        ¬ api.validator.Passes (api.contextual uo entryPoint) api.currentBaseFee) ∧
      ∃ e, api.sendUserOperation uo entryPoint = (.error e, api)) ∨
    (entryPoint = api.chainSpec.entryPointV07 ∧
      api.validator.Passes (api.contextual uo entryPoint) api.currentBaseFee ∧
      (api.sendUserOperation uo entryPoint).2.reputation =
        Validator.recordEntities api.reputation uo.entities ∧
      (api.pool.Rejects (api.contextual uo entryPoint) ∧
          (∃ e, (api.sendUserOperation uo entryPoint).1 = .error e) ∨
        ¬ api.pool.Rejects (api.contextual uo entryPoint) ∧
          ∃ hash, (api.sendUserOperation uo entryPoint).1 = .ok hash)) := by
  unfold sendUserOperation
  by_cases hentry : entryPoint = api.chainSpec.entryPointV07
  · rw [if_neg (not_not.mpr hentry)]
    rcases api.validateAndAdd_cases (api.contextual uo entryPoint) with
      ⟨hfail, e, he⟩ | ⟨hpass, hrejects, e, he⟩ | ⟨hpass, hrejects, hash, _, hok⟩
    · exact Or.inl ⟨fun _ => hfail, e, he⟩
    · rw [he]
      exact Or.inr ⟨hentry, hpass, rfl, Or.inl ⟨hrejects, e, rfl⟩⟩
    · rw [hok]
      exact Or.inr ⟨hentry, hpass, rfl, Or.inr ⟨hrejects, hash, rfl⟩⟩
  · rw [if_pos hentry]
    exact Or.inl ⟨fun h => absurd h hentry, _, rfl⟩

omit [Keccak] in
/-- A counted operation changes the counter of its sender. -/
theorem opsSeen_sender_ne (manager : ReputationManager) (uo : UserOperation) :
    (Validator.recordEntities manager uo.entities).opsSeen uo.sender ≠
      manager.opsSeen uo.sender := by
  have hpos : 0 < Validator.mentions uo.sender uo.entities := by
    apply List.count_pos_iff.mpr
    simp [UserOperation.entities]
  have hle : Validator.mentions uo.sender uo.entities ≤ 3 := by
    apply List.count_le_length.trans
    unfold UserOperation.entities
    cases uo.factory <;> cases uo.paymaster <;> simp
  rw [Validator.opsSeen_recordEntities]
  intro h
  have hzero := BitVec.self_eq_add_right.mp h.symm
  have hmod := congrArg BitVec.toNat hzero
  rw [BitVec.toNat_ofNat, Nat.mod_eq_of_lt (by omega)] at hmod
  simp only [BitVec.toNat_zero] at hmod
  omega

/-- An error leaves the counters exactly if it is not that of the pool. -/
theorem unchangedOnError_iff (api : EthApiImpl) (e : ApiEvent) :
    UnchangedOnError api e ↔ PooledIfValid api e := by
  cases e with
  | pool call => exact Iff.rfl
  | included a => exact Iff.rfl
  | baseFee fee => exact Iff.rfl
  | request uo entryPoint =>
      unfold UnchangedOnError PooledIfValid
      rcases api.sendUserOperation_cases uo entryPoint with
        ⟨hfail, e, he⟩ | ⟨hentry, hpass, hreputation, hcase⟩
      · apply iff_of_true
        · intro _ a
          rw [he]
          exact ⟨rfl, rfl⟩
        · intro hentry hpass
          exact absurd hpass (hfail hentry)
      · rcases hcase with ⟨hrejects, herr⟩ | ⟨hrejects, hash, hok⟩
        · apply iff_of_false
          · intro h
            have hsender := (h herr uo.sender).1
            rw [hreputation] at hsender
            exact opsSeen_sender_ne _ _ hsender
          · intro h
            exact h hentry hpass hrejects
        · apply iff_of_true
          · intro h
            obtain ⟨e, he⟩ := h
            rw [hok] at he
            cases he
          · intro _ _
            exact hrejects

/-- What is pooled is turned down, so sending it again counts nothing. -/
theorem resentKeepsStanding_of_pooledIfValid {e : ApiEvent} (h : PooledIfValid api e) :
    ResentKeepsStanding api e := by
  cases e with
  | pool call => trivial
  | included a => trivial
  | baseFee fee => trivial
  | request uo entryPoint =>
      intro hknown a
      rcases api.sendUserOperation_cases uo entryPoint with ⟨_, e, he⟩ | ⟨hentry, hpass, _⟩
      · rw [he]
      · exact absurd (Or.inl hknown) (h hentry hpass)

theorem opsSeen_apply {e : ApiEvent} (h : PooledIfValid api e) (a : Address) :
    (e.apply api).reputation.opsSeen a =
      api.reputation.opsSeen a + BitVec.ofNat 64 (eventMentions a api e) := by
  cases e with
  | pool call => exact (BitVec.add_zero _).symm
  | included b =>
      change (api.reputation.recordIncluded b).opsSeen a = _
      rw [ReputationManager.opsSeen_recordIncluded]
      exact (BitVec.add_zero _).symm
  | baseFee fee => exact (BitVec.add_zero _).symm
  | request uo entryPoint =>
      unfold ApiEvent.apply eventMentions
      rcases api.sendUserOperation_cases uo entryPoint with
        ⟨_, e, he⟩ | ⟨hentry, hpass, hreputation, ⟨hrejects, _⟩ | ⟨_, hash, hok⟩⟩
      · simp [he, Except.toBool]
      · exact absurd hrejects (h hentry hpass)
      · simp only [hreputation, hok, Except.toBool, if_true]
        exact Validator.opsSeen_recordEntities _ _ _

theorem opsSeen_run (a : Address) :
    ∀ {api : EthApiImpl}, apiMachine.Along PooledIfValid events api →
      (apiMachine.run events api).reputation.opsSeen a =
        api.reputation.opsSeen a + BitVec.ofNat 64 (acceptedMentions a events api) := by
  induction events with
  | nil =>
      intro api _
      exact (BitVec.add_zero _).symm
  | cons e events ih =>
      intro api h
      have htail := ih h.2
      have hhead := opsSeen_apply h.1 a
      rw [Machine.run, htail, apiMachine_next, hhead, acceptedMentions, BitVec.ofNat_add,
        BitVec.add_assoc]

/-- **What the counters tell.**  On a run of requests, in any order with what
others do to pool and reputation, the counters tell the accepted requests
exactly if the pool turns down no request that is valid. -/
theorem countsAccepted_iff (hinit : apiMachine.init api) (events : List ApiEvent) :
    CountsAccepted events api ↔ apiMachine.Along PooledIfValid events api := by
  have hunchanged : apiMachine.Along UnchangedOnError events api ↔
      apiMachine.Along PooledIfValid events api :=
    Machine.along_iff (fun s e _ _ => unchangedOnError_iff s e) (.init hinit)
      (Machine.enabledAlong_of_forall (fun _ _ => trivial))
  refine ⟨?_, ?_⟩
  · intro h
    exact hunchanged.mp h.unchanged
  · intro h
    refine ⟨hunchanged.mpr h, ?_, ?_⟩
    · intro a
      obtain ⟨_, config, hnew⟩ := hinit
      rw [opsSeen_run a h, hnew, ReputationManager.opsSeen, ReputationManager.entryOf_new]
      exact BitVec.zero_add _
    · exact Machine.Along.imp (fun _ _ => resentKeepsStanding_of_pooledIfValid) h

end EthApiImpl

end Counting

/-! ## One operation, sent twice -/

section Twice

/-- The handler at its start. -/
def startedApi : EthApiImpl where
  chainSpec := ChainSpec.mainnet
  pool := OperationPool.new (PoolConfig.ofChainSpec ChainSpec.mainnet)
  reputation := ReputationManager.new ReputationConfig.default
  baseFee := 0

def sentRequest : ApiEvent :=
  .request (plainOperation 1 0 30000000000) ChainSpec.mainnet.entryPointV07

/-- The handler with the operation pooled. -/
def sentOnce : EthApiImpl :=
  letI := polynomialDigest
  sentRequest.apply startedApi

theorem startedApi_init [Keccak] : apiMachine.init startedApi := ⟨⟨_, rfl⟩, _, rfl⟩

/-- The second request fails, and it is counted. -/
theorem counted_twice :
    letI := polynomialDigest
    apiMachine.init startedApi ∧
      ¬ EthApiImpl.CountsAccepted [sentRequest, sentRequest] startedApi := by
  let _ := polynomialDigest
  refine ⟨startedApi_init, ?_⟩
  have hpasses : sentOnce.validator.Passes
      (@EthApiImpl.contextual polynomialDigest sentOnce (plainOperation 1 0 30000000000)
        ChainSpec.mainnet.entryPointV07) sentOnce.currentBaseFee := by
    constructor <;> decide +kernel
  have hknown : sentOnce.pool.byHash.contains
      (@EthApiImpl.contextual polynomialDigest sentOnce (plainOperation 1 0 30000000000)
        ChainSpec.mainnet.entryPointV07).hash = true := by decide +kernel
  intro h
  have hsecond := (EthApiImpl.unchangedOnError_iff _ _).mp h.unchanged.2.1
  exact hsecond rfl hpasses (Or.inl hknown)

theorem countsAccepted_iff_twice :
    letI := polynomialDigest
    EthApiImpl.CountsAccepted [sentRequest, sentRequest] startedApi ↔
      apiMachine.Along EthApiImpl.PooledIfValid [sentRequest, sentRequest] startedApi :=
  let _ := polynomialDigest
  EthApiImpl.countsAccepted_iff startedApi_init _

end Twice

end Bunzo
