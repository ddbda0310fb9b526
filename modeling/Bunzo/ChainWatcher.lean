import Bunzo.PoolContents

/-!
# Mined operations leave the pool

The entry point emits one `UserOperationEvent` for each operation it handles.
The chain watcher asks the node for these logs, block by block, and removes
the pooled operation whose hash the log names.

An operation is replaced by its id, not by its hash.  So the watcher does what
it is for exactly when ids and hashes agree between the pool and the block:
`scan_clears_iff` is this condition, for every reachable pool and every list
of events.
-/

namespace Bunzo

open FiniteIndices MachineWords

/-- A log entry: its topics and its data. -/
structure Log where
  topics : List B256
  data : Bytes

/-- The hash that a log names. -/
def Log.namedHash (log : Log) : Option B256 :=
  match log.topics with
  | _ :: userOpHash :: _ => some userOpHash
  | _ => none

/-- The hashes that logs name. -/
def namedHashes (logs : List Log) : List B256 := logs.filterMap Log.namedHash

/-- What the watcher asks the node for. -/
structure Filter where
  address : Address
  eventSignature : B256
  fromBlock : U64
  toBlock : U64

/-- The event the entry point emits for a handled operation. -/
structure UserOperationEvent where
  userOpHash : B256
  sender : Address
  paymaster : Address
  nonce : U256
  success : Bool
  actualGasCost : U256
  actualGasUsed : U256

/-- The signature whose digest is the first topic of the event. -/
def userOperationEventSignature : Bytes :=
  "UserOperationEvent(bytes32,address,address,uint256,bool,uint256,uint256)".toUTF8.toList.map
    (fun b => BitVec.ofNat 8 b.toNat)

namespace UserOperationEvent

/-- The id of the operation the event is about. -/
def id (ev : UserOperationEvent) : UserOperationId := { sender := ev.sender, nonce := ev.nonce }

/-- The log of an event: the three indexed values are topics, the others are
words of the data. -/
def toLog [Keccak] (ev : UserOperationEvent) : Log where
  topics := [keccak256 userOperationEventSignature, ev.userOpHash, ev.sender.setWidth 256,
    ev.paymaster.setWidth 256]
  data := encodeTuple [.word ev.nonce.toNat, .word ev.success.toNat, .word ev.actualGasCost.toNat,
    .word ev.actualGasUsed.toNat]

end UserOperationEvent

/-- The watcher's part of the program: the shared pool, the reputation it was
given, and the chain it watches. -/
structure ChainWatcher where
  pool : OperationPool
  reputation : ReputationManager
  chainSpec : ChainSpec

namespace ChainWatcher

/-- Count an inclusion for every entity of an operation. -/
def recordEntities (reputation : ReputationManager) (entities : List Entity) :
    ReputationManager :=
  entities.foldl (fun reputation entity => reputation.recordIncluded entity.address) reputation

/-- One log: a hash in the second topic removes the operation with that hash. -/
def scanLog (watcher : ChainWatcher) (log : Log) : ChainWatcher :=
  match log.topics with
  | _ :: userOpHash :: _ =>
      match watcher.pool.removeByHash userOpHash with
      | (some entry, pool) =>
          { watcher with
            pool := pool
            reputation := recordEntities watcher.reputation entry.uo.entities }
      | (none, pool) => { watcher with pool := pool }
  | _ => watcher

/-- The logs of a block, one after another. -/
def scanLogs : List Log → ChainWatcher → ChainWatcher
  | [], watcher => watcher
  | log :: logs, watcher => scanLogs logs (watcher.scanLog log)

/-- The logs the watcher asks for in one block. -/
def eventFilter [Keccak] (watcher : ChainWatcher) (blockNumber : U64) : Filter where
  address := watcher.chainSpec.entryPointV07
  eventSignature := keccak256 userOperationEventSignature
  fromBlock := blockNumber
  toBlock := blockNumber

/-- Ask the node for the logs of a block and go through them. -/
def scanUserOpEvents [Keccak] (watcher : ChainWatcher)
    (getLogs : Filter → Except ProviderError (List Log)) (blockNumber : U64) :
    Except ProviderError Unit × ChainWatcher :=
  match getLogs (watcher.eventFilter blockNumber) with
  | .error e => (.error e, watcher)
  | .ok logs => (.ok (), scanLogs logs watcher)

section Pools

variable {watcher : ChainWatcher} {S : Finset PoolEntry}

theorem scanLog_eq (watcher : ChainWatcher) (log : Log) :
    watcher.scanLog log =
      match log.namedHash.bind watcher.pool.getByHash with
      | none => watcher
      | some entry =>
          { watcher with
            pool := watcher.pool.removeInner entry
            reputation := recordEntities watcher.reputation entry.uo.entities } := by
  unfold scanLog Log.namedHash OperationPool.getByHash
  rcases log.topics with _ | ⟨_, _ | ⟨userOpHash, _⟩⟩
  · rfl
  · rfl
  · simp only [OperationPool.removeByHash_eq, Option.bind_some]
    cases watcher.pool.byHash.get? userOpHash <;> rfl

theorem mem_namedHashes_cons {hash : B256} {log : Log} {logs : List Log} :
    hash ∈ namedHashes (log :: logs) ↔ log.namedHash = some hash ∨ hash ∈ namedHashes logs := by
  simp only [namedHashes, List.mem_filterMap, List.mem_cons, exists_eq_or_imp]

/-- One log takes out the operation with the hash it names. -/
theorem describes_scanLog (h : Describes watcher.pool S) (log : Log) :
    Describes (watcher.scanLog log).pool (S.filter (fun e => log.namedHash ≠ some e.hash)) ∧
      (watcher.scanLog log).pool.config = watcher.pool.config ∧
      (watcher.scanLog log).pool.nextSequence = watcher.pool.nextSequence := by
  rw [scanLog_eq]
  cases hnamed : log.namedHash with
  | none => simp [h]
  | some userOpHash =>
      have hremoved := h.removeByHash userOpHash
      have hfilter : S.filter (fun e => some userOpHash ≠ some e.hash) =
          S.filter (fun e => e.hash ≠ userOpHash) := by
        apply Finset.filter_congr
        intro e _
        rw [ne_eq, Option.some_inj, eq_comm]
      rw [OperationPool.removeByHash_eq] at hremoved
      rw [Option.bind_some, OperationPool.getByHash, hfilter]
      cases hfound : watcher.pool.byHash.get? userOpHash with
      | none =>
          rw [hfound] at hremoved
          exact ⟨hremoved, rfl, rfl⟩
      | some entry =>
          rw [hfound] at hremoved
          exact ⟨hremoved, rfl, rfl⟩

/-- A scan leaves the operations that no log names. -/
theorem describes_scanLogs (logs : List Log) : ∀ {watcher : ChainWatcher} {S : Finset PoolEntry},
    Describes watcher.pool S →
      Describes (scanLogs logs watcher).pool (S.filter (fun e => e.hash ∉ namedHashes logs)) ∧
        (scanLogs logs watcher).pool.config = watcher.pool.config ∧
        (scanLogs logs watcher).pool.nextSequence = watcher.pool.nextSequence := by
  induction logs with
  | nil =>
      intro watcher S h
      refine ⟨?_, rfl, rfl⟩
      have hall : S.filter (fun e => e.hash ∉ namedHashes []) = S :=
        Finset.filter_true_of_mem (fun e _ => List.not_mem_nil)
      rw [hall]
      exact h
  | cons log logs ih =>
      intro watcher S h
      obtain ⟨hone, hconfig, hnext⟩ := describes_scanLog h log
      obtain ⟨hrest, hconfig', hnext'⟩ := ih hone
      refine ⟨?_, hconfig'.trans hconfig, hnext'.trans hnext⟩
      have hfilter : S.filter (fun e => e.hash ∉ namedHashes (log :: logs)) =
          (S.filter (fun e => log.namedHash ≠ some e.hash)).filter
            (fun e => e.hash ∉ namedHashes logs) := by
        rw [Finset.filter_filter]
        apply Finset.filter_congr
        intro e _
        rw [mem_namedHashes_cons, not_or]
      rw [hfilter]
      exact hrest

end Pools

section Scan

variable [Keccak]

/-- Logs of events name the hashes of the events. -/
theorem namedHashes_toLog (events : List UserOperationEvent) :
    namedHashes (events.map UserOperationEvent.toLog) =
      events.map UserOperationEvent.userOpHash := by
  unfold namedHashes
  rw [List.filterMap_map]
  exact List.filterMap_eq_map (f := UserOperationEvent.userOpHash) ▸ rfl

/-- What a scan is for: the operations of the events are gone, and every other
id holds what it held. -/
def ScanClears (before after : OperationPool) (events : List UserOperationEvent) : Prop :=
  ∀ id, after.getById id =
    if id ∈ events.map UserOperationEvent.id then none else before.getById id

/-- The pool and the block agree: an event is about the id of a pooled
operation exactly when one names its hash. -/
def HashesAgree (pool : OperationPool) (events : List UserOperationEvent) : Prop :=
  ∀ id entry, pool.getById id = some entry →
    (id ∈ events.map UserOperationEvent.id ↔
      entry.hash ∈ events.map UserOperationEvent.userOpHash)

/-- **A scan clears the mined ids exactly when hashes and ids agree.**  This
holds of every reachable pool and every list of events the node reports. -/
theorem scan_clears_iff (watcher : ChainWatcher) (hpool : watcher.pool.Reachable)
    (getLogs : Filter → Except ProviderError (List Log)) (blockNumber : U64)
    (events : List UserOperationEvent)
    (hlogs : getLogs (watcher.eventFilter blockNumber) =
      .ok (events.map UserOperationEvent.toLog)) :
    ScanClears watcher.pool (watcher.scanUserOpEvents getLogs blockNumber).2.pool events ↔
      HashesAgree watcher.pool events := by
  obtain ⟨S, hS, _⟩ := hpool.describes
  obtain ⟨hafter, _⟩ := describes_scanLogs (events.map UserOperationEvent.toLog) hS
  rw [namedHashes_toLog] at hafter
  have hscan : (watcher.scanUserOpEvents getLogs blockNumber).2 =
      scanLogs (events.map UserOperationEvent.toLog) watcher := by
    unfold scanUserOpEvents
    rw [hlogs]
  have hleft : ∀ id entry, (watcher.scanUserOpEvents getLogs blockNumber).2.pool.getById id =
      some entry ↔ watcher.pool.getById id = some entry ∧
        entry.hash ∉ events.map UserOperationEvent.userOpHash := by
    intro id entry
    rw [hscan]
    rw [hafter.getById_eq_some, hS.getById_eq_some, Finset.mem_filter]
    tauto
  refine ⟨?_, ?_⟩
  · intro hclears id entry hentry
    have hid := hclears id
    refine ⟨?_, ?_⟩
    · intro hmem
      by_contra hhash
      rw [if_pos hmem, (hleft id entry).mpr ⟨hentry, hhash⟩] at hid
      cases hid
    · intro hhash
      by_contra hmem
      rw [if_neg hmem] at hid
      exact ((hleft id entry).mp (hid.trans hentry)).2 hhash
  · intro hagree id
    split
    · next hmem =>
        apply Option.eq_none_iff_forall_ne_some.mpr
        intro entry hentry
        obtain ⟨hbefore, hhash⟩ := (hleft id entry).mp hentry
        exact hhash ((hagree id entry hbefore).mp hmem)
    · next hmem =>
        ext entry
        rw [hleft]
        refine ⟨?_, ?_⟩
        · intro h
          exact h.1
        · intro h
          exact ⟨h, fun hhash => hmem ((hagree id entry h).mpr hhash)⟩

end Scan

end ChainWatcher

/-! ## A replaced operation is mined -/

section Replaced

/-- The pool after an operation was added and then replaced by one that pays
more. -/
def replacedPool : OperationPool :=
  letI := polynomialDigest
  runCalls
    [.add ((plainOperation 1 0 30).setContext 0xEE 1) 15,
      .add ((plainOperation 1 0 40).setContext 0xEE 1) 15]
    (OperationPool.new (PoolConfig.ofChainSpec ChainSpec.mainnet))

/-- The event of the operation that was replaced. -/
def replacedEvent : UserOperationEvent where
  userOpHash := letI := polynomialDigest; ((plainOperation 1 0 30).setContext 0xEE 1).hash
  sender := 1
  paymaster := 0
  nonce := 0
  success := true
  actualGasCost := 21000
  actualGasUsed := 21000

/-- A watcher of the pool with the replacement. -/
def replacedWatcher : ChainWatcher where
  pool := replacedPool
  reputation := ReputationManager.new ReputationConfig.default
  chainSpec := ChainSpec.mainnet

theorem replacedWatcher_reachable :
    @OperationPool.Reachable polynomialDigest replacedWatcher.pool := by
  have hpool : replacedWatcher.pool = replacedPool := by simp only [replacedWatcher]
  rw [hpool]
  unfold OperationPool.Reachable replacedPool
  exact ⟨_, _, rfl⟩

/-- The scan finds nothing under the mined hash, and the replacement stays. -/
theorem replaced_stays :
    letI := polynomialDigest
    replacedWatcher.pool.Reachable ∧
      ¬ ChainWatcher.ScanClears replacedWatcher.pool
        (replacedWatcher.scanUserOpEvents (fun _ => .ok [replacedEvent.toLog]) 7).2.pool
        [replacedEvent] := by
  refine ⟨replacedWatcher_reachable, ?_⟩
  intro hclears
  have hid := hclears ⟨1, 0⟩
  rw [if_pos (by decide)] at hid
  exact absurd hid (by decide +kernel)

/-- The condition at the same pool, and a block that mined the replacement. -/
theorem scan_clears_iff_replaced :
    letI := polynomialDigest
    ChainWatcher.ScanClears replacedWatcher.pool
        (replacedWatcher.scanUserOpEvents (fun _ => .ok [replacedEvent.toLog]) 7).2.pool
        [replacedEvent] ↔
      ChainWatcher.HashesAgree replacedWatcher.pool [replacedEvent] :=
  @ChainWatcher.scan_clears_iff polynomialDigest replacedWatcher replacedWatcher_reachable
    (fun _ => .ok [@UserOperationEvent.toLog polynomialDigest replacedEvent]) 7
    [replacedEvent] rfl

end Replaced

end Bunzo
