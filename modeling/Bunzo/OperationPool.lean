import Bunzo.AtomicPrograms
import Bunzo.UserOperation

/-!
# The operation pool

The pool keeps its entries in four containers, each behind a lock of its own,
and a counter behind a fifth.  Every method takes these locks one at a time,
so a method is a program of atomic accesses (`PoolOp`), and the pool state is
the record of what the locks protect.

* `addProgram`, `removeByHashProgram`, `removeByIdProgram` — the methods as
  programs, for callers that overlap.
* `OperationPool.add`, `removeByHash`, `removeById`, `clear` — the same
  methods run alone, for callers that take turns.
* `add_eq` — what `add` does when it runs alone, case by case.
-/

namespace Bunzo

open AtomicPrograms

/-- The limits of a pool, and the raise of fees that a replacement needs, in basis
points. -/
structure PoolConfig where
  maxSize : Nat
  maxOpsPerSender : Nat
  replacementFeeBumpBps : U32
deriving DecidableEq

/-- The limits a chain specification sets. -/
def PoolConfig.ofChainSpec (spec : ChainSpec) : PoolConfig where
  maxSize := spec.maxPoolSize
  maxOpsPerSender := spec.maxOpsPerSender
  replacementFeeBumpBps := spec.replacementFeeBumpBps

/-- An operation in the pool, as `byHash` and `byId` store it. -/
structure PoolEntry where
  uo : UserOperation
  hash : B256
  id : UserOperationId
  submitGasPrice : U128
  sequence : U64
deriving DecidableEq

/-- Hash, id and price are those of the operation when it is added. -/
def PoolEntry.new [Keccak] (uo : UserOperation) (baseFee : U128) (sequence : U64) : PoolEntry where
  uo := uo
  hash := uo.hash
  id := uo.id
  submitGasPrice := uo.effectiveGasPrice baseFee
  sequence := sequence

/-- Highest price first, then lowest sequence number, then the hash. -/
def OrderEntry.cmp (a b : PoolEntry) : Ordering :=
  ((compare b.submitGasPrice a.submitGasPrice).then (compare a.sequence b.sequence)).then
    (compare a.hash b.hash)

/-- The order of entries is transitive, so that a tree map can keep them. -/
instance : Std.TransCmp OrderEntry.cmp :=
  inferInstanceAs (Std.TransCmp (compareLex
    (compareLex (fun a b => compareOn PoolEntry.submitGasPrice b a)
      (compareOn PoolEntry.sequence))
    (compareOn PoolEntry.hash)))

/-- Entries that tie in the order have one hash. -/
theorem OrderEntry.hash_eq_of_cmp {a b : PoolEntry} (h : OrderEntry.cmp a b = .eq) :
    a.hash = b.hash :=
  Std.LawfulEqCmp.eq_of_compare (Ordering.then_eq_eq.mp h).2

/-- Why an operation is not pooled. -/
inductive PoolError where
  | alreadyKnown (hash : B256)
  | replacementUnderpriced (existing new : U128)
  | poolFull (maxSize : Nat)
  | other (msg : Message)
deriving DecidableEq

/-- What the five locks protect, and the configuration. -/
structure OperationPool where
  byHash : Std.ExtTreeMap B256 PoolEntry
  byId : Std.ExtTreeMap UserOperationId PoolEntry
  ordered : Std.ExtTreeSet PoolEntry OrderEntry.cmp
  senderCount : Std.ExtTreeMap Address Nat
  nextSequence : U64
  config : PoolConfig

/-! ## Atomic accesses -/

/-- The accesses that change one container, each under its lock. -/
inductive PoolWrite where
  | insertHash (hash : B256) (entry : PoolEntry)
  | insertId (id : UserOperationId) (entry : PoolEntry)
  | insertOrdered (entry : PoolEntry)
  | incrementSender (sender : Address)
  | removeHash (hash : B256)
  | removeId (id : UserOperationId)
  | removeOrdered (entry : PoolEntry)
  | decrementSender (sender : Address)
deriving DecidableEq

/-- All accesses of the pool methods. -/
inductive PoolOp where
  | containsHash (hash : B256)
  | getHash (hash : B256)
  | getId (id : UserOperationId)
  /-- The count of a sender, when it has reached the limit. -/
  | senderAtLimit (sender : Address) (limit : Nat)
  | sizeAtLeast (limit : Nat)
  | takeSequence
  | write (w : PoolWrite)
  /-- The size, read for a line of the log; no method depends on what it is. -/
  | logSize
deriving DecidableEq

/-- One more operation of a sender. -/
def incremented (counts : Std.ExtTreeMap Address Nat) (sender : Address) :
    Std.ExtTreeMap Address Nat :=
  counts.insert sender ((counts.get? sender).getD 0 + 1)

/-- One operation of a sender less; a count that reaches zero is dropped. -/
def decremented (counts : Std.ExtTreeMap Address Nat) (sender : Address) :
    Std.ExtTreeMap Address Nat :=
  match counts.get? sender with
  | none => counts
  | some count => if count - 1 = 0 then counts.erase sender else counts.insert sender (count - 1)

/-- What a write leaves behind. -/
def PoolWrite.apply : PoolWrite → OperationPool → OperationPool
  | .insertHash hash entry, pool => { pool with byHash := pool.byHash.insert hash entry }
  | .insertId id entry, pool => { pool with byId := pool.byId.insert id entry }
  | .insertOrdered entry, pool => { pool with ordered := pool.ordered.insert entry }
  | .incrementSender sender, pool =>
      { pool with senderCount := incremented pool.senderCount sender }
  | .removeHash hash, pool => { pool with byHash := pool.byHash.erase hash }
  | .removeId id, pool => { pool with byId := pool.byId.erase id }
  | .removeOrdered entry, pool => { pool with ordered := pool.ordered.erase entry }
  | .decrementSender sender, pool =>
      { pool with senderCount := decremented pool.senderCount sender }

namespace PoolOp

/-- What an access answers. -/
@[reducible] def Answer : PoolOp → Type
  | containsHash _ => Bool
  | getHash _ => Option PoolEntry
  | getId _ => Option PoolEntry
  | senderAtLimit _ _ => Option Nat
  | sizeAtLeast _ => Bool
  | takeSequence => U64
  | write _ => Unit
  | logSize => Unit

/-- What an access answers and leaves behind. -/
def perform : (op : PoolOp) → OperationPool → op.Answer × OperationPool
  | containsHash hash, pool => (pool.byHash.contains hash, pool)
  | getHash hash, pool => (pool.byHash.get? hash, pool)
  | getId id, pool => (pool.byId.get? id, pool)
  | senderAtLimit sender limit, pool =>
      let count := (pool.senderCount.get? sender).getD 0
      (if limit ≤ count then some count else none, pool)
  | sizeAtLeast limit, pool => (decide (limit ≤ pool.byHash.size), pool)
  | takeSequence, pool =>
      (pool.nextSequence,
        { pool with nextSequence := MachineWords.saturatingAdd pool.nextSequence 1 })
  | write w, pool => ((), w.apply pool)
  | logSize, pool => ((), pool)

/-- No write changes the configuration. -/
@[simp] theorem apply_config (pool : OperationPool) (w : PoolWrite) :
    (w.apply pool).config = pool.config := by
  cases w <;> rfl

/-- Nor does any other access. -/
@[simp] theorem perform_config (op : PoolOp) (pool : OperationPool) :
    (op.perform pool).2.config = pool.config := by
  cases op with
  | write w => exact apply_config pool w
  | _ => rfl

end PoolOp

/-- A pool method: accesses with local computation in between. -/
abbrev PoolProgram := Program PoolOp PoolOp.Answer

namespace PoolProgram

/-- Is an operation of this hash pooled? -/
def containsHash (hash : B256) : PoolProgram Bool := Program.call (PoolOp.containsHash hash)

/-- The entry stored under a hash. -/
def getHash (hash : B256) : PoolProgram (Option PoolEntry) := Program.call (PoolOp.getHash hash)

/-- The entry stored under an id. -/
def getId (id : UserOperationId) : PoolProgram (Option PoolEntry) := Program.call (PoolOp.getId id)

/-- The number of the sender's operations, if it has reached the limit. -/
def senderAtLimit (sender : Address) (limit : Nat) : PoolProgram (Option Nat) :=
  Program.call (PoolOp.senderAtLimit sender limit)

/-- Has the pool reached a size? -/
def sizeAtLeast (limit : Nat) : PoolProgram Bool := Program.call (PoolOp.sizeAtLeast limit)

/-- Draw a sequence number. -/
def takeSequence : PoolProgram U64 := Program.call PoolOp.takeSequence

/-- Change one container. -/
def write (w : PoolWrite) : PoolProgram Unit := Program.call (PoolOp.write w)

/-- Look at the size, for a line in the log. -/
def logSize : PoolProgram Unit := Program.call PoolOp.logSize

variable (pool : OperationPool)

@[simp] theorem run_containsHash (hash : B256) :
    (containsHash hash).run PoolOp.perform pool = (pool.byHash.contains hash, pool) := rfl

@[simp] theorem run_getHash (hash : B256) :
    (getHash hash).run PoolOp.perform pool = (pool.byHash.get? hash, pool) := rfl

@[simp] theorem run_getId (id : UserOperationId) :
    (getId id).run PoolOp.perform pool = (pool.byId.get? id, pool) := rfl

@[simp] theorem run_senderAtLimit (sender : Address) (limit : Nat) :
    (senderAtLimit sender limit).run PoolOp.perform pool =
      (if limit ≤ (pool.senderCount.get? sender).getD 0 then
        some ((pool.senderCount.get? sender).getD 0) else none, pool) := rfl

@[simp] theorem run_sizeAtLeast (limit : Nat) :
    (sizeAtLeast limit).run PoolOp.perform pool =
      (decide (limit ≤ pool.byHash.size), pool) := rfl

@[simp] theorem run_takeSequence :
    takeSequence.run PoolOp.perform pool =
      (pool.nextSequence,
        { pool with nextSequence := MachineWords.saturatingAdd pool.nextSequence 1 }) := rfl

@[simp] theorem run_write (w : PoolWrite) :
    (write w).run PoolOp.perform pool = ((), w.apply pool) := rfl

@[simp] theorem run_logSize : logSize.run PoolOp.perform pool = ((), pool) := rfl

end PoolProgram

/-! ## The methods as programs -/

/-- Take an entry out of the four containers, one after another. -/
def removeInnerProgram (entry : PoolEntry) : PoolProgram Unit := do
  PoolProgram.write (.removeHash entry.hash)
  PoolProgram.write (.removeId entry.id)
  PoolProgram.write (.removeOrdered entry)
  PoolProgram.write (.decrementSender entry.id.sender)

/-- The smallest fee that replaces an operation paying `existingFee`. -/
def PoolConfig.minBump (config : PoolConfig) (existingFee : U128) : U128 :=
  existingFee + existingFee * config.replacementFeeBumpBps.setWidth 128 / 10000

/-- An operation with the id of a pooled one takes its place, if it pays for
that. -/
def replaceProgram (config : PoolConfig) (uo : UserOperation) :
    Option PoolEntry → PoolProgram (Except PoolError Unit)
  | none => return .ok ()
  | some entry =>
      if uo.maxFeePerGas < config.minBump entry.uo.maxFeePerGas then
        return .error (.replacementUnderpriced entry.uo.maxFeePerGas uo.maxFeePerGas)
      else do
        removeInnerProgram entry
        return .ok ()

/-- The text for a sender that has as many operations as it may have. -/
def senderLimitMessage (sender : Address) (count limit : Nat) : Message :=
  [.text "sender ", .address sender, .text " already has ", .number count,
    .text " operations (max ", .number limit, .text ")"]

/-- The two limits, the sender's first. -/
def limitsProgram (config : PoolConfig) (sender : Address) :
    PoolProgram (Except PoolError Unit) := do
  match ← PoolProgram.senderAtLimit sender config.maxOpsPerSender with
  | some count =>
      return .error (.other (senderLimitMessage sender count config.maxOpsPerSender))
  | none =>
      if ← PoolProgram.sizeAtLeast config.maxSize then
        return .error (.poolFull config.maxSize)
      else
        return .ok ()

section Methods

variable [Keccak]

/-- Draw a sequence number, enter the operation into the four containers, and look at the
size for the log. -/
def insertProgram (uo : UserOperation) (baseFee : U128) : PoolProgram B256 := do
  let sequence ← PoolProgram.takeSequence
  let entry := PoolEntry.new uo baseFee sequence
  PoolProgram.write (.insertHash uo.hash entry)
  PoolProgram.write (.insertId uo.id entry)
  PoolProgram.write (.insertOrdered entry)
  PoolProgram.write (.incrementSender uo.id.sender)
  PoolProgram.logSize
  return uo.hash

/-- The part of adding that follows the duplicate check and a replacement. -/
def acceptProgram (config : PoolConfig) (uo : UserOperation) (baseFee : U128) :
    PoolProgram (Except PoolError B256) := do
  match ← limitsProgram config uo.id.sender with
  | .error e => return .error e
  | .ok () =>
      let hash ← insertProgram uo baseFee
      return .ok hash

/-- The method `add`: refuse a hash that is known, replace an operation with the same
id if the fees allow, then check the limits and enter the operation.  Every access is
under its own lock, so other callers may come in between. -/
def addProgram (config : PoolConfig) (uo : UserOperation) (baseFee : U128) :
    PoolProgram (Except PoolError B256) := do
  if ← PoolProgram.containsHash uo.hash then
    return .error (.alreadyKnown uo.hash)
  else
    let existing ← PoolProgram.getId uo.id
    match ← replaceProgram config uo existing with
    | .error e => return .error e
    | .ok () => acceptProgram config uo baseFee

end Methods

/-- Remove a found entry and return it. -/
def removeFoundProgram : Option PoolEntry → PoolProgram (Option PoolEntry)
  | none => return none
  | some entry => do
      removeInnerProgram entry
      return some entry

/-- Look an operation up by its hash, then take the found entry out. -/
def removeByHashProgram (hash : B256) : PoolProgram (Option PoolEntry) := do
  let found ← PoolProgram.getHash hash
  removeFoundProgram found

/-- Look an operation up by its id, then take the found entry out. -/
def removeByIdProgram (id : UserOperationId) : PoolProgram (Option PoolEntry) := do
  let found ← PoolProgram.getId id
  removeFoundProgram found

/-! ## The methods run alone -/

namespace OperationPool

/-- The empty pool. -/
def new (config : PoolConfig) : OperationPool where
  byHash := ∅
  byId := ∅
  ordered := ∅
  senderCount := ∅
  nextSequence := 0
  config := config

/-- The size of a pool is that of its hash index. -/
def size (pool : OperationPool) : Nat := pool.byHash.size

/-- The operation pooled under a hash. -/
def getByHash (pool : OperationPool) (hash : B256) : Option PoolEntry := pool.byHash.get? hash

/-- The operation pooled under an id. -/
def getById (pool : OperationPool) (id : UserOperationId) : Option PoolEntry := pool.byId.get? id

/-- Add an operation without interruption. -/
def add [Keccak] (pool : OperationPool) (uo : UserOperation) (baseFee : U128) :
    Except PoolError B256 × OperationPool :=
  (addProgram pool.config uo baseFee).run PoolOp.perform pool

/-- Remove the operation of a hash, if there is one. -/
def removeByHash (pool : OperationPool) (hash : B256) : Option PoolEntry × OperationPool :=
  (removeByHashProgram hash).run PoolOp.perform pool

/-- Remove the operation of an id, if there is one. -/
def removeById (pool : OperationPool) (id : UserOperationId) :
    Option PoolEntry × OperationPool :=
  (removeByIdProgram id).run PoolOp.perform pool

/-- The entries in order, at most `maxCount` of them. -/
def bestOperations (pool : OperationPool) (maxCount : Nat) : List PoolEntry :=
  pool.ordered.toList.take maxCount

/-- Empty the four containers; the counter runs on. -/
def clear (pool : OperationPool) : OperationPool :=
  { pool with byHash := ∅, byId := ∅, ordered := ∅, senderCount := ∅ }

/-- The largest sequence part among the pooled nonces of a sender and key. -/
def maxNonceSequence (pool : OperationPool) (sender : Address) (nonceKey : U256) : Option U64 :=
  ((pool.byId.keys.filter (fun id => id.sender = sender ∧ id.nonceKey = nonceKey)).map
    UserOperationId.nonceSequence).foldl
      (fun acc s => some (match acc with | none => s | some m => max m s)) none

/-- The pool without an entry, in all four containers. -/
def removeInner (pool : OperationPool) (entry : PoolEntry) : OperationPool :=
  { pool with
    byHash := pool.byHash.erase entry.hash
    byId := pool.byId.erase entry.id
    ordered := pool.ordered.erase entry
    senderCount := decremented pool.senderCount entry.id.sender }

/-- The pool with one entry more, in all four containers. -/
def insertEntry (pool : OperationPool) (entry : PoolEntry) : OperationPool :=
  { pool with
    byHash := pool.byHash.insert entry.hash entry
    byId := pool.byId.insert entry.id entry
    ordered := pool.ordered.insert entry
    senderCount := incremented pool.senderCount entry.id.sender
    nextSequence := MachineWords.saturatingAdd pool.nextSequence 1 }

/-- Removal keeps the configuration. -/
@[simp] theorem removeInner_config (pool : OperationPool) (entry : PoolEntry) :
    (pool.removeInner entry).config = pool.config := rfl

/-- Removal gives no sequence number back. -/
@[simp] theorem removeInner_nextSequence (pool : OperationPool) (entry : PoolEntry) :
    (pool.removeInner entry).nextSequence = pool.nextSequence := rfl

/-- Entering an operation keeps the configuration. -/
@[simp] theorem insertEntry_config (pool : OperationPool) (entry : PoolEntry) :
    (pool.insertEntry entry).config = pool.config := rfl

/-- Four removals in a row take the entry out of the whole pool. -/
@[simp] theorem run_removeInnerProgram (pool : OperationPool) (entry : PoolEntry) :
    (removeInnerProgram entry).run PoolOp.perform pool = ((), pool.removeInner entry) := rfl

/-- What is removed by hash is what the hash index stores. -/
theorem removeByHash_eq (pool : OperationPool) (hash : B256) :
    pool.removeByHash hash =
      match pool.byHash.get? hash with
      | none => (none, pool)
      | some entry => (some entry, pool.removeInner entry) := by
  unfold removeByHash removeByHashProgram
  rw [Program.run_bind, PoolProgram.run_getHash]
  cases pool.byHash.get? hash <;> rfl

/-- What is removed by id is what the id index stores. -/
theorem removeById_eq (pool : OperationPool) (id : UserOperationId) :
    pool.removeById id =
      match pool.byId.get? id with
      | none => (none, pool)
      | some entry => (some entry, pool.removeInner entry) := by
  unfold removeById removeByIdProgram
  rw [Program.run_bind, PoolProgram.run_getId]
  cases pool.byId.get? id <;> rfl

section Adding

variable [Keccak]

/-- Adding, once no pooled operation has the hash and none is left with the
id. -/
def accept (pool : OperationPool) (uo : UserOperation) (baseFee : U128) :
    Except PoolError B256 × OperationPool :=
  let count := (pool.senderCount.get? uo.sender).getD 0
  if pool.config.maxOpsPerSender ≤ count then
    (.error (.other (senderLimitMessage uo.sender count pool.config.maxOpsPerSender)), pool)
  else if pool.config.maxSize ≤ pool.size then
    (.error (.poolFull pool.config.maxSize), pool)
  else
    (.ok uo.hash, pool.insertEntry (PoolEntry.new uo baseFee pool.nextSequence))

/-- The last part of adding, run without interruption. -/
theorem run_acceptProgram (pool : OperationPool) (uo : UserOperation) (baseFee : U128) :
    (acceptProgram pool.config uo baseFee).run PoolOp.perform pool = pool.accept uo baseFee := by
  unfold acceptProgram limitsProgram accept
  simp only [Program.run_bind, PoolProgram.run_senderAtLimit]
  by_cases hcount : pool.config.maxOpsPerSender ≤ (pool.senderCount.get? uo.sender).getD 0
  · simp only [UserOperation.id, hcount, if_true, Program.run_pure]
  · by_cases hsize : pool.config.maxSize ≤ pool.byHash.size
    · simp only [UserOperation.id, hcount, hsize, if_false, Program.run_bind,
        PoolProgram.run_sizeAtLeast, decide_true, size, if_true, Program.run_pure]
    · simp only [UserOperation.id, hcount, hsize, if_false, Program.run_bind,
        PoolProgram.run_sizeAtLeast, decide_false, size, Bool.false_eq_true, Program.run_pure]
      rfl

/-- **One call of `add`, case by case.** -/
theorem add_eq (pool : OperationPool) (uo : UserOperation) (baseFee : U128) :
    pool.add uo baseFee =
      if pool.byHash.contains uo.hash then
        (.error (.alreadyKnown uo.hash), pool)
      else
        match pool.byId.get? uo.id with
        | none => pool.accept uo baseFee
        | some entry =>
            if uo.maxFeePerGas < pool.config.minBump entry.uo.maxFeePerGas then
              (.error (.replacementUnderpriced entry.uo.maxFeePerGas uo.maxFeePerGas), pool)
            else
              (pool.removeInner entry).accept uo baseFee := by
  unfold add addProgram
  simp only [Program.run_bind, PoolProgram.run_containsHash]
  by_cases hknown : pool.byHash.contains uo.hash
  · simp only [hknown, if_true, Program.run_pure]
  · simp only [hknown, if_false, Bool.false_eq_true, Program.run_bind, PoolProgram.run_getId]
    cases pool.byId.get? uo.id with
    | none =>
        simp only [replaceProgram, Program.run_pure]
        exact run_acceptProgram pool uo baseFee
    | some entry =>
        by_cases hfee : uo.maxFeePerGas < pool.config.minBump entry.uo.maxFeePerGas
        · simp only [replaceProgram, hfee, if_true, Program.run_pure]
        · simp only [replaceProgram, hfee, if_false, Program.run_bind, run_removeInnerProgram,
            Program.run_pure]
          exact run_acceptProgram (pool.removeInner entry) uo baseFee

end Adding

end OperationPool

end Bunzo
