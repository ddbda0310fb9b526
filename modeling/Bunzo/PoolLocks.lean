import Bunzo.LockedSections
import Bunzo.OverlappingEntries

/-!
# The locks of the pool

The pool keeps four containers and a counter, each behind a readers-writer lock.  A method
acquires one lock at a time and looks at or rewrites the container behind it, sometimes more
than once, before it releases the lock.

* `poolSections` — what each access does while it holds its lock.
* `perform_eq` — as one step, that is the access of the model.
* `locked_as_atomic` — so whatever holds of atomic accesses in any order holds of the locks.
* `locked_calls_return` — no call waits forever.
-/

namespace Bunzo

open AtomicPrograms LockedSections MachineWords

/-! ## Pieces -/

/-- The five mutexes of the pool, one for each container and one for the counter. -/
inductive PoolLock where
  | byHash
  | byId
  | ordered
  | senderCount
  | nextSequence
deriving DecidableEq

namespace PoolLock

/-- What a lock protects. -/
@[reducible] def Piece : PoolLock → Type
  | byHash => Std.ExtTreeMap B256 PoolEntry
  | byId => Std.ExtTreeMap UserOperationId PoolEntry
  | ordered => Std.ExtTreeSet PoolEntry OrderEntry.cmp
  | senderCount => Std.ExtTreeMap Address Nat
  | nextSequence => U64

/-- What a lock protects in a pool. -/
def get : (l : PoolLock) → OperationPool → l.Piece
  | byHash, pool => pool.byHash
  | byId, pool => pool.byId
  | ordered, pool => pool.ordered
  | senderCount, pool => pool.senderCount
  | nextSequence, pool => pool.nextSequence

/-- The pool with other contents behind one lock. -/
def set : (l : PoolLock) → l.Piece → OperationPool → OperationPool
  | byHash, m, pool => { pool with byHash := m }
  | byId, m, pool => { pool with byId := m }
  | ordered, s, pool => { pool with ordered := s }
  | senderCount, m, pool => { pool with senderCount := m }
  | nextSequence, n, pool => { pool with nextSequence := n }

/-- What is put behind a lock is what is found there. -/
theorem get_set (l : PoolLock) (p : l.Piece) (pool : OperationPool) :
    l.get (l.set p pool) = p := by
  cases l <;> rfl

/-- Putting something behind one lock moves nothing behind another. -/
theorem get_set_ne {l m : PoolLock} (p : m.Piece) (pool : OperationPool) (h : l ≠ m) :
    l.get (m.set p pool) = l.get pool := by
  cases l <;> cases m <;> first | rfl | exact absurd rfl h

/-- The configuration is behind no lock. -/
theorem config_set (l : PoolLock) (p : l.Piece) (pool : OperationPool) :
    (l.set p pool).config = pool.config := by
  cases l <;> rfl

/-- A pool is what is behind its locks, and its configuration. -/
theorem ext {pool pool' : OperationPool} (h : ∀ l : PoolLock, l.get pool = l.get pool')
    (hconfig : pool.config = pool'.config) : pool = pool' := by
  cases pool
  cases pool'
  cases h byHash
  cases h byId
  cases h ordered
  cases h senderCount
  cases h nextSequence
  cases hconfig
  rfl

end PoolLock

/-- The configuration is behind no lock. -/
def poolPieces : Pieces OperationPool PoolLock PoolConfig PoolLock.Piece where
  get := PoolLock.get
  set := PoolLock.set
  rest := OperationPool.config
  get_set := PoolLock.get_set
  get_set_ne := PoolLock.get_set_ne
  rest_set := PoolLock.config_set
  ext := PoolLock.ext

/-! ## Sections -/

namespace PoolWrite

/-- The lock that a write is made under. -/
def lock : PoolWrite → PoolLock
  | insertHash _ _ => .byHash
  | insertId _ _ => .byId
  | insertOrdered _ => .ordered
  | incrementSender _ => .senderCount
  | removeHash _ => .byHash
  | removeId _ => .byId
  | removeOrdered _ => .ordered
  | decrementSender _ => .senderCount

/-- A count is entered as zero before it goes up, and one that goes down to zero is taken
out after that. -/
def body : (w : PoolWrite) → Body w.lock.Piece Unit
  | insertHash hash entry => .look (fun m => .put (m.insert hash entry) (.ret ()))
  | insertId id entry => .look (fun m => .put (m.insert id entry) (.ret ()))
  | insertOrdered entry => .look (fun s => .put (s.insert entry) (.ret ()))
  | incrementSender sender =>
      .look (fun counts => .put (counts.insert sender ((counts.get? sender).getD 0))
        (.look (fun counts => .put (counts.insert sender ((counts.get? sender).getD 0 + 1))
          (.ret ()))))
  | removeHash hash => .look (fun m => .put (m.erase hash) (.ret ()))
  | removeId id => .look (fun m => .put (m.erase id) (.ret ()))
  | removeOrdered entry => .look (fun s => .put (s.erase entry) (.ret ()))
  | decrementSender sender =>
      .look (fun counts =>
        match counts.get? sender with
        | none => .ret ()
        | some count => .put (counts.insert sender (count - 1))
            (.look (fun counts =>
              if count - 1 = 0 then .put (counts.erase sender) (.ret ()) else .ret ())))

end PoolWrite

namespace PoolAccess

/-- The lock that an access is made under. -/
def lock : PoolAccess → PoolLock
  | op (.containsHash _) => .byHash
  | op (.getHash _) => .byHash
  | op (.getId _) => .byId
  | op (.senderAtLimit _ _) => .senderCount
  | op (.sizeAtLeast _) => .byHash
  | op .takeSequence => .nextSequence
  | op (.write w) => w.lock
  | op .logSize => .byHash
  | size => .byHash
  | best _ => .ordered
  | hashes => .byHash
  | entries => .byHash
  | maxSequence _ _ => .byId
  | clear .byHash => .byHash
  | clear .byId => .byId
  | clear .ordered => .ordered
  | clear .senderCount => .senderCount

/-- Whether the lock is acquired for reading. -/
def reads : PoolAccess → Bool
  | op .takeSequence => false
  | op (.write _) => false
  | clear _ => false
  | _ => true

/-- The largest sequence part among the ids of a sender and key. -/
def maxSequenceOf (byId : Std.ExtTreeMap UserOperationId PoolEntry) (sender : Address)
    (nonceKey : U256) : Option U64 :=
  ((byId.keys.filter (fun id => id.sender = sender ∧ id.nonceKey = nonceKey)).map
    UserOperationId.nonceSequence).foldl
      (fun acc s => some (match acc with | none => s | some m => max m s)) none

/-- What an access does while it holds its lock, read by read and write by write. -/
def body : (a : PoolAccess) → Body a.lock.Piece a.Answer
  | op (.containsHash hash) => .look (fun m => .ret (m.contains hash))
  | op (.getHash hash) => .look (fun m => .ret (m.get? hash))
  | op (.getId id) => .look (fun m => .ret (m.get? id))
  | op (.senderAtLimit sender limit) => .look (fun counts =>
      .ret (if limit ≤ (counts.get? sender).getD 0 then some ((counts.get? sender).getD 0)
        else none))
  | op (.sizeAtLeast limit) => .look (fun m => .ret (decide (limit ≤ m.size)))
  | op .takeSequence => .look (fun s => .put (saturatingAdd s 1) (.ret s))
  | op (.write w) => w.body
  | op .logSize => .look (fun _ => .ret ())
  | size => .look (fun m => .ret m.size)
  | best maxCount => .look (fun s => .ret (s.toList.take maxCount))
  | hashes => .look (fun m => .ret m.keys)
  | entries => .look (fun m => .ret m.values)
  | maxSequence sender nonceKey => .look (fun m => .ret (maxSequenceOf m sender nonceKey))
  | clear .byHash => .put (∅ : Std.ExtTreeMap B256 PoolEntry compare) (.ret ())
  | clear .byId => .put (∅ : Std.ExtTreeMap UserOperationId PoolEntry compare) (.ret ())
  | clear .ordered => .put (∅ : Std.ExtTreeSet PoolEntry OrderEntry.cmp) (.ret ())
  | clear .senderCount => .put (∅ : Std.ExtTreeMap Address Nat compare) (.ret ())

/-- A shared guard is used for looking only. -/
theorem readsOnly (a : PoolAccess) (h : a.reads) : a.body.ReadsOnly := by
  cases a with
  | op o => cases o <;> first | exact fun _ => trivial | cases h
  | clear part => cases h
  | _ => exact fun _ => trivial

/-- How many steps an access takes at most, between acquiring and releasing its lock. -/
def steps : PoolAccess → Nat
  | op (.write (.incrementSender _)) => 4
  | op (.write (.decrementSender _)) => 4
  | op (.write _) => 2
  | op .takeSequence => 2
  | _ => 1

/-- No section is longer than its access is counted for. -/
theorem body_within (a : PoolAccess) : a.body.Within a.steps := by
  cases a with
  | op o =>
      cases o with
      | write w =>
          cases w with
          | decrementSender sender =>
              refine ⟨(by omega : 0 < 4), fun counts => ?_⟩
              change Body.Within (match counts.get? sender with
                | none => _
                | some count => _) 3
              cases counts.get? sender with
              | none => trivial
              | some count =>
                  refine ⟨by decide, by decide, fun counts' => ?_⟩
                  dsimp only
                  split
                  · exact ⟨by decide, trivial⟩
                  · trivial
          | incrementSender sender =>
              exact ⟨(by omega : 0 < 4), fun _ =>
                ⟨(by omega : 0 < 3), (by omega : 0 < 2), fun _ =>
                  ⟨(by omega : 0 < 1), trivial⟩⟩⟩
          | _ => exact ⟨(by omega : 0 < 2), fun _ => ⟨(by omega : 0 < 1), trivial⟩⟩
      | takeSequence => exact ⟨(by omega : 0 < 2), fun _ => ⟨(by omega : 0 < 1), trivial⟩⟩
      | _ => exact ⟨(by omega : 0 < 1), fun _ => trivial⟩
  | clear part => cases part <;> exact ⟨(by omega : 0 < 1), trivial⟩
  | _ => exact ⟨(by omega : 0 < 1), fun _ => trivial⟩

end PoolAccess

/-- What each access does while it holds its lock. -/
def poolSections : Sections PoolAccess PoolAccess.Answer PoolLock PoolLock.Piece where
  lock := PoolAccess.lock
  shared := PoolAccess.reads
  body := PoolAccess.body
  readsOnly := PoolAccess.readsOnly

/-- Entering a sender at zero and then raising the count raises it by one. -/
theorem incremented_eq (counts : Std.ExtTreeMap Address Nat) (sender : Address) :
    (counts.insert sender ((counts.get? sender).getD 0)).insert sender
        (((counts.insert sender ((counts.get? sender).getD 0)).get? sender).getD 0 + 1) =
      incremented counts sender := by
  apply Std.ExtTreeMap.ext_getElem?
  intro a
  simp only [getElem?_incremented, Std.ExtTreeMap.get?_eq_getElem?,
    Std.ExtTreeMap.getElem?_insert, Std.LawfulEqCmp.compare_eq_iff_eq]
  grind

/-- A count that is about to be dropped may be written first. -/
theorem erased_eq (counts : Std.ExtTreeMap Address Nat) (sender : Address) (n : Nat) :
    (counts.insert sender n).erase sender = counts.erase sender := by
  apply Std.ExtTreeMap.ext_getElem?
  intro a
  simp only [Std.ExtTreeMap.getElem?_insert, Std.ExtTreeMap.getElem?_erase,
    Std.LawfulEqCmp.compare_eq_iff_eq]
  grind

/-- A section that writes leaves the container as the write does. -/
theorem PoolWrite.run_body (w : PoolWrite) (pool : OperationPool) :
    w.body.run (w.lock.get pool) = ((), w.lock.get (w.apply pool)) := by
  cases w with
  | incrementSender sender =>
      refine Prod.ext rfl ?_
      exact incremented_eq pool.senderCount sender
  | decrementSender sender =>
      change Body.run (match pool.senderCount.get? sender with
        | none => _
        | some count => _) _ = ((), decremented pool.senderCount sender)
      unfold decremented
      cases pool.senderCount.get? sender with
      | none => rfl
      | some count =>
          by_cases hlast : count - 1 = 0
          · simp only [Body.run, if_pos hlast]
            exact Prod.ext rfl (erased_eq pool.senderCount sender (count - 1))
          · simp only [Body.run, if_neg hlast]
            rfl
  | _ => rfl

/-- **Sections are accesses.** -/
theorem perform_eq : perform poolPieces poolSections = PoolAccess.perform := by
  funext a pool
  cases a with
  | op o =>
      cases o with
      | write w =>
          change ((w.body.run (w.lock.get pool)).1,
            w.lock.set (w.body.run (w.lock.get pool)).2 pool) = ((), w.apply pool)
          rw [w.run_body]
          cases w <;> rfl
      | _ => rfl
  | clear part => cases part <;> rfl
  | _ => rfl

/-! ## How many steps a call takes -/

/-- The steps of an access of a request. -/
def PoolOp.steps (o : PoolOp) : Nat := (PoolAccess.op o).steps

/-- A method of the pool takes what its accesses take. -/
theorem takes_lift {α : Type} {p : PoolProgram α} :
    ∀ {n : Nat}, Takes PoolOp.steps p n → Takes PoolAccess.steps p.lift n := by
  induction p with
  | done a => exact fun _ => trivial
  | access o next ih => exact fun h => ⟨h.1, fun r => ih r (h.2 r)⟩

/-- Three containers at four steps, and the count of the sender at six. -/
theorem takes_removeInner (entry : PoolEntry) :
    Takes PoolOp.steps (removeInnerProgram entry) 18 :=
  ⟨(by omega : 4 ≤ 18), fun _ => ⟨(by omega : 4 ≤ 14), fun _ => ⟨(by omega : 4 ≤ 10), fun _ =>
    ⟨(by omega : 6 ≤ 6), fun _ => trivial⟩⟩⟩⟩

/-- Removing an entry takes four locks, or none if nothing was found. -/
theorem takes_removeFound (found : Option PoolEntry) :
    Takes PoolOp.steps (removeFoundProgram found) 18 := by
  cases found with
  | none => trivial
  | some entry => exact (takes_removeInner entry).result _

/-- A replacement removes at most the entry that it replaces. -/
theorem takes_replace (config : PoolConfig) (uo : UserOperation) (existing : Option PoolEntry) :
    Takes PoolOp.steps (replaceProgram config uo existing) 18 := by
  cases existing with
  | none => trivial
  | some entry =>
      rw [replaceProgram]
      split
      · trivial
      · exact (takes_removeInner entry).result _

/-- The limits are looked up under two locks. -/
theorem takes_limits (config : PoolConfig) (sender : Address) :
    Takes PoolOp.steps (limitsProgram config sender) 6 := by
  refine ⟨(by omega : 3 ≤ 6), fun count => ?_⟩
  cases count with
  | some n => trivial
  | none =>
      refine ⟨(by omega : 3 ≤ 3), fun full => ?_⟩
      cases full <;> trivial

section Calls

variable [Keccak]

/-- The counter and three containers at four steps, the count of the sender at six, and the
look at the size for the log at three. -/
theorem takes_insert (uo : UserOperation) (baseFee : U128) :
    Takes PoolOp.steps (insertProgram uo baseFee) 25 :=
  ⟨(by omega : 4 ≤ 25), fun _ => ⟨(by omega : 4 ≤ 21), fun _ => ⟨(by omega : 4 ≤ 17), fun _ =>
    ⟨(by omega : 4 ≤ 13), fun _ => ⟨(by omega : 6 ≤ 9), fun _ =>
      ⟨(by omega : 3 ≤ 3), fun _ => trivial⟩⟩⟩⟩⟩⟩

/-- What follows the duplicate check: the limits, the number, four containers, the
size. -/
theorem takes_accept (config : PoolConfig) (uo : UserOperation) (baseFee : U128) :
    Takes PoolOp.steps (acceptProgram config uo baseFee) 31 := by
  refine Takes.bind (m := 25) (takes_limits config uo.id.sender) (fun room => ?_)
  cases room with
  | error e => trivial
  | ok => exact (takes_insert uo baseFee).result _

/-- Two looks, a replacement, and what is left of adding. -/
theorem takes_add (config : PoolConfig) (uo : UserOperation) (baseFee : U128) :
    Takes PoolOp.steps (addProgram config uo baseFee) 55 := by
  refine ⟨(by omega : 3 ≤ 55), fun known => ?_⟩
  cases known with
  | true => trivial
  | false =>
      refine ⟨(by omega : 3 ≤ 52), fun existing => ?_⟩
      change Takes PoolOp.steps (replaceProgram config uo existing >>= _) (18 + 31)
      refine Takes.bind (takes_replace config uo existing) (fun replaced => ?_)
      cases replaced with
      | error e => trivial
      | ok => exact takes_accept config uo baseFee

/-- **Adding takes longest**, with the replacement of an operation. -/
theorem takes_program (config : PoolConfig) (m : PoolMethod) :
    Takes PoolAccess.steps (m.program config) 55 := by
  cases m with
  | request r =>
      refine Takes.result (takes_lift ?_) _
      cases r with
      | add uo baseFee =>
          exact (takes_add config uo baseFee).result _
      | removeByHash hash =>
          have hfound : Takes PoolOp.steps (removeByHashProgram hash) 55 :=
            ⟨(by omega : 3 ≤ 55),
              fun found => (takes_removeFound found).mono (by omega : 18 ≤ 52)⟩
          exact hfound.result _
      | removeById id =>
          have hfound : Takes PoolOp.steps (removeByIdProgram id) 55 :=
            ⟨(by omega : 3 ≤ 55),
              fun found => (takes_removeFound found).mono (by omega : 18 ≤ 52)⟩
          exact hfound.result _
  | clear =>
      exact ⟨(by omega : 3 ≤ 55), fun _ => ⟨(by omega : 3 ≤ 52), fun _ =>
        ⟨(by omega : 3 ≤ 49), fun _ => ⟨(by omega : 3 ≤ 46), fun _ => trivial⟩⟩⟩⟩
  | _ => exact ⟨(by omega : 3 ≤ 55), fun _ => trivial⟩

end Calls

/-! ## Threads at the locks -/

section Locks

variable [Keccak] {τ : Type} [DecidableEq τ] {config : PoolConfig} {Called : PoolMethod → Prop}

/-- Threads that call methods of one pool, which is empty at first, and acquire its locks. -/
def poolLockMachine (τ : Type) [DecidableEq τ] (config : PoolConfig)
    (Called : PoolMethod → Prop) :
    ReachableStates.Machine (Locked poolSections PoolResult OperationPool τ)
      (CallEvent PoolAccess PoolAccess.Answer PoolResult τ) :=
  lockMachine poolPieces poolSections (fun pool => pool = OperationPool.new config)
    (fun p => ∃ m, Called m ∧ p = m.program config)

variable {cond : Locked poolSections PoolResult OperationPool τ →
    CallEvent PoolAccess PoolAccess.Answer PoolResult τ → Prop}
  {c : Locked poolSections PoolResult OperationPool τ}

/-- **Locks make accesses atomic.**  However the threads acquire the locks, work on the
containers and release them, the same calls with atomic accesses lead to a state in which
each thread that holds no lock has the same left to do, and each container that nobody is
writing to is the same; between sections, the pool is. -/
theorem locked_as_atomic (h : (poolLockMachine τ config Called).ReachableUnder cond c) :
    ∃ a, (poolMachine τ config Called).Reachable a ∧
      (∀ t p, c.status t = .outside p → a.program t = p) ∧
      (∀ l : PoolLock, (∀ t op b next, c.status t = .inside op b next → op.lock = l →
        op.reads) → l.get a.state = l.get c.state) ∧
      ((∀ t, ∃ p, c.status t = .outside p) → a.state = c.state) := by
  obtain ⟨_, a, hreach, hrefines⟩ := Refines.of_reachable h
  rw [perform_eq] at hreach
  refine ⟨a, hreach, ?_, hrefines.settled, ?_⟩
  · intro t p ht
    rw [hrefines.program t, ht]
    rfl
  · intro hout
    choose p hp using hout
    exact (hrefines.eq_of_outside p hp).1

/-- **No call waits forever.**  Once no more calls begin, any schedule of threads that can go
on has at most 55 steps for each, and when no thread can, all calls have returned. -/
theorem locked_calls_return [Fintype τ]
    (h : (poolLockMachine τ config Called).ReachableUnder cond c) (schedule : List τ)
    (hrun : (poolLockMachine τ config Called).EnabledAlong
      (schedule.map CallEvent.step) c) :
    schedule.length ≤ Fintype.card τ * 55 ∧
      ((∀ t, ¬ ((poolLockMachine τ config Called).run
        (schedule.map CallEvent.step) c).Ready t) →
        ∀ t, ((poolLockMachine τ config Called).run
          (schedule.map CallEvent.step) c).Returned t) := by
  refine returned_of_reachable PoolAccess.body_within ?_ h schedule hrun
  rintro p ⟨m, _, rfl⟩
  exact takes_program config m

end Locks

/-! ## Two clients that overlap -/

section Overlap

variable [Keccak]

/-- Nobody has called yet, and nobody holds a lock. -/
def idleLocks : Locked poolSections PoolResult OperationPool Bool where
  status _ := .outside (.done .cleared)
  state := OperationPool.new oneRoom

/-- Both clients have begun to add an operation of their own. -/
def adding : Locked poolSections PoolResult OperationPool Bool :=
  (poolLockMachine Bool oneRoom (fun _ => True)).run
    [.begin false ((PoolMethod.request (twoOperations false)).program oneRoom),
      .begin true ((PoolMethod.request (twoOperations true)).program oneRoom)] idleLocks

/-- The second client looks at the limits while the first one holds the lock of the counter,
and adds when the first one is done. -/
def overlapped : List Bool :=
  List.replicate 13 false ++ List.replicate 12 true ++ List.replicate 24 false ++
    List.replicate 25 true

/-- Both operations are added. -/
def added : Locked poolSections PoolResult OperationPool Bool :=
  (poolLockMachine Bool oneRoom (fun _ => True)).run (overlapped.map CallEvent.step) adding

/-- Both clients may begin. -/
theorem adding_reachable : (poolLockMachine Bool oneRoom (fun _ => True)).Reachable adding := by
  have hinit : (poolLockMachine Bool oneRoom (fun _ => True)).init idleLocks :=
    ⟨rfl, fun _ => ⟨_, rfl⟩⟩
  apply ReachableStates.Machine.reachable_run (.init hinit)
  exact ⟨⟨⟨_, rfl⟩, _, trivial, rfl⟩, ⟨⟨_, rfl⟩, _, trivial, rfl⟩, trivial⟩

end Overlap

/-- Nobody waits for a lock in vain. -/
theorem adding_ready :
    letI := polynomialDigest
    adding.ReadyAlong poolPieces overlapped := by
  decide +kernel

/-- At the end of the schedule both clients have their answers. -/
theorem added_returned :
    letI := polynomialDigest
    ∀ t, added.Returned t := by
  decide +kernel

/-- Both calls have returned, with an operation more than there was room for. -/
theorem locked_as_atomic_added :
    letI := polynomialDigest
    added.state.size = 2 ∧ (∀ t, ∃ p, added.status t = .outside p) ∧
    ∃ a, (poolMachine Bool oneRoom (fun _ => True)).Reachable a ∧
      (∀ t p, added.status t = .outside p → a.program t = p) ∧
      (∀ l : PoolLock, (∀ t op b next, added.status t = .inside op b next → op.lock = l →
        op.reads) → l.get a.state = l.get added.state) ∧
      ((∀ t, ∃ p, added.status t = .outside p) → a.state = added.state) := by
  let _ := polynomialDigest
  refine ⟨by decide +kernel, ?_, ?_⟩
  · intro t
    obtain ⟨r, hr⟩ := added_returned t
    exact ⟨_, hr⟩
  · exact locked_as_atomic
      (ReachableStates.Machine.reachable_run adding_reachable (enabledAlong_of_ready adding_ready))

/-- All steps are made, and nobody is ready for another one. -/
theorem locked_calls_return_added :
    letI := polynomialDigest
    (∀ t, ¬ ((poolLockMachine Bool oneRoom (fun _ => True)).run
      (overlapped.map CallEvent.step) adding).Ready t) ∧
    overlapped.length ≤ Fintype.card Bool * 55 ∧
      ((∀ t, ¬ ((poolLockMachine Bool oneRoom (fun _ => True)).run
        (overlapped.map CallEvent.step) adding).Ready t) →
        ∀ t, ((poolLockMachine Bool oneRoom (fun _ => True)).run
          (overlapped.map CallEvent.step) adding).Returned t) := by
  let _ := polynomialDigest
  refine ⟨fun t => not_ready_of_returned (added_returned t), ?_⟩
  exact locked_calls_return adding_reachable overlapped (enabledAlong_of_ready adding_ready)

end Bunzo
