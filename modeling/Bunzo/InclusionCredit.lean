import Bunzo.BundleRemoval
import Bunzo.ChainWatcher
import Bunzo.RejectedOps

/-!
# Two observers of a mined bundle

The task takes the operations of its mined bundle out of the pool by their ids,
the watcher takes out what the logs of the block name, by hash, and counts an
inclusion for the entities of each operation that it has taken out itself.

* `credited` — the operations a scan counts as included.
* `SettledOnce` — the pool does not depend on who is first, and each mined
  operation of the bundle is counted once.
* `settledOnce_iff` — so it is exactly if the watcher is first, or the block
  names no pooled operation of the bundle.
-/

namespace Bunzo

open FiniteIndices ReachableStates

namespace ChainWatcher

/-- The operations a scan takes out of the pool, each when its log comes. -/
def credited : List Log → ChainWatcher → List PoolEntry
  | [], _ => []
  | log :: logs, watcher =>
      (log.namedHash.bind watcher.pool.getByHash).toList ++ credited logs (watcher.scanLog log)

variable {watcher : ChainWatcher} {S : Finset PoolEntry}

/-- The inclusions are those of the credited operations. -/
theorem reputation_scanLogs (logs : List Log) : ∀ watcher : ChainWatcher,
    (scanLogs logs watcher).reputation =
      (credited logs watcher).foldl (fun r entry => recordEntities r entry.uo.entities)
        watcher.reputation := by
  induction logs with
  | nil =>
      intro watcher
      rfl
  | cons log logs ih =>
      intro watcher
      rw [scanLogs, ih, credited, List.foldl_append, scanLog_eq]
      cases log.namedHash.bind watcher.pool.getByHash <;> rfl

/-- **What a scan counts.**  Each pooled operation that a log names, once. -/
theorem count_credited (logs : List Log) (e : PoolEntry) :
    ∀ {watcher : ChainWatcher} {S : Finset PoolEntry}, Describes watcher.pool S →
      (credited logs watcher).count e = if e ∈ S ∧ e.hash ∈ namedHashes logs then 1 else 0 := by
  induction logs with
  | nil =>
      intro watcher S _
      rw [if_neg (fun hand => List.not_mem_nil hand.2)]
      rfl
  | cons log logs ih =>
      intro watcher S h
      have hrest := ih (describes_scanLog h log).1
      rw [credited, List.count_append, hrest]
      simp only [mem_namedHashes_cons, Finset.mem_filter]
      by_cases hmem : e ∈ S
      · by_cases hnamed : log.namedHash = some e.hash
        · have hfound : watcher.pool.getByHash e.hash = some e :=
            (h.byHash e.hash e).mpr ⟨hmem, rfl⟩
          simp [hmem, hnamed, hfound]
        · have hother : (log.namedHash.bind watcher.pool.getByHash).toList.count e = 0 := by
            rw [List.count_eq_zero]
            intro hin
            obtain ⟨userOpHash, hhash, hfound⟩ :=
              Option.bind_eq_some_iff.mp (Option.mem_toList.mp hin)
            rw [((h.byHash userOpHash e).mp hfound).2] at hnamed
            exact hnamed hhash
          simp [hmem, hnamed, hother]
      · have hother : (log.namedHash.bind watcher.pool.getByHash).toList.count e = 0 := by
          rw [List.count_eq_zero]
          intro hin
          obtain ⟨userOpHash, _, hfound⟩ :=
            Option.bind_eq_some_iff.mp (Option.mem_toList.mp hin)
          exact hmem ((h.byHash userOpHash e).mp hfound).1
        simp [hmem, hother]

end ChainWatcher

namespace BundlerTask

variable [Keccak] {t : BundlerTask} {a : StepAnswers}

/-- The ids of a bundle's operations, in the context of the chain. -/
def bundledIds (spec : ChainSpec) (bundle : Bundle) : List UserOperationId :=
  bundle.ops.map (packedId spec)

theorem describes_removeOps (spec : ChainSpec) (ops : List PackedUserOperation) :
    ∀ {pool : OperationPool} {S : Finset PoolEntry}, Describes pool S →
      Describes (removeOps spec pool ops) (S.filter (fun e => e.id ∉ ops.map (packedId spec))) ∧
        (removeOps spec pool ops).config = pool.config ∧
        (removeOps spec pool ops).nextSequence = pool.nextSequence := by
  induction ops with
  | nil =>
      intro pool S h
      refine ⟨?_, rfl, rfl⟩
      have hall :
          S.filter (fun e => e.id ∉ ([] : List PackedUserOperation).map (packedId spec)) = S :=
        Finset.filter_true_of_mem (fun e _ => List.not_mem_nil)
      rw [hall]
      exact h
  | cons op ops ih =>
      intro pool S h
      obtain ⟨hrest, hconfig, hnext⟩ := ih (h.removeById (packedId spec op))
      have hone : (pool.removeById (packedId spec op)).2.config = pool.config ∧
          (pool.removeById (packedId spec op)).2.nextSequence = pool.nextSequence := by
        rw [OperationPool.removeById_eq]
        cases pool.byId.get? (packedId spec op) <;> exact ⟨rfl, rfl⟩
      refine ⟨?_, hconfig.trans hone.1, hnext.trans hone.2⟩
      have hfilter : S.filter (fun e => e.id ∉ (op :: ops).map (packedId spec)) =
          (S.filter (fun e => e.id ≠ packedId spec op)).filter
            (fun e => e.id ∉ ops.map (packedId spec)) := by
        rw [Finset.filter_filter]
        apply Finset.filter_congr
        intro e _
        rw [List.map_cons, List.mem_cons, not_or]
      rw [hfilter]
      exact hrest

/-- A poll that finds the receipt takes the bundle out. -/
theorem pool_of_mined (hstate : t.state = .pending) {p : PendingTransaction}
    (hpending : t.tracker.pending = some p) {r : TransactionReceipt}
    (hreceipt : a.receipt = .ok (some r)) {bundle : Bundle}
    (hbundle : t.currentBundle = some bundle) :
    (t.step a).pool = removeOps t.chainSpec t.pool bundle.ops := by
  have hstep := step_taskStep t a
  generalize t.step a = t' at hstep ⊢
  generalize t.calls a = calls at hstep
  cases hstep with
  | mined _ p' hp' r' hr' =>
      apply removeBundledOps_pool
      exact hbundle
  | _ => grind

/-- The pool of a running task describes one set of operations. -/
theorem describes_of_reachable (h : bundlerMachine.Reachable t) : ∃ S, Describes t.pool S := by
  have hboth : t.Shape ∧ ∃ S, Describes t.pool S := by
    apply h.invariant
    · intro t hinit
      obtain ⟨_, config, _, _, hstart⟩ := hinit
      refine ⟨Shape.of_start hstart, ∅, ?_⟩
      rw [(start_eq hstart).2.2.2.1]
      exact Describes.new config
    · intro t e ht _ _
      obtain ⟨hshape, S, hS⟩ := ht
      refine ⟨hshape.apply e, ?_⟩
      cases e with
      | pool call => exact hS.apply call
      | step a =>
          change ∃ S, Describes (t.step a).pool S
          rcases (step_taskStep t a).pool_cases hshape with
            hsame | ⟨_, rejectedOps, hpool⟩ | ⟨_, _, _, bundle, _, _, _, hpool⟩
          · rw [hsame]
            exact ⟨S, hS⟩
          · rw [hpool]
            exact ⟨_, describes_removeRejected rejectedOps hS⟩
          · rw [hpool]
            exact ⟨_, (describes_removeOps _ _ hS).1⟩
  exact hboth.2

end BundlerTask

/-! ## Both observers -/

/-- The task and the watcher, on one pool. -/
structure SharedPool where
  task : BundlerTask
  watcher : ChainWatcher
  shared : task.pool = watcher.pool

/-- Who gets to the pool first. -/
inductive Observer where
  | task
  | watcher
deriving DecidableEq

def Observer.other : Observer → Observer
  | .task => .watcher
  | .watcher => .task

namespace SharedPool

variable [Keccak]

/-- A step of the task, on the shared pool. -/
def taskRuns (s : SharedPool) (a : StepAnswers) : SharedPool where
  task := s.task.step a
  watcher := { s.watcher with pool := (s.task.step a).pool }
  shared := rfl

/-- A scan of a block, on the shared pool. -/
def watcherRuns (s : SharedPool) (getLogs : Filter → Except ProviderError (List Log))
    (blockNumber : U64) : SharedPool where
  task := { s.task with pool := (s.watcher.scanUserOpEvents getLogs blockNumber).2.pool }
  watcher := (s.watcher.scanUserOpEvents getLogs blockNumber).2
  shared := rfl

/-- One after the other. -/
def bothRun (s : SharedPool) (first : Observer) (a : StepAnswers)
    (getLogs : Filter → Except ProviderError (List Log)) (blockNumber : U64) : SharedPool :=
  match first with
  | .task => (s.taskRuns a).watcherRuns getLogs blockNumber
  | .watcher => (s.watcherRuns getLogs blockNumber).taskRuns a

/-- The operations the watcher counts as included. -/
def creditedBy (s : SharedPool) (first : Observer) (a : StepAnswers) (logs : List Log) :
    List PoolEntry :=
  match first with
  | .task => ChainWatcher.credited logs (s.taskRuns a).watcher
  | .watcher => ChainWatcher.credited logs s.watcher

/-- A pooled operation of the bundle that the logs name. -/
def Mined (s : SharedPool) (bundle : Bundle) (logs : List Log) (e : PoolEntry) : Prop :=
  s.watcher.pool.getById e.id = some e ∧ e.id ∈ BundlerTask.bundledIds s.task.chainSpec bundle ∧
    e.hash ∈ namedHashes logs

/-- Whoever is first, the pool is the same in the end, and each mined operation
of the bundle is counted once. -/
structure SettledOnce (s : SharedPool) (first : Observer) (bundle : Bundle) (a : StepAnswers)
    (getLogs : Filter → Except ProviderError (List Log)) (blockNumber : U64) (logs : List Log) :
    Prop where
  pool : (s.bothRun first a getLogs blockNumber).watcher.pool =
    (s.bothRun first.other a getLogs blockNumber).watcher.pool
  reputation : (s.bothRun first a getLogs blockNumber).watcher.reputation =
    (s.creditedBy first a logs).foldl
      (fun r entry => ChainWatcher.recordEntities r entry.uo.entities) s.watcher.reputation
  once : ∀ e, s.Mined bundle logs e → (s.creditedBy first a logs).count e = 1

section Lemmas

variable {s : SharedPool} {a : StepAnswers} {blockNumber : U64} {logs : List Log} {bundle : Bundle}
  {getLogs : Filter → Except ProviderError (List Log)} {first : Observer} {S : Finset PoolEntry}

theorem scan_eq (watcher : ChainWatcher)
    (hlogs : getLogs (watcher.eventFilter blockNumber) = .ok logs) :
    (watcher.scanUserOpEvents getLogs blockNumber).2 = ChainWatcher.scanLogs logs watcher := by
  unfold ChainWatcher.scanUserOpEvents
  rw [hlogs]

/-- The watcher counts what it has taken out, whoever was first. -/
theorem reputation_bothRun (hlogs : getLogs (s.watcher.eventFilter blockNumber) = .ok logs) :
    (s.bothRun first a getLogs blockNumber).watcher.reputation =
      (s.creditedBy first a logs).foldl
        (fun r entry => ChainWatcher.recordEntities r entry.uo.entities) s.watcher.reputation := by
  cases first with
  | task =>
      have hscan := scan_eq (s.taskRuns a).watcher hlogs
      change ((s.taskRuns a).watcher.scanUserOpEvents getLogs blockNumber).2.reputation = _
      rw [hscan, ChainWatcher.reputation_scanLogs]
      rfl
  | watcher =>
      change (s.watcher.scanUserOpEvents getLogs blockNumber).2.reputation = _
      rw [scan_eq s.watcher hlogs, ChainWatcher.reputation_scanLogs]
      rfl

variable (hS : Describes s.watcher.pool S) (hstate : s.task.state = .pending)
  {p : PendingTransaction} (hpending : s.task.tracker.pending = some p) {r : TransactionReceipt}
  (hreceipt : a.receipt = .ok (some r)) (hbundle : s.task.currentBundle = some bundle)
  (hlogs : getLogs (s.watcher.eventFilter blockNumber) = .ok logs)

include hS hstate hpending hreceipt hbundle

/-- What the task leaves to the watcher. -/
theorem describes_taskRuns :
    Describes (s.taskRuns a).watcher.pool
        (S.filter (fun e => e.id ∉ BundlerTask.bundledIds s.task.chainSpec bundle)) ∧
      (s.taskRuns a).watcher.pool.config = s.watcher.pool.config ∧
      (s.taskRuns a).watcher.pool.nextSequence = s.watcher.pool.nextSequence := by
  have hpool : (s.taskRuns a).watcher.pool =
      BundlerTask.removeOps s.task.chainSpec s.task.pool bundle.ops :=
    BundlerTask.pool_of_mined hstate hpending hreceipt hbundle
  rw [hpool, s.shared]
  exact BundlerTask.describes_removeOps _ _ hS

/-- How often an operation is counted. -/
theorem count_creditedBy (e : PoolEntry) :
    (s.creditedBy first a logs).count e =
      if e ∈ S ∧ e.hash ∈ namedHashes logs ∧
        (first = .task → e.id ∉ BundlerTask.bundledIds s.task.chainSpec bundle) then 1 else 0 := by
  cases first with
  | watcher =>
      rw [creditedBy, ChainWatcher.count_credited logs e hS]
      simp
  | task =>
      have hrest := (describes_taskRuns hS hstate hpending hreceipt hbundle).1
      rw [creditedBy, ChainWatcher.count_credited logs e hrest]
      simp only [Finset.mem_filter, true_imp_iff]
      congr 1
      rw [eq_iff_iff]
      tauto

include hlogs

/-- **The pool does not tell who was first.** -/
theorem pool_bothRun (first : Observer) :
    (s.bothRun first a getLogs blockNumber).watcher.pool =
      (s.bothRun first.other a getLogs blockNumber).watcher.pool := by
  have hsame : (s.bothRun .task a getLogs blockNumber).watcher.pool =
      (s.bothRun .watcher a getLogs blockNumber).watcher.pool := by
    obtain ⟨htask, htaskConfig, htaskNext⟩ :=
      describes_taskRuns hS hstate hpending hreceipt hbundle
    obtain ⟨hwatcher, hwatcherConfig, hwatcherNext⟩ := ChainWatcher.describes_scanLogs logs hS
    obtain ⟨hend, hendConfig, hendNext⟩ := ChainWatcher.describes_scanLogs logs htask
    have hfirst :
        (s.watcherRuns getLogs blockNumber).watcher = ChainWatcher.scanLogs logs s.watcher :=
      scan_eq s.watcher hlogs
    rw [← hfirst] at hwatcher hwatcherConfig hwatcherNext
    obtain ⟨hend', hendConfig', hendNext'⟩ :=
      describes_taskRuns (s := s.watcherRuns getLogs blockNumber) hwatcher hstate hpending hreceipt
        hbundle
    have hscan : ((s.taskRuns a).watcher.scanUserOpEvents getLogs blockNumber).2 =
        ChainWatcher.scanLogs logs (s.taskRuns a).watcher := scan_eq _ hlogs
    change ((s.taskRuns a).watcher.scanUserOpEvents getLogs blockNumber).2.pool =
      ((s.watcherRuns getLogs blockNumber).taskRuns a).watcher.pool
    rw [hscan]
    rw [Finset.filter_comm] at hend'
    exact hend.eq hend'
      ((hendConfig.trans htaskConfig).trans (hendConfig'.trans hwatcherConfig).symm)
      ((hendNext.trans htaskNext).trans (hendNext'.trans hwatcherNext).symm)
  cases first with
  | task => exact hsame
  | watcher => exact hsame.symm

end Lemmas

/-- **Who has to be first.**  The two observers settle a mined bundle, whoever
is first, exactly if the watcher is first or the logs name no pooled operation
of the bundle. -/
theorem settledOnce_iff {s : SharedPool} (hreach : bundlerMachine.Reachable s.task)
    (hstate : s.task.state = .pending) {a : StepAnswers} {r : TransactionReceipt}
    (hreceipt : a.receipt = .ok (some r)) {bundle : Bundle}
    (hbundle : s.task.currentBundle = some bundle)
    {getLogs : Filter → Except ProviderError (List Log)} {blockNumber : U64} {logs : List Log}
    (hlogs : getLogs (s.watcher.eventFilter blockNumber) = .ok logs) (first : Observer) :
    s.SettledOnce first bundle a getLogs blockNumber logs ↔
      first = .watcher ∨ ∀ e, ¬ s.Mined bundle logs e := by
  obtain ⟨S, hS⟩ := BundlerTask.describes_of_reachable hreach
  rw [s.shared] at hS
  obtain ⟨p, hpending⟩ : ∃ p, s.task.tracker.pending = some p :=
    Option.isSome_iff_exists.mp
      ((BundlerTask.Shape.of_reachable hreach).pending_isSome.mpr (Or.inl hstate))
  have hcount (e : PoolEntry) : (s.creditedBy first a logs).count e = _ :=
    count_creditedBy hS hstate hpending hreceipt hbundle e
  have hpooled : ∀ e, s.watcher.pool.getById e.id = some e ↔ e ∈ S :=
    fun e => (hS.byId e.id e).trans (and_iff_left rfl)
  refine ⟨?_, ?_⟩
  · intro hsettled
    cases first with
    | watcher => exact Or.inl rfl
    | task =>
        right
        intro e hmined
        have hone := hsettled.once e hmined
        rw [hcount e, if_neg (fun hand => hand.2.2 rfl hmined.2.1)] at hone
        cases hone
  · intro hcase
    refine ⟨pool_bothRun hS hstate hpending hreceipt hbundle hlogs first,
      reputation_bothRun hlogs, ?_⟩
    intro e hmined
    rcases hcase with rfl | hnone
    · rw [hcount e, if_pos ⟨(hpooled e).mp hmined.1, hmined.2.2, fun h => by cases h⟩]
    · exact absurd hmined (hnone e)

end SharedPool

/-! ## One operation, mined -/

section One

/-- A bundle of one operation is submitted, and the watcher shares the pool. -/
def submittedShared : SharedPool :=
  letI := polynomialDigest
  let task := bundlerMachine.run (submission 0xAAA) (startedTask 5)
  { task := task
    watcher :=
      { pool := task.pool
        reputation := ReputationManager.new ReputationConfig.default
        chainSpec := ChainSpec.mainnet }
    shared := rfl }

/-- The operation as it is pooled. -/
def submittedEntry : PoolEntry :=
  letI := polynomialDigest
  PoolEntry.new ((plainOperation 1 0 30).setContext 0xEE 1) 15 0

/-- The poll that finds the receipt. -/
def minedPoll : StepAnswers :=
  { silentAnswers with receipt := .ok (some { status := true, blockNumber := some 2 }) }

/-- The event of the operation. -/
def minedLog : Log where
  topics := [0, submittedEntry.hash, 1, 0]
  data := []

theorem submittedShared_reachable :
    letI := polynomialDigest
    bundlerMachine.Reachable submittedShared.task := by
  let _ := polynomialDigest
  apply Machine.reachable_run (.init (startedTask_init 5))
  exact Machine.enabledAlong_of_forall (fun _ _ => trivial)

/-- The task is first, and nobody counts the operation. -/
theorem task_first_uncounted :
    letI := polynomialDigest
    bundlerMachine.Reachable submittedShared.task ∧ submittedShared.task.state = .pending ∧
      submittedShared.task.currentBundle = some oneBundle ∧
      submittedShared.Mined oneBundle [minedLog] submittedEntry ∧
      ¬ submittedShared.SettledOnce .task oneBundle minedPoll (fun _ => .ok [minedLog]) 2
        [minedLog] := by
  let _ := polynomialDigest
  have hmined : submittedShared.Mined oneBundle [minedLog] submittedEntry := by
    refine ⟨by decide +kernel, by decide +kernel, by decide +kernel⟩
  refine ⟨submittedShared_reachable, by decide +kernel, by decide +kernel, hmined, ?_⟩
  intro hsettled
  have hnone : submittedShared.creditedBy .task minedPoll [minedLog] = [] := by decide +kernel
  have hone := hsettled.once submittedEntry hmined
  rw [hnone] at hone
  cases hone

/-- The watcher is first. -/
theorem settledOnce_iff_watcher :
    letI := polynomialDigest
    submittedShared.SettledOnce .watcher oneBundle minedPoll (fun _ => .ok [minedLog]) 2
        [minedLog] ↔
      Observer.watcher = .watcher ∨ ∀ e, ¬ submittedShared.Mined oneBundle [minedLog] e := by
  let _ := polynomialDigest
  exact SharedPool.settledOnce_iff submittedShared_reachable (by decide +kernel) rfl
    (by decide +kernel) rfl .watcher

end One

end Bunzo
