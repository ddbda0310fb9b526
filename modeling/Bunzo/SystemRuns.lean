import Bunzo.AdditionOrder
import Bunzo.InclusionCredit
import Bunzo.PricedRuns
import Bunzo.SubmitPrice
import Bunzo.SystemAssembly

/-!
# Accepted operations in the assembled bundler

A run of the assembled bundler is recorded: the operations that clients were told
are accepted, the validators that let them pass, the hashes that were thrown out
after a simulation, and the ids that were taken out because their bundle was mined.

* `Admitted` — what acceptance says about an operation: it passed every check.
* `Holds` — what the pool of a run holds.
* `accepted_accounted` — no accepted operation is lost without a reason.
-/

namespace Bunzo

open FiniteIndices ReachableStates

/-! ## Acceptance -/

/-- An operation that was accepted stands in the context of the chain, passed all checks of
the validator (its fields and fees, its nonce against the pool, the standing of its entities),
and was not turned down by the pool. -/
structure Admitted [Keccak] (v : Validator) (uo : UserOperation) : Prop where
  entryPoint : uo.entryPoint = v.chainSpec.entryPointV07
  chainId : uo.chainId = v.chainSpec.id
  hash_eq : uo.hash = uo.computeHash
  valid : (v.validateSync uo BundlerSystem.currentBaseFee).1 = .ok ()
  taken : ∃ pool, v.pool = some pool ∧ ¬ pool.Rejects uo

/-- What was accepted does not tip more than its cap. -/
theorem Admitted.cap [Keccak] {v : Validator} {uo : UserOperation} (h : Admitted v uo) :
    uo.maxPriorityFeePerGas ≤ uo.maxFeePerGas := by
  rcases v.validateSync_cases uo BundlerSystem.currentBaseFee with ⟨_, e, hrefused⟩ | ⟨hpasses, _⟩
  · have hvalid := h.valid
    rw [hrefused] at hvalid
    cases hvalid
  · exact hpasses.fees.2

/-- What passes in the context of the chain, and is not turned down, is admitted. -/
theorem Validator.Passes.admitted [Keccak] {v : Validator} {pool : OperationPool}
    {uo : UserOperation}
    (h : v.Passes (uo.setContext v.chainSpec.entryPointV07 v.chainSpec.id)
      BundlerSystem.currentBaseFee)
    (hpool : v.pool = some pool)
    (haccepts : ¬ pool.Rejects (uo.setContext v.chainSpec.entryPointV07 v.chainSpec.id)) :
    Admitted v (uo.setContext v.chainSpec.entryPointV07 v.chainSpec.id) := by
  refine ⟨rfl, rfl, rfl, ?_, pool, hpool, haccepts⟩
  rcases v.validateSync_cases (uo.setContext v.chainSpec.entryPointV07 v.chainSpec.id)
    BundlerSystem.currentBaseFee with ⟨hfails, _⟩ | ⟨_, hok⟩
  · exact absurd h hfails
  · rw [hok]

namespace BundlerSystem

section Submissions

variable [Keccak] {s : BundlerSystem} {S : Finset PoolEntry}

/-- **The two ways a submission ends.**  It fails and leaves the task, or the
operation is admitted and enters the pool. -/
theorem sendUserOperation_cases (h : Describes s.task.pool S) (uo : UserOperation)
    (entryPoint : Address) :
    ((∃ e, (s.sendUserOperation uo entryPoint).1 = .error e) ∧
      (s.sendUserOperation uo entryPoint).2.task = s.task) ∨
    (Admitted s.validator (s.contextual uo entryPoint) ∧
      (s.sendUserOperation uo entryPoint).1 = .ok (s.contextual uo entryPoint).hash ∧
      (s.sendUserOperation uo entryPoint).2.task =
        { s.task with
          pool := PoolCall.apply (.add (s.contextual uo entryPoint) currentBaseFee)
            s.task.pool }) := by
  by_cases hentry : entryPoint = s.api.chainSpec.entryPointV07
  · have hsend : s.api.sendUserOperation uo entryPoint =
        s.api.validateAndAdd (s.contextual uo entryPoint) := if_neg (not_not.mpr hentry)
    have hadd := h.add_cases (s.contextual uo entryPoint) currentBaseFee
    unfold sendUserOperation
    rw [hsend]
    rcases s.api.validateAndAdd_cases (s.contextual uo entryPoint) with
      ⟨_, e, hfails⟩ | ⟨_, hrejects, e, hfails⟩ | ⟨hpasses, haccepts, hash, hadded, htaken⟩
    · rw [hfails]
      exact Or.inl ⟨⟨e, rfl⟩, rfl⟩
    · rcases hadd with ⟨_, _, hsame⟩ | ⟨haccepts, _⟩
      · have hpool : (s.api.pool.add (s.contextual uo entryPoint) s.api.currentBaseFee).2 =
            s.task.pool := congrArg Prod.snd hsame
        rw [hfails, hpool]
        exact Or.inl ⟨⟨e, rfl⟩, rfl⟩
      · exact absurd hrejects haccepts
    · rcases hadd with ⟨hrejects, _⟩ | ⟨_, hok, _⟩
      · exact absurd hrejects haccepts
      · obtain rfl := Except.ok.inj (hok.symm.trans hadded)
        rw [htaken]
        subst hentry
        exact Or.inr ⟨Validator.Passes.admitted (v := s.validator) hpasses rfl haccepts, rfl, rfl⟩
  · have hsend : s.api.sendUserOperation uo entryPoint = (.error _, s.api) := if_pos hentry
    unfold sendUserOperation
    rw [hsend]
    exact Or.inl ⟨⟨_, rfl⟩, rfl⟩

end Submissions

end BundlerSystem

/-! ## What events do to the pool -/

/-- An operation that is taken in has its id for itself. -/
theorem Describes.add_accepted [Keccak] {pool : OperationPool} {S : Finset PoolEntry}
    (h : Describes pool S) {uo : UserOperation} {baseFee : U128} (haccepts : ¬ pool.Rejects uo) :
    Describes (pool.add uo baseFee).2 (insert (PoolEntry.new uo baseFee pool.nextSequence)
      (S.filter (fun e => e.id ≠ uo.id))) := by
  rcases h.add_outcomes uo baseFee with
    ⟨hrejects, _⟩ | ⟨_, hnone, hadd, hafter⟩ | ⟨_, old, hold, hfound, _, hadd, hafter⟩
  · exact absurd hrejects haccepts
  · rw [hadd, Finset.filter_true_of_mem (h.byId.fresh hnone)]
    exact hafter
  · obtain ⟨_, hid⟩ := (h.byId uo.id old).mp hfound
    rw [hadd, ← hid, ← Mempool.erase_eq_filter h.byId.key_injOn hold]
    exact hafter

namespace BundlerTask

variable {t t' : BundlerTask} {a : StepAnswers} {calls : List TaskCall}

/-- The operations that a step throws out: those that the bundle it takes up rejects. -/
def rejectedIn (t : BundlerTask) (a : StepAnswers) : List RejectedOp :=
  match t.state, a.proposal with
  | .building, .ok bundle => if bundle.isEmpty then [] else bundle.rejectedOps
  | _, _ => []

theorem rejectedIn_of_not_building (hs : t.state ≠ .building) : t.rejectedIn a = [] := by
  unfold rejectedIn
  split
  · exact absurd (by assumption) hs
  · rfl

variable [Keccak]

/-- The ids that a step takes out: those of the bundle that it sees mined. -/
def settledIn (t : BundlerTask) (a : StepAnswers) : List UserOperationId :=
  if t.state = .pending ∧ (t.step a).state = .confirming then
    (t.currentBundle.map (bundledIds t.chainSpec)).getD []
  else []

theorem settledIn_of_not_pending (hs : t.state ≠ .pending) : t.settledIn a = [] :=
  if_neg (fun h => hs h.1)

/-- Building takes out what the bundle rejects. -/
theorem pool_of_building (hs : t.state = .building) :
    (t.step a).pool = removeRejected t.pool (t.rejectedIn a) := by
  unfold step handle rejectedIn
  rw [hs]
  simp only [handleBuilding]
  cases a.proposal with
  | error e => rfl
  | ok bundle => cases hempty : bundle.isEmpty <;> simp [hempty, removeRejected]

/-- Other states take out the bundle that a poll sees mined. -/
theorem TaskStep.pool_of_not_building (hstep : TaskStep t a t' calls) (hs : t.state ≠ .building) :
    t'.pool = if t.state = .pending ∧ t'.state = .confirming then (removeBundledOps t).pool
      else t.pool := by
  cases hstep with
  | build hbuilding bundle hbundle hne => exact absurd hbuilding hs
  | mined hpending p hp r hr =>
      rw [if_pos ⟨hpending, rfl⟩]
      simp only [removeBundledOps]
      cases t.currentBundle <;> rfl
  | _ => rw [if_neg (by grind)]

/-- **What a step takes out of the pool.** -/
theorem describes_step {S : Finset PoolEntry} (h : Describes t.pool S) (a : StepAnswers) :
    Describes (t.step a).pool
      (S.filter (fun e => e.hash ∉ (t.rejectedIn a).map RejectedOp.hash ∧
        e.id ∉ t.settledIn a)) := by
  by_cases hs : t.state = .building
  · have hsettled : t.settledIn a = [] := settledIn_of_not_pending (by rw [hs]; decide)
    rw [hsettled, pool_of_building hs]
    simpa using describes_removeRejected (t.rejectedIn a) h
  · rw [rejectedIn_of_not_building hs, (step_taskStep t a).pool_of_not_building hs]
    unfold settledIn
    split_ifs with hmined
    · cases hb : t.currentBundle with
      | none =>
          have hpool : (removeBundledOps t).pool = t.pool := by
            unfold removeBundledOps
            rw [hb]
          rw [hpool]
          simpa using h
      | some bundle =>
          rw [removeBundledOps_pool t hb]
          simpa [bundledIds] using (describes_removeOps t.chainSpec bundle.ops h).1
    · simpa using h

end BundlerTask

/-! ## Queries by hash -/

structure UserOperationWithEntryPoint where
  userOperation : UserOperation
  entryPoint : Address
  blockNumber : Option U64
  blockHash : Option B256
  transactionHash : Option B256

namespace BundlerSystem

/-- The answer for a pooled operation. -/
def answered (s : BundlerSystem) (uo : UserOperation) : UserOperationWithEntryPoint where
  userOperation := uo
  entryPoint := s.task.chainSpec.entryPointV07
  blockNumber := none
  blockHash := none
  transactionHash := none

/-- What the handler answers to a query by hash. -/
def getUserOperationByHash (s : BundlerSystem) (hash : B256) :
    Option UserOperationWithEntryPoint :=
  (s.task.pool.getByHash hash).map (fun entry => s.answered entry.uo)

end BundlerSystem

/-! ## Recorded runs -/

/-- The assembled bundler, what it accepted so far, the validators as they were each time,
and what left its pool for a simulation or for a mined bundle. -/
structure RecordedSystem where
  system : BundlerSystem
  accepted : List UserOperation
  validators : List Validator
  evicted : List B256
  settled : List UserOperationId

section Recorded

variable [Keccak]

namespace RecordedSystem

/-- A submission adds to what was accepted, a step to what left. -/
def next (s : RecordedSystem) : SystemEvent → RecordedSystem
  | .submit uo entryPoint =>
      { s with
        system := s.system.next (.submit uo entryPoint)
        accepted :=
          if (s.system.sendUserOperation uo entryPoint).1.toBool then
            s.accepted ++ [s.system.contextual uo entryPoint]
          else s.accepted
        validators :=
          if (s.system.sendUserOperation uo entryPoint).1.toBool then
            s.validators ++ [s.system.validator]
          else s.validators }
  | .step a =>
      { s with
        system := s.system.next (.step a)
        evicted := s.evicted ++ (s.system.task.rejectedIn a).map RejectedOp.hash
        settled := s.settled ++ s.system.task.settledIn a }

/-- A later operation with the id of an accepted one was accepted. -/
def Replaced (s : RecordedSystem) (i : Nat) (uo : UserOperation) : Prop :=
  ∃ j later, i < j ∧ s.accepted[j]? = some later ∧ later.id = uo.id

/-- An entry is that of the last operation accepted under its id; the base fee of the
bundler is never set. -/
def EntryOf (s : RecordedSystem) (e : PoolEntry) : Prop :=
  (∃ i, s.accepted[i]? = some e.uo ∧ ¬ s.Replaced i e.uo) ∧
    ∃ sequence, e = PoolEntry.new e.uo 0 sequence

/-- When an operation was accepted, it passed the checks of the validator and the pool of
that time. -/
def AdmittedAt (s : RecordedSystem) (i : Nat) (uo : UserOperation) : Prop :=
  ∃ v, s.validators[i]? = some v ∧ v.chainSpec = s.system.task.chainSpec ∧ Admitted v uo

/-- What the pool of a run holds. -/
structure Holds (s : RecordedSystem) (S : Finset PoolEntry) : Prop where
  describes : Describes s.system.task.pool S
  entries : ∀ e ∈ S, s.EntryOf e
  recorded : s.validators.length = s.accepted.length
  admitted : ∀ i uo, s.accepted[i]? = some uo → s.AdmittedAt i uo
  accounted : ∀ i uo, s.accepted[i]? = some uo → (∃ e ∈ S, e.uo = uo) ∨ s.Replaced i uo ∨
    uo.hash ∈ s.evicted ∨ uo.id ∈ s.settled

end RecordedSystem

/-- The assembled bundler from its start, with nothing recorded. -/
def recordedMachine : Machine RecordedSystem SystemEvent where
  init s := systemMachine.init s.system ∧ s.accepted = [] ∧ s.validators = [] ∧
    s.evicted = [] ∧ s.settled = []
  enabled s e := s.system.ProposesFromPool e
  next s e := s.next e

namespace RecordedSystem

variable {s : RecordedSystem} {S : Finset PoolEntry}

/-- The hash of an entry is that of its operation. -/
theorem EntryOf.hash_eq {e : PoolEntry} (h : s.EntryOf e) : e.hash = e.uo.hash := by
  obtain ⟨_, sequence, heq⟩ := h
  rw [heq]
  rfl

/-- So is its id. -/
theorem EntryOf.id_eq {e : PoolEntry} (h : s.EntryOf e) : e.id = e.uo.id := by
  obtain ⟨_, sequence, heq⟩ := h
  rw [heq]
  rfl

/-- At the start there is nothing to account for. -/
theorem Holds.of_init (h : recordedMachine.init s) : s.Holds ∅ := by
  obtain ⟨⟨chainId, entryPoint, maxPoolSize, signerAddress, nonce, hstart, _, _⟩, haccepted,
    hvalidators, _⟩ := h
  refine ⟨?_, by simp, by simp [haccepted, hvalidators], by simp [haccepted],
    by simp [haccepted]⟩
  rw [(BundlerTask.start_eq hstart).2.2.2.1]
  exact Describes.new _

/-- A step takes out what it records, and brings nothing in. -/
theorem Holds.step (h : s.Holds S) (a : StepAnswers) :
    (s.next (.step a)).Holds (S.filter (fun e =>
      e.hash ∉ (s.system.task.rejectedIn a).map RejectedOp.hash ∧
        e.id ∉ s.system.task.settledIn a)) where
  describes := BundlerTask.describes_step h.describes a
  entries e he := h.entries e (Finset.mem_of_mem_filter e he)
  recorded := h.recorded
  admitted i uo hi := by
    obtain ⟨v, hv, hspec, hadmitted⟩ := h.admitted i uo hi
    have hsame : (s.next (.step a)).system.task.chainSpec = s.system.task.chainSpec :=
      (BundlerTask.step_taskStep s.system.task a).constants.1
    exact ⟨v, hv, hspec.trans hsame.symm, hadmitted⟩
  accounted i uo hi := by
    rcases h.accounted i uo hi with ⟨e, he, rfl⟩ | hreplaced | hevicted | hsettled
    · have hentry := h.entries e he
      by_cases hhash : e.hash ∈ (s.system.task.rejectedIn a).map RejectedOp.hash
      · rw [hentry.hash_eq] at hhash
        exact Or.inr (Or.inr (Or.inl (List.mem_append_right _ hhash)))
      · by_cases hid : e.id ∈ s.system.task.settledIn a
        · rw [hentry.id_eq] at hid
          exact Or.inr (Or.inr (Or.inr (List.mem_append_right _ hid)))
        · exact Or.inl ⟨e, Finset.mem_filter.mpr ⟨he, hhash, hid⟩, rfl⟩
    · exact Or.inr (Or.inl hreplaced)
    · exact Or.inr (Or.inr (Or.inl (List.mem_append_left _ hevicted)))
    · exact Or.inr (Or.inr (Or.inr (List.mem_append_left _ hsettled)))

/-- Only task and records matter. -/
theorem Holds.congr {s' : RecordedSystem} (h : s.Holds S) (htask : s'.system.task = s.system.task)
    (haccepted : s'.accepted = s.accepted) (hvalidators : s'.validators = s.validators)
    (hevicted : s'.evicted = s.evicted) (hsettled : s'.settled = s.settled) : s'.Holds S := by
  obtain ⟨hdescribes, hentries, hrecorded, hadmitted, haccounted⟩ := h
  unfold EntryOf Replaced at hentries
  unfold AdmittedAt at hadmitted
  unfold Replaced at haccounted
  constructor
  · rwa [htask]
  · unfold EntryOf Replaced
    rwa [haccepted]
  · rwa [hvalidators, haccepted]
  · unfold AdmittedAt
    rwa [htask, haccepted, hvalidators]
  · unfold Replaced
    rwa [haccepted, hevicted, hsettled]

section Append

variable {s' : RecordedSystem} {new uo : UserOperation} {i : Nat}

omit [Keccak] in
/-- What one more acceptance replaces. -/
theorem replaced_append (haccepted : s'.accepted = s.accepted ++ [new])
    (hi : s.accepted[i]? = some uo) : s'.Replaced i uo ↔ s.Replaced i uo ∨ new.id = uo.id := by
  obtain ⟨hlt, _⟩ := List.getElem?_eq_some_iff.mp hi
  unfold Replaced
  rw [haccepted]
  refine ⟨?_, ?_⟩
  · rintro ⟨j, later, hij, hj, hid⟩
    by_cases hold : j < s.accepted.length
    · rw [List.getElem?_append_left hold] at hj
      exact Or.inl ⟨j, later, hij, hj, hid⟩
    · rw [List.getElem?_append_right (Nat.le_of_not_lt hold)] at hj
      obtain rfl : new = later := by
        have hmem := List.mem_of_getElem? hj
        exact (List.mem_singleton.mp hmem).symm
      exact Or.inr hid
  · rintro (⟨j, later, hij, hj, hid⟩ | hid)
    · obtain ⟨hold, _⟩ := List.getElem?_eq_some_iff.mp hj
      refine ⟨j, later, hij, ?_, hid⟩
      rwa [List.getElem?_append_left hold]
    · exact ⟨s.accepted.length, new, hlt, List.getElem?_concat_length .., hid⟩

omit [Keccak] in
/-- The last one is replaced by none. -/
theorem not_replaced_last (haccepted : s'.accepted = s.accepted ++ [new]) :
    ¬ s'.Replaced s.accepted.length new := by
  rintro ⟨j, later, hij, hj, _⟩
  obtain ⟨hlt, _⟩ := List.getElem?_eq_some_iff.mp hj
  rw [haccepted, List.length_append, List.length_singleton] at hlt
  omega

/-- The entry of the operation accepted last. -/
theorem EntryOf.last (haccepted : s'.accepted = s.accepted ++ [new]) (sequence : U64) :
    s'.EntryOf (PoolEntry.new new 0 sequence) := by
  refine ⟨⟨s.accepted.length, ?_, not_replaced_last haccepted⟩, sequence, rfl⟩
  rw [haccepted]
  exact List.getElem?_concat_length ..

/-- An entry of another id is not touched by it. -/
theorem EntryOf.append {e : PoolEntry} (h : s.EntryOf e)
    (haccepted : s'.accepted = s.accepted ++ [new]) (hid : e.id ≠ new.id) : s'.EntryOf e := by
  have hkey := h.id_eq
  obtain ⟨⟨i, hi, hlast⟩, hnew⟩ := h
  obtain ⟨hlt, _⟩ := List.getElem?_eq_some_iff.mp hi
  refine ⟨⟨i, ?_, ?_⟩, hnew⟩
  · rwa [haccepted, List.getElem?_append_left hlt]
  · rw [replaced_append haccepted hi, not_or]
    refine ⟨hlast, ?_⟩
    rw [← hkey]
    exact hid.symm

/-- Each accepted operation passed its validator, the last one as well. -/
theorem Holds.admittedAt_append (h : s.Holds S)
    (haccepted : s'.accepted = s.accepted ++ [new])
    (hvalidators : s'.validators = s.validators ++ [s.system.validator])
    (hspec : s'.system.task.chainSpec = s.system.task.chainSpec)
    (hadmitted : Admitted s.system.validator new) (hi : s'.accepted[i]? = some uo) :
    s'.AdmittedAt i uo := by
  unfold AdmittedAt
  rw [hvalidators, hspec]
  by_cases hlt : i < s.accepted.length
  · rw [haccepted, List.getElem?_append_left hlt] at hi
    rw [List.getElem?_append_left (hlt.trans_eq h.recorded.symm)]
    exact h.admitted i uo hi
  · obtain ⟨hlength, _⟩ := List.getElem?_eq_some_iff.mp hi
    rw [haccepted, List.length_append, List.length_singleton] at hlength
    obtain rfl : i = s.accepted.length := by omega
    rw [haccepted, List.getElem?_concat_length] at hi
    obtain rfl := Option.some.inj hi
    rw [← h.recorded, List.getElem?_concat_length]
    exact ⟨_, rfl, rfl, hadmitted⟩

/-- An operation that is taken in takes the place of its id. -/
theorem Holds.accept (h : s.Holds S) (haccepted : s'.accepted = s.accepted ++ [new])
    (hvalidators : s'.validators = s.validators ++ [s.system.validator])
    (hevicted : s'.evicted = s.evicted) (hsettled : s'.settled = s.settled)
    (hadmitted : Admitted s.system.validator new)
    (htask : s'.system.task =
      { s.system.task with pool := (s.system.task.pool.add new 0).2 }) :
    s'.Holds (insert (PoolEntry.new new 0 s.system.task.pool.nextSequence)
      (S.filter (fun e => e.id ≠ new.id))) where
  describes := by
    obtain ⟨pool, hpool, haccepts⟩ := hadmitted.taken
    obtain rfl : s.system.task.pool = pool := Option.some.inj hpool
    rw [htask]
    exact h.describes.add_accepted haccepts
  entries := by
    refine (Finset.forall_mem_insert _ _ _).mpr ⟨.last haccepted _, ?_⟩
    intro e he
    obtain ⟨hmem, hid⟩ := Finset.mem_filter.mp he
    exact (h.entries e hmem).append haccepted hid
  recorded := by
    rw [hvalidators, haccepted, List.length_append, List.length_append, h.recorded]
    rfl
  admitted i uo hi := by
    have hspec : s'.system.task.chainSpec = s.system.task.chainSpec := by rw [htask]
    exact h.admittedAt_append haccepted hvalidators hspec hadmitted hi
  accounted := by
    intro i uo hi
    rw [hevicted, hsettled]
    by_cases hlt : i < s.accepted.length
    · rw [haccepted, List.getElem?_append_left hlt] at hi
      rw [replaced_append haccepted hi]
      by_cases hid : new.id = uo.id
      · exact Or.inr (Or.inl (Or.inr hid))
      · rcases h.accounted i uo hi with ⟨e, he, rfl⟩ | hgone
        · left
          refine ⟨e, Finset.mem_insert_of_mem (Finset.mem_filter.mpr ⟨he, ?_⟩), rfl⟩
          rw [(h.entries e he).id_eq]
          exact fun hsame => hid hsame.symm
        · exact Or.inr (hgone.imp_left Or.inl)
    · rw [haccepted, List.getElem?_append_right (Nat.le_of_not_lt hlt)] at hi
      obtain rfl := List.mem_singleton.mp (List.mem_of_getElem? hi)
      exact Or.inl ⟨_, Finset.mem_insert_self _ _, rfl⟩

end Append

/-- A submission that is accepted takes the place of its id. -/
theorem Holds.submit (h : s.Holds S) (uo : UserOperation) (entryPoint : Address) :
    ∃ S', (s.next (.submit uo entryPoint)).Holds S' := by
  rcases BundlerSystem.sendUserOperation_cases h.describes uo entryPoint with
    ⟨⟨e, hfails⟩, htask⟩ | ⟨hadmitted, hok, htask⟩
  · refine ⟨S, h.congr htask ?_ ?_ rfl rfl⟩ <;>
    · change (if _ then _ else _) = _
      rw [hfails]
      rfl
  · have haccepted : (s.next (.submit uo entryPoint)).accepted =
        s.accepted ++ [s.system.contextual uo entryPoint] := by
      change (if _ then _ else _) = _
      rw [hok]
      rfl
    have hvalidators : (s.next (.submit uo entryPoint)).validators =
        s.validators ++ [s.system.validator] := by
      change (if _ then _ else _) = _
      rw [hok]
      rfl
    exact ⟨_, h.accept haccepted hvalidators rfl rfl hadmitted htask⟩

/-- **In every run** the pool holds what was recorded. -/
theorem Holds.of_reachable {cond : RecordedSystem → SystemEvent → Prop}
    (h : recordedMachine.ReachableUnder cond s) : ∃ S, s.Holds S := by
  apply h.invariant
  · intro s hinit
    exact ⟨∅, .of_init hinit⟩
  · intro s e hs _ _
    obtain ⟨S, hS⟩ := hs
    cases e with
    | submit uo entryPoint => exact hS.submit uo entryPoint
    | step a => exact ⟨_, hS.step a⟩

/-- Entries of a run are ranked by what their operations tip. -/
theorem Holds.submitGasPrice_eq (h : s.Holds S) {e : PoolEntry} (he : e ∈ S) :
    e.submitGasPrice = e.uo.maxPriorityFeePerGas := by
  obtain ⟨⟨i, hi, _⟩, sequence, heq⟩ := h.entries e he
  obtain ⟨_, _, _, hadmitted⟩ := h.admitted i e.uo hi
  have hsum : BitVec.ofNat 128 0 + e.uo.maxPriorityFeePerGas = e.uo.maxPriorityFeePerGas :=
    BitVec.zero_add _
  have hprice : e.submitGasPrice = min e.uo.maxFeePerGas e.uo.maxPriorityFeePerGas := by
    rw [← hsum, heq]
    rfl
  apply BitVec.eq_of_toNat_eq
  rw [hprice, MachineWords.toNat_min]
  exact Nat.min_eq_right hadmitted.cap

end RecordedSystem

end Recorded

/-! ## One operation -/

section OneOperation

/-- The assembled bundler at its start. -/
def recordedStart : RecordedSystem where
  system := rested 0
  accepted := []
  validators := []
  evicted := []
  settled := []

variable [Keccak]

theorem recordedStart_init : recordedMachine.init recordedStart := ⟨rested_init, rfl, rfl, rfl, rfl⟩

/-- A recorded run is a run. -/
theorem enabledAlong_recorded (events : List SystemEvent) :
    ∀ {s : RecordedSystem}, systemMachine.EnabledAlong events s.system →
      recordedMachine.EnabledAlong events s := by
  induction events with
  | nil =>
      intro s _
      trivial
  | cons e events ih =>
      intro s h
      refine ⟨h.1, ih ?_⟩
      cases e <;> exact h.2

/-- The first events of a round, from its submission on. -/
theorem recorded_reachable (n : Nat) :
    recordedMachine.Reachable (recordedMachine.run ((roundEvents 0).take n) recordedStart) := by
  have hround := (round_run (Nat.zero_le 10)
    (BundlerSystem.NeverIncluded.of_reachable (.init rested_init))).2.1
  rw [← List.take_append_drop n (roundEvents 0)] at hround
  apply Machine.reachable_run (.init recordedStart_init)
  exact enabledAlong_recorded _ ((Machine.along_append _ _ _).mp hround).1

/-- The bundler with the operation pooled. -/
def onePooled : RecordedSystem := recordedMachine.run ((roundEvents 0).take 2) recordedStart

end OneOperation

end Bunzo
