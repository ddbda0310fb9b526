import Bunzo.EthApi

/-!
# What a pool holds, however long it runs

`Refines` ties the containers to a `Mempool` as long as the counter of the pool
has not come to its end.  Apart from the sequence numbers the same holds
without that proviso: the containers describe one set of operations within the
limits.

* `Describes` — the set, container by container.
* `Describes.add_outcomes`, `Describes.apply_cases` — what adding, and any call, does.
* `Describes.eq` — the set and the counter determine the pool.
* `describes_runCalls` — every sequence of calls leaves such a set.
-/

namespace Bunzo

open FiniteIndices MachineWords

namespace OperationPool

variable {pool : OperationPool}

/-- The ids of the pooled operations. -/
def ids (pool : OperationPool) : Set UserOperationId := {id | (pool.getById id).isSome}

/-- The ids of a pool are the keys of its id index. -/
theorem mem_ids {id : UserOperationId} : id ∈ pool.ids ↔ id ∈ pool.byId := by
  change (pool.byId[id]?).isSome ↔ _
  exact Std.ExtTreeMap.isSome_getElem?_iff_mem

/-- Removal takes one id. -/
theorem ids_removeInner (entry : PoolEntry) :
    (pool.removeInner entry).ids = pool.ids \ {entry.id} := by
  ext id
  rw [Set.mem_sdiff, mem_ids, mem_ids, Set.mem_singleton_iff]
  change id ∈ pool.byId.erase entry.id ↔ _
  rw [Std.ExtTreeMap.mem_erase, and_comm, ne_eq, Std.LawfulEqCmp.compare_eq_iff_eq,
    eq_comm (a := id)]

/-- Insertion adds one. -/
theorem ids_insertEntry (entry : PoolEntry) :
    (pool.insertEntry entry).ids = insert entry.id pool.ids := by
  ext id
  rw [Set.mem_insert_iff, mem_ids, mem_ids]
  change id ∈ pool.byId.insert entry.id entry ↔ _
  rw [Std.ExtTreeMap.mem_insert, Std.LawfulEqCmp.compare_eq_iff_eq, eq_comm (a := id)]

end OperationPool

/-- The indices describe one set of operations within the limits, wherever the
counter of the pool stands. -/
structure Describes (pool : OperationPool) (S : Finset PoolEntry) : Prop where
  byHash : Indexes pool.byHash S PoolEntry.hash
  byId : Indexes pool.byId S PoolEntry.id
  ordered : Enumerates pool.ordered S
  senderCount : Tallies pool.senderCount S PoolEntry.sender
  size_le : S.card ≤ pool.config.maxSize
  sender_le : ∀ s, tally S PoolEntry.sender s ≤ pool.config.maxOpsPerSender

namespace Describes

variable {pool : OperationPool} {S : Finset PoolEntry} {e : PoolEntry}

/-- A new pool holds nothing. -/
theorem new (config : PoolConfig) : Describes (OperationPool.new config) ∅ where
  byHash := Indexes.empty
  byId := Indexes.empty
  ordered := Enumerates.empty
  senderCount := Tallies.empty
  size_le := by simp
  sender_le := by simp [tally]

/-- What is stored under an id is the entry with this id. -/
theorem getById_eq_some (h : Describes pool S) {id : UserOperationId} :
    pool.getById id = some e ↔ e ∈ S ∧ e.id = id := h.byId id e

/-- In terms of the entries: the sender's are too many, or all are. -/
theorem noRoom_iff (h : Describes pool S) (sender : Address) :
    pool.NoRoom sender ↔ pool.config.maxOpsPerSender ≤ tally S PoolEntry.sender sender ∨
      pool.config.maxSize ≤ S.card := by
  have hcount : (pool.senderCount.get? sender).getD 0 = tally S PoolEntry.sender sender :=
    h.senderCount.getD_eq sender
  have hsize : pool.size = S.card := h.byHash.size_eq_card
  unfold OperationPool.NoRoom
  rw [hcount, hsize]

/-- Removal leaves the other entries. -/
theorem removeInner (h : Describes pool S) (he : e ∈ S) :
    Describes (pool.removeInner e) (S.erase e) where
  byHash := h.byHash.erase he
  byId := h.byId.erase he
  ordered := h.ordered.erase he
  senderCount := tallies_decremented h.senderCount he
  size_le := (Finset.card_le_card (Finset.erase_subset _ _)).trans h.size_le
  sender_le s := by
    apply le_trans _ (h.sender_le s)
    exact Finset.card_le_card (Finset.filter_subset_filter _ (Finset.erase_subset _ _))

/-- Insertion adds a new entry that there is room for. -/
theorem insertEntry (h : Describes pool S) (hhash : ∀ b ∈ S, b.hash ≠ e.hash)
    (hid : ∀ b ∈ S, b.id ≠ e.id) (hroom : ¬ pool.NoRoom e.sender) :
    Describes (pool.insertEntry e) (insert e S) := by
  have hnew : e ∉ S := fun hmem => hhash e hmem rfl
  rw [h.noRoom_iff, not_or, not_le, not_le] at hroom
  have htie : ∀ b, b ∈ pool.ordered.toList → OrderEntry.cmp e b ≠ .eq := by
    intro b hb heq
    exact hhash b ((h.ordered.2 b).mp hb) (OrderEntry.hash_eq_of_cmp heq).symm
  refine ⟨h.byHash.insert hhash, h.byId.insert hid, h.ordered.insert htie,
    tallies_incremented h.senderCount hnew, ?_, ?_⟩
  · rw [Finset.card_insert_of_notMem hnew]
    exact hroom.2
  · intro s
    have hold := h.sender_le s
    rw [tally_insert hnew]
    split
    · next hs =>
        subst hs
        exact hroom.1
    · exact hold

/-- Taking an operation out makes room for one of its sender. -/
theorem room_of_removeInner (h : Describes pool S) (he : e ∈ S) :
    ¬ (pool.removeInner e).NoRoom e.sender := by
  have hcard := Finset.card_erase_add_one he
  have hone : tally S PoolEntry.sender e.sender = _ := tally_erase_self he
  have hsender := h.sender_le e.sender
  have hsize := h.size_le
  rw [(h.removeInner he).noRoom_iff, OperationPool.removeInner_config]
  omega

/-- A hash that is not known is new to all entries. -/
theorem hash_fresh (h : Describes pool S) {hash : B256} (hk : ¬ pool.byHash.contains hash) :
    ∀ b ∈ S, b.hash ≠ hash := by
  apply h.byHash.fresh
  apply Std.ExtTreeMap.getElem?_eq_none
  rwa [← Std.ExtTreeMap.contains_iff_mem]

/-- **What adding does.**  The call is rejected and leaves the pool, or it enters
the operation under a new id, or in place of the one with its id. -/
theorem add_outcomes [Keccak] (h : Describes pool S) (uo : UserOperation) (baseFee : U128) :
    (pool.Rejects uo ∧ ∃ err, pool.add uo baseFee = (.error err, pool)) ∨
    (¬ pool.Rejects uo ∧ pool.byId.get? uo.id = none ∧
      pool.add uo baseFee =
        (.ok uo.hash, pool.insertEntry (PoolEntry.new uo baseFee pool.nextSequence)) ∧
      Describes (pool.insertEntry (PoolEntry.new uo baseFee pool.nextSequence))
        (insert (PoolEntry.new uo baseFee pool.nextSequence) S)) ∨
    (¬ pool.Rejects uo ∧ ∃ entry ∈ S, pool.byId.get? uo.id = some entry ∧
      ¬ uo.maxFeePerGas < pool.config.minBump entry.uo.maxFeePerGas ∧
      pool.add uo baseFee = (.ok uo.hash,
        (pool.removeInner entry).insertEntry (PoolEntry.new uo baseFee pool.nextSequence)) ∧
      Describes ((pool.removeInner entry).insertEntry
          (PoolEntry.new uo baseFee pool.nextSequence))
        (insert (PoolEntry.new uo baseFee pool.nextSequence) (S.erase entry))) := by
  unfold OperationPool.Rejects
  rw [OperationPool.add_eq]
  by_cases hknown : pool.byHash.contains uo.hash
  · left
    rw [if_pos hknown]
    exact ⟨Or.inl hknown, _, rfl⟩
  · have hhash := h.hash_fresh hknown
    rw [if_neg hknown]
    simp only [hknown, Bool.false_eq_true, false_or]
    cases hfound : pool.byId.get? uo.id with
    | none =>
        rcases pool.accept_cases uo baseFee with ⟨hroom, herr⟩ | ⟨hroom, hok⟩
        · exact Or.inl ⟨hroom, herr⟩
        · right
          left
          exact ⟨hroom, rfl, hok, h.insertEntry hhash (h.byId.fresh hfound) hroom⟩
    | some entry =>
        by_cases hfee : uo.maxFeePerGas < pool.config.minBump entry.uo.maxFeePerGas
        · left
          simp only [hfee, if_true, true_or]
          exact ⟨trivial, _, rfl⟩
        · obtain ⟨hmem, hentry⟩ := (h.byId uo.id entry).mp hfound
          have hsender : entry.sender = uo.sender := congrArg UserOperationId.sender hentry
          have hroom := h.room_of_removeInner hmem
          rw [hsender] at hroom
          right
          right
          simp only [hfee, if_false, false_or, hroom, not_false_eq_true]
          rcases (pool.removeInner entry).accept_cases uo baseFee with ⟨hfull, _⟩ | ⟨_, hok⟩
          · exact absurd hfull hroom
          · have hhash' : ∀ b ∈ S.erase entry, b.hash ≠ uo.hash :=
              fun b hb => hhash b (Finset.mem_of_mem_erase hb)
            have hid' : ∀ b ∈ S.erase entry, b.id ≠ uo.id :=
              hentry ▸ h.byId.free_of_erase hmem
            exact ⟨trivial, entry, hmem, rfl, hfee, hok,
              (h.removeInner hmem).insertEntry hhash' hid' hroom⟩

/-- **The outcome of adding.**  The call is rejected and leaves the pool, or the
operation is in, under an id that may have been there before. -/
theorem add_cases [Keccak] (h : Describes pool S) (uo : UserOperation) (baseFee : U128) :
    (pool.Rejects uo ∧ ∃ err, pool.add uo baseFee = (.error err, pool)) ∨
    (¬ pool.Rejects uo ∧ (pool.add uo baseFee).1 = .ok uo.hash ∧
      (∃ S', Describes (pool.add uo baseFee).2 S') ∧
      (pool.add uo baseFee).2.config = pool.config ∧
      (pool.add uo baseFee).2.ids = insert uo.id pool.ids) := by
  rcases h.add_outcomes uo baseFee with
    hrej | ⟨hrej, _, hadd, hafter⟩ | ⟨hrej, entry, _, hfound, _, hadd, hafter⟩
  · exact Or.inl hrej
  · right
    rw [hadd]
    exact ⟨hrej, rfl, ⟨_, hafter⟩, rfl, OperationPool.ids_insertEntry _⟩
  · right
    rw [hadd]
    refine ⟨hrej, rfl, ⟨_, hafter⟩, rfl, ?_⟩
    have hentry := ((h.byId uo.id entry).mp hfound).2
    rw [OperationPool.ids_insertEntry, OperationPool.ids_removeInner, hentry]
    exact Set.insert_sdiff_singleton

/-- Removing by hash leaves the operations of other hashes. -/
theorem removeByHash (h : Describes pool S) (hash : B256) :
    Describes (pool.removeByHash hash).2 (S.filter (fun b => b.hash ≠ hash)) := by
  rw [OperationPool.removeByHash_eq]
  cases hfound : pool.byHash.get? hash with
  | none =>
      rw [Finset.filter_true_of_mem (h.byHash.fresh hfound)]
      exact h
  | some entry =>
      obtain ⟨hmem, rfl⟩ := (h.byHash hash entry).mp hfound
      rw [← Mempool.erase_eq_filter h.byHash.key_injOn hmem]
      exact h.removeInner hmem

/-- Removing by id leaves the operations of other ids. -/
theorem removeById (h : Describes pool S) (id : UserOperationId) :
    Describes (pool.removeById id).2 (S.filter (fun b => b.id ≠ id)) := by
  rw [OperationPool.removeById_eq]
  cases hfound : pool.byId.get? id with
  | none =>
      rw [Finset.filter_true_of_mem (h.byId.fresh hfound)]
      exact h
  | some entry =>
      obtain ⟨hmem, rfl⟩ := (h.byId id entry).mp hfound
      rw [← Mempool.erase_eq_filter h.byId.key_injOn hmem]
      exact h.removeInner hmem

/-- A cleared pool holds nothing, whatever it held. -/
theorem clear (pool : OperationPool) : Describes pool.clear ∅ where
  byHash := Indexes.empty
  byId := Indexes.empty
  ordered := Enumerates.empty
  senderCount := Tallies.empty
  size_le := by simp
  sender_le := by simp [tally]

/-- **What a call does.**  It leaves some of the entries and the counter, or it is
accepted and puts a numbered entry in the place of those with its id. -/
theorem apply_cases [Keccak] (h : Describes pool S) (call : PoolCall) :
    (∃ S' ⊆ S, Describes (call.apply pool) S' ∧
      (call.apply pool).nextSequence = pool.nextSequence) ∨
    ∃ uo baseFee, call = .add uo baseFee ∧ ¬ pool.Rejects uo ∧
      (call.apply pool).nextSequence = saturatingAdd pool.nextSequence 1 ∧
      Describes (call.apply pool) (insert (PoolEntry.new uo baseFee pool.nextSequence)
        (S.filter (fun b => b.id ≠ uo.id))) ∧
      ∀ old ∈ S, old.id = uo.id →
        ¬ uo.maxFeePerGas < pool.config.minBump old.uo.maxFeePerGas := by
  cases call with
  | removeByHash hash =>
      refine Or.inl ⟨_, Finset.filter_subset _ S, h.removeByHash hash, ?_⟩
      rw [PoolCall.apply, OperationPool.removeByHash_eq]
      split
      · rfl
      · rfl
  | removeById id =>
      refine Or.inl ⟨_, Finset.filter_subset _ S, h.removeById id, ?_⟩
      rw [PoolCall.apply, OperationPool.removeById_eq]
      split
      · rfl
      · rfl
  | clear => exact Or.inl ⟨∅, Finset.empty_subset S, clear pool, rfl⟩
  | add uo baseFee =>
      rw [PoolCall.apply]
      rcases h.add_outcomes uo baseFee with
        ⟨_, err, hrej⟩ | ⟨haccepted, hnone, hadd, hafter⟩ |
          ⟨haccepted, old, hold, hfound, hfee, hadd, hafter⟩
      · left
        rw [hrej]
        exact ⟨S, Finset.Subset.refl S, h, rfl⟩
      · right
        have hfresh := h.byId.fresh hnone
        rw [hadd]
        refine ⟨uo, baseFee, rfl, haccepted, rfl, ?_, fun b hb hid => absurd hid (hfresh b hb)⟩
        rwa [Finset.filter_true_of_mem hfresh]
      · right
        obtain ⟨_, hid⟩ := (h.byId uo.id old).mp hfound
        rw [hadd]
        refine ⟨uo, baseFee, rfl, haccepted, rfl, ?_, ?_⟩
        · rwa [← hid, ← Mempool.erase_eq_filter h.byId.key_injOn hold]
        · intro b hb hsame
          rwa [h.byId.key_injOn hb hold (hsame.trans hid.symm)]

/-- **One call** leaves a pool that holds some entries and no more than its limits. -/
theorem apply [Keccak] (h : Describes pool S) (call : PoolCall) :
    ∃ S', Describes (call.apply pool) S' := by
  rcases h.apply_cases call with ⟨S', _, h', _⟩ | ⟨_, _, _, _, _, h', _⟩
  · exact ⟨S', h'⟩
  · exact ⟨_, h'⟩

/-- The set, the limits and the counter determine the pool. -/
theorem eq {pool' : OperationPool} (h : Describes pool S) (h' : Describes pool' S)
    (hconfig : pool.config = pool'.config) (hnext : pool.nextSequence = pool'.nextSequence) :
    pool = pool' := by
  have hbyHash : pool.byHash = pool'.byHash := by
    apply Std.ExtTreeMap.ext_getElem?
    intro hash
    ext entry
    rw [h.byHash, h'.byHash]
  have hbyId : pool.byId = pool'.byId := by
    apply Std.ExtTreeMap.ext_getElem?
    intro id
    ext entry
    rw [h.byId, h'.byId]
  have hordered : pool.ordered = pool'.ordered := by
    apply Std.ExtTreeSet.ext_toList
    rw [List.perm_ext_iff_of_nodup h.ordered.1 h'.ordered.1]
    intro entry
    rw [h.ordered.2, h'.ordered.2]
  have hcount : pool.senderCount = pool'.senderCount := by
    apply Std.ExtTreeMap.ext_getElem?
    intro sender
    rw [h.senderCount, h'.senderCount]
  cases pool
  cases pool'
  simp only at hbyHash hbyId hordered hcount hconfig hnext
  rw [hbyHash, hbyId, hordered, hcount, hconfig, hnext]

end Describes

section Runs

variable [Keccak]

/-- So do many. -/
theorem Describes.runCalls {pool : OperationPool} {S : Finset PoolEntry} (h : Describes pool S)
    (calls : List PoolCall) :
    ∃ S', Describes (runCalls calls pool) S' := by
  induction calls generalizing pool S with
  | nil => exact ⟨S, h⟩
  | cons call calls ih =>
      obtain ⟨S', h'⟩ := h.apply call
      exact ih h'

/-- What holds of the entry of every operation that is added holds of the pooled
entries. -/
theorem describes_forall {P : PoolEntry → Prop} {calls : List PoolCall} :
    ∀ {pool : OperationPool} {S : Finset PoolEntry}, Describes pool S → (∀ e ∈ S, P e) →
      (∀ uo baseFee, .add uo baseFee ∈ calls → ∀ sequence, P (.new uo baseFee sequence)) →
      ∃ S', Describes (runCalls calls pool) S' ∧ ∀ e ∈ S', P e := by
  induction calls with
  | nil =>
      intro pool S h hS _
      exact ⟨S, h, hS⟩
  | cons call calls ih =>
      intro pool S h hS hadded
      have hstep : ∃ S', Describes (call.apply pool) S' ∧ ∀ e ∈ S', P e := by
        rcases h.apply_cases call with ⟨S', hsub, h', _⟩ | ⟨uo, baseFee, rfl, _, _, h', _⟩
        · exact ⟨S', h', fun e he => hS e (hsub he)⟩
        · refine ⟨_, h', (Finset.forall_mem_insert _ _ _).mpr ⟨?_, ?_⟩⟩
          · exact hadded uo baseFee List.mem_cons_self pool.nextSequence
          · exact fun e he => hS e (Finset.mem_of_mem_filter e he)
      obtain ⟨S', h', hS'⟩ := hstep
      exact ih h' hS' (fun uo baseFee hin => hadded uo baseFee (List.mem_cons_of_mem call hin))

/-- **One set behind the containers**, after any calls on a new pool. -/
theorem describes_runCalls (config : PoolConfig) (calls : List PoolCall) :
    ∃ S, Describes (runCalls calls (OperationPool.new config)) S :=
  (Describes.new config).runCalls calls

/-- A pool that calls lead to describes a set of entries, each with the hash and the id of its
operation. -/
theorem OperationPool.Reachable.describes {pool : OperationPool} (h : pool.Reachable) :
    ∃ S, Describes pool S ∧ ∀ e ∈ S, e.hash = e.uo.hash ∧ e.id = e.uo.id := by
  obtain ⟨config, calls, rfl⟩ := h
  apply describes_forall (Describes.new config)
  · intro e he
    exact absurd he (Finset.notMem_empty e)
  · intro uo baseFee _ sequence
    exact ⟨rfl, rfl⟩

end Runs

end Bunzo
