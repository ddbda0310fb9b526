import Bunzo.FiniteIndices
import Bunzo.OperationPool

/-!
# One set behind the four indices

The purpose of the pool is to hold a bounded set of operations, at most one
for each sender and nonce: this is `Mempool`, a structure that cannot hold
anything else.  `Refines` says that the four containers of an `OperationPool`
and its counter describe one `Mempool`.

* `Refines.removeInner`, `Refines.insertEntry` — the two updates.
* `Refines.add` — the outcome of adding: rejected with the pool untouched, or
  accepted in place of the entry with the same id.
* `refines_run` — every sequence of calls leaves a pool that refines some
  `Mempool`.
-/

namespace Bunzo

open AtomicPrograms FiniteIndices MachineWords

/-- The account a pooled operation counts against. -/
def PoolEntry.sender (e : PoolEntry) : Address := e.id.sender

/-- A set of operations within the limits, told apart by hash, by id and by
sequence number. -/
structure Mempool where
  config : PoolConfig
  entries : Finset PoolEntry
  hash_injOn : Set.InjOn PoolEntry.hash entries
  id_injOn : Set.InjOn PoolEntry.id entries
  sequence_injOn : Set.InjOn PoolEntry.sequence entries
  size_le : entries.card ≤ config.maxSize
  sender_le : ∀ s, tally entries PoolEntry.sender s ≤ config.maxOpsPerSender

namespace Mempool

/-- No operations. -/
def empty (config : PoolConfig) : Mempool where
  config := config
  entries := ∅
  hash_injOn := by simp
  id_injOn := by simp
  sequence_injOn := by simp
  size_le := by simp
  sender_le := by simp [tally]

/-- One operation less. -/
def erase (mem : Mempool) (e : PoolEntry) : Mempool where
  config := mem.config
  entries := mem.entries.erase e
  hash_injOn := mem.hash_injOn.mono (by simp)
  id_injOn := mem.id_injOn.mono (by simp)
  sequence_injOn := mem.sequence_injOn.mono (by simp)
  size_le := (Finset.card_le_card (Finset.erase_subset _ _)).trans mem.size_le
  sender_le s := by
    apply le_trans _ (mem.sender_le s)
    exact Finset.card_le_card (Finset.filter_subset_filter _ (Finset.erase_subset _ _))

/-- What an operation has to satisfy to be taken in. -/
structure Admissible (mem : Mempool) (e : PoolEntry) : Prop where
  hash_fresh : ∀ b ∈ mem.entries, b.hash ≠ e.hash
  id_fresh : ∀ b ∈ mem.entries, b.id ≠ e.id
  sequence_fresh : ∀ b ∈ mem.entries, b.sequence ≠ e.sequence
  size_lt : mem.entries.card < mem.config.maxSize
  sender_lt : tally mem.entries PoolEntry.sender e.sender < mem.config.maxOpsPerSender

/-- An operation that may enter is not there yet. -/
theorem Admissible.notMem {mem : Mempool} {e : PoolEntry} (h : mem.Admissible e) :
    e ∉ mem.entries := fun hmem => h.hash_fresh e hmem rfl

/-- A key stays injective when a member with a fresh key joins. -/
theorem injOn_insert {κ : Type} {key : PoolEntry → κ} {S : Finset PoolEntry} {e : PoolEntry}
    (h : Set.InjOn key S) (hfresh : ∀ b ∈ S, key b ≠ key e) :
    Set.InjOn key (Insert.insert e S : Finset PoolEntry) := by
  have hnew : e ∉ (S : Set PoolEntry) := fun hmem => hfresh e hmem rfl
  rw [Finset.coe_insert, Set.injOn_insert hnew]
  refine ⟨h, ?_⟩
  intro himage
  obtain ⟨b, hb, hkey⟩ := himage
  exact hfresh b hb hkey

/-- The limit of every sender holds after it entered. -/
theorem Admissible.sender_le {mem : Mempool} {e : PoolEntry} (h : mem.Admissible e) (s : Address) :
    tally (Insert.insert e mem.entries) PoolEntry.sender s ≤ mem.config.maxOpsPerSender := by
  have hold := mem.sender_le s
  have hroom := h.sender_lt
  rw [tally_insert h.notMem]
  split
  · next hs => subst hs; omega
  · omega

/-- One operation more. -/
def insert (mem : Mempool) (e : PoolEntry) (h : mem.Admissible e) : Mempool where
  config := mem.config
  entries := Insert.insert e mem.entries
  hash_injOn := injOn_insert mem.hash_injOn h.hash_fresh
  id_injOn := injOn_insert mem.id_injOn h.id_fresh
  sequence_injOn := injOn_insert mem.sequence_injOn h.sequence_fresh
  size_le := by
    rw [Finset.card_insert_of_notMem h.notMem]
    exact h.size_lt
  sender_le := h.sender_le

/-- What is left after an erasure. -/
@[simp] theorem erase_entries (mem : Mempool) (e : PoolEntry) :
    (mem.erase e).entries = mem.entries.erase e := rfl

/-- What is there after an insertion. -/
@[simp] theorem insert_entries (mem : Mempool) (e : PoolEntry) (h : mem.Admissible e) :
    (mem.insert e h).entries = Insert.insert e mem.entries := rfl

/-- Without the entry of a key, exactly the entries of other keys are left. -/
theorem erase_eq_filter {κ : Type} [DecidableEq κ] {key : PoolEntry → κ} {S : Finset PoolEntry}
    (hinj : Set.InjOn key S) {e : PoolEntry} (he : e ∈ S) :
    S.erase e = S.filter (fun b => key b ≠ key e) := by
  ext b
  rw [Finset.mem_erase, Finset.mem_filter]
  refine ⟨?_, ?_⟩
  · intro hb
    exact ⟨hb.2, fun hkey => hb.1 (hinj hb.2 he hkey)⟩
  · intro hb
    exact ⟨fun heq => hb.2 (heq ▸ rfl), hb.1⟩

/-- Without one operation there is room for another of its sender. -/
theorem room_of_erase (mem : Mempool) {e : PoolEntry} (he : e ∈ mem.entries) :
    (mem.erase e).entries.card < mem.config.maxSize ∧
      tally (mem.erase e).entries PoolEntry.sender e.sender < mem.config.maxOpsPerSender := by
  have hone : tally mem.entries PoolEntry.sender e.sender = _ := tally_erase_self he
  have hold := mem.sender_le e.sender
  have hcard := Finset.card_erase_add_one he
  have hsize := mem.size_le
  rw [erase_entries]
  omega

end Mempool

/-- The containers and the counter of the pool describe one `Mempool`. -/
structure Refines [Keccak] (pool : OperationPool) (mem : Mempool) : Prop where
  config : pool.config = mem.config
  byHash : Indexes pool.byHash mem.entries PoolEntry.hash
  byId : Indexes pool.byId mem.entries PoolEntry.id
  ordered : Enumerates pool.ordered mem.entries
  senderCount : Tallies pool.senderCount mem.entries PoolEntry.sender
  sequence_lt : ∀ e ∈ mem.entries, e.sequence < pool.nextSequence
  stored : ∀ e ∈ mem.entries, e.hash = e.uo.hash ∧ e.id = e.uo.id

section Counts

variable {counts : Std.ExtTreeMap Address Nat} {S : Finset PoolEntry} {e : PoolEntry}

/-- Counting a new entry's sender up keeps the counts. -/
theorem tallies_incremented (h : Tallies counts S PoolEntry.sender) (he : e ∉ S) :
    Tallies (incremented counts e.sender) (Insert.insert e S) PoolEntry.sender :=
  h.insert he

/-- Counting a removed entry's sender down keeps them too. -/
theorem tallies_decremented (h : Tallies counts S PoolEntry.sender) (he : e ∈ S) :
    Tallies (decremented counts e.sender) (S.erase e) PoolEntry.sender := by
  have hcount : counts.get? e.sender = some (tally S PoolEntry.sender e.sender) := by
    have hget := h e.sender
    rwa [if_neg (by rw [tally_erase_self he]; omega)] at hget
  unfold decremented
  simp only [hcount]
  split
  · next hlast => exact h.drop he hcount hlast
  · next hmore => exact h.decrement he hcount hmore

end Counts

namespace Refines

variable [Keccak] {pool : OperationPool} {mem : Mempool}

/-- A new pool is an empty mempool. -/
theorem new (config : PoolConfig) : Refines (OperationPool.new config) (Mempool.empty config) where
  config := rfl
  byHash := Indexes.empty
  byId := Indexes.empty
  ordered := Enumerates.empty
  senderCount := Tallies.empty
  sequence_lt := by simp [Mempool.empty]
  stored := by simp [Mempool.empty]

/-- So is a cleared one, but for the counter. -/
theorem clear (h : Refines pool mem) : Refines pool.clear (Mempool.empty mem.config) where
  config := h.config
  byHash := Indexes.empty
  byId := Indexes.empty
  ordered := Enumerates.empty
  senderCount := Tallies.empty
  sequence_lt := by simp [Mempool.empty]
  stored := by simp [Mempool.empty]

/-- Removal takes the entry out of the mempool. -/
theorem removeInner (h : Refines pool mem) {e : PoolEntry} (he : e ∈ mem.entries) :
    Refines (pool.removeInner e) (mem.erase e) where
  config := h.config
  byHash := h.byHash.erase he
  byId := h.byId.erase he
  ordered := h.ordered.erase he
  senderCount := tallies_decremented h.senderCount he
  sequence_lt b hb := h.sequence_lt b (Finset.mem_of_mem_erase hb)
  stored b hb := h.stored b (Finset.mem_of_mem_erase hb)

/-- The counter has not reached its last value. -/
def Running (pool : OperationPool) : Prop := pool.nextSequence.toNat + 1 < 2 ^ 64

omit [Keccak] in
/-- As long as the counter runs, it moves by one. -/
theorem nextSequence_insertEntry {e : PoolEntry} (hrun : Running pool) :
    (pool.insertEntry e).nextSequence.toNat = pool.nextSequence.toNat + 1 := by
  have hone : (1 : U64).toNat = 1 := rfl
  show (saturatingAdd pool.nextSequence 1).toNat = _
  rw [saturatingAdd_eq hrun, toNat_add_of_lt hrun, hone]

/-- Insertion brings an admissible entry into the mempool. -/
theorem insertEntry (h : Refines pool mem) {e : PoolEntry} (hok : mem.Admissible e)
    (hseq : e.sequence = pool.nextSequence) (hstored : e.hash = e.uo.hash ∧ e.id = e.uo.id)
    (hrun : Running pool) :
    Refines (pool.insertEntry e) (mem.insert e hok) where
  config := h.config
  byHash := h.byHash.insert hok.hash_fresh
  byId := h.byId.insert hok.id_fresh
  ordered := by
    apply h.ordered.insert
    intro b hb htie
    exact hok.hash_fresh b ((h.ordered.2 b).mp hb) (OrderEntry.hash_eq_of_cmp htie).symm
  senderCount := tallies_incremented h.senderCount hok.notMem
  sequence_lt b hb := by
    have hnext := nextSequence_insertEntry (e := e) hrun
    rw [BitVec.lt_def, hnext]
    rcases Finset.mem_insert.mp hb with rfl | hb
    · rw [hseq]
      omega
    · have hlt := BitVec.lt_def.mp (h.sequence_lt b hb)
      omega
  stored b hb := by
    rcases Finset.mem_insert.mp hb with rfl | hb
    · exact hstored
    · exact h.stored b hb

/-- The size is the number of entries. -/
theorem size_eq (h : Refines pool mem) : pool.size = mem.entries.card :=
  h.byHash.size_eq_card

/-- What is stored under an id is the entry with this id. -/
theorem getById_eq_some (h : Refines pool mem) {id : UserOperationId} {e : PoolEntry} :
    pool.byId.get? id = some e ↔ e ∈ mem.entries ∧ e.id = id :=
  h.byId id e

/-- What is stored under a hash is the entry with this hash. -/
theorem getByHash_eq_some (h : Refines pool mem) {hash : B256} {e : PoolEntry} :
    pool.byHash.get? hash = some e ↔ e ∈ mem.entries ∧ e.hash = hash :=
  h.byHash hash e

/-- A hash that is not known is new to all entries. -/
theorem hash_fresh (h : Refines pool mem) {hash : B256} (hk : ¬ pool.byHash.contains hash) :
    ∀ b ∈ mem.entries, b.hash ≠ hash := by
  apply h.byHash.fresh
  apply Std.ExtTreeMap.getElem?_eq_none
  rwa [← Std.ExtTreeMap.contains_iff_mem]

/-- Accepting an operation: rejected by a limit with the pool untouched, or
entered. -/
theorem accept (h : Refines pool mem) (uo : UserOperation) (baseFee : U128)
    (hrun : Running pool) (hhash : ∀ b ∈ mem.entries, b.hash ≠ uo.hash)
    (hid : ∀ b ∈ mem.entries, b.id ≠ uo.id) :
    ((∃ err, pool.accept uo baseFee = (.error err, pool)) ∧
      (mem.config.maxOpsPerSender ≤ tally mem.entries PoolEntry.sender uo.sender ∨
        mem.config.maxSize ≤ mem.entries.card)) ∨
    ∃ hok, pool.accept uo baseFee =
        (.ok uo.hash, pool.insertEntry (PoolEntry.new uo baseFee pool.nextSequence)) ∧
      Refines (pool.insertEntry (PoolEntry.new uo baseFee pool.nextSequence))
        (mem.insert (PoolEntry.new uo baseFee pool.nextSequence) hok) := by
  have hcount : (pool.senderCount.get? uo.sender).getD 0 =
      tally mem.entries PoolEntry.sender uo.sender := h.senderCount.getD_eq uo.sender
  unfold OperationPool.accept
  simp only [hcount, h.size_eq, h.config]
  by_cases hsender : mem.config.maxOpsPerSender ≤ tally mem.entries PoolEntry.sender uo.sender
  · left
    rw [if_pos hsender]
    exact ⟨⟨_, rfl⟩, Or.inl hsender⟩
  · by_cases hsize : mem.config.maxSize ≤ mem.entries.card
    · left
      rw [if_neg hsender, if_pos hsize]
      exact ⟨⟨_, rfl⟩, Or.inr hsize⟩
    · right
      rw [if_neg hsender, if_neg hsize]
      have hok : mem.Admissible (PoolEntry.new uo baseFee pool.nextSequence) :=
        { hash_fresh := hhash
          id_fresh := hid
          sequence_fresh := fun b hb heq => by
            have hlt := h.sequence_lt b hb
            rw [heq] at hlt
            exact absurd hlt (BitVec.lt_irrefl _)
          size_lt := Nat.lt_of_not_le hsize
          sender_lt := Nat.lt_of_not_le hsender }
      exact ⟨hok, rfl, h.insertEntry hok rfl ⟨rfl, rfl⟩ hrun⟩

/-- **The outcome of adding.**  Either the call is rejected and the pool is
the one before, or the operation stands in place of the entry with its id. -/
theorem add (h : Refines pool mem) (uo : UserOperation) (baseFee : U128) (hrun : Running pool) :
    (∃ err, pool.add uo baseFee = (.error err, pool)) ∨
    ∃ mem' : Mempool, (pool.add uo baseFee).1 = .ok uo.hash ∧
      mem'.entries = Insert.insert (PoolEntry.new uo baseFee pool.nextSequence)
        (mem.entries.filter (fun b => b.id ≠ uo.id)) ∧
      mem'.config = mem.config ∧
      Refines (pool.add uo baseFee).2 mem' ∧
      (pool.add uo baseFee).2.nextSequence.toNat = pool.nextSequence.toNat + 1 := by
  rw [OperationPool.add_eq]
  by_cases hknown : pool.byHash.contains uo.hash
  · left
    rw [if_pos hknown]
    exact ⟨_, rfl⟩
  · rw [if_neg hknown]
    have hhash := h.hash_fresh hknown
    cases hfound : pool.byId.get? uo.id with
    | none =>
        have hid := h.byId.fresh hfound
        rcases h.accept uo baseFee hrun hhash hid with ⟨hrej, _⟩ | ⟨hok, hadd, href⟩
        · left
          exact hrej
        · right
          refine ⟨_, by rw [hadd], ?_, ?_, by rw [hadd]; exact href, ?_⟩
          · rw [Mempool.insert_entries, Finset.filter_true_of_mem hid]
          · rfl
          · rw [hadd]
            exact nextSequence_insertEntry hrun
    | some entry =>
        by_cases hfee : uo.maxFeePerGas < pool.config.minBump entry.uo.maxFeePerGas
        · left
          simp only [hfee, if_true]
          exact ⟨_, rfl⟩
        · right
          simp only [hfee, if_false]
          obtain ⟨hmem, hentry⟩ := h.getById_eq_some.mp hfound
          have hrest := h.removeInner hmem
          have hhash' : ∀ b ∈ (mem.erase entry).entries, b.hash ≠ uo.hash :=
            fun b hb => hhash b (Finset.mem_of_mem_erase hb)
          have hid' : ∀ b ∈ (mem.erase entry).entries, b.id ≠ uo.id :=
            hentry ▸ h.byId.free_of_erase hmem
          rcases hrest.accept uo baseFee hrun hhash' hid' with ⟨_, hfull⟩ | ⟨hok, hadd, href⟩
          · -- the entry just removed has left room under both limits
            exfalso
            have hsender : entry.sender = uo.sender := congrArg UserOperationId.sender hentry
            obtain ⟨hsize, hcount⟩ := mem.room_of_erase hmem
            rw [hsender] at hcount
            rcases hfull with hfull | hfull
            · exact absurd hcount (Nat.not_lt.mpr hfull)
            · exact absurd hsize (Nat.not_lt.mpr hfull)
          · refine ⟨_, by rw [hadd], ?_, ?_, by rw [hadd]; exact href, ?_⟩
            · rw [Mempool.insert_entries, Mempool.erase_entries,
                Mempool.erase_eq_filter mem.id_injOn hmem,
                hentry]
              rfl
            · rfl
            · rw [hadd]
              exact nextSequence_insertEntry hrun

/-- Removing by hash leaves exactly the entries of other hashes. -/
theorem removeByHash (h : Refines pool mem) (hash : B256) :
    ∃ mem' : Mempool, mem'.entries = mem.entries.filter (fun b => b.hash ≠ hash) ∧
      mem'.config = mem.config ∧ Refines (pool.removeByHash hash).2 mem' ∧
      (pool.removeByHash hash).2.nextSequence = pool.nextSequence := by
  rw [OperationPool.removeByHash_eq]
  cases hfound : pool.byHash.get? hash with
  | none =>
      have hfresh := h.byHash.fresh hfound
      exact ⟨mem, (Finset.filter_true_of_mem hfresh).symm, rfl, h, rfl⟩
  | some entry =>
      obtain ⟨hmem, rfl⟩ := h.getByHash_eq_some.mp hfound
      exact ⟨mem.erase entry, Mempool.erase_eq_filter mem.hash_injOn hmem, rfl,
        h.removeInner hmem, rfl⟩

/-- Removing by id leaves exactly the entries of other ids. -/
theorem removeById (h : Refines pool mem) (id : UserOperationId) :
    ∃ mem' : Mempool, mem'.entries = mem.entries.filter (fun b => b.id ≠ id) ∧
      mem'.config = mem.config ∧ Refines (pool.removeById id).2 mem' ∧
      (pool.removeById id).2.nextSequence = pool.nextSequence := by
  rw [OperationPool.removeById_eq]
  cases hfound : pool.byId.get? id with
  | none =>
      have hfresh := h.byId.fresh hfound
      exact ⟨mem, (Finset.filter_true_of_mem hfresh).symm, rfl, h, rfl⟩
  | some entry =>
      obtain ⟨hmem, rfl⟩ := h.getById_eq_some.mp hfound
      exact ⟨mem.erase entry, Mempool.erase_eq_filter mem.id_injOn hmem, rfl,
        h.removeInner hmem, rfl⟩

end Refines

/-! ## Runs of calls -/

/-- The calls that change a pool. -/
inductive PoolCall where
  | add (uo : UserOperation) (baseFee : U128)
  | removeByHash (hash : B256)
  | removeById (id : UserOperationId)
  | clear

/-- Whether a call draws a sequence number. -/
def PoolCall.isAdd : PoolCall → Bool
  | .add _ _ => true
  | _ => false

section Runs

variable [Keccak]

/-- One call, for the pool it leaves. -/
def PoolCall.apply : PoolCall → OperationPool → OperationPool
  | .add uo baseFee, pool => (pool.add uo baseFee).2
  | .removeByHash hash, pool => (pool.removeByHash hash).2
  | .removeById id, pool => (pool.removeById id).2
  | .clear, pool => pool.clear

/-- Calls one after another. -/
def runCalls : List PoolCall → OperationPool → OperationPool
  | [], pool => pool
  | call :: calls, pool => runCalls calls (call.apply pool)

/-- No call changes the limits. -/
theorem PoolCall.config_apply (call : PoolCall) (pool : OperationPool) :
    (call.apply pool).config = pool.config := by
  have hrun {α : Type} (p : PoolProgram α) : (p.run PoolOp.perform pool).2.config = pool.config :=
    Program.run_preserves PoolOp.perform PoolOp.perform_config p pool
  cases call with
  | add uo baseFee => exact hrun _
  | removeByHash hash => exact hrun _
  | removeById id => exact hrun _
  | clear => rfl

/-- Calls do not change the configuration. -/
theorem config_runCalls (calls : List PoolCall) :
    ∀ pool : OperationPool, (runCalls calls pool).config = pool.config := by
  induction calls with
  | nil =>
      intro pool
      rfl
  | cons call calls ih =>
      intro pool
      exact (ih _).trans (call.config_apply pool)

/-- Calls may be made in two parts. -/
theorem runCalls_append (calls more : List PoolCall) :
    ∀ pool : OperationPool,
      runCalls (calls ++ more) pool = runCalls more (runCalls calls pool) := by
  induction calls with
  | nil =>
      intro pool
      rfl
  | cons call calls ih =>
      intro pool
      exact ih _

/-- One call keeps the description and draws at most one sequence number. -/
theorem Refines.apply {pool : OperationPool} {mem : Mempool} (h : Refines pool mem)
    (call : PoolCall) (hrun : call.isAdd → Refines.Running pool) :
    ∃ mem' : Mempool, mem'.config = mem.config ∧ Refines (call.apply pool) mem' ∧
      (call.apply pool).nextSequence.toNat ≤
        pool.nextSequence.toNat + if call.isAdd then 1 else 0 := by
  cases call with
  | add uo baseFee =>
      rcases h.add uo baseFee (hrun rfl) with ⟨err, hrej⟩ | ⟨mem', _, _, hcfg, href, hnext⟩
      · refine ⟨mem, rfl, ?_, ?_⟩
        · rwa [PoolCall.apply, hrej]
        · rw [PoolCall.apply, hrej]
          exact Nat.le_add_right _ _
      · exact ⟨mem', hcfg, href, hnext.le⟩
  | removeByHash hash =>
      obtain ⟨mem', _, hcfg, href, hnext⟩ := h.removeByHash hash
      exact ⟨mem', hcfg, href, by rw [PoolCall.apply, hnext]; omega⟩
  | removeById id =>
      obtain ⟨mem', _, hcfg, href, hnext⟩ := h.removeById id
      exact ⟨mem', hcfg, href, by rw [PoolCall.apply, hnext]; omega⟩
  | clear => exact ⟨Mempool.empty mem.config, rfl, h.clear, Nat.le_add_right _ _⟩

/-- Calls keep the description as long as the counter does not run out. -/
theorem Refines.run {calls : List PoolCall} :
    ∀ {pool : OperationPool} {mem : Mempool}, Refines pool mem →
      pool.nextSequence.toNat + calls.countP PoolCall.isAdd < 2 ^ 64 →
      ∃ mem' : Mempool, mem'.config = mem.config ∧ Refines (runCalls calls pool) mem' := by
  induction calls with
  | nil =>
      intro pool mem h _
      exact ⟨mem, rfl, h⟩
  | cons call calls ih =>
      intro pool mem h hadds
      rw [List.countP_cons] at hadds
      have hrun : call.isAdd → Refines.Running pool := by
        intro hadd
        rw [if_pos hadd] at hadds
        unfold Refines.Running
        omega
      obtain ⟨mem₁, hcfg₁, href₁, hnext⟩ := h.apply call hrun
      obtain ⟨mem₂, hcfg₂, href₂⟩ := ih href₁ (by omega)
      exact ⟨mem₂, hcfg₂.trans hcfg₁, href₂⟩

/-- **The four indices describe one set.**  After any calls on a new pool,
fewer than `2 ^ 64` of them additions, the containers and the counter describe
one set of operations within the configured limits. -/
theorem refines_run (config : PoolConfig) (calls : List PoolCall)
    (hadds : calls.countP PoolCall.isAdd < 2 ^ 64) :
    ∃ mem : Mempool, mem.config = config ∧
      Refines (runCalls calls (OperationPool.new config)) mem := by
  have hzero : (OperationPool.new config).nextSequence.toNat = 0 := rfl
  exact (Refines.new config).run (by omega)

/-- The pools that calls on a new pool lead to. -/
def OperationPool.Reachable (pool : OperationPool) : Prop :=
  ∃ config calls, pool = runCalls calls (OperationPool.new config)

end Runs

/-- An addition, its replacement and a removal, from the empty pool. -/
theorem refines_run_replacement :
    letI := polynomialDigest
    ∃ mem : Mempool, mem.config = PoolConfig.ofChainSpec ChainSpec.mainnet ∧
      Refines
        (runCalls
          [.add ((plainOperation 1 0 30).setContext 0xEE 1) 15,
            .add ((plainOperation 1 0 40).setContext 0xEE 1) 15,
            .removeById ⟨1, 0⟩]
          (OperationPool.new (PoolConfig.ofChainSpec ChainSpec.mainnet))) mem :=
  @refines_run polynomialDigest _ _ (by decide)

end Bunzo
