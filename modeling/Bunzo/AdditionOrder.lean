import Bunzo.PoolContents
import Bunzo.ReachableStates

/-!
# First come, first served

The best operations of a pool are the first ones of its order.  Between equal
prices the order goes by the number an entry has drawn, and the numbers rise
with every entry until the counter has come to its end.

* `PooledSince` — the call at which an entry came in.
* `Describes.next_cases` — what a call does to the counter.
* `precedes_of_cmp` — the order of the pool is by price, then by addition.
* `best_first` — what `bestOperations` returns after any calls.
-/

namespace Bunzo

open FiniteIndices MachineWords ReachableStates

/-! ## Entries and numbers -/

/-- The pool finds the entry by its hash. -/
def OperationPool.Pooled (pool : OperationPool) (e : PoolEntry) : Prop :=
  pool.getByHash e.hash = some e

instance (pool : OperationPool) (e : PoolEntry) : Decidable (pool.Pooled e) :=
  inferInstanceAs (Decidable (_ = _))

namespace Describes

variable {pool : OperationPool} {S : Finset PoolEntry} {e : PoolEntry}

theorem pooled_iff (h : Describes pool S) : pool.Pooled e ↔ e ∈ S := by
  refine (h.byHash e.hash e).trans ?_
  simp

theorem mem_ordered_iff (h : Describes pool S) : e ∈ pool.ordered.toList ↔ pool.Pooled e :=
  (h.ordered.2 e).trans h.pooled_iff.symm

/-- **One call and the counter.**  A call brings in nothing and leaves the
counter, or it brings in one entry that has the number of the counter. -/
theorem next_cases [Keccak] (h : Describes pool S) (call : PoolCall) :
    ((call.apply pool).nextSequence = pool.nextSequence ∧
      ∀ e, (call.apply pool).Pooled e → pool.Pooled e) ∨
    ((call.apply pool).nextSequence = saturatingAdd pool.nextSequence 1 ∧
      ∃ new : PoolEntry, new.sequence = pool.nextSequence ∧
        ∀ e, (call.apply pool).Pooled e → e = new ∨ pool.Pooled e) := by
  rcases h.apply_cases call with
    ⟨S', hsub, h', hsame⟩ | ⟨uo, baseFee, _, _, hnext, h', _⟩
  · refine Or.inl ⟨hsame, ?_⟩
    intro e he
    exact h.pooled_iff.mpr (hsub (h'.pooled_iff.mp he))
  · refine Or.inr ⟨hnext, PoolEntry.new uo baseFee pool.nextSequence, rfl, ?_⟩
    intro e he
    rw [h'.pooled_iff, Finset.mem_insert] at he
    exact he.imp_right (fun hin => h.pooled_iff.mpr (Finset.mem_of_mem_filter e hin))

end Describes

/-! ## When an entry came in -/

section Runs

variable [Keccak]

/-- The pool after the first `k` of the calls. -/
def poolAfter (config : PoolConfig) (calls : List PoolCall) (k : Nat) : OperationPool :=
  runCalls (calls.take k) (OperationPool.new config)

/-- The entry came in with the call of this number, and has been pooled since. -/
structure PooledSince (config : PoolConfig) (calls : List PoolCall) (e : PoolEntry) (i : Nat) :
    Prop where
  lt_length : i < calls.length
  absent : ¬ (poolAfter config calls i).Pooled e
  present : ∀ k, i < k → k ≤ calls.length → (poolAfter config calls k).Pooled e

/-- The one entry was added before the other. -/
def AddedBefore (config : PoolConfig) (calls : List PoolCall) (a b : PoolEntry) : Prop :=
  ∃ i j, PooledSince config calls a i ∧ PooledSince config calls b j ∧ i < j

variable {config : PoolConfig} {calls : List PoolCall} {a b e : PoolEntry} {i j : Nat}

theorem poolAfter_length :
    poolAfter config calls calls.length = runCalls calls (OperationPool.new config) := by
  unfold poolAfter
  rw [List.take_length]

theorem poolAfter_succ (hi : i < calls.length) :
    poolAfter config calls (i + 1) = (calls[i]).apply (poolAfter config calls i) := by
  unfold poolAfter
  rw [← List.take_append_getElem hi, runCalls_append]
  rfl

theorem describes_poolAfter (config : PoolConfig) (calls : List PoolCall) (k : Nat) :
    ∃ S, Describes (poolAfter config calls k) S :=
  describes_runCalls config (calls.take k)

/-- Every pooled entry came in with some call. -/
theorem exists_pooledSince (h : (runCalls calls (OperationPool.new config)).Pooled e) :
    ∃ i, PooledSince config calls e i := by
  have hstart : ¬ (poolAfter config calls 0).Pooled e := by
    intro hin
    have hempty : e ∈ (∅ : Finset PoolEntry) := (Describes.new config).pooled_iff.mp hin
    cases hempty
  rw [← poolAfter_length] at h
  obtain ⟨i, hlt, habsent, hpresent⟩ :=
    exists_since (p := fun k => (poolAfter config calls k).Pooled e) hstart h
  exact ⟨i, hlt, habsent, hpresent⟩

/-- The call that brings an entry in numbers it and moves the counter. -/
theorem PooledSince.numbered (h : PooledSince config calls e i) :
    e.sequence = (poolAfter config calls i).nextSequence ∧
      (poolAfter config calls (i + 1)).nextSequence =
        saturatingAdd (poolAfter config calls i).nextSequence 1 := by
  have hlt := h.lt_length
  obtain ⟨S, hS⟩ := describes_poolAfter config calls i
  have hin := h.present (i + 1) (Nat.lt_succ_self i) hlt
  rw [poolAfter_succ hlt] at hin ⊢
  rcases hS.next_cases calls[i] with ⟨_, hold⟩ | ⟨hnext, new, hnumber, hnew⟩
  · exact absurd (hold e hin) h.absent
  · obtain rfl := (hnew e hin).resolve_right h.absent
    exact ⟨hnumber, hnext⟩

/-- A call brings in one entry at most. -/
theorem PooledSince.eq (ha : PooledSince config calls a i) (hb : PooledSince config calls b i) :
    a = b := by
  have hlt := ha.lt_length
  obtain ⟨S, hS⟩ := describes_poolAfter config calls i
  have hina := ha.present (i + 1) (Nat.lt_succ_self i) hlt
  have hinb := hb.present (i + 1) (Nat.lt_succ_self i) hlt
  rw [poolAfter_succ hlt] at hina hinb
  rcases hS.next_cases calls[i] with ⟨_, hold⟩ | ⟨_, new, _, hnew⟩
  · exact absurd (hold a hina) ha.absent
  · have hanew := (hnew a hina).resolve_right ha.absent
    have hbnew := (hnew b hinb).resolve_right hb.absent
    exact hanew.trans hbnew.symm

/-! ## The counter along a run -/

/-- A call moves the counter up by one at most, and never back. -/
theorem nextSequence_poolAfter_succ (config : PoolConfig) (calls : List PoolCall) (k : Nat) :
    (poolAfter config calls k).nextSequence.toNat ≤
        (poolAfter config calls (k + 1)).nextSequence.toNat ∧
      (poolAfter config calls (k + 1)).nextSequence.toNat ≤
        (poolAfter config calls k).nextSequence.toNat + 1 := by
  by_cases hk : k < calls.length
  · obtain ⟨S, hS⟩ := describes_poolAfter config calls k
    have hlt := (poolAfter config calls k).nextSequence.isLt
    rw [poolAfter_succ hk]
    rcases hS.next_cases calls[k] with ⟨hsame, _⟩ | ⟨hnext, _⟩
    · rw [hsame]
      omega
    · rw [hnext, toNat_saturatingAdd]
      change _ ≤ min (_ + 1) _ ∧ min (_ + 1) _ ≤ _
      omega
  · unfold poolAfter
    rw [List.take_of_length_le (by omega), List.take_of_length_le (by omega)]
    omega

theorem nextSequence_mono : Monotone (fun k => (poolAfter config calls k).nextSequence.toNat) :=
  monotone_nat_of_le_succ (fun k => (nextSequence_poolAfter_succ config calls k).1)

theorem nextSequence_le (config : PoolConfig) (calls : List PoolCall) (k : Nat) :
    (poolAfter config calls k).nextSequence.toNat ≤ k := by
  induction k with
  | zero => exact Nat.le_refl 0
  | succ k ih =>
      have hstep := (nextSequence_poolAfter_succ config calls k).2
      omega

/-- Later entries have higher numbers until the counter has come to its end. -/
theorem PooledSince.sequence_lt (ha : PooledSince config calls a i)
    (hb : PooledSince config calls b j) (hij : i < j) :
    a.sequence.toNat < b.sequence.toNat ∨
      (a.sequence.toNat = 2 ^ 64 - 1 ∧ b.sequence.toNat = 2 ^ 64 - 1) := by
  obtain ⟨hanumber, hanext⟩ := ha.numbered
  have hmono : (poolAfter config calls (i + 1)).nextSequence.toNat ≤
      (poolAfter config calls j).nextSequence.toNat := nextSequence_mono hij
  rw [hanext, ← hanumber, ← hb.numbered.1, toNat_saturatingAdd] at hmono
  change min (_ + 1) _ ≤ _ at hmono
  have hblt := b.sequence.isLt
  omega

/-! ## Price, then addition -/

/-- A higher price, or the same price and an earlier addition.  Only entries whose
numbers are both the last one the counter has are told apart by their hashes. -/
def Precedes (config : PoolConfig) (calls : List PoolCall) (a b : PoolEntry) : Prop :=
  b.submitGasPrice ≤ a.submitGasPrice ∧
    (a.submitGasPrice = b.submitGasPrice → AddedBefore config calls a b ∨
      (2 ^ 64 < calls.length ∧ a.sequence = BitVec.allOnes 64 ∧ b.sequence = BitVec.allOnes 64 ∧
        a.hash < b.hash))

omit [Keccak] in
/-- What the comparison of entries says. -/
theorem OrderEntry.cmp_eq_lt : OrderEntry.cmp a b = .lt ↔
    b.submitGasPrice < a.submitGasPrice ∨
      (a.submitGasPrice = b.submitGasPrice ∧
        (a.sequence < b.sequence ∨ (a.sequence = b.sequence ∧ a.hash < b.hash))) := by
  have hlt {w : Nat} (x y : BitVec w) : compare x y = .lt ↔ x < y := compareOfLessAndEq_eq_lt
  unfold OrderEntry.cmp
  rw [Ordering.then_eq_lt, Ordering.then_eq_lt, Ordering.then_eq_eq, hlt, hlt, hlt,
    Std.LawfulEqCmp.compare_eq_iff_eq, Std.LawfulEqCmp.compare_eq_iff_eq, or_assoc, and_assoc,
    ← and_or_left, eq_comm (a := b.submitGasPrice)]

/-- **The order of a pool.**  It is by price, then by addition. -/
theorem precedes_of_cmp (ha : (runCalls calls (OperationPool.new config)).Pooled a)
    (hb : (runCalls calls (OperationPool.new config)).Pooled b)
    (hcmp : OrderEntry.cmp a b = .lt) : Precedes config calls a b := by
  rw [OrderEntry.cmp_eq_lt] at hcmp
  rcases hcmp with hprice | ⟨hprice, horder⟩
  · refine ⟨BitVec.le_of_lt hprice, ?_⟩
    intro heq
    rw [heq] at hprice
    exact absurd hprice (BitVec.lt_irrefl _)
  · refine ⟨hprice ▸ BitVec.le_refl _, fun _ => ?_⟩
    obtain ⟨i, hi⟩ := exists_pooledSince ha
    obtain ⟨j, hj⟩ := exists_pooledSince hb
    rcases horder with hlt | ⟨hsame, hhash⟩
    · rw [BitVec.lt_def] at hlt
      rcases Nat.lt_trichotomy i j with hij | rfl | hji
      · exact Or.inl ⟨i, j, hi, hj, hij⟩
      · rw [hi.eq hj] at hlt
        omega
      · have hnumbers := hj.sequence_lt hi hji
        omega
    · right
      have hends : 2 ^ 64 < calls.length ∧ a.sequence.toNat = 2 ^ 64 - 1 := by
        have hi64 := nextSequence_le config calls i
        have hj64 := nextSequence_le config calls j
        rw [← hi.numbered.1] at hi64
        rw [← hj.numbered.1, ← hsame] at hj64
        have hilt := hi.lt_length
        have hjlt := hj.lt_length
        rcases Nat.lt_trichotomy i j with hij | rfl | hji
        · have hnumbers := hi.sequence_lt hj hij
          rw [← hsame] at hnumbers
          omega
        · rw [hi.eq hj] at hhash
          exact absurd hhash (BitVec.lt_irrefl _)
        · have hnumbers := hj.sequence_lt hi hji
          rw [← hsame] at hnumbers
          omega
      have hlast : a.sequence = BitVec.allOnes 64 := by
        apply BitVec.eq_of_toNat_eq
        rw [hends.2, BitVec.toNat_allOnes]
      exact ⟨hends.1, hlast, hsame ▸ hlast, hhash⟩

/-! ## The best operations -/

/-- The best operations are the first pooled entries, each of them once. -/
structure BestFirst (config : PoolConfig) (calls : List PoolCall) (n : Nat) : Prop where
  length_eq : ((runCalls calls (OperationPool.new config)).bestOperations n).length =
    min n (runCalls calls (OperationPool.new config)).size
  nodup : ((runCalls calls (OperationPool.new config)).bestOperations n).Nodup
  pooled : ∀ e ∈ (runCalls calls (OperationPool.new config)).bestOperations n,
    (runCalls calls (OperationPool.new config)).Pooled e
  ordered : ((runCalls calls (OperationPool.new config)).bestOperations n).Pairwise
    (Precedes config calls)
  leaves : ∀ e, (runCalls calls (OperationPool.new config)).Pooled e →
    e ∉ (runCalls calls (OperationPool.new config)).bestOperations n →
    ∀ b ∈ (runCalls calls (OperationPool.new config)).bestOperations n, Precedes config calls b e

theorem bestFirst (config : PoolConfig) (calls : List PoolCall) (n : Nat) :
    BestFirst config calls n := by
  obtain ⟨S, h⟩ := describes_runCalls config calls
  have hpooled : ∀ e ∈ (runCalls calls (OperationPool.new config)).bestOperations n,
      (runCalls calls (OperationPool.new config)).Pooled e :=
    fun e he => h.mem_ordered_iff.mp (List.mem_of_mem_take he)
  refine ⟨?_, ?_, hpooled, ?_, ?_⟩
  · unfold OperationPool.bestOperations
    rw [List.length_take, h.ordered.length_eq_card]
    exact congrArg (min n) h.byHash.size_eq_card.symm
  · exact h.ordered.1.sublist (List.take_sublist _ _)
  · have hsorted : ((runCalls calls (OperationPool.new config)).bestOperations n).Pairwise
        (fun a b => OrderEntry.cmp a b = .lt) := sorted_toList.sublist (List.take_sublist _ _)
    refine (pairwise_iff_of_sorted hsorted).mpr ?_
    intro a ha b hb hcmp
    exact precedes_of_cmp (hpooled a ha) (hpooled b hb) hcmp
  · intro e he hout b hb
    exact precedes_of_cmp (hpooled b hb) he
      (ord_of_notMem_take (h.mem_ordered_iff.mpr he) hout hb)

/-- The call takes the entry out of the pool. -/
def Removes (pool : OperationPool) (e : PoolEntry) : PoolCall → Prop
  | .removeByHash hash => (pool.removeByHash hash).1 = some e
  | .removeById id => (pool.removeById id).1 = some e
  | .clear => pool.Pooled e
  | .add uo baseFee => pool.getById uo.id = some e ∧ (pool.add uo baseFee).1 = .ok uo.hash

/-- With a removed entry its hash has gone. -/
theorem Describes.removes {pool : OperationPool} {S : Finset PoolEntry} (h : Describes pool S)
    {call : PoolCall} (hremoves : Removes pool e call) :
    ∃ S', Describes (call.apply pool) S' ∧ ∀ b ∈ S', b.hash ≠ e.hash := by
  cases call with
  | removeByHash hash =>
      refine ⟨_, h.removeByHash hash, ?_⟩
      have hfound : pool.byHash.get? hash = some e := by
        rw [Removes, OperationPool.removeByHash_eq] at hremoves
        split at hremoves
        · cases hremoves
        · next entry hget => rwa [hget]
      rw [((h.byHash hash e).mp hfound).2]
      exact fun b hb => (Finset.mem_filter.mp hb).2
  | removeById id =>
      refine ⟨_, h.removeById id, ?_⟩
      have hfound : pool.byId.get? id = some e := by
        rw [Removes, OperationPool.removeById_eq] at hremoves
        split at hremoves
        · cases hremoves
        · next entry hget => rwa [hget]
      obtain ⟨hin, rfl⟩ := (h.byId id e).mp hfound
      intro b hb hhash
      obtain ⟨hbin, hid⟩ := Finset.mem_filter.mp hb
      exact hid (congrArg PoolEntry.id (h.byHash.key_injOn hbin hin hhash))
  | clear => exact ⟨∅, Describes.clear pool, by simp⟩
  | add uo baseFee =>
      obtain ⟨hpooled, hok⟩ := hremoves
      change pool.byId.get? uo.id = some e at hpooled
      rcases h.add_outcomes uo baseFee with
        ⟨_, err, hrej⟩ | ⟨_, hnone, _⟩ | ⟨haccepted, old, hold, hfound, _, hadd, hafter⟩
      · rw [hrej] at hok
        cases hok
      · cases hnone.symm.trans hpooled
      · obtain rfl := Option.some.inj (hpooled.symm.trans hfound)
        rw [PoolCall.apply, hadd]
        refine ⟨_, hafter, ?_⟩
        -- an accepted operation has a hash that was not pooled
        have hknown : ¬ pool.byHash.contains uo.hash := fun hknown => haccepted (Or.inl hknown)
        intro b hb hhash
        rcases Finset.mem_insert.mp hb with rfl | hb
        · exact h.hash_fresh hknown e hold hhash.symm
        · exact h.byHash.free_of_erase hold b hb hhash

/-- **The best operations**, after any calls: the first pooled entries by price
and addition; and a removed entry does not come back unless an operation with its
hash is added. -/
theorem best_first (config : PoolConfig) (calls : List PoolCall) :
    (∀ n, BestFirst config calls n) ∧
    ∀ (e : PoolEntry) (call : PoolCall),
      Removes (runCalls calls (OperationPool.new config)) e call →
      ∀ more : List PoolCall, (∀ uo baseFee, .add uo baseFee ∈ more → uo.hash ≠ e.hash) →
      ∀ n, ∀ b ∈ (runCalls (calls ++ call :: more) (OperationPool.new config)).bestOperations n,
        b.hash ≠ e.hash := by
  refine ⟨bestFirst config calls, ?_⟩
  intro e call hremoves more hmore n b hb
  obtain ⟨S, h⟩ := describes_runCalls config calls
  obtain ⟨S', h', hgone⟩ := h.removes hremoves
  obtain ⟨S'', h'', hlacks⟩ := describes_forall (P := fun b => b.hash ≠ e.hash) h' hgone
    (fun uo baseFee hadd _ => hmore uo baseFee hadd)
  rw [runCalls_append] at hb
  exact hlacks b ((h''.ordered.2 b).mp (List.mem_of_mem_take hb))

end Runs

/-- An operation is added and removed; another one of its sender comes after. -/
theorem best_first_removed :
    letI := polynomialDigest
    let removed := PoolEntry.new (plainOperation 1 0 30000000000) 15000000000 0
    ∀ b ∈ (runCalls [.add (plainOperation 1 0 30000000000) 15000000000,
        .removeById ⟨1, 0⟩, .add (plainOperation 1 1 30000000000) 15000000000]
        (OperationPool.new (PoolConfig.ofChainSpec ChainSpec.mainnet))).bestOperations 5,
      b.hash ≠ removed.hash := by
  let _ := polynomialDigest
  intro removed
  refine (best_first (PoolConfig.ofChainSpec ChainSpec.mainnet)
    [.add (plainOperation 1 0 30000000000) 15000000000]).2 removed (.removeById ⟨1, 0⟩) ?_
    [.add (plainOperation 1 1 30000000000) 15000000000] ?_ 5
  · unfold Removes
    decide +kernel
  · intro uo baseFee hadd
    rw [List.mem_singleton, PoolCall.add.injEq] at hadd
    rw [hadd.1]
    decide +kernel

/-! ## At the end of the counter -/

section Ties

variable [Keccak] (config : PoolConfig) (uo : UserOperation) (baseFee : U128)

/-- A pool without operations whose counter stands at a given number. -/
def emptyAt (sequence : U64) : OperationPool :=
  { OperationPool.new config with nextSequence := sequence }

/-- Adding an operation and clearing the pool, several times. -/
def refills (n : Nat) : List PoolCall :=
  (List.replicate n [PoolCall.add uo baseFee, .clear]).flatten

variable {config} in
theorem runCalls_refill (hsender : 0 < config.maxOpsPerSender) (hsize : 0 < config.maxSize)
    (sequence : U64) :
    runCalls [.add uo baseFee, .clear] (emptyAt config sequence) =
      emptyAt config (saturatingAdd sequence 1) := by
  have hadd : (emptyAt config sequence).add uo baseFee =
      (emptyAt config sequence).accept uo baseFee := by
    rw [OperationPool.add_eq]
    rfl
  have haccept : (emptyAt config sequence).accept uo baseFee =
      (.ok uo.hash, (emptyAt config sequence).insertEntry (PoolEntry.new uo baseFee sequence)) := by
    have hcount : ¬ config.maxOpsPerSender ≤ 0 := by omega
    have hroom : ¬ config.maxSize ≤ 0 := by omega
    exact (if_neg hcount).trans (if_neg hroom)
  change PoolCall.clear.apply ((emptyAt config sequence).add uo baseFee).2 = _
  rw [hadd, haccept]
  rfl

variable {config} in
theorem runCalls_refills (hsender : 0 < config.maxOpsPerSender) (hsize : 0 < config.maxSize)
    (n : Nat) : ∃ sequence : U64, sequence.toNat = min n (2 ^ 64 - 1) ∧
      runCalls (refills uo baseFee n) (OperationPool.new config) = emptyAt config sequence := by
  induction n with
  | zero => exact ⟨0, rfl, rfl⟩
  | succ n ih =>
      obtain ⟨sequence, hnumber, hrun⟩ := ih
      refine ⟨saturatingAdd sequence 1, ?_, ?_⟩
      · rw [toNat_saturatingAdd, hnumber]
        change min (min n (2 ^ 64 - 1) + 1) (2 ^ 64 - 1) = min (n + 1) (2 ^ 64 - 1)
        omega
      · have hsplit : refills uo baseFee (n + 1) =
            refills uo baseFee n ++ [.add uo baseFee, .clear] := by
          unfold refills
          rw [List.replicate_succ', List.flatten_append, List.flatten_singleton]
        rw [hsplit, runCalls_append, hrun, runCalls_refill uo baseFee hsender hsize]

theorem poolAfter_append (first rest : List PoolCall) (k : Nat) :
    poolAfter config (first ++ rest) (first.length + k) =
      runCalls (rest.take k) (runCalls first (OperationPool.new config)) := by
  unfold poolAfter
  rw [List.take_length_add_append, runCalls_append]

end Ties

/-- Two operations that pay the same. -/
def equalPrices (sender : Address) : UserOperation :=
  letI := polynomialDigest
  (plainOperation sender 0 30000000000).setContext ChainSpec.mainnet.entryPointV07 1

/-- The pool of the mainnet configuration is filled and cleared `n` times, then
two operations that pay the same are added. -/
def lateTies (n : Nat) : List PoolCall :=
  refills (equalPrices 1) 15000000000 n ++
    [.add (equalPrices 2) 15000000000, .add (equalPrices 1) 15000000000]

/-- The entry of one of them, with the last number of the counter. -/
def lateEntry (sender : Address) : PoolEntry :=
  letI := polynomialDigest
  PoolEntry.new (equalPrices sender) 15000000000 (BitVec.allOnes 64)

theorem addedBefore_lateTies {n : Nat} (hn : 2 ^ 64 - 1 ≤ n) :
    letI := polynomialDigest
    AddedBefore (PoolConfig.ofChainSpec ChainSpec.mainnet) (lateTies n) (lateEntry 2)
        (lateEntry 1) ∧
      (runCalls (lateTies n) (OperationPool.new (PoolConfig.ofChainSpec
        ChainSpec.mainnet))).bestOperations 2 = [lateEntry 1, lateEntry 2] := by
  let _ := polynomialDigest
  obtain ⟨sequence, hnumber, hrun⟩ := runCalls_refills (equalPrices 1) 15000000000
    (by decide : 0 < (PoolConfig.ofChainSpec ChainSpec.mainnet).maxOpsPerSender) (by decide) n
  obtain rfl : sequence = BitVec.allOnes 64 := by
    apply BitVec.eq_of_toNat_eq
    rw [hnumber, BitVec.toNat_allOnes]
    omega
  have hafter (k : Nat) : poolAfter (PoolConfig.ofChainSpec ChainSpec.mainnet) (lateTies n)
      ((refills (equalPrices 1) 15000000000 n).length + k) = _ :=
    (poolAfter_append _ _ _ k).trans (congrArg _ hrun)
  have hlength : (lateTies n).length =
      (refills (equalPrices 1) 15000000000 n).length + 2 := List.length_append
  have hlast := hafter 2
  rw [← hlength, poolAfter_length] at hlast
  refine ⟨⟨(refills (equalPrices 1) 15000000000 n).length + 0,
    (refills (equalPrices 1) 15000000000 n).length + 1, ?_, ?_, by omega⟩, ?_⟩
  · refine ⟨by omega, ?_, ?_⟩
    · rw [hafter]
      decide +kernel
    · intro k hlt hle
      obtain rfl | rfl : k = (refills (equalPrices 1) 15000000000 n).length + 1 ∨
          k = (refills (equalPrices 1) 15000000000 n).length + 2 := by omega
      · rw [hafter]
        decide +kernel
      · rw [hafter]
        decide +kernel
  · refine ⟨by omega, ?_, ?_⟩
    · rw [hafter]
      decide +kernel
    · intro k hlt hle
      obtain rfl : k = (refills (equalPrices 1) 15000000000 n).length + 2 := by omega
      rw [hafter]
      decide +kernel
  · rw [hlast]
    decide +kernel

/-- After `2 ^ 64 - 1` additions the counter stands still, and the operation with
the lower hash goes first although it was added later. -/
theorem lateTies_by_hash :
    letI := polynomialDigest
    (lateEntry 1).submitGasPrice = (lateEntry 2).submitGasPrice ∧
      AddedBefore (PoolConfig.ofChainSpec ChainSpec.mainnet) (lateTies (2 ^ 64 - 1)) (lateEntry 2)
        (lateEntry 1) ∧
      (runCalls (lateTies (2 ^ 64 - 1)) (OperationPool.new (PoolConfig.ofChainSpec
        ChainSpec.mainnet))).bestOperations 2 = [lateEntry 1, lateEntry 2] :=
  ⟨rfl, addedBefore_lateTies (Nat.le_refl _)⟩

end Bunzo
