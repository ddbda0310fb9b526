import Bunzo.PoolContents

/-!
# The pooled sequence numbers of a sender

A nonce is a key and a sequence number.  Validation lets an operation in if it
replaces a pooled one or continues the largest pooled sequence of its sender and
key; a removal takes out whatever it is asked for.

* `Contiguous` — the sequence numbers of each sender and key have no gap.
* `noncesInOrder_of_reachable` — there is no gap, and `maxSeq + 1` does not
  overflow, on runs on which removals take the first or the last operation of a
  key and no operation with the largest sequence number is let in.
* `nonces_out_of_order` — three operations, of which the middle one is removed,
  and an operation after which the sum overflows.
-/

namespace Bunzo

open MachineWords ReachableStates

/-! ## Keys and sequence numbers -/

namespace UserOperationId

/-- A nonce is its key and its sequence number, side by side. -/
theorem nonce_eq (id : UserOperationId) :
    id.nonce.toNat = id.nonceKey.toNat * 2 ^ 64 + id.nonceSequence.toNat := by
  have hmask : (0xffffffffffffffff : U256).toNat = 2 ^ 64 - 1 := rfl
  have hkey : id.nonceKey.toNat = id.nonce.toNat / 2 ^ 64 := by
    rw [nonceKey, BitVec.toNat_ushiftRight, Nat.shiftRight_eq_div_pow]
  have hseq : id.nonceSequence.toNat = id.nonce.toNat % 2 ^ 64 := by
    rw [nonceSequence, BitVec.toNat_setWidth, BitVec.toNat_and, hmask,
      Nat.and_two_pow_sub_one_eq_mod, Nat.mod_mod]
  rw [hkey, hseq]
  omega

/-- Sender, key and sequence number make up the id. -/
theorem ext_of_parts {a b : UserOperationId} (hsender : a.sender = b.sender)
    (hkey : a.nonceKey = b.nonceKey) (hseq : a.nonceSequence = b.nonceSequence) : a = b := by
  have hnonce : a.nonce = b.nonce := by
    apply BitVec.eq_of_toNat_eq
    rw [a.nonce_eq, b.nonce_eq, hkey, hseq]
  cases a
  cases b
  simp only at hsender hnonce
  rw [hsender, hnonce]

end UserOperationId

section Intervals

variable {ids : Set UserOperationId} {id : UserOperationId} {sender : Address} {key : U256}

/-- The ids of one sender and key. -/
def lane (ids : Set UserOperationId) (sender : Address) (key : U256) : Set UserOperationId :=
  {id ∈ ids | id.sender = sender ∧ id.nonceKey = key}

/-- Their sequence numbers. -/
def sequences (ids : Set UserOperationId) (sender : Address) (key : U256) : Set Nat :=
  (fun id : UserOperationId => id.nonceSequence.toNat) '' lane ids sender key

/-- The sequence numbers of each sender and key have no gap. -/
def Contiguous (ids : Set UserOperationId) : Prop :=
  ∀ sender key, (sequences ids sender key).OrdConnected

/-- The id, if it is there, is the first or the last one of its sender and key. -/
def AtEnd (ids : Set UserOperationId) (id : UserOperationId) : Prop :=
  id ∈ ids →
    id.nonceSequence.toNat ∈ lowerBounds (sequences ids id.sender id.nonceKey) ∨
    id.nonceSequence.toNat ∈ upperBounds (sequences ids id.sender id.nonceKey)

/-- The id begins the sequence of its sender and key, or continues it. -/
def Continues (ids : Set UserOperationId) (id : UserOperationId) : Prop :=
  sequences ids id.sender id.nonceKey = ∅ ∨
    ∃ m, IsGreatest (sequences ids id.sender id.nonceKey) m ∧ id.nonceSequence.toNat = m + 1

/-- A number of the lane is that of an id in it. -/
theorem mem_sequences {n : Nat} : n ∈ sequences ids sender key ↔
    ∃ id ∈ ids, id.sender = sender ∧ id.nonceKey = key ∧ id.nonceSequence.toNat = n := by
  simp only [sequences, lane, Set.mem_image, Set.mem_ofPred_eq, and_assoc]

/-- Every id has its number in its own lane. -/
theorem mem_sequences_self (h : id ∈ ids) :
    id.nonceSequence.toNat ∈ sequences ids id.sender id.nonceKey :=
  mem_sequences.mpr ⟨id, h, rfl, rfl, rfl⟩

/-- A new id adds its number to its own lane. -/
theorem sequences_insert_self : sequences (insert id ids) id.sender id.nonceKey =
    insert id.nonceSequence.toNat (sequences ids id.sender id.nonceKey) := by
  ext n
  simp only [mem_sequences, Set.mem_insert_iff, exists_eq_or_imp, true_and]
  rw [eq_comm]

/-- And nothing to any other. -/
theorem sequences_insert_other (hother : ¬ (id.sender = sender ∧ id.nonceKey = key)) :
    sequences (insert id ids) sender key = sequences ids sender key := by
  ext n
  simp only [mem_sequences, Set.mem_insert_iff, exists_eq_or_imp]
  refine ⟨?_, ?_⟩
  · intro h
    rcases h with ⟨hs, hk, _⟩ | h
    · exact absurd ⟨hs, hk⟩ hother
    · exact h
  · exact Or.inr

/-- A removed id takes its number out of its own lane. -/
theorem sequences_diff_self : sequences (ids \ {id}) id.sender id.nonceKey =
    sequences ids id.sender id.nonceKey \ {id.nonceSequence.toNat} := by
  ext n
  simp only [mem_sequences, Set.mem_sdiff, Set.mem_singleton_iff]
  refine ⟨?_, ?_⟩
  · intro h
    obtain ⟨id', ⟨hmem, hne⟩, hs, hk, rfl⟩ := h
    refine ⟨⟨id', hmem, hs, hk, rfl⟩, ?_⟩
    intro hseq
    exact hne (UserOperationId.ext_of_parts hs hk (BitVec.eq_of_toNat_eq hseq))
  · intro h
    obtain ⟨⟨id', hmem, hs, hk, rfl⟩, hne⟩ := h
    refine ⟨id', ⟨hmem, ?_⟩, hs, hk, rfl⟩
    intro heq
    exact hne (by rw [heq])

/-- And nothing out of any other. -/
theorem sequences_diff_other (hother : ¬ (id.sender = sender ∧ id.nonceKey = key)) :
    sequences (ids \ {id}) sender key = sequences ids sender key := by
  ext n
  simp only [mem_sequences, Set.mem_sdiff, Set.mem_singleton_iff]
  refine ⟨?_, ?_⟩
  · intro h
    obtain ⟨id', ⟨hmem, _⟩, h⟩ := h
    exact ⟨id', hmem, h⟩
  · intro h
    obtain ⟨id', hmem, hs, hk, hn⟩ := h
    refine ⟨id', ⟨hmem, ?_⟩, hs, hk, hn⟩
    intro heq
    subst heq
    exact hother ⟨hs, hk⟩

/-- One past the end of an interval belongs to a longer interval. -/
theorem ordConnected_insert_succ {S : Set Nat} (h : S.OrdConnected) {m : Nat}
    (hm : IsGreatest S m) : (insert (m + 1) S).OrdConnected := by
  rw [Set.ordConnected_iff]
  intro a ha b hb _ n hn
  obtain ⟨hna, hnb⟩ := Set.mem_Icc.mp hn
  by_cases hlast : n = m + 1
  · exact Or.inl hlast
  · right
    have hle : n ≤ m := by
      rcases hb with rfl | hb
      · omega
      · exact hnb.trans (hm.2 hb)
    rcases ha with rfl | ha
    · omega
    · exact h.out ha hm.1 ⟨hna, hle⟩

/-- An interval without one of its ends is an interval. -/
theorem ordConnected_diff_end {S : Set Nat} (h : S.OrdConnected) {n : Nat}
    (hend : n ∈ lowerBounds S ∨ n ∈ upperBounds S) : (S \ {n}).OrdConnected := by
  rcases hend with hlow | hup
  · have heq : S \ {n} = S ∩ Set.Ioi n := by
      ext k
      rw [Set.mem_sdiff, Set.mem_singleton_iff, Set.mem_inter_iff, Set.mem_Ioi]
      exact and_congr_right (fun hk => (hlow hk).lt_iff_ne'.symm)
    rw [heq]
    exact h.inter Set.ordConnected_Ioi
  · have heq : S \ {n} = S ∩ Set.Iio n := by
      ext k
      rw [Set.mem_sdiff, Set.mem_singleton_iff, Set.mem_inter_iff, Set.mem_Iio]
      exact and_congr_right (fun hk => (hup hk).lt_iff_ne.symm)
    rw [heq]
    exact h.inter Set.ordConnected_Iio

/-- Without ids there is no gap. -/
theorem contiguous_empty : Contiguous ∅ := by
  intro sender key
  have hempty : sequences ∅ sender key = ∅ := by simp [sequences, lane]
  rw [hempty]
  exact Set.ordConnected_empty

/-- An operation that continues its sequence leaves no gap. -/
theorem Contiguous.insert (h : Contiguous ids) (hcont : Continues ids id) :
    Contiguous (insert id ids) := by
  intro sender key
  by_cases hlane : id.sender = sender ∧ id.nonceKey = key
  · obtain ⟨rfl, rfl⟩ := hlane
    rw [sequences_insert_self]
    rcases hcont with hnone | ⟨m, hm, hseq⟩
    · rw [hnone, insert_empty_eq]
      exact Set.ordConnected_singleton
    · rw [hseq]
      exact ordConnected_insert_succ (h _ _) hm
  · rw [sequences_insert_other hlane]
    exact h sender key

/-- A removal at an end leaves no gap. -/
theorem Contiguous.diff (h : Contiguous ids) (hend : AtEnd ids id) : Contiguous (ids \ {id}) := by
  by_cases hmem : id ∈ ids
  · intro sender key
    by_cases hlane : id.sender = sender ∧ id.nonceKey = key
    · obtain ⟨rfl, rfl⟩ := hlane
      rw [sequences_diff_self]
      exact ordConnected_diff_end (h _ _) (hend hmem)
    · rw [sequences_diff_other hlane]
      exact h sender key
  · rw [Set.sdiff_singleton_eq_self hmem]
    exact h

end Intervals

/-! ## What the pool says about them -/

namespace OperationPool

variable {pool : OperationPool}

/-- The larger of two words is one of them and bounds both. -/
theorem max_bounds (a b : U64) :
    a.toNat ≤ (max a b).toNat ∧ b.toNat ≤ (max a b).toNat ∧ (max a b = a ∨ max a b = b) := by
  change a.toNat ≤ (if a ≤ b then b else a).toNat ∧ b.toNat ≤ (if a ≤ b then b else a).toNat ∧
    ((if a ≤ b then b else a) = a ∨ (if a ≤ b then b else a) = b)
  split
  · next hle => exact ⟨BitVec.le_def.mp hle, le_refl _, Or.inr rfl⟩
  · next hlt =>
      rw [BitVec.le_def] at hlt
      exact ⟨le_refl _, by omega, Or.inl rfl⟩

/-- A running maximum is one of the words and bounds them all. -/
theorem largest_of_foldl {words : List U64} : ∀ {acc : Option U64} {m : U64},
    words.foldl (fun acc s => some (match acc with | none => s | some m => max m s)) acc = some m →
      (m ∈ words ∨ acc = some m) ∧ (∀ s ∈ words, s.toNat ≤ m.toNat) ∧
        ∀ a, acc = some a → a.toNat ≤ m.toNat := by
  induction words with
  | nil =>
      intro acc m h
      refine ⟨Or.inr h, by simp, ?_⟩
      intro a ha
      rw [Option.some.inj (ha.symm.trans h)]
  | cons word words ih =>
      intro acc m h
      obtain ⟨hmem, hle, hacc⟩ := ih h
      have hhead := hacc _ rfl
      cases acc with
      | none =>
          refine ⟨Or.inl ?_, ?_, by simp⟩
          · rcases hmem with hmem | hmem
            · exact List.mem_cons_of_mem _ hmem
            · rw [← Option.some.inj hmem]
              exact List.mem_cons_self
          · intro s hs
            rcases List.mem_cons.mp hs with rfl | hs
            · exact hhead
            · exact hle s hs
      | some a =>
          obtain ⟨hleft, hright, hmax⟩ := max_bounds a word
          refine ⟨?_, ?_, ?_⟩
          · rcases hmem with hmem | hmem
            · exact Or.inl (List.mem_cons_of_mem _ hmem)
            · have hm : max a word = m := Option.some.inj hmem
              rcases hmax with hmax | hmax
              · exact Or.inr (congrArg some (hmax.symm.trans hm))
              · left
                rw [← hm, hmax]
                exact List.mem_cons_self
          · intro s hs
            rcases List.mem_cons.mp hs with rfl | hs
            · exact hright.trans hhead
            · exact hle s hs
          · intro a' ha
            rw [← Option.some.inj ha]
            exact hleft.trans hhead

/-- A fold over words finds none only if there is none. -/
theorem foldl_eq_none {words : List U64} : ∀ {acc : Option U64},
    words.foldl (fun acc s => some (match acc with | none => s | some m => max m s)) acc = none →
      words = [] := by
  induction words with
  | nil =>
      intro acc _
      rfl
  | cons word words ih =>
      intro acc h
      have hrest := ih h
      subst hrest
      cases h

/-- The words among which the largest is looked for. -/
theorem mem_laneWords {sender : Address} {key : U256} {n : Nat} :
    n ∈ sequences pool.ids sender key ↔
      ∃ s ∈ (pool.byId.keys.filter (fun id => id.sender = sender ∧ id.nonceKey = key)).map
        UserOperationId.nonceSequence, s.toNat = n := by
  simp only [mem_sequences, mem_ids, List.mem_map, List.mem_filter, Std.ExtTreeMap.mem_keys,
    decide_eq_true_eq]
  refine ⟨?_, ?_⟩
  · intro h
    obtain ⟨id, hmem, hs, hk, hn⟩ := h
    exact ⟨id.nonceSequence, ⟨id, ⟨hmem, hs, hk⟩, rfl⟩, hn⟩
  · intro h
    obtain ⟨_, ⟨id, ⟨hmem, hs, hk⟩, rfl⟩, hn⟩ := h
    exact ⟨id, hmem, hs, hk, hn⟩

/-- If the pool names no sequence number, the lane is empty. -/
theorem maxNonceSequence_eq_none {sender : Address} {key : U256}
    (h : pool.maxNonceSequence sender key = none) : sequences pool.ids sender key = ∅ := by
  have hwords := foldl_eq_none h
  rw [Set.eq_empty_iff_forall_notMem]
  intro n hn
  obtain ⟨s, hs, _⟩ := mem_laneWords.mp hn
  rw [hwords] at hs
  cases hs

/-- The number that the pool names is the largest of the lane. -/
theorem maxNonceSequence_eq_some {sender : Address} {key : U256} {m : U64}
    (h : pool.maxNonceSequence sender key = some m) :
    IsGreatest (sequences pool.ids sender key) m.toNat := by
  obtain ⟨hmem, hle, _⟩ := largest_of_foldl h
  refine ⟨?_, ?_⟩
  · rcases hmem with hmem | hmem
    · exact mem_laneWords.mpr ⟨m, hmem, rfl⟩
    · cases hmem
  · intro n hn
    obtain ⟨s, hs, rfl⟩ := mem_laneWords.mp hn
    exact hle s hs

end OperationPool

/-! ## Runs of requests and removals -/

namespace Validator

variable {v : Validator} {uo : UserOperation} {baseFee : U128}

/-- The sum `maxSeq + 1`, with which a nonce is compared, is too large for its
type. -/
def NonceOverflows (v : Validator) (uo : UserOperation) : Prop :=
  ∃ pool maxSeq, v.pool = some pool ∧ (pool.getById uo.id).isSome = false ∧
    pool.maxNonceSequence uo.sender uo.id.nonceKey = some maxSeq ∧ 2 ^ 64 ≤ maxSeq.toNat + 1

/-- The nonce check is one of those that a passing operation passes. -/
theorem validateNonce_of_passes (h : v.Passes uo baseFee) : v.validateNonce uo = .ok () := by
  have hfields := h.1
  unfold validateFields at hfields
  cases hstatic : v.validateStaticFields uo with
  | error e =>
      rw [hstatic] at hfields
      cases hfields
  | ok u =>
      cases hprice : v.validateGasPrice uo baseFee with
      | error e =>
          rw [hstatic, hprice] at hfields
          cases hfields
      | ok u' =>
          rw [hstatic, hprice] at hfields
          exact hfields

/-- What the nonce check lets in: a replacement, or the next of its sequence. -/
theorem continues_of_passes {pool : OperationPool} (hpool : v.pool = some pool)
    (h : v.Passes uo baseFee) (hover : ¬ v.NonceOverflows uo) :
    uo.id ∈ pool.ids ∨ Continues pool.ids uo.id := by
  have hnonce := validateNonce_of_passes h
  unfold validateNonce at hnonce
  rw [hpool] at hnonce
  by_cases hpooled : (pool.getById uo.id).isSome
  · exact Or.inl hpooled
  · right
    simp only [hpooled, Bool.false_eq_true, if_false] at hnonce
    rw [Bool.not_eq_true] at hpooled
    cases hmax : pool.maxNonceSequence uo.sender uo.id.nonceKey with
    | none => exact Or.inl (OperationPool.maxNonceSequence_eq_none hmax)
    | some maxSeq =>
        refine Or.inr ⟨maxSeq.toNat, OperationPool.maxNonceSequence_eq_some hmax, ?_⟩
        have hroom : maxSeq.toNat + 1 < 2 ^ 64 := by
          by_contra hfull
          exact hover ⟨pool, maxSeq, hpool, hpooled, hmax, not_lt.mp hfull⟩
        have hnext : uo.id.nonceSequence = maxSeq + 1 := by
          by_contra hne
          exact hne (by simpa [hmax] using hnonce)
        rw [hnext]
        exact toNat_add_of_lt hroom

end Validator

/-- A pool, and what the validator in front of it reads besides. -/
structure ServedPool where
  chainSpec : ChainSpec
  pool : OperationPool
  reputation : ReputationManager

/-- A request with the base fee of its time, a removal, an inclusion that is
recorded. -/
inductive ServedEvent where
  | request (uo : UserOperation) (baseFee : U128)
  | removeByHash (hash : B256)
  | removeById (id : UserOperationId)
  | included (a : Address)

namespace ServedPool

/-- The validator of the pool, with the counters as they are. -/
def validator (s : ServedPool) : Validator where
  chainSpec := s.chainSpec
  reputation := s.reputation
  pool := some s.pool

section Requests

variable [Keccak]

/-- Validate an operation and add it. -/
def request (s : ServedPool) (uo : UserOperation) (baseFee : U128) : ServedPool :=
  match s.validator.validateSync uo baseFee with
  | (.error _, v) => { s with reputation := v.reputation }
  | (.ok (), v) => { s with reputation := v.reputation, pool := (s.pool.add uo baseFee).2 }

/-- One event. -/
def next (s : ServedPool) : ServedEvent → ServedPool
  | .request uo baseFee => s.request uo baseFee
  | .removeByHash hash => { s with pool := (s.pool.removeByHash hash).2 }
  | .removeById id => { s with pool := (s.pool.removeById id).2 }
  | .included a => { s with reputation := s.reputation.recordIncluded a }

/-- A removal takes the first or the last operation of a sender and key, and no
operation with the largest sequence number is let in. -/
def KeepsIntervals (s : ServedPool) : ServedEvent → Prop
  | .request uo baseFee =>
      s.validator.Passes uo baseFee → ¬ s.pool.Rejects uo →
        uo.id.nonceSequence ≠ BitVec.allOnes 64
  | .removeByHash hash => ∀ entry, s.pool.getByHash hash = some entry → AtEnd s.pool.ids entry.id
  | .removeById id => AtEnd s.pool.ids id
  | .included _ => True

end Requests

/-- The pooled sequence numbers have no gap, and the nonce check overflows for
no operation. -/
structure NoncesInOrder (s : ServedPool) : Prop where
  contiguous : Contiguous s.pool.ids
  no_overflow : ∀ uo, ¬ s.validator.NonceOverflows uo

/-- What holds of the pool all the time. -/
structure Orderly (s : ServedPool) : Prop where
  describes : ∃ S, Describes s.pool S
  contiguous : Contiguous s.pool.ids
  below : ∀ id ∈ s.pool.ids, id.nonceSequence ≠ BitVec.allOnes 64

/-- Orderly lanes have no gap, and nothing to overflow. -/
theorem Orderly.inOrder {s : ServedPool} (h : Orderly s) : s.NoncesInOrder := by
  refine ⟨h.contiguous, ?_⟩
  intro uo hover
  obtain ⟨pool, maxSeq, hpool, _, hmax, hfull⟩ := hover
  cases hpool
  obtain ⟨hmem, _⟩ := OperationPool.maxNonceSequence_eq_some hmax
  obtain ⟨id, hid, _, _, hseq⟩ := mem_sequences.mp hmem
  apply h.below id hid
  apply BitVec.eq_of_toNat_eq
  have hlt := id.nonceSequence.isLt
  rw [BitVec.toNat_allOnes]
  omega

end ServedPool

section Machine

variable [Keccak]

/-- The server from an empty pool. -/
def servedMachine : Machine ServedPool ServedEvent where
  init s := ∃ config, s.pool = OperationPool.new config
  enabled _ _ := True
  next s e := s.next e

namespace ServedPool

variable {s : ServedPool}

/-- An empty pool is orderly. -/
theorem Orderly.init (h : servedMachine.init s) : Orderly s := by
  obtain ⟨config, hpool⟩ := h
  have hempty : s.pool.ids = ∅ := by
    rw [hpool, Set.eq_empty_iff_forall_notMem]
    intro id hid
    exact Std.ExtTreeMap.not_mem_empty (OperationPool.mem_ids.mp hid)
  refine ⟨⟨∅, ?_⟩, ?_, ?_⟩
  · rw [hpool]
    exact Describes.new config
  · rw [hempty]
    exact contiguous_empty
  · rw [hempty]
    intro id hid
    exact absurd hid (Set.notMem_empty id)

omit [Keccak] in
/-- An entry that the indices hold is taken out. -/
theorem Orderly.removeInner (h : Orderly s) {S : Finset PoolEntry} (hS : Describes s.pool S)
    {entry : PoolEntry} (hmem : entry ∈ S) (hend : AtEnd s.pool.ids entry.id) :
    Orderly { s with pool := s.pool.removeInner entry } where
  describes := ⟨_, hS.removeInner hmem⟩
  contiguous := by
    rw [OperationPool.ids_removeInner]
    exact h.contiguous.diff hend
  below id hid := by
    rw [OperationPool.ids_removeInner] at hid
    exact h.below id hid.1

/-- **One request** leaves the lanes without gaps, as long as it does not bring in the
largest sequence number. -/
theorem Orderly.request (h : Orderly s) {uo : UserOperation} {baseFee : U128}
    (hkeeps : s.KeepsIntervals (.request uo baseFee)) : Orderly (s.request uo baseFee) := by
  obtain ⟨S, hS⟩ := h.describes
  unfold ServedPool.request
  rcases s.validator.validateSync_cases uo baseFee with ⟨_, e, he⟩ | ⟨hpass, hok⟩
  · rw [he]
    exact ⟨h.describes, h.contiguous, h.below⟩
  · rw [hok]
    rcases hS.add_cases uo baseFee with ⟨_, err, hrej⟩ | ⟨haccepted, _, hdescribes, _, hids⟩
    · refine ⟨?_, ?_, ?_⟩
      all_goals simp only [hrej]
      · exact h.describes
      · exact h.contiguous
      · exact h.below
    · have hcont := Validator.continues_of_passes rfl hpass (h.inOrder.no_overflow uo)
      refine ⟨hdescribes, ?_, ?_⟩
      all_goals simp only [hids]
      · rcases hcont with hpooled | hcont
        · rw [Set.insert_eq_of_mem hpooled]
          exact h.contiguous
        · exact h.contiguous.insert hcont
      · intro id hid
        rcases hid with rfl | hid
        · exact hkeeps hpass haccepted
        · exact h.below id hid

/-- **One event** does so, with removals at the ends of a lane only. -/
theorem Orderly.next {e : ServedEvent} (h : Orderly s) (hkeeps : s.KeepsIntervals e) :
    Orderly (s.next e) := by
  obtain ⟨S, hS⟩ := h.describes
  cases e with
  | request uo baseFee => exact h.request hkeeps
  | included a => exact ⟨h.describes, h.contiguous, h.below⟩
  | removeByHash hash =>
      unfold ServedPool.next
      simp only [OperationPool.removeByHash_eq]
      cases hfound : s.pool.byHash.get? hash with
      | none => exact h
      | some entry =>
          exact h.removeInner hS ((hS.byHash hash entry).mp hfound).1 (hkeeps entry hfound)
  | removeById id =>
      unfold ServedPool.next
      simp only [OperationPool.removeById_eq]
      cases hfound : s.pool.byId.get? id with
      | none => exact h
      | some entry =>
          obtain ⟨hmem, rfl⟩ := (hS.byId id entry).mp hfound
          exact h.removeInner hS hmem hkeeps

/-- **No gap.**  In every state of such a run the pooled sequence numbers of
each sender and key are an interval, and the nonce check cannot overflow. -/
theorem noncesInOrder_of_reachable (h : servedMachine.ReachableUnder KeepsIntervals s) :
    s.NoncesInOrder := by
  have horderly : Orderly s :=
    h.invariant (fun _ hinit => Orderly.init hinit) (fun _ _ hs _ hkeeps => hs.next hkeeps)
  exact horderly.inOrder

end ServedPool

end Machine

/-! ## Three operations of one sender -/

section Three

/-- A new pool with the limits of mainnet. -/
def startedServer : ServedPool where
  chainSpec := ChainSpec.mainnet
  pool := OperationPool.new (PoolConfig.ofChainSpec ChainSpec.mainnet)
  reputation := ReputationManager.new ReputationConfig.default

/-- It has served no request. -/
theorem startedServer_init [Keccak] : servedMachine.init startedServer := ⟨_, rfl⟩

/-- A request with the nonce, at a base fee of one. -/
def nonceRequest (nonce : U256) : ServedEvent := .request (plainOperation 1 nonce 30000000000) 1

/-- Three operations of one sender, in the order of their nonces. -/
def threeRequests : List ServedEvent := [nonceRequest 0, nonceRequest 1, nonceRequest 2]

/-- Three operations, less the one with a nonce. -/
def threeWithout (nonce : U256) : ServedPool :=
  letI := polynomialDigest
  servedMachine.run (threeRequests ++ [.removeById ⟨1, nonce⟩]) startedServer

/-- One operation with the largest sequence number. -/
def lastServed : ServedPool :=
  letI := polynomialDigest
  servedMachine.run [nonceRequest 0xffffffffffffffff] startedServer

/-- Every list of events is a run. -/
theorem reachable_run_started [Keccak] (events : List ServedEvent) :
    servedMachine.Reachable (servedMachine.run events startedServer) :=
  Machine.reachable_run (.init startedServer_init)
    (Machine.enabledAlong_of_forall (fun _ _ => trivial))

/-- The middle one of three operations is removed, and the first and the last
stay; after the largest sequence number the next sum overflows. -/
theorem nonces_out_of_order :
    letI := polynomialDigest
    (servedMachine.Reachable (threeWithout 1) ∧ ¬ Contiguous (threeWithout 1).pool.ids) ∧
    servedMachine.Reachable lastServed ∧
      lastServed.validator.NonceOverflows (plainOperation 1 0 30000000000) := by
  let _ := polynomialDigest
  refine ⟨⟨reachable_run_started _, ?_⟩, reachable_run_started _, ?_⟩
  · intro h
    have hkeys : (threeWithout 1).pool.byId.keys = [⟨1, 0⟩, ⟨1, 2⟩] := by decide +kernel
    have hids (id : UserOperationId) :
        id ∈ (threeWithout 1).pool.ids ↔ id = ⟨1, 0⟩ ∨ id = ⟨1, 2⟩ := by
      rw [OperationPool.mem_ids, ← Std.ExtTreeMap.mem_keys, hkeys]
      simp
    have hzero := mem_sequences_self ((hids ⟨1, 0⟩).mpr (Or.inl rfl))
    have htwo := mem_sequences_self ((hids ⟨1, 2⟩).mpr (Or.inr rfl))
    have hone := (h 1 0).out hzero htwo (show 1 ∈ Set.Icc 0 2 from ⟨by decide, by decide⟩)
    obtain ⟨id, hid, _, _, hseq⟩ := mem_sequences.mp hone
    rcases (hids id).mp hid with rfl | rfl
    · exact absurd hseq (by decide)
    · exact absurd hseq (by decide)
  · refine ⟨lastServed.pool, BitVec.allOnes 64, rfl, ?_, ?_, ?_⟩
    · decide +kernel
    · decide +kernel
    · rw [BitVec.toNat_allOnes]
      decide

/-- The first one of three operations is removed. -/
theorem noncesInOrder_threeWithout : (threeWithout 0).NoncesInOrder := by
  let _ := polynomialDigest
  have hrequest (s : ServedPool) (nonce : U256)
      (h : (UserOperationId.mk 1 nonce).nonceSequence ≠ BitVec.allOnes 64) :
      s.KeepsIntervals (nonceRequest nonce) := fun _ _ => h
  have hlow (S : Set Nat) : (UserOperationId.mk 1 0).nonceSequence.toNat ∈ lowerBounds S :=
    fun n _ => Nat.zero_le n
  apply ServedPool.noncesInOrder_of_reachable
  apply Machine.ReachableUnder.run (.init startedServer_init)
    (Machine.enabledAlong_of_forall (fun _ _ => trivial))
  exact ⟨hrequest _ 0 (by decide), hrequest _ 1 (by decide), hrequest _ 2 (by decide),
    fun _ => Or.inl (hlow _), trivial⟩

end Three

end Bunzo
