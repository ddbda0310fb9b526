import Bunzo.AccessBudgets
import Bunzo.PoolContents

/-!
# Overlapping calls to the pool

Callers overlap: each takes the locks of the containers one after another, and
between two accesses of one call any number of accesses of others may happen.

* `Conflicts` — the accesses whose order matters: two of one key of a container,
  unless both remove it, two draws of a sequence number, and a look at a limit
  beside a write that may reach it.
* `serializable_of_follows` — if the conflicting accesses of the calls follow
  one order of the calls, the calls end like a run in this order.
* `two_adds_leave_ghost` — two clients that submit one operation.
-/

namespace Bunzo

open AtomicPrograms FiniteIndices

/-! ## Writes that commute -/

section Writes

variable {s s' : Address} {counts : Std.ExtTreeMap Address Nat}

/-- Counting up is seen at the counted sender only. -/
theorem getElem?_incremented (counts : Std.ExtTreeMap Address Nat) (s a : Address) :
    (incremented counts s)[a]? = if s = a then some (counts[s]?.getD 0 + 1) else counts[a]? := by
  unfold incremented
  rw [Std.ExtTreeMap.getElem?_insert, Std.ExtTreeMap.get?_eq_getElem?]
  simp only [Std.LawfulEqCmp.compare_eq_iff_eq]

/-- Counting down is seen at the counted sender only, and drops a count that reaches
zero. -/
theorem getElem?_decremented (counts : Std.ExtTreeMap Address Nat) (s a : Address) :
    (decremented counts s)[a]? =
      if s = a then counts[s]?.bind (fun n => if n - 1 = 0 then none else some (n - 1))
      else counts[a]? := by
  unfold decremented
  rw [Std.ExtTreeMap.get?_eq_getElem?]
  cases hs : counts[s]? with
  | none =>
      simp only [Option.bind_none]
      split
      · next ha => rw [← ha, hs]
      · rfl
  | some n =>
      simp only [Option.bind_some]
      split
      · rw [Std.ExtTreeMap.getElem?_erase]
        simp only [Std.LawfulEqCmp.compare_eq_iff_eq]
      · rw [Std.ExtTreeMap.getElem?_insert]
        simp only [Std.LawfulEqCmp.compare_eq_iff_eq]

/-- Two counts up commute, even of one sender. -/
theorem incremented_comm : incremented (incremented counts s) s' =
    incremented (incremented counts s') s := by
  apply Std.ExtTreeMap.ext_getElem?
  intro a
  simp only [getElem?_incremented]
  grind

/-- So do two counts down. -/
theorem decremented_comm : decremented (decremented counts s) s' =
    decremented (decremented counts s') s := by
  apply Std.ExtTreeMap.ext_getElem?
  intro a
  simp only [getElem?_decremented]
  grind

/-- A count that is there may go up and down in either order. -/
theorem incremented_decremented (h : s = s' → 0 < counts[s]?.getD 0) :
    incremented (decremented counts s') s = decremented (incremented counts s) s' := by
  apply Std.ExtTreeMap.ext_getElem?
  intro a
  simp only [getElem?_incremented, getElem?_decremented]
  by_cases hs : s = s'
  · subst hs
    have hpos := h rfl
    cases hcount : counts[s]? with
    | none => simp [hcount] at hpos
    | some n =>
        simp only [hcount, Option.getD_some] at hpos
        by_cases ha : s = a
        · simp only [ha, if_true]
          grind
        · simp only [ha, if_false]
  · grind

end Writes

section Containers

variable {κ α : Type} {cmp : κ → κ → Ordering} [Std.TransCmp cmp] [Std.LawfulEqCmp cmp]
  {m : Std.ExtTreeMap κ α cmp} {k k' : κ} {v v' : α}

/-- Insertions under different keys commute. -/
theorem insert_comm_map (h : k ≠ k') :
    (m.insert k v).insert k' v' = (m.insert k' v').insert k v := by
  apply Std.ExtTreeMap.ext_getElem?
  intro a
  simp only [Std.ExtTreeMap.getElem?_insert, Std.LawfulEqCmp.compare_eq_iff_eq]
  grind

/-- So do an insertion and a removal under different keys. -/
theorem insert_erase_map (h : k ≠ k') :
    (m.erase k').insert k v = (m.insert k v).erase k' := by
  apply Std.ExtTreeMap.ext_getElem?
  intro a
  simp only [Std.ExtTreeMap.getElem?_insert, Std.ExtTreeMap.getElem?_erase,
    Std.LawfulEqCmp.compare_eq_iff_eq]
  grind

/-- Removals commute, under whatever keys. -/
theorem erase_comm_map : (m.erase k).erase k' = (m.erase k').erase k := by
  apply Std.ExtTreeMap.ext_getElem?
  intro a
  simp only [Std.ExtTreeMap.getElem?_erase, Std.LawfulEqCmp.compare_eq_iff_eq]
  grind

variable {ord : α → α → Ordering} [Std.TransCmp ord] {t : Std.ExtTreeSet α ord} {a b : α}

/-- Insertions of entries that the order tells apart commute. -/
theorem insert_comm_set (h : ord a b ≠ .eq) : (t.insert a).insert b = (t.insert b).insert a := by
  have hback : ord b a ≠ .eq := fun heq => h (Std.OrientedCmp.eq_symm heq)
  apply Std.ExtTreeSet.ext_get?
  intro x
  simp only [Std.ExtTreeSet.get?_insert, Std.ExtTreeSet.mem_insert, h, hback, false_or]
  by_cases ha : ord a x = .eq
  · have hb : ord b x ≠ .eq := fun hb => h (Std.TransCmp.eq_trans ha (Std.OrientedCmp.eq_symm hb))
    simp [ha, hb]
  · simp [ha]

/-- So do an insertion and a removal of such entries. -/
theorem insert_erase_set (h : ord a b ≠ .eq) : (t.erase b).insert a = (t.insert a).erase b := by
  have hback : ord b a ≠ .eq := fun heq => h (Std.OrientedCmp.eq_symm heq)
  apply Std.ExtTreeSet.ext_get?
  intro x
  simp only [Std.ExtTreeSet.get?_insert, Std.ExtTreeSet.get?_erase, Std.ExtTreeSet.mem_erase,
    hback, ne_eq, not_false_eq_true, true_and]
  by_cases ha : ord a x = .eq
  · have hb : ord b x ≠ .eq := fun hb => h (Std.TransCmp.eq_trans ha (Std.OrientedCmp.eq_symm hb))
    simp [ha, hb]
  · simp [ha]

/-- Removals from an ordered set commute. -/
theorem erase_comm_set : (t.erase a).erase b = (t.erase b).erase a := by
  apply Std.ExtTreeSet.ext_get?
  intro x
  simp only [Std.ExtTreeSet.get?_erase]
  grind

end Containers

namespace PoolWrite

/-- Two writes whose order can be told: of one key of a container, unless both
remove it, and the two changes of a count that may be nothing. -/
def Clashes (stocked : Address → Prop) : PoolWrite → PoolWrite → Prop
  | .insertHash hash _, .insertHash hash' _ => hash = hash'
  | .insertHash hash _, .removeHash hash' => hash = hash'
  | .removeHash hash, .insertHash hash' _ => hash = hash'
  | .insertId id _, .insertId id' _ => id = id'
  | .insertId id _, .removeId id' => id = id'
  | .removeId id, .insertId id' _ => id = id'
  | .insertOrdered entry, .insertOrdered entry' => OrderEntry.cmp entry entry' = .eq
  | .insertOrdered entry, .removeOrdered entry' => OrderEntry.cmp entry entry' = .eq
  | .removeOrdered entry, .insertOrdered entry' => OrderEntry.cmp entry entry' = .eq
  | .incrementSender sender, .decrementSender sender' => sender = sender' ∧ ¬ stocked sender
  | .decrementSender sender, .incrementSender sender' => sender = sender' ∧ ¬ stocked sender
  | _, _ => False

instance (stocked : Address → Prop) [DecidablePred stocked] (w w' : PoolWrite) :
    Decidable (Clashes stocked w w') := by
  cases w <;> cases w' <;> dsimp only [Clashes] <;> infer_instance

variable {stocked : Address → Prop} {w w' : PoolWrite} {pool : OperationPool}

/-- Other writes commute. -/
theorem apply_comm (hfree : ¬ Clashes stocked w w')
    (hcount : ∀ s, stocked s → w = .incrementSender s ∧ w' = .decrementSender s ∨
      w = .decrementSender s ∧ w' = .incrementSender s → 0 < pool.senderCount[s]?.getD 0) :
    w.apply (w'.apply pool) = w'.apply (w.apply pool) := by
  cases w <;> cases w' <;> simp only [Clashes] at hfree
  case insertHash.insertHash h e h' e' =>
    exact congrArg (fun m => { pool with byHash := m }) (insert_comm_map (Ne.symm hfree))
  case insertHash.removeHash h e h' =>
    exact congrArg (fun m => { pool with byHash := m }) (insert_erase_map hfree)
  case removeHash.insertHash h h' e' =>
    exact congrArg (fun m => { pool with byHash := m }) (insert_erase_map (Ne.symm hfree)).symm
  case removeHash.removeHash h h' =>
    exact congrArg (fun m => { pool with byHash := m }) erase_comm_map
  case insertId.insertId i e i' e' =>
    exact congrArg (fun m => { pool with byId := m }) (insert_comm_map (Ne.symm hfree))
  case insertId.removeId i e i' =>
    exact congrArg (fun m => { pool with byId := m }) (insert_erase_map hfree)
  case removeId.insertId i i' e' =>
    exact congrArg (fun m => { pool with byId := m }) (insert_erase_map (Ne.symm hfree)).symm
  case removeId.removeId i i' =>
    exact congrArg (fun m => { pool with byId := m }) erase_comm_map
  case insertOrdered.insertOrdered e e' =>
    exact congrArg (fun t => { pool with ordered := t }) (insert_comm_set hfree).symm
  case insertOrdered.removeOrdered e e' =>
    exact congrArg (fun t => { pool with ordered := t }) (insert_erase_set hfree)
  case removeOrdered.insertOrdered e e' =>
    have hback : OrderEntry.cmp e' e ≠ .eq := fun heq => hfree (Std.OrientedCmp.eq_symm heq)
    exact congrArg (fun t => { pool with ordered := t }) (insert_erase_set hback).symm
  case removeOrdered.removeOrdered e e' =>
    exact congrArg (fun t => { pool with ordered := t }) erase_comm_set
  case incrementSender.incrementSender s s' =>
    exact congrArg (fun m => { pool with senderCount := m }) incremented_comm
  case incrementSender.decrementSender s s' =>
    refine congrArg (fun m => { pool with senderCount := m }) (incremented_decremented ?_)
    intro hs
    subst hs
    exact hcount s (by simpa using hfree) (Or.inl ⟨rfl, rfl⟩)
  case decrementSender.incrementSender s s' =>
    refine congrArg (fun m => { pool with senderCount := m }) (incremented_decremented ?_).symm
    intro hs
    subst hs
    exact hcount s' (by simpa using hfree) (Or.inr ⟨rfl, rfl⟩)
  case decrementSender.decrementSender s s' =>
    exact congrArg (fun m => { pool with senderCount := m }) decremented_comm
  all_goals rfl

end PoolWrite

/-! ## Calls under way -/

/-- What the callers may ask for. -/
inductive PoolRequest where
  | add (uo : UserOperation) (baseFee : U128)
  | removeByHash (hash : B256)
  | removeById (id : UserOperationId)

/-- The answer of either method. -/
abbrev PoolReply := Except PoolError B256 ⊕ Option PoolEntry

namespace PoolRequest

/-- The call that a request makes when it is not interrupted. -/
def toCall : PoolRequest → PoolCall
  | add uo baseFee => .add uo baseFee
  | removeByHash hash => .removeByHash hash
  | removeById id => .removeById id

/-- The request adds an operation of a sender. -/
def adds (sender : Address) : PoolRequest → Bool
  | add uo _ => uo.sender = sender
  | _ => false

/-- Requests that take room in the pool. -/
def isAdd : PoolRequest → Bool
  | add _ _ => true
  | _ => false

/-- The accesses of a request. -/
def program [Keccak] (config : PoolConfig) : PoolRequest → PoolProgram PoolReply
  | add uo baseFee => do
      let result ← addProgram config uo baseFee
      return Sum.inl result
  | removeByHash hash => do
      let removed ← removeByHashProgram hash
      return Sum.inr removed
  | removeById id => do
      let removed ← removeByIdProgram id
      return Sum.inr removed

/-- A request that runs alone is a call. -/
theorem run_program [Keccak] (request : PoolRequest) (pool : OperationPool) :
    ((request.program pool.config).run PoolOp.perform pool).2 = request.toCall.apply pool := by
  cases request with
  | add uo baseFee =>
      rw [program, Program.run_bind, Program.run_pure]
      rfl
  | removeByHash hash =>
      rw [program, Program.run_bind, Program.run_pure]
      rfl
  | removeById id =>
      rw [program, Program.run_bind, Program.run_pure]
      rfl

end PoolRequest

namespace PoolOp

/-- The access that looks whether there is room in the pool. -/
def checksSize : PoolOp → Bool
  | sizeAtLeast _ => true
  | _ => false

/-- The access that takes this room. -/
def insertsHash : PoolOp → Bool
  | write (.insertHash _ _) => true
  | _ => false

/-- The access that looks whether there is room for a sender. -/
def checksSender (sender : Address) : PoolOp → Bool
  | senderAtLimit sender' _ => sender' = sender
  | _ => false

/-- The access that takes this room. -/
def incrementsSender (sender : Address) : PoolOp → Bool
  | write (.incrementSender sender') => sender' = sender
  | _ => false

/-- The access that gives room back to a sender. -/
def decrementsSender (sender : Address) : PoolOp → Bool
  | write (.decrementSender sender') => sender' = sender
  | _ => false

end PoolOp

section Budgets

variable {uses spends : PoolOp → Prop} [DecidablePred spends]

/-- One access spends at most one. -/
theorem spends_call {op : PoolOp} {n : Nat} (h : uses op ∨ spends op → 0 < n) :
    (Program.call op : PoolProgram _).Spends uses spends n :=
  ⟨h, fun _ => trivial⟩

/-- An access that neither uses nor spends, and what follows it. -/
theorem spends_access {α : Type} {op : PoolOp} {next : op.Answer → PoolProgram α} {n : Nat}
    (hop : ¬ (uses op ∨ spends op)) (hnext : ∀ r, (next r).Spends uses spends n) :
    (Program.access op next : PoolProgram α).Spends uses spends n := by
  refine ⟨fun h => absurd h hop, ?_⟩
  rw [if_neg (fun h => hop (Or.inr h))]
  exact hnext

/-- Taking an entry out spends on its count alone, when the other writes are free. -/
theorem spends_removeInner {n : Nat} {entry : PoolEntry}
    (hhash : ¬ (uses (.write (.removeHash entry.hash)) ∨ spends (.write (.removeHash entry.hash))))
    (hid : ¬ (uses (.write (.removeId entry.id)) ∨ spends (.write (.removeId entry.id))))
    (hordered : ¬ (uses (.write (.removeOrdered entry)) ∨ spends (.write (.removeOrdered entry))))
    (hcount : uses (.write (.decrementSender entry.id.sender)) ∨
      spends (.write (.decrementSender entry.id.sender)) → 0 < n) :
    (removeInnerProgram entry).Spends uses spends n := by
  refine spends_access hhash (fun _ => ?_)
  refine spends_access hid (fun _ => ?_)
  refine spends_access hordered (fun _ => ?_)
  exact spends_call hcount

/-- A replacement spends what it removes. -/
theorem spends_replace {n : Nat} (config : PoolConfig) (uo : UserOperation)
    (existing : Option PoolEntry)
    (hremove : ∀ entry, (removeInnerProgram entry).Spends uses spends n) :
    (replaceProgram config uo existing).Spends uses spends n := by
  cases existing with
  | none => trivial
  | some entry =>
      rw [replaceProgram]
      split
      · trivial
      · refine Program.Spends.bind (m := 0) (fun _ => ?_) (hremove entry)
        trivial

/-- A removal of a found entry spends no more. -/
theorem spends_removeFound {n : Nat} (found : Option PoolEntry)
    (hremove : ∀ entry, (removeInnerProgram entry).Spends uses spends n) :
    (removeFoundProgram found).Spends uses spends n := by
  cases found with
  | none => trivial
  | some entry =>
      refine Program.Spends.bind (m := 0) (fun _ => ?_) (hremove entry)
      trivial

/-- The limit checks use what they may, and write nothing. -/
theorem spends_limits {n : Nat} (config : PoolConfig) (sender : Address)
    (hsender : uses (.senderAtLimit sender config.maxOpsPerSender) → 0 < n)
    (hsize : uses (.sizeAtLeast config.maxSize) → 0 < n)
    (hsender' : ¬ spends (.senderAtLimit sender config.maxOpsPerSender))
    (hsize' : ¬ spends (.sizeAtLeast config.maxSize)) :
    (limitsProgram config sender).Spends uses spends n := by
  refine ⟨fun h => hsender (h.resolve_right hsender'), fun r => ?_⟩
  rw [if_neg hsender']
  cases r with
  | some count => trivial
  | none =>
      refine ⟨fun h => hsize (h.resolve_right hsize'), fun r => ?_⟩
      cases r <;> trivial

/-- Entering an operation spends on its hash and its count, when the other writes are
free. -/
theorem spends_insert [Keccak] {n : Nat} (uo : UserOperation) (baseFee : U128)
    (hsequence : ¬ (uses .takeSequence ∨ spends .takeSequence))
    (hid : ∀ id entry,
      ¬ (uses (.write (.insertId id entry)) ∨ spends (.write (.insertId id entry))))
    (hordered : ∀ entry,
      ¬ (uses (.write (.insertOrdered entry)) ∨ spends (.write (.insertOrdered entry))))
    (hhash : ∀ hash entry, uses (.write (.insertHash hash entry)) ∨
      spends (.write (.insertHash hash entry)) → 0 < n)
    (hcount : uses (.write (.incrementSender uo.sender)) ∨
      spends (.write (.incrementSender uo.sender)) →
      ∀ hash entry, 0 < if spends (.write (.insertHash hash entry)) then n - 1 else n)
    (hlog : ¬ (uses .logSize ∨ spends .logSize)) :
    (insertProgram uo baseFee).Spends uses spends n := by
  refine spends_access hsequence (fun sequence => ?_)
  refine ⟨hhash _ _, fun _ => ?_⟩
  refine spends_access (hid _ _) (fun _ => ?_)
  refine spends_access (hordered _) (fun _ => ?_)
  refine ⟨fun h => hcount h _ _, fun _ => ?_⟩
  exact spends_access hlog (fun _ => trivial)

/-- What adding may spend: a replacement first, then the insertion the limits
were checked for. -/
theorem spends_add [Keccak] {m n : Nat} (config : PoolConfig) (uo : UserOperation)
    (baseFee : U128)
    (hcontains : ¬ (uses (.containsHash uo.hash) ∨ spends (.containsHash uo.hash)))
    (hget : ¬ (uses (.getId uo.id) ∨ spends (.getId uo.id)))
    (hremove : ∀ entry, (removeInnerProgram entry).Spends uses spends m)
    (hidle : (limitsProgram config uo.sender).Spends (fun _ => False) spends 0)
    (hlimits : (limitsProgram config uo.sender).Spends uses spends n)
    (hinsert : (insertProgram uo baseFee).Spends uses spends n) :
    (addProgram config uo baseFee).Spends uses spends (m + n) := by
  have haccept : (acceptProgram config uo baseFee).Spends uses spends n := by
    refine Program.Spends.bind_of_idle hidle hlimits (fun room => ?_)
    cases room with
    | error e => trivial
    | ok =>
        refine Program.Spends.bind (m := 0) (fun _ => ?_) hinsert
        trivial
  refine spends_access hcontains (fun known => ?_)
  cases known with
  | true => trivial
  | false =>
      refine spends_access hget (fun existing => ?_)
      change (replaceProgram config uo existing >>= _).Spends uses spends (m + n)
      refine Program.Spends.bind (fun replaced => ?_) (spends_replace config uo existing hremove)
      cases replaced with
      | error e => trivial
      | ok => exact haccept

end Budgets

section RequestBudgets

variable [Keccak] {uses spends : PoolOp → Prop} [DecidablePred spends] (config : PoolConfig)

/-- Every request may remove one entry, and a request that adds may then
insert one. -/
theorem spends_program {m n : Nat} (request : PoolRequest)
    (hcontains : ∀ hash, ¬ (uses (.containsHash hash) ∨ spends (.containsHash hash)))
    (hgetHash : ∀ hash, ¬ (uses (.getHash hash) ∨ spends (.getHash hash)))
    (hgetId : ∀ id, ¬ (uses (.getId id) ∨ spends (.getId id)))
    (hremove : ∀ entry, (removeInnerProgram entry).Spends uses spends m)
    (hidle : ∀ sender, (limitsProgram config sender).Spends (fun _ => False) spends 0)
    (hadd : ∀ uo baseFee, request = .add uo baseFee →
      (limitsProgram config uo.sender).Spends uses spends n ∧
      (insertProgram uo baseFee).Spends uses spends n) :
    (request.program config).Spends uses spends (m + n) := by
  cases request with
  | add uo baseFee =>
      obtain ⟨hlimits, hinsert⟩ := hadd uo baseFee rfl
      refine Program.Spends.bind (m := 0) (fun _ => ?_) (spends_add config uo baseFee
        (hcontains _) (hgetId _) hremove (hidle _) hlimits hinsert)
      trivial
  | removeByHash hash =>
      have hfound : (removeByHashProgram hash).Spends uses spends m :=
        spends_access (hgetHash hash) (fun found => spends_removeFound found hremove)
      refine (Program.Spends.bind (m := 0) (fun _ => ?_) hfound).mono (Nat.le_add_right m n)
      trivial
  | removeById id =>
      have hfound : (removeByIdProgram id).Spends uses spends m :=
        spends_access (hgetId id) (fun found => spends_removeFound found hremove)
      refine (Program.Spends.bind (m := 0) (fun _ => ?_) hfound).mono (Nat.le_add_right m n)
      trivial

variable (request : PoolRequest) (sender : Address)

/-- Only a request that adds looks at the size, and it puts one hash in. -/
theorem spends_size : (request.program config).Spends (fun op => op.checksSize)
    (fun op => op.insertsHash) (if request.isAdd then 1 else 0) := by
  rw [← Nat.zero_add (if request.isAdd then 1 else 0)]
  apply spends_program
  case hremove =>
    intro entry
    apply spends_removeInner <;> simp [PoolOp.checksSize, PoolOp.insertsHash]
  case hidle =>
    intro sender
    apply spends_limits <;> simp [PoolOp.insertsHash]
  case hadd =>
    rintro uo baseFee rfl
    refine ⟨?_, ?_⟩
    · apply spends_limits <;> simp [PoolOp.insertsHash, PoolRequest.isAdd]
    · apply spends_insert <;> simp [PoolOp.checksSize, PoolOp.insertsHash, PoolRequest.isAdd]
  all_goals simp [PoolOp.checksSize, PoolOp.insertsHash]

/-- Only a request that adds an operation of the sender looks at its count, and
it counts one. -/
theorem spends_sender : (request.program config).Spends (fun op => op.checksSender sender)
    (fun op => op.incrementsSender sender) (if request.adds sender then 1 else 0) := by
  rw [← Nat.zero_add (if request.adds sender then 1 else 0)]
  apply spends_program
  case hremove =>
    intro entry
    apply spends_removeInner <;> simp [PoolOp.checksSender, PoolOp.incrementsSender]
  case hidle =>
    intro sender
    apply spends_limits <;> simp [PoolOp.incrementsSender]
  case hadd =>
    rintro uo baseFee rfl
    refine ⟨?_, ?_⟩
    · apply spends_limits <;>
        simp +contextual [PoolOp.checksSender, PoolOp.incrementsSender, PoolRequest.adds]
    · apply spends_insert <;>
        simp +contextual [PoolOp.checksSender, PoolOp.incrementsSender, PoolRequest.adds]
  all_goals simp [PoolOp.checksSender, PoolOp.incrementsSender]

/-- Every request takes at most one operation of the sender out. -/
theorem spends_stock : (request.program config).Spends (fun _ => False)
    (fun op => op.decrementsSender sender) 1 := by
  apply spends_program (m := 1) (n := 0)
  case hremove =>
    intro entry
    apply spends_removeInner <;> simp [PoolOp.decrementsSender]
  case hidle =>
    intro sender
    apply spends_limits <;> simp [PoolOp.decrementsSender]
  case hadd =>
    rintro uo baseFee rfl
    refine ⟨?_, ?_⟩
    · apply spends_limits <;> simp [PoolOp.decrementsSender]
    · apply spends_insert <;> simp [PoolOp.decrementsSender]
  all_goals simp [PoolOp.decrementsSender]

end RequestBudgets

/-! ## What an access takes from the limits -/

namespace OperationPool

/-- Operations the pool can still take. -/
def sizeLeft (pool : OperationPool) : Nat := pool.config.maxSize - pool.size

/-- The pooled operations of a sender, as the count has them. -/
def count (pool : OperationPool) (sender : Address) : Nat := pool.senderCount[sender]?.getD 0

/-- Operations the pool can still take of one sender. -/
def senderLeft (sender : Address) (pool : OperationPool) : Nat :=
  pool.config.maxOpsPerSender - pool.count sender

end OperationPool

namespace PoolOp

variable (op : PoolOp) (pool : OperationPool) (sender : Address)

/-- Room in the pool is taken by entering a hash, one place at a time. -/
theorem sizeLeft_le : pool.sizeLeft ≤ (op.perform pool).2.sizeLeft +
    if op.insertsHash then 1 else 0 := by
  cases op with
  | write w =>
      cases w with
      | insertHash hash entry =>
          have hsize := Std.ExtTreeMap.size_insert_le (t := pool.byHash) (k := hash) (v := entry)
          change pool.config.maxSize - pool.byHash.size ≤
            pool.config.maxSize - (pool.byHash.insert hash entry).size + 1
          omega
      | removeHash hash =>
          have hsize := Std.ExtTreeMap.size_erase_le (t := pool.byHash) (k := hash)
          change pool.config.maxSize - pool.byHash.size ≤
            pool.config.maxSize - (pool.byHash.erase hash).size + 0
          omega
      | _ => exact Nat.le_refl _
  | _ => exact Nat.le_refl _

/-- A count up shows at its sender. -/
theorem count_incremented (sender' : Address) :
    (((PoolWrite.incrementSender sender').apply pool).count sender) =
      pool.count sender + if sender' = sender then 1 else 0 := by
  change (incremented pool.senderCount sender')[sender]?.getD 0 = _
  rw [getElem?_incremented]
  split
  · next h => rw [h]; rfl
  · rfl

/-- A count down shows at its sender, and stops at zero. -/
theorem count_decremented (sender' : Address) :
    (((PoolWrite.decrementSender sender').apply pool).count sender) =
      pool.count sender - if sender' = sender then 1 else 0 := by
  change (decremented pool.senderCount sender')[sender]?.getD 0 =
    pool.senderCount[sender]?.getD 0 - _
  rw [getElem?_decremented]
  split
  · next h =>
      rw [h]
      cases pool.senderCount[sender]? with
      | none => rfl
      | some n =>
          rw [Option.bind_some]
          split
          · next hn => exact hn.symm
          · rfl
  · rfl

/-- Room for a sender is taken by counting up, one place at a time. -/
theorem senderLeft_le : pool.senderLeft sender ≤ (op.perform pool).2.senderLeft sender +
    if op.incrementsSender sender then 1 else 0 := by
  cases op with
  | write w =>
      cases w with
      | incrementSender sender' =>
          have hcount := count_incremented pool sender sender'
          simp only [OperationPool.senderLeft, apply_config, incrementsSender, perform, hcount]
          grind
      | decrementSender sender' =>
          have hcount := count_decremented pool sender sender'
          simp only [OperationPool.senderLeft, apply_config, incrementsSender, perform, hcount]
          grind
      | _ => exact Nat.le_refl _
  | _ => exact Nat.le_refl _

/-- A sender's count falls by counting down, one at a time. -/
theorem count_le : pool.count sender ≤ (op.perform pool).2.count sender +
    if op.decrementsSender sender then 1 else 0 := by
  cases op with
  | write w =>
      cases w with
      | incrementSender sender' =>
          have hcount := count_incremented pool sender sender'
          simp only [decrementsSender, perform, hcount]
          grind
      | decrementSender sender' =>
          have hcount := count_decremented pool sender sender'
          simp only [decrementsSender, perform, hcount]
          grind
      | _ => exact Nat.le_refl _
  | _ => exact Nat.le_refl _

end PoolOp

/-! ## Conflicts -/

namespace PoolWrite

/-- The hash whose entry a write changes. -/
def hashWritten : PoolWrite → Option B256
  | insertHash hash _ => some hash
  | removeHash hash => some hash
  | _ => none

/-- The id whose entry a write changes. -/
def idWritten : PoolWrite → Option UserOperationId
  | insertId id _ => some id
  | removeId id => some id
  | _ => none

/-- The sender whose count a write changes. -/
def senderCounted : PoolWrite → Option Address
  | incrementSender sender => some sender
  | decrementSender sender => some sender
  | _ => none

variable {w : PoolWrite} (pool : OperationPool)

/-- A write of another hash leaves the entry under this one. -/
theorem byHash_apply {hash : B256} (h : w.hashWritten ≠ some hash) :
    (w.apply pool).byHash[hash]? = pool.byHash[hash]? := by
  cases w with
  | insertHash hash' entry =>
      have hne : hash' ≠ hash := fun heq => h (congrArg some heq)
      change (pool.byHash.insert hash' entry)[hash]? = _
      rw [Std.ExtTreeMap.getElem?_insert, if_neg (by simpa using hne)]
  | removeHash hash' =>
      have hne : hash' ≠ hash := fun heq => h (congrArg some heq)
      change (pool.byHash.erase hash')[hash]? = _
      rw [Std.ExtTreeMap.getElem?_erase, if_neg (by simpa using hne)]
  | _ => rfl

/-- A write of another id leaves the entry under this one. -/
theorem byId_apply {id : UserOperationId} (h : w.idWritten ≠ some id) :
    (w.apply pool).byId[id]? = pool.byId[id]? := by
  cases w with
  | insertId id' entry =>
      have hne : id' ≠ id := fun heq => h (congrArg some heq)
      change (pool.byId.insert id' entry)[id]? = _
      rw [Std.ExtTreeMap.getElem?_insert, if_neg (by simpa using hne)]
  | removeId id' =>
      have hne : id' ≠ id := fun heq => h (congrArg some heq)
      change (pool.byId.erase id')[id]? = _
      rw [Std.ExtTreeMap.getElem?_erase, if_neg (by simpa using hne)]
  | _ => rfl

/-- A write of another sender's count leaves this one. -/
theorem count_apply {sender : Address} (h : w.senderCounted ≠ some sender) :
    (w.apply pool).count sender = pool.count sender := by
  cases w with
  | incrementSender sender' =>
      have hne : sender' ≠ sender := fun heq => h (congrArg some heq)
      rw [PoolOp.count_incremented, if_neg hne]
      rfl
  | decrementSender sender' =>
      have hne : sender' ≠ sender := fun heq => h (congrArg some heq)
      rw [PoolOp.count_decremented, if_neg hne]
      rfl
  | _ => rfl

/-- A write away from the hash index leaves the size. -/
theorem size_apply (h : w.hashWritten = none) : (w.apply pool).size = pool.size := by
  cases w <;> first | rfl | cases h

/-- No write draws a number. -/
theorem nextSequence_apply (w : PoolWrite) :
    (w.apply pool).nextSequence = pool.nextSequence := by
  cases w <;> rfl

end PoolWrite

section Conflicts

/-- Every one of some calls could take an operation of the sender out. -/
def Stocked (pool : OperationPool) (calls : Nat) (sender : Address) : Prop :=
  calls ≤ pool.count sender

variable {τ : Type} [Fintype τ] (pool : OperationPool) (requests : τ → PoolRequest)

/-- The pool can take all operations the calls may add. -/
def SizeRoom : Prop :=
  (Finset.univ.filter (fun t => (requests t).isAdd)).card ≤ pool.sizeLeft

/-- The pool can take all operations of a sender the calls may add. -/
def SenderRoom (sender : Address) : Prop :=
  (Finset.univ.filter (fun t => (requests t).adds sender)).card ≤ pool.senderLeft sender

/-- Writes that an access can tell were made: it reads what they write, and no
room is left that makes its answer certain. -/
def Disturbs (w : PoolWrite) : PoolOp → Prop
  | .containsHash hash => w.hashWritten = some hash
  | .getHash hash => w.hashWritten = some hash
  | .getId id => w.idWritten = some id
  | .senderAtLimit sender limit => w.senderCounted = some sender ∧
      ¬ (limit = pool.config.maxOpsPerSender ∧ SenderRoom pool requests sender)
  | .sizeAtLeast limit => w.hashWritten ≠ none ∧
      ¬ (limit = pool.config.maxSize ∧ SizeRoom pool requests)
  | .takeSequence => False
  | .logSize => False
  | .write w' => w.Clashes (Stocked pool (Fintype.card τ)) w'

/-- Two accesses whose order matters. -/
def Conflicts : PoolOp → PoolOp → Prop
  | .write w, op => Disturbs pool requests w op
  | op, .write w => Disturbs pool requests w op
  | .takeSequence, .takeSequence => True
  | _, _ => False

instance (pool : OperationPool) (calls : Nat) : DecidablePred (Stocked pool calls) :=
  fun sender => inferInstanceAs (Decidable (calls ≤ pool.count sender))

instance : Decidable (SizeRoom pool requests) := inferInstanceAs (Decidable (_ ≤ _))

instance : DecidablePred (SenderRoom pool requests) :=
  fun _ => inferInstanceAs (Decidable (_ ≤ _))

instance (w : PoolWrite) : DecidablePred (Disturbs pool requests w) := by
  intro op
  cases op <;> dsimp only [Disturbs] <;> infer_instance

instance : DecidableRel (Conflicts pool requests) := by
  intro a b
  cases a <;> cases b <;> dsimp only [Conflicts] <;> infer_instance

end Conflicts

/-! ## Calls under way -/

section Interleaving

variable {τ : Type} [Fintype τ]

/-- The calls of the pool, none of which has begun. -/
def PoolCalls.start [Keccak] (pool : OperationPool) (requests : τ → PoolRequest) :
    Threads PoolOp PoolOp.Answer PoolReply OperationPool τ where
  program t := (requests t).program pool.config
  state := pool

/-- The room the pool had at the start covers what the calls still do. -/
structure Interleaved (pool : OperationPool) (requests : τ → PoolRequest)
    (c : Threads PoolOp PoolOp.Answer PoolReply OperationPool τ) : Prop where
  config : c.state.config = pool.config
  size : SizeRoom pool requests →
    c.Covered (fun op => op.checksSize) (fun op => op.insertsHash) OperationPool.sizeLeft
  sender : ∀ s, SenderRoom pool requests s →
    c.Covered (fun op => op.checksSender s) (fun op => op.incrementsSender s)
      (OperationPool.senderLeft s)
  stock : ∀ s, Stocked pool (Fintype.card τ) s →
    c.Covered (fun _ => False) (fun op => op.decrementsSender s) (fun pool => pool.count s)

/-- Before the first access nothing is used up. -/
theorem interleaved_start [Keccak] (pool : OperationPool) (requests : τ → PoolRequest) :
    Interleaved pool requests (PoolCalls.start pool requests) where
  config := rfl
  size hroom := by
    refine ⟨_, fun t => spends_size pool.config (requests t), ?_⟩
    rwa [← Finset.card_filter]
  sender s hroom := by
    refine ⟨_, fun t => spends_sender pool.config (requests t) s, ?_⟩
    rwa [← Finset.card_filter]
  stock s hstock := by
    refine ⟨_, fun t => spends_stock pool.config (requests t) s, ?_⟩
    rwa [← Finset.card_eq_sum_ones]

variable {pool : OperationPool} {requests : τ → PoolRequest}
  {c : Threads PoolOp PoolOp.Answer PoolReply OperationPool τ}
  {t u : τ} {w : PoolWrite} {op : PoolOp}

/-- A look at the size finds room, if there was room for all calls. -/
theorem Interleaved.size_lt (h : Interleaved pool requests c) (hroom : SizeRoom pool requests)
    {limit : Nat} (hop : (c.program u).nextOp = some (.sizeAtLeast limit)) :
    c.state.size < pool.config.maxSize := by
  have hpos := (h.size hroom).pos hop (Or.inl rfl)
  rw [OperationPool.sizeLeft, h.config] at hpos
  omega

/-- A look at the count of a sender finds room, if there was room for all calls. -/
theorem Interleaved.count_lt (h : Interleaved pool requests c) {s : Address}
    (hroom : SenderRoom pool requests s) {limit : Nat}
    (hop : (c.program u).nextOp = some (.senderAtLimit s limit)) :
    c.state.count s < pool.config.maxOpsPerSender := by
  have hpos := (h.sender s hroom).pos hop (Or.inl (by simp [PoolOp.checksSender]))
  rw [OperationPool.senderLeft, h.config] at hpos
  omega

/-- A removal finds the operation it counts down. -/
theorem Interleaved.count_pos (h : Interleaved pool requests c) {s : Address}
    (hstock : Stocked pool (Fintype.card τ) s)
    (hop : (c.program u).nextOp = some (.write (.decrementSender s))) : 0 < c.state.count s :=
  (h.stock s hstock).pos hop (Or.inr (by simp [PoolOp.decrementsSender]))

/-- A write commutes with an access it does not disturb. -/
theorem commuteAt_write {s : OperationPool} (hop : ∀ w', op ≠ .write w')
    (hanswer : (op.perform (w.apply s)).1 = (op.perform s).1) :
    CommuteAt PoolOp.perform s (.write w) op := by
  cases op with
  | write w' => exact absurd rfl (hop w')
  | takeSequence =>
      refine ⟨rfl, hanswer, ?_⟩
      cases w <;> rfl
  | _ => exact ⟨rfl, hanswer, rfl⟩

/-- Accesses that write nothing commute, two draws of a number apart. -/
theorem commuteAt_reads {s : OperationPool} {a b : PoolOp} (ha : ∀ w, a ≠ .write w)
    (hb : ∀ w, b ≠ .write w) (hfree : ¬ Conflicts pool requests a b) :
    CommuteAt PoolOp.perform s a b := by
  cases a with
  | write w => exact absurd rfl (ha w)
  | takeSequence =>
      cases b with
      | write w => exact absurd rfl (hb w)
      | takeSequence => exact absurd trivial hfree
      | _ => exact ⟨rfl, rfl, rfl⟩
  | _ =>
      cases b with
      | write w => exact absurd rfl (hb w)
      | _ => exact ⟨rfl, rfl, rfl⟩

/-- A read conflicts with the writes that disturb it. -/
theorem disturbs_of_conflicts (hop : ∀ w', op ≠ .write w') :
    Conflicts pool requests op (.write w) ↔ Disturbs pool requests w op := by
  cases op with
  | write w' => exact absurd rfl (hop w')
  | _ => rfl

variable [DecidableEq τ]

/-- **One access** of one client keeps what is left for all. -/
theorem Interleaved.step (h : Interleaved pool requests c) (t : τ) :
    Interleaved pool requests (c.step PoolOp.perform t) where
  config := by
    cases ht : c.program t with
    | done a =>
        rw [Threads.step_of_done ht]
        exact h.config
    | access op next =>
        rw [Threads.step_of_access ht]
        exact (op.perform_config c.state).trans h.config
  size hroom := (h.size hroom).step (fun op s => op.sizeLeft_le s) t
  sender s hroom := (h.sender s hroom).step (fun op pool => op.senderLeft_le pool s) t
  stock s hstock := (h.stock s hstock).step (fun op pool => op.count_le pool s) t

/-- What an access answers before and after a write that does not disturb it. -/
theorem Interleaved.answer_write (h : Interleaved pool requests c) (hne : t ≠ u)
    (ht : (c.program t).nextOp = some (.write w)) (hu : (c.program u).nextOp = some op)
    (hfree : ¬ Disturbs pool requests w op) :
    (op.perform (w.apply c.state)).1 = (op.perform c.state).1 := by
  have hu' : ((c.step PoolOp.perform t).program u).nextOp = some op := by
    rw [Threads.step_program_ne hne.symm, hu]
  have hstate : (c.step PoolOp.perform t).state = w.apply c.state := Threads.step_state ht
  cases op with
  | containsHash hash =>
      change (w.apply c.state).byHash.contains hash = c.state.byHash.contains hash
      rw [Std.ExtTreeMap.contains_eq_isSome_getElem?, Std.ExtTreeMap.contains_eq_isSome_getElem?,
        PoolWrite.byHash_apply _ hfree]
  | getHash hash => exact PoolWrite.byHash_apply _ hfree
  | getId id => exact PoolWrite.byId_apply _ hfree
  | senderAtLimit s limit =>
      change
          (if limit ≤ (w.apply c.state).count s then some ((w.apply c.state).count s) else none) =
        if limit ≤ c.state.count s then some (c.state.count s) else none
      by_cases hcounted : w.senderCounted = some s
      · obtain ⟨rfl, hroom⟩ := Classical.not_not.mp (fun hno => hfree ⟨hcounted, hno⟩)
        have hbefore := h.count_lt hroom hu
        have hafter := (h.step t).count_lt hroom hu'
        rw [hstate] at hafter
        rw [if_neg (by omega), if_neg (by omega)]
      · rw [PoolWrite.count_apply _ hcounted]
  | sizeAtLeast limit =>
      change decide (limit ≤ (w.apply c.state).size) = decide (limit ≤ c.state.size)
      by_cases hwritten : w.hashWritten = none
      · rw [PoolWrite.size_apply _ hwritten]
      · obtain ⟨rfl, hroom⟩ := Classical.not_not.mp (fun hno => hfree ⟨hwritten, hno⟩)
        have hbefore := h.size_lt hroom hu
        have hafter := (h.step t).size_lt hroom hu'
        rw [hstate] at hafter
        rw [decide_eq_false (by omega), decide_eq_false (by omega)]
  | takeSequence => exact PoolWrite.nextSequence_apply _ w
  | logSize => rfl
  | write w' => rfl

/-- Accesses that do not conflict may go in either order. -/
theorem commutes (pool : OperationPool) (requests : τ → PoolRequest) :
    Threads.Commutes (α := PoolReply) (τ := τ) PoolOp.perform (Conflicts pool requests)
      (Interleaved pool requests) where
  keeps h := h.step _
  diamond := by
    intro c t u a b h hne ha hb hfree
    apply Threads.diamond hne ha hb
    by_cases haw : ∃ w, a = .write w
    · obtain ⟨w, rfl⟩ := haw
      by_cases hbw : ∃ w', b = .write w'
      · obtain ⟨w', rfl⟩ := hbw
        refine ⟨rfl, rfl, PoolWrite.apply_comm hfree ?_⟩
        rintro s hstock (⟨rfl, rfl⟩ | ⟨rfl, rfl⟩)
        · exact h.count_pos hstock hb
        · exact h.count_pos hstock ha
      · exact commuteAt_write (not_exists.mp hbw) (h.answer_write hne ha hb hfree)
    · by_cases hbw : ∃ w, b = .write w
      · obtain ⟨w, rfl⟩ := hbw
        rw [disturbs_of_conflicts (not_exists.mp haw)] at hfree
        exact (commuteAt_write (not_exists.mp haw) (h.answer_write hne.symm hb ha hfree)).symm
      · exact commuteAt_reads (not_exists.mp haw) (not_exists.mp hbw) hfree

end Interleaving

/-! ## Serial runs -/

section Serial

variable [Keccak] {τ : Type} [DecidableEq τ] {pool : OperationPool} {S : Finset PoolEntry}

/-- Calls that take turns leave what their sequence leaves. -/
theorem serial_state (requests : τ → PoolRequest) :
    ∀ (order : List τ) {c : Threads PoolOp PoolOp.Answer PoolReply OperationPool τ},
      order.Nodup → (∀ t ∈ order, c.program t = (requests t).program c.state.config) →
      (Threads.serial PoolOp.perform order c).state =
        runCalls (order.map (fun t => (requests t).toCall)) c.state := by
  intro order
  induction order with
  | nil =>
      intro c _ _
      rfl
  | cons t order ih =>
      intro c hnodup hprogram
      obtain ⟨hout, hnodup⟩ := List.nodup_cons.mp hnodup
      have hrun : (c.runAlone PoolOp.perform t).state = (requests t).toCall.apply c.state := by
        rw [Threads.runAlone, hprogram t List.mem_cons_self]
        exact (requests t).run_program c.state
      rw [Threads.serial, List.map_cons, runCalls, ih hnodup, hrun]
      intro u hu
      have hne : u ≠ t := fun heq => hout (heq ▸ hu)
      have hconfig : (c.runAlone PoolOp.perform t).state.config = c.state.config := by
        rw [hrun]
        exact PoolCall.config_apply _ _
      rw [hconfig, ← hprogram u (List.mem_cons_of_mem t hu)]
      exact Function.update_of_ne hne _ _

/-- Calls that take turns leave one set behind the containers. -/
theorem Describes.serial (h : Describes pool S) (requests : τ → PoolRequest) {order : List τ}
    (hnodup : order.Nodup) :
    ∃ S', Describes
      (Threads.serial PoolOp.perform order (PoolCalls.start pool requests)).state S' := by
  rw [serial_state requests order hnodup (fun _ _ => rfl)]
  exact h.runCalls _

/-- The calls end like a run of the same calls one after another: with the same
answers and the same pool. -/
def EndsSerially (pool : OperationPool) (requests : τ → PoolRequest) (schedule : List τ) : Prop :=
  ∃ order : List τ, order.Nodup ∧ (∀ t, t ∈ order) ∧
    Threads.exec PoolOp.perform schedule (PoolCalls.start pool requests) =
      Threads.serial PoolOp.perform order (PoolCalls.start pool requests)

variable [Fintype τ]

/-- The conflicting accesses of the calls follow one order of the calls. -/
def FollowsOneOrder (pool : OperationPool) (requests : τ → PoolRequest) (schedule : List τ) :
    Prop :=
  ∃ order : List τ, order.Nodup ∧ (∀ t, t ∈ order) ∧
    Threads.Follows (Conflicts pool requests) order
      (Threads.events PoolOp.perform schedule (PoolCalls.start pool requests))

/-- **Overlapping calls.**  However the accesses of the calls interleave: if
those that conflict follow one order of the calls and all calls have returned,
answers and pool are those of the calls run in this order, and one set is behind
all containers, so that every entry of one can be removed from all. -/
theorem endsSerially_of_follows (h : Describes pool S) (requests : τ → PoolRequest)
    (schedule : List τ)
    (hreturned : ∀ t, ((Threads.exec PoolOp.perform schedule
      (PoolCalls.start pool requests)).program t).Finished)
    (hfollows : FollowsOneOrder pool requests schedule) :
    EndsSerially pool requests schedule ∧
      ∃ S', Describes (Threads.exec PoolOp.perform schedule (PoolCalls.start pool requests)).state
        S' := by
  obtain ⟨order, hnodup, hall, hfollows⟩ := hfollows
  have hserial := Threads.exec_eq_serial (commutes pool requests) order schedule
    (interleaved_start pool requests) (fun t _ => hall t) (fun t _ => hreturned t) hfollows
  refine ⟨⟨order, hnodup, hall, hserial⟩, ?_⟩
  rw [hserial]
  exact h.serial requests hnodup

end Serial

/-! ## Two clients -/

section TwoClients

/-- An empty pool with the limits of mainnet. -/
def mainnetPool : OperationPool := OperationPool.new (PoolConfig.ofChainSpec ChainSpec.mainnet)

/-- Two clients, each with an operation of its own. -/
def twoOperations [Keccak] : Bool → PoolRequest
  | false => .add ((plainOperation 1 0 30).setContext 0xEE 1) 15
  | true => .add ((plainOperation 2 0 30).setContext 0xEE 1) 15

/-- Two clients with one operation. -/
def sameOperation [Keccak] : Bool → PoolRequest := fun _ => twoOperations false

/-- The calls take turns, access by access. -/
def alternating : List Bool := (List.replicate 10 [false, true]).flatten

/-- Two operations of different senders, added at once, end as if added in turn. -/
theorem endsSerially_twoOperations :
    letI := polynomialDigest
    EndsSerially mainnetPool twoOperations alternating ∧
      ∃ S', Describes (Threads.exec PoolOp.perform alternating
        (PoolCalls.start mainnetPool twoOperations)).state S' := by
  let _ := polynomialDigest
  apply endsSerially_of_follows (Describes.new _)
  · intro t
    rw [Program.finished_iff]
    revert t
    decide +kernel
  · refine ⟨[false, true], by decide, by decide, ?_⟩
    unfold Threads.Follows
    decide +kernel

/-- Both look before either writes. -/
def lookFirst : List Bool :=
  [false, true, false, true] ++ List.replicate 8 false ++ List.replicate 8 true

/-- What two calls for one operation leave: the order keeps two entries and the
count stands at two, while only one entry can be found by its hash or id.  Once
that is removed, no removal finds the other. -/
theorem two_adds_leave_ghost :
    letI := polynomialDigest
    let pool := (Threads.exec PoolOp.perform lookFirst
      (PoolCalls.start mainnetPool sameOperation)).state
    (∀ t, ((Threads.exec PoolOp.perform lookFirst
      (PoolCalls.start mainnetPool sameOperation)).program t).nextOp = none) ∧
    ¬ EndsSerially mainnetPool sameOperation lookFirst ∧
    (¬ ∃ S, Describes pool S) ∧
    (pool.removeById ⟨1, 0⟩).2.size = 0 ∧ (pool.removeById ⟨1, 0⟩).2.byId.size = 0 ∧
    (pool.removeById ⟨1, 0⟩).2.ordered.size = 1 ∧ (pool.removeById ⟨1, 0⟩).2.count 1 = 1 := by
  let _ := polynomialDigest
  have hghost : ¬ ∃ S, Describes (Threads.exec PoolOp.perform lookFirst
      (PoolCalls.start mainnetPool sameOperation)).state S := by
    rintro ⟨S, h⟩
    have hsize : (Threads.exec PoolOp.perform lookFirst
        (PoolCalls.start mainnetPool sameOperation)).state.byHash.size = S.card :=
      h.byHash.size_eq_card
    have hcount := h.senderCount.getD_eq 1
    have htwo : 2 ≤ S.card := by
      calc 2 = tally S PoolEntry.sender 1 := by rw [← hcount]; decide +kernel
        _ ≤ S.card := Finset.card_filter_le _ _
    have hone : S.card = 1 := by
      rw [← hsize]
      decide +kernel
    omega
  refine ⟨by decide +kernel, ?_, hghost, by decide +kernel⟩
  rintro ⟨order, hnodup, _, hserial⟩
  rw [hserial] at hghost
  exact hghost ((Describes.new _).serial sameOperation hnodup)

end TwoClients

end Bunzo
