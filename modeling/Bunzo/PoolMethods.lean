import Bunzo.AccessContracts
import Bunzo.PoolInterleaving

/-!
# All methods of the pool as programs

The methods that look at the pool or clear it take one lock at a time, too.  With them,
any number of threads make any calls, one after another, and each access happens when its
turn comes.

* `PoolMethod.program` — the accesses of each public method.
* `PoolMethod.run_program` — a method alone is the method of the sequential model.
* `meets_request` — what it takes that a request meets a contract.
* `overlapping_within_limits` — how far the limits of the pool are exceeded.
-/

namespace Bunzo

open AtomicPrograms

/-! ## Accesses -/

/-- The containers that clearing empties, one after another. -/
inductive PoolPart where
  | byHash
  | byId
  | ordered
  | senderCount
deriving DecidableEq

/-- The pool with one container emptied. -/
def PoolPart.cleared : PoolPart → OperationPool → OperationPool
  | .byHash, pool => { pool with byHash := ∅ }
  | .byId, pool => { pool with byId := ∅ }
  | .ordered, pool => { pool with ordered := ∅ }
  | .senderCount, pool => { pool with senderCount := ∅ }

/-- The accesses of all methods. -/
inductive PoolAccess where
  | op (op : PoolOp)
  | size
  | best (maxCount : Nat)
  | hashes
  | entries
  | maxSequence (sender : Address) (nonceKey : U256)
  | clear (part : PoolPart)

namespace PoolAccess

@[reducible] def Answer : PoolAccess → Type
  | op o => o.Answer
  | size => Nat
  | best _ => List PoolEntry
  | hashes => List B256
  | entries => List PoolEntry
  | maxSequence _ _ => Option U64
  | clear _ => Unit

/-- What an access answers and leaves behind; hashes and entries come in the order of the
keys, where a hash map has an order of its own. -/
def perform : (a : PoolAccess) → OperationPool → a.Answer × OperationPool
  | op o, pool => o.perform pool
  | size, pool => (pool.size, pool)
  | best maxCount, pool => (pool.bestOperations maxCount, pool)
  | hashes, pool => (pool.byHash.keys, pool)
  | entries, pool => (pool.byHash.values, pool)
  | maxSequence sender nonceKey, pool => (pool.maxNonceSequence sender nonceKey, pool)
  | clear part, pool => ((), part.cleared pool)

end PoolAccess

/-- The same program, among the accesses of all methods. -/
def PoolProgram.lift {α : Type} : PoolProgram α → Program PoolAccess PoolAccess.Answer α
  | .done a => .done a
  | .access o next => .access (.op o) (fun r => PoolProgram.lift (next r))

theorem PoolProgram.run_lift {α : Type} (p : PoolProgram α) :
    ∀ pool, p.lift.run PoolAccess.perform pool = p.run PoolOp.perform pool := by
  induction p with
  | done a =>
      intro pool
      rfl
  | access o next ih =>
      intro pool
      exact ih _ _

/-! ## Methods -/

/-- The public methods. -/
inductive PoolMethod where
  | request (r : PoolRequest)
  | getByHash (hash : B256)
  | getById (id : UserOperationId)
  | size
  | bestOperations (maxCount : Nat)
  | allHashes
  | dump
  | maxNonceSequence (sender : Address) (nonceKey : U256)
  | clear

inductive PoolResult where
  | reply (r : PoolReply)
  | entry (e : Option PoolEntry)
  | size (n : Nat)
  | entries (es : List PoolEntry)
  | hashes (hs : List B256)
  | sequence (s : Option U64)
  | cleared

namespace PoolMethod

/-- A method of one access. -/
def single (a : PoolAccess) (result : a.Answer → PoolResult) :
    Program PoolAccess PoolAccess.Answer PoolResult := .access a (fun r => .done (result r))

section Programs

variable [Keccak]

def program (config : PoolConfig) :
    PoolMethod → Program PoolAccess PoolAccess.Answer PoolResult
  | request r => do
      let reply ← PoolProgram.lift (r.program config)
      return .reply reply
  | getByHash hash => single (.op (.getHash hash)) .entry
  | getById id => single (.op (.getId id)) .entry
  | size => single .size .size
  | bestOperations maxCount => single (.best maxCount) .entries
  | allHashes => single .hashes .hashes
  | dump => single .entries .entries
  | maxNonceSequence sender nonceKey => single (.maxSequence sender nonceKey) .sequence
  | clear => do
      Program.call (PoolAccess.clear .byHash)
      Program.call (PoolAccess.clear .byId)
      Program.call (PoolAccess.clear .ordered)
      Program.call (PoolAccess.clear .senderCount)
      return .cleared

/-- The pool after a method that runs alone. -/
def after : PoolMethod → OperationPool → OperationPool
  | request r, pool => r.toCall.apply pool
  | clear, pool => PoolCall.clear.apply pool
  | _, pool => pool

/-- **A method alone** is the method of the pool for callers that take turns. -/
theorem run_program (m : PoolMethod) (pool : OperationPool) :
    ((m.program pool.config).run PoolAccess.perform pool).2 = m.after pool := by
  cases m with
  | request r =>
      rw [program, Program.run_bind, Program.run_pure, PoolProgram.run_lift]
      exact r.run_program pool
  | _ => rfl

end Programs

end PoolMethod

/-! ## Requests under a contract -/

namespace PoolProgram

variable {G α : Type}

/-- A contract on the accesses of requests. -/
def onOps (c : Contract PoolAccess PoolAccess.Answer G) : Contract PoolOp PoolOp.Answer G where
  requires o g := c.requires (.op o) g
  ensures o g r g' := c.ensures (.op o) g r g'

theorem meets_lift {c : Contract PoolAccess PoolAccess.Answer G} {Q : α → G → Prop}
    {p : PoolProgram α} : ∀ {g : G}, p.Meets (onOps c) Q g → p.lift.Meets c Q g := by
  induction p with
  | done a =>
      intro g hp
      exact hp
  | access o next ih =>
      intro g hp
      exact ⟨hp.1, fun r g' hens => ih r (hp.2 r g' hens)⟩

end PoolProgram

section Contracts

variable {G : Type} (c : Contract PoolOp PoolOp.Answer G) (I : G → Prop)

/-- An access that any token of a kind suffices for, and that leaves one of that kind. -/
def Keeps (o : PoolOp) : Prop :=
  ∀ g, I g → c.requires o g ∧ ∀ r g', c.ensures o g r g' → I g'

/-- What looks at the pool, and what takes an entry out of it. -/
structure KeepsOthers : Prop where
  containsHash : ∀ hash, Keeps c I (.containsHash hash)
  getHash : ∀ hash, Keeps c I (.getHash hash)
  getId : ∀ id, Keeps c I (.getId id)
  senderAtLimit : ∀ sender limit, Keeps c I (.senderAtLimit sender limit)
  sizeAtLeast : ∀ limit, Keeps c I (.sizeAtLeast limit)
  removeHash : ∀ hash, Keeps c I (.write (.removeHash hash))
  removeId : ∀ id, Keeps c I (.write (.removeId id))
  removeOrdered : ∀ entry, Keeps c I (.write (.removeOrdered entry))
  decrementSender : ∀ sender, Keeps c I (.write (.decrementSender sender))

variable {c I} {L : Address → G → Prop}

theorem KeepsOthers.removeInner (h : KeepsOthers c I) (entry : PoolEntry) {g : G} (hg : I g) :
    (removeInnerProgram entry).Meets c (fun _ => I) g := by
  obtain ⟨hreq₁, hens₁⟩ := h.removeHash entry.hash g hg
  refine ⟨hreq₁, fun _ g₁ h₁ => ?_⟩
  obtain ⟨hreq₂, hens₂⟩ := h.removeId entry.id g₁ (hens₁ _ g₁ h₁)
  refine ⟨hreq₂, fun _ g₂ h₂ => ?_⟩
  obtain ⟨hreq₃, hens₃⟩ := h.removeOrdered entry g₂ (hens₂ _ g₂ h₂)
  refine ⟨hreq₃, fun _ g₃ h₃ => ?_⟩
  obtain ⟨hreq₄, hens₄⟩ := h.decrementSender entry.id.sender g₃ (hens₃ _ g₃ h₃)
  exact ⟨hreq₄, fun _ g₄ h₄ => hens₄ _ g₄ h₄⟩

theorem KeepsOthers.removeFound (h : KeepsOthers c I) (found : Option PoolEntry) {g : G}
    (hg : I g) : (removeFoundProgram found).Meets c (fun _ _ => True) g := by
  cases found with
  | none => trivial
  | some entry =>
      rw [removeFoundProgram]
      exact .bind (fun _ _ _ => .pure trivial) (h.removeInner entry hg)

theorem KeepsOthers.replace (h : KeepsOthers c I) (config : PoolConfig) (uo : UserOperation)
    (existing : Option PoolEntry) {g : G} (hg : I g) :
    (replaceProgram config uo existing).Meets c (fun _ => I) g := by
  cases existing with
  | none => exact hg
  | some entry =>
      rw [replaceProgram]
      split
      · exact hg
      · exact .bind (fun _ _ hg' => .pure hg') (h.removeInner entry hg)

/-- **Requests.**  A request meets a contract if all accesses but those of an insertion keep
a kind of token, and an insertion goes through with the tokens that the limits leave. -/
theorem KeepsOthers.meets_request [Keccak] (h : KeepsOthers c I) (config : PoolConfig)
    (hlimits : ∀ sender g, I g → (limitsProgram config sender).Meets c
      (fun room g' => room = .ok () → L sender g') g)
    (request : PoolRequest)
    (hinsert : ∀ uo baseFee g, request = .add uo baseFee → L uo.sender g →
      (insertProgram uo baseFee).Meets c (fun _ _ => True) g) {g : G} (hg : I g) :
    (request.program config).Meets c (fun _ _ => True) g := by
  cases request with
  | add uo baseFee =>
      rw [PoolRequest.program]
      refine .bind (Q := fun _ _ => True) (fun _ _ _ => .pure trivial) ?_
      obtain ⟨hreq, hens⟩ := h.containsHash uo.hash g hg
      refine ⟨hreq, fun known g₁ h₁ => ?_⟩
      cases known with
      | true => trivial
      | false =>
          obtain ⟨hreq₂, hens₂⟩ := h.getId uo.id g₁ (hens _ g₁ h₁)
          refine ⟨hreq₂, fun existing g₂ h₂ => ?_⟩
          change (replaceProgram config uo existing >>= _).Meets c _ g₂
          refine .bind (fun replaced g₃ hg₃ => ?_) (h.replace config uo existing (hens₂ _ g₂ h₂))
          cases replaced with
          | error e => trivial
          | ok =>
              change (limitsProgram config uo.id.sender >>= _).Meets c _ g₃
              refine .bind (fun room g₄ hroom => ?_) (hlimits uo.id.sender g₃ hg₃)
              cases room with
              | error e => trivial
              | ok =>
                  change (insertProgram uo baseFee >>= _).Meets c _ g₄
                  exact .bind (fun _ _ _ => .pure trivial) (hinsert uo baseFee g₄ rfl (hroom rfl))
  | removeByHash hash =>
      rw [PoolRequest.program]
      refine .bind (Q := fun _ _ => True) (fun _ _ _ => .pure trivial) ?_
      obtain ⟨hreq, hens⟩ := h.getHash hash g hg
      exact ⟨hreq, fun found g₁ h₁ => h.removeFound found (hens _ g₁ h₁)⟩
  | removeById id =>
      rw [PoolRequest.program]
      refine .bind (Q := fun _ _ => True) (fun _ _ _ => .pure trivial) ?_
      obtain ⟨hreq, hens⟩ := h.getId id g hg
      exact ⟨hreq, fun found g₁ h₁ => h.removeFound found (hens _ g₁ h₁)⟩

/-- The same for all methods, if those that only look and clearing keep the tokens, too. -/
theorem meets_program [Keccak] {c : Contract PoolAccess PoolAccess.Answer G}
    (h : KeepsOthers (PoolProgram.onOps c) I)
    (hlooks : ∀ a, (∀ o, a ≠ .op o) → ∀ g, I g →
      c.requires a g ∧ ∀ r g', c.ensures a g r g' → I g')
    (config : PoolConfig)
    (hlimits : ∀ sender g, I g → (limitsProgram config sender).Meets (PoolProgram.onOps c)
      (fun room g' => room = .ok () → L sender g') g)
    (m : PoolMethod)
    (hinsert : ∀ uo baseFee g, m = .request (.add uo baseFee) → L uo.sender g →
      (insertProgram uo baseFee).Meets (PoolProgram.onOps c) (fun _ _ => True) g)
    {g : G} (hg : I g) : (m.program config).Meets c (fun _ _ => True) g := by
  have hlook (a : PoolAccess) (hop : ∀ o, a ≠ .op o) (result : a.Answer → PoolResult) :
      (PoolMethod.single a result).Meets c (fun _ _ => True) g :=
    ⟨(hlooks a hop g hg).1, fun _ _ _ => trivial⟩
  cases m with
  | request r =>
      rw [PoolMethod.program]
      refine .bind (Q := fun _ _ => True) (fun _ _ _ => .pure trivial) ?_
      apply PoolProgram.meets_lift
      exact h.meets_request config hlimits r (fun uo baseFee g' hr => hinsert uo baseFee g'
        (congrArg PoolMethod.request hr)) hg
  | getByHash hash => exact ⟨(h.getHash hash g hg).1, fun _ _ _ => trivial⟩
  | getById id => exact ⟨(h.getId id g hg).1, fun _ _ _ => trivial⟩
  | clear =>
      have hclear (part : PoolPart) := hlooks (.clear part) (fun o heq => nomatch heq)
      refine ⟨(hclear .byHash g hg).1, fun _ g₁ h₁ => ?_⟩
      have hg₁ := (hclear .byHash g hg).2 _ g₁ h₁
      refine ⟨(hclear .byId g₁ hg₁).1, fun _ g₂ h₂ => ?_⟩
      have hg₂ := (hclear .byId g₁ hg₁).2 _ g₂ h₂
      refine ⟨(hclear .ordered g₂ hg₂).1, fun _ g₃ h₃ => ?_⟩
      have hg₃ := (hclear .ordered g₂ hg₂).2 _ g₃ h₃
      exact ⟨(hclear .senderCount g₃ hg₃).1, fun _ _ _ => trivial⟩
  | size => exact hlook .size (fun o heq => nomatch heq) .size
  | bestOperations n => exact hlook (.best n) (fun o heq => nomatch heq) .entries
  | allHashes => exact hlook .hashes (fun o heq => nomatch heq) .hashes
  | dump => exact hlook .entries (fun o heq => nomatch heq) .entries
  | maxNonceSequence sender nonceKey =>
      exact hlook (.maxSequence sender nonceKey) (fun o heq => nomatch heq) .sequence

end Contracts

/-! ## Any calls, in any interleaving -/

/-- Threads that call methods of one pool, which is empty at first. -/
def poolMachine [Keccak] (τ : Type) [DecidableEq τ] (config : PoolConfig)
    (Called : PoolMethod → Prop) :
    ReachableStates.Machine (Threads PoolAccess PoolAccess.Answer PoolResult OperationPool τ)
      (CallEvent PoolAccess PoolAccess.Answer PoolResult τ) :=
  callMachine PoolAccess.perform (fun pool => pool = OperationPool.new config)
    (fun p => ∃ m, Called m ∧ p = m.program config)

section Limits

variable (config : PoolConfig)

/-- The limit on all operations. -/
def sizeLimit : Limit PoolAccess PoolAccess.Answer OperationPool where
  load := OperationPool.size
  limit := config.maxSize
  spends
    | .op o => o.insertsHash
    | _ => false
  passes
    | .op (.sizeAtLeast limit), full => limit = config.maxSize ∧ full = false
    | _, _ => False

/-- The limit on the operations of a sender. -/
def senderLimit (sender : Address) : Limit PoolAccess PoolAccess.Answer OperationPool where
  load pool := pool.count sender
  limit := config.maxOpsPerSender
  spends
    | .op o => o.incrementsSender sender
    | _ => false
  passes
    | .op (.senderAtLimit sender' limit), count =>
        sender' = sender ∧ limit = config.maxOpsPerSender ∧ count = none
    | _, _ => False

theorem sizeLimit_respects : (sizeLimit config).Respects PoolAccess.perform where
  load_le := by
    intro a pool
    cases a with
    | op o =>
        cases o with
        | write w =>
            cases w with
            | insertHash hash entry => exact Std.ExtTreeMap.size_insert_le
            | removeHash hash => exact Std.ExtTreeMap.size_erase_le
            | _ => exact Nat.le_refl _
        | _ => exact Nat.le_refl _
    | clear part =>
        cases part with
        | byHash =>
            change (∅ : Std.ExtTreeMap B256 PoolEntry).size ≤ _
            rw [Std.ExtTreeMap.size_empty]
            exact Nat.zero_le _
        | _ => exact Nat.le_refl _
    | _ => exact Nat.le_refl _
  room := by
    intro a pool hpass
    cases a with
    | op o =>
        cases o with
        | sizeAtLeast limit =>
            obtain ⟨rfl, hroom⟩ := hpass
            exact ⟨Bool.false_ne_true, not_le.mp (of_decide_eq_false hroom)⟩
        | _ => exact hpass.elim
    | _ => exact hpass.elim

theorem senderLimit_respects (sender : Address) :
    (senderLimit config sender).Respects PoolAccess.perform where
  load_le := by
    intro a pool
    cases a with
    | op o =>
        cases o with
        | write w =>
            cases w with
            | incrementSender sender' =>
                have hcount := PoolOp.count_incremented pool sender sender'
                simp only [senderLimit, PoolAccess.perform, PoolOp.perform, hcount,
                  PoolOp.incrementsSender]
                grind
            | decrementSender sender' =>
                have hcount := PoolOp.count_decremented pool sender sender'
                simp only [senderLimit, PoolAccess.perform, PoolOp.perform, hcount,
                  PoolOp.incrementsSender]
                grind
            | _ => exact Nat.le_refl _
        | _ => exact Nat.le_refl _
    | clear part =>
        cases part with
        | senderCount =>
            change (∅ : Std.ExtTreeMap Address Nat)[sender]?.getD 0 ≤ _
            rw [Std.ExtTreeMap.getElem?_empty]
            exact Nat.zero_le _
        | _ => exact Nat.le_refl _
    | _ => exact Nat.le_refl _
  room := by
    intro a pool hpass
    cases a with
    | op o =>
        cases o with
        | senderAtLimit sender' limit =>
            obtain ⟨rfl, rfl, hroom⟩ := hpass
            refine ⟨Bool.false_ne_true, ?_⟩
            change (if config.maxOpsPerSender ≤ pool.count sender' then some _ else none) = none
              at hroom
            split at hroom
            · cases hroom
            · next hlt => exact not_le.mp hlt
        | _ => exact hpass.elim
    | _ => exact hpass.elim

/-- What spends nothing needs no leave. -/
theorem keeps_of_not_spends {l : Limit PoolAccess PoolAccess.Answer OperationPool} {o : PoolOp}
    (h : l.spends (.op o) = false) :
    Keeps (PoolProgram.onOps l.contract) (fun _ => True) o := by
  intro g _
  refine ⟨?_, fun _ _ _ => trivial⟩
  intro hspends
  rw [h] at hspends
  cases hspends

theorem keepsOthers_of_not_spends {l : Limit PoolAccess PoolAccess.Answer OperationPool}
    (h : ∀ o : PoolOp, l.spends (.op o) = true → (∃ hash entry, o = .write (.insertHash hash entry))
      ∨ ∃ sender, o = .write (.incrementSender sender)) :
    KeepsOthers (PoolProgram.onOps l.contract) (fun _ => True) := by
  have hidle : ∀ o : PoolOp, (∀ hash entry, o ≠ .write (.insertHash hash entry)) →
      (∀ sender, o ≠ .write (.incrementSender sender)) →
        Keeps (PoolProgram.onOps l.contract) (fun _ => True) o := by
    intro o hhash hsender
    apply keeps_of_not_spends
    rw [← Bool.not_eq_true]
    intro hspends
    rcases h o hspends with ⟨hash, entry, rfl⟩ | ⟨sender, rfl⟩
    · exact hhash hash entry rfl
    · exact hsender sender rfl
  constructor <;> intros <;> apply hidle <;> intros <;> exact fun h => nomatch h

/-- Whoever has seen room for an operation may put its hash in. -/
theorem meets_sizeLimit [Keccak] (m : PoolMethod) :
    (m.program config).Meets (sizeLimit config).contract (fun _ _ => True) false := by
  have hothers := keepsOthers_of_not_spends (l := sizeLimit config) (by
    intro o hspends
    cases o with
    | write w =>
        cases w with
        | insertHash hash entry => exact Or.inl ⟨hash, entry, rfl⟩
        | _ => cases hspends
    | _ => cases hspends)
  refine meets_program (I := fun _ => True) (L := fun _ g => g = true) hothers ?_ config ?_ m ?_
    trivial
  · intro a hop g _
    refine ⟨?_, fun _ _ _ => trivial⟩
    cases a with
    | op o => exact absurd rfl (hop o)
    | _ => exact fun hspends => nomatch hspends
  · intro sender g _
    refine ⟨(fun hspends => nomatch hspends), fun count g₁ _ => ?_⟩
    cases count with
    | some n => exact fun heq => nomatch heq
    | none =>
        refine ⟨(fun hspends => nomatch hspends), fun full g₂ h₂ => ?_⟩
        cases full with
        | true => exact fun heq => nomatch heq
        | false => exact fun _ => h₂.1 ⟨rfl, rfl⟩
  · intro uo baseFee g _ hleave
    refine ⟨(fun hspends => nomatch hspends), fun _ g₁ h₁ => ?_⟩
    refine ⟨fun _ => h₁.2 hleave rfl, fun _ _ _ => ?_⟩
    refine ⟨(fun hspends => nomatch hspends), fun _ _ _ => ?_⟩
    refine ⟨(fun hspends => nomatch hspends), fun _ _ _ => ?_⟩
    refine ⟨(fun hspends => nomatch hspends), fun _ _ _ => ?_⟩
    exact ⟨(fun hspends => nomatch hspends), fun _ _ _ => trivial⟩

/-- Whoever has seen room for an operation of the sender may count it. -/
theorem meets_senderLimit [Keccak] (sender : Address) (m : PoolMethod) :
    (m.program config).Meets (senderLimit config sender).contract (fun _ _ => True) false := by
  have hothers := keepsOthers_of_not_spends (l := senderLimit config sender) (by
    intro o hspends
    cases o with
    | write w =>
        cases w with
        | incrementSender sender' => exact Or.inr ⟨sender', rfl⟩
        | _ => cases hspends
    | _ => cases hspends)
  refine meets_program (I := fun _ => True) (L := fun sender' g => sender' = sender → g = true)
    hothers ?_ config ?_ m ?_ trivial
  · intro a hop g _
    refine ⟨?_, fun _ _ _ => trivial⟩
    cases a with
    | op o => exact absurd rfl (hop o)
    | _ => exact fun hspends => nomatch hspends
  · intro sender' g _
    refine ⟨(fun hspends => nomatch hspends), fun count g₁ h₁ => ?_⟩
    cases count with
    | some n => exact fun heq => nomatch heq
    | none =>
        refine ⟨(fun hspends => nomatch hspends), fun full g₂ h₂ => ?_⟩
        cases full with
        | true => exact fun heq => nomatch heq
        | false => exact fun _ hsender => h₂.2 (h₁.1 ⟨hsender, rfl, rfl⟩) rfl
  · intro uo baseFee g _ hleave
    refine ⟨(fun hspends => nomatch hspends), fun _ g₁ h₁ => ?_⟩
    refine ⟨(fun hspends => nomatch hspends), fun _ g₂ h₂ => ?_⟩
    refine ⟨(fun hspends => nomatch hspends), fun _ g₃ h₃ => ?_⟩
    refine ⟨(fun hspends => nomatch hspends), fun _ g₄ h₄ => ?_⟩
    refine ⟨?_, fun _ _ _ => ⟨(fun hspends => nomatch hspends), fun _ _ _ => trivial⟩⟩
    intro hspends
    have hsender : uo.sender = sender := of_decide_eq_true hspends
    exact h₄.2 (h₃.2 (h₂.2 (h₁.2 (hleave hsender) rfl) rfl) rfl) rfl

end Limits

section Overlapping

variable [Keccak] {τ : Type} [DecidableEq τ] [Fintype τ] {config : PoolConfig}
  {Called : PoolMethod → Prop}

/-- **How far the limits are exceeded.**  However the calls of any number of threads
interleave, the size that the pool reports, which is that of its index by hash, exceeds the
limit by fewer than there are threads, and so does the count of each sender: each thread but
one can have looked too early.  The order is not bounded so; it may keep what no index finds. -/
theorem overlapping_within_limits
    {cond : Threads PoolAccess PoolAccess.Answer PoolResult OperationPool τ →
      CallEvent PoolAccess PoolAccess.Answer PoolResult τ → Prop}
    {c : Threads PoolAccess PoolAccess.Answer PoolResult OperationPool τ}
    (h : (poolMachine τ config Called).ReachableUnder cond c) :
    c.state.size ≤ config.maxSize + (Fintype.card τ - 1) ∧
      ∀ sender, c.state.count sender ≤ config.maxOpsPerSender + (Fintype.card τ - 1) := by
  refine ⟨?_, ?_⟩
  · refine (sizeLimit_respects config).load_le_of_reachable ?_ ?_ h
    · rintro pool rfl
      exact Nat.zero_le _
    · rintro p ⟨m, _, rfl⟩
      exact meets_sizeLimit config m
  · intro sender
    refine (senderLimit_respects config sender).load_le_of_reachable ?_ ?_ h
    · rintro pool rfl
      exact Nat.zero_le _
    · rintro p ⟨m, _, rfl⟩
      exact meets_senderLimit config sender m

end Overlapping

/-! ## Two clients at a pool for one operation -/

section OneRoom

/-- Room for one operation. -/
def oneRoom : PoolConfig where
  maxSize := 1
  maxOpsPerSender := 4
  replacementFeeBumpBps := 1000

variable [Keccak]

/-- Nobody has called yet. -/
def idleThreads : Threads PoolAccess PoolAccess.Answer PoolResult OperationPool Bool where
  program _ := .done .cleared
  state := OperationPool.new oneRoom

/-- Both clients add an operation, and take turns, access by access. -/
def racingEvents : List (CallEvent PoolAccess PoolAccess.Answer PoolResult Bool) :=
  [.begin false ((PoolMethod.request (twoOperations false)).program oneRoom),
    .begin true ((PoolMethod.request (twoOperations true)).program oneRoom)] ++
      alternating.map CallEvent.step

def raced : Threads PoolAccess PoolAccess.Answer PoolResult OperationPool Bool :=
  (poolMachine Bool oneRoom (fun _ => True)).run racingEvents idleThreads

theorem raced_reachable : (poolMachine Bool oneRoom (fun _ => True)).Reachable raced := by
  have hinit : (poolMachine Bool oneRoom (fun _ => True)).init idleThreads :=
    ⟨rfl, fun _ => ⟨_, rfl⟩⟩
  apply ReachableStates.Machine.reachable_run (.init hinit)
  refine (ReachableStates.Machine.along_append _ _ _).mpr ⟨?_, ?_⟩
  · exact ⟨⟨⟨_, rfl⟩, _, trivial, rfl⟩, ⟨⟨_, rfl⟩, _, trivial, rfl⟩, trivial⟩
  · apply ReachableStates.Machine.along_of_mem
    intro e he c
    obtain ⟨t, _, rfl⟩ := List.mem_map.mp he
    trivial

end OneRoom

/-- Both have looked in time, and the bound is reached. -/
theorem overlapping_within_limits_two :
    letI := polynomialDigest
    raced.state.size = 2 ∧ raced.state.size ≤ 1 + (Fintype.card Bool - 1) ∧
      ∀ sender, raced.state.count sender ≤ 4 + (Fintype.card Bool - 1) := by
  let _ := polynomialDigest
  exact ⟨by decide +kernel, overlapping_within_limits raced_reachable⟩

end Bunzo
