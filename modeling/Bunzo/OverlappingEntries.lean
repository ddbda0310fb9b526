import Bunzo.AdditionOrder
import Bunzo.PoolMethods

/-!
# Entries under overlapping calls

Calls that overlap may leave the containers of the pool in disagreement.  Still, what each
of them holds was made by some call and has a number of its own, and what is stored under a
hash or an id has it: a thread that has drawn a number is the only one to use it, for one
entry.

* `EntryToken` — what a thread knows between two accesses.
* `entryContract` — an entry is put in by the thread that made it.
* `overlapping_entries` — what all containers hold, in any interleaving.
-/

namespace Bunzo

open AtomicPrograms FiniteIndices MachineWords

/-- What a thread holds: nothing, a number that it has drawn, or the entry with it. -/
inductive EntryToken where
  | idle
  | drawn (sequence : U64)
  | holds (entry : PoolEntry)

namespace OperationPool

/-- An entry that some container holds. -/
def Finds (pool : OperationPool) (e : PoolEntry) : Prop :=
  (∃ hash : B256, pool.byHash[hash]? = some e) ∨
    (∃ id : UserOperationId, pool.byId[id]? = some e) ∨ e ∈ pool.ordered.toList

/-- What is stored under a hash or an id has that hash or id. -/
structure KeysAgree (pool : OperationPool) : Prop where
  byHash : ∀ (hash : B256) (e : PoolEntry), pool.byHash[hash]? = some e → e.hash = hash
  byId : ∀ (id : UserOperationId) (e : PoolEntry), pool.byId[id]? = some e → e.id = id

end OperationPool

/-! ## What a write finds -/

section Writes

variable {pool : OperationPool}

/-- What a write finds afterwards was found before, or is what it put in. -/
theorem finds_write {w : PoolWrite} {e : PoolEntry} (h : (w.apply pool).Finds e) :
    pool.Finds e ∨ (∃ hash, w = .insertHash hash e) ∨ (∃ id, w = .insertId id e) ∨
      w = .insertOrdered e := by
  rcases h with ⟨hash, hhash⟩ | ⟨id, hid⟩ | hordered
  · cases w with
    | insertHash hash' e' =>
        change (pool.byHash.insert hash' e')[hash]? = some e at hhash
        rw [Std.ExtTreeMap.getElem?_insert] at hhash
        split at hhash
        · rw [Option.some.inj hhash]
          exact Or.inr (Or.inl ⟨hash', rfl⟩)
        · exact Or.inl (Or.inl ⟨hash, hhash⟩)
    | removeHash hash' =>
        change (pool.byHash.erase hash')[hash]? = some e at hhash
        rw [Std.ExtTreeMap.getElem?_erase] at hhash
        split at hhash
        · cases hhash
        · exact Or.inl (Or.inl ⟨hash, hhash⟩)
    | _ => exact Or.inl (Or.inl ⟨hash, hhash⟩)
  · cases w with
    | insertId id' e' =>
        change (pool.byId.insert id' e')[id]? = some e at hid
        rw [Std.ExtTreeMap.getElem?_insert] at hid
        split at hid
        · rw [Option.some.inj hid]
          exact Or.inr (Or.inr (Or.inl ⟨id', rfl⟩))
        · exact Or.inl (Or.inr (Or.inl ⟨id, hid⟩))
    | removeId id' =>
        change (pool.byId.erase id')[id]? = some e at hid
        rw [Std.ExtTreeMap.getElem?_erase] at hid
        split at hid
        · cases hid
        · exact Or.inl (Or.inr (Or.inl ⟨id, hid⟩))
    | _ => exact Or.inl (Or.inr (Or.inl ⟨id, hid⟩))
  · cases w with
    | insertOrdered e' =>
        change e ∈ (pool.ordered.insert e').toList at hordered
        rw [mem_toList_iff, Std.ExtTreeSet.get?_insert] at hordered
        split at hordered
        · rw [Option.some.inj hordered]
          exact Or.inr (Or.inr (Or.inr rfl))
        · exact Or.inl (Or.inr (Or.inr (mem_toList_iff.mpr hordered)))
    | removeOrdered e' =>
        change e ∈ (pool.ordered.erase e').toList at hordered
        rw [mem_toList_iff, Std.ExtTreeSet.get?_erase] at hordered
        split at hordered
        · cases hordered
        · exact Or.inl (Or.inr (Or.inr (mem_toList_iff.mpr hordered)))
    | _ => exact Or.inl (Or.inr (Or.inr hordered))

/-- A write keeps the keys, if it puts entries in under their own. -/
theorem keysAgree_write (h : pool.KeysAgree) {w : PoolWrite}
    (hhash : ∀ hash e, w = .insertHash hash e → e.hash = hash)
    (hid : ∀ id e, w = .insertId id e → e.id = id) : (w.apply pool).KeysAgree := by
  refine ⟨?_, ?_⟩
  · intro hash e he
    cases w with
    | insertHash hash' e' =>
        change (pool.byHash.insert hash' e')[hash]? = some e at he
        rw [Std.ExtTreeMap.getElem?_insert] at he
        split at he
        · next heq =>
            rw [← Option.some.inj he, hhash hash' e' rfl]
            exact Std.LawfulEqCmp.compare_eq_iff_eq.mp heq
        · exact h.byHash hash e he
    | removeHash hash' =>
        change (pool.byHash.erase hash')[hash]? = some e at he
        rw [Std.ExtTreeMap.getElem?_erase] at he
        split at he
        · cases he
        · exact h.byHash hash e he
    | _ => exact h.byHash hash e he
  · intro id e he
    cases w with
    | insertId id' e' =>
        change (pool.byId.insert id' e')[id]? = some e at he
        rw [Std.ExtTreeMap.getElem?_insert] at he
        split at he
        · next heq =>
            rw [← Option.some.inj he, hid id' e' rfl]
            exact Std.LawfulEqCmp.compare_eq_iff_eq.mp heq
        · exact h.byId id e he
    | removeId id' =>
        change (pool.byId.erase id')[id]? = some e at he
        rw [Std.ExtTreeMap.getElem?_erase] at he
        split at he
        · cases he
        · exact h.byId id e he
    | _ => exact h.byId id e he

end Writes

/-! ## The contract -/

section Contract

variable [Keccak] (Called : PoolMethod → Prop)

/-- An entry that a call to add made. -/
def MadeByCall (e : PoolEntry) : Prop :=
  ∃ uo baseFee sequence, Called (.request (.add uo baseFee)) ∧
    e = PoolEntry.new uo baseFee sequence

/-- The first insertion fixes the entry of a drawn number, the others repeat it. -/
def entryContract : Contract PoolAccess PoolAccess.Answer EntryToken where
  requires
    | .op (.write (.insertHash hash e)), token =>
        token = .drawn e.sequence ∧ e.hash = hash ∧ MadeByCall Called e
    | .op (.write (.insertId id e)), token => token = .holds e ∧ e.id = id
    | .op (.write (.insertOrdered e)), token => token = .holds e
    | _, _ => True
  ensures
    | .op .takeSequence, _, sequence, token' => token' = .drawn sequence
    | .op (.write (.insertHash _ e)), _, _, token' => token' = .holds e
    | _, token, _, token' => token' = token

end Contract

/-! ## The invariant -/

section Invariant

variable [Keccak] {τ : Type} (Called : PoolMethod → Prop)

/-- An entry of the pool, or one that a thread is about to complete. -/
def KnownEntry (pool : OperationPool) (tokens : τ → EntryToken) (e : PoolEntry) : Prop :=
  pool.Finds e ∨ ∃ t, tokens t = .holds e

/-- Numbers are used up in order: each known entry has one below the next, no two have the
same, and a drawn number is that of no entry and no other thread. -/
structure NumbersUsed (pool : OperationPool) (tokens : τ → EntryToken) : Prop where
  below : ∀ e, KnownEntry pool tokens e → e.sequence < pool.nextSequence
  drawn_below : ∀ t sequence, tokens t = .drawn sequence → sequence < pool.nextSequence
  unique : ∀ e e', KnownEntry pool tokens e → KnownEntry pool tokens e' →
    e.sequence = e'.sequence → e = e'
  drawn_free : ∀ t sequence, tokens t = .drawn sequence →
    (∀ e, KnownEntry pool tokens e → e.sequence ≠ sequence) ∧
      ∀ u, tokens u = .drawn sequence → u = t

/-- What holds between any two accesses; numbers repeat once the counter has stopped. -/
structure EntriesKept (pool : OperationPool) (tokens : τ → EntryToken) : Prop where
  keyed : pool.KeysAgree
  made : ∀ e, KnownEntry pool tokens e → MadeByCall Called e
  numbers : pool.nextSequence ≠ BitVec.allOnes 64 → NumbersUsed pool tokens

variable {Called} {pool pool' : OperationPool} {tokens tokens' : τ → EntryToken}

/-- Nothing is wrong with fewer entries and fewer drawn numbers. -/
theorem EntriesKept.mono (h : EntriesKept Called pool tokens) (hkeyed : pool'.KeysAgree)
    (hnext : pool'.nextSequence = pool.nextSequence)
    (hknown : ∀ e, KnownEntry pool' tokens' e → KnownEntry pool tokens e)
    (hdrawn : ∀ t sequence, tokens' t = .drawn sequence → tokens t = .drawn sequence) :
    EntriesKept Called pool' tokens' where
  keyed := hkeyed
  made e he := h.made e (hknown e he)
  numbers hrunning := by
    rw [hnext] at hrunning
    have hnumbers := h.numbers hrunning
    refine ⟨?_, ?_, ?_, ?_⟩
    · intro e he
      rw [hnext]
      exact hnumbers.below e (hknown e he)
    · intro t sequence ht
      rw [hnext]
      exact hnumbers.drawn_below t sequence (hdrawn t sequence ht)
    · intro e e' he he'
      exact hnumbers.unique e e' (hknown e he) (hknown e' he')
    · intro t sequence ht
      obtain ⟨hfree, honly⟩ := hnumbers.drawn_free t sequence (hdrawn t sequence ht)
      exact ⟨fun e he => hfree e (hknown e he), fun u hu => honly u (hdrawn u sequence hu)⟩

/-- A pool that finds less. -/
theorem EntriesKept.of_finds (h : EntriesKept Called pool tokens) (hkeyed : pool'.KeysAgree)
    (hnext : pool'.nextSequence = pool.nextSequence)
    (hfinds : ∀ e, pool'.Finds e → KnownEntry pool tokens e) :
    EntriesKept Called pool' tokens := by
  refine h.mono hkeyed hnext ?_ (fun _ _ ht => ht)
  rintro e (he | ht)
  · exact hfinds e he
  · exact Or.inr ht

variable [DecidableEq τ]

/-- The next number is new. -/
theorem EntriesKept.draw (h : EntriesKept Called pool tokens) (t : τ) :
    EntriesKept Called
      { pool with nextSequence := saturatingAdd pool.nextSequence 1 }
      (Function.update tokens t (.drawn pool.nextSequence)) := by
  have hknown : ∀ e, KnownEntry { pool with nextSequence := saturatingAdd pool.nextSequence 1 }
      (Function.update tokens t (.drawn pool.nextSequence)) e → KnownEntry pool tokens e := by
    rintro e (he | ⟨u, hu⟩)
    · exact Or.inl he
    · by_cases hut : u = t
      · rw [hut, Function.update_self] at hu
        cases hu
      · rw [Function.update_of_ne hut] at hu
        exact Or.inr ⟨u, hu⟩
  refine ⟨⟨h.keyed.byHash, h.keyed.byId⟩, fun e he => h.made e (hknown e he), ?_⟩
  intro hrunning
  have hlt : pool.nextSequence.toNat + (1 : U64).toNat < 2 ^ 64 := by
    by_contra hge
    apply hrunning
    change saturatingAdd pool.nextSequence 1 = _
    unfold saturatingAdd
    rw [if_neg hge]
  have hnext : saturatingAdd pool.nextSequence 1 = pool.nextSequence + 1 :=
    saturatingAdd_eq hlt
  have hnumbers := h.numbers (by
    intro heq
    rw [heq] at hlt
    exact absurd hlt (by decide))
  have hstep : ∀ x : U64, x < pool.nextSequence → x < pool.nextSequence + 1 := by
    intro x hx
    bv_omega
  have hself : pool.nextSequence < pool.nextSequence + 1 := by bv_omega
  have htoken (u : τ) (sequence : U64)
      (hu : Function.update tokens t (.drawn pool.nextSequence) u = .drawn sequence) :
      (u = t ∧ sequence = pool.nextSequence) ∨ (u ≠ t ∧ tokens u = .drawn sequence) := by
    by_cases hut : u = t
    · rw [hut, Function.update_self] at hu
      exact Or.inl ⟨hut, (EntryToken.drawn.inj hu).symm⟩
    · rw [Function.update_of_ne hut] at hu
      exact Or.inr ⟨hut, hu⟩
  refine ⟨?_, ?_, ?_, ?_⟩
  · intro e he
    change e.sequence < saturatingAdd pool.nextSequence 1
    rw [hnext]
    exact hstep _ (hnumbers.below e (hknown e he))
  · intro u sequence hu
    change sequence < saturatingAdd pool.nextSequence 1
    rw [hnext]
    rcases htoken u sequence hu with ⟨_, rfl⟩ | ⟨_, hu'⟩
    · exact hself
    · exact hstep _ (hnumbers.drawn_below u sequence hu')
  · intro e e' he he'
    exact hnumbers.unique e e' (hknown e he) (hknown e' he')
  · intro u sequence hu
    rcases htoken u sequence hu with ⟨rfl, rfl⟩ | ⟨hne, hu'⟩
    · refine ⟨?_, ?_⟩
      · intro e he heq
        have hbelow := hnumbers.below e (hknown e he)
        rw [heq] at hbelow
        exact BitVec.lt_irrefl _ hbelow
      · intro v hv
        rcases htoken v _ hv with ⟨hvt, _⟩ | ⟨_, hv'⟩
        · exact hvt
        · exact absurd (hnumbers.drawn_below v _ hv') (BitVec.lt_irrefl _)
    · obtain ⟨hfree, honly⟩ := hnumbers.drawn_free u sequence hu'
      refine ⟨fun e he => hfree e (hknown e he), ?_⟩
      intro v hv
      rcases htoken v sequence hv with ⟨_, rfl⟩ | ⟨_, hv'⟩
      · exact absurd (hnumbers.drawn_below u _ hu') (BitVec.lt_irrefl _)
      · exact honly v hv'

/-- The thread that has drawn a number makes one entry with it. -/
theorem EntriesKept.make (h : EntriesKept Called pool tokens) {t : τ} {e : PoolEntry}
    (ht : tokens t = .drawn e.sequence) (he : MadeByCall Called e) :
    EntriesKept Called ((PoolWrite.insertHash e.hash e).apply pool)
      (Function.update tokens t (.holds e)) := by
  have hknown : ∀ a, KnownEntry ((PoolWrite.insertHash e.hash e).apply pool)
      (Function.update tokens t (.holds e)) a → a = e ∨ KnownEntry pool tokens a := by
    rintro a (ha | ⟨u, hu⟩)
    · rcases finds_write ha with hfound | ⟨hash, heq⟩ | ⟨id, heq⟩ | heq
      · exact Or.inr (Or.inl hfound)
      · exact Or.inl (PoolWrite.insertHash.inj heq).2.symm
      · cases heq
      · cases heq
    · by_cases hut : u = t
      · rw [hut, Function.update_self] at hu
        exact Or.inl (EntryToken.holds.inj hu).symm
      · rw [Function.update_of_ne hut] at hu
        exact Or.inr (Or.inr ⟨u, hu⟩)
  have hdrawn (u : τ) (sequence : U64)
      (hu : Function.update tokens t (.holds e) u = .drawn sequence) :
      u ≠ t ∧ tokens u = .drawn sequence := by
    by_cases hut : u = t
    · rw [hut, Function.update_self] at hu
      cases hu
    · rw [Function.update_of_ne hut] at hu
      exact ⟨hut, hu⟩
  refine ⟨keysAgree_write h.keyed ?_ (fun id a heq => nomatch heq), ?_, ?_⟩
  · intro hash a heq
    obtain ⟨rfl, rfl⟩ := PoolWrite.insertHash.inj heq
    rfl
  · intro a ha
    rcases hknown a ha with rfl | ha'
    · exact he
    · exact h.made a ha'
  · intro hrunning
    have hnumbers := h.numbers hrunning
    obtain ⟨hfree, honly⟩ := hnumbers.drawn_free t e.sequence ht
    refine ⟨?_, ?_, ?_, ?_⟩
    · intro a ha
      rcases hknown a ha with rfl | ha'
      · exact hnumbers.drawn_below t _ ht
      · exact hnumbers.below a ha'
    · intro u sequence hu
      exact hnumbers.drawn_below u sequence (hdrawn u sequence hu).2
    · intro a b ha hb heq
      rcases hknown a ha with rfl | ha' <;> rcases hknown b hb with rfl | hb'
      · rfl
      · exact absurd heq.symm (hfree b hb')
      · exact absurd heq (hfree a ha')
      · exact hnumbers.unique a b ha' hb' heq
    · intro u sequence hu
      obtain ⟨hut, hu'⟩ := hdrawn u sequence hu
      obtain ⟨hfree', honly'⟩ := hnumbers.drawn_free u sequence hu'
      refine ⟨?_, fun v hv => honly' v (hdrawn v sequence hv).2⟩
      intro a ha
      rcases hknown a ha with rfl | ha'
      · rintro rfl
        exact hut (honly u hu')
      · exact hfree' a ha'

end Invariant

/-! ## Any interleaving -/

section Interleavings

variable [Keccak] {τ : Type} [DecidableEq τ] {Called : PoolMethod → Prop}
  {pool : OperationPool} {tokens : τ → EntryToken}

omit [DecidableEq τ] in
/-- Clearing a container only takes out. -/
theorem EntriesKept.clear (h : EntriesKept Called pool tokens) (part : PoolPart) :
    EntriesKept Called (part.cleared pool) tokens := by
  have hnone {κ : Type} {cmp : κ → κ → Ordering} [Std.TransCmp cmp] (k : κ) (e : PoolEntry) :
      (∅ : Std.ExtTreeMap κ PoolEntry cmp)[k]? ≠ some e := by
    rw [Std.ExtTreeMap.getElem?_empty]
    exact fun heq => nomatch heq
  refine h.of_finds ⟨?_, ?_⟩ (by cases part <;> rfl) ?_
  · intro hash e he
    cases part with
    | byHash => exact absurd he (hnone hash e)
    | _ => exact h.keyed.byHash hash e he
  · intro id e he
    cases part with
    | byId => exact absurd he (hnone id e)
    | _ => exact h.keyed.byId id e he
  · rintro e (⟨hash, hhash⟩ | ⟨id, hid⟩ | hordered)
    · cases part with
      | byHash => exact absurd hhash (hnone hash e)
      | _ => exact Or.inl (Or.inl ⟨hash, hhash⟩)
    · cases part with
      | byId => exact absurd hid (hnone id e)
      | _ => exact Or.inl (Or.inr (Or.inl ⟨id, hid⟩))
    · cases part with
      | ordered =>
          change e ∈ (∅ : Std.ExtTreeSet PoolEntry OrderEntry.cmp).toList at hordered
          rw [mem_toList_iff, Std.ExtTreeSet.get?_empty] at hordered
          cases hordered
      | _ => exact Or.inl (Or.inr (Or.inr hordered))

omit [DecidableEq τ] in
/-- A write that puts in only what its thread holds. -/
theorem EntriesKept.write (h : EntriesKept Called pool tokens) {t : τ} {w : PoolWrite}
    (hreq : (entryContract Called).requires (.op (.write w)) (tokens t))
    (hnew : ∀ hash e, w ≠ .insertHash hash e) : EntriesKept Called (w.apply pool) tokens := by
  refine h.of_finds (keysAgree_write h.keyed (fun hash e hw => absurd hw (hnew hash e)) ?_)
    (by cases w <;> rfl) ?_
  · rintro id e rfl
    exact hreq.2
  · intro e he
    rcases finds_write he with hfound | ⟨hash, hw⟩ | ⟨id, rfl⟩ | rfl
    · exact Or.inl hfound
    · exact absurd hw (hnew hash e)
    · exact Or.inr ⟨t, hreq.1⟩
    · exact Or.inr ⟨t, hreq⟩

theorem entryContract_honoured :
    Honours PoolAccess.perform (entryContract Called) .idle
      (fun pool (tokens : τ → EntryToken) => EntriesKept Called pool tokens) where
  access := by
    intro pool tokens t a h hreq
    have hsame : Function.update tokens t (tokens t) = tokens := Function.update_eq_self t tokens
    cases a with
    | op o =>
        cases o with
        | takeSequence => exact ⟨_, rfl, h.draw t⟩
        | write w =>
            by_cases hnew : ∃ hash e, w = .insertHash hash e
            · obtain ⟨hash, e, rfl⟩ := hnew
              obtain ⟨htoken, rfl, hmade⟩ := hreq
              exact ⟨_, rfl, h.make htoken hmade⟩
            · rw [not_exists] at hnew
              refine ⟨tokens t, ?_, ?_⟩
              · cases w with
                | insertHash hash e => exact absurd ⟨e, rfl⟩ (hnew hash)
                | _ => rfl
              · rw [hsame]
                exact h.write hreq (fun hash e hw => hnew hash ⟨e, hw⟩)
        | _ =>
            refine ⟨tokens t, rfl, ?_⟩
            rw [hsame]
            exact h
    | clear part =>
        refine ⟨tokens t, rfl, ?_⟩
        rw [hsame]
        exact h.clear part
    | _ =>
        refine ⟨tokens t, rfl, ?_⟩
        rw [hsame]
        exact h
  idle := by
    intro pool tokens t h
    refine h.mono h.keyed rfl ?_ ?_
    · rintro e (he | ⟨u, hu⟩)
      · exact Or.inl he
      · by_cases hut : u = t
        · rw [hut, Function.update_self] at hu
          cases hu
        · rw [Function.update_of_ne hut] at hu
          exact Or.inr ⟨u, hu⟩
    · intro u sequence hu
      by_cases hut : u = t
      · rw [hut, Function.update_self] at hu
        cases hu
      · rw [Function.update_of_ne hut] at hu
        exact hu

/-- A request puts its own entry in, under the number it has drawn. -/
theorem meets_entryContract (config : PoolConfig) {m : PoolMethod} (hm : Called m) :
    (m.program config).Meets (entryContract Called) (fun _ _ => True) .idle := by
  have hothers : KeepsOthers (PoolProgram.onOps (entryContract Called)) (fun _ => True) := by
    constructor <;> intros <;> exact fun _ _ => ⟨trivial, fun _ _ _ => trivial⟩
  refine meets_program (L := fun _ _ => True) hothers ?_ config ?_ m ?_ trivial
  · intro a hop g _
    refine ⟨?_, fun _ _ _ => trivial⟩
    cases a with
    | op o => exact absurd rfl (hop o)
    | _ => trivial
  · intro sender g _
    refine ⟨trivial, fun count g₁ _ => ?_⟩
    cases count with
    | some n => exact fun _ => trivial
    | none =>
        refine ⟨trivial, fun full g₂ _ => ?_⟩
        cases full <;> exact fun _ => trivial
  · rintro uo baseFee g rfl _
    refine ⟨trivial, fun sequence g₁ h₁ => ?_⟩
    refine ⟨⟨h₁, rfl, uo, baseFee, sequence, hm, rfl⟩, fun _ g₂ h₂ => ?_⟩
    refine ⟨⟨h₂, rfl⟩, fun _ g₃ h₃ => ?_⟩
    refine ⟨h₃.trans h₂, fun _ g₄ _ => ?_⟩
    exact ⟨trivial, fun _ _ _ => ⟨trivial, fun _ _ _ => trivial⟩⟩

omit [DecidableEq τ] in
theorem entriesKept_new (config : PoolConfig) :
    EntriesKept Called (OperationPool.new config) (fun _ : τ => .idle) := by
  have hnone : ∀ e, ¬ KnownEntry (OperationPool.new config) (fun _ : τ => .idle) e := by
    rintro e ((⟨hash, hhash⟩ | ⟨id, hid⟩ | hordered) | ⟨t, ht⟩)
    · change (∅ : Std.ExtTreeMap B256 PoolEntry)[hash]? = some e at hhash
      rw [Std.ExtTreeMap.getElem?_empty] at hhash
      cases hhash
    · change (∅ : Std.ExtTreeMap UserOperationId PoolEntry)[id]? = some e at hid
      rw [Std.ExtTreeMap.getElem?_empty] at hid
      cases hid
    · change e ∈ (∅ : Std.ExtTreeSet PoolEntry OrderEntry.cmp).toList at hordered
      rw [mem_toList_iff, Std.ExtTreeSet.get?_empty] at hordered
      cases hordered
    · cases ht
  refine ⟨⟨?_, ?_⟩, fun e he => absurd he (hnone e), ?_⟩
  · intro hash e he
    exact absurd (Or.inl (Or.inl ⟨hash, he⟩)) (hnone e)
  · intro id e he
    exact absurd (Or.inl (Or.inr (Or.inl ⟨id, he⟩))) (hnone e)
  · intro _
    exact ⟨fun e he => absurd he (hnone e), (fun _ _ ht => nomatch ht),
      fun e _ he => absurd he (hnone e), (fun _ _ ht => nomatch ht)⟩

/-- **What the containers hold.**  However the calls of any threads interleave, each entry
in any container was made by a call to add, and what is stored under a hash or an id has it
(an entry of one container may be missing in another); as long as the counter runs, no two
entries have one number, so that the candidates come by price and, at one price, in the order
in which their numbers were drawn. -/
theorem overlapping_entries {config : PoolConfig}
    {cond : Threads PoolAccess PoolAccess.Answer PoolResult OperationPool τ →
      CallEvent PoolAccess PoolAccess.Answer PoolResult τ → Prop}
    {c : Threads PoolAccess PoolAccess.Answer PoolResult OperationPool τ}
    (h : (poolMachine τ config Called).ReachableUnder cond c) :
    c.state.KeysAgree ∧ (∀ e, c.state.Finds e → MadeByCall Called e) ∧
      (c.state.nextSequence ≠ BitVec.allOnes 64 →
        (∀ e e', c.state.Finds e → c.state.Finds e' → e.sequence = e'.sequence → e = e') ∧
        ∀ n, (c.state.bestOperations n).Pairwise (fun a b =>
          b.submitGasPrice < a.submitGasPrice ∨
            (a.submitGasPrice = b.submitGasPrice ∧ a.sequence < b.sequence))) := by
  have hstart : ∀ pool, pool = OperationPool.new config →
      EntriesKept Called pool (fun _ : τ => .idle) := by
    rintro pool rfl
    exact entriesKept_new config
  obtain ⟨tokens, hkept, _⟩ := entryContract_honoured.of_reachable hstart (by
    rintro p ⟨m, hm, rfl⟩
    exact meets_entryContract config hm) h
  refine ⟨hkept.keyed, fun e he => hkept.made e (Or.inl he), ?_⟩
  intro hrunning
  have hunique : ∀ e e', c.state.Finds e → c.state.Finds e' → e.sequence = e'.sequence →
      e = e' := fun e e' he he' =>
    (hkept.numbers hrunning).unique e e' (Or.inl he) (Or.inl he')
  refine ⟨hunique, ?_⟩
  intro n
  have hsorted : (c.state.bestOperations n).Pairwise (fun a b => OrderEntry.cmp a b = .lt) :=
    sorted_toList.sublist (List.take_sublist _ _)
  have hfinds : ∀ e ∈ c.state.bestOperations n, c.state.Finds e :=
    fun e he => Or.inr (Or.inr (List.mem_of_mem_take he))
  apply hsorted.imp_of_mem
  intro a b ha hb hlt
  rcases OrderEntry.cmp_eq_lt.mp hlt with hprice | ⟨hprice, hsequence | ⟨hsequence, _⟩⟩
  · exact Or.inl hprice
  · exact Or.inr ⟨hprice, hsequence⟩
  · have heq := hunique a b (hfinds a ha) (hfinds b hb) hsequence
    have hself : OrderEntry.cmp b b = .eq := Std.ReflCmp.compare_self
    rw [heq, hself] at hlt
    cases hlt

end Interleavings

/-- The two clients at a pool for one operation. -/
theorem overlapping_entries_two :
    letI := polynomialDigest
    raced.state.KeysAgree ∧ (∀ e, raced.state.Finds e → MadeByCall (fun _ => True) e) ∧
      (raced.state.nextSequence ≠ BitVec.allOnes 64 →
        (∀ e e', raced.state.Finds e → raced.state.Finds e' → e.sequence = e'.sequence →
          e = e') ∧
        ∀ n, (raced.state.bestOperations n).Pairwise (fun a b =>
          b.submitGasPrice < a.submitGasPrice ∨
            (a.submitGasPrice = b.submitGasPrice ∧ a.sequence < b.sequence))) :=
  let _ := polynomialDigest
  overlapping_entries raced_reachable

end Bunzo
