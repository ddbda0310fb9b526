import Bunzo.ChainTypes

/-!
# Statuses of operations

The tracker keeps the last status of each operation for a while.  A status is entered at the
time read under the lock; a cleanup reads the time first and acquires the lock afterwards, so
that the readings of several threads can come out of order.

* `StatusCall.Live` — the last status of a hash, if no later cleanup was due to drop it.
* `status_history` — after any calls, with any readings, the queries answer just those.
-/

namespace Bunzo

/-- How far an operation has come. -/
inductive UserOpStatus where
  | received
  | validated
  | pooled
  | submitted
  | included
  | finalized
  | failed
deriving DecidableEq

/-- A status with the reading of the clock at which it was entered, in nanoseconds. -/
structure StatusEntry where
  status : UserOpStatus
  updatedAt : Nat
  detail : Option String
deriving DecidableEq

/-- The status of every tracked operation, and how long one is kept without change. -/
structure StatusTracker where
  entries : Std.ExtTreeMap B256 StatusEntry
  ttl : Nat

namespace StatusTracker

/-- A tracker of nothing. -/
def new (ttl : Nat) : StatusTracker where
  entries := ∅
  ttl := ttl

/-- An hour. -/
def default : StatusTracker := new 3600000000000

/-- Enter a status, without a detail. -/
def setStatus (tracker : StatusTracker) (now : Nat) (hash : B256) (status : UserOpStatus) :
    StatusTracker :=
  { tracker with
    entries := tracker.entries.insert hash { status := status, updatedAt := now, detail := none } }

/-- Enter a status with a text. -/
def setStatusWithDetail (tracker : StatusTracker) (now : Nat) (hash : B256)
    (status : UserOpStatus) (detail : String) : StatusTracker :=
  { tracker with
    entries := tracker.entries.insert hash
      { status := status, updatedAt := now, detail := some detail } }

/-- The status of an operation, if it is tracked. -/
def getStatus (tracker : StatusTracker) (hash : B256) : Option UserOpStatus :=
  (tracker.entries.get? hash).map StatusEntry.status

/-- The same with its text. -/
def getStatusDetail (tracker : StatusTracker) (hash : B256) :
    Option (UserOpStatus × Option String) :=
  (tracker.entries.get? hash).map (fun e => (e.status, e.detail))

/-- A time that seems to be in the future is no time ago. -/
def cleanup (tracker : StatusTracker) (now : Nat) : StatusTracker :=
  { tracker with
    entries := tracker.entries.filter (fun _ entry => now - entry.updatedAt < tracker.ttl) }

/-- How many operations are tracked. -/
def len (tracker : StatusTracker) : Nat := tracker.entries.size

/-- Whether none is. -/
def isEmpty (tracker : StatusTracker) : Bool := tracker.entries.isEmpty

end StatusTracker

/-! ## Calls -/

/-- The calls that change the tracker, with their readings of the clock. -/
inductive StatusCall where
  | set (now : Nat) (hash : B256) (status : UserOpStatus)
  | setWithDetail (now : Nat) (hash : B256) (status : UserOpStatus) (detail : String)
  | cleanup (now : Nat)

namespace StatusCall

/-- What a call leaves behind. -/
def apply : StatusCall → StatusTracker → StatusTracker
  | set now hash status, tracker => tracker.setStatus now hash status
  | setWithDetail now hash status detail, tracker =>
      tracker.setStatusWithDetail now hash status detail
  | cleanup now, tracker => tracker.cleanup now

/-- The tracker after calls in the order in which they had the lock. -/
def run (calls : List StatusCall) (tracker : StatusTracker) : StatusTracker :=
  calls.foldl (fun tracker call => call.apply tracker) tracker

/-- The entry a call writes for a hash. -/
def written : StatusCall → B256 → Option StatusEntry
  | set now hash' status, hash =>
      if hash' = hash then some { status := status, updatedAt := now, detail := none } else none
  | setWithDetail now hash' status detail, hash =>
      if hash' = hash then some { status := status, updatedAt := now, detail := some detail }
      else none
  | cleanup _, _ => none

/-- The call is no cleanup that the entry is too old for. -/
def Spares (ttl : Nat) (entry : StatusEntry) : StatusCall → Prop
  | cleanup now => now - entry.updatedAt < ttl
  | _ => True

/-- The entry is the last one written for the hash, and all cleanups after it spare it. -/
def Live (ttl : Nat) (calls : List StatusCall) (hash : B256) (entry : StatusEntry) : Prop :=
  ∃ before call after, calls = before ++ call :: after ∧ call.written hash = some entry ∧
    ∀ c ∈ after, c.written hash = none ∧ c.Spares ttl entry

variable {ttl : Nat} {calls : List StatusCall} {hash : B256} {entry : StatusEntry}

/-- The last call writes the entry, or leaves the one that was there. -/
theorem live_concat {c : StatusCall} : Live ttl (calls ++ [c]) hash entry ↔
    c.written hash = some entry ∨
      c.written hash = none ∧ c.Spares ttl entry ∧ Live ttl calls hash entry := by
  refine ⟨?_, ?_⟩
  · rintro ⟨before, call, after, hcalls, hwritten, hafter⟩
    cases after using List.reverseRecOn with
    | nil =>
        obtain ⟨_, hlast⟩ := List.append_inj' hcalls rfl
        cases hlast
        exact Or.inl hwritten
    | append_singleton after last =>
        rw [← List.cons_append, ← List.append_assoc] at hcalls
        obtain ⟨hinit, hlast⟩ := List.append_inj' hcalls rfl
        cases hlast
        obtain ⟨hnone, hspares⟩ := hafter c (List.mem_append_right _ List.mem_cons_self)
        exact Or.inr ⟨hnone, hspares, before, call, after, hinit, hwritten,
          fun c' hc' => hafter c' (List.mem_append_left _ hc')⟩
  · rintro (hwritten | ⟨hnone, hspares, before, call, after, rfl, hwritten, hafter⟩)
    · exact ⟨calls, c, [], rfl, hwritten, fun c' hc' => absurd hc' List.not_mem_nil⟩
    · refine ⟨before, call, after ++ [c], by simp, hwritten, ?_⟩
      intro c' hc'
      rcases List.mem_append.mp hc' with hc' | hc'
      · exact hafter c' hc'
      · rw [List.mem_singleton.mp hc']
        exact ⟨hnone, hspares⟩

/-- One call. -/
theorem getElem?_apply (c : StatusCall) (tracker : StatusTracker) :
    (c.apply tracker).entries[hash]? = some entry ↔ c.written hash = some entry ∨
      c.written hash = none ∧ c.Spares tracker.ttl entry ∧
        tracker.entries[hash]? = some entry := by
  cases c with
  | set now hash' status =>
      simp only [apply, StatusTracker.setStatus, written, Spares, Std.ExtTreeMap.getElem?_insert,
        Std.LawfulEqCmp.compare_eq_iff_eq]
      split <;> simp
  | setWithDetail now hash' status detail =>
      simp only [apply, StatusTracker.setStatusWithDetail, written, Spares,
        Std.ExtTreeMap.getElem?_insert, Std.LawfulEqCmp.compare_eq_iff_eq]
      split <;> simp
  | cleanup now =>
      simp only [apply, StatusTracker.cleanup, written, Spares, Std.ExtTreeMap.getElem?_filter',
        Option.filter_eq_some_iff, decide_eq_true_eq]
      grind

/-- No call changes how long entries are kept. -/
@[simp] theorem ttl_apply (c : StatusCall) (tracker : StatusTracker) :
    (c.apply tracker).ttl = tracker.ttl := by
  cases c <;> rfl

/-- The last call is made last. -/
theorem run_concat (c : StatusCall) (tracker : StatusTracker) :
    run (calls ++ [c]) tracker = c.apply (run calls tracker) := by
  unfold run
  rw [List.foldl_append]
  rfl

/-- **Entries.**  The tracker has the live entries and no others. -/
theorem getElem?_run (calls : List StatusCall) : (run calls (.new ttl)).ttl = ttl ∧
    ∀ hash entry, (run calls (.new ttl)).entries[hash]? = some entry ↔
      Live ttl calls hash entry := by
  induction calls using List.reverseRecOn with
  | nil =>
      refine ⟨rfl, fun hash entry => ?_⟩
      change (∅ : Std.ExtTreeMap B256 StatusEntry)[hash]? = some entry ↔ _
      rw [Std.ExtTreeMap.getElem?_empty]
      refine ⟨fun h => (by cases h), ?_⟩
      rintro ⟨before, call, after, hcalls, _⟩
      simp at hcalls
  | append_singleton calls c ih =>
      obtain ⟨httl, hentries⟩ := ih
      rw [run_concat, ttl_apply]
      refine ⟨httl, fun hash entry => ?_⟩
      rw [getElem?_apply, live_concat, httl, hentries]

end StatusCall

open StatusCall in
/-- **The whole history.**  After any calls, a hash has the status and the detail of its live
entry, and no other; the number of statuses is that of the hashes with a live entry. -/
theorem status_history (ttl : Nat) (calls : List StatusCall) :
    (∀ hash status detail,
      (StatusCall.run calls (.new ttl)).getStatusDetail hash = some (status, detail) ↔
        ∃ now, Live ttl calls hash { status := status, updatedAt := now, detail := detail }) ∧
    (∀ hash status, (StatusCall.run calls (.new ttl)).getStatus hash = some status ↔
      ∃ now detail, Live ttl calls hash
        { status := status, updatedAt := now, detail := detail }) ∧
    (∀ S : Finset B256, (∀ hash, hash ∈ S ↔ ∃ entry, Live ttl calls hash entry) →
      (StatusCall.run calls (.new ttl)).len = S.card) ∧
    ((StatusCall.run calls (.new ttl)).isEmpty ↔ ∀ hash entry, ¬ Live ttl calls hash entry) := by
  have hentries := (@getElem?_run ttl calls).2
  refine ⟨?_, ?_, ?_, ?_⟩
  · intro hash status detail
    unfold StatusTracker.getStatusDetail
    rw [Std.ExtTreeMap.get?_eq_getElem?, Option.map_eq_some_iff]
    refine ⟨?_, ?_⟩
    · rintro ⟨entry, hentry, heq⟩
      cases heq
      exact ⟨entry.updatedAt, (hentries hash entry).mp hentry⟩
    · rintro ⟨now, hlive⟩
      exact ⟨_, (hentries hash _).mpr hlive, rfl⟩
  · intro hash status
    unfold StatusTracker.getStatus
    rw [Std.ExtTreeMap.get?_eq_getElem?, Option.map_eq_some_iff]
    refine ⟨?_, ?_⟩
    · rintro ⟨entry, hentry, rfl⟩
      exact ⟨entry.updatedAt, entry.detail, (hentries hash entry).mp hentry⟩
    · rintro ⟨now, detail, hlive⟩
      exact ⟨_, (hentries hash _).mpr hlive, rfl⟩
  · intro S hS
    have hkeys : S = (StatusCall.run calls (.new ttl)).entries.keys.toFinset := by
      ext hash
      rw [hS, List.mem_toFinset, Std.ExtTreeMap.mem_keys,
        Std.ExtTreeMap.mem_iff_isSome_getElem?, Option.isSome_iff_exists]
      exact exists_congr (fun entry => (hentries hash entry).symm)
    rw [hkeys, List.toFinset_card_of_nodup Std.ExtTreeMap.nodup_keys,
      Std.ExtTreeMap.length_keys]
    rfl
  · unfold StatusTracker.isEmpty
    rw [Std.ExtTreeMap.isEmpty_iff]
    refine ⟨?_, ?_⟩
    · intro hempty hash entry hlive
      have hentry := (hentries hash entry).mpr hlive
      rw [hempty, Std.ExtTreeMap.getElem?_empty] at hentry
      cases hentry
    · intro hnone
      apply Std.ExtTreeMap.ext_getElem?
      intro hash
      rw [Std.ExtTreeMap.getElem?_empty, Option.eq_none_iff_forall_ne_some]
      intro entry hentry
      exact hnone hash entry ((hentries hash entry).mp hentry)

end Bunzo
