import Mathlib

/-!
# Indices over a finite set

Several containers often describe one finite set of records: maps from a key
of the record to the record, an ordered set that lists the records by a
comparison, and a map that counts the records sharing a property.  This file
says what each of them has to contain, and how one insertion and one removal
keep each description true.

* `Indexes` — a tree map sends exactly the key of each member to the member.
* `Enumerates` — an ordered set lists each member and nothing else.
* `Tallies` — a map of counts is absent exactly where the count is zero.
* `mem_take_iff` — what the first elements of an ordered set are.

Nothing here depends on what the records are.
-/

namespace FiniteIndices

variable {κ α : Type} [DecidableEq α]

/-- The map sends the key of each member of `S` to that member, and has no
other entry. -/
def Indexes {cmp : κ → κ → Ordering} [Std.TransCmp cmp]
    (m : Std.ExtTreeMap κ α cmp) (S : Finset α) (key : α → κ) : Prop :=
  ∀ k a, m[k]? = some a ↔ a ∈ S ∧ key a = k

/-- The ordered set lists each member of `S` once and nothing else. -/
def Enumerates {ord : α → α → Ordering} [Std.TransCmp ord]
    (t : Std.ExtTreeSet α ord) (S : Finset α) : Prop :=
  t.toList.Nodup ∧ ∀ a, a ∈ t.toList ↔ a ∈ S

/-- How many members of `S` have the key `k`. -/
def tally [DecidableEq κ] (S : Finset α) (key : α → κ) (k : κ) : Nat :=
  (S.filter (fun a => key a = k)).card

/-- The map of counts holds the tally of every key, and no entry at all for a
key without members. -/
def Tallies [DecidableEq κ] {cmp : κ → κ → Ordering} [Std.TransCmp cmp]
    (counts : Std.ExtTreeMap κ Nat cmp) (S : Finset α) (key : α → κ) : Prop :=
  ∀ k, counts[k]? = if tally S key k = 0 then none else some (tally S key k)

section Maps

variable {cmp : κ → κ → Ordering} [Std.TransCmp cmp] [Std.LawfulEqCmp cmp]
variable {m : Std.ExtTreeMap κ α cmp} {S : Finset α} {key : α → κ}

omit [Std.LawfulEqCmp cmp] [DecidableEq α] in
/-- Two members with one key are equal: the map holds one record a key. -/
theorem Indexes.key_injOn (h : Indexes m S key) : Set.InjOn key S := by
  intro a ha b hb hab
  have hma := (h (key b) a).mpr ⟨ha, hab⟩
  have hmb := (h (key b) b).mpr ⟨hb, rfl⟩
  exact Option.some.inj (hma.symm.trans hmb)

omit [Std.LawfulEqCmp cmp] in
/-- Without a member, its key is free. -/
theorem Indexes.free_of_erase (h : Indexes m S key) {a : α} (ha : a ∈ S) :
    ∀ b ∈ S.erase a, key b ≠ key a := by
  intro b hb hkey
  obtain ⟨hne, hb⟩ := Finset.mem_erase.mp hb
  exact hne (h.key_injOn hb ha hkey)

omit [Std.LawfulEqCmp cmp] [DecidableEq α] in
theorem Indexes.empty : Indexes (∅ : Std.ExtTreeMap κ α cmp) ∅ key := by
  intro k a
  simp

omit [Std.LawfulEqCmp cmp] [DecidableEq α] in
/-- A key the map does not know belongs to no member. -/
theorem Indexes.fresh (h : Indexes m S key) {k : κ} (hk : m[k]? = none) :
    ∀ a ∈ S, key a ≠ k := by
  intro a ha heq
  have hm := (h k a).mpr ⟨ha, heq⟩
  simp [hk] at hm

/-- Recording a member under a key no other member has. -/
theorem Indexes.insert (h : Indexes m S key) {a : α}
    (hfresh : ∀ b ∈ S, key b ≠ key a) :
    Indexes (m.insert (key a) a) (Insert.insert a S) key := by
  intro k b
  rw [Std.ExtTreeMap.getElem?_insert]
  by_cases hk : key a = k
  · subst hk
    simp only [Std.ReflCmp.compare_self, if_true, Option.some.injEq, Finset.mem_insert]
    refine ⟨?_, ?_⟩
    · intro hab
      exact ⟨Or.inl hab.symm, congrArg key hab.symm⟩
    · intro hb
      rcases hb with ⟨rfl | hb, hkey⟩
      · rfl
      · exact absurd hkey (hfresh b hb)
  · have hne : cmp (key a) k ≠ .eq := fun hc => hk (Std.LawfulEqCmp.eq_of_compare hc)
    rw [if_neg hne, h k b, Finset.mem_insert]
    refine ⟨?_, ?_⟩
    · intro hb
      exact ⟨Or.inr hb.1, hb.2⟩
    · intro hb
      rcases hb with ⟨rfl | hb, hkey⟩
      · exact absurd hkey hk
      · exact ⟨hb, hkey⟩

/-- Forgetting a member under its own key. -/
theorem Indexes.erase (h : Indexes m S key) {a : α} (ha : a ∈ S) :
    Indexes (m.erase (key a)) (S.erase a) key := by
  intro k b
  rw [Std.ExtTreeMap.getElem?_erase]
  by_cases hk : key a = k
  · subst hk
    simp only [Std.ReflCmp.compare_self, if_true, reduceCtorEq, Finset.mem_erase, false_iff]
    intro hb
    exact h.free_of_erase ha b (Finset.mem_erase.mpr hb.1) hb.2
  · have hne : cmp (key a) k ≠ .eq := fun hc => hk (Std.LawfulEqCmp.eq_of_compare hc)
    rw [if_neg hne, h k b, Finset.mem_erase]
    refine ⟨?_, ?_⟩
    · intro hb
      exact ⟨⟨fun heq => hk (heq ▸ hb.2), hb.1⟩, hb.2⟩
    · intro hb
      exact ⟨hb.1.2, hb.2⟩

omit [DecidableEq α] in
/-- An index has as many entries as the set has members. -/
theorem Indexes.size_eq_card [DecidableEq κ] (h : Indexes m S key) :
    m.size = S.card := by
  have himage : S.image key = m.keys.toFinset := by
    ext k
    simp only [Finset.mem_image, List.mem_toFinset, Std.ExtTreeMap.mem_keys,
      Std.ExtTreeMap.mem_iff_isSome_getElem?, Option.isSome_iff_exists]
    refine ⟨?_, ?_⟩
    · intro hk
      obtain ⟨a, ha, rfl⟩ := hk
      exact ⟨a, (h _ a).mpr ⟨ha, rfl⟩⟩
    · intro hk
      obtain ⟨a, ha⟩ := hk
      exact ⟨a, ((h k a).mp ha).1, ((h k a).mp ha).2⟩
  calc m.size = m.keys.length := Std.ExtTreeMap.length_keys.symm
    _ = m.keys.toFinset.card := (List.toFinset_card_of_nodup Std.ExtTreeMap.nodup_keys).symm
    _ = S.card := by rw [← himage, Finset.card_image_of_injOn h.key_injOn]

end Maps

section OrderedSets

variable {ord : α → α → Ordering} [Std.TransCmp ord]
variable {t : Std.ExtTreeSet α ord} {S : Finset α}

omit [DecidableEq α] in
/-- The elements an ordered set lists are those it finds by themselves. -/
theorem mem_toList_iff {a : α} : a ∈ t.toList ↔ t.get? a = some a := by
  have hkeys : t.toList = t.inner.toList.map Prod.fst :=
    (Std.ExtTreeMap.map_fst_toList_eq_keys (t := t.inner)).symm
  rw [hkeys, List.mem_map]
  refine ⟨?_, ?_⟩
  · intro ha
    obtain ⟨⟨b, u⟩, hb, rfl⟩ := ha
    exact (Std.ExtTreeMap.mem_toList_iff_getKey?_eq_some_and_getElem?_eq_some.mp hb).1
  · intro ha
    refine ⟨(a, ()), ?_, rfl⟩
    refine Std.ExtTreeMap.mem_toList_iff_getKey?_eq_some_and_getElem?_eq_some.mpr ⟨ha, ?_⟩
    have hmem : a ∈ t.inner := Std.ExtTreeMap.mem_of_getKey?_eq_some ha
    exact Std.ExtTreeMap.getElem?_eq_some_getElem hmem

omit [DecidableEq α] in
/-- An ordered set lists nothing twice. -/
theorem nodup_toList : t.toList.Nodup := by
  apply Std.ExtTreeSet.distinct_toList.imp
  intro a b hab heq
  exact hab (heq ▸ Std.ReflCmp.compare_self)

omit [DecidableEq α] in
/-- It is enough to look each element up. -/
theorem enumerates_iff : Enumerates t S ↔ ∀ a, t.get? a = some a ↔ a ∈ S := by
  refine ⟨?_, ?_⟩
  · intro h a
    exact mem_toList_iff.symm.trans (h.2 a)
  · intro h
    exact ⟨nodup_toList, fun a => mem_toList_iff.trans (h a)⟩

omit [DecidableEq α] in
theorem Enumerates.empty : Enumerates (∅ : Std.ExtTreeSet α ord) ∅ := by
  apply enumerates_iff.mpr
  intro a
  simp

/-- Listing a member that ties with no other. -/
theorem Enumerates.insert (h : Enumerates t S) {a : α}
    (hsep : ∀ b ∈ t.toList, ord a b ≠ .eq) :
    Enumerates (t.insert a) (Insert.insert a S) := by
  have habsent : a ∉ t := by
    intro ha
    obtain ⟨b, hb⟩ := Option.isSome_iff_exists.mp (Std.ExtTreeSet.mem_iff_isSome_get?.mp ha)
    have hba : ord b a = .eq := by
      simpa [hb] using Std.ExtTreeSet.compare_get?_self (t := t) (k := a)
    have hself : t.get? b = some b := (Std.ExtTreeSet.get?_congr hba).trans hb
    exact hsep b (mem_toList_iff.mpr hself) (Std.OrientedCmp.eq_symm hba)
  apply enumerates_iff.mpr
  intro b
  rw [Std.ExtTreeSet.get?_insert, Finset.mem_insert]
  by_cases hab : ord a b = .eq
  · rw [if_pos ⟨hab, habsent⟩, Option.some.injEq]
    refine ⟨?_, ?_⟩
    · intro heq
      exact Or.inl heq.symm
    · intro hb
      rcases hb with rfl | hb
      · rfl
      · exact absurd hab (hsep b ((h.2 b).mpr hb))
  · rw [if_neg (fun hc => hab hc.1), enumerates_iff.mp h b]
    refine ⟨?_, ?_⟩
    · intro hb
      exact Or.inr hb
    · intro hb
      rcases hb with rfl | hb
      · exact absurd Std.ReflCmp.compare_self hab
      · exact hb

/-- Dropping a member drops nothing that ties with it, for nothing does. -/
theorem Enumerates.erase (h : Enumerates t S) {a : α} (ha : a ∈ S) :
    Enumerates (t.erase a) (S.erase a) := by
  have hget := enumerates_iff.mp h
  apply enumerates_iff.mpr
  intro b
  rw [Std.ExtTreeSet.get?_erase, Finset.mem_erase]
  by_cases hab : ord a b = .eq
  · rw [if_pos hab]
    simp only [reduceCtorEq, false_iff, not_and]
    intro hne hb
    have hfound : t.get? a = some b := by
      rw [Std.ExtTreeSet.get?_congr hab, (hget b).mpr hb]
    exact hne (Option.some.inj (hfound.symm.trans ((hget a).mpr ha)))
  · rw [if_neg hab, hget b]
    refine ⟨?_, ?_⟩
    · intro hb
      refine ⟨?_, hb⟩
      intro heq
      exact hab (heq ▸ Std.ReflCmp.compare_self)
    · exact And.right

end OrderedSets

section Prefixes

variable {ord : α → α → Ordering} [Std.TransCmp ord]
variable {t : Std.ExtTreeSet α ord} {S : Finset α} {a b : α} {n : Nat}

/-- The elements that come before a given one. -/
def ahead (t : Std.ExtTreeSet α ord) (a : α) : List α :=
  t.toList.filter (fun b => ord b a = .lt)

omit [DecidableEq α] in
theorem mem_ahead : b ∈ ahead t a ↔ b ∈ t.toList ∧ ord b a = .lt := by
  unfold ahead
  rw [List.mem_filter, decide_eq_true_iff]

omit [DecidableEq α] in
theorem ord_ne_lt_of_lt (h : ord a b = .lt) : ord b a ≠ .lt := by
  intro hback
  have hgt : ord a b = .gt := Std.OrientedCmp.gt_iff_lt.mpr hback
  rw [h] at hgt
  cases hgt

omit [DecidableEq α] in
/-- Fewer elements come before an earlier one. -/
theorem length_ahead_lt (hb : b ∈ t.toList) (h : ord b a = .lt) :
    (ahead t b).length < (ahead t a).length := by
  have hself : b ∉ ahead t b := by
    intro hin
    exact ord_ne_lt_of_lt (mem_ahead.mp hin).2 (mem_ahead.mp hin).2
  have hnodup : (b :: ahead t b).Nodup := (nodup_toList.filter _).cons hself
  have hsub : b :: ahead t b ⊆ ahead t a := by
    intro c hc
    rw [mem_ahead]
    rcases List.mem_cons.mp hc with rfl | hc
    · exact ⟨hb, h⟩
    · exact ⟨(mem_ahead.mp hc).1, Std.TransCmp.lt_trans (mem_ahead.mp hc).2 h⟩
  exact (hnodup.subperm hsub).length_le

omit [DecidableEq α] in
/-- A member of a sorted list is in a prefix if that has room for all before it. -/
theorem mem_take_of_sorted {l : List α} :
    ∀ {n : Nat}, l.Pairwise (fun a b => ord a b = .lt) → a ∈ l →
      (a ∈ l.take n ↔ (l.filter (fun b => ord b a = .lt)).length < n) := by
  induction l with
  | nil =>
      intro n _ ha
      cases ha
  | cons x l ih =>
      intro n hsorted ha
      rw [List.pairwise_cons] at hsorted
      cases n with
      | zero => simp
      | succ n =>
          rw [List.take_succ_cons, List.mem_cons]
          rcases List.mem_cons.mp ha with rfl | ha
          · have hnone : (a :: l).filter (fun b => ord b a = .lt) = [] := by
              rw [List.filter_eq_nil_iff]
              intro b hb
              rcases List.mem_cons.mp hb with rfl | hb
              · simp [Std.ReflCmp.compare_self]
              · simpa using ord_ne_lt_of_lt (hsorted.1 b hb)
            simp [hnone]
          · have hx := hsorted.1 a ha
            have hne : a ≠ x := by
              rintro rfl
              exact ord_ne_lt_of_lt hx hx
            rw [List.filter_cons_of_pos (by simpa using hx), List.length_cons, ih hsorted.2 ha]
            simp [hne]

omit [DecidableEq α] in
/-- The elements of an ordered set come in order. -/
theorem sorted_toList : t.toList.Pairwise (fun a b => ord a b = .lt) :=
  Std.ExtTreeSet.ordered_toList

omit [DecidableEq α] in
/-- **Prefixes.**  The first elements of an ordered set are those with few
elements before them. -/
theorem mem_take_iff : a ∈ t.toList.take n ↔ a ∈ t.toList ∧ (ahead t a).length < n := by
  refine ⟨?_, ?_⟩
  · intro ha
    have hmem := List.mem_of_mem_take ha
    exact ⟨hmem, (mem_take_of_sorted sorted_toList hmem).mp ha⟩
  · rintro ⟨hmem, hfew⟩
    exact (mem_take_of_sorted sorted_toList hmem).mpr hfew

omit [DecidableEq α] in
/-- Whatever a prefix leaves out comes after all it contains. -/
theorem ord_of_notMem_take (ha : a ∈ t.toList) (hout : a ∉ t.toList.take n)
    (hb : b ∈ t.toList.take n) : ord b a = .lt := by
  have hsorted := sorted_toList (t := t)
  rw [← List.take_append_drop n t.toList, List.pairwise_append] at hsorted
  rw [← List.take_append_drop n t.toList, List.mem_append] at ha
  exact hsorted.2.2 b hb a (ha.resolve_left hout)

omit [DecidableEq α] in
/-- Of the elements with a property one comes first. -/
theorem exists_first {p : α → Bool} (h : ∃ a ∈ t.toList, p a) :
    ∃ a ∈ t.toList, p a ∧ ∀ b ∈ t.toList, p b → b = a ∨ ord a b = .lt := by
  cases hfilter : t.toList.filter p with
  | nil =>
      obtain ⟨a, ha, hpa⟩ := h
      exact absurd hpa (List.filter_eq_nil_iff.mp hfilter a ha)
  | cons a l =>
      have hsorted := (sorted_toList (t := t)).filter p
      rw [hfilter, List.pairwise_cons] at hsorted
      have hmem : ∀ b, b ∈ a :: l ↔ b ∈ t.toList ∧ p b := by
        intro b
        rw [← hfilter, List.mem_filter]
      obtain ⟨ha, hpa⟩ := (hmem a).mp List.mem_cons_self
      refine ⟨a, ha, hpa, ?_⟩
      intro b hb hpb
      rcases List.mem_cons.mp ((hmem b).mpr ⟨hb, hpb⟩) with hba | hbl
      · exact Or.inl hba
      · exact Or.inr (hsorted.1 b hbl)

omit [DecidableEq α] in
/-- In a sorted list an element precedes another exactly if the order says so. -/
theorem pairwise_iff_of_sorted {l : List α} {R : α → α → Prop}
    (hsorted : l.Pairwise (fun a b => ord a b = .lt)) :
    l.Pairwise R ↔ ∀ a ∈ l, ∀ b ∈ l, ord a b = .lt → R a b := by
  induction l with
  | nil => simp
  | cons x l ih =>
      rw [List.pairwise_cons] at hsorted
      rw [List.pairwise_cons, ih hsorted.2]
      refine ⟨?_, ?_⟩
      · rintro ⟨hx, hl⟩ a ha b hb hab
        rcases List.mem_cons.mp ha with rfl | hal
        · rcases List.mem_cons.mp hb with rfl | hbl
          · exact absurd hab (ord_ne_lt_of_lt hab)
          · exact hx b hbl
        · rcases List.mem_cons.mp hb with rfl | hbl
          · exact absurd hab (ord_ne_lt_of_lt (hsorted.1 a hal))
          · exact hl a hal b hbl hab
      · intro h
        refine ⟨?_, ?_⟩
        · intro b hb
          exact h x List.mem_cons_self b (List.mem_cons_of_mem x hb) (hsorted.1 b hb)
        · intro a ha b hb
          exact h a (List.mem_cons_of_mem x ha) b (List.mem_cons_of_mem x hb)

omit [DecidableEq α] in
/-- An ordered set has as many elements as it lists members. -/
theorem Enumerates.length_eq_card (h : Enumerates t S) : t.toList.length = S.card := by
  classical
  rw [← List.toFinset_card_of_nodup h.1]
  congr 1
  ext a
  simp [h.2]

end Prefixes

section Counts

variable [DecidableEq κ] {cmp : κ → κ → Ordering} [Std.TransCmp cmp] [Std.LawfulEqCmp cmp]
variable {counts : Std.ExtTreeMap κ Nat cmp} {S : Finset α} {key : α → κ}

theorem tally_insert {a : α} (ha : a ∉ S) (k : κ) :
    tally (Insert.insert a S) key k = tally S key k + if key a = k then 1 else 0 := by
  unfold tally
  rw [Finset.filter_insert]
  split
  · rw [Finset.card_insert_of_notMem (fun hmem => ha (Finset.mem_filter.mp hmem).1)]
  · rfl

theorem tally_erase {a : α} (ha : a ∈ S) (k : κ) :
    tally S key k = tally (S.erase a) key k + if key a = k then 1 else 0 := by
  have h : tally (Insert.insert a (S.erase a)) key k = _ :=
    tally_insert (Finset.notMem_erase a S) k
  rwa [Finset.insert_erase ha] at h

theorem tally_erase_self {a : α} (ha : a ∈ S) :
    tally S key (key a) = tally (S.erase a) key (key a) + 1 := by
  rw [tally_erase ha, if_pos rfl]

omit [DecidableEq α] [Std.LawfulEqCmp cmp] in
theorem Tallies.empty : Tallies (∅ : Std.ExtTreeMap κ Nat cmp) (∅ : Finset α) key := by
  intro k
  simp [tally]

omit [DecidableEq α] [Std.LawfulEqCmp cmp] in
/-- Reading a count with default zero gives the tally. -/
theorem Tallies.getD_eq (h : Tallies counts S key) (k : κ) :
    (counts[k]?).getD 0 = tally S key k := by
  rw [h k]
  split <;> simp_all

/-- Counting one more member. -/
theorem Tallies.insert (h : Tallies counts S key) {a : α} (ha : a ∉ S) :
    Tallies (counts.insert (key a) ((counts[key a]?).getD 0 + 1)) (Insert.insert a S) key := by
  intro k
  rw [Std.ExtTreeMap.getElem?_insert, h.getD_eq, tally_insert ha]
  by_cases hk : key a = k
  · subst hk
    simp
  · have hne : cmp (key a) k ≠ .eq := fun hc => hk (Std.LawfulEqCmp.eq_of_compare hc)
    rw [if_neg hne, if_neg hk, h k, Nat.add_zero]

/-- Counting one member less, while others with its key remain. -/
theorem Tallies.decrement (h : Tallies counts S key) {a : α} (ha : a ∈ S) {n : Nat}
    (hn : counts[key a]? = some n) (hpos : n - 1 ≠ 0) :
    Tallies (counts.insert (key a) (n - 1)) (S.erase a) key := by
  intro k
  have hone : tally S key k = _ := tally_erase ha k
  rw [Std.ExtTreeMap.getElem?_insert]
  by_cases hk : key a = k
  · subst hk
    have hget := h.getD_eq (key a)
    simp only [hn, Option.getD_some, if_true] at hget hone
    have hrest : tally (S.erase a) key (key a) = n - 1 := by omega
    rw [if_pos Std.ReflCmp.compare_self, hrest, if_neg hpos]
  · have hne : cmp (key a) k ≠ .eq := fun hc => hk (Std.LawfulEqCmp.eq_of_compare hc)
    rw [if_neg hk, Nat.add_zero] at hone
    rw [if_neg hne, h k, hone]

/-- Forgetting the count of the last member with its key. -/
theorem Tallies.drop (h : Tallies counts S key) {a : α} (ha : a ∈ S) {n : Nat}
    (hn : counts[key a]? = some n) (hlast : n - 1 = 0) :
    Tallies (counts.erase (key a)) (S.erase a) key := by
  intro k
  have hone : tally S key k = _ := tally_erase ha k
  rw [Std.ExtTreeMap.getElem?_erase]
  by_cases hk : key a = k
  · subst hk
    have hget := h.getD_eq (key a)
    simp only [hn, Option.getD_some, if_true] at hget hone
    have hrest : tally (S.erase a) key (key a) = 0 := by omega
    rw [if_pos Std.ReflCmp.compare_self, hrest, if_pos rfl]
  · have hne : cmp (key a) k ≠ .eq := fun hc => hk (Std.LawfulEqCmp.eq_of_compare hc)
    rw [if_neg hk, Nat.add_zero] at hone
    rw [if_neg hne, h k, hone]

end Counts

end FiniteIndices
