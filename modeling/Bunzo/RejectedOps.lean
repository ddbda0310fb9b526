import Bunzo.BundlerRuns
import Bunzo.PoolContents

/-!
# Operations named as failing

The handler names failing operations while a bundle is proposed.  Their hashes
are collected on the way, and reach the pool with a proposed bundle only.

* `LosesNamed` — the answers that make the loop forget what it was told: it
  ends in an error after an operation was named, or one is named in the last
  attempt.
* `evictsNamed_iff` — after the building step the pool holds no named operation
  exactly if the answers are of no such kind.
-/

namespace Bunzo

/-- The operation stood at an index in range that an answer named as failing. -/
def Proposal.Names (p : Proposal) (op : PackedUserOperation) : Prop :=
  ∃ call ∈ p.calls, ∃ index reason,
    call.answer = .ok (.failedOp index reason) ∧ call.ops[index]? = some op

/-- The pool lists an entry with this packed form. -/
def OperationPool.Holds (pool : OperationPool) (op : PackedUserOperation) : Prop :=
  ∃ e ∈ pool.ordered.toList, e.uo.pack = op

/-- An answer that ends the loop in an error. -/
def Refuses : Except ProviderError HandleOpsOut → Prop
  | .error _ => True
  | .ok .success => False
  | .ok (.failedOp _ _) => False
  | .ok (.signatureValidationFailed _) => True
  | .ok (.revert _) => True

/-- An answer refuses if it neither succeeds nor names an operation. -/
theorem refuses_iff {answer : Except ProviderError HandleOpsOut} :
    Refuses answer ↔
      answer ≠ .ok .success ∧ ∀ index reason, answer ≠ .ok (.failedOp index reason) := by
  rcases answer with e | out
  · simp [Refuses]
  · cases out with
    | success => simp [Refuses]
    | signatureValidationFailed addr => simp [Refuses]
    | revert data => simp [Refuses]
    | failedOp index reason => simp [Refuses]

/-- With `n` operations left at attempt `attempt`, and something named before if
`named` holds, the loop drops named operations until it ends in an error with
something named, or an operation is named in the last attempt. -/
def LosesNamed (answers : Nat → Except ProviderError HandleOpsOut) (maxRetries attempt n : Nat)
    (named : Prop) : Prop :=
  ∃ k, attempt + k ≤ maxRetries ∧
    (∀ j < k, ∃ index reason,
      answers (attempt + j) = .ok (.failedOp index reason) ∧ index < n - j) ∧
    ((named ∨ 0 < k) ∧ (k = n ∨ k < n ∧ Refuses (answers (attempt + k))) ∨
      attempt + k = maxRetries ∧ ∃ index reason,
        answers (attempt + k) = .ok (.failedOp index reason) ∧ index < n - k)

section LosesNamed

variable {answers : Nat → Except ProviderError HandleOpsOut} {maxRetries attempt n : Nat}
  {named : Prop}

/-- Without operations left, the loop loses what was named before. -/
theorem losesNamed_zero (hattempt : attempt ≤ maxRetries) :
    LosesNamed answers maxRetries attempt 0 named ↔ named := by
  refine ⟨?_, ?_⟩
  · intro h
    obtain ⟨k, hmax, hbefore, hend⟩ := h
    have hk : k = 0 := by
      by_contra hpos
      obtain ⟨_, _, _, hin⟩ := hbefore 0 (by omega)
      omega
    subst hk
    rcases hend with ⟨hnamed, _⟩ | ⟨_, _, _, _, hin⟩
    · exact hnamed.resolve_right (by omega)
    · omega
  · intro h
    refine ⟨0, hattempt, ?_, Or.inl ⟨Or.inl h, Or.inl rfl⟩⟩
    intro j hj
    omega

/-- Ending now, or dropping a named operation and losing it or a later one. -/
theorem losesNamed_iff (hn : 0 < n) (hattempt : attempt ≤ maxRetries) :
    LosesNamed answers maxRetries attempt n named ↔
      (named ∧ Refuses (answers attempt)) ∨
      ∃ index reason, answers attempt = .ok (.failedOp index reason) ∧ index < n ∧
        (attempt = maxRetries ∨
          attempt < maxRetries ∧ LosesNamed answers maxRetries (attempt + 1) (n - 1) True) := by
  refine ⟨?_, ?_⟩
  · intro h
    obtain ⟨k, hmax, hbefore, hend⟩ := h
    cases k with
    | zero =>
        rcases hend with ⟨hnamed, hlast⟩ | ⟨hmax', index, reason, hans, hin⟩
        · left
          refine ⟨hnamed.resolve_right (by omega), ?_⟩
          exact (hlast.resolve_left (by omega)).2
        · right
          exact ⟨index, reason, hans, by omega, Or.inl (by omega)⟩
    | succ k =>
        right
        obtain ⟨⟨index, reason, hans, hin⟩, hrest⟩ := named_succ_iff.mp hbefore
        refine ⟨index, reason, hans, hin, Or.inr ⟨by omega, k, by omega, hrest, ?_⟩⟩
        have hshift : attempt + 1 + k = attempt + (k + 1) := by omega
        rw [hshift]
        rcases hend with ⟨_, hlast⟩ | ⟨hmax', i, r, hi, hlt⟩
        · refine Or.inl ⟨Or.inl trivial, ?_⟩
          rcases hlast with hall | ⟨hlt, hrefuses⟩
          · exact Or.inl (by omega)
          · exact Or.inr ⟨by omega, hrefuses⟩
        · exact Or.inr ⟨by omega, i, r, hi, by omega⟩
  · intro h
    rcases h with ⟨hnamed, hrefuses⟩ | ⟨index, reason, hans, hin, hcase⟩
    · refine ⟨0, hattempt, ?_, Or.inl ⟨Or.inl hnamed, Or.inr ⟨hn, hrefuses⟩⟩⟩
      intro j hj
      omega
    · rcases hcase with hlast | ⟨hlt, k, hmax, hrest, hend⟩
      · refine ⟨0, hattempt, ?_, Or.inr ⟨by omega, index, reason, hans, by omega⟩⟩
        intro j hj
        omega
      · refine ⟨k + 1, by omega, named_succ_iff.mpr ⟨⟨index, reason, hans, hin⟩, hrest⟩, ?_⟩
        have hshift : attempt + (k + 1) = attempt + 1 + k := by omega
        rw [hshift]
        rcases hend with ⟨_, hlast⟩ | ⟨hmax', i, r, hi, hlt⟩
        · refine Or.inl ⟨Or.inr (by omega), ?_⟩
          rcases hlast with hall | ⟨hlt, hrefuses⟩
          · exact Or.inl (by omega)
          · exact Or.inr ⟨by omega, hrefuses⟩
        · exact Or.inr ⟨by omega, i, r, hi, by omega⟩

end LosesNamed

/-! ## What the loop was told, and what it collects -/

/-- Without calls nothing is named. -/
theorem names_nil {result : Except ProposerError Bundle} {op : PackedUserOperation} :
    ¬ Proposal.Names { result := result, calls := [] } op := by
  intro h
  obtain ⟨call, hcall, _⟩ := h
  cases hcall

/-- An operation is named by the first call or by a later one. -/
theorem names_cons {result : Except ProposerError Bundle} {call : HandleOpsCall}
    {calls : List HandleOpsCall} {op : PackedUserOperation} :
    Proposal.Names { result := result, calls := call :: calls } op ↔
      (∃ index reason, call.answer = .ok (.failedOp index reason) ∧ call.ops[index]? = some op) ∨
        Proposal.Names { result := result, calls := calls } op := by
  unfold Proposal.Names
  simp only [List.mem_cons, exists_eq_or_imp]

namespace BundleProposerImpl

variable (proposer : BundleProposerImpl) (fees : GasFees)
  (answers : Nat → Except ProviderError HandleOpsOut)

/-- The entries that the answers name, in the order in which they do. -/
def namedBy : List Nat → List PoolEntry → List PoolEntry
  | [], _ => []
  | attempt :: attempts, ops =>
      match answers attempt with
      | .ok (.failedOp index _) =>
          match ops[index]? with
          | some e =>
              e :: (if proposer.maxRetries ≤ attempt then []
                else namedBy attempts (ops.eraseIdx index))
          | none => []
      | _ => []

section NamedBy

variable {attempt : Nat} {attempts : List Nat} {ops : List PoolEntry} {index : Nat}
  {reason : Message} {answers}

/-- An answer that names nobody ends the naming. -/
theorem namedBy_quiet (hquiet : ∀ index reason, answers attempt ≠ .ok (.failedOp index reason)) :
    proposer.namedBy answers (attempt :: attempts) ops = [] := by
  unfold namedBy
  split
  · next index reason hfail => exact absurd hfail (hquiet index reason)
  · rfl

/-- An operation that is named is dropped before the next attempt, if there is one. -/
theorem namedBy_in_range (hfail : answers attempt = .ok (.failedOp index reason))
    (hindex : index < ops.length) :
    proposer.namedBy answers (attempt :: attempts) ops =
      ops[index] :: (if proposer.maxRetries ≤ attempt then []
        else proposer.namedBy answers attempts (ops.eraseIdx index)) := by
  rw [namedBy]
  simp only [hfail, List.getElem?_eq_getElem hindex]

/-- An index beyond the operations names nobody. -/
theorem namedBy_out_of_range (hfail : answers attempt = .ok (.failedOp index reason))
    (hindex : ops.length ≤ index) : proposer.namedBy answers (attempt :: attempts) ops = [] := by
  rw [namedBy]
  simp only [hfail, List.getElem?_eq_none hindex]

/-- Nobody is left to be named. -/
theorem namedBy_nil : proposer.namedBy answers attempts [] = [] := by
  cases attempts with
  | nil => rfl
  | cons attempt attempts =>
      by_cases hfail : ∃ index reason, answers attempt = .ok (.failedOp index reason)
      · obtain ⟨index, reason, hfail⟩ := hfail
        exact proposer.namedBy_out_of_range hfail (Nat.zero_le index)
      · exact proposer.namedBy_quiet (fun index reason h => hfail ⟨index, reason, h⟩)

end NamedBy

/-- What a proposal names is what is named attempt by attempt. -/
theorem names_retryLoop (attempts : List Nat) (op : PackedUserOperation) :
    ∀ (ops : List PoolEntry) (rejectedOps : List RejectedOp),
      (proposer.retryLoop fees answers attempts ops rejectedOps).Names op ↔
        ∃ e ∈ proposer.namedBy answers attempts ops, e.uo.pack = op := by
  induction attempts with
  | nil =>
      intro ops rejectedOps
      exact iff_of_false names_nil (by simp [namedBy])
  | cons attempt attempts ih =>
      intro ops rejectedOps
      by_cases hops : ops = []
      · subst hops
        rw [retryLoop_nil, namedBy_nil]
        exact iff_of_false names_nil (by simp)
      · obtain ⟨call, hcall, hanswer, hcase⟩ :=
          proposer.retryLoop_cases fees answers hops attempt attempts rejectedOps
        have hpacked (index : Nat) : call.ops[index]? = some op ↔
            ∃ e, ops[index]? = some e ∧ e.uo.pack = op := by
          rw [hcall, packOps, List.getElem?_map, Option.map_eq_some_iff]
        rcases hcase with ⟨_, hquiet, e, hloop⟩ | ⟨hpass, hloop⟩ |
          ⟨index, reason, hfail, hend, hloop⟩ | ⟨index, reason, hindex, hfail, hlt, hloop⟩
        · rw [hloop, names_cons, hanswer, proposer.namedBy_quiet hquiet]
          simp [names_nil, hquiet]
        · rw [hloop, names_cons, hanswer, proposer.namedBy_quiet (by simp [hpass])]
          simp [names_nil, hpass]
        · rw [hloop, names_cons, hanswer, hfail]
          by_cases hindex : index < ops.length
          · rw [proposer.namedBy_in_range hfail hindex, if_pos (by omega)]
            simp [names_nil, hpacked, List.getElem?_eq_getElem hindex]
          · rw [proposer.namedBy_out_of_range hfail (by omega)]
            simp [names_nil, hpacked, List.getElem?_eq_none (Nat.le_of_not_lt hindex)]
        · rw [hloop, names_cons, hanswer, hfail, proposer.namedBy_in_range hfail hindex,
            if_neg (by omega)]
          change _ ∨ (proposer.retryLoop fees answers attempts _ _).Names op ↔ _
          rw [ih]
          simp [hpacked, List.getElem?_eq_getElem hindex]

/-- The hashes that leave the pool with a proposal. -/
def evicted : Except ProposerError Bundle → List B256
  | .ok bundle => bundle.rejectedOps.map RejectedOp.hash
  | .error _ => []

/-- The fall through with operations left evicts what was rejected before the loop. -/
theorem evicted_fallThrough {ops : List PoolEntry} (hops : ops ≠ [])
    (rejectedOps : List RejectedOp) :
    evicted (proposer.fallThrough fees ops rejectedOps) = rejectedOps.map RejectedOp.hash := by
  rw [fallThrough_eq proposer fees hops]
  rfl

/-- What was collected before is collected in the end, if there is a bundle. -/
theorem evicted_retryLoop (attempts : List Nat) :
    ∀ (ops : List PoolEntry) (rejectedOps : List RejectedOp),
      (∃ e, (proposer.retryLoop fees answers attempts ops rejectedOps).result = .error e) ∨
      ∀ r ∈ rejectedOps, r.hash ∈
        evicted (proposer.retryLoop fees answers attempts ops rejectedOps).result := by
  induction attempts with
  | nil =>
      intro ops rejectedOps
      by_cases hops : ops = []
      · subst hops
        exact Or.inl ⟨_, proposer.fallThrough_nil fees rejectedOps⟩
      · right
        intro r hr
        change r.hash ∈ evicted (proposer.fallThrough fees ops rejectedOps)
        rw [evicted_fallThrough proposer fees hops]
        exact List.mem_map_of_mem hr
  | cons attempt attempts ih =>
      intro ops rejectedOps
      by_cases hops : ops = []
      · subst hops
        rw [retryLoop_nil]
        exact Or.inl ⟨_, rfl⟩
      · obtain ⟨call, _, _, ⟨_, _, e, hloop⟩ | ⟨_, hloop⟩ | ⟨_, _, _, _, hloop⟩ |
          ⟨index, reason, hindex, _, _, hloop⟩⟩ :=
          proposer.retryLoop_cases fees answers hops attempt attempts rejectedOps
        · rw [hloop]
          exact Or.inl ⟨e, rfl⟩
        · rw [hloop]
          exact Or.inr (fun r hr => List.mem_map_of_mem hr)
        · rw [hloop]
          exact Or.inr (fun r hr => List.mem_map_of_mem hr)
        · rw [hloop]
          rcases ih (ops.eraseIdx index)
            (rejectedOps ++ [{ hash := ops[index].hash, reason := reason }]) with herr | hmem
          · exact Or.inl herr
          · exact Or.inr (fun r hr => hmem r (List.mem_append_left _ hr))

/-- Some named entry is not among the collected hashes, or the loop ends in an
error although something was named before. -/
def Forgets (attempts : List Nat) (ops : List PoolEntry) (rejectedOps : List RejectedOp)
    (named : Prop) : Prop :=
  (named ∧ ∃ e, (proposer.retryLoop fees answers attempts ops rejectedOps).result = .error e) ∨
    ∃ e ∈ proposer.namedBy answers attempts ops,
      e.hash ∉ evicted (proposer.retryLoop fees answers attempts ops rejectedOps).result

/-- The entries differ in their hashes, and none was collected yet. -/
def Fresh (ops : List PoolEntry) (rejectedOps : List RejectedOp) : Prop :=
  (ops.map PoolEntry.hash).Nodup ∧ ∀ e ∈ ops, e.hash ∉ rejectedOps.map RejectedOp.hash

/-- Dropping an entry and collecting its hash. -/
theorem Fresh.drop {ops : List PoolEntry} {rejectedOps : List RejectedOp}
    (h : Fresh ops rejectedOps) {index : Nat} (hindex : index < ops.length) (reason : Message) :
    Fresh (ops.eraseIdx index)
      (rejectedOps ++ [{ hash := ops[index].hash, reason := reason }]) := by
  have hperm := (List.getElem_cons_eraseIdx_perm hindex).map PoolEntry.hash
  have hnodup := hperm.nodup_iff.mpr h.1
  rw [List.map_cons, List.nodup_cons] at hnodup
  refine ⟨hnodup.2, ?_⟩
  intro e he
  rw [List.map_append, List.mem_append, not_or]
  refine ⟨h.2 e (List.mem_of_mem_eraseIdx he), ?_⟩
  intro hsame
  have hmem := List.mem_map_of_mem (f := PoolEntry.hash) he
  rw [List.mem_singleton.mp hsame] at hmem
  exact hnodup.1 hmem

/-- An entry that is dropped is collected, unless there is no bundle. -/
theorem dropped_forgotten_iff (attempts : List Nat) (ops : List PoolEntry)
    (rejectedOps : List RejectedOp) (dropped : RejectedOp) :
    dropped.hash ∉ evicted
        (proposer.retryLoop fees answers attempts ops (rejectedOps ++ [dropped])).result ↔
      ∃ e, (proposer.retryLoop fees answers attempts ops (rejectedOps ++ [dropped])).result =
        .error e := by
  refine ⟨?_, ?_⟩
  · intro hnot
    refine (proposer.evicted_retryLoop fees answers attempts ops _).resolve_right ?_
    intro hmem
    exact hnot (hmem _ (List.mem_append_right _ (List.mem_singleton_self _)))
  · rintro ⟨e, he⟩
    rw [he]
    exact List.not_mem_nil

/-- A round that drops an entry forgets what the rounds after it forget, given that
an entry was named. -/
theorem forgets_drop_iff {attempt : Nat} {attempts : List Nat} {ops : List PoolEntry}
    {rejectedOps : List RejectedOp} {named : Prop} {index : Nat} {reason : Message}
    (hfail : answers attempt = .ok (.failedOp index reason)) (hindex : index < ops.length)
    (hlt : attempt < proposer.maxRetries)
    (hresult : (proposer.retryLoop fees answers (attempt :: attempts) ops rejectedOps).result =
      (proposer.retryLoop fees answers attempts (ops.eraseIdx index)
        (rejectedOps ++ [{ hash := ops[index].hash, reason := reason }])).result) :
    proposer.Forgets fees answers (attempt :: attempts) ops rejectedOps named ↔
      proposer.Forgets fees answers attempts (ops.eraseIdx index)
        (rejectedOps ++ [{ hash := ops[index].hash, reason := reason }]) True := by
  have hdropped := proposer.dropped_forgotten_iff fees answers attempts (ops.eraseIdx index)
    rejectedOps { hash := ops[index].hash, reason := reason }
  unfold Forgets
  rw [hresult, proposer.namedBy_in_range hfail hindex, if_neg (Nat.not_le.mpr hlt),
    List.exists_mem_cons_iff, hdropped, true_and, ← or_assoc, or_iff_right_of_imp And.right]

/-- One round of the loop, given what the rounds after it forget. -/
theorem forgets_round (attempt : Nat) (attempts : List Nat) (ops : List PoolEntry)
    (rejectedOps : List RejectedOp) (named : Prop) (hattempt : attempt ≤ proposer.maxRetries)
    (hfresh : Fresh ops rejectedOps)
    (hrest : attempt < proposer.maxRetries → ∀ ops' rejectedOps', Fresh ops' rejectedOps' →
      (proposer.Forgets fees answers attempts ops' rejectedOps' True ↔
        LosesNamed answers proposer.maxRetries (attempt + 1) ops'.length True)) :
    proposer.Forgets fees answers (attempt :: attempts) ops rejectedOps named ↔
      LosesNamed answers proposer.maxRetries attempt ops.length named := by
  by_cases hops : ops = []
  · subst hops
    rw [List.length_nil, losesNamed_zero hattempt]
    unfold Forgets
    rw [retryLoop_nil, namedBy_nil]
    simp
  · have hpos : 0 < ops.length := List.length_pos_iff.mpr hops
    rw [losesNamed_iff hpos hattempt]
    obtain ⟨call, _, _, ⟨hpass, hquiet, e, hloop⟩ | ⟨hpass, hloop⟩ |
      ⟨index, reason, hfail, hend, hloop⟩ | ⟨index, reason, hindex, hfail, hlt, hloop⟩⟩ :=
      proposer.retryLoop_cases fees answers hops attempt attempts rejectedOps
    · unfold Forgets
      rw [hloop, proposer.namedBy_quiet hquiet]
      simp [refuses_iff.mpr ⟨hpass, hquiet⟩, hquiet]
    · unfold Forgets
      rw [hloop, proposer.namedBy_quiet (by simp [hpass]), hpass]
      simp [Refuses]
    · unfold Forgets
      rw [hloop, hfail]
      by_cases hindex : index < ops.length
      · -- the last attempt: the entry is named, but not collected
        rw [proposer.namedBy_in_range hfail hindex]
        apply iff_of_true
        · exact Or.inr ⟨ops[index], List.mem_cons_self, hfresh.2 _ (List.getElem_mem hindex)⟩
        · exact Or.inr ⟨index, reason, rfl, hindex, Or.inl (by omega)⟩
      · rw [proposer.namedBy_out_of_range hfail (by omega)]
        simp [Refuses, hindex]
    · have hrounds := hrest hlt _ _ (hfresh.drop hindex reason)
      rw [List.length_eraseIdx_of_lt hindex] at hrounds
      rw [proposer.forgets_drop_iff fees answers hfail hindex hlt (by rw [hloop]), hrounds, hfail]
      refine ⟨fun h => Or.inr ⟨index, reason, rfl, hindex, Or.inr ⟨hlt, h⟩⟩, ?_⟩
      rintro (⟨_, hrefuses⟩ | ⟨_, _, _, _, hmax | ⟨_, hloses⟩⟩)
      · exact hrefuses.elim
      · omega
      · exact hloses

/-- **What the loop forgets.**  Some named entry is not among the collected
hashes exactly if the answers lose it. -/
theorem forgets_iff :
    ∀ (left attempt : Nat) (ops : List PoolEntry) (rejectedOps : List RejectedOp) (named : Prop),
      attempt + left = proposer.maxRetries → Fresh ops rejectedOps →
      (proposer.Forgets fees answers (List.range' attempt (left + 1)) ops rejectedOps named ↔
        LosesNamed answers proposer.maxRetries attempt ops.length named) := by
  intro left
  induction left with
  | zero =>
      intro attempt ops rejectedOps named hmax hfresh
      apply forgets_round
      · omega
      · exact hfresh
      · intro hlt
        omega
  | succ left ih =>
      intro attempt ops rejectedOps named hmax hfresh
      apply forgets_round
      · omega
      · exact hfresh
      · intro _ ops' rejectedOps' hfresh'
        exact ih (attempt + 1) ops' rejectedOps' True (by omega) hfresh'

/-- Only operations of the bundle are named. -/
theorem namedBy_subset (attempts : List Nat) :
    ∀ {ops : List PoolEntry}, ∀ e ∈ proposer.namedBy answers attempts ops, e ∈ ops := by
  induction attempts with
  | nil =>
      intro ops e he
      cases he
  | cons attempt attempts ih =>
      intro ops e he
      by_cases hfail : ∃ index reason, answers attempt = .ok (.failedOp index reason)
      · obtain ⟨index, reason, hfail⟩ := hfail
        by_cases hindex : index < ops.length
        · rw [proposer.namedBy_in_range hfail hindex] at he
          rcases List.mem_cons.mp he with rfl | hlater
          · exact List.getElem_mem hindex
          · split at hlater
            · cases hlater
            · exact List.mem_of_mem_eraseIdx (ih e hlater)
        · rw [proposer.namedBy_out_of_range hfail (by omega)] at he
          cases he
      · rw [proposer.namedBy_quiet (fun index reason h => hfail ⟨index, reason, h⟩)] at he
        cases he

/-- A bundle that the loop returns is not empty. -/
theorem retryLoop_nonempty {attempts : List Nat} {ops : List PoolEntry}
    {rejectedOps : List RejectedOp} {bundle : Bundle}
    (h : (proposer.retryLoop fees answers attempts ops rejectedOps).result = .ok bundle) :
    bundle.isEmpty = false := by
  obtain ⟨ops', rejectedOps', _, hsome, rfl⟩ := retryLoop_ok h
  change (packOps ops').isEmpty = false
  rw [packOps_isEmpty]
  exact List.isEmpty_eq_false_iff.mpr hsome

/-- The answers lose a named operation: the oracle answers, and so does the
handler, with the candidates that cover the fees as the list to start with. -/
def LosesNamedOn (pool : OperationPool) (currentFees : Except ProviderError GasFees)
    (baseFee : Except ProviderError U128) : Prop :=
  ∃ fees base, currentFees = .ok fees ∧ baseFee = .ok base ∧
    LosesNamed answers proposer.maxRetries 0 (proposer.candidates pool base).length False

end BundleProposerImpl

/-! ## The building step -/

section Step

/-- Rejected hashes leave, and no others. -/
theorem describes_removeRejected (rejectedOps : List RejectedOp) :
    ∀ {pool : OperationPool} {S : Finset PoolEntry}, Describes pool S →
      Describes (BundlerTask.removeRejected pool rejectedOps)
        (S.filter (fun e => e.hash ∉ rejectedOps.map RejectedOp.hash)) := by
  induction rejectedOps with
  | nil =>
      intro pool S h
      have hall : S.filter (fun e => e.hash ∉ ([] : List RejectedOp).map RejectedOp.hash) = S :=
        Finset.filter_true_of_mem (fun e _ => List.not_mem_nil)
      rwa [hall]
  | cons rejected rejectedOps ih =>
      intro pool S h
      have hrest := ih (h.removeByHash rejected.hash)
      have hfilter : S.filter (fun e => e.hash ∉ (rejected :: rejectedOps).map RejectedOp.hash) =
          (S.filter (fun e => e.hash ≠ rejected.hash)).filter
            (fun e => e.hash ∉ rejectedOps.map RejectedOp.hash) := by
        rw [Finset.filter_filter]
        apply Finset.filter_congr
        intro e _
        rw [List.map_cons, List.mem_cons, not_or]
      rw [hfilter]
      exact hrest

variable {S : Finset PoolEntry}

/-- The pool holds an operation exactly if an entry has its packed form. -/
theorem holds_iff {pool : OperationPool} (h : Describes pool S) (op : PackedUserOperation) :
    pool.Holds op ↔ ∃ e ∈ S, e.uo.pack = op := by
  unfold OperationPool.Holds
  simp only [h.ordered.2]

/-- The candidates are entries of the pool with different hashes. -/
theorem fresh_candidates {pool : OperationPool} (h : Describes pool S)
    (proposer : BundleProposerImpl) (base : U128) :
    (∀ e ∈ proposer.candidates pool base, e ∈ S) ∧
      BundleProposerImpl.Fresh (proposer.candidates pool base) [] := by
  have hsub : (proposer.candidates pool base).Sublist pool.ordered.toList :=
    List.filter_sublist.trans (List.take_sublist _ _)
  have hmem : ∀ e ∈ proposer.candidates pool base, e ∈ S := by
    intro e he
    exact (h.ordered.2 e).mp (hsub.subset he)
  refine ⟨hmem, ?_, ?_⟩
  · apply List.Nodup.map_on _ (h.ordered.1.sublist hsub)
    intro e he e' he' hsame
    exact h.byHash.key_injOn (hmem e he) (hmem e' he') hsame
  · intro e _
    exact List.not_mem_nil

variable [Keccak] {t : BundlerTask} {a : StepAnswers}

/-- What the building step leaves in the pool. -/
theorem describes_building (h : Describes t.pool S) (hs : t.state = .building)
    (hnonempty : ∀ bundle, a.proposal = .ok bundle → bundle.isEmpty = false) :
    Describes (t.step a).pool
      (S.filter (fun e => e.hash ∉ BundleProposerImpl.evicted a.proposal)) := by
  have hhandle : t.handle a = t.handleBuilding a := by simp only [BundlerTask.handle, hs]
  unfold BundlerTask.step
  rw [hhandle]
  unfold BundlerTask.handleBuilding
  cases hprop : a.proposal with
  | error e => simpa [BundleProposerImpl.evicted] using h
  | ok bundle =>
      simp only [hnonempty bundle hprop, Bool.false_eq_true, if_false]
      exact describes_removeRejected bundle.rejectedOps h

/-- No named operation is pooled after the step, so none is a candidate of the
next proposal. -/
def EvictsNamed (proposer : BundleProposerImpl) (proposal : Proposal) (pool : OperationPool) :
    Prop :=
  ∀ op, proposal.Names op →
    ¬ pool.Holds op ∧ ∀ base, ∀ e ∈ proposer.candidates pool base, e.uo.pack ≠ op

omit [Keccak] in
/-- A candidate is pooled. -/
theorem holds_of_candidate {proposer : BundleProposerImpl} {pool : OperationPool} {base : U128}
    {e : PoolEntry} (he : e ∈ proposer.candidates pool base) : pool.Holds e.uo.pack :=
  ⟨e, List.mem_of_mem_take (List.mem_of_mem_filter he), rfl⟩

omit [Keccak] in
/-- Eviction is complete if no named operation is held afterwards. -/
theorem evictsNamed_iff_not_holds (proposer : BundleProposerImpl) (proposal : Proposal)
    (pool : OperationPool) :
    EvictsNamed proposer proposal pool ↔ ∀ op, proposal.Names op → ¬ pool.Holds op := by
  refine ⟨?_, ?_⟩
  · intro h op hop
    exact (h op hop).1
  · intro h op hop
    refine ⟨h op hop, ?_⟩
    intro base e he hpack
    exact h op hop (hpack ▸ holds_of_candidate he)

/-- The step after a run of the loop over pooled candidates. -/
theorem evicts_loop_iff (hS : Describes t.pool S)
    (hstored : ∀ e ∈ S, e.hash = e.uo.hash ∧ e.id = e.uo.id) (hs : t.state = .building)
    (proposer : BundleProposerImpl) (fees : GasFees)
    (answers : Nat → Except ProviderError HandleOpsOut) {ops : List PoolEntry}
    (hops : ∀ e ∈ ops, e ∈ S) (hfresh : BundleProposerImpl.Fresh ops [])
    (hproposal : a.proposal =
      (proposer.retryLoop fees answers (List.range (proposer.maxRetries + 1)) ops []).result) :
    (∀ op,
      (proposer.retryLoop fees answers (List.range (proposer.maxRetries + 1)) ops []).Names op →
      ¬ (t.step a).pool.Holds op) ↔
      ¬ LosesNamed answers proposer.maxRetries 0 ops.length False := by
  have hafter := describes_building hS hs (by
    intro bundle hbundle
    rw [hproposal] at hbundle
    exact proposer.retryLoop_nonempty fees answers hbundle)
  have hforgets := proposer.forgets_iff fees answers proposer.maxRetries 0 ops [] False (by omega)
    hfresh
  rw [← List.range_eq_range'] at hforgets
  unfold BundleProposerImpl.Forgets at hforgets
  rw [← hproposal] at hforgets
  rw [← hforgets]
  have hsub : ∀ e ∈ proposer.namedBy answers (List.range (proposer.maxRetries + 1)) ops, e ∈ ops :=
    proposer.namedBy_subset answers _
  refine ⟨?_, ?_⟩
  · intro hgone h
    rcases h with ⟨hnone, _⟩ | ⟨e, he, hkept⟩
    · exact hnone
    · apply hgone e.uo.pack ((proposer.names_retryLoop fees answers _ _ _ _).mpr ⟨e, he, rfl⟩)
      exact (holds_iff hafter _).mpr
        ⟨e, Finset.mem_filter.mpr ⟨hops e (hsub e he), hkept⟩, rfl⟩
  · intro hnone op hop hholds
    obtain ⟨e, he, hpack⟩ := (proposer.names_retryLoop fees answers _ _ _ _).mp hop
    obtain ⟨e', he', hpack'⟩ := (holds_iff hafter _).mp hholds
    obtain ⟨hmem', hkept⟩ := Finset.mem_filter.mp he'
    -- the packed form tells the id, and there is one entry an id
    have hid : e'.id = e.id := by
      rw [(hstored e' hmem').2, (hstored e (hops e (hsub e he))).2,
        ← UserOperation.id_pack, ← UserOperation.id_pack, hpack, hpack']
    have hsame : e' = e := hS.byId.key_injOn hmem' (hops e (hsub e he)) hid
    rw [hsame] at hkept
    exact hnone (Or.inr ⟨e, he, hkept⟩)

/-- **Which answers evict what they name.**  After a building step on any
reachable pool, with any proposer and any answers of oracle and handler, the
named operations have left the pool exactly if the answers lose none. -/
theorem evictsNamed_iff (hpool : t.pool.Reachable) (hs : t.state = .building)
    (proposer : BundleProposerImpl) (currentFees : Except ProviderError GasFees)
    (baseFee : Except ProviderError U128) (answers : Nat → Except ProviderError HandleOpsOut)
    (hproposal : a.proposal = (proposer.makeBundle t.pool currentFees baseFee answers).result) :
    EvictsNamed proposer (proposer.makeBundle t.pool currentFees baseFee answers)
        (t.step a).pool ↔
      ¬ proposer.LosesNamedOn answers t.pool currentFees baseFee := by
  obtain ⟨S, hS, hstored⟩ := hpool.describes
  rw [evictsNamed_iff_not_holds]
  have hsilent : ∀ e, ∀ op, ¬ Proposal.Names { result := .error e, calls := [] } op :=
    fun _ _ => names_nil
  unfold BundleProposerImpl.LosesNamedOn
  cases hfees : currentFees with
  | error e => exact iff_of_true (fun op hop => absurd hop (hsilent _ op)) (by simp)
  | ok fees =>
      cases hbase : baseFee with
      | error e => exact iff_of_true (fun op hop => absurd hop (hsilent _ op)) (by simp)
      | ok base =>
          have hexists : (∃ f b, (Except.ok fees : Except ProviderError GasFees) = .ok f ∧
              (Except.ok base : Except ProviderError U128) = .ok b ∧
              LosesNamed answers proposer.maxRetries 0
                (proposer.candidates t.pool b).length False) ↔
              LosesNamed answers proposer.maxRetries 0
                (proposer.candidates t.pool base).length False := by
            simp
          rw [hexists]
          rw [hfees, hbase] at hproposal
          obtain ⟨hops, hfresh⟩ := fresh_candidates hS proposer base
          by_cases hempty : proposer.candidates t.pool base = []
          · rw [hempty, List.length_nil, losesNamed_zero (Nat.zero_le _)]
            apply iff_of_true _ not_false
            intro op hop
            rw [BundleProposerImpl.makeBundle_of_none fees answers hempty] at hop
            exact absurd hop (hsilent _ op)
          · rw [BundleProposerImpl.makeBundle_of_candidates fees answers hempty] at hproposal ⊢
            exact evicts_loop_iff hS hstored hs proposer fees answers hops hfresh hproposal

end Step

/-! ## One failing operation -/

section OneFailing

/-- A pool of one operation. -/
def loneOperation : OperationPool :=
  letI := polynomialDigest
  runCalls
    [.add ((plainOperation 1 0 30000000000).setContext ChainSpec.mainnet.entryPointV07 1)
      15000000000]
    (OperationPool.new (PoolConfig.ofChainSpec ChainSpec.mainnet))

/-- The pool is reached by one addition. -/
theorem loneOperation_reachable :
    letI := polynomialDigest
    loneOperation.Reachable :=
  ⟨_, _, rfl⟩

/-- The proposer of a task on mainnet. -/
def mainnetProposer : BundleProposerImpl := BundleProposerImpl.new ChainSpec.mainnet 7

/-- The fees that the oracle answers. -/
def marketFees : GasFees := { maxFeePerGas := 20000000000, maxPriorityFeePerGas := 1000000000 }

/-- The handler fails the first operation of every list. -/
def failsFirst : Nat → Except ProviderError HandleOpsOut :=
  fun _ => .ok (.failedOp 0 [.text "AA21 didn't pay prefund"])

/-- The answers of a building step with that handler. -/
def failingBuild : StepAnswers :=
  { silentAnswers with
    proposal := (mainnetProposer.makeBundle loneOperation (.ok marketFees) (.ok 15000000000)
      failsFirst).result }

/-- The task about to build. -/
def buildingTask : BundlerTask :=
  { BundlerTask.new 0xB0 loneOperation ChainSpec.mainnet with state := .building }

/-- The only operation is named, and stays in the pool. -/
theorem named_and_kept :
    letI := polynomialDigest
    loneOperation.Reachable ∧
      ¬ EvictsNamed mainnetProposer
        (mainnetProposer.makeBundle loneOperation (.ok marketFees) (.ok 15000000000) failsFirst)
        (buildingTask.step failingBuild).pool := by
  let _ := polynomialDigest
  refine ⟨loneOperation_reachable, ?_⟩
  have hcalls : (mainnetProposer.makeBundle loneOperation (.ok marketFees) (.ok 15000000000)
      failsFirst).calls.map (fun call => (call.answer, call.ops)) =
        [(failsFirst 0, [(plainOperation 1 0 30000000000).pack])] := by
    decide +kernel
  have hkept : (buildingTask.step failingBuild).pool.ordered.toList.map (fun e => e.uo.pack) =
      [(plainOperation 1 0 30000000000).pack] := by
    decide +kernel
  obtain ⟨call, hcall, hanswer⟩ := List.mem_map.mp (hcalls ▸ List.mem_singleton_self _)
  obtain ⟨e, he, hpack⟩ := List.mem_map.mp (hkept ▸ List.mem_singleton_self _)
  intro hevicts
  have hops : call.ops = [(plainOperation 1 0 30000000000).pack] := congrArg Prod.snd hanswer
  have hnamed : Proposal.Names (mainnetProposer.makeBundle loneOperation (.ok marketFees)
      (.ok 15000000000) failsFirst) (plainOperation 1 0 30000000000).pack := by
    refine ⟨call, hcall, 0, _, congrArg Prod.fst hanswer, ?_⟩
    rw [hops]
    rfl
  exact (hevicts _ hnamed).1 ⟨e, he, hpack⟩

/-- The same for one operation that fails its simulation. -/
theorem evictsNamed_iff_lone :
    letI := polynomialDigest
    EvictsNamed mainnetProposer
        (mainnetProposer.makeBundle loneOperation (.ok marketFees) (.ok 15000000000) failsFirst)
        (buildingTask.step failingBuild).pool ↔
      ¬ mainnetProposer.LosesNamedOn failsFirst loneOperation (.ok marketFees)
        (.ok 15000000000) :=
  @evictsNamed_iff polynomialDigest buildingTask failingBuild loneOperation_reachable rfl
    mainnetProposer (.ok marketFees) (.ok 15000000000) failsFirst rfl

end OneFailing

end Bunzo
