import Bunzo.PoolContents

/-!
# Refusals and replacements

Adding takes a pooled operation with the same id out before it looks at the
limits.  As there is room again for one operation of the sender, the limits
cannot refuse what the fee has let through.

* `unchanged_of_error` — a refused operation leaves everything as it was.
* `checkedMinBump` — the fee that replaces an operation, as a build with
  overflow checks computes it.
* `replacement_iff` — a replacement is priced as configured exactly as long as
  that fee fits its word, and along such replacements fees do not fall.
-/

namespace Bunzo

open FiniteIndices MachineWords

/-! ## Refusals -/

/-- **No refusal costs an operation.** -/
theorem unchanged_of_error [Keccak] (config : PoolConfig) (calls : List PoolCall)
    (uo : UserOperation) (baseFee : U128) (err : PoolError)
    (herr : ((runCalls calls (OperationPool.new config)).add uo baseFee).1 = .error err) :
    ((runCalls calls (OperationPool.new config)).add uo baseFee).2 =
      runCalls calls (OperationPool.new config) := by
  obtain ⟨S, h⟩ := describes_runCalls config calls
  rcases h.add_cases uo baseFee with ⟨_, err', hrej⟩ | ⟨_, hok, _⟩
  · rw [hrej]
  · rw [hok] at herr
    cases herr

/-- One operation is pooled, and there is room for no other. -/
def fullPool : OperationPool :=
  letI := polynomialDigest
  runCalls [.add ((plainOperation 1 0 2000000000).setContext 0xEE 1) 15]
    (OperationPool.new { maxSize := 1, maxOpsPerSender := 1, replacementFeeBumpBps := 1000 })

/-- An operation that pays a little more does not take the only place. -/
theorem unchanged_of_error_full :
    letI := polynomialDigest
    (fullPool.add ((plainOperation 1 0 2100000000).setContext 0xEE 1) 15).2 = fullPool :=
  let _ := polynomialDigest
  unchanged_of_error { maxSize := 1, maxOpsPerSender := 1, replacementFeeBumpBps := 1000 }
    [.add ((plainOperation 1 0 2000000000).setContext 0xEE 1) 15]
    ((plainOperation 1 0 2100000000).setContext 0xEE 1) 15
    (.replacementUnderpriced 2000000000 2100000000) (by decide +kernel)

/-! ## The price of a replacement -/

namespace PoolConfig

variable (config : PoolConfig) (existingFee : U128)

/-- The smallest fee that replaces an operation, if no step of its computation
overflows. -/
def checkedMinBump : Option U128 := do
  let share ← checkedMul existingFee (config.replacementFeeBumpBps.setWidth 128)
  checkedAdd existingFee (share / 10000)

/-- The same fee as a number. -/
def exactBump : Nat :=
  existingFee.toNat + existingFee.toNat * config.replacementFeeBumpBps.toNat / 10000

/-- The product and the sum fit the word of the fee. -/
def BumpFits : Prop :=
  existingFee.toNat * config.replacementFeeBumpBps.toNat < 2 ^ 128 ∧
    config.exactBump existingFee < 2 ^ 128

instance : Decidable (config.BumpFits existingFee) := inferInstanceAs (Decidable (_ ∧ _))

variable {config existingFee}

theorem toNat_bps : (config.replacementFeeBumpBps.setWidth 128).toNat =
    config.replacementFeeBumpBps.toNat := by
  rw [BitVec.toNat_setWidth, Nat.mod_eq_of_lt]
  exact lt_trans config.replacementFeeBumpBps.isLt (by decide)

theorem toNat_share
    (h : existingFee.toNat * config.replacementFeeBumpBps.toNat < 2 ^ 128) :
    (existingFee * config.replacementFeeBumpBps.setWidth 128 / 10000).toNat =
      existingFee.toNat * config.replacementFeeBumpBps.toNat / 10000 := by
  rw [BitVec.toNat_udiv, toNat_mul_of_lt (by rwa [toNat_bps]), toNat_bps]
  rfl

/-- The fee is computed without overflow if product and sum fit. -/
theorem checkedMinBump_isSome :
    (config.checkedMinBump existingFee).isSome ↔ config.BumpFits existingFee := by
  unfold checkedMinBump checkedMul BumpFits exactBump
  rw [toNat_bps]
  by_cases hproduct : existingFee.toNat * config.replacementFeeBumpBps.toNat < 2 ^ 128
  · rw [if_pos hproduct]
    change (checkedAdd existingFee _).isSome ↔ _
    unfold checkedAdd
    rw [toNat_share hproduct]
    split
    · next hsum => exact iff_of_true rfl ⟨hproduct, hsum⟩
    · next hsum => exact iff_of_false (by simp) (fun h => hsum h.2)
  · rw [if_neg hproduct]
    exact iff_of_false (by simp) (fun h => hproduct h.1)

/-- The fee the pool compares with is then the exact one. -/
theorem toNat_minBump (h : config.BumpFits existingFee) :
    (config.minBump existingFee).toNat = config.exactBump existingFee := by
  unfold minBump
  rw [toNat_add_of_lt (by rw [toNat_share h.1]; exact h.2), toNat_share h.1]
  rfl

theorem le_exactBump : existingFee.toNat ≤ config.exactBump existingFee :=
  Nat.le_add_right _ _

end PoolConfig

/-! ## What a replacement changes -/

/-- One pooled operation has given its place to another, and nothing else has
changed. -/
structure TakesPlace (before after : OperationPool) (old new : PoolEntry) : Prop where
  getByHash : ∀ hash, after.getByHash hash =
    if hash = new.hash then some new else if hash = old.hash then none else before.getByHash hash
  getById : ∀ id, after.getById id = if id = new.id then some new else before.getById id
  same_id : new.id = old.id
  listed : ∀ e, e ∈ after.ordered.toList ↔ e = new ∨ (e ≠ old ∧ e ∈ before.ordered.toList)
  size : after.size = before.size
  count : ∀ sender, (after.senderCount.get? sender).getD 0 =
    (before.senderCount.get? sender).getD 0
  fresh : ∀ e ∈ before.ordered.toList, e.sequence ≠ new.sequence

/-- A replacement is decided by the exact fee, and is a replacement. -/
structure ReplacesAsPriced [Keccak] (pool : OperationPool) (uo : UserOperation) (baseFee : U128)
    (entry : PoolEntry) : Prop where
  computes : (pool.config.checkedMinBump entry.uo.maxFeePerGas).isSome
  succeeds_iff : (pool.add uo baseFee).1 = .ok uo.hash ↔
    pool.config.exactBump entry.uo.maxFeePerGas ≤ uo.maxFeePerGas.toNat
  replaces : (pool.add uo baseFee).1 = .ok uo.hash →
    TakesPlace pool (pool.add uo baseFee).2 entry (PoolEntry.new uo baseFee pool.nextSequence)
  refuses : (pool.add uo baseFee).1 ≠ .ok uo.hash →
    pool.add uo baseFee =
      (.error (.replacementUnderpriced entry.uo.maxFeePerGas uo.maxFeePerGas), pool)

/-- No pooled operation has the number the next one gets. -/
def OperationPool.CounterFresh (pool : OperationPool) : Prop :=
  ∀ e ∈ pool.ordered.toList, e.sequence ≠ pool.nextSequence

namespace Describes

variable [Keccak] {pool : OperationPool} {S : Finset PoolEntry} {entry : PoolEntry}
  {uo : UserOperation} {baseFee : U128}

variable (baseFee) in
/-- **One replacement.**  The fee alone decides. -/
theorem add_replacing (h : Describes pool S) (hfound : pool.getById uo.id = some entry)
    (hnew : pool.getByHash uo.hash = none) :
    pool.add uo baseFee =
      if uo.maxFeePerGas < pool.config.minBump entry.uo.maxFeePerGas then
        (.error (.replacementUnderpriced entry.uo.maxFeePerGas uo.maxFeePerGas), pool)
      else (.ok uo.hash,
        (pool.removeInner entry).insertEntry (PoolEntry.new uo baseFee pool.nextSequence)) := by
  have hknown : ¬ pool.byHash.contains uo.hash := by
    rw [Std.ExtTreeMap.contains_eq_isSome_getElem?]
    change ¬ (pool.getByHash uo.hash).isSome
    rw [hnew]
    exact Bool.false_ne_true
  change pool.byId.get? uo.id = some entry at hfound
  split
  · next hfee =>
      rw [OperationPool.add_eq, if_neg hknown, hfound]
      simp only [hfee, if_true]
  · next hfee =>
      obtain ⟨hmem, hentry⟩ := (h.byId uo.id entry).mp hfound
      have hsender : entry.sender = uo.sender := congrArg UserOperationId.sender hentry
      have hroom := h.room_of_removeInner hmem
      rw [hsender] at hroom
      rcases (pool.removeInner entry).accept_cases uo baseFee with ⟨hfull, _⟩ | ⟨_, hok⟩
      · exact absurd hfull hroom
      · rw [OperationPool.add_eq, if_neg hknown, hfound]
        simp only [hfee, if_false]
        exact hok

omit [Keccak] in
/-- Taking one operation out and another one with its id in. -/
theorem takesPlace {new : PoolEntry} (h : Describes pool S) (hmem : entry ∈ S)
    (hid : new.id = entry.id) (hhash : ∀ b ∈ S, b.hash ≠ new.hash)
    (hafter : Describes ((pool.removeInner entry).insertEntry new) (insert new (S.erase entry)))
    (hfresh : ∀ e ∈ pool.ordered.toList, e.sequence ≠ new.sequence) :
    TakesPlace pool ((pool.removeInner entry).insertEntry new) entry new where
  getByHash hash := by
    change ((pool.byHash.erase entry.hash).insert new.hash new)[hash]? = _
    rw [Std.ExtTreeMap.getElem?_insert, Std.ExtTreeMap.getElem?_erase]
    simp only [Std.LawfulEqCmp.compare_eq_iff_eq, eq_comm (b := hash)]
    rfl
  getById id := by
    change ((pool.byId.erase entry.id).insert new.id new)[id]? = _
    rw [Std.ExtTreeMap.getElem?_insert, Std.ExtTreeMap.getElem?_erase, ← hid]
    simp only [Std.LawfulEqCmp.compare_eq_iff_eq, eq_comm (b := id)]
    split
    · rfl
    · rfl
  same_id := hid
  listed e := by
    rw [hafter.ordered.2, h.ordered.2, Finset.mem_insert, Finset.mem_erase]
  size := by
    have hsize := hafter.byHash.size_eq_card
    have hbefore := h.byHash.size_eq_card
    have hnew : new ∉ S.erase entry := fun hin => hhash new (Finset.mem_of_mem_erase hin) rfl
    rw [Finset.card_insert_of_notMem hnew, Finset.card_erase_add_one hmem] at hsize
    exact hsize.trans hbefore.symm
  count sender := by
    have hnew : new ∉ S.erase entry := fun hin => hhash new (Finset.mem_of_mem_erase hin) rfl
    have hsender : new.sender = entry.sender := congrArg UserOperationId.sender hid
    refine (hafter.senderCount.getD_eq sender).trans ?_
    refine Eq.trans ?_ (h.senderCount.getD_eq sender).symm
    rw [tally_insert hnew, tally_erase hmem, hsender]
  fresh := hfresh

/-- **When a replacement is priced as configured.** -/
theorem replacesAsPriced_iff (h : Describes pool S) (hfound : pool.getById uo.id = some entry)
    (hnew : pool.getByHash uo.hash = none) :
    ReplacesAsPriced pool uo baseFee entry ↔
      pool.config.BumpFits entry.uo.maxFeePerGas ∧
        (pool.config.exactBump entry.uo.maxFeePerGas ≤ uo.maxFeePerGas.toNat →
          pool.CounterFresh) := by
  have hadd := h.add_replacing baseFee hfound hnew
  obtain ⟨hmem, hentry⟩ := (h.byId uo.id entry).mp hfound
  refine ⟨?_, ?_⟩
  · intro hpriced
    refine ⟨PoolConfig.checkedMinBump_isSome.mp hpriced.computes, ?_⟩
    intro hfee
    exact (hpriced.replaces (hpriced.succeeds_iff.mpr hfee)).fresh
  · rintro ⟨hfits, hfresh⟩
    have hexact := PoolConfig.toNat_minBump hfits
    by_cases hfee : uo.maxFeePerGas < pool.config.minBump entry.uo.maxFeePerGas
    · have hlow : ¬ pool.config.exactBump entry.uo.maxFeePerGas ≤ uo.maxFeePerGas.toNat := by
        rw [← hexact]
        exact Nat.not_le_of_lt (BitVec.lt_def.mp hfee)
      rw [if_pos hfee] at hadd
      refine ⟨PoolConfig.checkedMinBump_isSome.mpr hfits, ?_, ?_, fun _ => hadd⟩
      · rw [hadd]
        exact iff_of_false (by simp) hlow
      · rw [hadd]
        intro hok
        cases hok
    · have hhigh : pool.config.exactBump entry.uo.maxFeePerGas ≤ uo.maxFeePerGas.toNat := by
        rw [← hexact]
        exact BitVec.le_def.mp (BitVec.not_lt.mp hfee)
      have hhash : ∀ b ∈ S, b.hash ≠ uo.hash := h.byHash.fresh hnew
      rw [if_neg hfee] at hadd
      refine ⟨PoolConfig.checkedMinBump_isSome.mpr hfits, ?_, ?_, ?_⟩
      · rw [hadd]
        exact iff_of_true rfl hhigh
      · intro _
        rcases h.add_outcomes uo baseFee with
          ⟨_, err, hrej⟩ | ⟨_, hnone, _⟩ | ⟨_, entry', hmem', hfound', _, _, hafter⟩
        · rw [hrej] at hadd
          cases congrArg Prod.fst hadd
        · cases hnone.symm.trans hfound
        · obtain rfl : entry' = entry := Option.some.inj (hfound'.symm.trans hfound)
          rw [hadd]
          exact h.takesPlace hmem' hentry.symm hhash hafter (hfresh hhigh)
      · rw [hadd]
        exact fun hno => absurd rfl hno

/-- Under one id a call only puts operations that pay as much. -/
theorem maxFee_le_of_apply (h : Describes pool S) (call : PoolCall) {id : UserOperationId}
    {after : PoolEntry} (hbefore : pool.getById id = some entry)
    (hfits : pool.config.BumpFits entry.uo.maxFeePerGas)
    (hafter : (call.apply pool).getById id = some after) :
    entry.uo.maxFeePerGas ≤ after.uo.maxFeePerGas := by
  obtain ⟨hmem, rfl⟩ := (h.byId id entry).mp hbefore
  -- an entry that was there before is the same one
  have hsame : after ∈ S → after.id = entry.id →
      entry.uo.maxFeePerGas ≤ after.uo.maxFeePerGas := by
    intro hin hid
    rw [h.byId.key_injOn hin hmem hid]
    exact BitVec.le_refl _
  rcases h.apply_cases call with ⟨S', hsub, h', _⟩ | ⟨uo, baseFee, _, _, _, h', hfee⟩
  · obtain ⟨hin, hid⟩ := (h'.byId entry.id after).mp hafter
    exact hsame (hsub hin) hid
  · obtain ⟨hin, hid⟩ := (h'.byId entry.id after).mp hafter
    rcases Finset.mem_insert.mp hin with rfl | hin
    · have hbump := BitVec.le_def.mp (BitVec.not_lt.mp (hfee entry hmem hid.symm))
      rw [PoolConfig.toNat_minBump hfits] at hbump
      exact BitVec.le_def.mpr (PoolConfig.le_exactBump.trans hbump)
    · exact hsame (Finset.mem_of_mem_filter after hin) hid

end Describes

/-! ## Chains of replacements -/

/-- The id is pooled before each call, with a fee whose replacement fits. -/
def PooledAlong [Keccak] (id : UserOperationId) : List PoolCall → OperationPool → Prop
  | [], _ => True
  | call :: calls, pool =>
      (∃ entry, pool.getById id = some entry ∧ pool.config.BumpFits entry.uo.maxFeePerGas) ∧
        PooledAlong id calls (call.apply pool)

/-- Along such calls the fee of the id does not fall. -/
theorem maxFee_le_of_along [Keccak] {id : UserOperationId} {calls : List PoolCall} :
    ∀ {pool : OperationPool} {S : Finset PoolEntry} {first last : PoolEntry},
      Describes pool S → PooledAlong id calls pool → pool.getById id = some first →
      (runCalls calls pool).getById id = some last →
      first.uo.maxFeePerGas ≤ last.uo.maxFeePerGas := by
  induction calls with
  | nil =>
      intro pool S first last _ _ hfirst hlast
      obtain rfl := Option.some.inj (hfirst.symm.trans hlast)
      exact BitVec.le_refl _
  | cons call calls ih =>
      intro pool S first last h halong hfirst hlast
      obtain ⟨⟨entry, hentry, hfits⟩, hrest⟩ := halong
      obtain rfl := Option.some.inj (hfirst.symm.trans hentry)
      obtain ⟨S', h'⟩ := h.apply call
      -- the id is pooled after the call: before the next one, or at the end
      have hnext : ∃ next, (call.apply pool).getById id = some next := by
        cases calls with
        | nil => exact ⟨last, hlast⟩
        | cons call' calls =>
            obtain ⟨⟨next, hnext, _⟩, _⟩ := hrest
            exact ⟨next, hnext⟩
      obtain ⟨next, hnext⟩ := hnext
      exact BitVec.le_trans (h.maxFee_le_of_apply call hfirst hfits hnext)
        (ih h' hrest hnext hlast)

/-- **Replacements.**  An operation whose id is pooled, and whose hash is not,
replaces the pooled one as priced exactly if the fee it has to pay can be
computed and the counter has not come to numbers in use; and along calls on
which these fees can be computed the fee of an id does not fall. -/
theorem replacement_iff [Keccak] (config : PoolConfig) (calls : List PoolCall) :
    (∀ (uo : UserOperation) (baseFee : U128) (entry : PoolEntry),
      (runCalls calls (OperationPool.new config)).getById uo.id = some entry →
      (runCalls calls (OperationPool.new config)).getByHash uo.hash = none →
      (ReplacesAsPriced (runCalls calls (OperationPool.new config)) uo baseFee entry ↔
        config.BumpFits entry.uo.maxFeePerGas ∧
          (config.exactBump entry.uo.maxFeePerGas ≤ uo.maxFeePerGas.toNat →
            (runCalls calls (OperationPool.new config)).CounterFresh))) ∧
    ∀ (id : UserOperationId) (more : List PoolCall) (first last : PoolEntry),
      PooledAlong id more (runCalls calls (OperationPool.new config)) →
      (runCalls calls (OperationPool.new config)).getById id = some first →
      (runCalls (calls ++ more) (OperationPool.new config)).getById id = some last →
      first.uo.maxFeePerGas ≤ last.uo.maxFeePerGas := by
  obtain ⟨S, h⟩ := describes_runCalls config calls
  have hconfig : (runCalls calls (OperationPool.new config)).config = config :=
    config_runCalls calls _
  refine ⟨?_, ?_⟩
  · intro uo baseFee entry hfound hnew
    rw [h.replacesAsPriced_iff hfound hnew, hconfig]
  · intro id more first last halong hfirst hlast
    rw [runCalls_append] at hlast
    exact maxFee_le_of_along h halong hfirst hlast

/-- A pool with one operation of a given fee. -/
def pricedPool (maxFee : U128) : OperationPool :=
  letI := polynomialDigest
  runCalls [.add ((plainOperation 1 0 maxFee).setContext 0xEE 1) 15]
    (OperationPool.new (PoolConfig.ofChainSpec ChainSpec.mainnet))

/-- A tenth more replaces the operation. -/
theorem replacement_iff_priced :
    letI := polynomialDigest
    ReplacesAsPriced (pricedPool 2000000000) ((plainOperation 1 0 2200000000).setContext 0xEE 1) 15
      (PoolEntry.new ((plainOperation 1 0 2000000000).setContext 0xEE 1) 15 0) := by
  let _ := polynomialDigest
  refine ((replacement_iff (PoolConfig.ofChainSpec ChainSpec.mainnet)
    [.add ((plainOperation 1 0 2000000000).setContext 0xEE 1) 15]).1 _ _ _ (by decide +kernel)
    (by decide +kernel)).mpr ⟨by decide, fun _ => ?_⟩
  unfold OperationPool.CounterFresh
  decide +kernel

/-- A fee of `2 ^ 125` times the thousand of the configuration is nothing in its
word, so one wei more replaces the operation instead of a tenth. -/
theorem bump_wraps :
    letI := polynomialDigest
    let old := (plainOperation 1 0 0x20000000000000000000000000000000).setContext 0xEE 1
    let uo := (plainOperation 1 0 0x20000000000000000000000000000001).setContext 0xEE 1
    (pricedPool old.maxFeePerGas).getById uo.id = some (PoolEntry.new old 15 0) ∧
      (pricedPool old.maxFeePerGas).getByHash uo.hash = none ∧
      ((pricedPool old.maxFeePerGas).add uo 15).1 = .ok uo.hash ∧
      ¬ (pricedPool old.maxFeePerGas).config.exactBump old.maxFeePerGas ≤
        uo.maxFeePerGas.toNat := by
  decide +kernel

end Bunzo
