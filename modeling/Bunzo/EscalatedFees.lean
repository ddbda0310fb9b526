import Bunzo.TransactionTracker

/-!
# The fees of a replacement

An escalation raises both fees of the tracked transaction by a number of basis
points, and with network tracking to the market fees plus a premium, if those are
higher.  All products are rounded down.

* `escalatedFees_raised` — both strategies raise fee by fee.
* `raised_mono`, `le_raised` — raising keeps the order of two fees, and never
  lowers one.
* `acceptable_iff` — which replacements clear the threshold of a node.
-/

namespace Bunzo

open MachineWords

namespace TransactionTracker

/-- The product of a fee and its multiplier fits the word. -/
def ProductFits (fee : U128) (bps : U32) : Prop := fee.toNat * (10000 + bps.toNat) < 2 ^ 128

instance decidableProductFits (fee : U128) (bps : U32) : Decidable (ProductFits fee bps) :=
  inferInstanceAs (Decidable (_ < _))

theorem toNat_bumped {fee : U128} {bps : U32} (h : ProductFits fee bps) :
    (bumped fee bps).toNat = fee.toNat * (10000 + bps.toNat) / 10000 := by
  have hbps := bps.isLt
  have hmultiplier : ((10000 : U128) + bps.setWidth 128).toNat = 10000 + bps.toNat := by
    rw [BitVec.toNat_add, BitVec.toNat_setWidth]
    change (10000 + bps.toNat % 2 ^ 128) % 2 ^ 128 = _
    omega
  have hproduct : fee.toNat * ((10000 : U128) + bps.setWidth 128).toNat < 2 ^ 128 := by
    rw [hmultiplier]
    exact h
  unfold bumped
  rw [BitVec.toNat_udiv, toNat_mul_of_lt hproduct, hmultiplier]
  rfl

/-- A fee raised to the market fee with a premium, but at least by the bump. -/
def raised (fee : U128) (bps : U32) (market : Option U128) (premium : U32) : U128 :=
  match market with
  | none => bumped fee bps
  | some market => max (bumped market premium) (bumped fee bps)

/-- The market fees that an escalation looks at. -/
def marketFees (tracker : TransactionTracker) (baseFee priorityFee : Except ProviderError U128) :
    Option (U128 × U128) :=
  match tracker.escalationConfig.strategy with
  | .linear => none
  | .networkTracking => do
      let baseFee ← baseFee.toOption
      let priorityFee ← priorityFee.toOption
      return (baseFee + priorityFee, priorityFee)

/-- The products that an escalation computes fit the word. -/
def EscalationFits (tracker : TransactionTracker)
    (baseFee priorityFee : Except ProviderError U128) : Prop :=
  (∀ p, tracker.pending = some p →
    ProductFits p.maxFeePerGas tracker.escalationConfig.feeBumpBps ∧
      ProductFits p.maxPriorityFeePerGas tracker.escalationConfig.feeBumpBps) ∧
  (tracker.escalationConfig.strategy = .networkTracking → ∀ b q, baseFee = .ok b →
    priorityFee = .ok q → b.toNat + q.toNat < 2 ^ 128 ∧
      ProductFits (b + q) tracker.escalationConfig.networkPremiumBps ∧
      ProductFits q tracker.escalationConfig.networkPremiumBps)

section Spec

variable {tracker : TransactionTracker} {baseFee priorityFee : Except ProviderError U128}
  {p : PendingTransaction} {fees : U128 × U128}

/-- **Both strategies raise fee by fee.** -/
theorem escalatedFees_raised (hp : tracker.pending = some p)
    (hfees : tracker.escalatedFees baseFee priorityFee = some fees) :
    p.escalationCount < tracker.escalationConfig.maxAttempts ∧
    fees.1 = raised p.maxFeePerGas tracker.escalationConfig.feeBumpBps
      ((tracker.marketFees baseFee priorityFee).map Prod.fst)
      tracker.escalationConfig.networkPremiumBps ∧
    fees.2 = raised p.maxPriorityFeePerGas tracker.escalationConfig.feeBumpBps
      ((tracker.marketFees baseFee priorityFee).map Prod.snd)
      tracker.escalationConfig.networkPremiumBps := by
  unfold escalatedFees escalatedFeesNetwork at hfees
  unfold marketFees
  simp only [hp, Option.bind_eq_bind, Option.bind_some] at hfees
  by_cases hspent : tracker.escalationConfig.maxAttempts ≤ p.escalationCount
  · rw [if_pos hspent] at hfees
    cases hfees
  · rw [if_neg hspent] at hfees
    refine ⟨BitVec.not_le.mp hspent, ?_⟩
    cases hstrategy : tracker.escalationConfig.strategy with
    | linear =>
        simp only [hstrategy] at hfees
        obtain rfl := Option.some.inj hfees
        exact ⟨rfl, rfl⟩
    | networkTracking =>
        simp only [hstrategy] at hfees
        rcases baseFee with e | b
        · cases hfees
        · rcases priorityFee with e | q
          · cases hfees
          · obtain rfl := Option.some.inj hfees
            exact ⟨rfl, rfl⟩

/-- **When there are no fees to bid**: the attempts are used up, or a market fee is
looked for and a query fails. -/
theorem escalatedFees_eq_none_iff (hp : tracker.pending = some p) :
    tracker.escalatedFees baseFee priorityFee = none ↔
      tracker.escalationConfig.maxAttempts ≤ p.escalationCount ∨
        tracker.escalationConfig.strategy = .networkTracking ∧
          ((∃ e, baseFee = .error e) ∨ ∃ e, priorityFee = .error e) := by
  unfold escalatedFees escalatedFeesNetwork
  simp only [hp, Option.bind_eq_bind, Option.bind_some]
  by_cases hspent : tracker.escalationConfig.maxAttempts ≤ p.escalationCount
  · simp [hspent]
  · rw [if_neg hspent]
    cases hstrategy : tracker.escalationConfig.strategy with
    | linear => simp [hspent]
    | networkTracking =>
        rcases baseFee with e | b
        · simp [Except.toOption]
        · rcases priorityFee with e | q
          · simp [Except.toOption]
          · simp [Except.toOption, hspent]

/-- The market fees are the sum of the two answers, and the second one. -/
theorem marketFees_eq_some {m : U128 × U128}
    (h : tracker.marketFees baseFee priorityFee = some m) :
    tracker.escalationConfig.strategy = .networkTracking ∧
      ∃ b q, baseFee = .ok b ∧ priorityFee = .ok q ∧ m = (b + q, q) := by
  unfold marketFees at h
  cases hstrategy : tracker.escalationConfig.strategy with
  | linear =>
      simp only [hstrategy] at h
      cases h
  | networkTracking =>
      simp only [hstrategy] at h
      rcases baseFee with e | b
      · cases h
      · rcases priorityFee with e | q
        · cases h
        · exact ⟨rfl, b, q, rfl, rfl, (Option.some.inj h).symm⟩

theorem EscalationFits.market (h : tracker.EscalationFits baseFee priorityFee) {m : U128 × U128}
    (hm : tracker.marketFees baseFee priorityFee = some m) :
    m.2 ≤ m.1 ∧ ProductFits m.1 tracker.escalationConfig.networkPremiumBps ∧
      ProductFits m.2 tracker.escalationConfig.networkPremiumBps := by
  obtain ⟨hstrategy, b, q, hb, hq, rfl⟩ := marketFees_eq_some hm
  obtain ⟨hsum, hfirst, hsecond⟩ := h.2 hstrategy b q hb hq
  refine ⟨?_, hfirst, hsecond⟩
  rw [BitVec.le_def, toNat_add_of_lt hsum]
  exact Nat.le_add_left _ _

end Spec

/-! ## Raising -/

section Raised

variable {a b : U128} {bps premium : U32}

theorem bumped_mono (ha : ProductFits a bps) (hb : ProductFits b bps) (hab : a ≤ b) :
    bumped a bps ≤ bumped b bps := by
  rw [BitVec.le_def, toNat_bumped ha, toNat_bumped hb]
  exact Nat.div_le_div_right (Nat.mul_le_mul_right _ hab)

theorem le_bumped (ha : ProductFits a bps) : a ≤ bumped a bps := by
  rw [BitVec.le_def, toNat_bumped ha, Nat.mul_add]
  omega

/-- Raising keeps the order of two fees, if the market has the same order. -/
theorem raised_mono {market : Option (U128 × U128)} (ha : ProductFits a bps)
    (hb : ProductFits b bps) (hab : a ≤ b)
    (hmarket : ∀ m, market = some m → m.2 ≤ m.1 ∧ ProductFits m.1 premium ∧
      ProductFits m.2 premium) :
    raised a bps (market.map Prod.snd) premium ≤ raised b bps (market.map Prod.fst) premium := by
  cases market with
  | none => exact bumped_mono ha hb hab
  | some m =>
      obtain ⟨hle, hfirst, hsecond⟩ := hmarket m rfl
      change max (bumped m.2 premium) (bumped a bps) ≤ max (bumped m.1 premium) (bumped b bps)
      rw [BitVec.le_def, toNat_max, toNat_max]
      exact max_le_max (bumped_mono hsecond hfirst hle) (bumped_mono ha hb hab)

/-- Raising never lowers a fee. -/
theorem le_raised (ha : ProductFits a bps) (market : Option U128) :
    a ≤ raised a bps market premium := by
  cases market with
  | none => exact le_bumped ha
  | some m =>
      change a ≤ max (bumped m premium) (bumped a bps)
      rw [BitVec.le_def, toNat_max]
      exact (le_bumped ha).trans (Nat.le_max_right _ _)

/-! ## The threshold of a node -/

/-- What a node asks of each fee of a replacement: it is higher, by a tenth or
more. -/
def Acceptable (old new : U128) : Prop := old < new ∧ old.toNat * 110 / 100 ≤ new.toNat

/-- The bump, or the premium over the market fee, is one wei or more. -/
def Outbids (old : U128) (bps : U32) (market : Option U128) (premium : U32) : Prop :=
  10000 ≤ old.toNat * bps.toNat ∨ ∃ m, market = some m ∧
    (old.toNat + 1) * 10000 ≤ m.toNat * (10000 + premium.toNat)

/-- The bump of a tenth or more clears the threshold but for the strict part. -/
theorem tenth_le_bumped (ha : ProductFits a bps) (hbps : 1000 ≤ bps.toNat) :
    a.toNat * 110 / 100 ≤ (bumped a bps).toNat := by
  have hproduct : a.toNat * 1000 ≤ a.toNat * bps.toNat := Nat.mul_le_mul_left _ hbps
  rw [toNat_bumped ha, Nat.mul_add]
  omega

theorem lt_bumped_iff (ha : ProductFits a bps) :
    a < bumped a bps ↔ 10000 ≤ a.toNat * bps.toNat := by
  rw [BitVec.lt_def, toNat_bumped ha, Nat.mul_add]
  omega

theorem lt_bumped_market_iff {market : U128} (hm : ProductFits market premium) :
    a < bumped market premium ↔ (a.toNat + 1) * 10000 ≤ market.toNat * (10000 + premium.toNat) := by
  rw [BitVec.lt_def, toNat_bumped hm, Nat.lt_iff_add_one_le, Nat.le_div_iff_mul_le (by decide)]

/-- **One fee.**  It is acceptable exactly if the raise is not rounded away. -/
theorem acceptable_raised_iff {market : Option U128} (ha : ProductFits a bps)
    (hbps : 1000 ≤ bps.toNat) (hmarket : ∀ m, market = some m → ProductFits m premium) :
    Acceptable a (raised a bps market premium) ↔ Outbids a bps market premium := by
  have htenth := tenth_le_bumped ha hbps
  have hlt := lt_bumped_iff ha
  unfold Acceptable Outbids
  cases market with
  | none =>
      change (a < bumped a bps ∧ a.toNat * 110 / 100 ≤ (bumped a bps).toNat) ↔ _
      rw [hlt]
      simp [htenth]
  | some m =>
      have hltm := lt_bumped_market_iff (a := a) (hmarket m rfl)
      have hraised : (raised a bps (some m) premium).toNat =
          max (bumped m premium).toNat (bumped a bps).toNat := toNat_max _ _
      have hclears : a.toNat * 110 / 100 ≤ (raised a bps (some m) premium).toNat := by
        rw [hraised]
        exact htenth.trans (Nat.le_max_right _ _)
      rw [BitVec.lt_def] at hlt hltm
      simp only [hclears, and_true, Option.some.injEq, exists_eq_left']
      rw [BitVec.lt_def, hraised, lt_max_iff, hlt, hltm, or_comm]

end Raised

/-- **Which replacements clear the threshold.**  For every tracked transaction, all
fee readings and both strategies, with a bump of a tenth or more and products that
fit, both fees are acceptable exactly if for each of them the bump or the premium
is not rounded away. -/
theorem acceptable_iff {tracker : TransactionTracker} {p : PendingTransaction}
    {baseFee priorityFee : Except ProviderError U128} {fees : U128 × U128}
    (hp : tracker.pending = some p)
    (hfees : tracker.escalatedFees baseFee priorityFee = some fees)
    (hbps : 1000 ≤ tracker.escalationConfig.feeBumpBps.toNat)
    (hfits : tracker.EscalationFits baseFee priorityFee) :
    Acceptable p.maxFeePerGas fees.1 ∧ Acceptable p.maxPriorityFeePerGas fees.2 ↔
      Outbids p.maxFeePerGas tracker.escalationConfig.feeBumpBps
          ((tracker.marketFees baseFee priorityFee).map Prod.fst)
          tracker.escalationConfig.networkPremiumBps ∧
        Outbids p.maxPriorityFeePerGas tracker.escalationConfig.feeBumpBps
          ((tracker.marketFees baseFee priorityFee).map Prod.snd)
          tracker.escalationConfig.networkPremiumBps := by
  obtain ⟨_, hfirst, hsecond⟩ := escalatedFees_raised hp hfees
  obtain ⟨hmax, hprio⟩ := hfits.1 p hp
  rw [hfirst, hsecond, acceptable_raised_iff hmax hbps, acceptable_raised_iff hprio hbps]
  all_goals
    intro m hm
    obtain ⟨pair, hpair, rfl⟩ := Option.map_eq_some_iff.mp hm
  · exact (hfits.market hpair).2.2
  · exact (hfits.market hpair).2.1

/-- A transaction without a tip. -/
def tiplessTracker : TransactionTracker where
  signerAddress := 0xB0
  pending := some
    { txHash := 0xAA
      nonce := 3
      escalationCount := 0
      submittedAt := 0
      maxFeePerGas := 20000000000
      maxPriorityFeePerGas := 0 }
  currentNonce := 3
  escalationConfig := EscalationConfig.default

/-- On a network without tips its replacement offers no tip either. -/
theorem tipless_not_acceptable :
    ∃ (p : PendingTransaction) (fees : U128 × U128), tiplessTracker.pending = some p ∧
      tiplessTracker.escalatedFees (.ok 15000000000) (.ok 0) = some fees ∧
      1000 ≤ tiplessTracker.escalationConfig.feeBumpBps.toNat ∧
      tiplessTracker.EscalationFits (.ok 15000000000) (.ok 0) ∧
      ¬ (Acceptable p.maxFeePerGas fees.1 ∧ Acceptable p.maxPriorityFeePerGas fees.2) := by
  refine ⟨_, (22500000000, 0), rfl, by decide, by decide, ⟨?_, ?_⟩, ?_⟩
  · intro p hp
    obtain rfl := Option.some.inj hp
    exact ⟨by decide, by decide⟩
  · intro _ b q hb hq
    obtain rfl := Except.ok.inj hb
    obtain rfl := Except.ok.inj hq
    exact ⟨by decide, by decide, by decide⟩
  · rintro ⟨_, htip, _⟩
    exact absurd htip (by decide)

/-- With a market tip of one gwei the replacement is acceptable. -/
theorem acceptable_iff_gwei :
    ∃ (p : PendingTransaction) (fees : U128 × U128), tiplessTracker.pending = some p ∧
      (Acceptable p.maxFeePerGas fees.1 ∧ Acceptable p.maxPriorityFeePerGas fees.2 ↔
        Outbids p.maxFeePerGas tiplessTracker.escalationConfig.feeBumpBps
            ((tiplessTracker.marketFees (.ok 15000000000) (.ok 1000000000)).map Prod.fst)
            tiplessTracker.escalationConfig.networkPremiumBps ∧
          Outbids p.maxPriorityFeePerGas tiplessTracker.escalationConfig.feeBumpBps
            ((tiplessTracker.marketFees (.ok 15000000000) (.ok 1000000000)).map Prod.snd)
            tiplessTracker.escalationConfig.networkPremiumBps) := by
  refine ⟨_, (22500000000, 1150000000), rfl, ?_⟩
  refine acceptable_iff rfl (by decide) (by decide) ⟨?_, ?_⟩
  · intro p hp
    obtain rfl := Option.some.inj hp
    exact ⟨by decide, by decide⟩
  · intro _ b q hb hq
    obtain rfl := Except.ok.inj hb
    obtain rfl := Except.ok.inj hq
    exact ⟨by decide, by decide, by decide⟩

end TransactionTracker

end Bunzo
