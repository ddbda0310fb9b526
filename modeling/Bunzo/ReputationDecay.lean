import Bunzo.MachineWords
import Bunzo.Reputation

/-!
# Decay of the reputation counters

Once an hour both counters of every address are scaled by 23/24, each rounded
down on its own, and addresses without anything left are dropped.  The share of
included operations can move either way.

* `entryOf_decays` — idle hours act on each address alone.
* `noWorse_decay_iff` — one hour keeps a standing exactly if its rounding is
  covered.
* `idle_noWorse_iff` — the same for any number of hours.
-/

namespace Bunzo

open MachineWords

/-! ## Scaling with rounding -/

section Scaling

variable {p q : Nat}

/-- What is left after scaling, in units of the divisor: the product less a
remainder. -/
theorem cast_scaled (n : Nat) :
    (q : ℚ) * ((p * n / q : Nat) : ℚ) = p * n - ((p * n % q : Nat) : ℚ) := by
  have hdiv : q * (p * n / q) + p * n % q = p * n := Nat.div_add_mod _ _
  have hcast : (q : ℚ) * ((p * n / q : Nat) : ℚ) + ((p * n % q : Nat) : ℚ) = p * n := by
    exact_mod_cast hdiv
  exact eq_sub_of_add_eq hcast

/-- **A share after scaling.**  Of two numbers scaled alike, one is still the share
`t` of the other exactly if its surplus pays for the two roundings. -/
theorem share_scaled_iff (hq : 0 < q) (t : ℚ) (whole part : Nat) :
    t * ((p * whole / q : Nat) : ℚ) ≤ ((p * part / q : Nat) : ℚ) ↔
      ((p * part % q : Nat) : ℚ) - t * ((p * whole % q : Nat) : ℚ) ≤ p * (part - t * whole) := by
  have hpos : (0 : ℚ) < q := Nat.cast_pos.mpr hq
  have hwhole := cast_scaled (p := p) (q := q) whole
  have hpart := cast_scaled (p := p) (q := q) part
  calc t * ((p * whole / q : Nat) : ℚ) ≤ ((p * part / q : Nat) : ℚ)
      ↔ q * (t * ((p * whole / q : Nat) : ℚ)) ≤ q * ((p * part / q : Nat) : ℚ) :=
        (mul_le_mul_iff_right₀ hpos).symm
    _ ↔ t * (p * whole - ((p * whole % q : Nat) : ℚ)) ≤ p * part - ((p * part % q : Nat) : ℚ) := by
        rw [mul_left_comm, hwhole, hpart]
    _ ↔ _ := by
        constructor <;> intro h <;> linarith

end Scaling

/-! ## One hour -/

/-- Both counters, scaled down. -/
def ReputationEntry.decay (entry : ReputationEntry) : ReputationEntry where
  opsSeen := entry.opsSeen * 23 / 24
  opsIncluded := entry.opsIncluded * 23 / 24

/-- An hour without activity: addresses with two empty counters are dropped. -/
def ReputationManager.hourlyDecay (manager : ReputationManager) : ReputationManager :=
  { manager with
    entries := (manager.entries.map fun _ entry => entry.decay).filter fun _ entry =>
      0 < entry.opsSeen || 0 < entry.opsIncluded }

/-- Scaling both counters stays in the word. -/
structure ReputationEntry.Fits (entry : ReputationEntry) : Prop where
  opsSeen : 23 * entry.opsSeen.toNat < 2 ^ 64
  opsIncluded : 23 * entry.opsIncluded.toNat < 2 ^ 64

/-- From good standing to banned. -/
def ReputationStatus.severity : ReputationStatus → Nat
  | .ok => 0
  | .throttled => 1
  | .banned => 2

/-- A standing at least as good. -/
def ReputationStatus.NoWorse (new old : ReputationStatus) : Prop := new.severity ≤ old.severity

/-- No worse than good is good. -/
theorem ReputationStatus.noWorse_ok {status : ReputationStatus} :
    status.NoWorse .ok ↔ status = .ok := by
  cases status <;> simp [NoWorse, severity]

/-- No worse than throttled is anything but banned. -/
theorem ReputationStatus.noWorse_throttled {status : ReputationStatus} :
    status.NoWorse .throttled ↔ status ≠ .banned := by
  cases status <;> simp [NoWorse, severity]

/-- Nothing is worse than banned. -/
theorem ReputationStatus.noWorse_banned (status : ReputationStatus) : status.NoWorse .banned := by
  cases status <;> simp [NoWorse, severity]

/-- The share of inclusions that a standing asks for. -/
def ReputationConfig.requiredShare (config : ReputationConfig) : ReputationStatus → Option ℚ
  | .ok => some config.throttleThreshold
  | .throttled => some config.banThreshold
  | .banned => none

/-- What an hour's rounding costs is covered: the address ends below the floor of
activity, or its surplus of inclusions is large enough. -/
def ReputationEntry.RoundingCovered (entry : ReputationEntry) (config : ReputationConfig)
    (status : ReputationStatus) : Prop :=
  23 * entry.opsSeen.toNat < 24 * (config.minOpsForThrottle.toNat + 1) ∨
    ∀ t, config.requiredShare status = some t →
      ((23 * entry.opsIncluded.toNat % 24 : Nat) : ℚ) -
          t * ((23 * entry.opsSeen.toNat % 24 : Nat) : ℚ) ≤
        23 * (entry.opsIncluded.toNat - t * entry.opsSeen.toNat)

namespace ReputationEntry

variable {entry : ReputationEntry} {config : ReputationConfig} {status : ReputationStatus}

/-- A counter that fits is scaled as a number. -/
theorem toNat_scaled {n : U64} (h : 23 * n.toNat < 2 ^ 64) :
    (n * 23 / 24).toNat = 23 * n.toNat / 24 := by
  have h23 : (23 : U64).toNat = 23 := rfl
  have hmul : (n * 23).toNat = 23 * n.toNat := by
    rw [toNat_mul_of_lt (by rw [h23, Nat.mul_comm]; exact h), h23, Nat.mul_comm]
  rw [BitVec.toNat_udiv, hmul]
  rfl

/-- Counters that fit do so an hour later. -/
theorem Fits.decay (h : entry.Fits) : entry.decay.Fits := by
  refine ⟨?_, ?_⟩
  · have hlt := h.opsSeen
    rw [ReputationEntry.decay, toNat_scaled hlt]
    omega
  · have hlt := h.opsIncluded
    rw [ReputationEntry.decay, toNat_scaled hlt]
    omega

/-- And any number of hours later. -/
theorem Fits.decays (h : entry.Fits) (n : Nat) : (ReputationEntry.decay^[n] entry).Fits := by
  induction n with
  | zero => exact h
  | succ n ih =>
      rw [Function.iterate_succ_apply']
      exact ih.decay

/-- An entry that is not retained has no counts left. -/
theorem eq_new_of_dropped
    (h : ¬ (decide (0 < entry.opsSeen) || decide (0 < entry.opsIncluded)) = true) :
    entry = .new := by
  simp only [Bool.or_eq_true, decide_eq_true_eq, not_or, BitVec.not_lt] at h
  have hseen : entry.opsSeen = 0 := BitVec.le_zero_iff.mp h.1
  have hincluded : entry.opsIncluded = 0 := BitVec.le_zero_iff.mp h.2
  cases entry
  simp_all [ReputationEntry.new]

/-- Little activity is in good standing. -/
theorem status_of_little (h : entry.opsSeen ≤ config.minOpsForThrottle) :
    entry.status config = .ok := by
  have hnot : ¬ config.minOpsForThrottle < entry.opsSeen := BitVec.not_lt.mpr h
  unfold ReputationEntry.status
  rw [if_neg hnot, ite_self]

/-- The standing of an active address, with the shares multiplied out. -/
theorem status_of_active (h : config.minOpsForThrottle < entry.opsSeen) :
    entry.status config =
      if (entry.opsIncluded.toNat : ℚ) < config.banThreshold * entry.opsSeen.toNat then .banned
      else if (entry.opsIncluded.toNat : ℚ) < config.throttleThreshold * entry.opsSeen.toNat then
        .throttled
      else .ok := by
  have hpos : 0 < entry.opsSeen.toNat := Nat.lt_of_le_of_lt (Nat.zero_le _) h
  have hseen : entry.opsSeen ≠ 0 := by
    intro hzero
    rw [hzero] at hpos
    exact absurd hpos (by decide)
  have hcast : (0 : ℚ) < entry.opsSeen.toNat := Nat.cast_pos.mpr hpos
  unfold ReputationEntry.status
  simp only [if_neg hseen, if_pos h, div_lt_iff₀ hcast]

/-- **A standing in terms of the counters**: little activity, or the share that the
standing asks for. -/
theorem status_noWorse_iff (hle : config.banThreshold ≤ config.throttleThreshold) :
    (entry.status config).NoWorse status ↔
      entry.opsSeen ≤ config.minOpsForThrottle ∨
        ∀ t, config.requiredShare status = some t →
          t * entry.opsSeen.toNat ≤ entry.opsIncluded.toNat := by
  by_cases hlittle : entry.opsSeen ≤ config.minOpsForThrottle
  · rw [status_of_little hlittle]
    exact iff_of_true (Nat.zero_le _) (Or.inl hlittle)
  · have hshares : config.banThreshold * entry.opsSeen.toNat ≤
        config.throttleThreshold * (entry.opsSeen.toNat : ℚ) :=
      mul_le_mul_of_nonneg_right hle (Nat.cast_nonneg _)
    rw [status_of_active (BitVec.not_le.mp hlittle), or_iff_right hlittle]
    cases status with
    | ok =>
        simp only [ReputationConfig.requiredShare, Option.some.injEq, forall_eq',
          ReputationStatus.noWorse_ok]
        split_ifs with hban hthrottle
        · exact iff_of_false (by decide) (by linarith)
        · exact iff_of_false (by decide) (by linarith)
        · exact iff_of_true rfl (not_lt.mp hthrottle)
    | throttled =>
        simp only [ReputationConfig.requiredShare, Option.some.injEq, forall_eq',
          ReputationStatus.noWorse_throttled]
        split_ifs with hban hthrottle
        · exact iff_of_false (fun h => h rfl) (not_le.mpr hban)
        · exact iff_of_true (by decide) (not_lt.mp hban)
        · exact iff_of_true (by decide) (not_lt.mp hban)
    | banned => exact iff_of_true (ReputationStatus.noWorse_banned _) (fun t ht => by cases ht)

/-- **One hour**: a standing is kept exactly if the rounding is covered. -/
theorem noWorse_decay_iff (hle : config.banThreshold ≤ config.throttleThreshold)
    (hfits : entry.Fits) :
    (entry.decay.status config).NoWorse status ↔ entry.RoundingCovered config status := by
  have hseen : entry.decay.opsSeen.toNat = 23 * entry.opsSeen.toNat / 24 :=
    toNat_scaled hfits.opsSeen
  have hincluded : entry.decay.opsIncluded.toNat = 23 * entry.opsIncluded.toNat / 24 :=
    toNat_scaled hfits.opsIncluded
  rw [status_noWorse_iff hle, BitVec.le_def, hseen, hincluded]
  refine or_congr ?_ (forall_congr' fun t => imp_congr_right fun _ => ?_)
  · rw [Nat.div_le_iff_le_mul_add_pred (by decide)]
    omega
  · exact share_scaled_iff (by decide) t _ _

/-- One inclusion more than the required share covers an hour. -/
theorem roundingCovered_of_spare (hpositive : ∀ t, config.requiredShare status = some t → 0 ≤ t)
    (hspare : ∀ t, config.requiredShare status = some t →
      t * entry.opsSeen.toNat + 1 ≤ entry.opsIncluded.toNat) :
    entry.RoundingCovered config status := by
  refine Or.inr fun t ht => ?_
  have hlost : ((23 * entry.opsIncluded.toNat % 24 : Nat) : ℚ) ≤ 23 := by
    exact_mod_cast Nat.le_of_lt_succ (Nat.mod_lt _ (by decide))
  have hgained : 0 ≤ t * ((23 * entry.opsSeen.toNat % 24 : Nat) : ℚ) :=
    mul_nonneg (hpositive t ht) (Nat.cast_nonneg _)
  have hsurplus := hspare t ht
  linarith

end ReputationEntry

/-! ## Any number of hours -/

namespace ReputationManager

variable {manager : ReputationManager} {address : Address}

/-- Decay leaves the thresholds. -/
@[simp] theorem config_hourlyDecay : manager.hourlyDecay.config = manager.config := rfl

/-- An address that is dropped reads as one that was never recorded. -/
theorem entryOf_hourlyDecay :
    manager.hourlyDecay.entryOf address = (manager.entryOf address).decay := by
  unfold entryOf hourlyDecay
  simp only [Std.ExtTreeMap.get?_eq_getElem?, Std.ExtTreeMap.getElem?_filter',
    Std.ExtTreeMap.getElem?_map]
  cases manager.entries[address]? with
  | none => rfl
  | some entry =>
      simp only [Option.map_some, Option.filter_some]
      split
      · rfl
      · next hdropped => exact (ReputationEntry.eq_new_of_dropped hdropped).symm

/-- **Idle hours** act on each address alone. -/
theorem entryOf_decays (n : Nat) :
    (hourlyDecay^[n] manager).entryOf address =
      ReputationEntry.decay^[n] (manager.entryOf address) := by
  induction n with
  | zero => rfl
  | succ n ih =>
      rw [Function.iterate_succ_apply', Function.iterate_succ_apply', entryOf_hourlyDecay, ih]

/-- However often it happens. -/
theorem config_decays (n : Nat) : (hourlyDecay^[n] manager).config = manager.config := by
  induction n with
  | zero => rfl
  | succ n ih => rw [Function.iterate_succ_apply', config_hourlyDecay, ih]

/-- **A run of idle hours.**  Each of them leaves an address in a standing no worse
than the one it had at the start, exactly if each of them covers its rounding. -/
theorem idle_noWorse_iff (n : Nat)
    (hle : manager.config.banThreshold ≤ manager.config.throttleThreshold)
    (hfits : (manager.entryOf address).Fits) :
    (∀ m ≤ n, ((hourlyDecay^[m] manager).status address).NoWorse (manager.status address)) ↔
      ∀ m < n, ((hourlyDecay^[m] manager).entryOf address).RoundingCovered manager.config
        (manager.status address) := by
  have hstep : ∀ m, ((hourlyDecay^[m + 1] manager).status address).NoWorse
      (manager.status address) ↔
      ((hourlyDecay^[m] manager).entryOf address).RoundingCovered manager.config
        (manager.status address) := by
    intro m
    rw [status_eq, config_decays, Function.iterate_succ_apply', entryOf_hourlyDecay]
    apply ReputationEntry.noWorse_decay_iff hle
    rw [entryOf_decays]
    exact hfits.decays m
  constructor
  · intro hstanding m hm
    exact (hstep m).mp (hstanding (m + 1) hm)
  · intro hcovered m hm
    cases m with
    | zero => exact Nat.le_refl _
    | succ m => exact (hstep m).mpr (hcovered m hm)

/-- An address with forty-eight operations, half of them included. -/
def halfIncluded : ReputationManager where
  entries := (∅ : Std.ExtTreeMap Address ReputationEntry).insert 7
    { opsSeen := 48, opsIncluded := 24 }
  config := .default

/-- This address is in good standing. -/
theorem halfIncluded_status : halfIncluded.status 7 = .ok := by decide +kernel

/-- Two hours do not harm it. -/
theorem idle_noWorse_iff_half :
    ((hourlyDecay^[2] halfIncluded).status 7).NoWorse (halfIncluded.status 7) := by
  refine (idle_noWorse_iff 2 (by decide +kernel) ⟨by decide +kernel, by decide +kernel⟩).mpr ?_ 2
    (Nat.le_refl 2)
  rw [halfIncluded_status]
  intro m hm
  refine ReputationEntry.roundingCovered_of_spare ?_ ?_
  · rintro t ⟨⟩
    decide +kernel
  · rintro t ⟨⟩
    interval_cases m <;> decide +kernel

/-! ## Twenty operations, two of them included -/

/-- An address with twenty operations of which two were included. -/
def twentySeen : ReputationManager where
  entries := (∅ : Std.ExtTreeMap Address ReputationEntry).insert 7
    { opsSeen := 20, opsIncluded := 2 }
  config := .default

/-- An hour later it has nineteen, of which one was included, and is throttled. -/
theorem idle_throttles :
    twentySeen.config.banThreshold ≤ twentySeen.config.throttleThreshold ∧
      (twentySeen.opsIncluded 7 ≤ twentySeen.opsSeen 7 ∧ (twentySeen.entryOf 7).Fits) ∧
      twentySeen.status 7 = .ok ∧ twentySeen.hourlyDecay.status 7 = .throttled ∧
      ¬ (twentySeen.hourlyDecay.status 7).NoWorse (twentySeen.status 7) := by
  have hbefore : twentySeen.status 7 = .ok := by decide +kernel
  have hafter : twentySeen.hourlyDecay.status 7 = .throttled := by decide +kernel
  refine ⟨by decide +kernel, ⟨by decide +kernel, by decide +kernel, by decide +kernel⟩,
    hbefore, hafter, ?_⟩
  rw [hbefore, hafter, ReputationStatus.noWorse_ok]
  decide

end ReputationManager

end Bunzo
