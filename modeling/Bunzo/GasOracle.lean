import Bunzo.ChainTypes
import Bunzo.ReachableStates
import Bunzo.RecentReadings

/-!
# The gas oracle

`ProviderGasOracle` reads base fee and priority fee once a block and keeps the
latest readings.  Every call refreshes the cache first, if the chain has a block
newer than the cached one and the provider answers all three queries.

* `refreshIfNeeded_cases` — a refresh fails and changes nothing, is not needed,
  or records one reading.
* `oracle_history` — what the cache holds after any calls.
* `currentFees_baseFee_iff` — when the two entry points agree on the base fee.
-/

namespace Bunzo

open ReachableStates RecentReadings

/-- One reading of the fees. -/
structure BlockFees where
  blockNumber : U64
  baseFee : U128
  priorityFee : U128
deriving DecidableEq

structure ProviderGasOracle where
  lastBaseFee : U64
  lastBlock : U64
  feeHistory : List BlockFees
  historySize : Nat
deriving DecidableEq

/-- What the provider answers during one call to the oracle.  The base fee is
asked for a second time by `baseFee`, if none is cached. -/
structure OracleAnswers where
  blockNumber : Except ProviderError U64
  baseFee : Except ProviderError U128
  priorityFee : Except ProviderError U128
  baseFeeAgain : Except ProviderError U128

namespace ProviderGasOracle

def new : ProviderGasOracle where
  lastBaseFee := 0
  lastBlock := 0
  feeHistory := []
  historySize := 5

/-- Read the fees of a new block into the cache. -/
def refreshIfNeeded (o : ProviderGasOracle) (a : OracleAnswers) :
    Except ProviderError Unit × ProviderGasOracle :=
  match a.blockNumber with
  | .error e => (.error e, o)
  | .ok currentBlock =>
      if currentBlock ≤ o.lastBlock then (.ok (), o)
      else
        match a.baseFee with
        | .error e => (.error e, o)
        | .ok baseFee =>
            match a.priorityFee with
            | .error e => (.error e, o)
            | .ok priorityFee =>
                (.ok (),
                  { o with
                    lastBaseFee := baseFee.setWidth 64
                    lastBlock := currentBlock
                    feeHistory := popFrontTo o.historySize (o.feeHistory ++
                      [{ blockNumber := currentBlock
                         baseFee := baseFee
                         priorityFee := priorityFee }]) })

def medianPriorityFee (o : ProviderGasOracle) : Option U128 :=
  upperMedian (o.feeHistory.map BlockFees.priorityFee)

/-- The cached base fee and the median tip; without a reading a tenth of the base
fee is the tip. -/
def currentFees (o : ProviderGasOracle) (a : OracleAnswers) :
    Except ProviderError GasFees × ProviderGasOracle :=
  match o.refreshIfNeeded a with
  | (.error e, o) => (.error e, o)
  | (.ok _, o) =>
      let baseFee : U128 := o.lastBaseFee.setWidth 128
      let priorityFee := o.medianPriorityFee.getD (baseFee / 10)
      (.ok { maxFeePerGas := baseFee + priorityFee, maxPriorityFeePerGas := priorityFee }, o)

/-- The cached base fee; zero stands for none, and the provider is asked. -/
def baseFee (o : ProviderGasOracle) (a : OracleAnswers) :
    Except ProviderError U128 × ProviderGasOracle :=
  match o.refreshIfNeeded a with
  | (.error e, o) => (.error e, o)
  | (.ok _, o) =>
      if 0 < o.lastBaseFee then (.ok (o.lastBaseFee.setWidth 128), o) else (a.baseFeeAgain, o)

/-- The reading that a refresh makes: there is a new block, and every query is
answered. -/
def reading (o : ProviderGasOracle) (a : OracleAnswers) : Option BlockFees := do
  let blockNumber ← a.blockNumber.toOption
  let baseFee ← a.baseFee.toOption
  let priorityFee ← a.priorityFee.toOption
  if o.lastBlock < blockNumber then
    return { blockNumber := blockNumber, baseFee := baseFee, priorityFee := priorityFee }
  else
    none

/-- The oracle after a reading. -/
def record (o : ProviderGasOracle) (r : BlockFees) : ProviderGasOracle :=
  { o with
    lastBaseFee := r.baseFee.setWidth 64
    lastBlock := r.blockNumber
    feeHistory := popFrontTo o.historySize (o.feeHistory ++ [r]) }

variable (o : ProviderGasOracle) (a : OracleAnswers)

/-- **What a refresh does.**  It fails and leaves the cache, it is not needed, or it
records the reading. -/
theorem refreshIfNeeded_cases :
    (∃ e, o.refreshIfNeeded a = (.error e, o) ∧ o.reading a = none) ∨
    (∃ n, a.blockNumber = .ok n ∧ n ≤ o.lastBlock ∧ o.refreshIfNeeded a = (.ok (), o) ∧
      o.reading a = none) ∨
    (∃ r, o.reading a = some r ∧ a.blockNumber = .ok r.blockNumber ∧
      o.lastBlock < r.blockNumber ∧ a.baseFee = .ok r.baseFee ∧
      o.refreshIfNeeded a = (.ok (), o.record r)) := by
  unfold refreshIfNeeded reading
  rcases hblock : a.blockNumber with e | n
  · exact Or.inl ⟨e, rfl, rfl⟩
  · by_cases hold : n ≤ o.lastBlock
    · right
      left
      refine ⟨n, rfl, hold, by simp only [hold, if_true], ?_⟩
      have hnot : ¬ o.lastBlock < n := BitVec.not_lt.mpr hold
      rcases a.baseFee with e | b
      · rfl
      · rcases a.priorityFee with e | p
        · rfl
        · exact if_neg hnot
    · simp only [hold, if_false]
      rcases hbase : a.baseFee with e | b
      · exact Or.inl ⟨e, rfl, rfl⟩
      · rcases hprio : a.priorityFee with e | p
        · exact Or.inl ⟨e, rfl, rfl⟩
        · have hnew : o.lastBlock < n := BitVec.not_le.mp hold
          refine Or.inr (Or.inr ⟨⟨n, b, p⟩, ?_, rfl, hnew, rfl, rfl⟩)
          exact if_pos hnew

/-- A refresh that fails leaves the cache. -/
theorem refreshIfNeeded_error {e : ProviderError} (h : (o.refreshIfNeeded a).1 = .error e) :
    (o.refreshIfNeeded a).2 = o := by
  rcases o.refreshIfNeeded_cases a with ⟨_, hcase, _⟩ | ⟨_, _, _, hcase, _⟩ |
    ⟨_, _, _, _, _, hcase⟩
  · rw [hcase]
  · rw [hcase]
  · rw [hcase] at h
    cases h

/-- A reading is made at a new block, and has the base fee of the first query. -/
theorem reading_new {r : BlockFees} (hr : o.reading a = some r) :
    o.lastBlock < r.blockNumber ∧ a.baseFee = .ok r.baseFee := by
  rcases o.refreshIfNeeded_cases a with ⟨_, _, hnone⟩ | ⟨_, _, _, _, hnone⟩ |
    ⟨r', hr', _, hnew, hfee, _⟩
  · rw [hr] at hnone
    cases hnone
  · rw [hr] at hnone
    cases hnone
  · obtain rfl := Option.some.inj (hr.symm.trans hr')
    exact ⟨hnew, hfee⟩

/-- Either call leaves what its refresh leaves. -/
theorem currentFees_oracle : (o.currentFees a).2 = (o.refreshIfNeeded a).2 := by
  unfold currentFees
  rcases o.refreshIfNeeded a with ⟨_ | _, _⟩ <;> rfl

theorem baseFee_oracle : (o.baseFee a).2 = (o.refreshIfNeeded a).2 := by
  unfold baseFee
  rcases o.refreshIfNeeded a with ⟨_ | _, o'⟩
  · rfl
  · dsimp only
    split <;> rfl

/-- What a refresh leaves is told by its reading. -/
theorem refreshIfNeeded_oracle :
    (o.refreshIfNeeded a).2 = (o.reading a).elim o (fun r => o.record r) := by
  rcases o.refreshIfNeeded_cases a with ⟨e, h, hr⟩ | ⟨n, _, _, h, hr⟩ | ⟨r, hr, _, _, _, h⟩
  all_goals
    rw [h, hr]
    rfl

variable {o a} in
/-- The fees that a call returns are those of the cache it leaves. -/
theorem currentFees_ok {fees : GasFees} (h : (o.currentFees a).1 = .ok fees) :
    (o.refreshIfNeeded a).1 = .ok () ∧
    fees.maxPriorityFeePerGas = (o.currentFees a).2.medianPriorityFee.getD
      ((o.currentFees a).2.lastBaseFee.setWidth 128 / 10) ∧
    fees.maxFeePerGas =
      (o.currentFees a).2.lastBaseFee.setWidth 128 + fees.maxPriorityFeePerGas := by
  unfold currentFees at h ⊢
  rcases hrefresh : o.refreshIfNeeded a with ⟨e | done, o'⟩
  · rw [hrefresh] at h
    cases h
  · rw [hrefresh] at h
    obtain rfl := Except.ok.inj h
    exact ⟨rfl, rfl, rfl⟩

variable {o a} in
/-- The tip of a call splits the readings that it leaves. -/
theorem currentFees_splits {fees : GasFees} (h : (o.currentFees a).1 = .ok fees)
    (hsome : (o.currentFees a).2.feeHistory ≠ []) :
    Splits fees.maxPriorityFeePerGas
      ((o.currentFees a).2.feeHistory.map BlockFees.priorityFee) := by
  obtain ⟨_, htip, _⟩ := currentFees_ok h
  have hmedian := upperMedian_isSome (l := (o.currentFees a).2.feeHistory.map
    BlockFees.priorityFee) (by simpa using hsome)
  obtain ⟨m, hm⟩ := Option.isSome_iff_exists.mp hmedian
  have htip : fees.maxPriorityFeePerGas = m := by
    rw [htip, medianPriorityFee, hm, Option.getD_some]
  exact htip ▸ upperMedian_splits hm

end ProviderGasOracle

/-! ## Runs of the oracle -/

inductive OracleCall where
  | currentFees (a : OracleAnswers)
  | baseFee (a : OracleAnswers)

def OracleCall.answers : OracleCall → OracleAnswers
  | .currentFees a => a
  | .baseFee a => a

/-- An oracle, and every reading it ever made. -/
structure OracleRun where
  oracle : ProviderGasOracle
  readings : List BlockFees

namespace OracleRun

def start : OracleRun where
  oracle := ProviderGasOracle.new
  readings := []

def next (s : OracleRun) (call : OracleCall) : OracleRun where
  oracle :=
    match call with
    | .currentFees a => (s.oracle.currentFees a).2
    | .baseFee a => (s.oracle.baseFee a).2
  readings := s.readings ++ (s.oracle.reading call.answers).toList

theorem next_oracle (s : OracleRun) (call : OracleCall) :
    (s.next call).oracle =
      (s.oracle.reading call.answers).elim s.oracle (fun r => s.oracle.record r) := by
  cases call with
  | currentFees a => exact (s.oracle.currentFees_oracle a).trans (s.oracle.refreshIfNeeded_oracle a)
  | baseFee a => exact (s.oracle.baseFee_oracle a).trans (s.oracle.refreshIfNeeded_oracle a)

theorem next_eq (s : OracleRun) (call : OracleCall) :
    s.next call =
      { oracle := (s.oracle.reading call.answers).elim s.oracle (fun r => s.oracle.record r)
        readings := s.readings ++ (s.oracle.reading call.answers).toList } := by
  rw [← next_oracle]
  rfl

/-- The cache holds the latest of the readings, which were made at ever higher
blocks. -/
structure Recorded (s : OracleRun) : Prop where
  history : s.oracle.feeHistory = s.readings.rtake s.oracle.historySize
  size_pos : 0 < s.oracle.historySize
  increasing : s.readings.Pairwise (fun a b => a.blockNumber < b.blockNumber)
  below : ∀ r ∈ s.readings, r.blockNumber ≤ s.oracle.lastBlock
  newest : ∀ r, s.readings.getLast? = some r →
    s.oracle.lastBlock = r.blockNumber ∧ s.oracle.lastBaseFee.setWidth 128 = r.baseFee

namespace Recorded

variable {s : OracleRun}

theorem start : Recorded OracleRun.start where
  history := (List.rtake_nil _).symm
  size_pos := by decide
  increasing := List.Pairwise.nil
  below := by simp [OracleRun.start]
  newest := by simp [OracleRun.start]

/-- A reading at a new block is remembered, and the oldest one may go. -/
theorem push (h : s.Recorded) {r : BlockFees} (hnew : s.oracle.lastBlock < r.blockNumber)
    (hsmall : r.baseFee.toNat < 2 ^ 64) :
    Recorded { oracle := s.oracle.record r, readings := s.readings ++ [r] } where
  history := by
    change popFrontTo s.oracle.historySize (s.oracle.feeHistory ++ [r]) = _
    rw [h.history, popFrontTo_push]
    rfl
  size_pos := h.size_pos
  increasing := by
    refine List.pairwise_append.mpr ⟨h.increasing, List.pairwise_singleton _ _, ?_⟩
    intro a ha b hb
    obtain rfl := List.mem_singleton.mp hb
    exact Nat.lt_of_le_of_lt (h.below a ha) hnew
  below := by
    intro a ha
    rcases List.mem_append.mp ha with hold | hlast
    · exact Nat.le_of_lt (Nat.lt_of_le_of_lt (h.below a hold) hnew)
    · obtain rfl := List.mem_singleton.mp hlast
      exact BitVec.le_refl _
  newest := by
    intro a ha
    rw [List.getLast?_concat] at ha
    obtain rfl := Option.some.inj ha
    refine ⟨rfl, ?_⟩
    change (r.baseFee.setWidth 64).setWidth 128 = r.baseFee
    apply BitVec.eq_of_toNat_eq
    rw [BitVec.toNat_setWidth, BitVec.toNat_setWidth, Nat.mod_eq_of_lt hsmall,
      Nat.mod_eq_of_lt r.baseFee.isLt]

theorem next (h : s.Recorded) {call : OracleCall}
    (hbase : ∀ b, call.answers.baseFee = .ok b → b.toNat < 2 ^ 64) : (s.next call).Recorded := by
  have hnext := s.next_eq call
  cases hr : s.oracle.reading call.answers with
  | none =>
      rw [hr] at hnext
      rw [show s.next call = s by simpa using hnext]
      exact h
  | some r =>
      rw [hr] at hnext
      obtain ⟨hnew, hfee⟩ := s.oracle.reading_new call.answers hr
      rw [hnext]
      exact h.push hnew (hbase r.baseFee hfee)

end Recorded

end OracleRun

def oracleMachine : Machine OracleRun OracleCall where
  init s := s = OracleRun.start
  enabled _ _ := True
  next := OracleRun.next

/-- The base fee that the provider answers fits the cache. -/
def OracleCall.FitsCache (call : OracleCall) : Prop :=
  ∀ b, call.answers.baseFee = .ok b → b.toNat < 2 ^ 64

theorem recorded_run {events : List OracleCall} (hbase : ∀ call ∈ events, call.FitsCache) :
    (oracleMachine.run events OracleRun.start).Recorded := by
  have hreach : oracleMachine.ReachableUnder (fun _ call => call.FitsCache)
      (oracleMachine.run events OracleRun.start) :=
    Machine.ReachableUnder.run (.init rfl) (Machine.enabledAlong_of_forall (fun _ _ => trivial))
      (Machine.along_of_mem (fun call hcall _ => hbase call hcall))
  apply hreach.invariant
  · rintro s rfl
    exact OracleRun.Recorded.start
  · intro s call h _ hfits
    exact h.next hfits

/-- **What the oracle remembers.**  After any calls, whatever the provider answered,
the history holds the latest readings in the order of their blocks, the cached
block and base fee are those of the newest one, a refresh that fails changes
nothing, and the tip of a successful call splits the readings in halves. -/
theorem oracle_history (events : List OracleCall) (hbase : ∀ call ∈ events, call.FitsCache) :
    let s := oracleMachine.run events OracleRun.start
    s.oracle.feeHistory.length ≤ s.oracle.historySize ∧
    s.oracle.feeHistory.Pairwise (fun a b => a.blockNumber < b.blockNumber) ∧
    s.oracle.feeHistory = s.readings.rtake s.oracle.historySize ∧
    (∀ newest, s.oracle.feeHistory.getLast? = some newest →
      s.oracle.lastBlock = newest.blockNumber ∧
        s.oracle.lastBaseFee.setWidth 128 = newest.baseFee) ∧
    ∀ a : OracleAnswers,
      (∀ e, (s.oracle.refreshIfNeeded a).1 = .error e →
        (s.oracle.refreshIfNeeded a).2 = s.oracle) ∧
      (∀ fees, (s.oracle.currentFees a).1 = .ok fees →
        (s.oracle.currentFees a).2.feeHistory ≠ [] →
        Splits fees.maxPriorityFeePerGas
          ((s.oracle.currentFees a).2.feeHistory.map BlockFees.priorityFee)) := by
  intro s
  have h : s.Recorded := recorded_run hbase
  refine ⟨?_, ?_, h.history, ?_, ?_⟩
  · rw [h.history]
    exact length_rtake_le _ _
  · rw [h.history]
    exact h.increasing.sublist (rtake_sublist _ _)
  · rw [h.history, getLast?_rtake h.size_pos]
    exact h.newest
  · intro a
    exact ⟨fun e he => s.oracle.refreshIfNeeded_error a he,
      fun fees hfees hsome => ProviderGasOracle.currentFees_splits hfees hsome⟩

/-- Six blocks with a rising tip, and a query that fails. -/
theorem oracle_history_seven :
    let answers (n : U64) : OracleAnswers :=
      { blockNumber := .ok n
        baseFee := .ok 7
        priorityFee := .ok (n.setWidth 128)
        baseFeeAgain := .ok 7 }
    let events : List OracleCall :=
      [.currentFees (answers 1), .baseFee (answers 2), .currentFees (answers 3),
        .currentFees { answers 4 with priorityFee := .error (.transport []) },
        .baseFee (answers 4), .currentFees (answers 4), .currentFees (answers 9),
        .currentFees (answers 10)]
    let s := oracleMachine.run events OracleRun.start
    (∀ call ∈ events, call.FitsCache) ∧ s.readings.map BlockFees.blockNumber = [1, 2, 3, 4, 9, 10] ∧
      s.oracle.feeHistory = s.readings.rtake 5 := by
  intro answers events s
  have hbase : ∀ call ∈ events, call.FitsCache := by
    intro call hcall b hb
    have hseven : b = 7 := by
      simp only [events, List.mem_cons, List.not_mem_nil, or_false] at hcall
      rcases hcall with rfl | rfl | rfl | rfl | rfl | rfl | rfl | rfl
      all_goals exact (Except.ok.inj hb).symm
    rw [hseven]
    decide
  exact ⟨hbase, by decide, (oracle_history events hbase).2.2.1⟩

/-! ## Two entry points -/

namespace ProviderGasOracle

variable {o : ProviderGasOracle} {a : OracleAnswers}

/-- At a block that is not new the cache answers, unless the cached base fee is
zero. -/
theorem baseFee_of_old_block {n : U64} (hblock : a.blockNumber = .ok n) (hold : n ≤ o.lastBlock) :
    o.baseFee a =
      (if 0 < o.lastBaseFee then .ok (o.lastBaseFee.setWidth 128) else a.baseFeeAgain, o) := by
  have hrefresh : o.refreshIfNeeded a = (.ok (), o) := by
    unfold refreshIfNeeded
    simp only [hblock, hold, if_true]
  unfold baseFee
  rw [hrefresh]
  dsimp only
  split <;> rfl

/-- The cap is the sum of the base fee and the tip, and so not below the base fee. -/
def CapsAt (fees : GasFees) (base : U128) : Prop :=
  fees.maxFeePerGas.toNat = base.toNat + fees.maxPriorityFeePerGas.toNat ∧
    base ≤ fees.maxFeePerGas

/-- Fees priced at a cached base fee, next to what the provider answers when the
cache has none. -/
theorem capsAt_iff {fees : GasFees} {cached : U64} {base : U128} {again : Except ProviderError U128}
    (hmax : fees.maxFeePerGas = cached.setWidth 128 + fees.maxPriorityFeePerGas)
    (hbase : (if 0 < cached then .ok (cached.setWidth 128) else again) = .ok base)
    (hsum : base.toNat + fees.maxPriorityFeePerGas.toNat < 2 ^ 128) :
    CapsAt fees base ↔ cached ≠ 0 ∨ again = .ok 0 := by
  by_cases hcached : cached = 0
  · subst hcached
    rw [if_neg (by decide)] at hbase
    have hcap : fees.maxFeePerGas = fees.maxPriorityFeePerGas := by
      rw [hmax]
      exact BitVec.zero_add _
    rw [hbase]
    unfold CapsAt
    rw [hcap, BitVec.le_def]
    constructor
    · rintro ⟨hsame, _⟩
      right
      congr 1
      apply BitVec.eq_of_toNat_eq
      change base.toNat = 0
      omega
    · rintro (h | h)
      · exact absurd rfl h
      · obtain rfl := Except.ok.inj h
        exact ⟨(Nat.zero_add _).symm, Nat.zero_le _⟩
  · have hpos : 0 < cached := Nat.pos_of_ne_zero (fun h => hcached (BitVec.eq_of_toNat_eq h))
    rw [if_pos hpos] at hbase
    obtain rfl := Except.ok.inj hbase
    refine iff_of_true ?_ (Or.inl hcached)
    unfold CapsAt
    rw [BitVec.le_def, hmax, MachineWords.toNat_add_of_lt hsum]
    exact ⟨rfl, Nat.le_add_right _ _⟩

/-- **When the two entry points agree.**  For every oracle and a provider that
answers the same both times, the cap of `currentFees` is the base fee of `baseFee`
plus the tip exactly if the block is new, a base fee other than zero is cached, or
the provider's base fee is zero. -/
theorem currentFees_baseFee_iff {fees : GasFees} {base : U128}
    (hfits : ∀ b, a.baseFee = .ok b → b.toNat < 2 ^ 64) (hsteady : a.baseFeeAgain = a.baseFee)
    (hfees : (o.currentFees a).1 = .ok fees)
    (hbase : ((o.currentFees a).2.baseFee a).1 = .ok base)
    (hsum : base.toNat + fees.maxPriorityFeePerGas.toNat < 2 ^ 128) :
    CapsAt fees base ↔
      (∃ n, a.blockNumber = .ok n ∧ o.lastBlock < n) ∨ o.lastBaseFee ≠ 0 ∨ a.baseFee = .ok 0 := by
  obtain ⟨hdone, _, hmax⟩ := currentFees_ok hfees
  rw [currentFees_oracle] at hbase hmax
  rcases o.refreshIfNeeded_cases a with ⟨e, hcase, _⟩ | ⟨n, hblock, hold, hcase, _⟩ |
    ⟨r, _, hblock, hnew, hfee, hcase⟩
  · rw [hcase] at hdone
    cases hdone
  · rw [hcase] at hbase hmax
    rw [baseFee_of_old_block hblock hold, hsteady] at hbase
    rw [capsAt_iff hmax hbase hsum]
    have hnot : ¬ ∃ n, a.blockNumber = .ok n ∧ o.lastBlock < n := by
      rintro ⟨n', hblock', hnew⟩
      obtain rfl := Except.ok.inj (hblock.symm.trans hblock')
      exact absurd hold (BitVec.not_le.mpr hnew)
    simp only [hnot, false_or]
  · rw [hcase] at hbase hmax
    rw [baseFee_of_old_block hblock (BitVec.le_refl _), hsteady] at hbase
    rw [capsAt_iff hmax hbase hsum]
    refine iff_of_true ?_ (Or.inl ⟨r.blockNumber, hblock, hnew⟩)
    by_cases hzero : r.baseFee.setWidth 64 = 0
    · right
      -- a base fee that fits the cache is zero if its cached value is
      have hsmall := hfits r.baseFee hfee
      have hnat := congrArg BitVec.toNat hzero
      rw [BitVec.toNat_setWidth, Nat.mod_eq_of_lt hsmall] at hnat
      rw [hfee]
      exact congrArg Except.ok (BitVec.eq_of_toNat_eq hnat)
    · exact Or.inl hzero

end ProviderGasOracle

/-- A chain that has its first block only, with a base fee of 7. -/
def genesisAnswers : OracleAnswers where
  blockNumber := .ok 0
  baseFee := .ok 7
  priorityFee := .ok 2
  baseFeeAgain := .ok 7

/-- The new oracle prices at a base fee of zero, and answers 7 as the base fee. -/
theorem genesis_not_capped :
    let o := (oracleMachine.run [] OracleRun.start).oracle
    ∃ fees base, (o.currentFees genesisAnswers).1 = .ok fees ∧
      ((o.currentFees genesisAnswers).2.baseFee genesisAnswers).1 = .ok base ∧
      ¬ ProviderGasOracle.CapsAt fees base := by
  refine ⟨{ maxFeePerGas := 0, maxPriorityFeePerGas := 0 }, 7, by decide, by decide, ?_⟩
  unfold ProviderGasOracle.CapsAt
  decide

/-- One block later the two agree. -/
theorem currentFees_baseFee_iff_next :
    let a : OracleAnswers := { genesisAnswers with blockNumber := .ok 1 }
    ProviderGasOracle.CapsAt { maxFeePerGas := 9, maxPriorityFeePerGas := 2 } 7 ↔
      (∃ n, a.blockNumber = .ok n ∧ ProviderGasOracle.new.lastBlock < n) ∨
        ProviderGasOracle.new.lastBaseFee ≠ 0 ∨ a.baseFee = .ok 0 := by
  intro a
  apply ProviderGasOracle.currentFees_baseFee_iff (o := ProviderGasOracle.new) (a := a)
  · intro b hb
    obtain rfl := Except.ok.inj hb
    decide
  · rfl
  · decide
  · decide
  · decide

end Bunzo
