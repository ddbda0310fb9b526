import Bunzo.BundlerTask
import Bunzo.ReachableStates

/-!
# The strategy router

A router stands in front of several submission strategies.  A submission walks
around the ring of strategies, from the primary one on, until a strategy gives
an answer other than its own failure; a strategy that accepts after others have
failed becomes the primary one.

* `ringOrder_eq_rotate` — the walk visits every strategy once.
* `submit_walk` — which strategies a submission tries, and what it returns.
* `router_routes` — the primary strategy is the one that accepted last, so that
  a cancellation reaches the strategy with the transaction.
-/

namespace Bunzo

open ReachableStates

/-- Storage values that a submission relies on, slot by slot for each account. -/
abbrev ExpectedStorage := List (Address × List (B256 × B256))

/-- What a strategy is told beside the transaction. -/
structure SubmissionContext where
  expectedStorage : Option ExpectedStorage
  chainId : U64
deriving DecidableEq

/-- What the router reads of a strategy without asking it to do anything. -/
structure SubmissionStrategy where
  supportsSoftCancel : Bool
deriving DecidableEq

/-- A submission that one strategy was asked for, and its answer. -/
structure SubmitCall where
  index : Nat
  rawTx : Bytes
  ctx : SubmissionContext
  answer : Except SubmitError B256

/-- A cancellation that one strategy was asked for, and its answer. -/
structure CancelCall where
  index : Nat
  txHash : B256
  cancelTx : Option Bytes
  answer : Except SubmitError CancelOutcome

/-- The strategies in their order, and the one that is asked first. -/
structure StrategyRouter where
  strategies : List SubmissionStrategy
  primary : Nat
deriving DecidableEq

/-- What a submission returns, the router that it leaves, and what it asked the
strategies. -/
structure Submitted where
  result : Except SubmitError B256
  router : StrategyRouter
  calls : List SubmitCall

namespace StrategyRouter

/-- The first strategy is asked first. -/
def new (strategies : List SubmissionStrategy) : StrategyRouter where
  strategies := strategies
  primary := 0

/-- Ask the first strategy first again. -/
def resetPrimary (router : StrategyRouter) : StrategyRouter := { router with primary := 0 }

/-- The loop over the offsets from the primary strategy.  The strategy of each
index answers once. -/
def tryOffsets (router : StrategyRouter) (rawTx : Bytes) (ctx : SubmissionContext)
    (answers : Nat → Except SubmitError B256) : List Nat → Submitted
  | [] =>
      { result := .error (.strategyFailed [.text "all strategies exhausted"])
        router := router
        calls := [] }
  | offset :: offsets =>
      let idx := (router.primary + offset) % router.strategies.length
      let call : SubmitCall := { index := idx, rawTx := rawTx, ctx := ctx, answer := answers idx }
      match answers idx with
      | .ok hash =>
          { result := .ok hash
            router := if 0 < offset then { router with primary := idx } else router
            calls := [call] }
      | .error (.retryable msg) =>
          { result := .error (.retryable msg), router := router, calls := [call] }
      | .error (.terminal msg) =>
          { result := .error (.terminal msg), router := router, calls := [call] }
      | .error (.strategyFailed _) =>
          let rest := tryOffsets router rawTx ctx answers offsets
          { rest with calls := call :: rest.calls }

/-- Ask the strategies in turn, from the primary one around, until one takes the
transaction or says that no other should. -/
def submit (router : StrategyRouter) (rawTx : Bytes) (ctx : SubmissionContext)
    (answers : Nat → Except SubmitError B256) : Submitted :=
  router.tryOffsets rawTx ctx answers (List.range router.strategies.length)

/-- Ask the primary strategy to cancel; without one the call panics. -/
def cancel (router : StrategyRouter) (txHash : B256) (cancelTx : Option Bytes)
    (answers : Nat → Except SubmitError CancelOutcome) : Option CancelCall :=
  router.strategies[router.primary]?.map (fun _ =>
    { index := router.primary
      txHash := txHash
      cancelTx := cancelTx
      answer := answers router.primary })

/-- What the primary strategy supports; without one the call panics. -/
def supportsSoftCancel (router : StrategyRouter) : Option Bool :=
  router.strategies[router.primary]?.map SubmissionStrategy.supportsSoftCancel

/-! ## The ring -/

/-- The indices in the order in which a submission would try them. -/
def ringOrder (router : StrategyRouter) : List Nat :=
  (List.range router.strategies.length).map
    (fun offset => (router.primary + offset) % router.strategies.length)

/-- It is the list of all indices, turned to the primary one. -/
theorem ringOrder_eq_rotate (router : StrategyRouter) :
    router.ringOrder = (List.range router.strategies.length).rotate router.primary := by
  apply List.ext_getElem
  · simp [ringOrder]
  · intro k hk hk'
    rw [List.getElem_rotate]
    simp [ringOrder, Nat.add_comm]

/-- No strategy is in the ring twice. -/
theorem nodup_ringOrder (router : StrategyRouter) : router.ringOrder.Nodup := by
  rw [ringOrder_eq_rotate, List.nodup_rotate]
  exact List.nodup_range

/-- Every strategy is in it. -/
theorem mem_ringOrder {router : StrategyRouter} {i : Nat} :
    i ∈ router.ringOrder ↔ i < router.strategies.length := by
  rw [ringOrder_eq_rotate, List.mem_rotate, List.mem_range]

end StrategyRouter

/-- The strategy that took the transaction, if there is one. -/
def Submitted.acceptedBy (s : Submitted) : Option Nat :=
  (s.calls.find? (fun call => call.answer.toBool)).map SubmitCall.index

/-- The answer of a strategy that leaves the transaction to others. -/
def FailedOver (answer : Except SubmitError B256) : Prop :=
  ∃ msg, answer = .error (.strategyFailed msg)

/-- The indices in `order` are tried in turn, each at most once and all with the
same arguments, up to the first strategy that does not fail, whose answer is
returned; if all fail, so does the submission. -/
structure Walks (rawTx : Bytes) (ctx : SubmissionContext) (answers : Nat → Except SubmitError B256)
    (order : List Nat) (s : Submitted) : Prop where
  in_order : s.calls.map SubmitCall.index <+: order
  asked : ∀ call ∈ s.calls,
    call.rawTx = rawTx ∧ call.ctx = ctx ∧ call.answer = answers call.index
  failed_before : ∀ call ∈ s.calls.dropLast, FailedOver call.answer
  ended : (∃ call, s.calls.getLast? = some call ∧ ¬ FailedOver call.answer ∧
      s.result = call.answer) ∨
    ((∀ i ∈ order, FailedOver (answers i)) ∧ FailedOver s.result ∧
      s.calls.map SubmitCall.index = order)

namespace Walks

variable {rawTx : Bytes} {ctx : SubmissionContext} {answers : Nat → Except SubmitError B256}
  {order : List Nat} {call : SubmitCall}

/-- The first strategy answers. -/
theorem answered {router : StrategyRouter}
    (hasked : call.rawTx = rawTx ∧ call.ctx = ctx ∧ call.answer = answers call.index)
    (hanswered : ¬ FailedOver call.answer) :
    Walks rawTx ctx answers (call.index :: order)
      { result := call.answer, router := router, calls := [call] } where
  in_order := List.cons_prefix_cons.mpr ⟨rfl, List.nil_prefix⟩
  asked other hother := by rwa [List.mem_singleton.mp hother]
  failed_before := by simp
  ended := Or.inl ⟨call, rfl, hanswered, rfl⟩

/-- The first strategy fails, and the walk goes on. -/
theorem passed {s : Submitted} (h : Walks rawTx ctx answers order s)
    (hasked : call.rawTx = rawTx ∧ call.ctx = ctx ∧ call.answer = answers call.index)
    (hfailed : FailedOver call.answer) :
    Walks rawTx ctx answers (call.index :: order) { s with calls := call :: s.calls } where
  in_order := List.cons_prefix_cons.mpr ⟨rfl, h.in_order⟩
  asked := by
    intro other hother
    rcases List.mem_cons.mp hother with rfl | hlater
    · exact hasked
    · exact h.asked other hlater
  failed_before := by
    intro other hother
    by_cases hcalls : s.calls = []
    · simp [hcalls] at hother
    · change other ∈ (call :: s.calls).dropLast at hother
      rw [List.dropLast_cons_of_ne_nil hcalls] at hother
      rcases List.mem_cons.mp hother with rfl | hlater
      · exact hfailed
      · exact h.failed_before other hlater
  ended := by
    rcases h.ended with ⟨last, hlast, hanswered, hresult⟩ | ⟨hall, hresult, horder⟩
    · have hcalls : s.calls ≠ [] := by
        intro hnil
        simp [hnil] at hlast
      refine Or.inl ⟨last, ?_, hanswered, hresult⟩
      change (call :: s.calls).getLast? = some last
      rw [List.getLast?_cons_of_ne_nil hcalls, hlast]
    · refine Or.inr ⟨?_, hresult, by rw [List.map_cons, horder]⟩
      intro i hi
      rcases List.mem_cons.mp hi with rfl | hlater
      · exact hasked.2.2 ▸ hfailed
      · exact hall i hlater

end Walks

namespace StrategyRouter

variable (router : StrategyRouter) (rawTx : Bytes) (ctx : SubmissionContext)
  (answers : Nat → Except SubmitError B256)

/-- **What trying one more strategy does.**  Its failure is passed over, and every
other answer is returned; if it accepts, it is the primary one from now on. -/
theorem tryOffsets_cons (offset : Nat) (offsets : List Nat) :
    ∃ call : SubmitCall, call.index = (router.primary + offset) % router.strategies.length ∧
      call.rawTx = rawTx ∧ call.ctx = ctx ∧ call.answer = answers call.index ∧
      ((FailedOver call.answer ∧
          router.tryOffsets rawTx ctx answers (offset :: offsets) =
            { router.tryOffsets rawTx ctx answers offsets with
              calls := call :: (router.tryOffsets rawTx ctx answers offsets).calls }) ∨
        (¬ FailedOver call.answer ∧
          router.tryOffsets rawTx ctx answers (offset :: offsets) =
            { result := call.answer
              router := if call.answer.toBool ∧ 0 < offset then
                { router with primary := call.index } else router
              calls := [call] })) := by
  refine ⟨⟨(router.primary + offset) % router.strategies.length, rawTx, ctx,
    answers ((router.primary + offset) % router.strategies.length)⟩, rfl, rfl, rfl, rfl, ?_⟩
  rw [tryOffsets]
  cases hans : answers ((router.primary + offset) % router.strategies.length) with
  | ok hash => exact Or.inr ⟨by simp [FailedOver], by simp [Except.toBool]⟩
  | error e =>
      cases e with
      | retryable msg => exact Or.inr ⟨by simp [FailedOver], by simp [Except.toBool]⟩
      | terminal msg => exact Or.inr ⟨by simp [FailedOver], by simp [Except.toBool]⟩
      | strategyFailed msg => exact Or.inl ⟨⟨msg, rfl⟩, rfl⟩

/-- **What the loop tries.**  It walks along the indices of its offsets. -/
theorem tryOffsets_walks (offsets : List Nat) :
    Walks rawTx ctx answers
      (offsets.map (fun offset => (router.primary + offset) % router.strategies.length))
      (router.tryOffsets rawTx ctx answers offsets) := by
  induction offsets with
  | nil =>
      refine ⟨List.prefix_refl _, by simp [tryOffsets], by simp [tryOffsets], Or.inr ?_⟩
      exact ⟨by simp, ⟨_, rfl⟩, rfl⟩
  | cons offset offsets ih =>
      obtain ⟨call, hindex, hraw, hctx, hanswer, ⟨hfailed, hloop⟩ | ⟨hanswered, hloop⟩⟩ :=
        router.tryOffsets_cons rawTx ctx answers offset offsets
      · rw [hloop, List.map_cons, ← hindex]
        exact ih.passed ⟨hraw, hctx, hanswer⟩ hfailed
      · rw [hloop, List.map_cons, ← hindex]
        exact Walks.answered ⟨hraw, hctx, hanswer⟩ hanswered

/-- The primary strategy is the one that accepted, if there is one. -/
theorem tryOffsets_router (hprimary : router.primary < router.strategies.length)
    (offsets : List Nat) :
    (router.tryOffsets rawTx ctx answers offsets).router =
      { router with
        primary :=
          (router.tryOffsets rawTx ctx answers offsets).acceptedBy.getD router.primary } := by
  induction offsets with
  | nil => rfl
  | cons offset offsets ih =>
      obtain ⟨call, hindex, _, _, _, ⟨⟨msg, hfailed⟩, hloop⟩ | ⟨_, hloop⟩⟩ :=
        router.tryOffsets_cons rawTx ctx answers offset offsets
      · rw [hloop]
        change (router.tryOffsets rawTx ctx answers offsets).router = _
        rw [ih]
        simp [Submitted.acceptedBy, hfailed, Except.toBool]
      · rw [hloop]
        by_cases haccepted : call.answer.toBool
        · -- without an offset the strategy is the primary one already
          have hsame : offset = 0 → call.index = router.primary := by
            rintro rfl
            rw [hindex, Nat.add_zero, Nat.mod_eq_of_lt hprimary]
          by_cases hoffset : 0 < offset
          · simp [Submitted.acceptedBy, haccepted, hoffset]
          · simp [Submitted.acceptedBy, haccepted, hoffset, hsame (by omega)]
        · simp [Submitted.acceptedBy, haccepted]

/-- **What a submission tries.**  It walks once around the ring. -/
theorem submit_walks : Walks rawTx ctx answers router.ringOrder (router.submit rawTx ctx answers) :=
  router.tryOffsets_walks rawTx ctx answers _

/-- The strategy that accepts becomes the primary one. -/
theorem submit_router (hprimary : router.primary < router.strategies.length) :
    (router.submit rawTx ctx answers).router =
      { router with
        primary := (router.submit rawTx ctx answers).acceptedBy.getD router.primary } :=
  router.tryOffsets_router rawTx ctx answers hprimary _

/-- No strategy is asked twice in a submission. -/
theorem submit_once : ((router.submit rawTx ctx answers).calls.map SubmitCall.index).Nodup :=
  router.nodup_ringOrder.sublist (router.submit_walks rawTx ctx answers).in_order.sublist

/-- A strategy that accepts is one of the list. -/
theorem acceptedBy_lt {i : Nat} (h : (router.submit rawTx ctx answers).acceptedBy = some i) :
    i < router.strategies.length := by
  obtain ⟨call, hfound, rfl⟩ := Option.map_eq_some_iff.mp h
  have hmem := List.mem_map_of_mem (f := SubmitCall.index) (List.mem_of_find?_eq_some hfound)
  exact mem_ringOrder.mp ((router.submit_walks rawTx ctx answers).in_order.subset hmem)

/-- A cancellation asks the primary strategy only. -/
theorem cancel_eq (hprimary : router.primary < router.strategies.length) (txHash : B256)
    (cancelTx : Option Bytes) (answers : Nat → Except SubmitError CancelOutcome) :
    router.cancel txHash cancelTx answers = some
      { index := router.primary
        txHash := txHash
        cancelTx := cancelTx
        answer := answers router.primary } := by
  unfold cancel
  rw [List.getElem?_eq_getElem hprimary]
  rfl

end StrategyRouter

/-! ## Runs of the router -/

/-- What is asked of a router, one after the other. -/
inductive RouterEvent where
  | submit (rawTx : Bytes) (ctx : SubmissionContext) (answers : Nat → Except SubmitError B256)
  | cancel (txHash : B256) (cancelTx : Option Bytes)
      (answers : Nat → Except SubmitError CancelOutcome)
  | resetPrimary

/-- A router, and the strategy that accepted the transaction last accepted. -/
structure RouterRun where
  router : StrategyRouter
  holder : Option Nat

namespace RouterRun

/-- The router as it is made, before anyone accepted anything. -/
def start (strategies : List SubmissionStrategy) : RouterRun where
  router := StrategyRouter.new strategies
  holder := none

/-- One event.  The last strategy that accepted is the holder. -/
def next (s : RouterRun) : RouterEvent → RouterRun
  | .submit rawTx ctx answers =>
      { router := (s.router.submit rawTx ctx answers).router
        holder := (s.router.submit rawTx ctx answers).acceptedBy <|> s.holder }
  | .cancel _ _ _ => s
  | .resetPrimary => { s with router := s.router.resetPrimary }

end RouterRun

/-- The runs of a router, with any answers. -/
def routerMachine (strategies : List SubmissionStrategy) : Machine RouterRun RouterEvent where
  init s := s = RouterRun.start strategies
  enabled _ _ := True
  next := RouterRun.next

/-- The router has these strategies, and the primary one is among them. -/
def RouterRun.InRange (strategies : List SubmissionStrategy) (s : RouterRun) : Prop :=
  s.router.strategies = strategies ∧ s.router.primary < strategies.length

/-- The primary strategy has the transaction, if one was accepted at all. -/
def RouterRun.Routed (strategies : List SubmissionStrategy) (s : RouterRun) : Prop :=
  s.InRange strategies ∧ s.router.primary = s.holder.getD 0

section Runs

variable {strategies : List SubmissionStrategy} {s : RouterRun}

/-- The primary strategy stays one that there is. -/
theorem RouterRun.InRange.next (h : s.InRange strategies) (e : RouterEvent) :
    (s.next e).InRange strategies := by
  obtain ⟨hlist, hprimary⟩ := h
  cases e with
  | submit rawTx ctx answers =>
      have hrouter := s.router.submit_router rawTx ctx answers (hlist ▸ hprimary)
      change (s.router.submit rawTx ctx answers).router.strategies = strategies ∧
        (s.router.submit rawTx ctx answers).router.primary < strategies.length
      rw [hrouter]
      refine ⟨hlist, ?_⟩
      cases haccepted : (s.router.submit rawTx ctx answers).acceptedBy with
      | none => exact hprimary
      | some i => exact hlist ▸ s.router.acceptedBy_lt rawTx ctx answers haccepted
  | cancel txHash cancelTx answers => exact ⟨hlist, hprimary⟩
  | resetPrimary => exact ⟨hlist, (Nat.zero_le _).trans_lt hprimary⟩

/-- The primary strategy stays the holder, unless it is reset. -/
theorem RouterRun.Routed.next (h : s.Routed strategies) {e : RouterEvent}
    (he : e ≠ .resetPrimary) : (s.next e).Routed strategies := by
  obtain ⟨hrange, hheld⟩ := h
  refine ⟨hrange.next e, ?_⟩
  cases e with
  | submit rawTx ctx answers =>
      have hrouter := s.router.submit_router rawTx ctx answers (hrange.1 ▸ hrange.2)
      change (s.router.submit rawTx ctx answers).router.primary =
        ((s.router.submit rawTx ctx answers).acceptedBy <|> s.holder).getD 0
      rw [hrouter]
      cases (s.router.submit rawTx ctx answers).acceptedBy with
      | none => exact hheld
      | some i => rfl
  | cancel txHash cancelTx answers => exact hheld
  | resetPrimary => exact absurd rfl he

/-- In every run there is a primary strategy. -/
theorem inRange_of_reachable (hsome : strategies ≠ [])
    (h : (routerMachine strategies).Reachable s) : s.InRange strategies := by
  apply Machine.ReachableUnder.invariant _ (fun s e hs _ _ => hs.next e) h
  rintro s rfl
  exact ⟨rfl, List.length_pos_iff.mpr hsome⟩

/-- In every run without a reset it is the holder. -/
theorem routed_of_reachable (hsome : strategies ≠ [])
    (h : (routerMachine strategies).ReachableUnder (fun _ e => e ≠ .resetPrimary) s) :
    s.Routed strategies := by
  apply Machine.ReachableUnder.invariant _ (fun s e hs _ he => hs.next he) h
  rintro s rfl
  exact ⟨⟨rfl, List.length_pos_iff.mpr hsome⟩, rfl⟩

/-- **Where the router sends what.**  After any calls to a router with at least one
strategy, the primary index is in range, and the next submission walks around the
ring from there.  Unless the primary strategy was reset, it is the one that
accepted last, or the first one, and a cancellation is sent to it. -/
theorem router_routes (hsome : strategies ≠ []) (events : List RouterEvent) :
    let s := (routerMachine strategies).run events (RouterRun.start strategies)
    s.InRange strategies ∧
    (∀ rawTx ctx answers,
      Walks rawTx ctx answers s.router.ringOrder (s.router.submit rawTx ctx answers) ∧
        ((s.router.submit rawTx ctx answers).calls.map SubmitCall.index).Nodup) ∧
    ((∀ e ∈ events, e ≠ .resetPrimary) →
      s.router.primary = s.holder.getD 0 ∧
        ∀ txHash cancelTx answers, s.router.cancel txHash cancelTx answers = some
          { index := s.holder.getD 0
            txHash := txHash
            cancelTx := cancelTx
            answer := answers (s.holder.getD 0) }) := by
  intro s
  have hallowed : (routerMachine strategies).EnabledAlong events (RouterRun.start strategies) :=
    Machine.enabledAlong_of_forall (fun _ _ => trivial)
  have hreach : (routerMachine strategies).Reachable s :=
    Machine.reachable_run (.init rfl) hallowed
  have hrange := inRange_of_reachable hsome hreach
  refine ⟨hrange, ?_, ?_⟩
  · intro rawTx ctx answers
    exact ⟨s.router.submit_walks rawTx ctx answers, s.router.submit_once rawTx ctx answers⟩
  · intro hkept
    have hheld : s.router.primary = s.holder.getD 0 := by
      refine (routed_of_reachable hsome ?_).2
      exact Machine.ReachableUnder.run (.init rfl) hallowed
        (Machine.along_of_mem (fun e he _ => hkept e he))
    refine ⟨hheld, ?_⟩
    intro txHash cancelTx answers
    rw [s.router.cancel_eq (hrange.1 ▸ hrange.2), hheld]

end Runs

/-- Of three strategies the first two fail, and later the third one fails too and
the first one accepts. -/
theorem router_routes_three :
    let strategies : List SubmissionStrategy := List.replicate 3 { supportsSoftCancel := false }
    let ctx : SubmissionContext := { expectedStorage := none, chainId := 1 }
    let failing : Except SubmitError B256 := .error (.strategyFailed [.text "always fails"])
    let events : List RouterEvent :=
      [.submit [] ctx (fun i => if i = 2 then .ok 1 else failing),
        .submit [] ctx (fun i => if i = 0 then .ok 2 else failing)]
    let s := (routerMachine strategies).run events (RouterRun.start strategies)
    strategies ≠ [] ∧ (∀ e ∈ events, e ≠ .resetPrimary) ∧ s.holder = some 0 ∧
      s.router.primary = s.holder.getD 0 := by
  intro strategies ctx failing events s
  have hkept : ∀ e ∈ events, e ≠ .resetPrimary := by simp [events]
  refine ⟨by simp [strategies], hkept, by decide, ?_⟩
  exact ((router_routes (by simp [strategies]) events).2.2 hkept).1

end Bunzo
