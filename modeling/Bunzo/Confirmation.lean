import Bunzo.TaskShape

/-!
# Confirming a mined bundle

The task beside a chain that may be replaced by another one at any time.  A
poll that finds a receipt records the number of its block, and from then on the
task compares this number with the head of the chain.  It looks neither for the
receipt nor for the block again.

* `Awaited` — while a bundle is confirmed, its transaction is on the chain, at
  the recorded number or below, if every change of the chain leaves it there.
* `confirms_canonical` — then a bundle is confirmed only at its depth.
* `confirmed_after_reorg` — a bundle that is confirmed after the chain has lost
  its transaction.
-/

namespace Bunzo

open ReachableStates

/-- The blocks of a chain from the first one on, each with the hashes of its
transactions.  No transaction is there twice. -/
structure CanonicalChain where
  blocks : List (List B256)
  once : blocks.flatten.Nodup

/-- The transaction is in the block of a number. -/
def CanonicalChain.Holds (chain : CanonicalChain) (txHash : B256) (number : Nat) : Prop :=
  ∃ block, chain.blocks[number]? = some block ∧ txHash ∈ block

/-- The task and the chain, with the transaction whose receipt the task saw
last. -/
structure ChainedTask where
  task : BundlerTask
  chain : CanonicalChain
  seen : Option B256

/-- A step of the task, a call to its pool, another chain. -/
inductive ChainedEvent where
  | step (a : StepAnswers)
  | pool (call : PoolCall)
  | chain (chain : CanonicalChain)

namespace ChainedTask

/-- The node answers from the chain, if it answers.  It may leave out the block
number of a receipt. -/
def Truthful (s : ChainedTask) : ChainedEvent → Prop
  | .step a =>
      (∀ r p, a.receipt = .ok (some r) → s.task.tracker.pending = some p →
        ∃ number, s.chain.Holds p.txHash number ∧ ∀ b, r.blockNumber = some b → b.toNat = number) ∧
      ∀ n, a.blockNumber = .ok n → n.toNat + 1 = s.chain.blocks.length
  | _ => True

/-- The transaction of the bundle is on the chain, with as many blocks on top of
it as the task wants. -/
def Deep (s : ChainedTask) : Prop :=
  ∃ txHash number, s.seen = some txHash ∧ s.chain.Holds txHash number ∧
    number + s.task.confirmationDepth.toNat < s.chain.blocks.length

/-- A receipt comes with its block number, and while a bundle is confirmed no
change of the chain takes its transaction off it or moves it above the number
that was recorded. -/
def KeepsBlock (s : ChainedTask) : ChainedEvent → Prop
  | .step a => s.task.state = .pending → ∀ r, a.receipt = .ok (some r) → r.blockNumber.isSome
  | .pool _ => True
  | .chain chain =>
      s.task.state = .confirming → ∀ txHash b, s.seen = some txHash → s.task.minedBlock = some b →
        ∃ number, number ≤ b.toNat ∧ chain.Holds txHash number

/-- While a bundle is confirmed, its transaction is at the recorded number or
below. -/
def Awaited (s : ChainedTask) : Prop :=
  s.task.state = .confirming → ∃ txHash b number, s.seen = some txHash ∧
    s.task.minedBlock = some b ∧ number ≤ b.toNat ∧ s.chain.Holds txHash number

section Runs

variable [Keccak]

def next (s : ChainedTask) : ChainedEvent → ChainedTask
  | .step a =>
      { s with
        task := s.task.step a
        seen :=
          if s.task.state = .pending ∧ (s.task.step a).state = .confirming then
            s.task.tracker.pending.map PendingTransaction.txHash
          else s.seen }
  | .pool call => { s with task := { s.task with pool := call.apply s.task.pool } }
  | .chain chain => { s with chain := chain }

/-- The task is confirmed only if its transaction is deep in the chain. -/
def ConfirmsDeep (s : ChainedTask) : ChainedEvent → Prop
  | .step a => (s.task.step a).state = .confirmed → s.Deep
  | _ => True

end Runs

end ChainedTask

section Machine

variable [Keccak]

/-- The task from its start, beside any chain. -/
def chainedMachine : Machine ChainedTask ChainedEvent where
  init s := bundlerMachine.init s.task
  enabled s e := s.Truthful e
  next s e := s.next e

@[simp] theorem chainedMachine_next (s : ChainedTask) (e : ChainedEvent) :
    chainedMachine.next s e = s.next e := rfl

namespace BundlerTask

variable {t t' : BundlerTask} {a : StepAnswers} {calls : List TaskCall}

/-- A bundle enters confirmation with a receipt for its transaction. -/
theorem TaskStep.confirming_cases (hstep : TaskStep t a t' calls) (hs : t'.state = .confirming) :
    (t.state = .confirming ∧ t'.minedBlock = t.minedBlock) ∨
    (t.state = .pending ∧ ∃ p r, t.tracker.pending = some p ∧ a.receipt = .ok (some r) ∧
      t'.minedBlock = some (r.blockNumber.getD 0)) := by
  cases hstep with
  | mined hpending p hp r hr =>
      refine Or.inr ⟨hpending, p, r, hp, hr, ?_⟩
      simp
  | confirming hconfirming next hnext => exact Or.inl ⟨hconfirming, rfl⟩
  | pollFails hpending p hp herr => exact absurd hs (by rw [hpending]; decide)
  | _ => grind

/-- Only a bundle that is being confirmed becomes confirmed. -/
theorem TaskStep.confirmed_cases (hstep : TaskStep t a t' calls) (hs : t'.state = .confirmed) :
    t.state = .confirming := by
  cases hstep with
  | confirming hconfirming next hnext => exact hconfirming
  | pollFails hpending p hp herr => exact absurd hs (by rw [hpending]; decide)
  | _ => grind

/-- What a bundle is confirmed by: the number of the head, and that recorded. -/
theorem depth_of_confirmed (hconfirming : t.state = .confirming) {b : U64}
    (hb : t.minedBlock = some b) (hs : (t.step a).state = .confirmed) :
    ∃ n, a.blockNumber = .ok n ∧ t.confirmationDepth ≤ MachineWords.saturatingSub n b := by
  have hhandle : t.handle a = t.handleConfirming a := by simp only [handle, hconfirming]
  unfold step at hs
  rw [hhandle] at hs
  unfold handleConfirming at hs
  rw [hb] at hs
  rcases hblock : a.blockNumber with e | n
  · simp [hblock] at hs
  · refine ⟨n, rfl, ?_⟩
    by_contra hdeep
    simp [hblock, hdeep] at hs

end BundlerTask

namespace ChainedTask

variable {s : ChainedTask}

omit [Keccak] in
/-- The distance to the head, counted in blocks. -/
theorem deep_of_saturatingSub {n b depth : U64} {number length : Nat} (hn : n.toNat + 1 = length)
    (hnumber : number ≤ b.toNat) (hlt : number < length)
    (hdepth : depth ≤ MachineWords.saturatingSub n b) : number + depth.toNat < length := by
  rw [BitVec.le_def] at hdepth
  unfold MachineWords.saturatingSub at hdepth
  split at hdepth
  · next hle =>
      rw [BitVec.toNat_sub_of_le hle] at hdepth
      rw [BitVec.le_def] at hle
      omega
  · change depth.toNat ≤ 0 at hdepth
    omega

theorem Awaited.next {e : ChainedEvent} (h : Awaited s) (htrue : s.Truthful e)
    (hkeeps : s.KeepsBlock e) : Awaited (s.next e) := by
  cases e with
  | pool call => exact h
  | chain chain =>
      intro hs
      obtain ⟨txHash, b, _, hseen, hb, _, _⟩ := h hs
      obtain ⟨number, hle, hholds⟩ := hkeeps hs txHash b hseen hb
      exact ⟨txHash, b, number, hseen, hb, hle, hholds⟩
  | step a =>
      intro hs
      rcases (BundlerTask.step_taskStep s.task a).confirming_cases hs with
        ⟨hconfirming, hmined⟩ | ⟨hpending, p, r, hp, hr, hmined⟩
      · obtain ⟨txHash, b, number, hseen, hb, hle, hholds⟩ := h hconfirming
        refine ⟨txHash, b, number, ?_, hmined.trans hb, hle, hholds⟩
        change (if _ then _ else s.seen) = _
        rw [if_neg (fun hand => by rw [hconfirming] at hand; exact absurd hand.1 (by decide))]
        exact hseen
      · obtain ⟨b, hb⟩ := Option.isSome_iff_exists.mp (hkeeps hpending r hr)
        obtain ⟨number, hholds, hnumber⟩ := htrue.1 r p hr hp
        refine ⟨p.txHash, b, number, ?_, ?_, (hnumber b hb).ge, hholds⟩
        · change (if _ then s.task.tracker.pending.map PendingTransaction.txHash else _) = _
          rw [if_pos ⟨hpending, hs⟩, hp]
          rfl
        · change (s.task.step a).minedBlock = _
          rw [hmined, hb]
          rfl

theorem Awaited.of_reachable (h : chainedMachine.ReachableUnder KeepsBlock s) : Awaited s := by
  apply h.invariant
  · intro s hinit hs
    obtain ⟨_, _, _, _, hstart⟩ := hinit
    rw [(BundlerTask.start_eq hstart).1] at hs
    cases hs
  · intro s e hs htrue hkeeps
    exact hs.next htrue hkeeps

/-- **Confirmed at depth.**  On a run on which receipts come with their block
numbers and the chain keeps a bundle that is being confirmed, a bundle is
confirmed only when its transaction is on the chain and deep enough. -/
theorem confirms_canonical (h : chainedMachine.ReachableUnder KeepsBlock s) (e : ChainedEvent)
    (htrue : s.Truthful e) : s.ConfirmsDeep e := by
  cases e with
  | pool call => trivial
  | chain chain => trivial
  | step a =>
      intro hs
      have hconfirming := (BundlerTask.step_taskStep s.task a).confirmed_cases hs
      obtain ⟨txHash, b, number, hseen, hb, hle, hholds⟩ := Awaited.of_reachable h hconfirming
      obtain ⟨n, hn, hdepth⟩ := BundlerTask.depth_of_confirmed hconfirming hb hs
      have hlt : number < s.chain.blocks.length := by
        obtain ⟨block, hblock, _⟩ := hholds
        exact (List.getElem?_eq_some_iff.mp hblock).1
      exact ⟨txHash, number, hseen, hholds, deep_of_saturatingSub (htrue.2 n hn) hle hlt hdepth⟩

end ChainedTask

end Machine

/-! ## A bundle that the chain loses -/

section Lost

def ChainedEvent.ofTask : TaskEvent → ChainedEvent
  | .step a => .step a
  | .pool call => .pool call

/-- A chain of blocks without transactions. -/
def emptyChain (n : Nat) : CanonicalChain where
  blocks := List.replicate n []
  once := by simp

/-- The transaction is in block two. -/
def includingChain : CanonicalChain where
  blocks := [[], [], [0xAAA]]
  once := by decide

/-- A poll that finds the transaction in block two. -/
def includedPoll : StepAnswers :=
  { silentAnswers with receipt := .ok (some { status := true, blockNumber := some 2 }) }

/-- The head is block five. -/
def headFive : StepAnswers := { silentAnswers with blockNumber := .ok 5 }

def startedChained : ChainedTask := { task := startedTask 0, chain := emptyChain 1, seen := none }

/-- The bundle is submitted, and the chain includes its transaction. -/
def includedState : ChainedTask :=
  letI := polynomialDigest
  chainedMachine.run ((submission 0xAAA).map ChainedEvent.ofTask ++ [.chain includingChain])
    startedChained

/-- The blocks after it, on the same chain. -/
def buryingChain : CanonicalChain where
  blocks := [[], [], [0xAAA], [], [], []]
  once := by decide

/-- The bundle is seen, and the chain grows. -/
def buriedState : ChainedTask :=
  letI := polynomialDigest
  (includedState.next (.step includedPoll)).next (.chain buryingChain)

/-- The bundle is seen, and the chain is replaced. -/
def lostState : ChainedTask :=
  letI := polynomialDigest
  (includedState.next (.step includedPoll)).next (.chain (emptyChain 6))

theorem startedChained_init [Keccak] : chainedMachine.init startedChained := startedTask_init 0

theorem truthful_of_silent {s : ChainedTask} {a : StepAnswers}
    (hreceipt : a.receipt = silentAnswers.receipt)
    (hblock : a.blockNumber = silentAnswers.blockNumber) : s.Truthful (.step a) := by
  refine ⟨?_, ?_⟩
  · intro r p hr
    rw [hreceipt] at hr
    cases hr
  · intro n hn
    rw [hblock] at hn
    cases hn

/-- Up to here no receipt is seen. -/
theorem includedState_reachable :
    letI := polynomialDigest
    chainedMachine.ReachableUnder ChainedTask.KeepsBlock includedState := by
  let _ := polynomialDigest
  apply Machine.ReachableUnder.run (.init startedChained_init)
  · exact ⟨trivial, truthful_of_silent rfl rfl, truthful_of_silent rfl rfl,
      truthful_of_silent rfl rfl, trivial, trivial⟩
  · have hsilent (s : ChainedTask) (a : StepAnswers) (h : a.receipt = silentAnswers.receipt) :
        s.KeepsBlock (.step a) := by
      intro _ r hr
      rw [h] at hr
      cases hr
    refine ⟨trivial, hsilent _ _ rfl, hsilent _ _ rfl, hsilent _ _ rfl, ?_, trivial⟩
    intro hs
    exact absurd hs (by decide +kernel)

theorem includedPoll_truthful : includedState.Truthful (.step includedPoll) := by
  have hpending :
      includedState.task.tracker.pending.map PendingTransaction.txHash = some 0xAAA := by
    decide +kernel
  refine ⟨?_, fun n hn => by cases hn⟩
  intro r p hr hp
  rw [hp] at hpending
  have hhash : p.txHash = 0xAAA := Option.some.inj hpending
  cases hr
  refine ⟨2, ⟨[0xAAA], rfl, ?_⟩, ?_⟩
  · rw [hhash]
    exact List.mem_singleton_self _
  · intro b hb
    cases hb
    rfl

theorem lostState_reachable :
    letI := polynomialDigest
    chainedMachine.Reachable lostState := by
  let _ := polynomialDigest
  have hincluded : chainedMachine.Reachable includedState :=
    includedState_reachable.mono (fun _ _ _ => trivial)
  have hseen := hincluded.next_eq (.step includedPoll) includedPoll_truthful trivial rfl
  exact hseen.next_eq (.chain (emptyChain 6)) trivial trivial rfl

/-- Four blocks after a block that is gone, the bundle is confirmed. -/
theorem confirmed_after_reorg :
    letI := polynomialDigest
    chainedMachine.Reachable lostState ∧ lostState.Truthful (.step headFive) ∧
      ¬ lostState.ConfirmsDeep (.step headFive) := by
  let _ := polynomialDigest
  refine ⟨lostState_reachable, ⟨fun r p hr => (by cases hr), ?_⟩, ?_⟩
  · intro n hn
    cases hn
    rfl
  · intro h
    have hconfirmed : (lostState.task.step headFive).state = .confirmed := by decide +kernel
    obtain ⟨txHash, number, _, ⟨block, hblock, htx⟩, _⟩ := h hconfirmed
    have hempty : block = [] := List.eq_of_mem_replicate (List.mem_of_getElem? hblock)
    rw [hempty] at htx
    cases htx

/-- Four blocks after a block that stays, the bundle is confirmed at its depth. -/
theorem confirms_canonical_buried :
    letI := polynomialDigest
    (buriedState.task.step headFive).state = .confirmed ∧
      buriedState.ConfirmsDeep (.step headFive) := by
  let _ := polynomialDigest
  have hseen := includedState_reachable.next_eq (.step includedPoll) includedPoll_truthful
    (fun _ r hr => by cases hr; rfl) rfl
  have hburied : chainedMachine.ReachableUnder ChainedTask.KeepsBlock buriedState := by
    refine hseen.next_eq (.chain buryingChain) trivial ?_ rfl
    intro _ txHash b htx hb
    have hhash : (includedState.next (.step includedPoll)).seen = some 0xAAA := by decide +kernel
    have hmined : (includedState.next (.step includedPoll)).task.minedBlock = some 2 := by
      decide +kernel
    rw [chainedMachine_next, hhash] at htx
    rw [chainedMachine_next, hmined] at hb
    cases htx
    cases hb
    exact ⟨2, le_refl _, [0xAAA], rfl, List.mem_singleton_self _⟩
  have hanswers : buriedState.Truthful (.step headFive) := by
    refine ⟨fun r p hr => (by cases hr), fun n hn => ?_⟩
    cases hn
    rfl
  exact ⟨by decide +kernel, ChainedTask.confirms_canonical hburied (.step headFive) hanswers⟩

end Lost

end Bunzo
