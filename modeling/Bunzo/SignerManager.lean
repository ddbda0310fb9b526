import Bunzo.BundlerTask
import Bunzo.RoundRobin

/-!
# Several wallets

A manager hands out signers in turns, so that bundles can be submitted from different
accounts at the same time.  Its counter is incremented atomically, and it wraps.

* `leases_eq` — which signer each call gets, however threads interleave.
* `leases_fair` — no signer is handed out much more often than another, and as many calls
  in a row as there are signers get different ones, unless the counter wraps.
-/

namespace Bunzo

open RoundRobin

/-- A wallet. -/
structure BundlerSigner where
  address : Address
  signTransaction : TransactionRequest → U64 → Except SignerError Bytes

/-- The signers in their order, and the counter that all callers share. -/
structure SignerManager where
  signers : List BundlerSigner
  nextIndex : U64

/-- A signer that was handed out, with its index. -/
structure SignerLease where
  signer : BundlerSigner
  index : Nat

namespace SignerLease

/-- The address of the leased signer. -/
def address (lease : SignerLease) : Address := lease.signer.address

/-- Sign with the leased signer. -/
def signTransaction (lease : SignerLease) (tx : TransactionRequest) (chainId : U64) :
    Except SignerError Bytes :=
  lease.signer.signTransaction tx chainId

end SignerLease

namespace SignerManager

/-- A manager that has handed out nothing. -/
def new (signers : List BundlerSigner) : SignerManager where
  signers := signers
  nextIndex := 0

/-- A manager of one signer. -/
def single (signer : BundlerSigner) : SignerManager := new [signer]

/-- How many signers there are. -/
def count (manager : SignerManager) : Nat := manager.signers.length

/-- The addresses of the signers, in their order. -/
def addresses (manager : SignerManager) : List Address :=
  manager.signers.map BundlerSigner.address

/-- Take the counter and increment it, then pick a signer; without signers that panics. -/
def acquire (manager : SignerManager) : Option SignerLease × SignerManager :=
  let idx := manager.nextIndex.toNat % manager.signers.length
  (manager.signers[idx]?.map (fun signer => { signer := signer, index := idx }),
    { manager with nextIndex := manager.nextIndex + 1 })

/-- The signer at an index. -/
def get (manager : SignerManager) (index : Nat) : Option BundlerSigner := manager.signers[index]?

/-- The first signer with an address. -/
def getByAddress (manager : SignerManager) (address : Address) : Option BundlerSigner :=
  manager.signers.find? (fun s => s.address = address)

/-- What so many calls get, in the order in which they increment the counter. -/
def leases : Nat → SignerManager → List (Option SignerLease)
  | 0, _ => []
  | m + 1, manager => manager.acquire.1 :: leases m manager.acquire.2

variable {signers : List BundlerSigner}

/-- What the call with a given number gets. -/
def leaseAt (signers : List BundlerSigner) (k : Nat) : Option SignerLease :=
  signers[turn (2 ^ 64) signers.length k]?.map
    (fun signer => { signer := signer, index := turn (2 ^ 64) signers.length k })

/-- **Turns.**  The call with a number gets the signer of its turn. -/
theorem leases_eq (m : Nat) : ∀ n : Nat,
    leases m { signers := signers, nextIndex := BitVec.ofNat 64 n } =
      (List.range m).map (fun k => leaseAt signers (n + k)) := by
  induction m with
  | zero =>
      intro n
      rfl
  | succ m ih =>
      intro n
      have hnext : (BitVec.ofNat 64 n : U64) + 1 = BitVec.ofNat 64 (n + 1) := by
        rw [BitVec.ofNat_add]
        rfl
      rw [List.range_succ_eq_map, List.map_cons, List.map_map, leases]
      change _ :: leases m { signers := signers, nextIndex := BitVec.ofNat 64 n + 1 } = _
      rw [hnext, ih]
      congr 1
      apply List.map_congr_left
      intro k _
      rw [Function.comp_apply, Nat.succ_eq_add_one, Nat.add_right_comm, Nat.add_assoc]

variable (hsigners : 0 < signers.length)
include hsigners

/-- Every turn is that of a signer. -/
theorem turn_lt (k : Nat) : turn (2 ^ 64) signers.length k < signers.length :=
  Nat.mod_lt _ hsigners

/-- With a signer there is, the call with a number gets one. -/
def leaseOf (k : Nat) : SignerLease where
  signer := signers.get ⟨turn (2 ^ 64) signers.length k, turn_lt hsigners k⟩
  index := turn (2 ^ 64) signers.length k

/-- Every call gets the signer of its turn. -/
theorem leaseAt_eq (k : Nat) : leaseAt signers k = some (leaseOf hsigners k) := by
  unfold leaseAt
  rw [List.getElem?_eq_getElem (turn_lt hsigners k)]
  rfl

/-- The calls of a new manager, from the first one on. -/
theorem leases_new (m : Nat) :
    leases m (new signers) = ((List.range m).map (leaseOf hsigners)).map some := by
  change leases m { signers := signers, nextIndex := BitVec.ofNat 64 0 } = _
  rw [leases_eq, List.map_map]
  apply List.map_congr_left
  intro k _
  rw [Nat.zero_add, leaseAt_eq hsigners, Function.comp_apply]

omit hsigners in
/-- Different wallets are told apart by their addresses. -/
theorem getByAddress_eq (hnodup : (new signers).addresses.Nodup) {signer : BundlerSigner}
    (hsigner : signer ∈ signers) :
    (new signers).getByAddress signer.address = some signer := by
  obtain ⟨found, hfound⟩ : ∃ found, (new signers).getByAddress signer.address = some found := by
    apply Option.isSome_iff_exists.mp
    exact List.find?_isSome.mpr ⟨signer, hsigner, decide_eq_true rfl⟩
  have haddress : found.address = signer.address := by
    have hholds := List.find?_some hfound
    exact of_decide_eq_true hholds
  rw [hfound, List.inj_on_of_nodup_map hnodup (List.mem_of_find?_eq_some hfound) hsigner haddress]

/-- So often a signer is handed out. -/
theorem count_index (i m : Nat) :
    (((List.range m).map (leaseOf hsigners)).map SignerLease.index).count i =
      served (2 ^ 64) signers.length i m := by
  unfold served
  rw [List.map_map]
  induction m with
  | zero => rfl
  | succ m ih =>
      rw [List.range_succ, List.map_append, List.count_append, ih, Nat.count_succ]
      rw [List.map_singleton, List.count_singleton]
      congr 1
      simp only [Function.comp_apply, leaseOf, beq_iff_eq]

omit hsigners in
/-- As many different indices as there are signers are all of them. -/
theorem perm_range {indices : List Nat} {n : Nat} (hnodup : indices.Nodup)
    (hlength : indices.length = n) (hlt : ∀ i ∈ indices, i < n) :
    indices.Perm (List.range n) := by
  have hsub : indices.Subperm (List.range n) := by
    apply hnodup.subperm
    intro i hi
    exact List.mem_range.mpr (hlt i hi)
  exact hsub.perm_of_length_le (by rw [List.length_range, hlength])

/-- A row of calls without a wrap, as long as there are signers, gets each of them
once. -/
theorem perm_row {k m : Nat} (hk : k + signers.length ≤ m)
    (hwrap : k % 2 ^ 64 + signers.length ≤ 2 ^ 64) :
    (((((List.range m).map (leaseOf hsigners)).drop k).take signers.length).map
      SignerLease.index).Perm (List.range signers.length) := by
  have hrow : ((((List.range m).map (leaseOf hsigners)).drop k).take signers.length).map
      SignerLease.index =
      (List.range signers.length).map (fun d => turn (2 ^ 64) signers.length (k + d)) := by
    apply List.ext_getElem
    · simp only [List.length_map, List.length_take, List.length_drop, List.length_range]
      omega
    · intro d hd _
      simp [leaseOf]
  rw [hrow]
  apply perm_range (nodup_turns hwrap)
  · rw [List.length_map, List.length_range]
  · intro i hi
    obtain ⟨d, _, rfl⟩ := List.mem_map.mp hi
    exact turn_lt hsigners (k + d)

end SignerManager

open SignerManager in
/-- **Fair leases.**  However threads interleave, every call gets a lease of the signer at its
index, who is found under its address if no two share one; no signer is handed out much more
often than another; and as many calls in a row as there are signers get every signer once,
unless the counter wraps among them. -/
theorem leases_fair (signers : List BundlerSigner) (hsigners : signers ≠ []) (m : Nat) :
    ∃ got : List SignerLease,
      leases m (.new signers) = got.map some ∧
      (∀ lease ∈ got, (SignerManager.new signers).get lease.index = some lease.signer) ∧
      ((SignerManager.new signers).addresses.Nodup → ∀ lease ∈ got,
        (SignerManager.new signers).getByAddress lease.address = some lease.signer) ∧
      (∀ i j, i < signers.length → j < signers.length →
        (got.map SignerLease.index).count i ≤
          (got.map SignerLease.index).count j + m / 2 ^ 64 + 1) ∧
      (∀ k, k + signers.length ≤ m → k % 2 ^ 64 + signers.length ≤ 2 ^ 64 →
        (((got.drop k).take signers.length).map SignerLease.index).Perm
          (List.range signers.length)) := by
  have hlength : 0 < signers.length := List.length_pos_iff.mpr hsigners
  refine ⟨(List.range m).map (leaseOf hlength), leases_new hlength m, ?_, ?_, ?_, ?_⟩
  · intro lease hlease
    obtain ⟨k, _, rfl⟩ := List.mem_map.mp hlease
    exact List.getElem?_eq_getElem (turn_lt hlength k)
  · intro hnodup lease hlease
    obtain ⟨k, _, rfl⟩ := List.mem_map.mp hlease
    exact getByAddress_eq hnodup (List.get_mem signers _)
  · intro i j hi hj
    rw [count_index, count_index]
    exact served_le (by decide) hlength hi hj m
  · intro k hk hwrap
    exact perm_row hlength hk hwrap

/-- A wallet that signs nothing. -/
def lockedWallet (address : Address) : BundlerSigner where
  address := address
  signTransaction _ _ := .error .noSigner

open SignerManager in
/-- The same for two signers and five calls. -/
theorem leases_fair_two :
    ∃ got : List SignerLease,
      leases 5 (.new [lockedWallet 1, lockedWallet 2]) = got.map some ∧
      (got.map SignerLease.index).count 0 ≤ (got.map SignerLease.index).count 1 + 1 ∧
      (((got.drop 3).take 2).map SignerLease.index).Perm [0, 1] := by
  obtain ⟨got, hgot, _, _, hfair, hrow⟩ :=
    leases_fair [lockedWallet 1, lockedWallet 2] (List.cons_ne_nil _ _) 5
  exact ⟨got, hgot, hfair 0 1 (by decide) (by decide), hrow 3 (by decide) (by decide)⟩

end Bunzo
