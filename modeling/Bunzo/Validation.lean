import Bunzo.OperationPool
import Bunzo.Reputation

/-!
# Validation of submitted operations

Four checks in a row: the static fields, the fees, the nonce against the pool,
and the reputation of everyone the operation refers to.  An operation that
passes them all is counted as seen for each of its entities.

* `validateSync_of_refused` — a failed validation changes no counter.
* `refusedFor_iff` — validation refuses an operation because of an address
  when the other checks pass and the address is that of the first entity in
  bad standing.
-/

namespace Bunzo

inductive ValidationError where
  | invalidSender (sender : Address)
  | gasTooLow (field : String) (value minimum : U128)
  | maxFeeTooLow (maxFee baseFee : U128)
  | priorityFeeExceedsMaxFee (priority maxFee : U128)
  | callDataTooLarge (size max : Nat)
  | other (msg : Message)
deriving DecidableEq

/-- The text an error is printed as. -/
def ValidationError.display : ValidationError → Message
  | .invalidSender sender => [.text "invalid sender: ", .address sender]
  | .gasTooLow field value minimum =>
      [.text "gas limit too low: ", .text field, .text " = ", .number value.toNat,
        .text ", minimum = ", .number minimum.toNat]
  | .maxFeeTooLow maxFee baseFee =>
      [.text "max fee per gas too low: ", .number maxFee.toNat, .text ", base fee: ",
        .number baseFee.toNat]
  | .priorityFeeExceedsMaxFee priority maxFee =>
      [.text "max priority fee exceeds max fee: priority=", .number priority.toNat,
        .text ", max=", .number maxFee.toNat]
  | .callDataTooLarge size max =>
      [.text "call data too large: ", .number size, .text " bytes, max ", .number max]
  | .other msg => msg

/-- A validator, with the pool it may look up nonces in. -/
structure Validator where
  chainSpec : ChainSpec
  reputation : ReputationManager
  pool : Option OperationPool

namespace Validator

def validateStaticFields (v : Validator) (uo : UserOperation) : Except ValidationError Unit :=
  if uo.sender = 0 then
    .error (.invalidSender 0)
  else if uo.verificationGasLimit = 0 then
    .error (.gasTooLow "verificationGasLimit" 0 1)
  else if uo.maxFeePerGas = 0 then
    .error (.gasTooLow "maxFeePerGas" 0 1)
  else if uo.maxFeePerGas < uo.maxPriorityFeePerGas then
    .error (.priorityFeeExceedsMaxFee uo.maxPriorityFeePerGas uo.maxFeePerGas)
  else if v.chainSpec.maxTransactionSizeBytes < uo.callData.length then
    .error (.callDataTooLarge uo.callData.length v.chainSpec.maxTransactionSizeBytes)
  else if uo.preVerificationGas = 0 then
    .error (.gasTooLow "preVerificationGas" 0 1)
  else
    .ok ()

def validateGasPrice (v : Validator) (uo : UserOperation) (baseFee : U128) :
    Except ValidationError Unit :=
  if uo.gasFees.covers baseFee v.chainSpec.minMaxPriorityFeePerGas then .ok ()
  else .error (.maxFeeTooLow uo.maxFeePerGas baseFee)

def nonceMessage (expected : U64) (id : UserOperationId) : Message :=
  [.text "invalid nonce sequence: expected ", .number expected.toNat, .text " for sender ",
    .address id.sender, .text " key ", .number id.nonceKey.toNat, .text ", got ",
    .number id.nonceSequence.toNat]

/-- A replacement has a pooled nonce; any other operation has to continue the
pooled sequence of its sender and key, if there is one. -/
def validateNonce (v : Validator) (uo : UserOperation) : Except ValidationError Unit :=
  match v.pool with
  | none => .ok ()
  | some pool =>
      if (pool.getById uo.id).isSome then .ok ()
      else
        match pool.maxNonceSequence uo.sender uo.id.nonceKey with
        | none => .ok ()
        | some maxSeq =>
            if uo.id.nonceSequence ≠ maxSeq + 1 then
              .error (.other (nonceMessage (maxSeq + 1) uo.id))
            else .ok ()

/-- Why an entity is refused; one in good standing never is. -/
def refusal (entity : Entity) : ReputationStatus → Message
  | .throttled => entity.display ++ [.text " is throttled"]
  | .banned => entity.display ++ [.text " is banned"]
  | .ok => []

def checkEntities (v : Validator) : List Entity → Except ValidationError Unit
  | [] => .ok ()
  | entity :: rest =>
      match v.reputation.checkEntity entity with
      | .error status => .error (.other (refusal entity status))
      | .ok () => v.checkEntities rest

/-- One more operation seen for each entity. -/
def recordEntities (manager : ReputationManager) (entities : List Entity) : ReputationManager :=
  entities.foldl (fun manager entity => manager.recordSeen entity.address) manager

def validateReputation (v : Validator) (uo : UserOperation) :
    Except ValidationError Unit × Validator :=
  match v.checkEntities uo.entities with
  | .error e => (.error e, v)
  | .ok () => (.ok (), { v with reputation := recordEntities v.reputation uo.entities })

/-- The checks before that of the reputation. -/
def validateFields (v : Validator) (uo : UserOperation) (baseFee : U128) :
    Except ValidationError Unit := do
  v.validateStaticFields uo
  v.validateGasPrice uo baseFee
  v.validateNonce uo

def validateSync (v : Validator) (uo : UserOperation) (baseFee : U128) :
    Except ValidationError Unit × Validator :=
  match v.validateFields uo baseFee with
  | .error e => (.error e, v)
  | .ok () => v.validateReputation uo

/-- Counting what was seen leaves the inclusions as they are. -/
theorem opsIncluded_recordEntities (entities : List Entity) (a : Address) :
    ∀ manager : ReputationManager,
      (recordEntities manager entities).opsIncluded a = manager.opsIncluded a ∧
      (recordEntities manager entities).config = manager.config := by
  induction entities with
  | nil =>
      intro manager
      exact ⟨rfl, rfl⟩
  | cons entity entities ih =>
      intro manager
      obtain ⟨hincluded, hconfig⟩ := ih (manager.recordSeen entity.address)
      exact ⟨hincluded.trans (by simp), hconfig⟩

/-- How often a list of entities has an address. -/
def mentions (a : Address) (entities : List Entity) : Nat :=
  (entities.map Entity.address).count a

/-- An address is seen once for each time it is mentioned. -/
theorem opsSeen_recordEntities (entities : List Entity) (a : Address) :
    ∀ manager : ReputationManager,
      (recordEntities manager entities).opsSeen a =
        manager.opsSeen a + BitVec.ofNat 64 (mentions a entities) := by
  induction entities with
  | nil =>
      intro manager
      exact (BitVec.add_zero _).symm
  | cons entity entities ih =>
      intro manager
      have htail := ih (manager.recordSeen entity.address)
      have hhead : mentions a (entity :: entities) =
          mentions a entities + if entity.address = a then 1 else 0 := by
        simp [mentions, List.count_cons]
      rw [recordEntities, List.foldl_cons, ← recordEntities, htail,
        ReputationManager.opsSeen_recordSeen, hhead]
      split
      · rw [BitVec.ofNat_add, BitVec.add_assoc, BitVec.add_comm (BitVec.ofNat 64 _)]
        rfl
      · rw [Nat.add_zero]

section Lemmas

variable {v : Validator} {uo : UserOperation} {baseFee : U128}

/-- A failed validation leaves the validator as it was. -/
theorem validateSync_of_refused {e : ValidationError}
    (h : (v.validateSync uo baseFee).1 = .error e) : (v.validateSync uo baseFee).2 = v := by
  unfold validateSync validateReputation at *
  cases hfields : v.validateFields uo baseFee with
  | error e' => rfl
  | ok u =>
      cases hentities : v.checkEntities uo.entities with
      | error e' => rfl
      | ok u' => simp [hfields, hentities] at h

/-- The first entity in bad standing. -/
def firstSuspect (v : Validator) (uo : UserOperation) : Option Entity :=
  uo.entities.find? (fun e => v.reputation.status e.address ≠ .ok)

theorem checkEntities_eq (entities : List Entity) :
    v.checkEntities entities =
      match entities.find? (fun e => v.reputation.status e.address ≠ .ok) with
      | none => .ok ()
      | some entity => .error (.other (refusal entity (v.reputation.status entity.address))) := by
  induction entities with
  | nil => rfl
  | cons entity rest ih =>
      unfold checkEntities ReputationManager.checkEntity
      cases hstatus : v.reputation.status entity.address <;>
        simp [hstatus, ih]

/-- All checks of an operation pass. -/
def Passes (v : Validator) (uo : UserOperation) (baseFee : U128) : Prop :=
  v.validateFields uo baseFee = .ok () ∧ v.firstSuspect uo = none

/-- Validation fails and changes nothing, or passes and counts the entities. -/
theorem validateSync_cases (v : Validator) (uo : UserOperation) (baseFee : U128) :
    (¬ v.Passes uo baseFee ∧ ∃ e, v.validateSync uo baseFee = (.error e, v)) ∨
    (v.Passes uo baseFee ∧ v.validateSync uo baseFee =
      (.ok (), { v with reputation := recordEntities v.reputation uo.entities })) := by
  unfold Passes validateSync validateReputation
  cases hfields : v.validateFields uo baseFee with
  | error e => exact Or.inl ⟨by simp, e, rfl⟩
  | ok u =>
      simp only [checkEntities_eq, firstSuspect, true_and]
      cases uo.entities.find? (fun e => v.reputation.status e.address ≠ .ok) with
      | some entity => exact Or.inl ⟨by simp, _, rfl⟩
      | none => exact Or.inr ⟨rfl, rfl⟩

/-- Validation refuses an operation for the standing of an address. -/
def RefusedFor (v : Validator) (uo : UserOperation) (baseFee : U128) (a : Address) : Prop :=
  ∃ entity ∈ uo.entities, ∃ status, status ≠ .ok ∧ entity.address = a ∧
    (v.validateSync uo baseFee).1 = .error (.other (refusal entity status))

/-- The texts of the two kinds of `other` errors differ. -/
theorem nonceMessage_ne_refusal (expected : U64) (id : UserOperationId) (entity : Entity)
    (status : ReputationStatus) : nonceMessage expected id ≠ refusal entity status := by
  cases status <;> simp [nonceMessage, refusal, Entity.display]

theorem validateNonce_ne_refusal (v : Validator) (uo : UserOperation) (entity : Entity)
    (status : ReputationStatus) : v.validateNonce uo ≠ .error (.other (refusal entity status)) := by
  unfold validateNonce
  grind [nonceMessage_ne_refusal]

/-- The other checks never give the answer of the reputation check. -/
theorem validateFields_ne_refusal (v : Validator) (uo : UserOperation) (baseFee : U128)
    (entity : Entity) (status : ReputationStatus) :
    v.validateFields uo baseFee ≠ .error (.other (refusal entity status)) := by
  have hnonce := validateNonce_ne_refusal v uo entity status
  unfold validateFields
  cases hstatic : v.validateStaticFields uo with
  | error e =>
      unfold validateStaticFields at hstatic
      intro h
      cases h
      grind
  | ok u =>
      cases hprice : v.validateGasPrice uo baseFee with
      | error e =>
          unfold validateGasPrice at hprice
          intro h
          cases h
          grind
      | ok u' => exact hnonce

theorem refusal_injective {entity entity' : Entity} {status status' : ReputationStatus}
    (hstatus : status ≠ .ok) (hstatus' : status' ≠ .ok)
    (h : refusal entity status = refusal entity' status') : entity.address = entity'.address := by
  cases status <;> cases status' <;> simp_all [refusal, Entity.display]

/-- **Who is to blame for a refusal.**  The other checks pass, and the address
is that of the first entity in bad standing. -/
theorem refusedFor_iff (v : Validator) (uo : UserOperation) (baseFee : U128) (a : Address) :
    v.RefusedFor uo baseFee a ↔
      v.validateFields uo baseFee = .ok () ∧
        (v.firstSuspect uo).map Entity.address = some a := by
  unfold RefusedFor validateSync validateReputation
  cases hfields : v.validateFields uo baseFee with
  | error e =>
      refine ⟨?_, ?_⟩
      · intro h
        obtain ⟨entity, _, status, _, _, herr⟩ := h
        have hsame := Except.error.inj herr
        rw [hsame] at hfields
        exact absurd hfields (validateFields_ne_refusal v uo baseFee entity status)
      · intro h
        cases h.1
  | ok u =>
      simp only [checkEntities_eq, true_and]
      unfold firstSuspect
      cases hfind : uo.entities.find? (fun e => v.reputation.status e.address ≠ .ok) with
      | none =>
          refine ⟨?_, ?_⟩
          · intro h
            obtain ⟨_, _, _, _, _, herr⟩ := h
            cases herr
          · intro h
            cases h
      | some entity =>
          have hbad : v.reputation.status entity.address ≠ .ok := by
            simpa using List.find?_some hfind
          refine ⟨?_, ?_⟩
          · intro h
            obtain ⟨entity', _, status, hstatus, haddress, herr⟩ := h
            have htext := ValidationError.other.inj (Except.error.inj herr)
            rw [← haddress]
            exact congrArg some (refusal_injective hbad hstatus htext)
          · intro h
            exact ⟨entity, List.mem_of_find?_eq_some hfind, _, hbad, Option.some.inj h, rfl⟩

end Lemmas

end Validator

end Bunzo
