import Bunzo.UserOperation

/-!
# Reputation of entities

Two counters an address: how many operations referring to it were seen, and
how many of those were included in a block.  Once enough were seen, an address
with too small a share of inclusions is throttled or banned.  The share is
taken as an exact fraction.

`opsSeen` and `opsIncluded` read the counters, with zero for an address that
has none; `status_eq` expresses the status by them.
-/

namespace Bunzo

/-- Where an address stands: in good standing, slowed down, or refused. -/
inductive ReputationStatus where
  | ok
  | throttled
  | banned
deriving DecidableEq

/-- What is counted for one address: operations that were seen, and those of them that
were included. -/
structure ReputationEntry where
  opsSeen : U64
  opsIncluded : U64
deriving DecidableEq

/-- An address without history. -/
def ReputationEntry.new : ReputationEntry := { opsSeen := 0, opsIncluded := 0 }

/-- From how many operations on an address is judged, and the shares of included ones
below which it is throttled or banned. -/
structure ReputationConfig where
  minOpsForThrottle : U64
  throttleThreshold : ℚ
  banThreshold : ℚ

/-- The thresholds used unless others are given. -/
def ReputationConfig.default : ReputationConfig where
  minOpsForThrottle := 10
  throttleThreshold := 1 / 10
  banThreshold := 1 / 100

/-- The status that follows from the share of included operations. -/
def ReputationEntry.status (entry : ReputationEntry) (config : ReputationConfig) :
    ReputationStatus :=
  if entry.opsSeen = 0 then
    .ok
  else if config.minOpsForThrottle < entry.opsSeen then
    let ratio : ℚ := entry.opsIncluded.toNat / entry.opsSeen.toNat
    if ratio < config.banThreshold then .banned
    else if ratio < config.throttleThreshold then .throttled
    else .ok
  else
    .ok

/-- The counters of all addresses that were ever recorded, and the thresholds. -/
structure ReputationManager where
  entries : Std.ExtTreeMap Address ReputationEntry
  config : ReputationConfig

namespace ReputationManager

/-- A manager that has recorded nothing. -/
def new (config : ReputationConfig) : ReputationManager :=
  { entries := ∅, config := config }

/-- The status of an address; one that was never recorded is in good
standing. -/
def status (manager : ReputationManager) (address : Address) : ReputationStatus :=
  match manager.entries.get? address with
  | some entry => entry.status manager.config
  | none => .ok

/-- Nothing for an entity in good standing, its status otherwise. -/
def checkEntity (manager : ReputationManager) (entity : Entity) : Except ReputationStatus Unit :=
  match manager.status entity.address with
  | .ok => .ok ()
  | status => .error status

/-- The record of an address, a new one if there is none. -/
def entryOf (manager : ReputationManager) (address : Address) : ReputationEntry :=
  (manager.entries.get? address).getD .new

/-- One more operation seen. -/
def recordSeen (manager : ReputationManager) (address : Address) : ReputationManager :=
  let entry := manager.entryOf address
  { manager with
    entries := manager.entries.insert address { entry with opsSeen := entry.opsSeen + 1 } }

/-- One more operation included. -/
def recordIncluded (manager : ReputationManager) (address : Address) : ReputationManager :=
  let entry := manager.entryOf address
  { manager with
    entries := manager.entries.insert address { entry with opsIncluded := entry.opsIncluded + 1 } }

/-- The operations seen for an address, none if it was never recorded. -/
def opsSeen (manager : ReputationManager) (address : Address) : U64 :=
  (manager.entryOf address).opsSeen

/-- The operations included for an address. -/
def opsIncluded (manager : ReputationManager) (address : Address) : U64 :=
  (manager.entryOf address).opsIncluded

/-- A new manager knows nobody. -/
theorem entryOf_new (config : ReputationConfig) (address : Address) :
    (new config).entryOf address = .new := by
  simp [new, entryOf]

/-- A written entry is read at its own address only. -/
theorem entryOf_insert (manager : ReputationManager) (address other : Address)
    (entry : ReputationEntry) :
    entryOf { manager with entries := manager.entries.insert address entry } other =
      if address = other then entry else manager.entryOf other := by
  unfold entryOf
  simp only [Std.ExtTreeMap.get?_eq_getElem?, Std.ExtTreeMap.getElem?_insert,
    Std.compare_eq_iff_eq]
  split <;> rfl

/-- Seeing an operation counts at one address, by one. -/
@[simp] theorem opsSeen_recordSeen (manager : ReputationManager) (address other : Address) :
    (manager.recordSeen address).opsSeen other =
      if address = other then manager.opsSeen other + 1 else manager.opsSeen other := by
  unfold opsSeen recordSeen
  rw [entryOf_insert]
  split
  · next h => rw [h]
  · rfl

/-- Seeing an operation is not including it. -/
@[simp] theorem opsIncluded_recordSeen (manager : ReputationManager)
    (address other : Address) :
    (manager.recordSeen address).opsIncluded other = manager.opsIncluded other := by
  unfold opsIncluded recordSeen
  rw [entryOf_insert]
  split
  · next h => rw [h]
  · rfl

/-- Including an operation is not seeing it. -/
@[simp] theorem opsSeen_recordIncluded (manager : ReputationManager)
    (address other : Address) :
    (manager.recordIncluded address).opsSeen other = manager.opsSeen other := by
  unfold opsSeen recordIncluded
  rw [entryOf_insert]
  split
  · next h => rw [h]
  · rfl

@[simp] theorem config_recordSeen (manager : ReputationManager) (address : Address) :
    (manager.recordSeen address).config = manager.config := rfl

/-- The status of an address in terms of its counters. -/
theorem status_eq (manager : ReputationManager) (address : Address) :
    manager.status address = (manager.entryOf address).status manager.config := by
  unfold status entryOf
  cases manager.entries.get? address with
  | none => rfl
  | some entry => rfl

end ReputationManager

end Bunzo
