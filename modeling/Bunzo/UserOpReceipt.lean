import Bunzo.ChainWatcher
import Bunzo.EstimateGas

/-!
# Receipts of operations

A client asks what became of an operation.  The handler looks for an event with
its hash in the last blocks of the chain, reads the topics and the data of the
first log by position, and adds the receipt of the transaction.

* `getUserOperationReceipt` — the handler.
* `decode_toLog` — the positions that are read are those of the event.
* `receipt_spec` — what the handler answers, for any chain and any hash.
-/

namespace Bunzo

open MachineWords

/-! ## The handler -/

/-- A log as the node reports it. -/
structure NodeLog where
  address : Address
  log : Log
  transactionHash : Option B256

/-- A filter that asks for a second topic, too. -/
structure TopicFilter extends Filter where
  topic1 : B256

/-- What the handler asks the node for; receipts are of any type. -/
structure ReceiptProvider (R : Type) where
  getBlockNumber : Except ProviderError U64
  getLogs : TopicFilter → Except ProviderError (List NodeLog)
  getTransactionReceipt : B256 → Except ProviderError (Option R)

/-- How receipts are turned into values of the answer; that may fail. -/
structure ReceiptValues (R J : Type) where
  toValue : R → Option J
  null : J

structure UserOperationReceipt (J : Type) where
  userOpHash : B256
  sender : Address
  nonce : U256
  paymaster : Option Address
  actualGasCost : U256
  actualGasUsed : U256
  success : Bool
  reason : String
  receipt : J

/-- The bytes from one position to another. -/
def byteSlice (data : Bytes) (first last : Nat) : Bytes := (data.drop first).take (last - first)

/-- The last twenty bytes of a topic. -/
def addressOfTopic (topic : B256) : Address :=
  BitVec.ofNat 160 (ofBeBytes ((toBeBytes 32 topic.toNat).drop 12))

/-- A word of the data. -/
def wordOfSlice (bytes : Bytes) : U256 := BitVec.ofNat 256 (ofBeBytes bytes)

/-- What a log says of an operation: sender and paymaster by its topics, the other values
by its data; zeros stand for what is missing. -/
def decodeEventLog (log : Log) : Address × Option Address × U256 × Bool × U256 × U256 :=
  let sender :=
    match log.topics[2]? with
    | some topic => addressOfTopic topic
    | none => 0
  let paymaster :=
    match log.topics[3]? with
    | some topic => if addressOfTopic topic = 0 then none else some (addressOfTopic topic)
    | none => none
  let data := log.data
  let (nonce, success, actualGasCost, actualGasUsed) :=
    if 128 ≤ data.length then
      (wordOfSlice (byteSlice data 0 32), data.getD 63 0 != 0, wordOfSlice (byteSlice data 64 96),
        wordOfSlice (byteSlice data 96 128))
    else
      (0, false, 0, 0)
  (sender, paymaster, nonce, success, actualGasCost, actualGasUsed)

section Handler

variable [Keccak] {R J : Type}

/-- The events of an operation, from a thousand blocks before the head on. -/
def EthApiImpl.receiptFilter (api : EthApiImpl) (hash : B256) (currentBlock : U64) :
    TopicFilter where
  address := api.chainSpec.entryPointV07
  eventSignature := keccak256 userOperationEventSignature
  topic1 := hash
  fromBlock := saturatingSub currentBlock 1000
  toBlock := currentBlock

/-- The answer to a request for a receipt.  The provider is not there in every
configuration. -/
def EthApiImpl.getUserOperationReceipt (api : EthApiImpl) (provider : Option (ReceiptProvider R))
    (values : ReceiptValues R J) (hash : B256) :
    Except HandlerError (Option (UserOperationReceipt J)) :=
  match provider with
  | none => .ok none
  | some provider =>
      match provider.getBlockNumber with
      | .error e => .error (.internal e.display)
      | .ok currentBlock =>
          match provider.getLogs (api.receiptFilter hash currentBlock) with
          | .error e => .error (.internal e.display)
          | .ok [] => .ok none
          | .ok (log :: _) =>
              let (sender, paymaster, nonce, success, actualGasCost, actualGasUsed) :=
                decodeEventLog log.log
              let txHash := log.transactionHash.getD 0
              let answer (txReceipt : Option R) : UserOperationReceipt J := {
                userOpHash := hash
                sender := sender
                nonce := nonce
                paymaster := paymaster
                actualGasCost := actualGasCost
                actualGasUsed := actualGasUsed
                success := success
                reason := ""
                receipt :=
                  match txReceipt with
                  | some r => (values.toValue r).getD values.null
                  | none => values.null }
              if txHash ≠ 0 then
                match provider.getTransactionReceipt txHash with
                | .error e => .error (.internal e.display)
                | .ok txReceipt => .ok (some (answer txReceipt))
              else
                .ok (some (answer none))

end Handler

/-! ## What is read from the log of an event -/

section Decoding

variable [Keccak]

omit [Keccak] in
/-- An address fills the last bytes of its topic. -/
theorem addressOfTopic_setWidth (a : Address) : addressOfTopic (a.setWidth 256) = a := by
  have hnat : (a.setWidth 256).toNat = a.toNat := by
    rw [BitVec.toNat_setWidth, Nat.mod_eq_of_lt (a.isLt.trans (by decide))]
  have hpow : 256 ^ 20 = 2 ^ 160 := by decide
  have hlt : a.toNat < 256 ^ 20 := by
    rw [hpow]
    exact a.isLt
  have hsplit : toBeBytes 32 a.toNat = List.replicate 12 0 ++ toBeBytes 20 a.toNat :=
    ByteCosts.toBeBytes_of_lt 12 20 a.toNat hlt
  unfold addressOfTopic
  rw [hnat, hsplit, List.drop_left' List.length_replicate]
  exact ofNat_ofBeBytes_toBeBytes (n := 20) rfl a

omit [Keccak] in
theorem wordOfSlice_encodeWord (x : U256) : wordOfSlice (encodeWord x.toNat) = x :=
  ofNat_ofBeBytes_toBeBytes (n := 32) rfl x

omit [Keccak] in
/-- The last byte of a truth value tells it. -/
theorem getLast_encodeWord_toNat (b : Bool) : ((encodeWord b.toNat).getD 31 0 != 0) = b := by
  cases b <;> rfl

/-- **What is read.**  The positions in the log of an event hold the values of the event; a
paymaster of zero is none. -/
theorem decode_toLog (ev : UserOperationEvent) :
    decodeEventLog ev.toLog =
      (ev.sender, if ev.paymaster = 0 then none else some ev.paymaster, ev.nonce, ev.success,
        ev.actualGasCost, ev.actualGasUsed) := by
  have hdata : ev.toLog.data = encodeWord ev.nonce.toNat ++ (encodeWord ev.success.toNat ++
      (encodeWord ev.actualGasCost.toNat ++ encodeWord ev.actualGasUsed.toNat)) := by
    change encodeTuple _ = _
    simp [encodeTuple, encodeHeads, Component.tail]
  have hword (x : Nat) := length_encodeWord x
  have hlength : ev.toLog.data.length = 128 := by
    rw [hdata]
    simp [hword]
  have hnonce : byteSlice ev.toLog.data 0 32 = encodeWord ev.nonce.toNat := by
    unfold byteSlice
    rw [hdata, List.drop_zero, List.take_left' (hword _)]
  have hcost : byteSlice ev.toLog.data 64 96 = encodeWord ev.actualGasCost.toNat := by
    unfold byteSlice
    rw [hdata, ← List.append_assoc, List.drop_left' (by simp [hword]), List.take_left' (hword _)]
  have hused : byteSlice ev.toLog.data 96 128 = encodeWord ev.actualGasUsed.toNat := by
    unfold byteSlice
    rw [hdata, ← List.append_assoc, ← List.append_assoc, List.drop_left' (by simp [hword]),
      List.take_of_length_le (by simp [hword])]
  have hsuccess : (ev.toLog.data.getD 63 0 != 0) = ev.success := by
    rw [hdata, List.getD_append_right _ _ _ _ (by simp [hword]), hword,
      List.getD_append _ _ _ _ (by simp [hword])]
    exact getLast_encodeWord_toNat ev.success
  have hsender : ev.toLog.topics[2]? = some (ev.sender.setWidth 256) := rfl
  have hpaymaster : ev.toLog.topics[3]? = some (ev.paymaster.setWidth 256) := rfl
  unfold decodeEventLog
  simp only [hsender, hpaymaster, hlength, hnonce, hcost, hused, hsuccess, addressOfTopic_setWidth,
    wordOfSlice_encodeWord, Nat.le_refl, if_true]

end Decoding

/-! ## Chains that hold the events -/

/-- A handled operation: its event, and the transaction that it was in. -/
structure MinedEvent where
  event : UserOperationEvent
  transactionHash : B256

def MinedEvent.toNodeLog [Keccak] (mined : MinedEvent) (entryPoint : Address) : NodeLog where
  address := entryPoint
  log := mined.event.toLog
  transactionHash := some mined.transactionHash

/-- The numbers from one block to another, both among them. -/
def blockRange (first last : U64) : List U64 :=
  (List.range' first.toNat (last.toNat + 1 - first.toNat)).map (BitVec.ofNat 64)

theorem mem_blockRange {first last n : U64} :
    n ∈ blockRange first last ↔ first ≤ n ∧ n ≤ last := by
  have hlast := last.isLt
  have hmem (k : Nat) : k ∈ List.range' first.toNat (last.toNat + 1 - first.toNat) ↔
      first.toNat ≤ k ∧ k ≤ last.toNat := by
    rw [List.mem_range'_1]
    omega
  unfold blockRange
  rw [List.mem_map]
  refine ⟨?_, ?_⟩
  · rintro ⟨k, hk, rfl⟩
    obtain ⟨hfirst, hle⟩ := (hmem k).mp hk
    rw [BitVec.le_def, BitVec.le_def, BitVec.toNat_ofNat, Nat.mod_eq_of_lt (by omega)]
    exact ⟨hfirst, hle⟩
  · rintro ⟨hfirst, hle⟩
    refine ⟨n.toNat, (hmem _).mpr ⟨hfirst, hle⟩, ?_⟩
    rw [BitVec.ofNat_toNat, BitVec.setWidth_eq]

/-- Whether a log is asked for, wherever it stands. -/
def TopicFilter.Asks (filter : TopicFilter) (log : NodeLog) : Bool :=
  (log.address == filter.address && log.log.topics[0]? == some filter.eventSignature) &&
    log.log.topics[1]? == some filter.topic1

/-- A node that has all blocks and never fails. -/
structure ArchiveNode (R : Type) where
  head : U64
  logs : U64 → List NodeLog
  receipts : B256 → Option R

namespace ArchiveNode

variable {R J : Type}

def provider (node : ArchiveNode R) : ReceiptProvider R where
  getBlockNumber := .ok node.head
  getLogs filter :=
    .ok (((blockRange filter.fromBlock filter.toBlock).flatMap node.logs).filter filter.Asks)
  getTransactionReceipt txHash := .ok (node.receipts txHash)

/-- The logs that the entry point left in a block under the signature are those of its
events; other contracts and other signatures may have left more. -/
def Emits [Keccak] (node : ArchiveNode R) (entryPoint : Address)
    (events : U64 → List MinedEvent) : Prop :=
  ∀ n, (node.logs n).filter (fun log => log.address == entryPoint &&
    log.log.topics[0]? == some (keccak256 userOperationEventSignature)) =
      (events n).map (fun mined => mined.toNodeLog entryPoint)

/-- What a client learns about a handled operation. -/
def receiptOf (node : ArchiveNode R) (values : ReceiptValues R J) (mined : MinedEvent) :
    UserOperationReceipt J where
  userOpHash := mined.event.userOpHash
  sender := mined.event.sender
  nonce := mined.event.nonce
  paymaster := if mined.event.paymaster = 0 then none else some mined.event.paymaster
  actualGasCost := mined.event.actualGasCost
  actualGasUsed := mined.event.actualGasUsed
  success := mined.event.success
  reason := ""
  receipt :=
    if mined.transactionHash = 0 then values.null
    else ((node.receipts mined.transactionHash).bind values.toValue).getD values.null

end ArchiveNode

/-! ## What a client learns -/

section Answers

variable [Keccak] {R J : Type} {api : EthApiImpl} {node : ArchiveNode R}
  {events : U64 → List MinedEvent}

/-- The logs that the node answers with are those of the events of the hash, in the order
of the chain. -/
theorem ArchiveNode.getLogs_eq (h : node.Emits api.chainSpec.entryPointV07 events) (hash : B256) :
    node.provider.getLogs (api.receiptFilter hash node.head) =
      .ok (((((blockRange (saturatingSub node.head 1000) node.head).flatMap events).filter
        (fun mined => mined.event.userOpHash = hash)).map
          (fun mined => mined.toNodeLog api.chainSpec.entryPointV07))) := by
  have hasks (numbers : List U64) :
      (numbers.flatMap node.logs).filter (api.receiptFilter hash node.head).Asks =
        ((numbers.flatMap events).filter (fun mined => mined.event.userOpHash = hash)).map
          (fun mined => mined.toNodeLog api.chainSpec.entryPointV07) := by
    induction numbers with
    | nil => rfl
    | cons n numbers ih =>
        have hblock : (node.logs n).filter (api.receiptFilter hash node.head).Asks =
            ((events n).filter (fun mined => mined.event.userOpHash = hash)).map
              (fun mined => mined.toNodeLog api.chainSpec.entryPointV07) := by
          -- The second topic is asked for among the logs of the entry point.
          have hsplit := List.filter_filter
            (p := fun log : NodeLog => log.log.topics[1]? == some hash)
            (q := fun log : NodeLog => log.address == api.chainSpec.entryPointV07 &&
              log.log.topics[0]? == some (keccak256 userOperationEventSignature))
            (l := node.logs n)
          rw [h n, List.filter_map] at hsplit
          have htopic : (fun log : NodeLog => log.log.topics[1]? == some hash) ∘
              (fun mined : MinedEvent => mined.toNodeLog api.chainSpec.entryPointV07) =
                fun mined => decide (mined.event.userOpHash = hash) := by
            funext mined
            change (some mined.event.userOpHash == some hash) = _
            rw [Option.some_beq_some]
            rfl
          rw [htopic] at hsplit
          rw [hsplit]
          congr 1
          funext log
          exact Bool.and_comm _ _
        rw [List.flatMap_cons, List.flatMap_cons, List.filter_append, List.filter_append,
          List.map_append, hblock, ih]
  exact congrArg Except.ok (hasks _)

/-- **What a client learns.**  On any chain, the handler answers with the first event of the
hash that is in the head or one of the thousand blocks before it, each value as the entry
point emitted it; an operation that was handled earlier is answered as one that never was. -/
theorem EthApiImpl.receipt_spec (values : ReceiptValues R J) (hash : B256)
    (h : node.Emits api.chainSpec.entryPointV07 events) :
    let found := ((blockRange (saturatingSub node.head 1000) node.head).flatMap events).find?
      (fun mined => mined.event.userOpHash = hash)
    api.getUserOperationReceipt (some node.provider) values hash =
        .ok (found.map (node.receiptOf values)) ∧
      (found.isSome ↔ ∃ n mined, n ≤ node.head ∧ node.head.toNat ≤ n.toNat + 1000 ∧
        mined ∈ events n ∧ mined.event.userOpHash = hash) := by
  intro found
  refine ⟨?_, ?_⟩
  · have hfound : found = (((blockRange (saturatingSub node.head 1000) node.head).flatMap
        events).filter (fun mined => mined.event.userOpHash = hash)).head? :=
      List.head?_filter.symm
    have hlogs := ArchiveNode.getLogs_eq h hash
    have hnumber : node.provider.getBlockNumber = .ok node.head := rfl
    unfold EthApiImpl.getUserOperationReceipt
    simp only [hnumber, hlogs]
    rw [hfound]
    cases hevents : ((blockRange (saturatingSub node.head 1000) node.head).flatMap events).filter
      (fun mined => mined.event.userOpHash = hash) with
    | nil => rfl
    | cons mined rest =>
        have hhash : mined.event.userOpHash = hash := by
          have hmem : mined ∈ mined :: rest := List.mem_cons_self
          rw [← hevents, List.mem_filter] at hmem
          exact of_decide_eq_true hmem.2
        have hlog : decodeEventLog (mined.toNodeLog api.chainSpec.entryPointV07).log = _ :=
          decode_toLog mined.event
        have htx : (mined.toNodeLog api.chainSpec.entryPointV07).transactionHash =
          some mined.transactionHash := rfl
        rw [List.map_cons]
        simp only [hlog, htx, Option.getD_some, List.head?_cons, Option.map_some]
        unfold ArchiveNode.receiptOf
        by_cases hzero : mined.transactionHash = 0
        · simp [hzero, hhash]
        · have hreceipt : node.provider.getTransactionReceipt mined.transactionHash =
            .ok (node.receipts mined.transactionHash) := rfl
          simp only [hzero, ne_eq, not_false_iff, if_true, if_false, hreceipt, hhash]
          cases node.receipts mined.transactionHash <;> rfl
  · rw [List.find?_isSome]
    simp only [List.mem_flatMap, mem_blockRange, decide_eq_true_eq]
    have hfirst (n : U64) :
        saturatingSub node.head 1000 ≤ n ↔ node.head.toNat ≤ n.toNat + 1000 := by
      unfold saturatingSub
      split
      · next hle =>
          rw [BitVec.le_def] at hle
          rw [BitVec.le_def, BitVec.toNat_sub_of_le hle]
          exact Nat.sub_le_iff_le_add
      · next hlt =>
          rw [BitVec.le_def] at hlt
          have hbound : (1000 : U64).toNat = 1000 := rfl
          refine iff_of_true (Nat.zero_le _) ?_
          omega
    refine ⟨?_, ?_⟩
    · rintro ⟨mined, ⟨n, ⟨hge, hle⟩, hmem⟩, hhash⟩
      exact ⟨n, mined, hle, (hfirst n).mp hge, hmem, hhash⟩
    · rintro ⟨n, mined, hle, hge, hmem, hhash⟩
      exact ⟨mined, ⟨n, ⟨(hfirst n).mpr hge, hle⟩, hmem⟩, hhash⟩

end Answers

/-! ## One event -/

section OneEvent

/-- The event of an operation without a paymaster, in a transaction of its own. -/
def minedOnce : MinedEvent where
  event := {
    userOpHash := 0xF00
    sender := 1
    paymaster := 0
    nonce := 3
    success := true
    actualGasCost := 5000000
    actualGasUsed := 50000 }
  transactionHash := 0xAAA

/-- Block seven has the event. -/
def eventsOfSeven (n : U64) : List MinedEvent := if n = 7 then [minedOnce] else []

/-- A node at block nine; another contract leaves a log in each block. -/
def nodeAtNine [Keccak] : ArchiveNode Unit where
  head := 9
  logs n :=
    { address := 0xBEEF, log := { topics := [], data := [] }, transactionHash := none } ::
      (eventsOfSeven n).map (fun mined => mined.toNodeLog startedApi.chainSpec.entryPointV07)
  receipts _ := some ()

theorem nodeAtNine_emits [Keccak] :
    nodeAtNine.Emits startedApi.chainSpec.entryPointV07 eventsOfSeven := by
  intro n
  unfold nodeAtNine
  rw [List.filter_cons_of_neg (by simp), List.filter_eq_self]
  intro log hlog
  obtain ⟨mined, _, rfl⟩ := List.mem_map.mp hlog
  simp [MinedEvent.toNodeLog, UserOperationEvent.toLog]

theorem receipt_spec_of_seven :
    letI := polynomialDigest
    let values : ReceiptValues Unit Bool := { toValue := fun _ => some true, null := false }
    let found := ((blockRange (saturatingSub nodeAtNine.head 1000) nodeAtNine.head).flatMap
      eventsOfSeven).find? (fun mined => mined.event.userOpHash = 0xF00)
    startedApi.getUserOperationReceipt (some nodeAtNine.provider) values 0xF00 =
        .ok (found.map (nodeAtNine.receiptOf values)) ∧
      (found.isSome ↔ ∃ n mined, n ≤ nodeAtNine.head ∧
        nodeAtNine.head.toNat ≤ n.toNat + 1000 ∧ mined ∈ eventsOfSeven n ∧
          mined.event.userOpHash = 0xF00) :=
  let _ := polynomialDigest
  EthApiImpl.receipt_spec _ _ nodeAtNine_emits

end OneEvent

end Bunzo
