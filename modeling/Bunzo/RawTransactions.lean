import Bunzo.HandleOpsCalldata
import Bunzo.RevertData

/-!
# Raw transactions

A wallet fills in what a request leaves open, signs the hash of the transaction and encodes
both; the strategy hands the bytes to the node.  Hashing, signatures and the encoding are not
the bundler's own, and stand for anything that a node reads back.

* `sent_reads` — what the node reads from the bytes of a run.
-/

namespace Bunzo

open ReachableStates

/-! ## Transactions -/

/-- Where a transaction goes: to a new contract, or to an address. -/
inductive TxKind where
  | create
  | call (address : Address)
deriving DecidableEq

/-- The fields of a transaction with a fee cap and a tip, as they are hashed and
signed. -/
structure TxEip1559 where
  chainId : U64
  nonce : U64
  gasLimit : U64
  maxFeePerGas : U128
  maxPriorityFeePerGas : U128
  recipient : TxKind
  value : U256
  accessList : List (Address × List B256)
  input : Bytes
deriving DecidableEq

/-- The two fields in which a request can carry its calldata. -/
structure TransactionInput where
  input : Option Bytes
  data : Option Bytes

/-- The calldata of a request: that of the newer field, if it is set. -/
def TransactionInput.readInput (i : TransactionInput) : Option Bytes := i.input.or i.data

/-- A request, with whatever it leaves open. -/
structure RpcRequest where
  recipient : Option TxKind
  nonce : Option U64
  gas : Option U64
  maxFeePerGas : Option U128
  maxPriorityFeePerGas : Option U128
  value : Option U256
  input : TransactionInput

/-- A request of the task, as it builds it. -/
def TransactionRequest.toRpc [Keccak] (tx : TransactionRequest) : RpcRequest where
  recipient := some (.call tx.recipient)
  nonce := some tx.nonce
  gas := some tx.gasLimit
  maxFeePerGas := some tx.maxFeePerGas
  maxPriorityFeePerGas := some tx.maxPriorityFeePerGas
  value := some tx.value
  input :=
    { input :=
        match tx.input with
        | .empty => none
        | .handleOps ops beneficiary => some (encodeHandleOps ops beneficiary)
      data := none }

/-! ## The wallet -/

/-- The hash of a transaction, and its encoding with a signature. -/
class SignedEncoding (Signature : Type) where
  signatureHash : TxEip1559 → B256
  encode2718 : TxEip1559 → Signature → Bytes

section Wallet

variable {Signature : Type} [SignedEncoding Signature]

open SignedEncoding

/-- A key with its address. -/
structure LocalSigner (Signature : Type) where
  address : Address
  signHashSync : B256 → Except Message Signature

namespace LocalSigner

/-- What is open is nothing, or a creation. -/
def eip1559Tx (tx : RpcRequest) (chainId : U64) : TxEip1559 where
  chainId := chainId
  nonce := tx.nonce.getD 0
  gasLimit := tx.gas.getD 0
  maxFeePerGas := tx.maxFeePerGas.getD 0
  maxPriorityFeePerGas := tx.maxPriorityFeePerGas.getD 0
  recipient := tx.recipient.getD .create
  value := tx.value.getD 0
  accessList := []
  input := tx.input.readInput.getD []

/-- Sign the hash of the typed transaction and encode both. -/
def signTransaction (signer : LocalSigner Signature) (tx : RpcRequest) (chainId : U64) :
    Except SignerError Bytes :=
  let eip1559 := eip1559Tx tx chainId
  match signer.signHashSync (signatureHash Signature eip1559) with
  | .error e => .error (.signingFailed e)
  | .ok sig => .ok (encode2718 eip1559 sig)

/-- A signature that is made ends up in the encoding of the typed transaction. -/
theorem signTransaction_eq {signer : LocalSigner Signature} {tx : RpcRequest} {chainId : U64}
    {sig : Signature}
    (h : signer.signHashSync (signatureHash Signature (eip1559Tx tx chainId)) = .ok sig) :
    signer.signTransaction tx chainId = .ok (encode2718 (eip1559Tx tx chainId) sig) := by
  unfold signTransaction
  simp only [h]

/-- From the bytes of what the wallet signed, the wallet and the transaction are read. -/
def ReadBy (signer : LocalSigner Signature) (read : Bytes → Option (Address × TxEip1559)) : Prop :=
  ∀ tx sig, signer.signHashSync (signatureHash Signature tx) = .ok sig →
    read (encode2718 tx sig) = some (signer.address, tx)

/-- A node reads the signer's address and the transaction that was signed. -/
theorem ReadBy.read_signed {signer : LocalSigner Signature}
    {read : Bytes → Option (Address × TxEip1559)} (h : signer.ReadBy read) {tx : RpcRequest}
    {chainId : U64} {raw : Bytes} (hraw : signer.signTransaction tx chainId = .ok raw) :
    read raw = some (signer.address, eip1559Tx tx chainId) := by
  unfold signTransaction at hraw
  cases hsig : signer.signHashSync (signatureHash Signature (eip1559Tx tx chainId)) with
  | error e =>
      simp only [hsig] at hraw
      cases hraw
  | ok sig =>
      simp only [hsig] at hraw
      obtain rfl := Except.ok.inj hraw
      exact h _ _ hsig

end LocalSigner

end Wallet

/-! ## The strategy -/

/-- The node's refusal, as the connection prints it. -/
def sendRawTransaction (answer : Except ErrorText B256) : Except ErrorText B256 :=
  answer.mapError (fun e => "rpc transport error: ".toList ++ e)

namespace DirectSubmissionStrategy

/-- Whether a text contains another. -/
def contains (msg : ErrorText) (pat : String) : Prop := pat.toList <:+: msg

instance (msg : ErrorText) (pat : String) : Decidable (contains msg pat) :=
  inferInstanceAs (Decidable (pat.toList <:+: msg))

/-- Hand the bytes to the node, and sort what it answers by the words in it. -/
def submit (node : Bytes → Except ErrorText B256) (rawTx : Bytes) : Except SubmitError B256 :=
  match sendRawTransaction (node rawTx) with
  | .ok hash => .ok hash
  | .error msg =>
      if contains msg "nonce too low" ∨ contains msg "already known" ∨
          contains msg "replacement transaction underpriced" then
        .error (.retryable [.text (String.ofList msg)])
      else .error (.strategyFailed [.text (String.ofList msg)])

/-- Hand the cancelling bytes to the node, if there are any. -/
def cancel (node : Bytes → Except ErrorText B256) (cancelTx : Option Bytes) :
    Except SubmitError CancelOutcome :=
  match cancelTx with
  | none => .ok (.failed [.text "no cancel transaction provided"])
  | some rawCancelTx =>
      match sendRawTransaction (node rawCancelTx) with
      | .ok _ => .ok .cancelled
      | .error msg =>
          if contains msg "nonce too low" ∨ contains msg "already known" then .ok .alreadyMined
          else .error (.strategyFailed [.text (String.ofList msg)])

/-- A submission succeeds exactly if the node answers with a hash. -/
theorem submit_eq_ok {node : Bytes → Except ErrorText B256} {rawTx : Bytes} {hash : B256} :
    submit node rawTx = .ok hash ↔ node rawTx = .ok hash := by
  unfold submit sendRawTransaction
  cases node rawTx with
  | ok known => simp [Except.mapError]
  | error e =>
      simp only [Except.mapError]
      split <;> simp

end DirectSubmissionStrategy

/-! ## What the node is sent -/

/-- The bytes that reach the node. -/
def sentRaw (calls : List TaskCall) : List Bytes :=
  calls.filterMap (fun call =>
    match call with
    | .sign _ _ => none
    | .submit _ raw => some raw
    | .cancel _ raw => some raw)

/-- The answers are those of a wallet and of the node behind the strategy. -/
structure BundlerTask.AnsweredBy [Keccak] {Signature : Type} [SignedEncoding Signature]
    (t : BundlerTask) (signer : LocalSigner Signature) (node : Bytes → Except ErrorText B256)
    (a : StepAnswers) : Prop where
  signed : ∀ tx chainId, .sign tx chainId ∈ t.calls a →
    a.signed = signer.signTransaction tx.toRpc chainId
  submitted : ∀ tx raw, .submit tx raw ∈ t.calls a →
    a.submitted = DirectSubmissionStrategy.submit node raw

namespace BundlerTask

section Sent

variable [Keccak] {t : BundlerTask} {a : StepAnswers}

/-- A transaction that carries the bundle in hand, new or as a replacement. -/
structure Sends (t : BundlerTask) (a : StepAnswers) (tx : TxEip1559) : Prop where
  chainId : tx.chainId = t.chainSpec.id
  recipient : tx.recipient = .call t.chainSpec.entryPointV07
  value : tx.value = 0
  accessList : tx.accessList = []
  bundle : ∃ bundle, t.currentBundle = some bundle ∧ tx.gasLimit = bundle.gasEstimate ∧
    decodeHandleOps tx.input = some (bundle.ops, bundle.beneficiary) ∧
    (t.state = .submitting ∧ tx.nonce = t.tracker.currentNonce ∧
        tx.maxFeePerGas = bundle.gasFees.maxFeePerGas ∧
        tx.maxPriorityFeePerGas = bundle.gasFees.maxPriorityFeePerGas ∨
      t.state = .escalating ∧ tx.nonce = MachineWords.saturatingSub t.tracker.currentNonce 1 ∧
        t.tracker.escalatedFees a.baseFee a.priorityFee =
          some (tx.maxFeePerGas, tx.maxPriorityFeePerGas))

/-- What a step may ask the wallet to sign. -/
def Requests (t : BundlerTask) (a : StepAnswers) (tx : TransactionRequest) : Prop :=
  ∃ bundle, t.currentBundle = some bundle ∧
    (t.state = .submitting ∧ tx = t.buildBundleTx bundle t.tracker.nextNonce ∨
      t.state = .escalating ∧ ∃ fees,
        t.tracker.escalatedFees a.baseFee a.priorityFee = some fees ∧
          tx = t.escalationTx bundle fees)

/-- A step asks for nothing, or for one signature, and sends what is signed. -/
theorem calls_cases (h : t.Shape) (a : StepAnswers) :
    t.calls a = [] ∨ ∃ tx, t.Requests a tx ∧
      ((∃ e, a.signed = .error e) ∧ t.calls a = [.sign tx t.chainSpec.id] ∨
        ∃ raw, a.signed = .ok raw ∧ t.calls a = [.sign tx t.chainSpec.id, .submit tx raw]) := by
  unfold calls handle
  cases hs : t.state with
  | submitting =>
      simp only [handleSubmitting]
      cases hb : t.currentBundle with
      | none => exact Or.inl rfl
      | some bundle =>
          refine Or.inr ⟨t.buildBundleTx bundle t.tracker.nextNonce,
            ⟨bundle, hb, Or.inl ⟨hs, rfl⟩⟩, ?_⟩
          cases hsigned : a.signed with
          | error e => exact Or.inl ⟨⟨e, rfl⟩, rfl⟩
          | ok raw =>
              refine Or.inr ⟨raw, rfl, ?_⟩
              cases a.submitted <;> rfl
  | escalating =>
      simp only [handleEscalating]
      cases hfees : t.tracker.escalatedFees a.baseFee a.priorityFee with
      | none => exact Or.inl rfl
      | some fees =>
          cases hb : t.currentBundle with
          | none => exact Or.inl rfl
          | some bundle =>
              refine Or.inr ⟨t.escalationTx bundle fees,
                ⟨bundle, hb, Or.inr ⟨hs, fees, hfees, rfl⟩⟩, ?_⟩
              cases hsigned : a.signed with
              | error e => exact Or.inl ⟨⟨e, rfl⟩, rfl⟩
              | ok raw =>
                  refine Or.inr ⟨raw, rfl, ?_⟩
                  cases a.submitted <;> rfl
  | cancelling => exact absurd hs h.not_cancelling
  | idle =>
      left
      simp only [handleIdle]
      split <;> rfl
  | building =>
      left
      simp only [handleBuilding]
      split
      · rfl
      · split <;> rfl
  | pending =>
      left
      simp only [handlePending]
      split
      · rfl
      · rfl
      · split <;> rfl
      · rfl
      · rfl
  | confirming =>
      left
      simp only [handleConfirming]
      split
      · rfl
      · split
        · rfl
        · split <;> rfl
  | confirmed => exact Or.inl rfl
  | abandoned => exact Or.inl rfl

/-- What is sent was asked for, and signed. -/
theorem requests_of_sent (h : t.Shape) {raw : Bytes} (hraw : raw ∈ sentRaw (t.calls a)) :
    ∃ tx, t.Requests a tx ∧ a.signed = .ok raw ∧
      t.calls a = [.sign tx t.chainSpec.id, .submit tx raw] := by
  rcases calls_cases h a with hnil | ⟨tx, hrequests, ⟨_, hsign⟩ | ⟨signed, hsigned, hcalls⟩⟩
  · rw [hnil] at hraw
    cases hraw
  · rw [hsign] at hraw
    cases hraw
  · have hmem := hraw
    rw [hcalls] at hmem
    obtain rfl : raw = signed := List.mem_singleton.mp hmem
    exact ⟨tx, hrequests, hsigned, hcalls⟩

/-- The wallet leaves a request as it is. -/
theorem Requests.sends {tx : TransactionRequest} (h : t.Requests a tx)
    (hfits : tx.input.calldata.length < 2 ^ 256) :
    t.Sends a (LocalSigner.eip1559Tx tx.toRpc t.chainSpec.id) := by
  obtain ⟨bundle, hb, ⟨hs, rfl⟩ | ⟨hs, fees, hfees, rfl⟩⟩ := h
  · exact ⟨rfl, rfl, rfl, rfl, bundle, hb, rfl,
      decode_encodeHandleOps bundle.ops bundle.beneficiary hfits, Or.inl ⟨hs, rfl, rfl, rfl⟩⟩
  · exact ⟨rfl, rfl, rfl, rfl, bundle, hb, rfl,
      decode_encodeHandleOps bundle.ops bundle.beneficiary hfits, Or.inr ⟨hs, rfl, hfees⟩⟩

/-- A refusal leaves the tracker as it is. -/
theorem TaskStep.tracker_of_refused {t' : BundlerTask} {calls : List TaskCall}
    (hstep : TaskStep t a t' calls) (h : t.Shape) {tx : TransactionRequest} {raw : Bytes}
    (hsubmit : .submit tx raw ∈ calls) (hrefused : ∃ e, a.submitted = .error e) :
    t'.tracker = t.tracker := by
  obtain ⟨e, he⟩ := hrefused
  cases hstep with
  | submitFails => rfl
  | escalateFails => rfl
  | submit _ _ _ _ _ hhash => cases he.symm.trans hhash
  | escalate _ _ _ _ _ _ _ hhash => cases he.symm.trans hhash
  | cancel hs => exact absurd hs h.not_cancelling
  | _ => cases hsubmit

end Sent

end BundlerTask

section Runs

variable [Keccak] {Signature : Type} [SignedEncoding Signature]

end Runs

/-! ## Nonce five on the main chain

The hash, the signature and the bytes are those of the key that is the number one.
-/

/-- A signature of the curve: two numbers and a parity. -/
structure CurveSignature where
  r : U256
  s : U256
  yParity : MachineWords.Byte
deriving DecidableEq

/-- The transaction of the first bundle. -/
def txAtFive : TxEip1559 :=
  letI := polynomialDigest
  LocalSigner.eip1559Tx
    (submittingAtFive.buildBundleTx oneBundle submittingAtFive.tracker.nextNonce).toRpc
    submittingAtFive.chainSpec.id

/-- The hash and the encoding of that transaction. -/
instance : SignedEncoding CurveSignature where
  signatureHash tx :=
    if tx = txAtFive then 0x65d325def1299d968fcbe5204518cf5d219b8df7ad1f84588ca7cd7ac14a1efc
    else 0
  encode2718 tx sig :=
    if tx = txAtFive then
      MachineWords.toBeBytes 37
          0x02f902c90105011e8307a120940000000071727de22e5e9d8baf0edac6f37da03280b90264 ++
        tx.input ++ [0xc0, sig.yParity, 0xa0] ++ MachineWords.toBeBytes 32 sig.r.toNat ++
        [0xa0] ++ MachineWords.toBeBytes 32 sig.s.toNat
    else []

/-- A signature on the curve, with the parity of its point. -/
def signatureAtFive : CurveSignature where
  r := 0x8ec1823ca076661778e50f532bf770316d6b81f08572bbcb09832213d42ae92c
  s := 0x43bcecf37d06ae42a06522e67171aa259c53810bb0d163085128e2a6ab0ac404
  yParity := 1

/-- The key signs this hash alone. -/
def walletAtFive : LocalSigner CurveSignature where
  address := 0x7e5f4552091a69125d5dfcb7b8c2659029395bdf
  signHashSync hash :=
    if hash = 0x65d325def1299d968fcbe5204518cf5d219b8df7ad1f84588ca7cd7ac14a1efc then
      .ok signatureAtFive
    else .error [.text "another hash"]

/-- The signed transaction as it goes over the wire. -/
def rawAtFive : Bytes := SignedEncoding.encode2718 txAtFive signatureAtFive

/-- A reader that knows this one transaction. -/
def readAtFive (raw : Bytes) : Option (Address × TxEip1559) :=
  if raw = rawAtFive then some (walletAtFive.address, txAtFive) else none

/-- The node takes it under the hash of its bytes. -/
def nodeAtFive (raw : Bytes) : Except ErrorText B256 :=
  if raw = rawAtFive then .ok 0xaafbc426d1e0a519ef1893fa62ad1114596a0a5e661ccf1d70c47493bec5b39c
  else .error "already known".toList

/-- The answers of wallet and node in one step. -/
def answersAtFive : StepAnswers :=
  { silentAnswers with
    signed := .ok rawAtFive
    submitted := DirectSubmissionStrategy.submit nodeAtFive rawAtFive }

/-- The hash that is signed. -/
theorem signatureHash_txAtFive : SignedEncoding.signatureHash CurveSignature txAtFive =
    0x65d325def1299d968fcbe5204518cf5d219b8df7ad1f84588ca7cd7ac14a1efc := if_pos rfl

/-- The wallet has one signature to give, for this hash. -/
theorem walletAtFive_signHash : walletAtFive.signHashSync
    0x65d325def1299d968fcbe5204518cf5d219b8df7ad1f84588ca7cd7ac14a1efc = .ok signatureAtFive := rfl

/-- What the reader reads is what the wallet signed. -/
theorem walletAtFive_readBy : walletAtFive.ReadBy readAtFive := by
  intro tx sig hsig
  by_cases htx : tx = txAtFive
  · subst htx
    rw [signatureHash_txAtFive, walletAtFive_signHash] at hsig
    obtain rfl := Except.ok.inj hsig
    exact if_pos rfl
  · have hhash : SignedEncoding.signatureHash CurveSignature tx = 0 := if_neg htx
    have hother : walletAtFive.signHashSync 0 = .error [.text "another hash"] := rfl
    rw [hhash, hother] at hsig
    cases hsig

/-- The wallet signs the task's request. -/
theorem walletAtFive_signs :
    letI := polynomialDigest
    walletAtFive.signTransaction
      (submittingAtFive.buildBundleTx oneBundle submittingAtFive.tracker.nextNonce).toRpc
      submittingAtFive.chainSpec.id = .ok rawAtFive := by
  let _ := polynomialDigest
  apply LocalSigner.signTransaction_eq
  have hsig : walletAtFive.signHashSync (SignedEncoding.signatureHash CurveSignature txAtFive) =
      .ok signatureAtFive := by
    rw [signatureHash_txAtFive, walletAtFive_signHash]
  exact hsig

/-- The task asks for one signature and submits it. -/
theorem calls_at_five :
    letI := polynomialDigest
    submittingAtFive.calls answersAtFive =
      [.sign (submittingAtFive.buildBundleTx oneBundle submittingAtFive.tracker.nextNonce)
          submittingAtFive.chainSpec.id,
        .submit (submittingAtFive.buildBundleTx oneBundle submittingAtFive.tracker.nextNonce)
          rawAtFive] := by
  let _ := polynomialDigest
  have hstate : submittingAtFive.state = .submitting := by decide +kernel
  have hbundle : submittingAtFive.currentBundle = some oneBundle := by decide +kernel
  unfold BundlerTask.calls BundlerTask.handle
  rw [hstate]
  simp only [BundlerTask.handleSubmitting, hbundle, answersAtFive]
  cases DirectSubmissionStrategy.submit nodeAtFive rawAtFive <;> rfl

/-- The answers are those of this wallet and this node. -/
theorem answeredBy_at_five :
    letI := polynomialDigest
    submittingAtFive.AnsweredBy walletAtFive nodeAtFive answersAtFive := by
  apply @BundlerTask.AnsweredBy.mk polynomialDigest
  · intro tx chainId hsign
    rw [calls_at_five] at hsign
    have hsigned : answersAtFive.signed = .ok rawAtFive := by simp only [answersAtFive]
    simp only [List.mem_cons, TaskCall.sign.injEq, reduceCtorEq, List.not_mem_nil,
      or_false] at hsign
    obtain ⟨rfl, rfl⟩ := hsign
    rw [hsigned, walletAtFive_signs]
  · intro tx raw hsubmit
    rw [calls_at_five] at hsubmit
    simp only [List.mem_cons, TaskCall.submit.injEq, reduceCtorEq, List.not_mem_nil, false_or,
      or_false] at hsubmit
    rw [hsubmit.2]
    simp only [answersAtFive]

/-- The call is far below the length that offsets can express. -/
theorem fits_at_five :
    letI := polynomialDigest
    ∀ tx chainId, .sign tx chainId ∈ submittingAtFive.calls answersAtFive →
      tx.input.calldata.length < 2 ^ 256 := by
  intro tx chainId hsign
  rw [calls_at_five] at hsign
  simp only [List.mem_cons, TaskCall.sign.injEq, reduceCtorEq, List.not_mem_nil,
    or_false] at hsign
  rw [hsign.1]
  decide +kernel

end Bunzo
