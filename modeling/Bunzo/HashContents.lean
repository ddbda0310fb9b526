import Bunzo.PackRoundTrip
import Bunzo.PoolContents

/-!
# What a hash stands for

The hash of an operation is a digest of a digest.  As far as the digest does not
collide, nothing in the two byte strings it is taken of is ambiguous: the parts of
the outer one have fixed lengths, the inner one is the encoding of a tuple, and the
optional parts of the packed operation can be told from its data.

* `abiEncode_inj` — packed operations are told apart by their encodings.
* `signedContent` — what the hash is about.
* `hash_binds_content` — equal hashes mean equal content, in the pool as well.
-/

namespace Bunzo

open FiniteIndices MachineWords

namespace PackedUserOperation

/-- The lengths of the byte strings fit the words they are encoded in. -/
structure LengthsFit (p : PackedUserOperation) : Prop where
  initCode : p.initCode.length < 2 ^ 256
  callData : p.callData.length < 2 ^ 256
  paymasterAndData : p.paymasterAndData.length < 2 ^ 256
  signature : p.signature.length < 2 ^ 256

/-- The components of the encoded tuple. -/
def components (p : PackedUserOperation) : List Component :=
  [.word p.sender.toNat, .word p.nonce.toNat, .bytes p.initCode, .bytes p.callData,
    .word p.accountGasLimits.toNat, .word p.preVerificationGas.toNat, .word p.gasFees.toNat,
    .bytes p.paymasterAndData, .bytes p.signature]

theorem components_fit {p : PackedUserOperation} (hp : p.LengthsFit) :
    ∀ c ∈ p.components, c.Fits := by
  have hsender := p.sender.isLt
  have hnonce := p.nonce.isLt
  have hlimits := p.accountGasLimits.isLt
  have hgas := p.preVerificationGas.isLt
  have hfees := p.gasFees.isLt
  unfold components
  simp only [List.forall_mem_cons, Component.Fits]
  exact ⟨by omega, hnonce, hp.initCode, hp.callData, hlimits, hgas, hfees, hp.paymasterAndData,
    hp.signature, by simp⟩

theorem components_alike (p q : PackedUserOperation) :
    List.Forall₂ Component.Alike p.components q.components := by
  unfold components
  simp only [List.forall₂_cons, Component.Alike, true_and, List.forall₂_nil_left_iff]

/-- **Encodings are unambiguous.** -/
theorem abiEncode_inj {p q : PackedUserOperation} (hp : p.LengthsFit) (hq : q.LengthsFit)
    (h : p.abiEncode = q.abiEncode) : p = q := by
  have htuple : encodeTuple p.components = encodeTuple q.components :=
    List.append_cancel_left h
  have hcomponents := encodeTuple_inj (components_alike p q) (components_fit hp)
    (components_fit hq) htuple
  unfold components at hcomponents
  simp only [List.cons.injEq, Component.word.injEq, Component.bytes.injEq, BitVec.toNat_inj,
    and_true] at hcomponents
  cases p
  cases q
  simpa using hcomponents

end PackedUserOperation

namespace UserOperation

/-- The byte strings of the operation fit into memory. -/
structure InMemory (uo : UserOperation) : Prop where
  callData : uo.callData.length < 2 ^ 64
  factoryData : uo.factoryData.length < 2 ^ 64
  paymasterData : uo.paymasterData.length < 2 ^ 64

/-- What the hash is about: all fields but the signature and the cache, and without
a factory or a paymaster nothing of what goes with one. -/
def signedContent (uo : UserOperation) : UserOperation :=
  { uo.normalized with signature := [], cachedHash := none }

theorem InMemory.lengthsFit {uo : UserOperation} (h : uo.InMemory) :
    { uo.pack with signature := [] }.LengthsFit where
  initCode := by
    have hdata := h.factoryData
    change uo.initCode.length < _
    unfold initCode
    split
    · rw [List.length_append, length_toBeBytes]
      omega
    · exact Nat.two_pow_pos 256
  callData := lt_trans h.callData (by decide)
  paymasterAndData := by
    have hdata := h.paymasterData
    change uo.paymasterAndData.length < _
    unfold paymasterAndData
    split
    · simp only [List.length_append, length_toBeBytes]
      omega
    · exact Nat.two_pow_pos 256
  signature := Nat.two_pow_pos 256

section Hash

variable [Keccak] {uo uo' : UserOperation}

/-- The two byte strings the digest is taken of. -/
def preimages (uo : UserOperation) : Set Bytes := {uo.innerPreimage, uo.outerPreimage}

/-- The parts of the outer byte string have fixed lengths. -/
theorem outerPreimage_parts (h : uo.outerPreimage = uo'.outerPreimage) :
    keccak256 uo.innerPreimage = keccak256 uo'.innerPreimage ∧ uo.entryPoint = uo'.entryPoint ∧
      uo.chainId = uo'.chainId := by
  obtain ⟨hfirst, hchain⟩ := List.append_inj h (by simp)
  obtain ⟨hinner, hentry⟩ := List.append_inj hfirst (by simp)
  refine ⟨toBeBytes_inj (by decide) hinner, toBeBytes_inj (by decide) hentry, ?_⟩
  apply BitVec.eq_of_toNat_eq
  exact encodeWord_inj (lt_trans uo.chainId.isLt (by decide))
    (lt_trans uo'.chainId.isLt (by decide)) hchain

/-- Packed form and context make up the content. -/
theorem signedContent_of_pack
    (hpack : { uo.pack with signature := [] } = { uo'.pack with signature := [] })
    (hentry : uo.entryPoint = uo'.entryPoint) (hchain : uo.chainId = uo'.chainId) :
    uo.signedContent = uo'.signedContent := by
  have hback := unpack_pack_fields { uo with signature := [] } uo.entryPoint uo.chainId
  have hback' := unpack_pack_fields { uo' with signature := [] } uo'.entryPoint uo'.chainId
  have hsame : unpack { uo with signature := [] }.pack uo.entryPoint uo.chainId =
      unpack { uo' with signature := [] }.pack uo'.entryPoint uo'.chainId := by
    change unpack { uo.pack with signature := [] } _ _ =
      unpack { uo'.pack with signature := [] } _ _
    rw [hpack, hentry, hchain]
  rw [hback, hback'] at hsame
  exact congrArg (fun uo => { uo with cachedHash := none }) hsame

/-- **Equal hashes, equal content**, as far as the digest does not collide on the
byte strings it is taken of. -/
theorem signedContent_eq {M : Set Bytes} (hfree : Set.InjOn keccak256 M)
    (hM : uo.preimages ⊆ M) (hM' : uo'.preimages ⊆ M) (hfits : uo.InMemory) (hfits' : uo'.InMemory)
    (h : uo.computeHash = uo'.computeHash) : uo.signedContent = uo'.signedContent := by
  have houter : uo.outerPreimage = uo'.outerPreimage :=
    hfree (hM (Set.mem_insert_of_mem _ rfl)) (hM' (Set.mem_insert_of_mem _ rfl)) h
  obtain ⟨hdigest, hentry, hchain⟩ := outerPreimage_parts houter
  have hinner : uo.innerPreimage = uo'.innerPreimage :=
    hfree (hM (Set.mem_insert _ _)) (hM' (Set.mem_insert _ _)) hdigest
  exact signedContent_of_pack
    (PackedUserOperation.abiEncode_inj hfits.lengthsFit hfits'.lengthsFit hinner) hentry hchain

/-- The hash of the operation is the one of its fields, and they fit into memory. -/
structure Hashed (M : Set Bytes) (uo : UserOperation) : Prop where
  hash_eq : uo.hash = uo.computeHash
  inMemory : uo.InMemory
  preimages : uo.preimages ⊆ M

/-- Setting the context computes the hash. -/
theorem hashed_setContext {M : Set Bytes} {entryPoint : Address} {chainId : U64}
    (hfits : uo.InMemory) (hM : (uo.setContext entryPoint chainId).preimages ⊆ M) :
    (uo.setContext entryPoint chainId).Hashed M where
  hash_eq := rfl
  inMemory := ⟨hfits.callData, hfits.factoryData, hfits.paymasterData⟩
  preimages := hM

theorem Hashed.signedContent_eq {M : Set Bytes} (h : uo.Hashed M) (h' : uo'.Hashed M)
    (hfree : Set.InjOn keccak256 M) (heq : uo.hash = uo'.hash) :
    uo.signedContent = uo'.signedContent := by
  rw [h.hash_eq, h'.hash_eq] at heq
  exact UserOperation.signedContent_eq hfree h.preimages h'.preimages h.inMemory h'.inMemory heq

end Hash

end UserOperation

section Pools

variable [Keccak]

/-- An operation is known only if its hash is pooled. -/
theorem OperationPool.contains_of_alreadyKnown {pool : OperationPool} {uo : UserOperation}
    {baseFee : U128} {hash : B256} (h : (pool.add uo baseFee).1 = .error (.alreadyKnown hash)) :
    pool.byHash.contains uo.hash := by
  have haccept (pool : OperationPool) :
      (pool.accept uo baseFee).1 ≠ .error (.alreadyKnown hash) := by
    unfold OperationPool.accept
    simp only
    split
    · simp
    · split
      · simp
      · simp
  rw [OperationPool.add_eq] at h
  by_cases hknown : pool.byHash.contains uo.hash
  · exact hknown
  · rw [if_neg hknown] at h
    split at h
    · exact absurd h (haccept _)
    · split at h
      · cases h
      · exact absurd h (haccept _)

/-- **A hash binds the content.**  Let the digest not collide on the byte strings in
question.  Operations with one hash differ in nothing but their signatures and what
goes with a factory or paymaster they do not have; and an operation is reported as
known only if its content is pooled, under its own sender and nonce. -/
theorem hash_binds_content (M : Set Bytes) (hfree : Set.InjOn keccak256 M) :
    (∀ uo uo' : UserOperation, uo.Hashed M → uo'.Hashed M → uo.hash = uo'.hash →
      uo.signedContent = uo'.signedContent) ∧
    ∀ (config : PoolConfig) (calls : List PoolCall),
      (∀ uo baseFee, .add uo baseFee ∈ calls → uo.Hashed M) →
      ∀ (uo : UserOperation) (baseFee : U128) (hash : B256), uo.Hashed M →
        ((runCalls calls (OperationPool.new config)).add uo baseFee).1 =
          .error (.alreadyKnown hash) →
        ∃ pooled, (runCalls calls (OperationPool.new config)).getByHash uo.hash = some pooled ∧
          pooled.uo.signedContent = uo.signedContent ∧ pooled.id = uo.id := by
  refine ⟨fun uo uo' h h' => h.signedContent_eq h' hfree, ?_⟩
  intro config calls hadded uo baseFee hash huo hknown
  obtain ⟨S, h, hstored⟩ := describes_forall
    (P := fun e => e.hash = e.uo.hash ∧ e.id = e.uo.id ∧ e.uo.Hashed M) (Describes.new config)
    (by simp) (fun v base hmem _ => ⟨rfl, rfl, hadded v base hmem⟩)
  have hcontains := OperationPool.contains_of_alreadyKnown hknown
  rw [Std.ExtTreeMap.contains_eq_isSome_getElem?] at hcontains
  obtain ⟨pooled, hpooled⟩ := Option.isSome_iff_exists.mp hcontains
  obtain ⟨hin, hhash⟩ := (h.byHash uo.hash pooled).mp hpooled
  obtain ⟨hown, hid, hhashed⟩ := hstored pooled hin
  have hcontent := hhashed.signedContent_eq huo hfree (hown.symm.trans hhash)
  have hsame := congrArg UserOperation.id hcontent
  exact ⟨pooled, hpooled, hcontent, hid.trans hsame⟩

end Pools

/-- A plain operation, and the same with another signature and with data for a
factory it does not have. -/
def twiceSigned : UserOperation × UserOperation :=
  letI := polynomialDigest
  ((plainOperation 1 0 30000000000).setContext ChainSpec.mainnet.entryPointV07 1,
    { plainOperation 1 0 30000000000 with signature := [0x02], factoryData := [0x07] }.setContext
      ChainSpec.mainnet.entryPointV07 1)

/-- The second one is reported as known, and has the content of the first. -/
theorem hash_binds_content_twice :
    letI := polynomialDigest
    twiceSigned.1.signedContent = twiceSigned.2.signedContent ∧
      ∃ pooled, (runCalls [.add twiceSigned.1 15000000000] (OperationPool.new
          (PoolConfig.ofChainSpec ChainSpec.mainnet))).getByHash twiceSigned.2.hash = some pooled ∧
        pooled.uo.signedContent = twiceSigned.2.signedContent ∧ pooled.id = twiceSigned.2.id := by
  let _ := polynomialDigest
  have hfirst : twiceSigned.1.Hashed twiceSigned.1.preimages :=
    UserOperation.hashed_setContext ⟨by decide, by decide, by decide⟩ subset_rfl
  have hsecond : twiceSigned.2.Hashed twiceSigned.1.preimages :=
    UserOperation.hashed_setContext ⟨by decide, by decide, by decide⟩ subset_rfl
  have hfree : Set.InjOn keccak256 twiceSigned.1.preimages := by
    apply Set.injOn_pair.mpr
    intro heq
    exact absurd heq (by decide +kernel)
  have hbinds := hash_binds_content twiceSigned.1.preimages hfree
  refine ⟨hbinds.1 _ _ hfirst hsecond (by decide +kernel), ?_⟩
  refine hbinds.2 _ _ ?_ _ 15000000000 twiceSigned.2.hash hsecond (by decide +kernel)
  intro uo baseFee hadd
  rw [List.mem_singleton, PoolCall.add.injEq] at hadd
  rw [hadd.1]
  exact hfirst

end Bunzo
