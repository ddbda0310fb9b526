import Bunzo.UserOperation

/-!
# The round trips of the packed form

* `unpack_pack` — an operation comes back from its packed form, except for data
  of a factory or paymaster it does not have.
* `pack_unpack_eq` — what a packed operation loses by being unpacked.
* `round_trips` — both directions, with hash and id.
-/

namespace Bunzo

open MachineWords

/-- Both halves of a word are read back. -/
@[simp] theorem unpackU128Pair_packU128Pair (high low : U128) :
    unpackU128Pair (packU128Pair high low) = (high, low) := by
  unfold unpackU128Pair packU128Pair
  rw [BitVec.extractLsb'_append_eq_left, BitVec.extractLsb'_append_eq_right]

/-- A word is put together from its halves. -/
@[simp] theorem packU128Pair_unpackU128Pair (w : B256) :
    packU128Pair (unpackU128Pair w).1 (unpackU128Pair w).2 = w :=
  BitVec.extractLsb'_append_extractLsb'

namespace UserOperation

/-- What packing keeps of an operation: without a factory no factory data, and
without a paymaster none of what goes with one. -/
def normalized (uo : UserOperation) : UserOperation :=
  { uo with
    factoryData := match uo.factory with | some _ => uo.factoryData | none => []
    paymasterVerificationGasLimit :=
      match uo.paymaster with | some _ => uo.paymasterVerificationGasLimit | none => 0
    paymasterPostOpGasLimit :=
      match uo.paymaster with | some _ => uo.paymasterPostOpGasLimit | none => 0
    paymasterData := match uo.paymaster with | some _ => uo.paymasterData | none => [] }

/-- The factory is read back from the init code, with data only if there is one. -/
theorem unpackFactory_initCode (uo : UserOperation) :
    unpackFactory uo.initCode = (uo.factory, uo.normalized.factoryData) := by
  unfold unpackFactory initCode normalized
  cases uo.factory with
  | none => rfl
  | some factory =>
      have hlength : (toBeBytes 20 factory.toNat).length = 20 := length_toBeBytes 20 _
      simp only
      rw [if_pos (by rw [List.length_append]; omega), List.take_left' hlength,
        List.drop_left' hlength,
        ofNat_ofBeBytes_toBeBytes (by decide : 160 = 8 * 20)]

/-- The paymaster is read back with its limits, which stand only if there is one. -/
theorem unpackPaymaster_paymasterAndData (uo : UserOperation) :
    unpackPaymaster uo.paymasterAndData =
      (uo.paymaster, uo.normalized.paymasterVerificationGasLimit,
        uo.normalized.paymasterPostOpGasLimit, uo.normalized.paymasterData) := by
  unfold unpackPaymaster paymasterAndData normalized
  cases uo.paymaster with
  | none => rfl
  | some paymaster =>
      simp only
      generalize hA : toBeBytes 20 paymaster.toNat = A
      generalize hB : toBeBytes 16 uo.paymasterVerificationGasLimit.toNat = B
      generalize hC : toBeBytes 16 uo.paymasterPostOpGasLimit.toNat = C
      have hAlen : A.length = 20 := by rw [← hA, length_toBeBytes]
      have hBlen : B.length = 16 := by rw [← hB, length_toBeBytes]
      have hClen : C.length = 16 := by rw [← hC, length_toBeBytes]
      have hlong : 52 ≤ (A ++ B ++ C ++ uo.paymasterData).length := by
        simp only [List.length_append]
        omega
      have hfirst : (A ++ B ++ C ++ uo.paymasterData).take 20 = A := by
        rw [List.append_assoc, List.append_assoc, List.take_left' hAlen]
      have hsecond : ((A ++ B ++ C ++ uo.paymasterData).drop 20).take 16 = B := by
        rw [List.append_assoc, List.append_assoc, List.drop_left' hAlen, List.take_left' hBlen]
      have hthird : ((A ++ B ++ C ++ uo.paymasterData).drop 36).take 16 = C := by
        rw [List.append_assoc, List.drop_left' (by simp [hAlen, hBlen]), List.take_left' hClen]
      have hrest : (A ++ B ++ C ++ uo.paymasterData).drop 52 = uo.paymasterData :=
        List.drop_left' (by simp [hAlen, hBlen, hClen])
      rw [if_pos hlong, hfirst, hsecond, hthird, hrest, ← hA, ← hB, ← hC,
        ofNat_ofBeBytes_toBeBytes (by decide : 160 = 8 * 20),
        ofNat_ofBeBytes_toBeBytes (by decide : 128 = 8 * 16),
        ofNat_ofBeBytes_toBeBytes (by decide : 128 = 8 * 16)]

/-- A limit of 128 bits comes back from its word. -/
theorem unpack_preVerificationGas (uo : UserOperation) :
    (if uo.pack.preVerificationGas.toNat < 2 ^ 128 then uo.pack.preVerificationGas.setWidth 128
      else BitVec.allOnes 128) = uo.preVerificationGas := by
  have hsame : (uo.preVerificationGas.setWidth 256).toNat = uo.preVerificationGas.toNat := by
    rw [BitVec.toNat_setWidth, Nat.mod_eq_of_lt (lt_trans uo.preVerificationGas.isLt (by decide))]
  change (if (uo.preVerificationGas.setWidth 256).toNat < 2 ^ 128 then
    (uo.preVerificationGas.setWidth 256).setWidth 128 else BitVec.allOnes 128) = _
  rw [if_pos (hsame ▸ uo.preVerificationGas.isLt), BitVec.setWidth_setWidth_of_le _ (by decide),
    BitVec.setWidth_eq]

/-- Packing leaves out the same parts. -/
@[simp] theorem pack_normalized (uo : UserOperation) : uo.normalized.pack = uo.pack := by
  unfold pack normalized initCode paymasterAndData
  cases uo.factory <;> cases uo.paymaster <;> rfl

/-- What was split off an init code is what is put together again. -/
theorem initCode_of_unpackFactory {uo : UserOperation} {data : Bytes}
    (h : unpackFactory data = (uo.factory, uo.factoryData)) :
    uo.initCode = if 20 ≤ data.length then data else [] := by
  unfold unpackFactory at h
  unfold initCode
  by_cases hlong : 20 ≤ data.length
  · rw [if_pos hlong] at h ⊢
    obtain ⟨hfactory, hdata⟩ := Prod.mk.inj h
    have hlength : (data.take 20).length = 20 := by
      rw [List.length_take]
      omega
    rw [← hfactory, ← hdata]
    simp only
    rw [toBeBytes_ofNat_ofBeBytes (by decide : 160 = 8 * 20) hlength, List.take_append_drop]
  · rw [if_neg hlong] at h ⊢
    obtain ⟨hfactory, _⟩ := Prod.mk.inj h
    rw [← hfactory]

/-- A byte string is kept if it is long enough, or empty anyway. -/
theorem cut_eq_iff (n : Nat) (data : Bytes) :
    (if n ≤ data.length then data else []) = data ↔ data.length = 0 ∨ n ≤ data.length := by
  by_cases hlong : n ≤ data.length
  · simp [hlong]
  · rw [if_neg hlong, or_iff_left hlong, List.length_eq_zero_iff, eq_comm]

/-- A byte string cut at 20, 36 and 52. -/
theorem take_append_cuts (data : Bytes) :
    data.take 20 ++ (data.drop 20).take 16 ++ (data.drop 36).take 16 ++ data.drop 52 = data := by
  have h36 : data.drop 36 = (data.drop 20).drop 16 := by rw [List.drop_drop]
  have h52 : data.drop 52 = (data.drop 36).drop 16 := by rw [List.drop_drop]
  rw [h52, List.append_assoc, List.take_append_drop, h36, List.append_assoc,
    List.take_append_drop, List.take_append_drop]

/-- What is packed for a paymaster is what was unpacked, if it was long enough. -/
theorem paymasterAndData_of_unpackPaymaster {uo : UserOperation} {data : Bytes}
    (h : unpackPaymaster data = (uo.paymaster, uo.paymasterVerificationGasLimit,
      uo.paymasterPostOpGasLimit, uo.paymasterData)) :
    uo.paymasterAndData = if 52 ≤ data.length then data else [] := by
  unfold unpackPaymaster at h
  unfold paymasterAndData
  by_cases hlong : 52 ≤ data.length
  · rw [if_pos hlong] at h ⊢
    obtain ⟨hpaymaster, hverification, hpostOp, hdata⟩ : _ ∧ _ ∧ _ ∧ _ := by simpa using h
    have hfirst : (data.take 20).length = 20 := by
      rw [List.length_take]
      omega
    have hsecond : ((data.drop 20).take 16).length = 16 := by
      rw [List.length_take, List.length_drop]
      omega
    have hthird : ((data.drop 36).take 16).length = 16 := by
      rw [List.length_take, List.length_drop]
      omega
    rw [← hpaymaster, ← hverification, ← hpostOp, ← hdata]
    simp only
    rw [toBeBytes_ofNat_ofBeBytes (by decide : 160 = 8 * 20) hfirst,
      toBeBytes_ofNat_ofBeBytes (by decide : 128 = 8 * 16) hsecond,
      toBeBytes_ofNat_ofBeBytes (by decide : 128 = 8 * 16) hthird, take_append_cuts]
  · rw [if_neg hlong] at h ⊢
    obtain ⟨hpaymaster, _⟩ := Prod.mk.inj h
    rw [← hpaymaster]

section Hash

variable [Keccak]

/-- The hash depends on the packed form and the context. -/
theorem computeHash_congr {uo uo' : UserOperation} (hpack : uo.pack = uo'.pack)
    (hentry : uo.entryPoint = uo'.entryPoint) (hchain : uo.chainId = uo'.chainId) :
    uo.computeHash = uo'.computeHash := by
  unfold computeHash outerPreimage innerPreimage
  rw [hpack, hentry, hchain]

/-- The fields that come back, and the hash that is computed from them. -/
theorem unpack_pack_fields (uo : UserOperation) (entryPoint : Address) (chainId : U64) :
    unpack uo.pack entryPoint chainId =
      new { uo.normalized with entryPoint := entryPoint, chainId := chainId } := by
  have hlimits : unpackU128Pair uo.pack.accountGasLimits =
      (uo.verificationGasLimit, uo.callGasLimit) := unpackU128Pair_packU128Pair _ _
  have hfees : unpackU128Pair uo.pack.gasFees = (uo.maxPriorityFeePerGas, uo.maxFeePerGas) :=
    unpackU128Pair_packU128Pair _ _
  have hfactory : unpackFactory uo.pack.initCode = (uo.factory, uo.normalized.factoryData) :=
    unpackFactory_initCode uo
  have hpaymaster : unpackPaymaster uo.pack.paymasterAndData =
      (uo.paymaster, uo.normalized.paymasterVerificationGasLimit,
        uo.normalized.paymasterPostOpGasLimit, uo.normalized.paymasterData) :=
    unpackPaymaster_paymasterAndData uo
  unfold unpack
  simp only [hlimits, hfees, hfactory, hpaymaster, unpack_preVerificationGas]
  rfl

/-- **Packing and unpacking.**  All that is lost is what the packed form has no
place for. -/
theorem unpack_pack (uo : UserOperation) (entryPoint : Address) (chainId : U64) :
    unpack (uo.setContext entryPoint chainId).pack entryPoint chainId =
      (uo.setContext entryPoint chainId).normalized := by
  have hhash : { uo.normalized with
        entryPoint := entryPoint, chainId := chainId, cachedHash := none }.computeHash =
      { uo with entryPoint := entryPoint, chainId := chainId }.computeHash :=
    computeHash_congr (pack_normalized uo) rfl rfl
  rw [unpack_pack_fields]
  change { (uo.setContext entryPoint chainId).normalized with
    cachedHash := some { uo.normalized with
        entryPoint := entryPoint, chainId := chainId, cachedHash := none }.computeHash } = _
  rw [hhash]
  rfl

/-- The hash that comes back is the one that was cached. -/
theorem hash_normalized_setContext (uo : UserOperation) (entryPoint : Address) (chainId : U64) :
    (uo.setContext entryPoint chainId).normalized.hash =
      (uo.setContext entryPoint chainId).hash := by
  have hcached : (uo.setContext entryPoint chainId).normalized.cachedHash =
      (uo.setContext entryPoint chainId).cachedHash := rfl
  unfold hash
  rw [hcached, computeHash_congr (pack_normalized _) rfl rfl]

/-- What packing makes of an unpacked operation: data too short for an address,
or for all that goes with a paymaster, is lost, and so is a gas limit that does
not fit. -/
theorem pack_unpack_eq (packed : PackedUserOperation) (entryPoint : Address) (chainId : U64) :
    (unpack packed entryPoint chainId).pack =
      { packed with
        initCode := if 20 ≤ packed.initCode.length then packed.initCode else []
        paymasterAndData :=
          if 52 ≤ packed.paymasterAndData.length then packed.paymasterAndData else []
        preVerificationGas :=
          if packed.preVerificationGas.toNat < 2 ^ 128 then packed.preVerificationGas
          else (BitVec.allOnes 128).setWidth 256 } := by
  have hinit : (unpack packed entryPoint chainId).initCode =
      if 20 ≤ packed.initCode.length then packed.initCode else [] :=
    initCode_of_unpackFactory rfl
  have hpaymaster : (unpack packed entryPoint chainId).paymasterAndData =
      if 52 ≤ packed.paymasterAndData.length then packed.paymasterAndData else [] :=
    paymasterAndData_of_unpackPaymaster rfl
  have hgas : (unpack packed entryPoint chainId).preVerificationGas.setWidth 256 =
      if packed.preVerificationGas.toNat < 2 ^ 128 then packed.preVerificationGas
      else (BitVec.allOnes 128).setWidth 256 := by
    change (if packed.preVerificationGas.toNat < 2 ^ 128 then
      packed.preVerificationGas.setWidth 128 else BitVec.allOnes 128).setWidth 256 = _
    split
    · next hlt =>
        apply BitVec.eq_of_toNat_eq
        rw [BitVec.toNat_setWidth, BitVec.toNat_setWidth, Nat.mod_eq_of_lt hlt,
          Nat.mod_eq_of_lt packed.preVerificationGas.isLt]
    · rfl
  have hlimits := packU128Pair_unpackU128Pair packed.accountGasLimits
  have hfees := packU128Pair_unpackU128Pair packed.gasFees
  unfold pack
  rw [hinit, hpaymaster, hgas]
  change { packed with
    initCode := _
    accountGasLimits := packU128Pair (unpackU128Pair packed.accountGasLimits).1
      (unpackU128Pair packed.accountGasLimits).2
    gasFees := packU128Pair (unpackU128Pair packed.gasFees).1 (unpackU128Pair packed.gasFees).2
    preVerificationGas := _
    paymasterAndData := _ } = _
  rw [hlimits, hfees]

/-- **Packing what was unpacked** gives the operation back exactly if its parts have
lengths and gas that packing can produce. -/
theorem pack_unpack_iff (packed : PackedUserOperation) (entryPoint : Address) (chainId : U64) :
    (unpack packed entryPoint chainId).pack = packed ↔
      (packed.initCode.length = 0 ∨ 20 ≤ packed.initCode.length) ∧
        (packed.paymasterAndData.length = 0 ∨ 52 ≤ packed.paymasterAndData.length) ∧
        packed.preVerificationGas.toNat < 2 ^ 128 := by
  have hgas : (if packed.preVerificationGas.toNat < 2 ^ 128 then packed.preVerificationGas
      else (BitVec.allOnes 128).setWidth 256) = packed.preVerificationGas ↔
      packed.preVerificationGas.toNat < 2 ^ 128 := by
    by_cases hlt : packed.preVerificationGas.toNat < 2 ^ 128
    · simp only [hlt, if_true]
    · simp only [hlt, if_false, iff_false]
      intro heq
      rw [← heq] at hlt
      exact hlt (by decide)
  have hinit := cut_eq_iff 20 packed.initCode
  have hpaymaster := cut_eq_iff 52 packed.paymasterAndData
  rw [pack_unpack_eq]
  cases packed
  simp only [PackedUserOperation.mk.injEq, true_and, and_true] at hgas ⊢
  rw [hinit, hpaymaster, hgas]
  exact and_congr_right' and_comm

/-- **The round trips.**  An operation comes back from its packed form without
what that form has no place for, packs to the same and has its hash and id; a
packed operation comes back exactly if its byte strings are empty or long
enough and its gas limit fits. -/
theorem round_trips :
    (∀ (uo : UserOperation) (entryPoint : Address) (chainId : U64),
      let u := uo.setContext entryPoint chainId
      let back := unpack u.pack entryPoint chainId
      back = u.normalized ∧ back.pack = u.pack ∧ back.hash = u.hash ∧ back.id = u.id) ∧
    ∀ (packed : PackedUserOperation) (entryPoint : Address) (chainId : U64),
      (unpack packed entryPoint chainId).pack = packed ↔
        (packed.initCode.length = 0 ∨ 20 ≤ packed.initCode.length) ∧
          (packed.paymasterAndData.length = 0 ∨ 52 ≤ packed.paymasterAndData.length) ∧
          packed.preVerificationGas.toNat < 2 ^ 128 := by
  refine ⟨?_, pack_unpack_iff⟩
  intro uo entryPoint chainId u back
  have hback : back = u.normalized := unpack_pack uo entryPoint chainId
  refine ⟨hback, ?_, ?_, ?_⟩
  · rw [hback, pack_normalized]
  · rw [hback]
    exact hash_normalized_setContext uo entryPoint chainId
  · rw [hback]
    rfl

end Hash

end UserOperation

end Bunzo
