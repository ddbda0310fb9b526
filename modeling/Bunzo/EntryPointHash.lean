import Bunzo.UserOperation

/-!
# The bundler's hash and the entry point's

The entry point contract identifies an operation by a hash of its own, which
it emits in its events.  `entryPointHash` writes that hash down as the
contract computes it: every field is a word, and each of the three dynamic
fields is represented by its digest.

The bundler's `computeHash` hashes the entry point address as 20 bytes, the
contract as a word of 32.  `hash_ne_entryPointHash` draws the consequence:
unless the digest collides on these two byte strings, the two hashes of an
operation differ, for every operation, entry point and chain.
-/

namespace Bunzo

open MachineWords

section EntryPoint

variable [Keccak]

/-- What the contract hashes first: eight words. -/
def entryPointInnerPreimage (p : PackedUserOperation) : Bytes :=
  encodeTuple
    [.word p.sender.toNat, .word p.nonce.toNat, .word (keccak256 p.initCode).toNat,
      .word (keccak256 p.callData).toNat, .word p.accountGasLimits.toNat,
      .word p.preVerificationGas.toNat, .word p.gasFees.toNat,
      .word (keccak256 p.paymasterAndData).toNat]

/-- What the contract hashes second: three words. -/
def entryPointOuterPreimage (p : PackedUserOperation) (entryPoint : Address) (chainId : U64) :
    Bytes :=
  encodeTuple
    [.word (keccak256 (entryPointInnerPreimage p)).toNat, .word entryPoint.toNat,
      .word chainId.toNat]

/-- The hash the contract gives an operation and emits in its events. -/
def entryPointHash (p : PackedUserOperation) (entryPoint : Address) (chainId : U64) : B256 :=
  keccak256 (entryPointOuterPreimage p entryPoint chainId)

theorem length_outerPreimage (uo : UserOperation) : uo.outerPreimage.length = 84 := by
  simp [UserOperation.outerPreimage]

theorem length_entryPointOuterPreimage (p : PackedUserOperation) (entryPoint : Address)
    (chainId : U64) : (entryPointOuterPreimage p entryPoint chainId).length = 96 := by
  simp [entryPointOuterPreimage, encodeTuple, length_encodeHeads, Component.tail]

/-- The byte strings under the two outer digests are never the same. -/
theorem outerPreimage_ne (uo : UserOperation) (p : PackedUserOperation) (entryPoint : Address)
    (chainId : U64) : uo.outerPreimage ≠ entryPointOuterPreimage p entryPoint chainId := by
  intro heq
  have hlen := congrArg List.length heq
  rw [length_outerPreimage, length_entryPointOuterPreimage] at hlen
  omega

/-- **The bundler never computes the contract's hash.**  With a digest that
does not collide on the two strings hashed last, the hash of an operation in a
context differs from the one the contract gives its packed form there. -/
theorem hash_ne_entryPointHash (uo : UserOperation) (entryPoint : Address) (chainId : U64)
    (hfree : Set.InjOn keccak256
      {(uo.setContext entryPoint chainId).outerPreimage,
        entryPointOuterPreimage uo.pack entryPoint chainId}) :
    (uo.setContext entryPoint chainId).hash ≠ entryPointHash uo.pack entryPoint chainId := by
  intro heq
  have hsame : (uo.setContext entryPoint chainId).outerPreimage =
      entryPointOuterPreimage uo.pack entryPoint chainId := by
    apply hfree
    · exact Set.mem_insert _ _
    · exact Set.mem_insert_of_mem _ rfl
    · exact heq
  exact outerPreimage_ne _ _ _ _ hsame

end EntryPoint

/-- A digest that tells byte strings apart by their length only. -/
@[reducible] def lengthDigest : Keccak where
  keccak256 data := BitVec.ofNat 256 data.length

/-- The digest of lengths tells two strings of different lengths apart. -/
theorem lengthDigest_apply_ne {a b : Bytes} (ha : a.length = 84) (hb : b.length = 96) :
    lengthDigest.keccak256 a ≠ lengthDigest.keccak256 b := by
  show BitVec.ofNat 256 a.length ≠ BitVec.ofNat 256 b.length
  rw [ha, hb]
  decide

/-- The digest of lengths does not collide on two strings of such lengths. -/
theorem lengthDigest_injOn {a b : Bytes} (ha : a.length = 84) (hb : b.length = 96) :
    Set.InjOn lengthDigest.keccak256 {a, b} := by
  have hne := lengthDigest_apply_ne ha hb
  intro x hx y hy hxy
  rcases hx with rfl | rfl <;> rcases hy with rfl | rfl
  · rfl
  · exact absurd hxy hne
  · exact absurd hxy.symm hne
  · rfl

/-- The theorem at a plain operation, the mainnet entry point and chain 1. -/
theorem hash_ne_entryPointHash_of_lengths :
    letI := lengthDigest
    ((plainOperation 1 1 30000000000).setContext ChainSpec.mainnet.entryPointV07 1).hash ≠
      entryPointHash (plainOperation 1 1 30000000000).pack ChainSpec.mainnet.entryPointV07 1 :=
  @hash_ne_entryPointHash lengthDigest (plainOperation 1 1 30000000000)
    ChainSpec.mainnet.entryPointV07 1
    (lengthDigest_injOn (@length_outerPreimage lengthDigest _)
      (@length_entryPointOuterPreimage lengthDigest _ _ _))

/-- Some digest, collision-free where it is used, gives one operation two
different hashes. -/
theorem hash_differs_from_contract :
    ¬ ∀ (_digest : Keccak) (uo : UserOperation) (entryPoint : Address) (chainId : U64),
      Set.InjOn keccak256
        {(uo.setContext entryPoint chainId).outerPreimage,
          entryPointOuterPreimage uo.pack entryPoint chainId} →
      (uo.setContext entryPoint chainId).hash = entryPointHash uo.pack entryPoint chainId := by
  intro hall
  have heq := hall lengthDigest (plainOperation 1 1 30000000000)
    ChainSpec.mainnet.entryPointV07 1
    (lengthDigest_injOn (@length_outerPreimage lengthDigest _)
      (@length_entryPointOuterPreimage lengthDigest _ _ _))
  exact lengthDigest_apply_ne (@length_outerPreimage lengthDigest _)
    (@length_entryPointOuterPreimage lengthDigest _ _ _) heq

end Bunzo
