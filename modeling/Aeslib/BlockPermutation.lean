import Aeslib.BridgeFips197
import Aeslib.CtrLaws

/-!
Block encryption is a permutation. The inverse cipher of FIPS 197 undoes the cipher under any row of
round keys: the affine map of the S-box has an inverse, the column matrix has one in `GF(2^8)`, and
the rounds are undone from the last one on. The software path is the cipher, so it is injective, and
there are only finitely many blocks.
-/

namespace Fips197

/-- `b_(i+2) ⊕ b_(i+5) ⊕ b_(i+7) ⊕ d_i`, indices modulo 8, with `d = 05`. -/
def invAffine (b : Byte) : Byte := BitVec.ofFnLE fun i =>
  b.getLsbD ((i + 2) % 8) ^^ b.getLsbD ((i + 5) % 8) ^^ b.getLsbD ((i + 7) % 8) ^^
    (0x05 : Byte).getLsbD i

theorem invAffine_affine : ∀ b : Byte, invAffine (affine b) = b := by decide +kernel

noncomputable def invSbox (b : Byte) : Byte := GF256.ofByte.symm (GF256.ofByte (invAffine b))⁻¹

theorem invSbox_sbox (b : Byte) : invSbox (sbox b) = b := by
  rw [invSbox, sbox, invAffine_affine, Equiv.apply_symm_apply, inv_inv, Equiv.symm_apply_apply]

noncomputable def invSubBytes (s : State) : State := fun r c => invSbox (s r c)

theorem invSubBytes_subBytes (s : State) : invSubBytes (subBytes s) = s := by
  funext r c
  exact invSbox_sbox (s r c)

/-- Row `r` is rotated right by `r`. -/
def invShiftRows (s : State) : State := fun r c => s r (c - r)

theorem invShiftRows_shiftRows (s : State) : invShiftRows (shiftRows s) = s := by
  funext r c
  rw [invShiftRows, shiftRows, sub_add_cancel]

/-- The circulant of `{0e} {0b} {0d} {09}`. -/
noncomputable def invMixMatrix : Matrix (Fin 4) (Fin 4) GF256 :=
  let e := x ^ 3 + x ^ 2 + x
  let b := x ^ 3 + x + 1
  let d := x ^ 3 + x ^ 2 + 1
  let n := x ^ 3 + 1
  !![e, b, d, n; n, e, b, d; d, n, e, b; b, d, n, e]

/-- The coefficients of the product cancel in pairs. -/
theorem invMixMatrix_mul_mixMatrix : invMixMatrix * mixMatrix = 1 := by
  have h2 : (2 : GF256) = 0 := by
    have hself := BinaryField.add_self (1 : GF256)
    rwa [one_add_one_eq_two] at hself
  ext i j
  fin_cases i <;> fin_cases j <;>
    simp [invMixMatrix, mixMatrix, Matrix.mul_apply, Fin.sum_univ_four] <;> grobner

noncomputable def invMixColumns (s : State) : State := fun r c =>
  GF256.ofByte.symm (invMixMatrix.mulVec (fun k => GF256.ofByte (s k c)) r)

theorem invMixColumns_mixColumns (s : State) : invMixColumns (mixColumns s) = s := by
  funext r c
  have hcolumn : (fun k => GF256.ofByte (mixColumns s k c)) = mixMatrix.mulVec fun k =>
      GF256.ofByte (s k c) := by
    funext k
    rw [mixColumns, Equiv.apply_symm_apply]
  rw [invMixColumns, hcolumn, Matrix.mulVec_mulVec, invMixMatrix_mul_mixMatrix, Matrix.one_mulVec,
    Equiv.symm_apply_apply]

theorem addRoundKey_addRoundKey (w : ℕ → Word) (round : ℕ) (s : State) :
    addRoundKey w round (addRoundKey w round s) = s := by
  funext r c
  rw [addRoundKey, addRoundKey, BitVec.xor_assoc, BitVec.xor_self, BitVec.xor_zero]

/-- The rounds with `MixColumns`, the last one first. -/
noncomputable def invMiddleRounds (w : ℕ → Word) : ℕ → State → State
  | 0, s => s
  | n + 1, s => invMiddleRounds w n
      (invSubBytes (invShiftRows (invMixColumns (addRoundKey w (n + 1) s))))

theorem invMiddleRounds_middleRounds (w : ℕ → Word) (n : ℕ) (s : State) :
    invMiddleRounds w n (middleRounds w n s) = s := by
  induction n with
  | zero => rfl
  | succ n ih =>
      rw [middleRounds, invMiddleRounds, addRoundKey_addRoundKey, invMixColumns_mixColumns,
        invShiftRows_shiftRows, invSubBytes_subBytes, ih]

/-- `InvCipher()` with `nr` rounds under the schedule `w`. -/
noncomputable def invCipher (nr : ℕ) (w : ℕ → Word) (s : State) : State :=
  addRoundKey w 0 (invMiddleRounds w (nr - 1) (invSubBytes (invShiftRows (addRoundKey w nr s))))

theorem invCipher_cipher (nr : ℕ) (w : ℕ → Word) (s : State) : invCipher nr w (cipher nr w s) = s := by
  rw [invCipher, cipher, addRoundKey_addRoundKey, invShiftRows_shiftRows, invSubBytes_subBytes,
    invMiddleRounds_middleRounds, addRoundKey_addRoundKey]

theorem ofBytes_toBytes (s : State) : ofBytes (toBytes s) = s := by
  funext r c
  have hr := r.isLt
  have hc := c.isLt
  simp only [ofBytes, toBytes, Vector.getElem_ofFn]
  congr 1
  · exact Fin.ext (by simp only; omega)
  · exact Fin.ext (by simp only; omega)

/-- The cipher on bytes can be undone, for any number of rounds and any key. -/
theorem encrypt_injective (nk nr : ℕ) (key : ℕ → Byte) : Function.Injective (encrypt nk nr key) := by
  intro a b h
  have hstate := congrArg (invCipher nr (keyExpansion nk key) ∘ ofBytes) h
  simp only [Function.comp_apply, encrypt, ofBytes_toBytes, invCipher_cipher] at hstate
  rw [← toBytes_ofBytes a, hstate, toBytes_ofBytes]

end Fips197

namespace Aeslib

open Bytes Fips197 Prog

theorem bijective_of_fips197 {f : Block → Block} {nk nr : ℕ} {k : ℕ → Byte}
    (h : ∀ block, f block = encrypt nk nr k block) : Function.Bijective f := by
  have hinjective : Function.Injective f := by
    rw [funext h]
    exact encrypt_injective nk nr k
  have hfinite : Finite Block := Finite.of_injective ofBytes fun a b hab => by
    rw [← toBytes_ofBytes a, hab, toBytes_ofBytes]
  exact Finite.injective_iff_bijective.mp hinjective

theorem aes128EncryptBlockSoft_bijective (key : SecretKey) :
    Function.Bijective (aes128EncryptBlockSoft key) :=
  bijective_of_fips197 (aes128EncryptBlockSoft_eq key)

theorem aes256EncryptBlockSoft_bijective (key : SecretKey) :
    Function.Bijective (aes256EncryptBlockSoft key) :=
  bijective_of_fips197 (aes256EncryptBlockSoft_eq key)

theorem blockCipher_bijective (key : SecretKey) : Function.Bijective (blockCipher key) := by
  unfold blockCipher
  split_ifs
  · exact aes128EncryptBlockSoft_bijective key
  · exact aes256EncryptBlockSoft_bijective key

/-- A counter block is its nonce and its counter. -/
theorem counterBlock_injective :
    Function.Injective fun p : Vector Byte kNonceSizeBytes × BitVec 32 => makeCounterBlock p.1 p.2 := by
  rintro ⟨nonce, counter⟩ ⟨nonce', counter'⟩ h
  have hlist := congrArg Vector.toList h
  simp only [makeCounterBlock, Vector.toList_append] at hlist
  obtain ⟨hnonce, -⟩ := List.append_inj hlist (by rw [Vector.length_toList, Vector.length_toList])
  obtain rfl := Vector.toList_inj.mp hnonce
  exact Prod.ext rfl (makeCounterBlock_injective nonce h)

/-- **Block encryption is a permutation** for every key, by the software path for either size and so
by the cipher that the key selects: different counter blocks give different keystream blocks. -/
theorem block_encryption_permutes (key : SecretKey) :
    Function.Bijective (aes128EncryptBlockSoft key) ∧ Function.Bijective (aes256EncryptBlockSoft key) ∧
      (∀ os w block, ∃ w', Ends (encryptBlock os key block) w (.ok (blockCipher key block)) w') ∧
      Function.Bijective (blockCipher key) ∧
      Function.Injective fun p : Vector Byte kNonceSizeBytes × BitVec 32 =>
        blockCipher key (makeCounterBlock p.1 p.2) :=
  ⟨aes128EncryptBlockSoft_bijective key, aes256EncryptBlockSoft_bijective key,
    fun os w block => ⟨_, encryptBlock_ciphered os w key block⟩, blockCipher_bijective key,
    (blockCipher_bijective key).injective.comp counterBlock_injective⟩

end Aeslib
