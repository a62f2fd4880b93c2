import Aeslib.BridgeGcm
import Aeslib.SecurityGcm

/-!
`AesGcm::decrypt` is the authenticated decryption function of NIST SP 800-38D over the cipher of
FIPS 197. It returns a plaintext where the standard does, throws where the standard says `FAIL`, and
a failed check leaves the counter blocks of the message unused.
-/

namespace Aeslib

open Bytes Prog

theorem gcmAD_eq (key : SecretKey) (container : GcmContainer) {aad : List Byte}
    (hlen : container.ciphertext.length ≤ AesGcm.kMaxPlaintextBytes) (haad : aad.length < 2 ^ 61) :
    Sp80038d.gcmAD (standardCipher key) container.nonce container.ciphertext aad container.tag.toList =
      if container.tag = AesGcm.tagOf key container.nonce aad container.ciphertext then
        some (keystreamXor key 2 container.nonce container.ciphertext)
      else none := by
  have hj0 : Sp80038d.j0 container.nonce = toReg (makeCounterBlock container.nonce 1) :=
    (toReg_makeCounterBlock container.nonce 1).symm
  have hzero : toReg (Vector.replicate kBlockSizeBytes 0) = 0 := by decide +kernel
  have hh : standardCipher key 0 = toReg (AesGcm.hashSubkey key) := by
    rw [← hzero, standardCipher_toReg]
    rfl
  have htag : Sp80038d.gctr (standardCipher key) (toReg (makeCounterBlock container.nonce 1))
      (Sp80038d.bytes
      (toReg (ghash (AesGcm.hashSubkey key) aad container.ciphertext))) =
        (AesGcm.tagOf key container.nonce aad container.ciphertext).toList :=
        gctr_tag key container.nonce _
  simp only [AesGcm.kMaxPlaintextBytes, AesGcm.kMaxBlocks, kBlockSizeBytes] at hlen
  rw [Sp80038d.gcmAD, if_pos ⟨by omega, by omega, Vector.length_toList⟩]
  simp only [hj0, hh, inc32_toReg, gctr_eq_keystreamXor key (1 + 1), ← toReg_ghash, htag,
    Vector.toList_inj]
  rfl

/-- A ciphertext that the counter cannot address is not in the domain of the standard. -/
theorem gcmAD_tooLong (key : SecretKey) (container : GcmContainer) (aad : List Byte)
    (hlen : AesGcm.kMaxPlaintextBytes < container.ciphertext.length) :
    Sp80038d.gcmAD (standardCipher key) container.nonce container.ciphertext aad
      container.tag.toList = none := by
  simp only [AesGcm.kMaxPlaintextBytes, AesGcm.kMaxBlocks, kBlockSizeBytes] at hlen
  exact if_neg fun h => absurd h.1 (by omega)

/-- **`decrypt` is GCM-AD**: it returns the plaintext of the standard, so just the one whose
encryption the container is; and where there is none it throws, having encrypted at most the two
blocks of the tag. -/
theorem aesGcm_decrypt_sp80038d (os : Os) (w : World) (key : SecretKey) (container : GcmContainer)
    (aad : List Byte) (haad : aad.length < 2 ^ 61) :
    ∃ r v, Ends (AesGcm.decrypt os key container aad) w r v ∧
      (∀ p, r = .ok p ↔
        Sp80038d.gcmAD (standardCipher key) container.nonce container.ciphertext aad
          container.tag.toList = some p) ∧
      (∀ p, r = .ok p ↔
        Sp80038d.gcmAE (standardCipher key) container.nonce p aad =
          some (container.ciphertext, container.tag.toList)) ∧
      (Sp80038d.gcmAD (standardCipher key) container.nonce container.ciphertext aad
        container.tag.toList = none →
        (∃ what, r = .error (.limitError what) ∧ v = w) ∨
        (∃ what, r = .error (.authenticationError what) ∧
          v = w.ciphered (AesGcm.tagInputs container.nonce))) := by
  simp only [← Sp80038d.gcmAD_iff_gcmAE]
  by_cases hlen : container.ciphertext.length ≤ AesGcm.kMaxPlaintextBytes
  · have hstandard := gcmAD_eq key container hlen haad
    by_cases htag : AesGcm.tagOf key container.nonce aad container.ciphertext = container.tag
    · rw [if_pos htag.symm] at hstandard
      have hresult (p : List Byte) :
          (.ok (keystreamXor key 2 container.nonce container.ciphertext) : Except Error
            (List Byte)) = .ok p ↔
            Sp80038d.gcmAD (standardCipher key) container.nonce container.ciphertext aad
              container.tag.toList = some p := by
        rw [hstandard, Except.ok.injEq, Option.some.injEq]
      exact ⟨_, _, AesGcm.decrypt_accepts os w key container hlen htag, hresult, hresult,
        fun hnone => absurd (hstandard.symm.trans hnone) (by simp)⟩
    · rw [if_neg (Ne.symm htag)] at hstandard
      exact ⟨_, _, AesGcm.decrypt_rejects os w key container hlen
        htag, by simp [hstandard], by simp [hstandard],
        fun _ => .inr ⟨_, rfl, rfl⟩⟩
  · have hlen : AesGcm.kMaxPlaintextBytes < container.ciphertext.length := Nat.not_le.mp hlen
    have hstandard := gcmAD_tooLong key container aad hlen
    exact ⟨_, _, AesGcm.decrypt_refuses os w key container aad
      hlen, by simp [hstandard], by simp [hstandard],
      fun _ => .inl ⟨_, rfl, rfl⟩⟩

/-- A container of one byte with the zero tag. -/
theorem aesGcm_decrypt_sp80038d_oneByte : ∃ r v,
    Ends (AesGcm.decrypt Os.plain {} ⟨Vector.replicate kGcmNonceSizeBytes 0,
      Vector.replicate kGcmTagSizeBytes 0, [7]⟩ [1]) World.empty r v ∧
    ∀ p, r = .ok p ↔
      Sp80038d.gcmAE (standardCipher {}) (Vector.replicate kGcmNonceSizeBytes 0) p [1] =
        some ([7], (Vector.replicate kGcmTagSizeBytes (0 : Byte)).toList) := by
  obtain ⟨r, v, hends, -, hresult, -⟩ := aesGcm_decrypt_sp80038d Os.plain World.empty {}
    ⟨Vector.replicate kGcmNonceSizeBytes 0, Vector.replicate kGcmTagSizeBytes 0, [7]⟩ [1] (by decide)
  exact ⟨r, v, hends, hresult⟩

end Aeslib
