import Aeslib.BridgeGcm
import Aeslib.KeyStorage
import Aeslib.KeyFile
import Aeslib.LibProgParts

/-!
Only the logical key matters. `generate` fills the storage behind an AES-128 key with random bytes
and the loaders leave zeros there; no operation of the library can tell. Two keys with one size and
one material make the same program of every operation, so the runs agree on any platform, with the
same nonces and salts.
-/

namespace Aeslib

open Prog

/-- `AesGcm::encrypt` with the key as an argument: what the call does besides counting. -/
def AesGcm.encryptWith (os : Os) (key : SecretKey) (plaintext aad : List Byte) :
    Prog World Error GcmContainer := do
  validateBlockCount plaintext.length
  checkGcmInvocationCount key.gcmInvocations
  let nonce ← generateNonce os
  AesGcm.encryptUnder os key nonce plaintext aad

section Keys

variable {key key' : SecretKey} (hsize : key'.size = key.size) (hmaterial : key'.material = key.material)

include hsize

theorem sizeBytes_congr : key'.sizeBytes = key.sizeBytes := by
  rw [SecretKey.sizeBytes, SecretKey.sizeBytes, hsize]

include hmaterial

theorem aes128EncryptBlockSoft_congr (h128 : key.size = .aes128) (block : Block) :
    aes128EncryptBlockSoft key' block = aes128EncryptBlockSoft key block := by
  have hcipher := congrFun (blockCipher_congr hsize hmaterial) block
  have hbytes : key.sizeBytes = 16 := by rw [SecretKey.sizeBytes, h128, KeySize.sizeBytes_aes128]
  rwa [blockCipher, blockCipher, if_pos (sizeBytes_congr hsize ▸ hbytes), if_pos hbytes] at hcipher

theorem aes256EncryptBlockSoft_congr (h256 : key.size = .aes256) (block : Block) :
    aes256EncryptBlockSoft key' block = aes256EncryptBlockSoft key block := by
  have hcipher := congrFun (blockCipher_congr hsize hmaterial) block
  have hbytes : key.sizeBytes = 32 := by rw [SecretKey.sizeBytes, h256, KeySize.sizeBytes_aes256]
  rwa [blockCipher, blockCipher, if_neg (by rw [sizeBytes_congr hsize, hbytes]; decide),
    if_neg (by rw [hbytes]; decide)] at hcipher

/-- Also where the backend is missing: the exception does not depend on the key. -/
theorem aes128EncryptBlockHw_congr (h128 : key.size = .aes128) (arch : Arch) (block : Block) :
    aes128EncryptBlockHw arch key' block = aes128EncryptBlockHw arch key block := by
  by_cases harch : arch = .other
  · simp only [harch, aes128EncryptBlockHw]
  · rw [(encryptBlockHw_eq harch _ _).1, (encryptBlockHw_eq harch _ _).1,
      aes128EncryptBlockSoft_congr hsize hmaterial h128]

theorem aes256EncryptBlockHw_congr (h256 : key.size = .aes256) (arch : Arch) (block : Block) :
    aes256EncryptBlockHw arch key' block = aes256EncryptBlockHw arch key block := by
  by_cases harch : arch = .other
  · simp only [harch, aes256EncryptBlockHw]
  · rw [(encryptBlockHw_eq harch _ _).2, (encryptBlockHw_eq harch _ _).2,
      aes256EncryptBlockSoft_congr hsize hmaterial h256]

theorem encryptBlock_congr (os : Os) : encryptBlock os key' = encryptBlock os key := by
  funext block
  unfold encryptBlock
  rw [sizeBytes_congr hsize]
  cases h : key.size with
  | aes128 =>
      have hbytes : key.sizeBytes = 16 := by rw [SecretKey.sizeBytes, h, KeySize.sizeBytes_aes128]
      simp only [hbytes, if_true, aes128EncryptBlockHw_congr hsize hmaterial h,
        aes128EncryptBlockSoft_congr hsize hmaterial h]
  | aes256 =>
      have hbytes : key.sizeBytes ≠ 16 := by
        rw [SecretKey.sizeBytes, h, KeySize.sizeBytes_aes256]; decide
      simp only [hbytes, if_false, aes256EncryptBlockHw_congr hsize hmaterial h,
        aes256EncryptBlockSoft_congr hsize hmaterial h]

theorem applyKeystreamFrom_congr (os : Os) (start : BitVec 32) (nonce : Vector Byte kNonceSizeBytes)
    (input : List Byte) :
    applyKeystreamFrom os start key' nonce input = applyKeystreamFrom os start key nonce input := by
  have hbody : keystreamBody os key' nonce input = keystreamBody os key nonce input := by
    funext s
    rw [keystreamBody, keystreamBody, encryptBlock_congr hsize hmaterial os]
  rw [applyKeystreamFrom, applyKeystreamFrom, hbody]

theorem computeTag_congr (os : Os) (nonce : Vector Byte kGcmNonceSizeBytes)
    (aad ciphertext : List Byte) :
    AesGcm.computeTag os key' nonce aad ciphertext = AesGcm.computeTag os key nonce aad ciphertext := by
  rw [AesGcm.computeTag, AesGcm.computeTag, encryptBlock_congr hsize hmaterial os]

end Keys

namespace AesGcm

/-- Besides the key object, a call does to the world what `encryptWith` does. -/
theorem encrypt_erases (os : Os) (key : SecretKey) (plaintext aad : List Byte) :
    Erases key (encrypt os plaintext aad) (encryptWith os key plaintext aad) := by
  unfold encrypt encryptWith encryptUnder
  refine Erases.raiseIf_bind _ ?_
  refine Erases.skip (fun w => consumeInvocation_ends w key) ?_
  refine Erases.raiseIf_bind _ ?_
  refine Erases.lift_bind fun nonce => ?_
  refine Erases.skip (fun w => readKey_ends w (consumeGcmInvocation key).2) ?_
  -- the count has moved, the material has not
  have hsize : (consumeGcmInvocation key).2.size = key.size := rfl
  have hmaterial : (consumeGcmInvocation key).2.material = key.material := rfl
  have hstream := applyKeystreamFrom_congr hsize hmaterial os 2 nonce
  have htag := computeTag_congr hsize hmaterial os nonce aad
  simp only [applyKeystream, hstream, htag]
  exact Erases.lift_bind fun ciphertext => Erases.lift_bind fun tag => Erases.pure _

theorem encryptWith_congr {key key' : SecretKey} (hsize : key'.size = key.size)
    (hmaterial : key'.material = key.material)
    (hcount : key'.gcmInvocations ≥ kGcmInvocationLimit ↔ key.gcmInvocations ≥ kGcmInvocationLimit)
    (os : Os) (plaintext aad : List Byte) :
    encryptWith os key' plaintext aad = encryptWith os key plaintext aad := by
  have hcheck : checkGcmInvocationCount (σ := World) key'.gcmInvocations =
    checkGcmInvocationCount key.gcmInvocations := by
    simp only [checkGcmInvocationCount, raiseIf, hcount]
  simp only [encryptWith, encryptUnder, hcheck, applyKeystream, applyKeystreamFrom_congr hsize hmaterial,
    computeTag_congr hsize hmaterial]

end AesGcm

/-- **Only the logical key matters.** An encryption of GCM counts on the key object, and the budget
of one of two keys may be used up before the other's; short of that it too gives the same result in
the same world. -/
theorem logicalKey_determines {key key' : SecretKey} (hsize : key'.size = key.size)
    (hmaterial : key'.material = key.material) :
    (∀ os plaintext, Aes256Ctr.encrypt os key' plaintext = Aes256Ctr.encrypt os key plaintext) ∧
    (∀ os container, Aes256Ctr.decrypt os key' container = Aes256Ctr.decrypt os key container) ∧
    ((key'.gcmInvocations ≥ kGcmInvocationLimit ↔ key.gcmInvocations ≥ kGcmInvocationLimit) →
      ∀ os plaintext aad w r w', (∃ k, Ends (AesGcm.encrypt os plaintext aad) (w, key') r (w', k)) ↔
        ∃ k, Ends (AesGcm.encrypt os plaintext aad) (w, key) r (w', k)) ∧
    (∀ os container aad, AesGcm.decrypt os key' container aad = AesGcm.decrypt os key container aad) ∧
    (∀ os path, SecretKey.saveToFile os key' path = SecretKey.saveToFile os key path) ∧
    (∀ os path passphrase iterations, SecretKey.saveToFileEncrypted os key' path passphrase iterations =
      SecretKey.saveToFileEncrypted os key path passphrase iterations) ∧
    (key.size = .aes128 → ∀ block, aes128EncryptBlockSoft key' block = aes128EncryptBlockSoft key block ∧
      aes128EncryptBlockNi key' block = aes128EncryptBlockNi key block ∧
      aes128EncryptBlockArm key' block = aes128EncryptBlockArm key block ∧
      Riscv.aes128EncryptBlockRiscv key' block = Riscv.aes128EncryptBlockRiscv key block) ∧
    (key.size = .aes256 → ∀ block, aes256EncryptBlockSoft key' block = aes256EncryptBlockSoft key block ∧
      aes256EncryptBlockNi key' block = aes256EncryptBlockNi key block ∧
      aes256EncryptBlockArm key' block = aes256EncryptBlockArm key block ∧
      Riscv.aes256EncryptBlockRiscv key' block = Riscv.aes256EncryptBlockRiscv key block) := by
  have hbytes := sizeBytes_congr hsize
  refine ⟨fun os plaintext => ?_, fun os container => ?_, fun hcount os plaintext aad w r w' => ?_,
    fun os container aad => ?_, fun os path => ?_, fun os path passphrase iterations => ?_,
    fun h128 block => ?_,
    fun h256 block => ?_⟩
  · simp only [Aes256Ctr.encrypt, Aes256Ctr.applyKeystream, applyKeystreamFrom_congr hsize hmaterial]
  · simp only [Aes256Ctr.decrypt, Aes256Ctr.applyKeystream, applyKeystreamFrom_congr hsize hmaterial]
  · rw [AesGcm.encrypt_erases os key' plaintext aad w r w',
      AesGcm.encrypt_erases os key plaintext aad w r w', AesGcm.encryptWith_congr hsize hmaterial hcount]
  · simp only [AesGcm.decrypt, AesGcm.applyKeystream, computeTag_congr hsize hmaterial,
      applyKeystreamFrom_congr hsize hmaterial]
  · simp only [SecretKey.saveToFile, hbytes, hmaterial]
  · have hplaintext :
        (keyBytes key').toList.take key.sizeBytes = (keyBytes key).toList.take key.sizeBytes := by
      rw [← hbytes]
      exact hmaterial.trans (by rw [SecretKey.material, hbytes, keyBytes])
    simp only [SecretKey.saveToFileEncrypted, hbytes, hplaintext]
  · have hsoft := aes128EncryptBlockSoft_congr hsize hmaterial h128 block
    rw [aes128EncryptBlockNi_eq, aes128EncryptBlockNi_eq, aes128EncryptBlockArm_eq,
      aes128EncryptBlockArm_eq, Riscv.aes128EncryptBlockRiscv_eq, Riscv.aes128EncryptBlockRiscv_eq]
    exact ⟨hsoft, hsoft, hsoft, hsoft⟩
  · have hsoft := aes256EncryptBlockSoft_congr hsize hmaterial h256 block
    rw [aes256EncryptBlockNi_eq, aes256EncryptBlockNi_eq, aes256EncryptBlockArm_eq,
      aes256EncryptBlockArm_eq, Riscv.aes256EncryptBlockRiscv_eq, Riscv.aes256EncryptBlockRiscv_eq]
    exact ⟨hsoft, hsoft, hsoft, hsoft⟩

/-- An AES-128 key as `generate` leaves it, with bytes behind the key, and the same key as a loader
makes it. -/
def filledKey : SecretKey where
  bytes := Vector.ofFn fun i => if i.val < 16 then 0 else 0xff
  size := .aes128

theorem logicalKey_determines_filledKey :
    filledKey ≠ { size := .aes128 } ∧
    (∀ os plaintext, Aes256Ctr.encrypt os filledKey plaintext =
      Aes256Ctr.encrypt os { size := .aes128 } plaintext) ∧
    ∀ os plaintext aad w r w', (∃ k, Ends (AesGcm.encrypt os plaintext aad) (w, filledKey) r (w', k)) ↔
      ∃ k, Ends (AesGcm.encrypt os plaintext aad) (w, { size := .aes128 }) r (w', k) := by
  have hsize : filledKey.size = ({ size := .aes128 } : SecretKey).size := rfl
  have hmaterial : filledKey.material = ({ size := .aes128 } : SecretKey).material := by decide +kernel
  obtain ⟨hctr, -, hgcm, -⟩ := logicalKey_determines hsize hmaterial
  exact ⟨by decide +kernel, hctr, hgcm Iff.rfl⟩

/-- The key of zeros after its last encryption. -/
def usedUpKey : SecretKey where
  gcmInvocations := kGcmInvocationLimit

/-- It agrees with the fresh key of zeros, which encrypts where it throws. -/
theorem logicalKey_gcm_usedUpKey :
    usedUpKey.size = ({} : SecretKey).size ∧ usedUpKey.material = ({} : SecretKey).material ∧
    (∃ container s, Ends (AesGcm.encrypt Os.plain [1] []) (World.empty, {}) (.ok container) s) ∧
    ∃ text s, Ends (AesGcm.encrypt Os.plain [1] []) (World.empty, usedUpKey)
      (.error (.limitError text)) s := by
  have hlen : ([1] : List Byte).length ≤ AesGcm.kMaxPlaintextBytes := by decide
  have hlimit : Ends (checkGcmInvocationCount usedUpKey.gcmInvocations : Prog World Error Unit)
      World.empty _ World.empty :=
    ends_raiseIf_pos (BitVec.le_refl _)
  exact ⟨rfl, rfl, ⟨_, _, AesGcm.encrypt_ends Os.plain World.empty {} [] hlen (by decide)
    (generateNonce_serves Os.plain_serves World.empty)⟩,
    ⟨_, _, AesGcm.encrypt_limited Os.plain World.empty usedUpKey [] hlen hlimit⟩⟩

end Aeslib
