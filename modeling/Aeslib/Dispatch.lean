import Aeslib.AesArm
import Aeslib.AesNi
import Aeslib.AesRiscv
import Aeslib.Os

/-!
The choice of a backend: `src/aes_core_hw.cpp`, `src/cpu_detect.cpp` with `src/kat_vector.hpp`, and the
`encrypt_block` that both modes share. Every backend computes the portable one's function, so the block
that comes out depends on the key and on the input alone.
-/

namespace Aeslib

open Prog

def aes256EncryptBlockHw (arch : Arch) (key : SecretKey) (block : Block) : Except Error Block :=
  match arch with
  | .x86 => .ok (aes256EncryptBlockNi key block)
  | .arm64 => .ok (aes256EncryptBlockArm key block)
  | .riscv64 => .ok (Riscv.aes256EncryptBlockRiscv key block)
  | .other => .error
      (.logicError "aes256_encrypt_block_hw called on an architecture with no hardware AES backend")

def aes128EncryptBlockHw (arch : Arch) (key : SecretKey) (block : Block) : Except Error Block :=
  match arch with
  | .x86 => .ok (aes128EncryptBlockNi key block)
  | .arm64 => .ok (aes128EncryptBlockArm key block)
  | .riscv64 => .ok (Riscv.aes128EncryptBlockRiscv key block)
  | .other => .error
      (.logicError "aes128_encrypt_block_hw called on an architecture with no hardware AES backend")

def kKat128Key : Vector Byte 16 :=
  #v[0x00, 0x01, 0x02, 0x03, 0x04, 0x05, 0x06, 0x07, 0x08, 0x09, 0x0a, 0x0b, 0x0c, 0x0d, 0x0e, 0x0f]

def kKat128Plaintext : Block :=
  #v[0x00, 0x11, 0x22, 0x33, 0x44, 0x55, 0x66, 0x77, 0x88, 0x99, 0xaa, 0xbb, 0xcc, 0xdd, 0xee, 0xff]

def kKat128Ciphertext : Block :=
  #v[0x69, 0xc4, 0xe0, 0xd8, 0x6a, 0x7b, 0x04, 0x30, 0xd8, 0xcd, 0xb7, 0x80, 0x70, 0xb4, 0xc5, 0x5a]

def kKat256Key : Vector Byte 32 :=
  #v[0x00, 0x01, 0x02, 0x03, 0x04, 0x05, 0x06, 0x07, 0x08, 0x09, 0x0a, 0x0b, 0x0c, 0x0d, 0x0e, 0x0f,
    0x10, 0x11, 0x12, 0x13, 0x14, 0x15, 0x16, 0x17, 0x18, 0x19, 0x1a, 0x1b, 0x1c, 0x1d, 0x1e, 0x1f]

def kKat256Plaintext : Block :=
  #v[0x00, 0x11, 0x22, 0x33, 0x44, 0x55, 0x66, 0x77, 0x88, 0x99, 0xaa, 0xbb, 0xcc, 0xdd, 0xee, 0xff]

def kKat256Ciphertext : Block :=
  #v[0x8e, 0xa2, 0xb7, 0xca, 0x51, 0x67, 0x45, 0xbf, 0xea, 0xfc, 0x49, 0x90, 0x4b, 0x49, 0x60, 0x89]

def katMatches (hwEncrypt : SecretKey → Block → Except Error Block) (key : SecretKey)
    (plaintext expected : Block) : Except Error Bool := do
  let block ← hwEncrypt key plaintext
  pure (block == expected)

def hwBackendPassesSelfTest (arch : Arch) : Except Error Bool := do
  let key128 := keyFromBytes kKat128Key.toList .aes128
  if ← katMatches (aes128EncryptBlockHw arch) key128 kKat128Plaintext kKat128Ciphertext then
    let key256 := keyFromBytes kKat256Key.toList .aes256
    katMatches (aes256EncryptBlockHw arch) key256 kKat256Plaintext kKat256Ciphertext
  else pure false

/-- `cpu::has_hw_aes`. Its value is computed once; the capability bit does not change. -/
def hasHwAes (os : Os) : Except Error Bool :=
  match os.arch with
  | .other => .ok false
  | arch => if os.cpuHasAes then hwBackendPassesSelfTest arch else .ok false

inductive Backend where
  | software
  | hardware
  deriving DecidableEq

def forcesSoftware : Option String → Bool
  | none => false
  | some value => value != "" && value != "0"

def activeBackend (os : Os) : Prog World Error Backend := op fun w =>
  let forceSoftware := os.getenv w.clock
  if forcesSoftware forceSoftware then (.ok .software, w.tick)
  else ((hasHwAes os).map fun hw => if hw then .hardware else .software, w.tick)

/-- `encrypt_block`; `aes256_ctr.cpp` and `aes_gcm.cpp` each hold a copy. -/
def encryptBlock (os : Os) (key : SecretKey) (block : Block) : Prog World Error Block := do
  let backend ← activeBackend os
  let hw := backend == .hardware
  record (.cipher block)
  ofExcept <|
    if key.sizeBytes = 16 then
      if hw then aes128EncryptBlockHw os.arch key block else .ok (aes128EncryptBlockSoft key block)
    else if hw then aes256EncryptBlockHw os.arch key block else .ok (aes256EncryptBlockSoft key block)

/-- The block function that the key size selects. -/
def blockCipher (key : SecretKey) (block : Block) : Block :=
  if key.sizeBytes = 16 then aes128EncryptBlockSoft key block else aes256EncryptBlockSoft key block

theorem encryptBlockHw_eq {arch : Arch} (harch : arch ≠ .other) (key : SecretKey) (block : Block) :
    aes128EncryptBlockHw arch key block = .ok (aes128EncryptBlockSoft key block) ∧
      aes256EncryptBlockHw arch key block = .ok (aes256EncryptBlockSoft key block) := by
  cases arch with
  | x86 =>
      simp only [aes128EncryptBlockHw, aes256EncryptBlockHw, aes128EncryptBlockNi_eq,
        aes256EncryptBlockNi_eq, and_self]
  | arm64 =>
      simp only [aes128EncryptBlockHw, aes256EncryptBlockHw, aes128EncryptBlockArm_eq,
        aes256EncryptBlockArm_eq, and_self]
  | riscv64 =>
      simp only [aes128EncryptBlockHw, aes256EncryptBlockHw, Riscv.aes128EncryptBlockRiscv_eq,
        Riscv.aes256EncryptBlockRiscv_eq, and_self]
  | other => exact absurd rfl harch

theorem katMatches_ok {hwEncrypt : SecretKey → Block → Except Error Block} {key : SecretKey}
    {plaintext block : Block} (h : hwEncrypt key plaintext = .ok block) (expected : Block) :
    katMatches hwEncrypt key plaintext expected = .ok (block == expected) := by
  rw [katMatches, h]
  rfl

theorem hwBackendPassesSelfTest_ok {arch : Arch} (harch : arch ≠ .other) :
    ∃ passes, hwBackendPassesSelfTest arch = .ok passes := by
  obtain ⟨b128, h128⟩ := (⟨_, katMatches_ok (encryptBlockHw_eq harch _ _).1 kKat128Ciphertext⟩ :
    ∃ b, katMatches (aes128EncryptBlockHw arch) (keyFromBytes kKat128Key.toList .aes128) kKat128Plaintext
      kKat128Ciphertext = .ok b)
  obtain ⟨b256, h256⟩ := (⟨_, katMatches_ok (encryptBlockHw_eq harch _ _).2 kKat256Ciphertext⟩ :
    ∃ b, katMatches (aes256EncryptBlockHw arch) (keyFromBytes kKat256Key.toList .aes256) kKat256Plaintext
      kKat256Ciphertext = .ok b)
  refine ⟨b128 && b256, ?_⟩
  rw [hwBackendPassesSelfTest, h128, h256]
  cases b128 <;> rfl

/-- The capability check never throws, and holds only where there is a hardware backend. -/
theorem hasHwAes_ok (os : Os) : ∃ hw, hasHwAes os = .ok hw ∧ (hw = true → os.arch ≠ .other) := by
  unfold hasHwAes
  split
  · exact ⟨false, rfl, by simp⟩
  · rename_i arch hne
    split_ifs
    · obtain ⟨b, hb⟩ := hwBackendPassesSelfTest_ok hne
      exact ⟨b, hb, fun _ => hne⟩
    · exact ⟨false, rfl, fun _ => hne⟩

theorem activeBackend_ends (os : Os) (w : World) :
    ∃ backend, Ends (activeBackend os) w (.ok backend) w.tick ∧
    (backend = .hardware → os.arch ≠ .other) := by
  obtain ⟨hw, hok, harch⟩ := hasHwAes_ok os
  by_cases hforce : forcesSoftware (os.getenv w.clock) = true
  · exact ⟨.software, by simp [activeBackend, hforce], by simp⟩
  · refine ⟨if hw then .hardware else .software, by simp [activeBackend, hforce, hok, Except.map],
      fun h => ?_⟩
    cases hw with
    | true => exact harch rfl
    | false => simp at h

/-- Whatever the answers of the platform, a block encryption is `blockCipher`. -/
theorem encryptBlock_ends (os : Os) (w : World) (key : SecretKey) (block : Block) :
    Ends (encryptBlock os key block) w (.ok (blockCipher key block))
      (w.tick.record (.cipher block)) := by
  obtain ⟨backend, hbackend, harch⟩ := activeBackend_ends os w
  rw [encryptBlock, hbackend.bind_iff, (record_ends _ _).bind_iff, ends_ofExcept, blockCipher,
    apply_ite Except.ok]
  refine ⟨?_, rfl⟩
  cases backend with
  | software => rfl
  | hardware =>
      obtain ⟨h128, h256⟩ := encryptBlockHw_eq (harch rfl) key block
      simp only [h128, h256, beq_self_eq_true, if_true]

end Aeslib
