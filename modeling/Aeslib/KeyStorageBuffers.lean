import Aeslib.KeyStorageRoundTrip
import Aeslib.LibScope

/-!
The secrets on the stack and the heap of the key-wrapping code. The writer and the reader of
`src/key_storage.cpp` once more, with each buffer that holds key bytes, its guard or destructor, the
wipes in between, and every allocation, which may be denied; where none is, they are without the
buffers the functions of the model. The reader zeroes every buffer on every way out. The writer
keeps the raw key in `plaintext_key`, which no guard wipes, and the call after it draws a nonce and
allocates.
-/

namespace Aeslib

open Prog Scope

/-- The buffers with key bytes of the two functions. -/
inductive Buffer where
  | derived
  | wrapKey
  | plaintextKey
  | macKeyArray
  | decryptedBytes
  deriving DecidableEq

/-- The allocations of the two functions, by the objects they are for. -/
inductive KeyAllocation where
  | fileData
  | wrappedCiphertext
  /-- `u_input_buf` of the first block of PBKDF2. -/
  | uInput
  /-- That of the second, when the first block has been derived. -/
  | secondUInput
  | plaintextKey
  /-- The result of `apply_keystream`. -/
  | output
  | plaintextPart
  /-- `path.string()`. -/
  | path
  deriving DecidableEq

def reserve (denies : KeyAllocation → Bool) (a : KeyAllocation) : Prog World Error Unit :=
  raiseIf (denies a = true) .badAlloc

namespace Aes256Ctr

/-- `apply_keystream` with the allocation of its result. -/
def applyKeystreamReserving (os : Os) (denies : KeyAllocation → Bool) (key : SecretKey)
    (nonce : Vector Byte kNonceSizeBytes) (input : List Byte) : Prog World Error (List Byte) := do
  reserve denies .output
  applyKeystream os key nonce input

def encryptReserving (os : Os) (denies : KeyAllocation → Bool) (key : SecretKey)
    (plaintext : List Byte) : Prog World Error Container := do
  validateBlockCount plaintext.length
  let nonce ← generateNonce os
  let ciphertext ← applyKeystreamReserving os denies key nonce plaintext
  pure { nonce, ciphertext }

def decryptReserving (os : Os) (denies : KeyAllocation → Bool) (key : SecretKey)
    (container : Container) : Prog World Error (List Byte) := do
  validateBlockCount container.ciphertext.length
  applyKeystreamReserving os denies key container.nonce container.ciphertext

end Aes256Ctr

/-- `pbkdf2_hmac_sha256` with the allocations of its two blocks. -/
def pbkdf2HmacSha256Reserving (denies : KeyAllocation → Bool) (passphrase salt : List Byte)
    (iterations : BitVec 32) : Prog World Error (Vector Byte 64) := do
  reserve denies .uInput
  let derived ← pbkdf2HmacSha256 passphrase salt iterations
  reserve denies .secondUInput
  pure derived

/-- `save_to_file_encrypted` from `plaintext_key` on. -/
def sealKeyBuffers (os : Os) (denies : KeyAllocation → Bool) (key : SecretKey) (path : String)
    (salt : Vector Byte kSaltSize) (iterations : BitVec 32) (derived : Vector Byte 64) :
    Prog (World × Scope Buffer Byte) Error Unit := do
  let keyLen := key.sizeBytes
  let wrapKey := wrapKeyOf derived
  let plaintextKey := (keyBytes key).toList.take keyLen
  lift (reserve denies .plaintextKey)
  -- the only buffer without a guard
  withBuffer .plaintextKey false plaintextKey do
    let wrappedContainer ← lift (Aes256Ctr.encryptReserving os denies wrapKey plaintextKey)
    secureWipe .plaintextKey
    lift (raiseIf (wrappedContainer.ciphertext.length ≠ keyLen)
      (.ioError "internal: wrapped key ciphertext size mismatch"))
    lift (reserve denies .plaintextPart)
    let part ← lift (ofExcept (plaintextPart keyLen salt iterations wrappedContainer))
    let macKeyArray := macKeyOf derived
    withBuffer .macKeyArray true macKeyArray.toList do
      let tag := hmacSha256 macKeyArray.toList part
      secureWipe .macKeyArray
      secureWipe .derived
      lift (reserve denies .path)
      lift (writeNewFile os path "failed to create encrypted key file: "
        "refusing to write encrypted key file through a symlink/reparse point: "
        "failed to write encrypted key file: "
        (Transfer.andThen (fun fd => writeLoop os fd part) fun fd => writeLoop os fd tag.toList)
        (Transfer.andThen (fun h => writeFileWin os h part) fun h => writeFileWin os h tag.toList))

def saveToFileEncryptedBuffers (os : Os) (denies : KeyAllocation → Bool) (key : SecretKey)
    (path : String) (passphrase : List Byte) (iterations : BitVec 32) :
    Prog (World × Scope Buffer Byte) Error Unit := do
  lift (raiseIf (iterations < kMinPbkdf2Iterations)
    (.limitError ("PBKDF2 iteration count must be at least " ++ toString kMinPbkdf2Iterations.toNat)))
  let salt ← lift (fillRandom os (Vector.replicate kSaltSize 0))
  let derived ← lift (pbkdf2HmacSha256Reserving denies passphrase salt.toList iterations)
  withBuffer .derived true derived.toList do
    -- wiped by the destructor of `wrap_key`
    withBuffer .wrapKey true (wrapKeyOf derived).bytes.toList do
      let _nonce ← lift (fillRandom os (Vector.replicate kNonceSize 0))
      sealKeyBuffers os denies key path salt iterations derived

/-- `load_from_file_encrypted` from the derivation on. -/
def unwrapKeyBuffers (os : Os) (denies : KeyAllocation → Bool) (passphrase fileData : List Byte)
    (fields : WrappedKeyFields) : Prog (World × Scope Buffer Byte) Error SecretKey := do
  let keyLen := fields.sizeMarker.toNat
  let derived ← lift (pbkdf2HmacSha256Reserving denies passphrase fields.salt.toList fields.iterations)
  withBuffer .derived true derived.toList do
    let macKeyArray := macKeyOf derived
    withBuffer .macKeyArray true macKeyArray.toList do
      let part ← lift (ofExcept (readBytes fileData 0 (kWrappedKeyOffset + keyLen)))
      let computedTag := hmacSha256 macKeyArray.toList part.toList
      lift (raiseIf (constantTimeEqual computedTag fields.storedTag = false) (.authenticationError
        "encrypted key file authentication failed: wrong passphrase or corrupted file"))
      let wrapKey := wrapKeyOf derived
      withBuffer .wrapKey true wrapKey.bytes.toList do
        let wrappedContainer : Container :=
          { nonce := fields.nonce, ciphertext := fields.wrappedCiphertext }
        let decryptedBytes ← lift (Aes256Ctr.decryptReserving os denies wrapKey wrappedContainer)
        withBuffer .decryptedBytes true decryptedBytes do
          lift (raiseIf (decryptedBytes.length ≠ keyLen)
            (.formatError "encrypted key file: decrypted key has wrong size"))
          let result : SecretKey := { size := .ofMarker fields.sizeMarker }
          lift (pure { result with bytes := copyToStorage result.bytes decryptedBytes })

def loadFromFileEncryptedBuffers (os : Os) (denies : KeyAllocation → Bool) (path : String)
    (passphrase : List Byte) : Prog (World × Scope Buffer Byte) Error SecretKey := do
  lift (reserve denies .fileData)
  let fileData ← lift (readFile os path)
  let sizeMarker ← lift (ofExcept (checkWrappedKeyHeader fileData))
  lift (reserve denies .wrappedCiphertext)
  let fields ← lift (ofExcept (readWrappedKeyFields fileData sizeMarker))
  unwrapKeyBuffers os denies passphrase fileData fields

section Erasure

/-- No allocation is denied. -/
def Unlimited (denies : KeyAllocation → Bool) : Prop := ∀ a, denies a = false

variable {denies : KeyAllocation → Bool} (hdenies : Unlimited denies)

include hdenies

theorem reserve_eq (a : KeyAllocation) : reserve denies a = pure () := by
  rw [reserve, raiseIf, if_neg (by simp [hdenies a])]

theorem applyKeystreamReserving_eq (os : Os) (key : SecretKey) (nonce : Vector Byte kNonceSizeBytes)
    (input : List Byte) :
    Aes256Ctr.applyKeystreamReserving os denies key nonce input =
      Aes256Ctr.applyKeystream os key nonce input := by
  rw [Aes256Ctr.applyKeystreamReserving, reserve_eq hdenies, pure_bind]

theorem encryptReserving_eq (os : Os) (key : SecretKey) (plaintext : List Byte) :
    Aes256Ctr.encryptReserving os denies key plaintext = Aes256Ctr.encrypt os key plaintext := by
  simp only [Aes256Ctr.encryptReserving, Aes256Ctr.encrypt, applyKeystreamReserving_eq hdenies]

theorem decryptReserving_eq (os : Os) (key : SecretKey) (container : Container) :
    Aes256Ctr.decryptReserving os denies key container = Aes256Ctr.decrypt os key container := by
  simp only [Aes256Ctr.decryptReserving, Aes256Ctr.decrypt, applyKeystreamReserving_eq hdenies]

theorem pbkdf2HmacSha256Reserving_eq (passphrase salt : List Byte) (iterations : BitVec 32) :
    pbkdf2HmacSha256Reserving denies passphrase salt iterations =
      pbkdf2HmacSha256 passphrase salt iterations := by
  simp only [pbkdf2HmacSha256Reserving, reserve_eq hdenies, pure_bind]
  refine eq_of_run fun n s => ?_
  rw [run_bind]
  rcases (pbkdf2HmacSha256 passphrase salt iterations).run n s with _ | ⟨_ | _, _⟩ <;> rfl

variable (os : Os) (key : SecretKey) (path : String) (passphrase : List Byte) (iterations : BitVec 32)
  (k : Scope Buffer Byte)

theorem reserve_erases (a : KeyAllocation) {k : Scope Buffer Byte} {α : Type}
    {f : Unit → Prog (World × Scope Buffer Byte) Error α} {q : Prog World Error α}
    (hf : Erases k (f ()) q) : Erases k (lift (reserve denies a) >>= f) q := by
  rw [reserve_eq hdenies]
  exact Erases.skip (fun w => Ends.lift ((ends_pure _ w _ _).mpr ⟨rfl, rfl⟩) k) hf

theorem saveToFileEncryptedBuffers_erases :
    Erases k (saveToFileEncryptedBuffers os denies key path passphrase iterations)
    (key.saveToFileEncrypted os path passphrase iterations) := by
  unfold saveToFileEncryptedBuffers SecretKey.saveToFileEncrypted sealKeyBuffers
  refine Erases.lift_bind fun _ => Erases.lift_bind fun salt => ?_
  rw [pbkdf2HmacSha256Reserving_eq hdenies]
  refine Erases.lift_bind fun derived => ?_
  refine Erases.withBuffer (fun k => Erases.withBuffer (fun k => ?_) _) _
  refine Erases.lift_bind fun _ => reserve_erases hdenies .plaintextKey ?_
  refine Erases.withBuffer (fun k => ?_) _
  rw [encryptReserving_eq hdenies]
  refine Erases.lift_bind fun container => ?_
  refine Erases.skip (fun w => secureWipe_ends .plaintextKey w k) ?_
  refine Erases.lift_bind fun _ => reserve_erases hdenies .plaintextPart
    (Erases.lift_bind fun part => ?_)
  refine Erases.withBuffer (fun k => ?_) _
  refine Erases.skip (fun w => secureWipe_ends .macKeyArray w k) ?_
  refine Erases.skip (fun w => secureWipe_ends .derived w (k.wipe .macKeyArray)) ?_
  exact reserve_erases hdenies .path (Erases.lift _)

theorem loadFromFileEncryptedBuffers_erases :
    Erases k (loadFromFileEncryptedBuffers os denies path passphrase)
    (SecretKey.loadFromFileEncrypted os path passphrase) := by
  unfold loadFromFileEncryptedBuffers SecretKey.loadFromFileEncrypted
  refine reserve_erases hdenies .fileData (Erases.lift_bind fun fileData => Erases.lift_bind fun _ => ?_)
  refine reserve_erases hdenies .wrappedCiphertext (Erases.lift_bind fun fields => ?_)
  unfold unwrapKeyBuffers unwrapKey
  rw [pbkdf2HmacSha256Reserving_eq hdenies]
  refine Erases.lift_bind fun derived => ?_
  refine Erases.withBuffer (fun k => Erases.withBuffer (fun k => ?_) _) _
  refine Erases.lift_bind fun part => Erases.lift_bind fun _ => ?_
  refine Erases.withBuffer (fun k => ?_) _
  dsimp only
  rw [decryptReserving_eq hdenies]
  refine Erases.lift_bind fun decryptedBytes => ?_
  refine Erases.withBuffer (fun k => ?_) _
  exact Erases.lift_bind fun _ => Erases.lift _

end Erasure

section Released

variable (os : Os) (denies : KeyAllocation → Bool) (key : SecretKey) (path : String)
  (passphrase : List Byte) (iterations : BitVec 32)

theorem Preserves.lift_within {α : Type} (J : Set Buffer) (p : Prog World Error α) :
    Preserves (fun s : World × Scope Buffer Byte => s.2.Within J) (lift p) := Preserves.lift (Within J) p

theorem Preserves.secureWipe_within (J : Set Buffer) (i : Buffer) :
    Preserves (fun s : World × Scope Buffer Byte => s.2.Within J) (secureWipe i : Prog _ Error Unit) :=
  Preserves.op fun _ hs => hs.wipe i

theorem saveToFileEncryptedBuffers_releases : Preserves (fun s => s.2.Within ∅)
    (saveToFileEncryptedBuffers os denies key path passphrase iterations) := by
  unfold saveToFileEncryptedBuffers sealKeyBuffers
  refine (Preserves.lift_within _ _).bind fun _ => (Preserves.lift_within _ _).bind fun salt => ?_
  refine (Preserves.lift_within _ _).bind fun derived => ?_
  refine Preserves.withBuffer (Preserves.withBuffer ?_)
  refine (Preserves.lift_within _ _).bind fun _ => (Preserves.lift_within _ _).bind fun _ => ?_
  refine Preserves.withBuffer ?_
  refine (Preserves.lift_within _ _).bind fun container =>
    (Preserves.secureWipe_within _ _).bind fun _ => ?_
  refine (Preserves.lift_within _ _).bind fun _ => (Preserves.lift_within _ _).bind fun _ => ?_
  refine (Preserves.lift_within _ _).bind fun part => Preserves.withBuffer ?_
  refine (Preserves.secureWipe_within _ _).bind fun _ =>
    (Preserves.secureWipe_within _ _).bind fun _ => ?_
  exact (Preserves.lift_within _ _).bind fun _ => Preserves.lift_within _ _

theorem loadFromFileEncryptedBuffers_releases : Preserves (fun s => s.2.Within ∅)
    (loadFromFileEncryptedBuffers os denies path passphrase) := by
  unfold loadFromFileEncryptedBuffers
  refine (Preserves.lift_within _ _).bind fun _ => (Preserves.lift_within _ _).bind fun fileData => ?_
  refine (Preserves.lift_within _ _).bind fun _ => (Preserves.lift_within _ _).bind fun _ => ?_
  refine (Preserves.lift_within _ _).bind fun fields =>
    (Preserves.lift_within _ _).bind fun derived => ?_
  refine Preserves.withBuffer (Preserves.withBuffer ?_)
  refine (Preserves.lift_within _ _).bind fun part => (Preserves.lift_within _ _).bind fun _ => ?_
  refine Preserves.withBuffer ?_
  refine (Preserves.lift_within _ _).bind fun decryptedBytes => ?_
  refine Preserves.withBuffer ?_
  exact (Preserves.lift_within _ _).bind fun _ => Preserves.lift_within _ _

end Released

/-- An allocation may be denied anywhere. -/
theorem loadFromFileEncryptedBuffers_wipes (os : Os) (denies : KeyAllocation → Bool) (path : String)
    (passphrase : List Byte) (w : World) {k : Scope Buffer Byte} (hk : k.Safe ∅) :
    Wipes ∅ (loadFromFileEncryptedBuffers os denies path passphrase) (w, k) := by
  have hguarded (i : Buffer) : i ∉ (∅ : Set Buffer) := Set.notMem_empty i
  unfold loadFromFileEncryptedBuffers
  refine (wipes_lift_bind_of_safe hk).mpr fun _ w _ =>
    (wipes_lift_bind_of_safe hk).mpr fun fileData w _ => ?_
  refine (wipes_lift_bind_of_safe hk).mpr fun _ w _ => (wipes_lift_bind_of_safe hk).mpr fun _ w _ => ?_
  refine (wipes_lift_bind_of_safe hk).mpr fun fields w _ => ?_
  refine (wipes_lift_bind_of_safe hk).mpr fun derived w _ =>
    (wipes_withBuffer_guarded (hguarded .derived)).mpr ?_
  have hk := (safe_store (hguarded .derived) derived.toList).mpr hk
  refine (wipes_withBuffer_guarded (hguarded .macKeyArray)).mpr ?_
  have hk := (safe_store (hguarded .macKeyArray) (macKeyOf derived).toList).mpr hk
  refine (wipes_lift_bind_of_safe hk).mpr fun part w _ =>
    (wipes_lift_bind_of_safe hk).mpr fun _ w _ => ?_
  refine (wipes_withBuffer_guarded (hguarded .wrapKey)).mpr ?_
  have hk := (safe_store (hguarded .wrapKey) (wrapKeyOf derived).bytes.toList).mpr hk
  refine (wipes_lift_bind_of_safe hk).mpr fun decryptedBytes w _ => ?_
  refine (wipes_withBuffer_guarded (hguarded .decryptedBytes)).mpr ?_
  have hk := (safe_store (hguarded .decryptedBytes) decryptedBytes).mpr hk
  exact (wipes_lift_bind_of_safe hk).mpr fun _ w _ => wipes_lift hk

/-- An encryption of key material throws where its draw fails, or where it succeeds and `output` is
denied. -/
def EncryptionThrows (os : Os) (denies : KeyAllocation → Bool) (w : World) : Prop :=
  (∃ e w', Ends (generateNonce os) w (.error e) w') ∨
    denies .output = true ∧ ∃ nonce w', Ends (generateNonce os) w (.ok nonce) w'

theorem encryptReserving_throws_iff {os : Os} {denies : KeyAllocation → Bool} {w : World}
    (key : SecretKey) {plaintext : List Byte} (hlen : plaintext.length ≤ Aes256Ctr.kMaxPlaintextBytes) :
    (∃ e w', Ends (Aes256Ctr.encryptReserving os denies key plaintext) w (.error e) w') ↔
      EncryptionThrows os denies w := by
  simp only [Aes256Ctr.encryptReserving, (Aes256Ctr.validateBlockCount_ends hlen w).bind_iff]
  constructor
  · rintro ⟨e, w', h⟩
    rcases ends_bind.mp h with ⟨nonce, w₁, hnonce, hrest⟩ | ⟨e', -, hthrow⟩
    · refine .inr ⟨?_, nonce, w₁, hnonce⟩
      by_contra hgranted
      have hreserve : Ends (reserve denies .output) w₁ (.ok ()) w₁ := ends_raiseIf_neg hgranted
      have hstream := applyKeystreamFrom_ends key 0 nonce plaintext os w₁
      rw [Aes256Ctr.applyKeystreamReserving, bind_bind, hreserve.bind_iff, Aes256Ctr.applyKeystream,
        hstream.bind_iff, ends_pure] at hrest
      exact absurd hrest.1 (by simp)
    · exact .inl ⟨e', w', hthrow⟩
  · rintro (⟨e, w', hthrow⟩ | ⟨hdenied, nonce, w₁, hnonce⟩)
    · exact ⟨e, w', hthrow.bind_error _⟩
    · have hreserve : Ends (reserve denies .output) w₁ (.error .badAlloc) w₁ := ends_raiseIf_pos hdenied
      exact ⟨.badAlloc, w₁, hnonce.bind ((hreserve.bind_error _).bind_error _)⟩

section Writer

variable {os : Os} {denies : KeyAllocation → Bool} {key : SecretKey} {path : String}
  {passphrase : List Byte} {iterations : BitVec 32} {w : World} {k : Scope Buffer Byte}

/-- An allocation in a safe scope. -/
theorem wipes_reserve_bind {J : Set Buffer} (hk : k.Safe J) (a : KeyAllocation) {α : Type}
    {f : Unit → Prog (World × Scope Buffer Byte) Error α} :
    Wipes J (lift (reserve denies a) >>= f) (w, k) ↔ denies a = true ∨ Wipes J (f ()) (w, k) := by
  by_cases hdenied : denies a = true
  · refine iff_of_true ((wipes_lift_bind_of_safe hk).mpr fun _ w' h => ?_) (Or.inl hdenied)
    exact absurd (h.unique (ends_raiseIf_pos hdenied)).1 (by simp)
  · have hgranted : Ends (reserve denies a) w (.ok ()) w := ends_raiseIf_neg hdenied
    rw [wipes_lift_bind_of_ends hgranted, or_iff_right hdenied]

theorem sealKeyBuffers_wipes (salt : Vector Byte kSaltSize) (derived : Vector Byte 64) (hk : k.Safe ∅) :
    Wipes ∅ (sealKeyBuffers os denies key path salt iterations derived) (w, k) ↔
      denies .plaintextKey = true ∨ (∀ b ∈ key.material, b = 0) ∨ ¬EncryptionThrows os denies w := by
  have hplain : Buffer.plaintextKey ∉ (∅ : Set Buffer) := Set.notMem_empty _
  have hmac : Buffer.macKeyArray ∉ insert Buffer.plaintextKey (∅ : Set Buffer) := by simp
  have hstored := (safe_store hplain key.material).mpr hk
  rw [sealKeyBuffers, wipes_reserve_bind hk, wipes_withBuffer_bare hplain, wipes_lift_bind,
    and_iff_right]
  · have hsafe : ((k.store .plaintextKey key.material).Safe (insert .plaintextKey ∅)) ↔
        ∀ b ∈ key.material, b = 0 := by
      rw [safe_insert, clean_store, and_iff_right hstored]
    rw [← encryptReserving_throws_iff (wrapKeyOf derived) (length_material_le key)]
    push Not
    exact or_congr_right (or_congr_left hsafe)
  · -- once the encryption has returned, the raw key is wiped before anything can throw
    intro container w _
    rw [wipes_secureWipe_bind]
    have hk := (safe_wipe hplain).mpr hstored
    refine (wipes_lift_bind_of_safe hk).mpr fun _ w _ => (wipes_lift_bind_of_safe hk).mpr fun _ w _ => ?_
    refine (wipes_lift_bind_of_safe hk).mpr fun part w _ => ?_
    rw [wipes_withBuffer_guarded hmac, wipes_secureWipe_bind, wipes_secureWipe_bind]
    have hk := (((safe_store hmac (macKeyOf derived).toList).mpr hk).wipe .macKeyArray).wipe .derived
    exact (wipes_lift_bind_of_safe hk).mpr fun _ w _ => wipes_lift hk

variable (os denies w) in
/-- The salt and the first nonce are drawn, and then the encryption of `plaintext_key` throws. -/
def WrappingThrows : Prop :=
  ∃ salt w₁ nonce w₂, Ends (fillRandom os (Vector.replicate kSaltSize 0)) w (.ok salt) w₁ ∧
    Ends (fillRandom os (Vector.replicate kNonceSize 0)) w₁ (.ok nonce) w₂ ∧
    EncryptionThrows os denies w₂

/-- A draw does not see what the derivation records. -/
theorem fillRandom_derived {n : Nat} (os : Os) (buffer : Vector Byte n) (iterations : BitVec 32) :
    Frames (World.derived · iterations) (fillRandom os buffer) := by
  unfold fillRandom
  split
  · refine Frames.op fun w => ?_
    change (if os.bcryptGenRandom w.clock then _ else _) = _
    split_ifs <;> rfl
  · refine Frames.loop (fun s => ?_) _
    obtain ⟨buffer, filled⟩ := s
    simp only [getrandomStep]
    split_ifs
    · refine Frames.op fun w => ?_
      have hclock : (w.derived iterations).clock = w.clock := rfl
      simp only [hclock]
      cases os.getrandom w.clock (n - filled) <;> rfl
    · exact Frames.pure _
  · exact Frames.op fun w => rfl

theorem encryptionThrows_derived (os : Os) (denies : KeyAllocation → Bool) (w : World)
    (iterations : BitVec 32) :
    EncryptionThrows os denies (w.derived iterations) ↔ EncryptionThrows os denies w := by
  have hframe : Frames (World.derived · iterations) (generateNonce os) :=
    fillRandom_derived os _ iterations
  have hends (r : Except Error (Vector Byte kNonceSizeBytes)) :
      (∃ w', Ends (generateNonce os) (w.derived iterations) r w') ↔
      ∃ w', Ends (generateNonce os) w r w' := by
    constructor
    · rintro ⟨w', h⟩
      obtain ⟨v, hv, -⟩ := hframe.ends.mp h
      exact ⟨v, hv⟩
    · rintro ⟨w', h⟩
      exact ⟨w'.derived iterations, hframe.ends.mpr ⟨w', h, rfl⟩⟩
  simp only [EncryptionThrows, hends]

theorem reserving_derives_iff {salt : List Byte} {derived : Vector Byte 64} {w' : World} :
    Ends (pbkdf2HmacSha256Reserving denies passphrase salt iterations) w (.ok derived) w' ↔
      ¬denies .uInput = true ∧ ¬denies .secondUInput = true ∧
        Ends (pbkdf2HmacSha256 passphrase salt iterations) w (.ok derived) w' := by
  rw [pbkdf2HmacSha256Reserving]
  by_cases hfirst : denies .uInput = true
  · have hthrow : Ends (reserve denies .uInput) w (.error .badAlloc) w := ends_raiseIf_pos hfirst
    rw [hthrow.bind_error_iff]
    exact iff_of_false (fun h => by simp at h) fun h => h.1 hfirst
  have hgranted : Ends (reserve denies .uInput) w (.ok ()) w := ends_raiseIf_neg hfirst
  rw [hgranted.bind_iff, and_iff_right hfirst]
  constructor
  · intro h
    rcases ends_bind.mp h with ⟨derived', w₁, hderive, hrest⟩ | ⟨e, he, -⟩
    · rcases ends_bind.mp hrest with ⟨_, w₂, hsecond, hpure⟩ | ⟨e, he, -⟩
      · have hgranted : ¬denies .secondUInput = true := fun hdenied =>
          absurd (hsecond.unique (ends_raiseIf_pos hdenied)).1 (by simp)
        obtain ⟨-, rfl⟩ := hsecond.unique (ends_raiseIf_neg hgranted)
        obtain ⟨hderived, rfl⟩ := (ends_pure _ _ _ _).mp hpure
        exact ⟨hgranted, Except.ok.inj hderived ▸ hderive⟩
      · simp at he
    · simp at he
  · rintro ⟨hsecond, hderive⟩
    exact hderive.bind ((ends_raiseIf_neg hsecond).bind ((ends_pure _ _ _ _).mpr ⟨rfl, rfl⟩))

/-- The writer with a count that it accepts and whose derivation ends. -/
theorem saveToFileEncryptedBuffers_wipes (hmin : 1000 ≤ iterations.toNat)
    (hmax : iterations.toNat < 2 ^ 32 - 1) (hk : k.Safe ∅) :
    Wipes ∅ (saveToFileEncryptedBuffers os denies key path passphrase iterations) (w, k) ↔
      denies .uInput = true ∨ denies .secondUInput = true ∨ denies .plaintextKey = true ∨
        (∀ b ∈ key.material, b = 0) ∨ ¬WrappingThrows os denies w := by
  have hguarded (i : Buffer) : i ∉ (∅ : Set Buffer) := Set.notMem_empty i
  have hlimit : ¬iterations < kMinPbkdf2Iterations := Nat.not_lt.mpr hmin
  have hbody (salt : Vector Byte kSaltSize) (derived : Vector Byte 64) (w : World) :
      Wipes ∅ (withBuffer .derived true derived.toList
        (withBuffer .wrapKey true (wrapKeyOf derived).bytes.toList
        (lift (fillRandom os (Vector.replicate kNonceSize 0)) >>= fun _ =>
          sealKeyBuffers os denies key path salt iterations derived))) (w, k) ↔
      ∀ nonce w₂, Ends (fillRandom os (Vector.replicate kNonceSize 0)) w (.ok nonce) w₂ →
        denies .plaintextKey = true ∨ (∀ b ∈ key.material, b = 0) ∨ ¬EncryptionThrows os denies w₂ := by
    have hk := (safe_store (hguarded .derived) derived.toList).mpr hk
    have hk := (safe_store (hguarded .wrapKey) (wrapKeyOf derived).bytes.toList).mpr hk
    rw [wipes_withBuffer_guarded (hguarded .derived), wipes_withBuffer_guarded (hguarded .wrapKey),
      wipes_lift_bind_of_safe hk]
    exact forall₃_congr fun _ w₂ _ => sealKeyBuffers_wipes salt derived hk
  have hderive (salt : Vector Byte kSaltSize) (w₁ : World) :=
    pbkdf2HmacSha256_ends passphrase salt.toList w₁ (show 0 < iterations.toNat by omega) hmax
  rw [saveToFileEncryptedBuffers, wipes_lift_bind_of_ends (ends_raiseIf_neg hlimit),
    wipes_lift_bind_of_safe hk]
  simp only [wipes_lift_bind_of_safe hk, reserving_derives_iff, hbody]
  constructor
  · intro h
    by_contra hnone
    push Not at hnone
    obtain ⟨hfirst, hsecond, hplain, hbytes, salt, w₁, nonce, w₂, hsalt, hnonce, hthrow⟩ := hnone
    have hnonce' := (fillRandom_derived os _ iterations).ends.mpr ⟨w₂, hnonce, rfl⟩
    have hthrow' := (encryptionThrows_derived os denies w₂ iterations).mpr hthrow
    rcases h salt w₁ hsalt _ _ ⟨hfirst, hsecond, hderive salt w₁⟩ nonce _
      hnonce' with hdenied | hzero | hnever
    · exact hplain hdenied
    · obtain ⟨b, hb, hne⟩ := hbytes
      exact hne (hzero b hb)
    · exact hnever hthrow'
  · rintro h salt w₁ hsalt derived w₁' ⟨hfirst, hsecond, hderived⟩ nonce w₂' hnonce'
    refine ((h.resolve_left hfirst).resolve_left hsecond).imp_right (Or.imp_right fun hnot hthrow => ?_)
    obtain ⟨-, rfl⟩ := hderived.unique (hderive salt w₁)
    obtain ⟨w₂, hnonce, rfl⟩ := (fillRandom_derived os _ iterations).ends.mp hnonce'
    exact hnot ⟨salt, w₁, nonce, w₂, hsalt, hnonce,
      (encryptionThrows_derived os denies w₂ iterations).mp hthrow⟩

/-- A count that the writer refuses, or whose derivation never ends. -/
theorem saveToFileEncryptedBuffers_wipes_early
    (hcount : iterations.toNat < 1000 ∨ iterations.toNat = 2 ^ 32 - 1) (hk : k.Safe ∅) :
    Wipes ∅ (saveToFileEncryptedBuffers os denies key path passphrase iterations) (w, k) := by
  refine (wipes_lift_bind_of_safe hk).mpr fun _ w₁ haccept => ?_
  rcases hcount with hsmall | hlarge
  · have hlimit : iterations < kMinPbkdf2Iterations := hsmall
    exact absurd ((ends_raiseIf_pos hlimit).unique haccept).1 (by simp)
  · refine (wipes_lift_bind_of_safe hk).mpr fun salt w₂ _ =>
      (wipes_lift_bind_of_safe hk).mpr fun derived w₃ hderive => ?_
    have hpos : 0 < iterations.toNat := by omega
    have htriple : Triple (fun _ => True) (pbkdf2HmacSha256 passphrase salt.toList iterations) _ :=
      pbkdf2HmacSha256_triple passphrase iterations salt.toList hpos
    have hmax := (htriple trivial (reserving_derives_iff.mp hderive).2.2).2
    omega

end Writer

theorem safe_noBuffers : (Scope.empty : Scope Buffer Byte).Safe ∅ :=
  (safe_empty _).mpr fun _ hx => absurd hx List.not_mem_nil

section Both

variable (os : Os) (denies : KeyAllocation → Bool) (key : SecretKey) (path : String)
  (passphrase : List Byte) (iterations : BitVec 32) (w : World)

/-- Whatever a save or a load releases, on any way out, is all zero. -/
def BuffersZeroed : Prop :=
  (∀ r t, Ends (saveToFileEncryptedBuffers os denies key path passphrase iterations)
    (w, .empty) r t → t.2.Zeroed) ∧
    ∀ r t, Ends (loadFromFileEncryptedBuffers os denies path passphrase) (w, .empty) r t → t.2.Zeroed

theorem buffersZeroed_iff_wipes : BuffersZeroed os denies key path passphrase iterations w ↔
    Wipes ∅ (saveToFileEncryptedBuffers os denies key path passphrase iterations) (w, .empty) := by
  have hload := loadFromFileEncryptedBuffers_wipes os denies path passphrase w safe_noBuffers
  simp only [Wipes, safe_empty] at hload ⊢
  exact and_iff_left hload

end Both

/-- A random source that fails at its third draw. -/
def Os.failsThirdDraw : Os :=
  { Os.plain with family := .windows, bcryptGenRandom := fun time => time ≠ 2 }

theorem wrappingThrows_thirdDraw (denies : KeyAllocation → Bool) :
    WrappingThrows Os.failsThirdDraw denies World.empty :=
  ⟨_, _, _, _, op_ends _ World.empty, op_ends _ World.empty.tick,
    .inl ⟨_, _, op_ends _ World.empty.tick.tick⟩⟩

end Aeslib
