import Aeslib.Ctr
import Aeslib.Ghash
import Aeslib.Sha256

/-!
Galois/counter mode, `src/aes_gcm.cpp`. The key object counts the encryptions, so `encrypt` runs on
a state that holds the key. The runs are stated here once, over any platform: encryption makes the
container `gcmContainer`, decryption compares one tag and then adds the keystream.
-/

namespace Aeslib

open Prog

/-- `2^32`. -/
def kGcmInvocationLimit : BitVec 64 := 1 <<< 32

def checkGcmInvocationCount {σ : Type} (priorInvocations : BitVec 64) : Prog σ Error Unit :=
  raiseIf (priorInvocations ≥ kGcmInvocationLimit) (.limitError <|
    "this SecretKey has been used for AesGcm::encrypt() more than NIST SP 800-38D section 8.3's " ++
    "recommended 2^32-per-key limit for random GCM nonces; rotate to a new key")

namespace AesGcm

abbrev kMaxBlocks : Nat := 2 ^ 32 - 2

abbrev kMaxPlaintextBytes : Nat := kMaxBlocks * kBlockSizeBytes

def applyKeystream (os : Os) (key : SecretKey) (nonce : Vector Byte kGcmNonceSizeBytes)
    (input : List Byte) :
    Prog World Error (List Byte) := applyKeystreamFrom os 2 key nonce input

def validateBlockCount {σ : Type} (plaintextLen : Nat) : Prog σ Error Unit :=
  raiseIf (plaintextLen > kMaxPlaintextBytes) (.limitError
    "plaintext exceeds the limit addressable by this GCM construction's 32-bit block counter")

def computeTag (os : Os) (key : SecretKey) (nonce : Vector Byte kGcmNonceSizeBytes)
    (aad ciphertext : List Byte) : Prog World Error Block := do
  let zero : Block := Vector.replicate kBlockSizeBytes 0
  let h ← encryptBlock os key zero
  let j0 := makeCounterBlock nonce 1
  let s := ghash h aad ciphertext
  let eJ0 ← encryptBlock os key j0
  pure (xorBlocks eJ0 s)

/-- `fetch_add` on the counter of the key object. -/
def consumeInvocation : Prog (World × SecretKey) Error (BitVec 64) := op fun (w, key) =>
  (.ok (consumeGcmInvocation key).1, (w, (consumeGcmInvocation key).2))

def readKey : Prog (World × SecretKey) Error SecretKey := op fun (w, key) => (.ok key, (w, key))

/-- The state is the world and the key object, whose counter is `mutable`. -/
def encrypt (os : Os) (plaintext aad : List Byte) : Prog (World × SecretKey) Error GcmContainer := do
  validateBlockCount plaintext.length
  checkGcmInvocationCount (← consumeInvocation)
  let nonce ← lift (generateNonce os)
  let key ← readKey
  let ciphertext ← lift (applyKeystream os key nonce plaintext)
  let tag ← lift (computeTag os key nonce aad ciphertext)
  pure { nonce, tag, ciphertext }

/-- `encrypt` after its nonce has been drawn. -/
def encryptUnder (os : Os) (key : SecretKey) (nonce : Vector Byte kGcmNonceSizeBytes)
    (plaintext aad : List Byte) : Prog World Error GcmContainer := do
  let ciphertext ← applyKeystream os key nonce plaintext
  let tag ← computeTag os key nonce aad ciphertext
  pure { nonce, tag, ciphertext }

def decrypt (os : Os) (key : SecretKey) (container : GcmContainer) (aad : List Byte) :
    Prog World Error (List Byte) := do
  validateBlockCount container.ciphertext.length
  let expectedTag ← computeTag os key container.nonce aad container.ciphertext
  raiseIf (constantTimeEqual expectedTag container.tag = false) (.authenticationError
    "GCM authentication failed: wrong key/nonce/aad, or tampered ciphertext/tag")
  applyKeystream os key container.nonce container.ciphertext

/-- `H`. -/
def hashSubkey (key : SecretKey) : Block := blockCipher key (Vector.replicate kBlockSizeBytes 0)

def tagOf (key : SecretKey) (nonce : Vector Byte kGcmNonceSizeBytes) (aad ciphertext : List Byte) :
    Block :=
  xorBlocks (blockCipher key (makeCounterBlock nonce 1)) (ghash (hashSubkey key) aad ciphertext)

/-- The cipher inputs of a tag. -/
def tagInputs (nonce : Vector Byte kGcmNonceSizeBytes) : List Block :=
  [Vector.replicate kBlockSizeBytes 0, makeCounterBlock nonce 1]

def gcmContainer (key : SecretKey) (nonce : Vector Byte kGcmNonceSizeBytes)
    (plaintext aad : List Byte) : GcmContainer where
  nonce := nonce
  tag := tagOf key nonce aad (keystreamXor key 2 nonce plaintext)
  ciphertext := keystreamXor key 2 nonce plaintext

section Runs

variable (os : Os) (w : World) (key : SecretKey)

theorem computeTag_ends (nonce : Vector Byte kGcmNonceSizeBytes) (aad ciphertext : List Byte) :
    Ends (computeTag os key nonce aad ciphertext) w (.ok (tagOf key nonce aad ciphertext))
      (w.ciphered (tagInputs nonce)) := by
  rw [computeTag, (encryptBlock_ciphered os w key _).bind_iff,
    (encryptBlock_ciphered os _ key _).bind_iff, ends_pure, World.ciphered_ciphered]
  exact ⟨rfl, rfl⟩

theorem consumeInvocation_ends : Ends consumeInvocation (w, key) (.ok key.gcmInvocations)
    (w, (consumeGcmInvocation key).2) := op_ends _ (w, key)

theorem readKey_ends : Ends readKey (w, key) (.ok key) (w, key) := op_ends _ (w, key)

theorem validateBlockCount_ends {σ : Type} {n : Nat} (hn : n ≤ kMaxPlaintextBytes) (s : σ) :
    Ends (validateBlockCount n) s (.ok ()) s := ends_raiseIf_neg (by omega)

/-- An encryption whose nonce is drawn. -/
theorem encrypt_ends {plaintext : List Byte} (aad : List Byte)
    {nonce : Vector Byte kGcmNonceSizeBytes} {w' : World}
    (hlen : plaintext.length ≤ kMaxPlaintextBytes)
    (hcount : key.gcmInvocations < kGcmInvocationLimit)
    (hnonce : Ends (generateNonce os) w (.ok nonce) w') :
    Ends (encrypt os plaintext aad) (w, key) (.ok (gcmContainer key nonce plaintext aad))
      ((w'.ciphered (counterBlocks 2 nonce plaintext.length)).ciphered (tagInputs nonce),
        (consumeGcmInvocation key).2) := by
  have hcheck : Ends (checkGcmInvocationCount key.gcmInvocations) (w, (consumeGcmInvocation key).2)
      (.ok ())
      (w, (consumeGcmInvocation key).2) := ends_raiseIf_neg (BitVec.not_le.mpr hcount)
  have hstream := applyKeystreamFrom_ends (consumeGcmInvocation key).2 2 nonce plaintext os w'
  have htag := computeTag_ends os (w'.ciphered (counterBlocks 2 nonce plaintext.length))
    (consumeGcmInvocation key).2
    nonce aad (keystreamXor (consumeGcmInvocation key).2 2 nonce plaintext)
  rw [encrypt, (validateBlockCount_ends hlen _).bind_iff, (consumeInvocation_ends w key).bind_iff,
    hcheck.bind_iff, (hnonce.lift _).bind_iff, (readKey_ends w' _).bind_iff, applyKeystream,
    (hstream.lift _).bind_iff, (htag.lift _).bind_iff, ends_pure]
  exact ⟨rfl, rfl⟩

/-- A call that is refused for the size of its plaintext does not count. -/
theorem encrypt_refuses {plaintext : List Byte} (aad : List Byte) {e : Error}
    (hsize : Ends (validateBlockCount plaintext.length : Prog World Error Unit) w (.error e) w) :
    Ends (encrypt os plaintext aad) (w, key) (.error e) (w, key) := by
  obtain ⟨hlen, rfl, -⟩ := ends_raiseIf_error.mp hsize
  exact (ends_raiseIf_pos hlen).bind_error _

/-- A call that is refused for its count has counted. -/
theorem encrypt_limited {plaintext : List Byte} (aad : List Byte) {e : Error}
    (hlen : plaintext.length ≤ kMaxPlaintextBytes)
    (hcheck : Ends (checkGcmInvocationCount key.gcmInvocations : Prog World Error Unit) w (.error e) w) :
    Ends (encrypt os plaintext aad) (w, key) (.error e) (w, (consumeGcmInvocation key).2) := by
  obtain ⟨hlimit, rfl, -⟩ := ends_raiseIf_error.mp hcheck
  rw [encrypt, (validateBlockCount_ends hlen _).bind_iff, (consumeInvocation_ends w key).bind_iff]
  exact (ends_raiseIf_pos hlimit).bind_error _

/-- The run up to the draw of the nonce. -/
theorem encrypt_draws {plaintext : List Byte} (aad : List Byte)
    (hlen : plaintext.length ≤ kMaxPlaintextBytes)
    (hcount : key.gcmInvocations < kGcmInvocationLimit) {r : Except Error GcmContainer}
    {t : World × SecretKey} :
    Ends (encrypt os plaintext aad) (w, key) r t ↔
      Ends (do
        let nonce ← lift (generateNonce os)
        let key ← readKey
        let ciphertext ← lift (applyKeystream os key nonce plaintext)
        let tag ← lift (computeTag os key nonce aad ciphertext)
        pure { nonce, tag, ciphertext }) (w, (consumeGcmInvocation key).2) r t := by
  have hcheck : Ends (checkGcmInvocationCount key.gcmInvocations) (w, (consumeGcmInvocation key).2)
      (.ok ())
      (w, (consumeGcmInvocation key).2) := ends_raiseIf_neg (BitVec.not_le.mpr hcount)
  rw [encrypt, (validateBlockCount_ends hlen _).bind_iff, (consumeInvocation_ends w key).bind_iff,
    hcheck.bind_iff]

/-- A call whose draw fails. -/
theorem encrypt_undrawn {plaintext : List Byte} (aad : List Byte) {e : Error} {w' : World}
    (hlen : plaintext.length ≤ kMaxPlaintextBytes) (hcount : key.gcmInvocations < kGcmInvocationLimit)
    (hnonce : Ends (generateNonce os) w (.error e) w') :
    Ends (encrypt os plaintext aad) (w, key) (.error e) (w', (consumeGcmInvocation key).2) :=
  (encrypt_draws os w key aad hlen hcount).mpr ((hnonce.lift _).bind_error _)

/-- The four ways in which an encryption ends. -/
inductive EncryptEnds (plaintext aad : List Byte) : Except Error GcmContainer → World × SecretKey → Prop
  | refused {e : Error}
      (hsize : Ends (validateBlockCount plaintext.length : Prog World Error Unit) w (.error e) w) :
      EncryptEnds plaintext aad (.error e) (w, key)
  | limited {e : Error} (hlen : plaintext.length ≤ kMaxPlaintextBytes)
      (hcheck : Ends (checkGcmInvocationCount key.gcmInvocations : Prog World Error Unit) w
        (.error e) w) :
      EncryptEnds plaintext aad (.error e) (w, (consumeGcmInvocation key).2)
  | undrawn {e : Error} {w' : World} (hlen : plaintext.length ≤ kMaxPlaintextBytes)
      (hcount : key.gcmInvocations < kGcmInvocationLimit)
      (hnonce : Ends (generateNonce os) w (.error e) w') :
      EncryptEnds plaintext aad (.error e) (w', (consumeGcmInvocation key).2)
  | returned {nonce : Vector Byte kGcmNonceSizeBytes} {w' : World}
      (hlen : plaintext.length ≤ kMaxPlaintextBytes)
      (hcount : key.gcmInvocations < kGcmInvocationLimit)
      (hnonce : Ends (generateNonce os) w (.ok nonce) w') :
      EncryptEnds plaintext aad (.ok (gcmContainer key nonce plaintext aad))
        ((w'.ciphered (counterBlocks 2 nonce plaintext.length)).ciphered (tagInputs nonce),
          (consumeGcmInvocation key).2)

theorem encrypt_cases {plaintext aad : List Byte} {r : Except Error GcmContainer} {t : World × SecretKey}
    (h : Ends (encrypt os plaintext aad) (w, key) r t) : EncryptEnds os w key plaintext aad r t := by
  by_cases hlen : plaintext.length ≤ kMaxPlaintextBytes
  swap
  · have hsize : Ends (validateBlockCount plaintext.length : Prog World Error Unit) w _ w :=
      ends_raiseIf_pos (Nat.not_le.mp hlen)
    obtain ⟨rfl, rfl⟩ := h.unique (encrypt_refuses os w key aad hsize)
    exact .refused hsize
  by_cases hcount : key.gcmInvocations < kGcmInvocationLimit
  swap
  · have hcheck : Ends (checkGcmInvocationCount key.gcmInvocations : Prog World Error Unit) w _ w :=
      ends_raiseIf_pos (BitVec.not_lt.mp hcount)
    obtain ⟨rfl, rfl⟩ := h.unique (encrypt_limited os w key aad hlen hcheck)
    exact .limited hlen hcheck
  rcases ends_bind.mp ((encrypt_draws os w key aad hlen hcount).mp h) with ⟨nonce, s,
    hnonce, -⟩ | ⟨e, rfl, hnonce⟩
  · obtain ⟨hnonce, -⟩ := (ends_lift _ _ _ _).mp hnonce
    obtain ⟨rfl, rfl⟩ := h.unique (encrypt_ends os w key aad hlen hcount hnonce)
    exact .returned hlen hcount hnonce
  · obtain ⟨hnonce, -⟩ := (ends_lift _ _ _ _).mp hnonce
    rw [(h.unique (encrypt_undrawn os w key aad hlen hcount hnonce)).2]
    exact .undrawn hlen hcount hnonce

/-- An encryption that returns has drawn its nonce. -/
theorem encrypt_triple (plaintext aad : List Byte) :
    Triple (fun s : World × SecretKey => s.2 = key) (encrypt os plaintext aad) fun container s =>
      s.2 = (consumeGcmInvocation key).2 ∧ plaintext.length ≤ kMaxPlaintextBytes ∧
        ∃ nonce, Returned (generateNonce os) nonce ∧
        container = gcmContainer key nonce plaintext aad := by
  rintro ⟨w, key⟩ container t rfl h
  generalize hr : (.ok container : Except Error GcmContainer) = r at h
  cases encrypt_cases os w key h with
  | refused _ => simp at hr
  | limited _ _ => simp at hr
  | undrawn _ _ _ => simp at hr
  | @returned nonce w' hlen hcount hnonce => exact ⟨rfl, hlen, nonce, ⟨w, w', hnonce⟩, Except.ok.inj hr⟩

theorem encryptUnder_ends (nonce : Vector Byte kGcmNonceSizeBytes) (plaintext aad : List Byte) :
    Ends (encryptUnder os key nonce plaintext aad) w (.ok (gcmContainer key nonce plaintext aad))
      ((w.ciphered (counterBlocks 2 nonce plaintext.length)).ciphered (tagInputs nonce)) := by
  rw [encryptUnder, applyKeystream, (applyKeystreamFrom_ends key 2 nonce plaintext os w).bind_iff,
    (computeTag_ends os _ key nonce aad _).bind_iff, ends_pure]
  exact ⟨rfl, rfl⟩

/-- The outcome of a decryption: two block encryptions for the tag, and the keystream only if it
matches. -/
theorem decrypt_accepts (container : GcmContainer) {aad : List Byte}
    (hlen : container.ciphertext.length ≤ kMaxPlaintextBytes)
    (htag : tagOf key container.nonce aad container.ciphertext = container.tag) :
    Ends (decrypt os key container aad) w (.ok (keystreamXor key 2 container.nonce container.ciphertext))
      ((w.ciphered (tagInputs container.nonce)).ciphered
        (counterBlocks 2 container.nonce container.ciphertext.length)) := by
  have hequal : ¬constantTimeEqual (tagOf key container.nonce aad container.ciphertext)
      container.tag = false := by
    rw [(constantTimeEqual_iff _ _).mpr htag]
    decide
  rw [decrypt, (validateBlockCount_ends hlen w).bind_iff, (computeTag_ends os w key _ _ _).bind_iff,
    (ends_raiseIf_neg hequal).bind_iff]
  exact applyKeystreamFrom_ends key 2 container.nonce container.ciphertext os _

theorem decrypt_rejects (container : GcmContainer) {aad : List Byte}
    (hlen : container.ciphertext.length ≤ kMaxPlaintextBytes)
    (htag : tagOf key container.nonce aad container.ciphertext ≠ container.tag) :
    Ends (decrypt os key container aad) w
      (.error (.authenticationError
        "GCM authentication failed: wrong key/nonce/aad, or tampered ciphertext/tag"))
      (w.ciphered (tagInputs container.nonce)) := by
  have hequal : constantTimeEqual (tagOf key container.nonce aad container.ciphertext)
      container.tag = false :=
    Bool.eq_false_iff.mpr fun h => htag ((constantTimeEqual_iff _ _).mp h)
  rw [decrypt, (validateBlockCount_ends hlen w).bind_iff, (computeTag_ends os w key _ _ _).bind_iff]
  exact (ends_raiseIf_pos hequal).bind_error _

theorem decrypt_refuses (container : GcmContainer) (aad : List Byte)
    (hlen : kMaxPlaintextBytes < container.ciphertext.length) :
    Ends (decrypt os key container aad) w (.error (.limitError
      "plaintext exceeds the limit addressable by this GCM construction's 32-bit block counter")) w :=
  (ends_raiseIf_pos hlen).bind_error _

end Runs

end AesGcm

end Aeslib
