import Aeslib.Container
import Aeslib.Dispatch

/-!
Counter mode, `src/aes256_ctr.cpp`, and the keystream loop that it shares with `src/aes_gcm.cpp`.
The loop computes `keystreamXor`: each byte of the input is added to one byte of an encrypted
counter block.
-/

namespace Aeslib

open Prog

/-- `make_counter_block`; both modes hold a copy. -/
def makeCounterBlock (nonce : Vector Byte kNonceSizeBytes) (counter : BitVec 32) : Block :=
  nonce ++ Bytes.toBytesBE 4 counter

/-- The bytes that one iteration stores. -/
def xorChunk (input : List Byte) (offset : Nat) (keystream : Block) : List Byte :=
  ((input.drop offset).take kBlockSizeBytes).zipWith (· ^^^ ·) keystream.toList

/-- The variables of the loop: `offset`, `counter` and what is stored of `output`. -/
structure KeystreamState where
  offset : Nat
  counter : BitVec 32
  output : List Byte

def keystreamBody (os : Os) (key : SecretKey) (nonce : Vector Byte kNonceSizeBytes) (input : List Byte)
    (s : KeystreamState) : Prog World Error (KeystreamState ⊕ List Byte) :=
  if s.offset < input.length then do
    let keystream ← encryptBlock os key (makeCounterBlock nonce s.counter)
    pure (.inl {
      offset := s.offset + kBlockSizeBytes
      counter := s.counter + 1
      output := s.output ++ xorChunk input s.offset keystream })
  else pure (.inr s.output)

/-- `apply_keystream` from the counter `start` on. -/
def applyKeystreamFrom (os : Os) (start : BitVec 32) (key : SecretKey)
    (nonce : Vector Byte kNonceSizeBytes) (input : List Byte) : Prog World Error (List Byte) :=
  loop (keystreamBody os key nonce input) { offset := 0, counter := start, output := [] }

/-- `generate_nonce`; both modes hold a copy. -/
def generateNonce (os : Os) : Prog World Error (Vector Byte kNonceSizeBytes) :=
  fillRandom os (Vector.replicate kNonceSizeBytes 0)

namespace Aes256Ctr

abbrev kMaxBlocks : Nat := 2 ^ 32

abbrev kMaxPlaintextBytes : Nat := kMaxBlocks * kBlockSizeBytes

def applyKeystream (os : Os) (key : SecretKey) (nonce : Vector Byte kNonceSizeBytes)
    (input : List Byte) :
    Prog World Error (List Byte) := applyKeystreamFrom os 0 key nonce input

def validateBlockCount (plaintextLen : Nat) : Prog World Error Unit :=
  raiseIf (plaintextLen > kMaxPlaintextBytes) (.limitError
    "plaintext exceeds the 64 GiB limit addressable by this CTR construction's 32-bit block counter")

def encrypt (os : Os) (key : SecretKey) (plaintext : List Byte) : Prog World Error Container := do
  validateBlockCount plaintext.length
  let nonce ← generateNonce os
  let ciphertext ← applyKeystream os key nonce plaintext
  pure { nonce, ciphertext }

def decrypt (os : Os) (key : SecretKey) (container : Container) : Prog World Error (List Byte) := do
  validateBlockCount container.ciphertext.length
  applyKeystream os key container.nonce container.ciphertext

end Aes256Ctr

/-- The input added to the encrypted counter blocks from `start` on. -/
def keystreamXor (key : SecretKey) (start : BitVec 32) (nonce : Vector Byte kNonceSizeBytes)
    (input : List Byte) : List Byte :=
  input.mapIdx fun i b =>
    b ^^^ (blockCipher key (makeCounterBlock nonce (start + BitVec.ofNat 32 (i / 16))))[i % 16]!

/-- The cipher inputs of a message of `length` bytes. -/
def counterBlocks (start : BitVec 32) (nonce : Vector Byte kNonceSizeBytes) (length : Nat) :
    List Block :=
  (List.range ((length + 15) / 16)).map fun k => makeCounterBlock nonce (start + BitVec.ofNat 32 k)

namespace World

/-- After the block encryptions of `blocks`. -/
def ciphered (w : World) (blocks : List Block) : World :=
  { w with clock := w.clock + blocks.length, trace := w.trace ++ blocks.map .cipher }

@[simp] theorem ciphered_nil (w : World) : w.ciphered [] = w := by simp [ciphered]

theorem ciphered_ciphered (w : World) (a b : List Block) :
    (w.ciphered a).ciphered b = w.ciphered (a ++ b) := by
  simp [ciphered, Nat.add_assoc]

end World

theorem encryptBlock_ciphered (os : Os) (w : World) (key : SecretKey) (block : Block) :
    Ends (encryptBlock os key block) w (.ok (blockCipher key block)) (w.ciphered [block]) :=
  encryptBlock_ends os w key block

@[simp] theorem length_keystreamXor (key : SecretKey) (start : BitVec 32)
    (nonce : Vector Byte kNonceSizeBytes) (input : List Byte) :
    (keystreamXor key start nonce input).length = input.length := by
  simp [keystreamXor]

/-- Adding the keystream twice gives the input back. -/
theorem keystreamXor_keystreamXor (key : SecretKey) (start : BitVec 32)
    (nonce : Vector Byte kNonceSizeBytes) (input : List Byte) :
    keystreamXor key start nonce (keystreamXor key start nonce input) = input := by
  refine List.ext_getElem (by simp) fun i h1 h2 => ?_
  simp only [keystreamXor, List.getElem_mapIdx, BitVec.xor_assoc, BitVec.xor_self, BitVec.xor_zero]

section Loop

variable (key : SecretKey) (start : BitVec 32) (nonce : Vector Byte kNonceSizeBytes) (input : List Byte)

theorem xorChunk_eq (k : Nat) :
    xorChunk input (16 * k) (blockCipher key (makeCounterBlock nonce (start + BitVec.ofNat 32 k))) =
      ((keystreamXor key start nonce input).drop (16 * k)).take 16 := by
  refine List.ext_getElem (by simp [xorChunk]) fun i h1 h2 => ?_
  have hi : i < 16 := by simp at h2; omega
  simp only [xorChunk, keystreamXor, List.getElem_zipWith, List.getElem_take, List.getElem_drop,
    List.getElem_mapIdx, Vector.getElem_toList]
  rw [show (16 * k + i) / 16 = k by omega, show (16 * k + i) % 16 = i by omega, getElem!_pos _ i hi]

/-- The loop from iteration `k` on, with `m` iterations to go. -/
theorem keystreamLoop_ends (os : Os) (w : World) (k m : Nat) (hm : k + m = (input.length + 15) / 16) :
    Ends (loop (keystreamBody os key nonce input)
        { offset := 16 * k, counter := start + BitVec.ofNat 32 k,
          output := (keystreamXor key start nonce input).take (16 * k) })
      w (.ok (keystreamXor key start nonce input))
      (w.ciphered ((List.range' k m).map fun k =>
        makeCounterBlock nonce (start + BitVec.ofNat 32 k))) := by
  induction m generalizing k w with
  | zero =>
      have hall : (keystreamXor key start nonce input).take (16 * k) =
          keystreamXor key start nonce input :=
        List.take_of_length_le (by simp; omega)
      refine Ends.loop_done ?_
      rw [hall, keystreamBody, if_neg (by simp only; omega)]
      simp
  | succ m ih =>
      have hnext := ih (w.ciphered [makeCounterBlock nonce (start + BitVec.ofNat 32 k)]) (k + 1)
        (by omega)
      rw [World.ciphered_ciphered] at hnext
      refine (Ends.loop_next ?_).mpr hnext
      rw [keystreamBody, if_pos (by simp only; omega), (encryptBlock_ciphered _ _ _ _).bind_iff,
        xorChunk_eq, ends_pure]
      have hcounter : start + BitVec.ofNat 32 k + 1 = start + BitVec.ofNat 32 (k + 1) := by
        rw [BitVec.ofNat_add, ← BitVec.add_assoc]
        rfl
      simp only [hcounter, ← List.take_add, and_true]
      rfl

theorem applyKeystreamFrom_ends (os : Os) (w : World) :
    Ends (applyKeystreamFrom os start key nonce input) w (.ok (keystreamXor key start nonce input))
      (w.ciphered (counterBlocks start nonce input.length)) := by
  have hloop := keystreamLoop_ends key start nonce input os w 0 _ (Nat.zero_add _)
  rwa [Nat.mul_zero, List.take_zero, BitVec.add_zero, ← List.range_eq_range'] at hloop

end Loop

theorem generateNonce_serves {os : Os} (hos : os.Serves) (w : World) :
    Ends (generateNonce os) w (.ok (os.draw w.clock kNonceSizeBytes)) w.tick :=
  fillRandom_serves hos (by decide) _

namespace Aes256Ctr

variable {os : Os} {w : World} {key : SecretKey}

theorem validateBlockCount_ends {n : Nat} (hn : n ≤ kMaxPlaintextBytes) (w : World) :
    Ends (validateBlockCount n) w (.ok ()) w := ends_raiseIf_neg (by omega)

/-- An encryption whose nonce is drawn. -/
theorem encrypt_ends (key : SecretKey) {plaintext : List Byte} {nonce : Vector Byte kNonceSizeBytes}
    {w' : World} (hlen : plaintext.length ≤ kMaxPlaintextBytes)
    (hnonce : Ends (generateNonce os) w (.ok nonce) w') :
    Ends (encrypt os key plaintext) w (.ok { nonce, ciphertext := keystreamXor key 0 nonce plaintext })
      (w'.ciphered (counterBlocks 0 nonce plaintext.length)) := by
  rw [encrypt, (validateBlockCount_ends hlen w).bind_iff, hnonce.bind_iff, applyKeystream,
    (applyKeystreamFrom_ends key 0 nonce plaintext os w').bind_iff, ends_pure]
  exact ⟨rfl, rfl⟩

/-- An encryption that returns has drawn its nonce. -/
theorem encrypt_triple (os : Os) (key : SecretKey) (plaintext : List Byte) :
    Triple (fun _ => True) (encrypt os key plaintext) fun container _ => plaintext.length ≤
      kMaxPlaintextBytes ∧
      ∃ nonce, Returned (generateNonce os) nonce ∧
        container = { nonce, ciphertext := keystreamXor key 0 nonce plaintext } := by
  refine (Triple.raiseIf _).bind fun _ => Triple.assume (fun _ h => h.2) fun hlen => ?_
  refine (Triple.returned (generateNonce os)).bind fun nonce =>
    Triple.assume (fun _ h => h) fun hnonce => ?_
  intro w container w' _ h
  rw [applyKeystream, (applyKeystreamFrom_ends key 0 nonce plaintext os w).bind_iff, ends_pure] at h
  exact ⟨Nat.not_lt.mp hlen, nonce, hnonce, Except.ok.inj h.1⟩

theorem decrypt_ends (container : Container) (hlen : container.ciphertext.length ≤ kMaxPlaintextBytes)
    (os : Os) (w : World) (key : SecretKey) :
    Ends (decrypt os key container) w (.ok (keystreamXor key 0 container.nonce container.ciphertext))
      (w.ciphered (counterBlocks 0 container.nonce container.ciphertext.length)) := by
  rw [decrypt, (validateBlockCount_ends hlen w).bind_iff]
  exact applyKeystreamFrom_ends key 0 container.nonce container.ciphertext os w

end Aes256Ctr

end Aeslib
