import Aeslib.BridgeGcm
import Aeslib.KeyFile

/-!
A message from end to end. The sender generates a key, encrypts, stores the key in a key file and
hands out the serialized container; the receiver parses the container, loads the key file and
decrypts. The two may run on different platforms, each of which decides before every block which
implementation encrypts it.
-/

namespace Aeslib

open Prog

def sendCtr (os : Os) (size : KeySize) (path : String) (plaintext : List Byte) :
    Prog World Error (List Byte) := do
  let key ← SecretKey.generate os size
  let container ← Aes256Ctr.encrypt os key plaintext
  SecretKey.saveToFile os key path
  pure (serialize container)

def receiveCtr (os : Os) (path : String) (data : List Byte) : Prog World Error (List Byte) := do
  let container ← ofExcept (deserialize data)
  let key ← SecretKey.loadFromFile os path
  Aes256Ctr.decrypt os key container

def sendGcm (os : Os) (size : KeySize) (path : String) (plaintext aad : List Byte) :
    Prog World Error (List Byte) := do
  let key ← SecretKey.generate os size
  let (container, key) ← withState key (AesGcm.encrypt os plaintext aad)
  SecretKey.saveToFile os key path
  pure (serializeGcm container)

def receiveGcm (os : Os) (path : String) (data aad : List Byte) : Prog World Error (List Byte) := do
  let container ← ofExcept (deserializeGcm data)
  let key ← SecretKey.loadFromFile os path
  AesGcm.decrypt os key container aad

/-- `load_from_file` of what `save_to_file` wrote. -/
def reloaded (key : SecretKey) : SecretKey := keyFromBytes key.material key.size

theorem material_reloaded (key : SecretKey) : (reloaded key).material = key.material :=
  material_keyFromBytes key.length_material

theorem blockCipher_reloaded (key : SecretKey) : blockCipher (reloaded key) = blockCipher key := by
  have hsize : (reloaded key).size = key.size := by rw [reloaded, keyFromBytes]
  exact blockCipher_congr hsize (material_reloaded key)

theorem keystreamXor_reloaded (key : SecretKey) : keystreamXor (reloaded key) = keystreamXor key := by
  funext start nonce input
  rw [keystreamXor, keystreamXor, blockCipher_reloaded]

theorem tagOf_reloaded (key : SecretKey) : AesGcm.tagOf (reloaded key) = AesGcm.tagOf key := by
  funext nonce aad ciphertext
  rw [AesGcm.tagOf, AesGcm.tagOf, AesGcm.hashSubkey, AesGcm.hashSubkey, blockCipher_reloaded]

theorem generate_serves {os : Os} (hos : os.Serves) (w : World) (size : KeySize) :
    Ends (SecretKey.generate os size) w (.ok { bytes := os.draw w.clock kKeySizeBytes, size })
      w.tick := by
  rw [SecretKey.generate, (fillRandom_serves hos (by decide) _).bind_iff, ends_pure]
  exact ⟨rfl, rfl⟩

section Recovery

variable {os os' : Os} (hos : os.Serves) (hos' : os'.Serves) (w : World) (size : KeySize) (path : String)
  (plaintext : List Byte)

include hos hos'

theorem receiveCtr_sendCtr (hlen : plaintext.length ≤ Aes256Ctr.kMaxPlaintextBytes) :
    ∃ data w', Ends (sendCtr os size path plaintext) w (.ok data) w' ∧
      ∀ v path', v.files path' = w'.files path → ∃ v',
      Ends (receiveCtr os' path' data) v (.ok plaintext) v' := by
  set key : SecretKey := { bytes := os.draw w.clock kKeySizeBytes, size } with hkey
  set nonce := os.draw w.tick.clock kNonceSizeBytes with hnonce
  have hencrypt := Aes256Ctr.encrypt_ends key hlen (generateNonce_serves hos w.tick)
  rw [← hnonce] at hencrypt
  set container : Container :=
    { nonce, ciphertext := keystreamXor key 0 nonce plaintext } with hcontainer
  have hciphertext : container.ciphertext.length = plaintext.length := by
    rw [hcontainer]
    exact length_keystreamXor key 0 nonce plaintext
  obtain ⟨w', hsave, hfile⟩ := SecretKey.saveToFile_serves hos
    (w.tick.tick.ciphered (counterBlocks 0 nonce plaintext.length)) key path
  refine ⟨serialize container, w', ?_, fun v path' hv => ?_⟩
  · rw [sendCtr, (generate_serves hos w size).bind_iff, ← hkey, hencrypt.bind_iff, hsave.bind_iff,
      ends_pure]
    exact ⟨rfl, rfl⟩
  · obtain ⟨v', hload⟩ := SecretKey.loadFromFile_serves hos' key (hv.trans hfile)
    have hparse : deserialize (serialize container) = .ok container := by
      apply deserialize_serialize
      rw [hciphertext]
      exact Nat.lt_of_le_of_lt hlen (by decide)
    have hdecrypt := Aes256Ctr.decrypt_ends container (by rwa [hciphertext]) os' v' (reloaded key)
    have hplaintext :
        keystreamXor (reloaded key) 0 container.nonce container.ciphertext = plaintext := by
      rw [keystreamXor_reloaded, hcontainer]
      exact keystreamXor_keystreamXor key 0 nonce plaintext
    rw [hplaintext] at hdecrypt
    have hwire : Ends (ofExcept (deserialize (serialize container))) v (.ok container) v :=
      (ends_ofExcept _ v v _).mpr ⟨hparse.symm, rfl⟩
    exact ⟨_, hwire.bind (hload.bind hdecrypt)⟩

theorem receiveGcm_sendGcm (aad : List Byte) (hlen : plaintext.length ≤ AesGcm.kMaxPlaintextBytes) :
    ∃ data w', Ends (sendGcm os size path plaintext aad) w (.ok data) w' ∧
      ∀ v path', v.files path' = w'.files path → ∃ v', Ends (receiveGcm os' path' data aad) v
        (.ok plaintext) v' := by
  set key : SecretKey := { bytes := os.draw w.clock kKeySizeBytes, size } with hkey
  set nonce := os.draw w.tick.clock kGcmNonceSizeBytes with hnonce
  have hcount : key.gcmInvocations < kGcmInvocationLimit := by
    change 0#64 < kGcmInvocationLimit
    decide
  have hencrypt := AesGcm.encrypt_ends os w.tick key aad hlen hcount (generateNonce_serves hos w.tick)
  rw [← hnonce] at hencrypt
  set used := (consumeGcmInvocation key).2 with hused
  obtain ⟨w', hsave, hfile⟩ := SecretKey.saveToFile_serves hos
    ((w.tick.tick.ciphered (counterBlocks 2 nonce plaintext.length)).ciphered
      (AesGcm.tagInputs nonce)) used path
  have hbytes : SecretKey.keyFileBytes used = SecretKey.keyFileBytes key := by
    rw [hused, consumeGcmInvocation]; rfl
  rw [hbytes] at hfile
  set container := AesGcm.gcmContainer key nonce plaintext aad with hcontainer
  have hciphertext : container.ciphertext.length = plaintext.length := by
    rw [hcontainer]
    exact length_keystreamXor key 2 nonce plaintext
  refine ⟨serializeGcm container, w', ?_, fun v path' hv => ?_⟩
  · rw [sendGcm, (generate_serves hos w size).bind_iff, ← hkey, hencrypt.withState.bind_iff]
    exact hsave.bind (by simp)
  · obtain ⟨v', hload⟩ := SecretKey.loadFromFile_serves hos' key (hv.trans hfile)
    have hparse : deserializeGcm (serializeGcm container) = .ok container := by
      apply deserializeGcm_serializeGcm
      rw [hciphertext]
      exact Nat.lt_of_le_of_lt hlen (by decide)
    have htag : AesGcm.tagOf (reloaded key) container.nonce aad container.ciphertext =
        container.tag := by
      rw [tagOf_reloaded, hcontainer, AesGcm.gcmContainer]
    have hdecrypt := AesGcm.decrypt_accepts os' v' (reloaded key) container (by rwa [hciphertext]) htag
    have hplaintext :
        keystreamXor (reloaded key) 2 container.nonce container.ciphertext = plaintext := by
      rw [keystreamXor_reloaded, hcontainer]
      exact keystreamXor_keystreamXor key 2 nonce plaintext
    rw [hplaintext] at hdecrypt
    have hwire : Ends (ofExcept (deserializeGcm (serializeGcm container))) v (.ok container) v :=
      (ends_ofExcept _ v v _).mpr ⟨hparse.symm, rfl⟩
    exact ⟨_, hwire.bind (hload.bind hdecrypt)⟩

/-- Every message within the limit of its mode comes back, whatever the platforms drew, dispatched
and left in the unused part of the key's storage. -/
theorem exchange_recovers :
    (plaintext.length ≤ Aes256Ctr.kMaxPlaintextBytes →
      ∃ data w', Ends (sendCtr os size path plaintext) w (.ok data) w' ∧
        ∀ v path', v.files path' = w'.files path →
          ∃ v', Ends (receiveCtr os' path' data) v (.ok plaintext) v') ∧
    (plaintext.length ≤ AesGcm.kMaxPlaintextBytes → ∀ aad,
      ∃ data w', Ends (sendGcm os size path plaintext aad) w (.ok data) w' ∧
        ∀ v path', v.files path' = w'.files path →
          ∃ v', Ends (receiveGcm os' path' data aad) v (.ok plaintext) v') :=
  ⟨receiveCtr_sendCtr hos hos' w size path plaintext,
    fun hlen aad => receiveGcm_sendGcm hos hos' w size path plaintext aad hlen⟩

omit hos hos' in
theorem exchange_recovers_plain :
    ∃ data w', Ends (sendGcm Os.plain .aes128 "key" [0x61] []) World.empty (.ok data) w' ∧
      ∀ v path', v.files path' = w'.files "key" →
        ∃ v', Ends (receiveGcm Os.plain path' data []) v (.ok [0x61]) v' :=
  (exchange_recovers Os.plain_serves Os.plain_serves World.empty .aes128 "key" [0x61]).2 (by decide) []

end Recovery

end Aeslib
