import Aeslib.ContainerLaws
import Aeslib.KeyFileExact
import Aeslib.KeyStorageRoundTrip

/-!
What a crash in the middle of a save leaves behind: a proper prefix of the bytes. None of the four
readers takes one for a complete file, since each format fixes its own length before the part that
may be missing.
-/

namespace Aeslib

open Bytes Prog SecretKey

/-- Two serializations of one kind, one of them a prefix of the other, are the same. -/
theorem serializeWith_prefixFree {magic : Vector Byte 4} {version : Byte} {n : Nat}
    {fields fields' : Vector Byte n} {ciphertext ciphertext' : List Byte}
    (hlen : ciphertext.length < 2 ^ 64)
    (h : serializeWith magic version fields' ciphertext' <+: serializeWith magic version fields
      ciphertext) :
    serializeWith magic version fields' ciphertext' = serializeWith magic version fields ciphertext := by
  obtain ⟨rest, hrest⟩ := h
  rw [serializeWith, serializeWith, List.append_assoc] at hrest
  obtain ⟨hheader, hrest⟩ := List.append_inj hrest (by simp)
  have hlength := (List.append_inj' hheader (by simp)).2
  have hbits : BitVec.ofNat 64 ciphertext'.length = BitVec.ofNat 64 ciphertext.length := by
    rw [← ofBytesLE_toBytesLE (n := 8) (BitVec.ofNat 64 ciphertext'.length) rfl,
      Vector.toList_inj.mp hlength, ofBytesLE_toBytesLE _ rfl]
  have hle : ciphertext'.length + rest.length = ciphertext.length := by rw [← hrest, List.length_append]
  have heq : ciphertext'.length = ciphertext.length := by
    have hmod := congrArg BitVec.toNat hbits
    rwa [BitVec.toNat_ofNat, BitVec.toNat_ofNat, Nat.mod_eq_of_lt (by omega),
      Nat.mod_eq_of_lt hlen] at hmod
  obtain rfl : rest = [] := List.eq_nil_of_length_eq_zero (by omega)
  rw [serializeWith, serializeWith, hheader, ← hrest, List.append_nil]

theorem deserialize_truncated {container : Container} (hlen : container.ciphertext.length < 2 ^ 64)
    {p : List Byte} (hp : p <+: serialize container) (hne : p ≠ serialize container) :
    ∃ what, deserialize p = .error (.formatError what) := by
  obtain ⟨container', -, rfl⟩ | herror := deserialize_cases p
  · exact absurd (serializeWith_prefixFree hlen hp) hne
  · exact herror

theorem deserializeGcm_truncated {container : GcmContainer} (hlen : container.ciphertext.length < 2 ^ 64)
    {p : List Byte} (hp : p <+: serializeGcm container) (hne : p ≠ serializeGcm container) :
    ∃ what, deserializeGcm p = .error (.formatError what) := by
  obtain ⟨container', -, rfl⟩ | herror := deserializeGcm_cases p
  · exact absurd (serializeWith_prefixFree hlen hp) hne
  · exact herror

/-- Wherever the file is read in full the loader throws `FormatError`, and on no platform does it
return a key. -/
def RefusedBy (load : Os → String → Prog World Error SecretKey) (content : List Byte) : Prop :=
  (∀ os : Os, os.Serves → ∀ w path, w.files path = some content →
    ∃ what w', Ends (load os path) w (.error (.formatError what)) w') ∧
  ∀ os w path key w', w.files path = some content → ¬Ends (load os path) w (.ok key) w'

theorem parseKeyFile_truncated (path : String) {key : SecretKey} {p : List Byte}
    (hp : p <+: keyFileBytes key) (hne : p ≠ keyFileBytes key) :
    ∃ what, parseKeyFile path p = .error (.formatError what) := by
  obtain herror | ⟨size, rest, rfl, hle⟩ := parseKeyFile_cases path p
  · exact herror
  · obtain ⟨more, hmore⟩ := hp
    rw [List.append_assoc] at hmore
    obtain ⟨rfl, hmaterial⟩ := (keyFileBytes_eq_iff key).mp hmore
    have hlength := congrArg List.length hmaterial
    rw [key.length_material, List.length_append, sizeBytes] at hlength
    obtain rfl : more = [] := List.eq_nil_of_length_eq_zero (by omega)
    exact absurd (by rw [← hmore, List.append_nil]) hne

theorem loadFromFile_truncated {key : SecretKey} {p : List Byte} (hp : p <+: keyFileBytes key)
    (hne : p ≠ keyFileBytes key) : RefusedBy loadFromFile p := by
  refine ⟨fun os hos w path hfile => ?_, fun os w path loaded w' hfile hload => ?_⟩
  · obtain ⟨what, herror⟩ := parseKeyFile_truncated path hp hne
    obtain ⟨w', hload⟩ := loadFromFile_parses hos hfile
    exact ⟨what, w', herror ▸ hload⟩
  · obtain ⟨what, herror⟩ := parseKeyFile_truncated path hp hne
    have hok := loadFromFile_triple os hfile hload
    rw [herror] at hok
    simp at hok

/-- The marker is the sixth byte, and it fixes the length. -/
theorem not_wrappedKeyHeader_truncated {key : SecretKey} {passphrase : List Byte}
    {iterations : BitVec 32} {salt : Vector Byte kSaltSize} {nonce : Vector Byte kNonceSize}
    {p : List Byte} (hp : p <+: wrappedKeyFile key passphrase iterations salt nonce)
    (hne : p ≠ wrappedKeyFile key passphrase iterations salt nonce) : ¬WrappedKeyHeader p := by
  intro h
  have hwhole : WrappedKeyHeader (wrappedKeyFile key passphrase iterations salt nonce) :=
    wrappedKeyHeader_layout key.size salt iterations nonce
      (by rw [length_keystreamXor, key.length_material, sizeBytes]) _
  have hsix : 5 < p.length := by
    have := h.length
    omega
  have hmarker : p[5]! = (wrappedKeyFile key passphrase iterations salt nonce)[5]! := by
    rw [getElem!_pos p 5 hsix, getElem!_pos (wrappedKeyFile key passphrase iterations salt nonce) 5
      (Nat.lt_of_lt_of_le hsix hp.length_le)]
    exact hp.getElem hsix
  have hlength : p.length = (wrappedKeyFile key passphrase iterations salt nonce).length := by
    rw [h.length, hwhole.length, hmarker]
  exact hne (hp.eq_of_length hlength)

theorem loadFromFileEncrypted_truncated {p : List Byte} (h : ¬WrappedKeyHeader p)
    (passphrase : List Byte) :
    RefusedBy (fun os path => loadFromFileEncrypted os path passphrase) p := by
  have hformat : ¬WrappedKeyFormat p := fun hp => h hp.toWrappedKeyHeader
  refine ⟨fun os hos w path hfile => ?_, fun os w path loaded w' hfile hload => ?_⟩
  · obtain ⟨w₁, hread, -⟩ := readFile_serves hos hfile
    obtain ⟨what, hload⟩ := loadFromFileEncrypted_refuses hread passphrase hformat
    exact ⟨what, w₁, hload⟩
  · have hparts := hload
    rcases ends_bind.mp hparts with ⟨data, w₁, hread, -⟩ | ⟨e, he, -⟩
    · rcases (readFile_result hread).2 with ⟨what, hio⟩ | ⟨data', hdata', hok⟩
      · simp at hio
      · obtain rfl := Except.ok.inj hok
        obtain rfl := Option.some.inj (hdata'.symm.trans hfile)
        obtain ⟨what, herror⟩ := loadFromFileEncrypted_refuses hread passphrase hformat
        exact absurd (hload.unique herror).1 (by simp)
    · simp at he

/-- **An interrupted save is never mistaken for a complete one.** `keyFileBytes` and
`wrappedKeyFile` are what the two key savers store (`saveToFile_stores`,
`saveToFileEncrypted_stores`). -/
theorem truncated_refused :
    (∀ container : Container, container.ciphertext.length < 2 ^ 64 →
      ∀ p, p <+: serialize container → p ≠ serialize container →
        ∃ what, deserialize p = .error (.formatError what)) ∧
    (∀ container : GcmContainer, container.ciphertext.length < 2 ^ 64 →
      ∀ p, p <+: serializeGcm container → p ≠ serializeGcm container →
        ∃ what, deserializeGcm p = .error (.formatError what)) ∧
    (∀ key p, p <+: keyFileBytes key → p ≠ keyFileBytes key → RefusedBy loadFromFile p) ∧
    ∀ key passphrase iterations salt nonce p, p <+: wrappedKeyFile key passphrase iterations salt nonce →
      p ≠ wrappedKeyFile key passphrase iterations salt nonce →
      ∀ passphrase', RefusedBy (fun os path => loadFromFileEncrypted os path passphrase') p :=
  ⟨fun _ hlen _ => deserialize_truncated hlen, fun _ hlen _ => deserializeGcm_truncated hlen,
    fun _ _ => loadFromFile_truncated, fun _ _ _ _ _ _ hp hne =>
      loadFromFileEncrypted_truncated (not_wrappedKeyHeader_truncated hp hne)⟩

end Aeslib
