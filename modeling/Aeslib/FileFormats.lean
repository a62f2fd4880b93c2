import Aeslib.ContainerFiles
import Aeslib.TruncatedFiles

/-!
The four file formats side by side. Each begins with a signature of its own, and no signature is a
prefix of another, so what one saver leaves behind, whole or cut short, is refused by the loaders of
the other three.
-/

namespace Aeslib

open Prog SecretKey

inductive FileFormat where
  | container
  | gcmContainer
  | key
  | wrappedKey
  deriving DecidableEq

namespace FileFormat

/-- The bytes that a loader of the format asks for first. -/
def signature : FileFormat → List Byte
  | container => kMagic.toList
  | gcmContainer => kGcmMagic.toList
  | key => [kKeyFileVersion]
  | wrappedKey => kWrappedKeyFileMagic.toList

/-- The files that the saver of the format writes. -/
def Image : FileFormat → List Byte → Prop
  | container, data => ∃ c : Container, c.ciphertext.length < 2 ^ 64 ∧ data = serialize c
  | gcmContainer, data => ∃ c : GcmContainer, c.ciphertext.length < 2 ^ 64 ∧ data = serializeGcm c
  | key, data => ∃ k : SecretKey, data = k.keyFileBytes
  | wrappedKey, data =>
      ∃ k passphrase iterations salt nonce, data = wrappedKeyFile k passphrase iterations salt nonce

end FileFormat

/-- Wherever the file is read in full the loader throws `FormatError`, and on no platform does it
return. -/
def Rejects {α : Type} (load : Os → String → Prog World Error α) (content : List Byte) : Prop :=
  (∀ os : Os, os.Serves → ∀ w path, w.files path = some content →
    ∃ what w', Ends (load os path) w (.error (.formatError what)) w') ∧
  ∀ os w path a w', w.files path = some content → ¬Ends (load os path) w (.ok a) w'

/-- The loader of the format refuses the file, with any passphrase. -/
def FileFormat.Refuses : FileFormat → List Byte → Prop
  | container => Rejects loadContainer
  | gcmContainer => Rejects loadGcmContainer
  | key => Rejects loadFromFile
  | wrappedKey => fun content =>
      ∀ passphrase, Rejects (fun os path => loadFromFileEncrypted os path passphrase) content

section Refusals

variable {content : List Byte}

/-- A parser behind a read of the whole file. -/
theorem rejects_of_parse {α : Type} {parse : List Byte → Except Error α}
    (h : ∃ what, parse content = .error (.formatError what)) :
    Rejects (fun os path => readFile os path >>= fun data => ofExcept (parse data)) content := by
  obtain ⟨what, hparse⟩ := h
  refine ⟨fun os hos w path hfile => ?_, fun os w path a w' hfile hload => ?_⟩
  · obtain ⟨w', hload⟩ := readFile_parse_serves hos parse hfile
    exact ⟨what, w', hparse ▸ hload⟩
  · have hok := readFile_parse_triple parse path hfile hload
    rw [hparse] at hok
    simp at hok

theorem rejects_of_parseKeyFile
    (h : ∀ path, ∃ what, parseKeyFile path content = .error (.formatError what)) :
    Rejects loadFromFile content := by
  refine ⟨fun os hos w path hfile => ?_, fun os w path a w' hfile hload => ?_⟩
  · obtain ⟨what, herror⟩ := h path
    obtain ⟨w', hload⟩ := loadFromFile_parses hos hfile
    exact ⟨what, w', herror ▸ hload⟩
  · obtain ⟨what, herror⟩ := h path
    have hok := loadFromFile_triple os hfile hload
    rw [herror] at hok
    simp at hok

theorem take_of_signature {magic : Vector Byte 4} (h : content.take 4 = magic.toList) :
    magic.toList <+: content :=
  h ▸ List.take_prefix 4 content

/-- A file without the signature of the format. -/
theorem FileFormat.refuses_of_signature (f : FileFormat) (h : ¬f.signature <+: content) :
    f.Refuses content := by
  cases f with
  | container =>
      refine rejects_of_parse ?_
      obtain ⟨c, hok, -⟩ | herror := deserialize_cases content
      · exact absurd (take_of_signature (take_of_deserialize content hok)) h
      · exact herror
  | gcmContainer =>
      refine rejects_of_parse ?_
      obtain ⟨c, hok, -⟩ | herror := deserializeGcm_cases content
      · exact absurd (take_of_signature (take_of_deserializeGcm content hok)) h
      · exact herror
  | key =>
      refine rejects_of_parseKeyFile fun path => ?_
      obtain herror | ⟨size, rest, rfl, -⟩ := parseKeyFile_cases path content
      · exact herror
      · exact absurd ⟨[size.marker] ++ rest, rfl⟩ h
  | wrappedKey =>
      exact loadFromFileEncrypted_truncated fun hheader => h (take_of_signature hheader.magic)

end Refusals

namespace FileFormat

/-- No signature begins another one. -/
theorem signature_inj {f g : FileFormat} (h : f.signature <+: g.signature) : f = g := by
  revert h
  cases f <;> cases g <;> decide

theorem Image.signature {f : FileFormat} {data : List Byte} (h : f.Image data) :
    f.signature <+: data := by
  cases f with
  | container =>
      obtain ⟨c, -, rfl⟩ := h
      simp only [FileFormat.signature, serialize, serializeWith, List.append_assoc]
      exact List.prefix_append _ _
  | gcmContainer =>
      obtain ⟨c, -, rfl⟩ := h
      simp only [FileFormat.signature, serializeGcm, serializeWith, List.append_assoc]
      exact List.prefix_append _ _
  | key =>
      obtain ⟨k, rfl⟩ := h
      exact ⟨[k.size.marker] ++ k.material, rfl⟩
  | wrappedKey =>
      obtain ⟨k, passphrase, iterations, salt, nonce, rfl⟩ := h
      simp only [FileFormat.signature, wrappedKeyFile, wrappedKeyPart, List.append_assoc]
      exact List.prefix_append _ _

theorem Image.refuses_part {f : FileFormat} {data part : List Byte} (h : f.Image data)
    (hpart : part <+: data) (hne : part ≠ data) : f.Refuses part := by
  cases f with
  | container =>
      obtain ⟨c, hlen, rfl⟩ := h
      exact rejects_of_parse (deserialize_truncated hlen hpart hne)
  | gcmContainer =>
      obtain ⟨c, hlen, rfl⟩ := h
      exact rejects_of_parse (deserializeGcm_truncated hlen hpart hne)
  | key =>
      obtain ⟨k, rfl⟩ := h
      exact rejects_of_parseKeyFile fun path => parseKeyFile_truncated path hpart hne
  | wrappedKey =>
      obtain ⟨k, passphrase, iterations, salt, nonce, rfl⟩ := h
      exact loadFromFileEncrypted_truncated (not_wrappedKeyHeader_truncated hpart hne)

/-- **What a saver leaves behind is opened by the loader of its own format only, and only when it is
complete.** -/
theorem Image.refuses {f g : FileFormat} {data part : List Byte} (h : f.Image data)
    (hpart : part <+: data) (hother : g ≠ f ∨ part ≠ data) : g.Refuses part := by
  by_cases hgf : g = f
  · subst hgf
    exact h.refuses_part hpart (hother.resolve_left (not_not_intro rfl))
  · refine g.refuses_of_signature fun hg => hgf ?_
    rcases List.prefix_or_prefix_of_prefix (hg.trans hpart) h.signature with hsig | hsig
    · exact signature_inj hsig
    · exact (signature_inj hsig).symm

end FileFormat

end Aeslib
