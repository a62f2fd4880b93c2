import Aeslib.Container

/-!
The two wire formats accept exactly what they write. A parser that returns has read every byte of
its input, so the input is the serialization of the result; every other input is a `FormatError`.
-/

namespace Aeslib

open Bytes

/-- Two neighbouring pieces of a byte string. -/
theorem slice_append_drop {data : List Byte} {offset n : Nat} (h : offset + n ≤ data.length) :
    (slice data offset n).toList ++ data.drop (offset + n) = data.drop offset := by
  rw [toList_slice h, ← List.drop_drop, List.take_append_drop]

section Format

variable (what : String) (magic : Vector Byte 4) (version : Byte) (n : Nat) (data : List Byte)

/-- The parser's checks, one after the other. -/
theorem deserializeWith_cases :
    (∃ fields ciphertext, deserializeWith what magic version n data = .ok (fields, ciphertext) ∧
      serializeWith magic version fields ciphertext = data) ∨
    ∃ reason, deserializeWith what magic version n data = .error (.formatError reason) := by
  by_cases hshort : data.length < 4 + 1 + n + 8
  · refine .inr ⟨what ++ " truncated: missing header", ?_⟩
    simp only [deserializeWith, throwIf_bind]
    exact if_pos hshort
  have hmagic := readBytes_slice (show 0 + 4 ≤ data.length by omega)
  have hversion := readBytes_slice (show 4 + 1 ≤ data.length by omega)
  have hfields := readBytes_slice (show 5 + n ≤ data.length by omega)
  have hctLen := readBytes_slice (show 5 + n + 8 ≤ data.length by omega)
  simp only [deserializeWith, throwIf_bind, if_neg hshort, hmagic, hversion, hfields, hctLen,
    ok_bind, ne_eq]
  by_cases hm : slice data 0 4 = magic
  swap
  · exact .inr ⟨_, if_pos hm⟩
  rw [if_neg (not_not_intro hm)]
  by_cases hv : (slice data 4 1)[0] = version
  swap
  · exact .inr ⟨_, if_pos hv⟩
  rw [if_neg (not_not_intro hv)]
  by_cases hl : data.length - (5 + n + 8) = (ofBytesLE 64 (slice data (5 + n) 8)).toNat
  swap
  · exact .inr ⟨_, if_pos hl⟩
  rw [if_neg (not_not_intro hl)]
  refine .inl ⟨slice data 5 n, data.drop (5 + n + 8), rfl, ?_⟩
  have hversionList : [version] = (slice data 4 1).toList := by
    rw [← hv]
    exact List.ext_getElem (by simp) fun i h1 h2 => by simp [show i = 0 by simpa using h1]
  have hlength : toBytesLE 8 (BitVec.ofNat 64 (data.drop (5 + n + 8)).length) =
      slice data (5 + n) 8 := by
    rw [List.length_drop, hl, BitVec.ofNat_toNat, BitVec.setWidth_eq]
    exact toBytesLE_ofBytesLE _ (by decide)
  rw [serializeWith, hlength, ← hm, hversionList, List.append_assoc, List.append_assoc,
    List.append_assoc, slice_append_drop (by omega), slice_append_drop (by omega),
    slice_append_drop (by omega), slice_append_drop (by omega), List.drop_zero]

end Format

section Containers

variable (data : List Byte)

theorem deserialize_cases :
    (∃ container, deserialize data = .ok container ∧ serialize container = data) ∨
    ∃ reason, deserialize data = .error (.formatError reason) := by
  obtain ⟨nonce, ciphertext, hok, hdata⟩ | ⟨reason, herror⟩ :=
    deserializeWith_cases "container" kMagic kContainerVersion kNonceSizeBytes data
  · exact .inl ⟨{ nonce, ciphertext }, by rw [deserialize, hok]; rfl, hdata⟩
  · exact .inr ⟨reason, by rw [deserialize, herror]; rfl⟩

theorem take_of_deserialize {container : Container} (h : deserialize data = .ok container) :
    data.take 4 = kMagic.toList := by
  obtain ⟨container', hok, hdata⟩ | ⟨reason, herror⟩ := deserialize_cases data
  · rw [← hdata, serialize, serializeWith]
    simp only [List.append_assoc]
    exact List.take_left' (by simp)
  · rw [h] at herror
    cases herror

theorem deserializeGcm_cases :
    (∃ container, deserializeGcm data = .ok container ∧ serializeGcm container = data) ∨
    ∃ reason, deserializeGcm data = .error (.formatError reason) := by
  obtain ⟨fields, ciphertext, hok, hdata⟩ | ⟨reason, herror⟩ :=
    deserializeWith_cases "GCM container" kGcmMagic kGcmContainerVersion
      (kGcmNonceSizeBytes + kGcmTagSizeBytes) data
  · refine .inl ⟨_, by rw [deserializeGcm, hok]; rfl, ?_⟩
    have hfields : (Vector.ofFn fun i : Fin 12 => fields[i.val]) ++
        (Vector.ofFn fun i : Fin 16 => fields[12 + i.val]) = fields := by
      ext i hi : 1
      rw [Vector.getElem_append]
      split_ifs with h
      · simp
      · simp [show 12 + (i - 12) = i by omega]
    rw [serializeGcm]
    exact (congrArg (fun v => serializeWith kGcmMagic kGcmContainerVersion v ciphertext)
      hfields).trans hdata
  · exact .inr ⟨reason, by rw [deserializeGcm, herror]; rfl⟩

theorem take_of_deserializeGcm {container : GcmContainer} (h : deserializeGcm data = .ok container) :
    data.take 4 = kGcmMagic.toList := by
  obtain ⟨container', hok, hdata⟩ | ⟨reason, herror⟩ := deserializeGcm_cases data
  · rw [← hdata, serializeGcm, serializeWith]
    simp only [List.append_assoc]
    exact List.take_left' (by simp)
  · rw [h] at herror
    cases herror

end Containers

/-- **The codecs are exact inverses.** A container of a length that the 64-bit field can hold is
read back; an input is refused with a `FormatError` or is the serialization of the container
returned, so no read is out of range and nothing is left over; and no input is a container of both
formats. -/
theorem codecs_exact :
    (∀ container : Container, container.ciphertext.length < 2 ^ 64 →
      deserialize (serialize container) = .ok container) ∧
    (∀ container : GcmContainer, container.ciphertext.length < 2 ^ 64 →
      deserializeGcm (serializeGcm container) = .ok container) ∧
    ∀ data : List Byte,
      ((∃ container, deserialize data = .ok container ∧ serialize container = data) ∨
        ∃ reason, deserialize data = .error (.formatError reason)) ∧
      ((∃ container, deserializeGcm data = .ok container ∧ serializeGcm container = data) ∨
        ∃ reason, deserializeGcm data = .error (.formatError reason)) ∧
      ¬((∃ container, deserialize data = .ok container) ∧
        ∃ container, deserializeGcm data = .ok container) := by
  refine ⟨fun _ => deserialize_serialize, fun _ => deserializeGcm_serializeGcm, fun data =>
    ⟨deserialize_cases data, deserializeGcm_cases data, ?_⟩⟩
  rintro ⟨⟨container, hctr⟩, ⟨container', hgcm⟩⟩
  have hmagic : kMagic.toList = kGcmMagic.toList :=
    (take_of_deserialize data hctr).symm.trans (take_of_deserializeGcm data hgcm)
  exact absurd hmagic (by decide)

end Aeslib
