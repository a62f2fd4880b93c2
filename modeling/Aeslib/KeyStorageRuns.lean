import Aeslib.BridgeFips180
import Aeslib.BridgeRfc8018
import Aeslib.KeyStorage

/-!
What the two functions of `src/key_storage.cpp` compute. The offset walk of the writer concatenates
the fields; the reader accepts exactly the byte strings of `WrappedKeyFormat`, and then derives,
checks the tag and only then decrypts.
-/

namespace Aeslib

open Bytes Prog

/-- The derivation returns after two HMAC evaluations for each iteration. -/
def DerivationEnds (passphrase salt : List Byte) (iterations : BitVec 32) (w : World) : Prop :=
  ∃ derived w', Ends (pbkdf2HmacSha256 passphrase salt iterations) w (.ok derived) w' ∧
    w'.trace = w.trace ++ .pbkdf2 iterations :: List.replicate (2 * iterations.toNat) .prf

theorem derivationEnds {iterations : BitVec 32} (passphrase salt : List Byte) (w : World)
    (hmin : 0 < iterations.toNat) (hmax : iterations.toNat < 2 ^ 32 - 1) :
    DerivationEnds passphrase salt iterations w :=
  ⟨_, _, pbkdf2HmacSha256_ends passphrase salt w hmin hmax, by
    rw [World.derived, World.prfs, World.record, List.append_assoc, List.singleton_append]⟩

theorem not_derivationEnds (passphrase salt : List Byte) (w : World) :
    ¬DerivationEnds passphrase salt (BitVec.allOnes 32) w := by
  rintro ⟨derived, w', hends, -⟩
  exact pbkdf2HmacSha256_diverges passphrase salt w w' _ hends

/-- **The derivation for a count that the writer lets through ends**, unless the count is the
largest one. -/
theorem derivationEnds_iff (passphrase salt : List Byte) (iterations : BitVec 32) (w : World) :
    (¬iterations < kMinPbkdf2Iterations → DerivationEnds passphrase salt iterations w) ↔
      iterations.toNat ≠ 2 ^ 32 - 1 := by
  have hlt := iterations.isLt
  constructor
  · rintro h hmax
    have hall : iterations = BitVec.allOnes 32 :=
      BitVec.eq_of_toNat_eq (by rw [hmax, BitVec.toNat_allOnes])
    subst hall
    exact not_derivationEnds passphrase salt w (h (by decide))
  · intro hmax haccept
    have hmin : 1000 ≤ iterations.toNat := Nat.not_lt.mp haccept
    exact derivationEnds passphrase salt w (by omega) (by omega)

/-- The count `2^32 - 1` is let through. -/
theorem not_derivationEnds_largest :
    ¬(¬BitVec.allOnes 32 < kMinPbkdf2Iterations →
      DerivationEnds [] [] (BitVec.allOnes 32) World.empty) :=
  fun h => not_derivationEnds [] [] World.empty (h (by decide))

theorem foldlM_putField (fields : List (List Byte)) (stored : List Byte) {n : Nat}
    (hn : fields.flatten.length ≤ n) :
    fields.foldlM putField { part := stored ++ List.replicate n 0, offset := stored.length } =
      .ok {
        part := stored ++ fields.flatten ++ List.replicate (n - fields.flatten.length) 0
        offset := stored.length + fields.flatten.length } := by
  induction fields generalizing stored n with
  | nil => simp [pure, Except.pure]
  | cons field fields ih =>
      rw [List.flatten_cons, List.length_append] at hn
      have hput : putField { part := stored ++ List.replicate n 0, offset := stored.length } field =
          .ok {
            part := (stored ++ field) ++ List.replicate (n - field.length) 0
            offset := (stored ++ field).length } := by
        have hroom : stored.length + field.length ≤ (stored ++ List.replicate n (0 : Byte)).length := by
          rw [List.length_append, List.length_replicate]
          omega
        rw [putField, if_pos hroom]
        simp [List.drop_append]
      rw [List.foldlM_cons, hput, ok_bind, ih (stored ++ field) (by omega)]
      simp [Nat.add_assoc, Nat.sub_sub]

/-- The header and the wrapped key. -/
def wrappedKeyPart (sizeMarker : Byte) (salt : Vector Byte kSaltSize) (iterations : BitVec 32)
    (nonce : Vector Byte kNonceSize) (ciphertext : List Byte) : List Byte :=
  kWrappedKeyFileMagic.toList ++ ([kWrappedKeyFileVersion] ++ ([sizeMarker] ++ (salt.toList ++
    ((toBytesLE 4 iterations).toList ++ (nonce.toList ++ ciphertext)))))

theorem length_wrappedKeyPart (sizeMarker : Byte) (salt : Vector Byte kSaltSize) (iterations : BitVec 32)
    (nonce : Vector Byte kNonceSize) (ciphertext : List Byte) :
    (wrappedKeyPart sizeMarker salt iterations nonce ciphertext).length =
      kWrappedKeyOffset + ciphertext.length := by
  simp [wrappedKeyPart, kWrappedKeyOffset, kSaltSize, kNonceSize]
  omega

theorem plaintextPart_eq (salt : Vector Byte kSaltSize) (iterations : BitVec 32)
    (container : Container) :
    plaintextPart container.ciphertext.length salt iterations container =
      .ok (wrappedKeyPart (BitVec.ofNat 8 container.ciphertext.length) salt iterations container.nonce
        container.ciphertext) := by
  set part := wrappedKeyPart (BitVec.ofNat 8 container.ciphertext.length) salt iterations container.nonce
    container.ciphertext with hpart
  have hfields : [kWrappedKeyFileMagic.toList, [kWrappedKeyFileVersion],
      [BitVec.ofNat 8 container.ciphertext.length], salt.toList, [byteLE iterations 0],
      [byteLE iterations 1], [byteLE iterations 2], [byteLE iterations 3], container.nonce.toList,
      container.ciphertext].flatten = part := by
    simp [hpart, wrappedKeyPart, toBytesLE, Vector.toList_ofFn, List.ofFn_succ]
  have hlength : part.length = kWrappedKeyOffset + container.ciphertext.length :=
    length_wrappedKeyPart ..
  have hwalk := foldlM_putField [kWrappedKeyFileMagic.toList, [kWrappedKeyFileVersion],
    [BitVec.ofNat 8 container.ciphertext.length], salt.toList, [byteLE iterations 0],
    [byteLE iterations 1], [byteLE iterations 2], [byteLE iterations 3], container.nonce.toList,
    container.ciphertext] []
    (n := kWrappedKeyOffset + container.ciphertext.length) (by rw [hfields, hlength])
  rw [hfields, hlength, Nat.sub_self, List.replicate_zero, List.append_nil, List.nil_append,
    List.nil_append, List.length_nil, Nat.zero_add] at hwalk
  simp only [plaintextPart]
  rw [hwalk, ok_bind, throwIf_bind, if_neg (not_not_intro rfl)]
  rfl

theorem readByte_of_lt {data : List Byte} {offset : Nat} (h : offset < data.length) :
    readByte data offset = .ok data[offset]! := if_pos h

/-- The little-endian count at 22..25. -/
def countAt (fileData : List Byte) : BitVec 32 := ofBytesLE 32 (slice fileData 22 4)

theorem or_shifts_eq (b0 b1 b2 b3 : Byte) :
    (b0.setWidth 32 ||| b1.setWidth 32 <<< 8 ||| b2.setWidth 32 <<< 16 ||| b3.setWidth 32 <<< 24) =
      ofBytesLE 32 #v[b0, b1, b2, b3] := by
  apply BitVec.eq_of_getLsbD_eq
  intro i hi
  simp only [ofBytesLE, BitVec.getLsbD_ofFnLE, BitVec.getLsbD_or, BitVec.getLsbD_shiftLeft,
    BitVec.getLsbD_setWidth]
  interval_cases i <;> simp

def fieldsOf (fileData : List Byte) : WrappedKeyFields where
  sizeMarker := fileData[5]!
  salt := slice fileData 6 kSaltSize
  iterations := countAt fileData
  nonce := slice fileData 26 kNonceSize
  wrappedCiphertext := (slice fileData kWrappedKeyOffset fileData[5]!.toNat).toList
  storedTag := slice fileData (kWrappedKeyOffset + fileData[5]!.toNat) kTagSize

/-- The header of a wrapped key file, and the length that its marker asks for. -/
structure WrappedKeyHeader (fileData : List Byte) : Prop where
  magic : fileData.take 4 = kWrappedKeyFileMagic.toList
  version : fileData[4]? = some kWrappedKeyFileVersion
  marker : fileData[5]? = some 16 ∨ fileData[5]? = some 32
  length : fileData.length = 70 + fileData[5]!.toNat

/-- The byte strings that pass every check before the tag. -/
structure WrappedKeyFormat (fileData : List Byte) : Prop extends WrappedKeyHeader fileData where
  minimum : 1000 ≤ (countAt fileData).toNat
  maximum : (countAt fileData).toNat ≤ 50000000

theorem checkWrappedKeyHeader_cases (fileData : List Byte) :
    WrappedKeyHeader fileData ∧ checkWrappedKeyHeader fileData = .ok fileData[5]! ∨
      ¬WrappedKeyHeader fileData ∧
      ∃ what, checkWrappedKeyHeader fileData = .error (.formatError what) := by
  by_cases h6 : fileData.length < 6
  · refine .inr ⟨fun h => ?_, _, by simp only [checkWrappedKeyHeader, throwIf_bind]; exact if_pos h6⟩
    have hlength := h.length
    omega
  have hread4 := readBytes_slice (show 0 + 4 ≤ fileData.length by omega)
  have hversion := readByte_of_lt (show 4 < fileData.length by omega)
  have hmarker := readByte_of_lt (show 5 < fileData.length by omega)
  have hget (i : Nat) (hi : i < 6) : fileData[i]? = some fileData[i]! := by
    rw [getElem!_pos fileData i (by omega)]
    exact List.getElem?_eq_getElem (by omega)
  have hmagic : slice fileData 0 4 = kWrappedKeyFileMagic ↔
      fileData.take 4 = kWrappedKeyFileMagic.toList := by
    rw [← Vector.toList_inj, toList_slice (by omega), List.drop_zero]
  have hvalid : isValidSizeMarker fileData[5]! = true ↔ fileData[5]? = some 16 ∨
      fileData[5]? = some 32 := by
    rw [hget 5 (by omega), Option.some.injEq, Option.some.injEq]
    simp [isValidSizeMarker, KeySize.marker]
  simp only [checkWrappedKeyHeader, throwIf_bind, if_neg h6, hread4, ok_bind, hversion, hmarker, ne_eq]
  -- one split for each check, in the order of the source
  by_cases hm : slice fileData 0 4 = kWrappedKeyFileMagic
  swap
  · exact .inr ⟨fun h => hm (hmagic.mpr h.magic), _, if_pos hm⟩
  rw [if_neg (not_not_intro hm)]
  by_cases hv : fileData[4]! = kWrappedKeyFileVersion
  swap
  · exact .inr ⟨fun h => hv (Option.some.inj ((hget 4 (by omega)).symm.trans h.version)), _, if_pos hv⟩
  rw [if_neg (not_not_intro hv)]
  by_cases hs : isValidSizeMarker fileData[5]! = false
  · exact .inr ⟨fun h => absurd (hvalid.mpr h.marker) (by rw [hs]; decide), _, if_pos hs⟩
  rw [if_neg hs]
  by_cases hl : fileData.length = kWrappedKeyOffset + fileData[5]!.toNat + kTagSize
  swap
  · refine .inr ⟨fun h => hl ?_, _, if_pos hl⟩
    rw [h.length]
    simp only [kWrappedKeyOffset, kSaltSize, kNonceSize, kTagSize]
    omega
  rw [if_neg (not_not_intro hl)]
  simp only [kWrappedKeyOffset, kSaltSize, kNonceSize, kTagSize] at hl
  refine .inl ⟨⟨hmagic.mp hm, ?_, hvalid.mp (Bool.eq_true_of_not_eq_false hs), by omega⟩, rfl⟩
  rw [hget 4 (by omega), hv]

/-- Past the header no read is out of range. -/
theorem readWrappedKeyFields_eq {fileData : List Byte} (h : WrappedKeyHeader fileData) :
    readWrappedKeyFields fileData fileData[5]! =
      if countAt fileData < kMinPbkdf2Iterations ∨ countAt fileData > kMaxPbkdf2Iterations then
        .error (.formatError
          ("encrypted key file has an invalid iteration count: " ++ toString (countAt fileData).toNat))
      else .ok (fieldsOf fileData) := by
  have hlength := h.length
  have hcount : (fileData[22]!.setWidth 32 ||| fileData[23]!.setWidth 32 <<< 8 |||
      fileData[24]!.setWidth 32 <<< 16 ||| fileData[25]!.setWidth 32 <<< 24) = countAt fileData := by
    rw [countAt, or_shifts_eq]
    refine congrArg (ofBytesLE 32) (Vector.ext fun i hi => ?_)
    interval_cases i <;> simp [slice]
  have hroom {k : Nat} (hk : k ≤ 70) : k ≤ fileData.length := by omega
  have hsalt := readBytes_slice (show 6 + kSaltSize ≤ fileData.length from hroom (by decide))
  have hb0 : readByte fileData (6 + kSaltSize) = .ok fileData[22]! := readByte_of_lt (hroom (by decide))
  have hb1 : readByte fileData (6 + kSaltSize + 1) = .ok fileData[23]! :=
    readByte_of_lt (hroom (by decide))
  have hb2 : readByte fileData (6 + kSaltSize + 2) = .ok fileData[24]! :=
    readByte_of_lt (hroom (by decide))
  have hb3 : readByte fileData (6 + kSaltSize + 3) = .ok fileData[25]! :=
    readByte_of_lt (hroom (by decide))
  have hnonce : readBytes fileData (6 + kSaltSize + 4) kNonceSize = .ok (slice fileData 26 kNonceSize) :=
    readBytes_slice (hroom (by decide))
  have hwrapped : readBytes fileData (6 + kSaltSize + 4 + kNonceSize) fileData[5]!.toNat =
      .ok (slice fileData kWrappedKeyOffset fileData[5]!.toNat) := by
    apply readBytes_slice
    change 38 + fileData[5]!.toNat ≤ fileData.length
    omega
  have htag : readBytes fileData (6 + kSaltSize + 4 + kNonceSize + fileData[5]!.toNat) kTagSize =
      .ok (slice fileData (kWrappedKeyOffset + fileData[5]!.toNat) kTagSize) := by
    apply readBytes_slice
    change 38 + fileData[5]!.toNat + 32 ≤ fileData.length
    omega
  simp only [readWrappedKeyFields, throwIf_bind, hsalt, ok_bind, hb0, hb1, hb2, hb3, hnonce,
    hwrapped, htag, hcount]
  rw [if_neg (not_not_intro rfl)]
  rfl

theorem countAt_bounds (fileData : List Byte) :
    ¬(countAt fileData < kMinPbkdf2Iterations ∨ countAt fileData > kMaxPbkdf2Iterations) ↔
      1000 ≤ (countAt fileData).toNat ∧ (countAt fileData).toNat ≤ 50000000 := by
  rw [not_or, BitVec.lt_def, gt_iff_lt, BitVec.lt_def, not_lt, not_lt]
  rfl

theorem checkWrappedKeyHeader_format {fileData : List Byte} (h : WrappedKeyFormat fileData) :
    checkWrappedKeyHeader fileData = .ok fileData[5]! := by
  rcases checkWrappedKeyHeader_cases fileData with ⟨_, hcheck⟩ | ⟨hheader, _⟩
  · exact hcheck
  · exact absurd h.toWrappedKeyHeader hheader

theorem readWrappedKeyFields_format {fileData : List Byte} (h : WrappedKeyFormat fileData) :
    readWrappedKeyFields fileData fileData[5]! = .ok (fieldsOf fileData) :=
  (readWrappedKeyFields_eq h.toWrappedKeyHeader).trans
    (if_neg ((countAt_bounds fileData).mpr ⟨h.minimum, h.maximum⟩))

/-- The last 32 bytes are the HMAC-SHA256, under the second half of the derived bytes, of all before. -/
def TagMatches (passphrase fileData : List Byte) : Prop :=
  fileData.drop (fileData.length - 32) = (hmacSha256
    ((Rfc8018.pbkdf2 hmacSha256 passphrase ((fileData.drop 6).take 16)
      (countAt fileData).toNat 64).drop 32)
    (fileData.take (fileData.length - 32))).toList

/-- The derived bytes for the salt and the count of the file. -/
def fileDerived (passphrase fileData : List Byte) : Vector Byte 64 :=
  derivedKey passphrase (fieldsOf fileData).salt.toList (fieldsOf fileData).iterations

/-- The key in the file. -/
def unwrapped (passphrase fileData : List Byte) : SecretKey :=
  keyFromBytes (keystreamXor (wrapKeyOf (fileDerived passphrase fileData)) 0 (fieldsOf fileData).nonce
    (fieldsOf fileData).wrappedCiphertext) (.ofMarker (fieldsOf fileData).sizeMarker)

theorem toList_macKeyOf (derived : Vector Byte 64) :
    (macKeyOf derived).toList = derived.toList.drop 32 := by
  refine List.ext_getElem (by simp) fun i h1 h2 => ?_
  have hi : 32 + i < 64 := by
    have hlen : i < 32 := by simpa using h1
    omega
  simp [macKeyOf, kKeySizeBytes, hi]

section Reader

variable {passphrase fileData : List Byte} (h : WrappedKeyFormat fileData) (os : Os) (w : World)

include h

theorem marker_sizeBytes : (KeySize.ofMarker fileData[5]!).sizeBytes = fileData[5]!.toNat := by
  have hlt : 5 < fileData.length := by
    have := h.length
    omega
  rw [getElem!_pos fileData 5 hlt]
  rcases h.marker with hm | hm
  · rw [List.getElem?_eq_getElem hlt, Option.some.injEq] at hm
    rw [hm]
    rfl
  · rw [List.getElem?_eq_getElem hlt, Option.some.injEq] at hm
    rw [hm]
    rfl

theorem readBytes_part : readBytes fileData 0 (kWrappedKeyOffset + fileData[5]!.toNat) =
    .ok (slice fileData 0 (kWrappedKeyOffset + fileData[5]!.toNat)) := by
  have hlength := h.length
  apply readBytes_slice
  change 0 + (38 + fileData[5]!.toNat) ≤ fileData.length
  omega

theorem tagMatches_iff : TagMatches passphrase fileData ↔
    hmacSha256 (macKeyOf (fileDerived passphrase fileData)).toList
      (slice fileData 0 (kWrappedKeyOffset + fileData[5]!.toNat)).toList =
        (fieldsOf fileData).storedTag := by
  have hlength := h.length
  have hpart : fileData.length - 32 = kWrappedKeyOffset + fileData[5]!.toNat := by
    change fileData.length - 32 = 38 + fileData[5]!.toNat
    omega
  have hsalt : (slice fileData 6 kSaltSize).toList = (fileData.drop 6).take 16 :=
    toList_slice (by change 6 + 16 ≤ _; omega)
  have htag : (slice fileData (kWrappedKeyOffset + fileData[5]!.toNat) kTagSize).toList =
      fileData.drop (kWrappedKeyOffset + fileData[5]!.toNat) := by
    rw [toList_slice (by change 38 + fileData[5]!.toNat + 32 ≤ _; omega), List.take_of_length_le]
    change (fileData.drop (38 + fileData[5]!.toNat)).length ≤ 32
    rw [List.length_drop]
    omega
  have hprefix : (slice fileData 0 (kWrappedKeyOffset + fileData[5]!.toNat)).toList =
      fileData.take (kWrappedKeyOffset + fileData[5]!.toNat) :=
    toList_slice (by change 0 + (38 + fileData[5]!.toNat) ≤ _; omega)
  rw [TagMatches, hpart, hprefix, toList_macKeyOf, fileDerived, toList_derivedKey, fieldsOf, hsalt,
    ← Vector.toList_inj, htag, eq_comm]

/-- The tag is HMAC-SHA256 of RFC 2104 under a key from PBKDF2 of RFC 8018, for any `hash` that is
SHA-256 of FIPS 180-4 on the messages that the standard admits. -/
theorem tagMatches_standards {hash : List Byte → Vector Byte 32}
    (hhash : ∀ m, m.length < 2 ^ 61 → Fips180.sha256 m = some (hash m).toList)
    (hpassphrase : passphrase.length < 2 ^ 61) :
    TagMatches passphrase fileData ↔ fileData.drop (fileData.length - 32) = (Rfc2104.hmac hash 64
      ((Rfc8018.pbkdf2 (Rfc2104.hmac hash 64) passphrase ((fileData.drop 6).take 16)
        (countAt fileData).toNat 64).drop 32)
      (fileData.take (fileData.length - 32))).toList := by
  have hsha (m : List Byte) (hm : m.length < 2 ^ 61) : sha256 m = hash m :=
    Vector.toList_inj.mp (Option.some.inj ((sha256_digest hm).symm.trans (hhash m hm)))
  have hlength := h.length
  have hmarker : fileData[5]!.toNat < 2 ^ 8 := fileData[5]!.isLt
  set salt := (fileData.drop 6).take 16 with hsalt
  have hsaltLen : salt.length ≤ 16 := by
    rw [hsalt, List.length_take]
    exact Nat.min_le_left _ _
  have hderive : Rfc8018.pbkdf2 (Rfc2104.hmac sha256 64) passphrase salt (countAt fileData).toNat 64 =
      Rfc8018.pbkdf2 (Rfc2104.hmac hash 64) passphrase salt (countAt fileData).toNat 64 :=
    Rfc8018.pbkdf2_congr
      (fun text htext => Rfc2104.hmac_congr hsha (by decide) (by decide) hpassphrase (by omega)) _ _
  have hkeyLen : ((Rfc8018.pbkdf2 (Rfc2104.hmac hash 64) passphrase salt (countAt fileData).toNat
      64).drop 32).length <
      2 ^ 61 := by
    rw [List.length_drop, Rfc8018.pbkdf2, List.length_take]
    omega
  rw [TagMatches, hmacSha256_eq, ← hsalt]
  change _ = (Rfc2104.hmac sha256 64
    ((Rfc8018.pbkdf2 (Rfc2104.hmac sha256 64) passphrase salt _ 64).drop 32) _).toList ↔ _
  rw [hderive, Rfc2104.hmac_congr hsha (by decide) (by decide) hkeyLen (by rw [List.length_take]; omega)]

theorem derivation_ends : Ends (pbkdf2HmacSha256 passphrase (fieldsOf fileData).salt.toList
    (fieldsOf fileData).iterations) w (.ok (fileDerived passphrase fileData))
      (w.derived (countAt fileData)) := by
  have hmin := h.minimum
  have hmax := h.maximum
  exact pbkdf2HmacSha256_ends passphrase _ w (show 0 < (countAt fileData).toNat by omega)
    (show (countAt fileData).toNat < 2 ^ 32 - 1 by omega)

theorem unwrapKey_accepts (htag : TagMatches passphrase fileData) :
    Ends (unwrapKey os passphrase fileData (fieldsOf fileData)) w (.ok (unwrapped passphrase fileData))
      ((w.derived (countAt fileData)).ciphered
        (counterBlocks 0 (fieldsOf fileData).nonce (fieldsOf fileData).wrappedCiphertext.length)) := by
  have hlen : (fieldsOf fileData).wrappedCiphertext.length = fileData[5]!.toNat := Vector.length_toList
  have hequal : ¬constantTimeEqual (hmacSha256 (macKeyOf (fileDerived passphrase fileData)).toList
      (slice fileData 0 (kWrappedKeyOffset + fileData[5]!.toNat)).toList)
        (fieldsOf fileData).storedTag = false := by
    rw [(constantTimeEqual_iff _ _).mpr ((tagMatches_iff h).mp htag)]
    decide
  have hpart : Ends (ofExcept (readBytes fileData 0 (kWrappedKeyOffset + fileData[5]!.toNat)))
      (w.derived (countAt fileData)) (.ok (slice fileData 0 (kWrappedKeyOffset + fileData[5]!.toNat)))
      (w.derived (countAt fileData)) := (ends_ofExcept _ _ _ _).mpr ⟨(readBytes_part h).symm, rfl⟩
  have hmax : (fieldsOf fileData).wrappedCiphertext.length ≤ Aes256Ctr.kMaxPlaintextBytes := by
    have hbyte := fileData[5]!.isLt
    change _ ≤ 2 ^ 32 * 16
    omega
  have hdecrypt := Aes256Ctr.decrypt_ends {
    nonce := (fieldsOf fileData).nonce, ciphertext := (fieldsOf fileData).wrappedCiphertext } hmax os
    (w.derived (countAt fileData)) (wrapKeyOf (fileDerived passphrase fileData))
  have hsize : ¬(keystreamXor (wrapKeyOf (fileDerived passphrase fileData)) 0 (fieldsOf fileData).nonce
      (fieldsOf fileData).wrappedCiphertext).length ≠ fileData[5]!.toNat := by
    rw [length_keystreamXor, hlen]
    exact not_not_intro rfl
  have htake : ∀ data : List Byte, data.length = fileData[5]!.toNat →
      data.take (KeySize.ofMarker fileData[5]!).sizeBytes = data := by
    intro data hdata
    rw [marker_sizeBytes h, ← hdata, List.take_length]
  rw [unwrapKey, (derivation_ends h w).bind_iff]
  refine hpart.bind ((ends_raiseIf_neg hequal).bind (hdecrypt.bind ((ends_raiseIf_neg hsize).bind ?_)))
  rw [ends_pure, unwrapped, keyFromBytes, fieldsOf,
    htake _ (by rw [length_keystreamXor, Vector.length_toList])]
  exact ⟨rfl, rfl⟩

theorem unwrapKey_rejects (htag : ¬TagMatches passphrase fileData) :
    Ends (unwrapKey os passphrase fileData (fieldsOf fileData)) w (.error (.authenticationError
      "encrypted key file authentication failed: wrong passphrase or corrupted file"))
        (w.derived (countAt fileData)) := by
  have hequal : constantTimeEqual (hmacSha256 (macKeyOf (fileDerived passphrase fileData)).toList
      (slice fileData 0 (kWrappedKeyOffset + fileData[5]!.toNat)).toList)
        (fieldsOf fileData).storedTag = false :=
    Bool.eq_false_iff.mpr fun heq => htag ((tagMatches_iff h).mpr ((constantTimeEqual_iff _ _).mp heq))
  have hpart : Ends (ofExcept (readBytes fileData 0 (kWrappedKeyOffset + fileData[5]!.toNat)))
      (w.derived (countAt fileData)) (.ok (slice fileData 0 (kWrappedKeyOffset + fileData[5]!.toNat)))
      (w.derived (countAt fileData)) := (ends_ofExcept _ _ _ _).mpr ⟨(readBytes_part h).symm, rfl⟩
  rw [unwrapKey, (derivation_ends h w).bind_iff]
  exact hpart.bind ((ends_raiseIf_pos hequal).bind_error _)

end Reader

end Aeslib
