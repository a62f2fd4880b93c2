import Aeslib.KeyFile
import Aeslib.KeyStorageRuns

/-!
The reader on any file, and on the files of the writer. The reader's outcome is decided by the
format and the tag alone. What the writer stores passes the reader's checks except for the count:
the writer has no upper bound.
-/

namespace Aeslib

open Bytes Prog

section Reader

variable {os : Os} {w w₁ : World} {path : String} {fileData : List Byte}
  (hread : Ends (readFile os path) w (.ok fileData) w₁) (passphrase : List Byte)

include hread

theorem loadFromFileEncrypted_refuses (h : ¬WrappedKeyFormat fileData) :
    ∃ what,
      Ends (SecretKey.loadFromFileEncrypted os path passphrase) w (.error (.formatError what)) w₁ := by
  rcases checkWrappedKeyHeader_cases fileData with ⟨hheader, hcheck⟩ | ⟨_, what, hcheck⟩
  · have hcount := (countAt_bounds fileData).not.mpr fun hbounds => h ⟨hheader, hbounds.1, hbounds.2⟩
    have hfields := (readWrappedKeyFields_eq hheader).trans (if_pos (not_not.mp hcount))
    have hheaderRun : Ends (ofExcept (checkWrappedKeyHeader fileData)) w₁ (.ok fileData[5]!) w₁ :=
      (ends_ofExcept _ w₁ w₁ _).mpr ⟨hcheck.symm, rfl⟩
    have hfieldsRun :=
      (ends_ofExcept (readWrappedKeyFields fileData fileData[5]!) w₁ w₁ _).mpr ⟨hfields.symm, rfl⟩
    exact ⟨_, hread.bind (hheaderRun.bind (hfieldsRun.bind_error _))⟩
  · have hheaderRun := (ends_ofExcept (checkWrappedKeyHeader fileData) w₁ w₁ _).mpr ⟨hcheck.symm, rfl⟩
    exact ⟨what, hread.bind (hheaderRun.bind_error _)⟩

/-- Past the checks of the format. -/
theorem loadFromFileEncrypted_unwraps (h : WrappedKeyFormat fileData) {r : Except Error SecretKey}
    {w' : World} (hunwrap : Ends (unwrapKey os passphrase fileData (fieldsOf fileData)) w₁ r w') :
    Ends (SecretKey.loadFromFileEncrypted os path passphrase) w r w' := by
  have hheaderRun := (ends_ofExcept (checkWrappedKeyHeader fileData) w₁ w₁ _).mpr
    ⟨(checkWrappedKeyHeader_format h).symm, rfl⟩
  have hfieldsRun := (ends_ofExcept (readWrappedKeyFields fileData fileData[5]!) w₁ w₁ _).mpr
    ⟨(readWrappedKeyFields_format h).symm, rfl⟩
  exact hread.bind (hheaderRun.bind (hfieldsRun.bind hunwrap))

end Reader

/-- The file for a salt and a nonce. -/
def wrappedKeyFile (key : SecretKey) (passphrase : List Byte) (iterations : BitVec 32)
    (salt : Vector Byte kSaltSize) (nonce : Vector Byte kNonceSize) : List Byte :=
  let derived := derivedKey passphrase salt.toList iterations
  let part := wrappedKeyPart key.size.marker salt iterations nonce
    (keystreamXor (wrapKeyOf derived) 0 nonce key.material)
  part ++ (hmacSha256 (macKeyOf derived).toList part).toList

/-- The walk of the writer over the encrypted key material. -/
theorem plaintextPart_wrapped (key wrapKey : SecretKey) (salt : Vector Byte kSaltSize)
    (iterations : BitVec 32) (nonce : Vector Byte kNonceSize) :
    plaintextPart key.sizeBytes salt iterations
    { nonce, ciphertext := keystreamXor wrapKey 0 nonce key.material } =
      .ok (wrappedKeyPart key.size.marker salt iterations nonce
        (keystreamXor wrapKey 0 nonce key.material)) := by
  have hlen : (keystreamXor wrapKey 0 nonce key.material).length = key.sizeBytes := by
    rw [length_keystreamXor, key.length_material]
  have hpart := plaintextPart_eq salt iterations
    { nonce, ciphertext := keystreamXor wrapKey 0 nonce key.material }
  rwa [hlen, SecretKey.sizeMarker_eq] at hpart

namespace SecretKey

/-- `save_to_file_encrypted` up to its file: `plaintext_part` and `tag`. -/
def sealKey (os : Os) (key : SecretKey) (passphrase : List Byte) (iterations : BitVec 32) :
    Prog World Error (List Byte × Vector Byte kTagSize) := do
  let keyLen := key.sizeBytes
  raiseIf (iterations < kMinPbkdf2Iterations)
    (.limitError ("PBKDF2 iteration count must be at least " ++ toString kMinPbkdf2Iterations.toNat))
  let salt ← fillRandom os (Vector.replicate kSaltSize 0)
  let derived ← pbkdf2HmacSha256 passphrase salt.toList iterations
  let wrapKey := wrapKeyOf derived
  let _nonce ← fillRandom os (Vector.replicate kNonceSize 0)
  let plaintextKey := (keyBytes key).toList.take keyLen
  let wrappedContainer ← Aes256Ctr.encrypt os wrapKey plaintextKey
  raiseIf (wrappedContainer.ciphertext.length ≠ keyLen)
    (.ioError "internal: wrapped key ciphertext size mismatch")
  let part ← ofExcept (plaintextPart keyLen salt iterations wrappedContainer)
  let macKeyArray := macKeyOf derived
  pure (part, hmacSha256 macKeyArray.toList part)

/-- The end of `save_to_file_encrypted`. -/
def writeSealed (os : Os) (path : String) (part : List Byte) (tag : Vector Byte kTagSize) :
    Prog World Error Unit :=
  writeNewFile os path "failed to create encrypted key file: "
    "refusing to write encrypted key file through a symlink/reparse point: "
    "failed to write encrypted key file: "
    (Transfer.andThen (fun fd => writeLoop os fd part) fun fd => writeLoop os fd tag.toList)
    (Transfer.andThen (fun h => writeFileWin os h part) fun h => writeFileWin os h tag.toList)

theorem saveToFileEncrypted_eq (os : Os) (key : SecretKey) (path : String) (passphrase : List Byte)
    (iterations : BitVec 32) : key.saveToFileEncrypted os path passphrase iterations =
      key.sealKey os passphrase iterations >>= fun sealed => writeSealed os path sealed.1 sealed.2 := by
  simp only [saveToFileEncrypted, sealKey, writeSealed, bind_bind, Prog.pure_bind]

end SecretKey

section Writer

variable (os : Os) (key : SecretKey) (path : String) (passphrase : List Byte) (iterations : BitVec 32)

theorem length_material_le : key.material.length ≤ Aes256Ctr.kMaxPlaintextBytes := by
  rw [key.length_material]
  exact key.size.sizeBytes_le.trans (by decide)

/-- A derivation that ends. -/
theorem pbkdf2HmacSha256_triple {pre : World → Prop} (salt : List Byte) (hmin : 0 < iterations.toNat) :
    Triple pre (pbkdf2HmacSha256 passphrase salt iterations) fun derived _ =>
      derived = derivedKey passphrase salt iterations ∧ iterations.toNat < 2 ^ 32 - 1 := by
  intro w derived w' _ h
  have hmax : iterations.toNat < 2 ^ 32 - 1 := by
    by_contra hmax
    have hlt := iterations.isLt
    have hall : iterations = BitVec.allOnes 32 := by
      apply BitVec.eq_of_toNat_eq
      rw [BitVec.toNat_allOnes]
      omega
    exact pbkdf2HmacSha256_diverges passphrase salt w w' _ (hall ▸ h)
  exact ⟨Except.ok.inj (h.unique (pbkdf2HmacSha256_ends passphrase salt w hmin hmax)).1, hmax⟩

/-- A save that returns has a count from 1000 to `2^32 - 2`, and has stored a wrapped key file. -/
theorem saveToFileEncrypted_stores :
    Triple (fun _ => True) (SecretKey.saveToFileEncrypted os key path passphrase iterations) fun _ w =>
      1000 ≤ iterations.toNat ∧ iterations.toNat < 2 ^ 32 - 1 ∧
        ∃ salt nonce, Returned (fillRandom os (Vector.replicate kSaltSize 0)) salt ∧
        Returned (generateNonce os) nonce ∧
          w.files path = some (wrappedKeyFile key passphrase iterations salt nonce) := by
  unfold SecretKey.saveToFileEncrypted
  refine (Triple.raiseIf _).bind fun _ => ?_
  refine Triple.assume (fun _ h => h.2) fun hmin => ?_
  have hmin : 1000 ≤ iterations.toNat := Nat.not_lt.mp hmin
  refine (Triple.returned (fillRandom os _)).bind fun salt =>
    Triple.assume (fun _ h => h) fun hsalt => ?_
  refine (pbkdf2HmacSha256_triple passphrase iterations salt.toList (by omega)).bind fun derived => ?_
  refine Triple.assume (fun _ h => h) fun ⟨hderived, hmax⟩ => ?_
  refine (Triple.any (fillRandom os _)).bind fun _ => ?_
  refine (Aes256Ctr.encrypt_triple os (wrapKeyOf derived) key.material).bind fun container => ?_
  refine Triple.assume (fun _ h => h) fun ⟨_, nonce, hnonce, hcontainer⟩ => ?_
  refine (Triple.any (raiseIf _ _)).bind fun _ => (Triple.ofExcept _).bind fun part => ?_
  refine Triple.assume (fun _ h => h) fun hpart => ?_
  rw [hcontainer, plaintextPart_wrapped, Except.ok.injEq] at hpart
  have hposix := (writeLoop_appends os part).andThen
    (writeLoop_appends os (hmacSha256 (macKeyOf derived).toList part).toList)
  have hwindows := (writeFileWin_appends os part).andThen
    (writeFileWin_appends os (hmacSha256 (macKeyOf derived).toList part).toList)
  refine fun w a w' _ h => ⟨hmin, hmax, salt, nonce, hsalt, hnonce, ?_⟩
  rw [writeNewFile_stores os hposix hwindows trivial h, wrappedKeyFile, ← hderived, hpart]

/-- Once its three draws have succeeded, a save comes to its file. -/
theorem SecretKey.sealKey_ends {os : Os} {w w₁ w₂ w₃ : World} {salt : Vector Byte kSaltSize}
    {unused : Vector Byte kNonceSize} {nonce : Vector Byte kNonceSizeBytes}
    (hmin : 1000 ≤ iterations.toNat) (hmax : iterations.toNat < 2 ^ 32 - 1)
    (hsalt : Ends (fillRandom os (Vector.replicate kSaltSize 0)) w (.ok salt) w₁)
    (hunused : Ends (fillRandom os (Vector.replicate kNonceSize 0)) (w₁.derived iterations)
      (.ok unused) w₂)
    (hnonce : Ends (generateNonce os) w₂ (.ok nonce) w₃) :
    let derived := derivedKey passphrase salt.toList iterations
    let part := wrappedKeyPart key.size.marker salt iterations nonce
      (keystreamXor (wrapKeyOf derived) 0 nonce key.material)
    Ends (key.sealKey os passphrase iterations) w (.ok (part, hmacSha256 (macKeyOf derived).toList part))
      (w₃.ciphered (counterBlocks 0 nonce key.material.length)) := by
  intro derived part
  have hlimit : ¬iterations < kMinPbkdf2Iterations := Nat.not_lt.mpr hmin
  have hderive := pbkdf2HmacSha256_ends passphrase salt.toList w₁
    (show 0 < iterations.toNat by omega) hmax
  have hencrypt := Aes256Ctr.encrypt_ends (wrapKeyOf derived) (length_material_le key) hnonce
  set ciphertext := keystreamXor (wrapKeyOf derived) 0 nonce key.material with hciphertext
  have hlen : ciphertext.length = key.sizeBytes := by
    rw [hciphertext, length_keystreamXor, key.length_material]
  set w₄ := w₃.ciphered (counterBlocks 0 nonce key.material.length)
  have hpart : Ends (ofExcept (plaintextPart key.sizeBytes salt iterations { nonce, ciphertext }))
      w₄ (.ok part) w₄ :=
    (ends_ofExcept _ _ _ _).mpr
      ⟨(plaintextPart_wrapped key (wrapKeyOf derived) salt iterations nonce).symm, rfl⟩
  exact (ends_raiseIf_neg hlimit).bind (hsalt.bind (hderive.bind (hunused.bind (hencrypt.bind
    ((ends_raiseIf_neg (not_not_intro hlen)).bind (hpart.bind ((ends_pure _ _ _ _).mpr ⟨rfl, rfl⟩)))))))

/-- On a platform that serves, every save with such a count returns. -/
theorem saveToFileEncrypted_serves {os : Os} (hos : os.Serves) (w : World)
    (hmin : 1000 ≤ iterations.toNat) (hmax : iterations.toNat < 2 ^ 32 - 1) :
    ∃ w', Ends (SecretKey.saveToFileEncrypted os key path passphrase iterations) w (.ok ()) w' := by
  set salt := os.draw w.clock kSaltSize
  set w₁ := w.tick.derived iterations
  set nonce := os.draw w₁.tick.clock kNonceSizeBytes
  set derived := derivedKey passphrase salt.toList iterations
  set part := wrappedKeyPart key.size.marker salt iterations nonce
    (keystreamXor (wrapKeyOf derived) 0 nonce key.material)
    with hpart
  set tag := hmacSha256 (macKeyOf derived).toList part
  have hsealed : Ends (key.sealKey os passphrase iterations) w (.ok (part, tag)) _ :=
    key.sealKey_ends passphrase iterations hmin hmax (fillRandom_serves hos (by decide) _)
      (fillRandom_serves hos (by decide) _) (generateNonce_serves hos w₁.tick)
  have hpartLen : part.length < 2 ^ 32 := by
    have hle := key.size.sizeBytes_le
    rw [hpart, length_wrappedKeyPart, length_keystreamXor, key.length_material, SecretKey.sizeBytes]
    change 38 + _ < _
    change _ ≤ 32 at hle
    omega
  have hposix := (writeLoop_completes hos part).andThen (writeLoop_appends os part)
    (writeLoop_completes hos tag.toList)
  have hwindows := (writeFileWin_completes hos part hpartLen).andThen (writeFileWin_appends os part)
    (writeFileWin_completes hos tag.toList (by rw [Vector.length_toList]; decide))
  obtain ⟨w', hwrite⟩ := writeNewFile_serves hos _ path "failed to create encrypted key file: "
    "refusing to write encrypted key file through a symlink/reparse point: "
    "failed to write encrypted key file: "
    hposix hwindows
  rw [SecretKey.saveToFileEncrypted_eq]
  exact ⟨w', hsealed.bind hwrite⟩

end Writer

theorem slice_append {data a b : List Byte} {offset n : Nat} (v : Vector Byte n)
    (hdata : data = a ++ (v.toList ++ b)) (ha : a.length = offset) : slice data offset n = v := by
  have hle : offset + n ≤ data.length := by
    rw [hdata, List.length_append, List.length_append, Vector.length_toList]
    omega
  exact Except.ok.inj ((readBytes_slice hle).symm.trans (readBytes_append v hdata ha))

section Layout

variable (size : KeySize) (salt : Vector Byte kSaltSize) (iterations : BitVec 32)
  (nonce : Vector Byte kNonceSize)
  {ciphertext : List Byte} (hlen : ciphertext.length = size.sizeBytes) (tag : Vector Byte kTagSize)

theorem sizeMarker_layout :
    (wrappedKeyPart size.marker salt iterations nonce ciphertext ++ tag.toList)[5]? =
      some size.marker := rfl

theorem countAt_layout :
    countAt (wrappedKeyPart size.marker salt iterations nonce ciphertext ++ tag.toList) =
    iterations := by
  have hslice : slice (wrappedKeyPart size.marker salt iterations nonce ciphertext ++ tag.toList) 22 4 =
      toBytesLE 4 iterations :=
    slice_append (a := kWrappedKeyFileMagic.toList ++ [kWrappedKeyFileVersion] ++ [size.marker] ++
      salt.toList)
      (b := nonce.toList ++ ciphertext ++ tag.toList) _ (by simp [wrappedKeyPart]) (by simp [kSaltSize])
  rw [countAt, hslice, ofBytesLE_toBytesLE _ rfl]

include hlen

theorem wrappedKeyHeader_layout :
    WrappedKeyHeader (wrappedKeyPart size.marker salt iterations nonce ciphertext ++ tag.toList) where
  magic := rfl
  version := rfl
  marker := by
    rw [sizeMarker_layout]
    cases size
    · exact .inl rfl
    · exact .inr rfl
  length := by
    have hmarker : (wrappedKeyPart size.marker salt iterations nonce ciphertext ++ tag.toList)[5]! =
        size.marker := rfl
    rw [hmarker, List.length_append, length_wrappedKeyPart, Vector.length_toList, hlen,
      KeySize.sizeBytes]
    change 38 + _ + 32 = _
    omega

theorem fieldsOf_layout :
    fieldsOf (wrappedKeyPart size.marker salt iterations nonce ciphertext ++ tag.toList) =
      { sizeMarker := size.marker, salt, iterations, nonce, wrappedCiphertext := ciphertext,
        storedTag := tag } := by
  set data := wrappedKeyPart size.marker salt iterations nonce ciphertext ++ tag.toList with hdata
  have hmarker : data[5]! = size.marker := rfl
  have hcount : countAt data = iterations := countAt_layout size salt iterations nonce tag
  have hsalt : slice data 6 kSaltSize = salt :=
    slice_append (a := kWrappedKeyFileMagic.toList ++ [kWrappedKeyFileVersion] ++ [size.marker])
      (b := (toBytesLE 4 iterations).toList ++ nonce.toList ++ ciphertext ++ tag.toList) salt
      (by simp [hdata, wrappedKeyPart]) (by simp)
  have hnonce : slice data 26 kNonceSize = nonce :=
    slice_append (a := kWrappedKeyFileMagic.toList ++ [kWrappedKeyFileVersion] ++ [size.marker] ++
      salt.toList ++ (toBytesLE 4 iterations).toList)
      (b := ciphertext ++ tag.toList) nonce (by simp [hdata, wrappedKeyPart]) (by simp [kSaltSize])
  change ciphertext.length = size.marker.toNat at hlen
  have hlength : data.length = 38 + size.marker.toNat + 32 := by
    rw [hdata, List.length_append, length_wrappedKeyPart, Vector.length_toList, hlen]
    rfl
  have hsplit : data =
      (kWrappedKeyFileMagic.toList ++ [kWrappedKeyFileVersion] ++ [size.marker] ++ salt.toList ++
      (toBytesLE 4 iterations).toList ++ nonce.toList) ++ (ciphertext ++ tag.toList) := by
    simp [hdata, wrappedKeyPart]
  have hwrapped : (slice data kWrappedKeyOffset size.marker.toNat).toList = ciphertext := by
    rw [toList_slice (by change 38 + _ ≤ _; omega), hsplit,
      List.drop_left' (by simp [kWrappedKeyOffset, kSaltSize, kNonceSize]), List.take_left' hlen]
  have htag : slice data (kWrappedKeyOffset + size.marker.toNat) kTagSize = tag :=
    slice_append (a := wrappedKeyPart size.marker salt iterations nonce ciphertext) (b := []) tag
      (by simp [hdata])
      (by rw [length_wrappedKeyPart, hlen])
  rw [fieldsOf, hmarker, hcount, hsalt, hnonce, hwrapped, htag]

variable {size salt iterations nonce tag}

theorem tagMatches_layout_iff {passphrase : List Byte}
    (h : WrappedKeyFormat (wrappedKeyPart size.marker salt iterations nonce ciphertext ++ tag.toList)) :
    TagMatches passphrase (wrappedKeyPart size.marker salt iterations nonce ciphertext ++ tag.toList) ↔
      hmacSha256 (macKeyOf (derivedKey passphrase salt.toList iterations)).toList
        (wrappedKeyPart size.marker salt iterations nonce ciphertext) = tag := by
  have hfields := fieldsOf_layout size salt iterations nonce hlen tag
  have hmarker : (wrappedKeyPart size.marker salt iterations nonce ciphertext ++ tag.toList)[5]! =
      size.marker := rfl
  have hlength : (wrappedKeyPart size.marker salt iterations nonce ciphertext).length =
      kWrappedKeyOffset + size.marker.toNat := by
    rw [length_wrappedKeyPart, hlen]
    rfl
  have hpart : (slice (wrappedKeyPart size.marker salt iterations nonce ciphertext ++ tag.toList) 0
      (kWrappedKeyOffset + size.marker.toNat)).toList = wrappedKeyPart size.marker salt iterations
      nonce ciphertext := by
    rw [toList_slice, List.drop_zero, List.take_left' hlength]
    rw [Nat.zero_add, List.length_append, hlength]
    exact Nat.le_add_right _ _
  rw [tagMatches_iff h, hmarker, hpart, fileDerived, hfields]

end Layout

section Classification

variable {os : Os} {w w₁ : World} {path : String} {fileData : List Byte}

/-- The outcome for every file that can be read, and the uses of the primitives on the way. -/
theorem loadFromFileEncrypted_classifies (hread : Ends (readFile os path) w (.ok fileData) w₁)
    (passphrase : List Byte) :
    ∃ r w' events, Ends (SecretKey.loadFromFileEncrypted os path passphrase) w r w' ∧
      w'.trace = w.trace ++ events ∧
      ((∃ key, r = .ok key) ↔ WrappedKeyFormat fileData ∧ TagMatches passphrase fileData) ∧
      ((∃ what, r = .error (.authenticationError what)) ↔
        WrappedKeyFormat fileData ∧ ¬TagMatches passphrase fileData) ∧
      ((∃ what, r = .error (.formatError what)) ↔ ¬WrappedKeyFormat fileData) ∧
      r ≠ .error .outOfRange ∧
      (∀ c, .pbkdf2 c ∈ events → 1000 ≤ c.toNat ∧ c.toNat ≤ 50000000) ∧
      (¬TagMatches passphrase fileData → ∀ block, .cipher block ∉ events) := by
  have htrace := (readFile_result hread).1
  by_cases h : WrappedKeyFormat fileData
  · have hbounds : 1000 ≤ (countAt fileData).toNat ∧ (countAt fileData).toNat ≤ 50000000 :=
      ⟨h.minimum, h.maximum⟩
    by_cases htag : TagMatches passphrase fileData
    · refine ⟨_, _, _, loadFromFileEncrypted_unwraps hread passphrase h (unwrapKey_accepts h os w₁ htag),
        by rw [← htrace, World.ciphered, World.derived, World.prfs, World.record, List.append_assoc,
          List.append_assoc], ?_⟩
      simp [h, htag, hbounds]
    · refine ⟨_, _, _, loadFromFileEncrypted_unwraps hread passphrase h (unwrapKey_rejects h os w₁ htag),
        by rw [← htrace, World.derived, World.prfs, World.record, List.append_assoc], ?_⟩
      simp [h, htag, hbounds]
  · obtain ⟨what, hload⟩ := loadFromFileEncrypted_refuses hread passphrase h
    refine ⟨_, w₁, [], hload, by rw [htrace, List.append_nil], ?_⟩
    simp [h]

/-- An AES-128 key wrapped under the passphrase `"p"`, before the tag. -/
def wrappedOnes : List Byte :=
  wrappedKeyPart KeySize.aes128.marker (Vector.replicate kSaltSize 2) 1000
    (Vector.replicate kNonceSize 3) (List.replicate 16 1)

def wrappedOnesTag : Vector Byte kTagSize :=
  hmacSha256 (macKeyOf (derivedKey [0x70] (Vector.replicate kSaltSize 2).toList 1000)).toList wrappedOnes

theorem wrappedOnes_format (tag : Vector Byte kTagSize) :
    WrappedKeyFormat (wrappedOnes ++ tag.toList) where
  toWrappedKeyHeader := wrappedKeyHeader_layout .aes128 _ _ _ List.length_replicate tag
  minimum := by
    rw [wrappedOnes, countAt_layout]
    decide
  maximum := by
    rw [wrappedOnes, countAt_layout]
    decide

/-- With its tag the file is opened; with every byte of the tag changed it is refused, and nothing
is decrypted. -/
theorem loadFromFileEncrypted_classifies_wrappedOnes :
    (∃ key w', Ends (SecretKey.loadFromFileEncrypted Os.plain "key" [0x70])
      (World.empty.setFile "key" (wrappedOnes ++ wrappedOnesTag.toList)) (.ok key) w') ∧
    ∃ what w', Ends (SecretKey.loadFromFileEncrypted Os.plain "key" [0x70])
      (World.empty.setFile "key" (wrappedOnes ++ (wrappedOnesTag.map (· ^^^ 1)).toList))
        (.error (.authenticationError what)) w' ∧ ∀ block, .cipher block ∉ w'.trace := by
  have hread (tag : Vector Byte kTagSize) : ∃ w₁, Ends (readFile Os.plain "key")
      (World.empty.setFile "key" (wrappedOnes ++ tag.toList)) (.ok (wrappedOnes ++ tag.toList)) w₁ := by
    obtain ⟨w₁, hread, -⟩ := readFile_serves Os.plain_serves (show
      (World.empty.setFile "key" (wrappedOnes ++ tag.toList)).files "key" =
        some (wrappedOnes ++ tag.toList) by simp [World.setFile])
    exact ⟨w₁, hread⟩
  have htag (tag : Vector Byte kTagSize) : TagMatches [0x70] (wrappedOnes ++ tag.toList) ↔
      wrappedOnesTag = tag :=
    tagMatches_layout_iff List.length_replicate (wrappedOnes_format tag)
  constructor
  · obtain ⟨_, hread⟩ := hread wrappedOnesTag
    obtain ⟨r, w', _, hload, -, hok, -⟩ := loadFromFileEncrypted_classifies hread [0x70]
    obtain ⟨key, rfl⟩ := hok.mpr ⟨wrappedOnes_format _, (htag _).mpr rfl⟩
    exact ⟨key, w', hload⟩
  · have hchanged : ¬TagMatches [0x70] (wrappedOnes ++ (wrappedOnesTag.map (· ^^^ 1)).toList) := by
      rw [htag]
      intro heq
      have hbyte := congrArg (fun tag : Vector Byte kTagSize => tag[0]) heq
      simp only [Vector.getElem_map] at hbyte
      have hne : ∀ b : Byte, b ≠ b ^^^ 1 := by decide
      exact hne _ hbyte
    obtain ⟨_, hread⟩ := hread (wrappedOnesTag.map (· ^^^ 1))
    obtain ⟨r, w', events, hload, htrace, -, hauth, -, -, -, hnone⟩ :=
      loadFromFileEncrypted_classifies hread [0x70]
    obtain ⟨what, rfl⟩ := hauth.mpr ⟨wrappedOnes_format _, hchanged⟩
    refine ⟨what, w', hload, fun block => ?_⟩
    rw [htrace]
    exact hnone hchanged block

end Classification

section Written

variable (key : SecretKey) (passphrase : List Byte) (iterations : BitVec 32)
  (salt : Vector Byte kSaltSize)
  (nonce : Vector Byte kNonceSize)

theorem fieldsOf_wrappedKeyFile : fieldsOf (wrappedKeyFile key passphrase iterations salt nonce) = {
    sizeMarker := key.size.marker
    salt := salt
    iterations := iterations
    nonce := nonce
    wrappedCiphertext :=
      keystreamXor (wrapKeyOf (derivedKey passphrase salt.toList iterations)) 0 nonce key.material
    storedTag := hmacSha256 (macKeyOf (derivedKey passphrase salt.toList iterations)).toList
      (wrappedKeyPart key.size.marker salt iterations nonce
        (keystreamXor (wrapKeyOf (derivedKey passphrase salt.toList iterations)) 0 nonce
          key.material)) } :=
  fieldsOf_layout key.size salt iterations nonce
    (by rw [length_keystreamXor, key.length_material]; rfl) _

theorem wrappedKeyFormat_iff : WrappedKeyFormat (wrappedKeyFile key passphrase iterations salt nonce) ↔
    1000 ≤ iterations.toNat ∧ iterations.toNat ≤ 50000000 := by
  have hheader : WrappedKeyHeader (wrappedKeyFile key passphrase iterations salt nonce) :=
    wrappedKeyHeader_layout key.size salt iterations nonce
      (by rw [length_keystreamXor, key.length_material]; rfl) _
  have hcount : countAt (wrappedKeyFile key passphrase iterations salt nonce) = iterations :=
    countAt_layout key.size salt iterations nonce _
  constructor
  · intro h
    have hmin := h.minimum
    have hmax := h.maximum
    rw [hcount] at hmin hmax
    exact ⟨hmin, hmax⟩
  · exact fun h => ⟨hheader, hcount.symm ▸ h.1, hcount.symm ▸ h.2⟩

variable {key passphrase iterations salt nonce}

/-- The passphrase of the save opens the file. -/
theorem tagMatches_wrappedKeyFile
    (h : WrappedKeyFormat (wrappedKeyFile key passphrase iterations salt nonce)) :
    TagMatches passphrase (wrappedKeyFile key passphrase iterations salt nonce) :=
  (tagMatches_layout_iff (by rw [length_keystreamXor, key.length_material]; rfl) h).mpr rfl

theorem unwrapped_wrappedKeyFile :
    unwrapped passphrase (wrappedKeyFile key passphrase iterations salt nonce) =
      keyFromBytes key.material key.size := by
  rw [unwrapped, fileDerived, fieldsOf_wrappedKeyFile]
  simp only [keystreamXor_keystreamXor, KeySize.ofMarker_marker]

end Written

section Saved

variable (key : SecretKey) (passphrase : List Byte) (iterations : BitVec 32)

/-- The reader never answers a saved file with `FormatError`, whatever the two platforms do. -/
def OpensAfterSave : Prop :=
  ∀ (os : Os) (w w' : World) (path : String),
    Ends (SecretKey.saveToFileEncrypted os key path passphrase iterations) w (.ok ()) w' →
    ∀ (os' : Os) (v v' : World) (path' : String) (what : String), v.files path' = w'.files path →
      ¬Ends (SecretKey.loadFromFileEncrypted os' path' passphrase) v (.error (.formatError what)) v'

variable {key passphrase iterations}

theorem opensAfterSave_of_le (h : iterations.toNat ≤ 50000000) :
    OpensAfterSave key passphrase iterations := by
  intro os w w' path hsave os' v v' path' what hv hload
  obtain ⟨hmin, -, salt, nonce, -, -, hfile⟩ :=
    saveToFileEncrypted_stores os key path passphrase iterations trivial hsave
  have hformat := (wrappedKeyFormat_iff key passphrase iterations salt nonce).mpr ⟨hmin, h⟩
  rcases ends_bind.mp hload with ⟨data, v₁, hread, -⟩ | ⟨e, he, hread⟩
  · obtain ⟨data', hdata', heq⟩ := (readFile_result hread).2.resolve_left (by simp)
    obtain rfl := Except.ok.inj heq
    obtain rfl := Option.some.inj ((hdata'.symm.trans hv).trans hfile)
    have haccepts := loadFromFileEncrypted_unwraps hread passphrase hformat
      (unwrapKey_accepts hformat os' v₁ (tagMatches_wrappedKeyFile hformat))
    exact absurd (hload.unique haccepts).1 (by simp)
  · obtain rfl := Except.error.inj he
    rcases (readFile_result hread).2 with ⟨e, he, hthrows⟩ | ⟨_, _, hok⟩
    · obtain rfl := Except.error.inj he
      exact absurd hthrows (by simp [ReadFileThrows])
    · exact absurd hok (by simp)

/-- A save with a larger count that returns is lost: a platform that serves shows it. -/
theorem not_opensAfterSave (hmin : 50000000 < iterations.toNat) (hmax : iterations.toNat < 2 ^ 32 - 1) :
    ¬OpensAfterSave key passphrase iterations := by
  intro h
  obtain ⟨w', hsave⟩ :=
    saveToFileEncrypted_serves key "key" passphrase iterations Os.plain_serves World.empty
    (by omega) hmax
  obtain ⟨-, -, salt, nonce, -, -, hfile⟩ :=
    saveToFileEncrypted_stores Os.plain key "key" passphrase iterations trivial hsave
  obtain ⟨v₁, hread, -⟩ := readFile_serves Os.plain_serves hfile
  have hformat : ¬WrappedKeyFormat (wrappedKeyFile key passphrase iterations salt nonce) := by
    rw [wrappedKeyFormat_iff]
    omega
  obtain ⟨what, hload⟩ := loadFromFileEncrypted_refuses hread passphrase hformat
  exact h Os.plain World.empty w' "key" hsave Os.plain w' v₁ "key" what rfl hload

theorem opensAfterSave_of_max (h : iterations.toNat = 2 ^ 32 - 1) :
    OpensAfterSave key passphrase iterations := by
  intro os w w' path hsave
  have hlt := (saveToFileEncrypted_stores os key path passphrase iterations trivial hsave).2.1
  omega

variable (key passphrase iterations)

/-- A saved file opens exactly if its count is within the reader's bound, or if the save cannot
return. -/
theorem opensAfterSave_iff :
    OpensAfterSave key passphrase iterations ↔
      iterations.toNat ≤ 50000000 ∨ iterations.toNat = 2 ^ 32 - 1 := by
  constructor
  · intro h
    by_contra hnot
    rw [not_or] at hnot
    have hlt := iterations.isLt
    exact not_opensAfterSave (by omega) (by omega) h
  · rintro (h | h)
    · exact opensAfterSave_of_le h
    · exact opensAfterSave_of_max h

/-- One iteration above the reader's bound. -/
theorem not_opensAfterSave_50000001 : ¬OpensAfterSave {} [] 50000001 :=
  not_opensAfterSave (by decide) (by decide)

/-- Between 1000 and 50,000,000 iterations a save and a load with one passphrase give the key back,
without the unused part of its storage. -/
theorem loadFromFileEncrypted_saved (hmin : 1000 ≤ iterations.toNat)
    (hmax : iterations.toNat ≤ 50000000) :
    (∀ os : Os, os.Serves → ∀ w path,
      ∃ w', Ends (SecretKey.saveToFileEncrypted os key path passphrase iterations) w (.ok ()) w') ∧
    ∀ os w w' path,
      Ends (SecretKey.saveToFileEncrypted os key path passphrase iterations) w (.ok ()) w' →
      ∀ os' : Os, os'.Serves → ∀ v path', v.files path' = w'.files path →
        ∃ loaded v', Ends (SecretKey.loadFromFileEncrypted os' path' passphrase) v (.ok loaded) v' ∧
          loaded.size = key.size ∧ loaded.material = key.material ∧
          ∀ (i : Nat) (hi : i < kKeySizeBytes), key.sizeBytes ≤ i → loaded.bytes[i] = 0 := by
  refine ⟨fun os hos w path => saveToFileEncrypted_serves key path passphrase iterations hos w hmin
    (by omega), ?_⟩
  intro os w w' path hsave os' hos' v path' hv
  obtain ⟨-, -, salt, nonce, -, -, hfile⟩ :=
    saveToFileEncrypted_stores os key path passphrase iterations trivial hsave
  have hformat := (wrappedKeyFormat_iff key passphrase iterations salt nonce).mpr ⟨hmin, hmax⟩
  obtain ⟨v₁, hread, -⟩ := readFile_serves hos' (hv.trans hfile)
  have hunwrap := unwrapKey_accepts hformat os' v₁ (tagMatches_wrappedKeyFile hformat)
  rw [unwrapped_wrappedKeyFile] at hunwrap
  have hsize : (keyFromBytes key.material key.size).size = key.size := by rw [keyFromBytes]
  exact ⟨keyFromBytes key.material key.size, _,
    loadFromFileEncrypted_unwraps hread passphrase hformat hunwrap, hsize,
    material_keyFromBytes key.length_material, fun i hi hle =>
    getElem_keyFromBytes_ge key.material key.size hi hle⟩

/-- The AES-128 key of the bytes 0 to 15, with bytes behind it. -/
def countingKey : SecretKey where
  bytes := Vector.ofFn fun i => BitVec.ofNat 8 i.val
  size := .aes128

/-- It is saved under the passphrase `"pass"`, and comes back without the bytes behind it. -/
theorem loadFromFileEncrypted_saved_countingKey :
    (∃ w', Ends (SecretKey.saveToFileEncrypted Os.plain countingKey "key" [0x70, 0x61, 0x73, 0x73] 1000)
      World.empty (.ok ()) w') ∧
    ∀ w', Ends (SecretKey.saveToFileEncrypted Os.plain countingKey "key" [0x70, 0x61, 0x73, 0x73] 1000)
      World.empty (.ok ()) w' →
      ∃ loaded v', Ends (SecretKey.loadFromFileEncrypted Os.plain "key" [0x70, 0x61, 0x73, 0x73]) w'
        (.ok loaded) v' ∧
        loaded.size = .aes128 ∧
        loaded.material = [0, 1, 2, 3, 4, 5, 6, 7, 8, 9, 10, 11, 12, 13, 14, 15] ∧
        loaded.bytes[16] = 0 := by
  have hsaved := loadFromFileEncrypted_saved countingKey [0x70, 0x61, 0x73, 0x73] 1000 (by decide)
    (by decide)
  refine ⟨hsaved.1 Os.plain Os.plain_serves World.empty "key", fun w' hw' => ?_⟩
  obtain ⟨loaded, v', hends, hsize, hmaterial, hrest⟩ :=
    hsaved.2 Os.plain World.empty w' "key" hw' Os.plain Os.plain_serves w' "key" rfl
  exact ⟨loaded, v', hends, hsize, hmaterial.trans (by decide), hrest 16 (by decide) (by decide)⟩

end Saved

end Aeslib
