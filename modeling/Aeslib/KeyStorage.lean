import Aeslib.Ctr
import Aeslib.Sha256
import Aeslib.WriteFile

/-!
The passphrase-wrapped key file of `src/key_storage.cpp`. The writer derives two subkeys from the
passphrase, encrypts the key material under the first and authenticates the whole header under the
second; the reader checks the format, then the tag, and decrypts last.
-/

namespace Aeslib

open Bytes Prog

/-- `"AESW"`. -/
def kWrappedKeyFileMagic : Vector Byte 4 := #v[0x41, 0x45, 0x53, 0x57]

def kWrappedKeyFileVersion : Byte := 2

abbrev kSaltSize : Nat := 16

abbrev kNonceSize : Nat := 12

abbrev kTagSize : Nat := 32

abbrev kWrappedKeyOffset : Nat := 4 + 1 + 1 + kSaltSize + 4 + kNonceSize

def kMinPbkdf2Iterations : BitVec 32 := 1000

def kMaxPbkdf2Iterations : BitVec 32 := 50000000

/-- The first half of the derived bytes as the wrapping key, which is an AES-256 key for both sizes. -/
def wrapKeyOf (derived : Vector Byte 64) : SecretKey where
  bytes := Vector.ofFn fun i => derived[i.val]

/-- The second half of the derived bytes. -/
def macKeyOf (derived : Vector Byte 64) : Vector Byte 32 :=
  Vector.ofFn fun i => derived[kKeySizeBytes + i.val]!

/-- `plaintext_part` and `offset`. -/
structure PartState where
  part : List Byte
  offset : Nat

/-- Stores one field at the offset and advances it. -/
def putField (s : PartState) (field : List Byte) : Except Error PartState :=
  if s.offset + field.length ≤ s.part.length then
    .ok {
      part := s.part.take s.offset ++ field ++ s.part.drop (s.offset + field.length)
      offset := s.offset + field.length }
  else .error .outOfRange

/-- Everything before the tag. -/
def plaintextPart (keyLen : Nat) (salt : Vector Byte kSaltSize) (iterations : BitVec 32)
    (wrappedContainer : Container) : Except Error (List Byte) := do
  let fields := [kWrappedKeyFileMagic.toList, [kWrappedKeyFileVersion], [BitVec.ofNat 8 keyLen],
    salt.toList, [byteLE iterations 0], [byteLE iterations 1], [byteLE iterations 2],
    [byteLE iterations 3], wrappedContainer.nonce.toList, wrappedContainer.ciphertext]
  let s ← fields.foldlM putField { part := List.replicate (kWrappedKeyOffset + keyLen) 0, offset := 0 }
  throwIf (s.offset ≠ kWrappedKeyOffset + keyLen) (.ioError "internal: wrapped key file layout error")
  pure s.part

namespace SecretKey

def saveToFileEncrypted (os : Os) (key : SecretKey) (path : String) (passphrase : List Byte)
    (iterations : BitVec 32) : Prog World Error Unit := do
  let keyLen := key.sizeBytes
  raiseIf (iterations < kMinPbkdf2Iterations)
    (.limitError ("PBKDF2 iteration count must be at least " ++ toString kMinPbkdf2Iterations.toNat))
  let salt ← fillRandom os (Vector.replicate kSaltSize 0)
  let derived ← pbkdf2HmacSha256 passphrase salt.toList iterations
  let wrapKey := wrapKeyOf derived
  -- this nonce is never used: `Aes256Ctr::encrypt` draws the one that is stored
  let _nonce ← fillRandom os (Vector.replicate kNonceSize 0)
  let plaintextKey := (keyBytes key).toList.take keyLen
  let wrappedContainer ← Aes256Ctr.encrypt os wrapKey plaintextKey
  raiseIf (wrappedContainer.ciphertext.length ≠ keyLen)
    (.ioError "internal: wrapped key ciphertext size mismatch")
  let part ← ofExcept (plaintextPart keyLen salt iterations wrappedContainer)
  let macKeyArray := macKeyOf derived
  let tag := hmacSha256 macKeyArray.toList part
  writeNewFile os path "failed to create encrypted key file: "
    "refusing to write encrypted key file through a symlink/reparse point: "
    "failed to write encrypted key file: "
    (Transfer.andThen (fun fd => writeLoop os fd part) fun fd => writeLoop os fd tag.toList)
    (Transfer.andThen (fun h => writeFileWin os h part) fun h => writeFileWin os h tag.toList)

end SecretKey

/-- What the reader takes from the file. -/
structure WrappedKeyFields where
  sizeMarker : Byte
  salt : Vector Byte kSaltSize
  iterations : BitVec 32
  nonce : Vector Byte kNonceSize
  wrappedCiphertext : List Byte
  storedTag : Vector Byte kTagSize

def readByte (data : List Byte) (offset : Nat) : Except Error Byte :=
  if offset < data.length then .ok data[offset]! else .error .outOfRange

/-- The checks up to the file size. -/
def checkWrappedKeyHeader (fileData : List Byte) : Except Error Byte := do
  throwIf (fileData.length < 6) (.formatError "encrypted key file is too short to contain a header")
  let magic ← readBytes fileData 0 4
  throwIf (magic ≠ kWrappedKeyFileMagic) (.formatError "encrypted key file has wrong magic")
  let version ← readByte fileData 4
  throwIf (version ≠ kWrappedKeyFileVersion)
    (.formatError ("encrypted key file has unsupported version: " ++ toString version.toNat))
  let sizeMarker ← readByte fileData 5
  throwIf (isValidSizeMarker sizeMarker = false)
    (.formatError ("encrypted key file has an invalid key size marker: " ++ toString sizeMarker.toNat))
  let keyLen := sizeMarker.toNat
  let expectedFileSize := kWrappedKeyOffset + keyLen + kTagSize
  throwIf (fileData.length ≠ expectedFileSize) (.formatError
    ("encrypted key file has wrong size: expected " ++ toString expectedFileSize ++ ", got " ++
      toString fileData.length))
  pure sizeMarker

/-- The rest of the structure, and the check of the iteration count. -/
def readWrappedKeyFields (fileData : List Byte) (sizeMarker : Byte) : Except Error WrappedKeyFields := do
  let keyLen := sizeMarker.toNat
  let expectedFileSize := kWrappedKeyOffset + keyLen + kTagSize
  let offset := 6
  let salt ← readBytes fileData offset kSaltSize
  let offset := offset + kSaltSize
  let b0 ← readByte fileData offset
  let b1 ← readByte fileData (offset + 1)
  let b2 ← readByte fileData (offset + 2)
  let b3 ← readByte fileData (offset + 3)
  let iterations :=
    b0.setWidth 32 ||| b1.setWidth 32 <<< 8 ||| b2.setWidth 32 <<< 16 ||| b3.setWidth 32 <<< 24
  let offset := offset + 4
  let nonce ← readBytes fileData offset kNonceSize
  let offset := offset + kNonceSize
  let wrappedCiphertext ← readBytes fileData offset keyLen
  let offset := offset + keyLen
  let storedTag ← readBytes fileData offset kTagSize
  let offset := offset + kTagSize
  throwIf (offset ≠ expectedFileSize) (.formatError "encrypted key file layout error")
  throwIf (iterations < kMinPbkdf2Iterations ∨ iterations > kMaxPbkdf2Iterations)
    (.formatError ("encrypted key file has an invalid iteration count: " ++ toString iterations.toNat))
  pure { sizeMarker, salt, iterations, nonce, wrappedCiphertext := wrappedCiphertext.toList, storedTag }

/-- The derivation, the check of the tag, and the decryption. -/
def unwrapKey (os : Os) (passphrase fileData : List Byte) (fields : WrappedKeyFields) :
    Prog World Error SecretKey := do
  let keyLen := fields.sizeMarker.toNat
  let derived ← pbkdf2HmacSha256 passphrase fields.salt.toList fields.iterations
  let macKeyArray := macKeyOf derived
  let part ← ofExcept (readBytes fileData 0 (kWrappedKeyOffset + keyLen))
  let computedTag := hmacSha256 macKeyArray.toList part.toList
  raiseIf (constantTimeEqual computedTag fields.storedTag = false) (.authenticationError
    "encrypted key file authentication failed: wrong passphrase or corrupted file")
  let wrapKey := wrapKeyOf derived
  let wrappedContainer : Container := { nonce := fields.nonce, ciphertext := fields.wrappedCiphertext }
  let decryptedBytes ← Aes256Ctr.decrypt os wrapKey wrappedContainer
  raiseIf (decryptedBytes.length ≠ keyLen)
    (.formatError "encrypted key file: decrypted key has wrong size")
  let result : SecretKey := { size := .ofMarker fields.sizeMarker }
  pure { result with bytes := copyToStorage result.bytes decryptedBytes }

def SecretKey.loadFromFileEncrypted (os : Os) (path : String) (passphrase : List Byte) :
    Prog World Error SecretKey := do
  let fileData ← readFile os path
  let sizeMarker ← ofExcept (checkWrappedKeyHeader fileData)
  let fields ← ofExcept (readWrappedKeyFields fileData sizeMarker)
  unwrapKey os passphrase fileData fields

end Aeslib
