import Aeslib.LibBytes

/-!
The key object of `include/aeslib/key.hpp` and its access seam of `src/internal.hpp`. The storage is
always 32 bytes; the size says how many of them are the key.
-/

namespace Aeslib

/-- The exceptions of `exceptions.hpp`, and those of the standard library: the `std::logic_error` of the
backends that a build leaves out, `std::bad_alloc` and `std::filesystem::filesystem_error`. `outOfRange`
is no exception of the source: it stands for a read outside of a buffer. -/
inductive Error where
  | ioError (what : String)
  | formatError (what : String)
  | limitError (what : String)
  | authenticationError (what : String)
  | logicError (what : String)
  | badAlloc
  | filesystemError (what : String)
  | outOfRange
  deriving DecidableEq, Repr

abbrev kKeySizeBytes : Nat := 32

inductive KeySize where
  | aes128
  | aes256
  deriving DecidableEq, Repr

/-- The value of the enumerator: the size marker of both key file formats. -/
def KeySize.marker : KeySize → Byte
  | .aes128 => 16
  | .aes256 => 32

def KeySize.sizeBytes (size : KeySize) : Nat := size.marker.toNat

@[simp] theorem KeySize.sizeBytes_aes128 : KeySize.aes128.sizeBytes = 16 := rfl
@[simp] theorem KeySize.sizeBytes_aes256 : KeySize.aes256.sizeBytes = 32 := rfl

theorem KeySize.sizeBytes_le (size : KeySize) : size.sizeBytes ≤ kKeySizeBytes := by
  cases size <;> decide

/-- `static_cast<KeySize>(size_marker)`, after the marker has been checked. -/
def KeySize.ofMarker (marker : Byte) : KeySize := if marker = 16 then .aes128 else .aes256

@[simp] theorem KeySize.ofMarker_marker (size : KeySize) : ofMarker size.marker = size := by
  cases size <;> rfl

def isValidSizeMarker (marker : Byte) : Bool :=
  marker == KeySize.aes128.marker || marker == KeySize.aes256.marker

theorem isValidSizeMarker_iff (marker : Byte) :
    isValidSizeMarker marker = true ↔ ∃ size : KeySize, size.marker = marker := by
  simp only [isValidSizeMarker, Bool.or_eq_true, beq_iff_eq]
  constructor
  · rintro (h | h)
    · exact ⟨.aes128, h.symm⟩
    · exact ⟨.aes256, h.symm⟩
  · rintro ⟨size, rfl⟩
    cases size <;> simp

structure SecretKey where
  bytes : Vector Byte kKeySizeBytes := Vector.replicate kKeySizeBytes 0
  size : KeySize := .aes256
  gcmInvocations : BitVec 64 := 0
  deriving DecidableEq

namespace SecretKey

def sizeBytes (key : SecretKey) : Nat := key.size.sizeBytes

/-- The bytes that are key material: the first `sizeBytes` of the storage. -/
def material (key : SecretKey) : List Byte := key.bytes.toList.take key.sizeBytes

theorem length_material (key : SecretKey) : key.material.length = key.sizeBytes := by
  simp [material, sizeBytes, key.size.sizeBytes_le]

end SecretKey

/-- `detail::key_bytes`: the only read of the storage outside of the class. -/
def keyBytes (key : SecretKey) : Vector Byte 32 := key.bytes

/-- The storage with `data` copied over its beginning. -/
def copyToStorage (storage : Vector Byte kKeySizeBytes) (data : List Byte) :
    Vector Byte kKeySizeBytes :=
  Vector.ofFn fun i => data[i.val]?.getD storage[i]

theorem getElem_copyToStorage_lt (storage : Vector Byte kKeySizeBytes) (data : List Byte) {i : Nat}
    (hi : i < kKeySizeBytes) (hd : i < data.length) :
    (copyToStorage storage data)[i] = data[i] := by simp [copyToStorage, hd]

theorem getElem_copyToStorage_ge (storage : Vector Byte kKeySizeBytes) (data : List Byte) {i : Nat}
    (hi : i < kKeySizeBytes) (hd : data.length ≤ i) :
    (copyToStorage storage data)[i] = storage[i] := by simp [copyToStorage, hd]

/-- `detail::key_from_bytes`: copies the key's logical size and leaves the rest zero. -/
def keyFromBytes (bytes : List Byte) (size : KeySize) : SecretKey :=
  let key : SecretKey := { size := size }
  { key with bytes := copyToStorage key.bytes (bytes.take size.sizeBytes) }

/-- The reloaded key has the same material, whatever the rest of the storage was. -/
theorem material_keyFromBytes {data : List Byte} {size : KeySize}
    (hdata : data.length = size.sizeBytes) : (keyFromBytes data size).material = data := by
  have hle := size.sizeBytes_le
  refine List.ext_getElem (by rw [SecretKey.length_material, hdata]; rfl) fun i h1 h2 => ?_
  have hi : i < (data.take size.sizeBytes).length := by rwa [List.take_of_length_le hdata.le]
  simp only [SecretKey.material, List.getElem_take, Vector.getElem_toList, keyFromBytes]
  rw [getElem_copyToStorage_lt _ _ (by omega) hi, List.getElem_take]

theorem getElem_keyFromBytes_ge (data : List Byte) (size : KeySize) {i : Nat} (hi : i < kKeySizeBytes)
    (hsize : size.sizeBytes ≤ i) : (keyFromBytes data size).bytes[i] = 0 := by
  simp only [keyFromBytes]
  rw [getElem_copyToStorage_ge _ _ hi ((List.length_take_le _ _).trans hsize), Vector.getElem_replicate]

/-- `detail::consume_gcm_invocation`: the count before this call, and the key with one more. -/
def consumeGcmInvocation (key : SecretKey) : BitVec 64 × SecretKey :=
  (key.gcmInvocations, { key with gcmInvocations := key.gcmInvocations + 1 })

abbrev kBlockSizeBytes : Nat := 16

abbrev Block := Vector Byte kBlockSizeBytes

end Aeslib
