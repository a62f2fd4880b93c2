import Aeslib.Os

/-!
The two containers and their wire formats: `serialize` and `deserialize` of `src/container.cpp` and
of `src/aes_gcm.cpp`. The formats differ in the magic, in the fixed fields before the length and in
the wording of the errors.
-/

namespace Aeslib

open Bytes

/-- `if (b) throw e;`. -/
def throwIf (b : Prop) [Decidable b] (e : Error) : Except Error Unit := if b then .error e else .ok ()

@[simp] theorem throwIf_bind {α : Type} {b : Prop} [Decidable b] {e : Error}
    {f : Unit → Except Error α} : (throwIf b e >>= f) = if b then .error e else f () := by
  unfold throwIf
  split_ifs <;> rfl

@[simp] theorem ok_bind {α β : Type} (a : α) (f : α → Except Error β) : (Except.ok a >>= f) = f a := rfl

/-- The `n` bytes of a buffer from `offset` on. -/
def readBytes (data : List Byte) (offset n : Nat) : Except Error (Vector Byte n) :=
  if offset + n ≤ data.length then .ok (Vector.ofFn fun i => data[offset + i.val]!)
  else .error .outOfRange

theorem readBytes_of_le {data : List Byte} {offset n : Nat} (h : offset + n ≤ data.length) :
    readBytes data offset n = .ok (Vector.ofFn fun i => data[offset + i.val]!) := if_pos h

theorem readBytes_append {data a b : List Byte} {offset n : Nat} (v : Vector Byte n)
    (hdata : data = a ++ (v.toList ++ b)) (ha : a.length = offset) :
    readBytes data offset n = .ok v := by
  subst hdata ha
  rw [readBytes_of_le (by simp)]
  refine congrArg Except.ok (Vector.ext fun i hi => ?_)
  rw [Vector.getElem_ofFn, getElem!_pos _ _ (by simp; omega), List.getElem_append_right (by omega)]
  simp [hi]

/-- `n` bytes from `offset` on. -/
def slice (data : List Byte) (offset n : Nat) : Vector Byte n :=
  Vector.ofFn fun i => data[offset + i.val]!

theorem readBytes_slice {data : List Byte} {offset n : Nat} (h : offset + n ≤ data.length) :
    readBytes data offset n = .ok (slice data offset n) := readBytes_of_le h

theorem toList_slice {data : List Byte} {offset n : Nat} (h : offset + n ≤ data.length) :
    (slice data offset n).toList = (data.drop offset).take n := by
  refine List.ext_getElem (by simp; omega) fun i h1 h2 => ?_
  have hi : i < n := by simpa using h1
  simp only [slice, Vector.toList_ofFn, List.getElem_ofFn, List.getElem_take, List.getElem_drop]
  exact getElem!_pos data _ (by omega)

abbrev kNonceSizeBytes : Nat := 12

abbrev kGcmNonceSizeBytes : Nat := 12

abbrev kGcmTagSizeBytes : Nat := 16

structure Container where
  nonce : Vector Byte kNonceSizeBytes
  ciphertext : List Byte
  deriving DecidableEq

structure GcmContainer where
  nonce : Vector Byte kGcmNonceSizeBytes
  tag : Vector Byte kGcmTagSizeBytes
  ciphertext : List Byte
  deriving DecidableEq

/-- `"AESC"`. -/
def kMagic : Vector Byte 4 := #v[0x41, 0x45, 0x53, 0x43]

/-- `"AESG"`. -/
def kGcmMagic : Vector Byte 4 := #v[0x41, 0x45, 0x53, 0x47]

def kContainerVersion : Byte := 1

def kGcmContainerVersion : Byte := 1

/-- The wire format with the fixed fields `fields`. -/
def serializeWith (magic : Vector Byte 4) (version : Byte) {n : Nat} (fields : Vector Byte n)
    (ciphertext : List Byte) : List Byte :=
  magic.toList ++ [version] ++ fields.toList ++
    (toBytesLE 8 (BitVec.ofNat 64 ciphertext.length)).toList ++ ciphertext

/-- The parser of a format whose fixed fields are `n` bytes; `what` is its name in the errors. -/
def deserializeWith (what : String) (magic : Vector Byte 4) (version : Byte) (n : Nat)
    (data : List Byte) : Except Error (Vector Byte n × List Byte) := do
  throwIf (data.length < 4 + 1 + n + 8) (.formatError (what ++ " truncated: missing header"))
  let found ← readBytes data 0 4
  throwIf (found ≠ magic) (.formatError (what ++ " has bad magic bytes"))
  let foundVersion ← readBytes data 4 1
  throwIf (foundVersion[0] ≠ version)
    (.formatError ("unsupported " ++ what ++ " version: " ++ toString foundVersion[0].toNat))
  let fields ← readBytes data 5 n
  let ctLen ← readBytes data (5 + n) 8
  throwIf (data.length - (5 + n + 8) ≠ (ofBytesLE 64 ctLen).toNat)
    (.formatError (what ++ " ciphertext length mismatch"))
  pure (fields, data.drop (5 + n + 8))

def serialize (container : Container) : List Byte :=
  serializeWith kMagic kContainerVersion container.nonce container.ciphertext

def deserialize (data : List Byte) : Except Error Container := do
  let (nonce, ciphertext) ← deserializeWith "container" kMagic kContainerVersion kNonceSizeBytes data
  pure { nonce, ciphertext }

def serializeGcm (container : GcmContainer) : List Byte :=
  serializeWith kGcmMagic kGcmContainerVersion (container.nonce ++ container.tag) container.ciphertext

def deserializeGcm (data : List Byte) : Except Error GcmContainer := do
  let (fields, ciphertext) ← deserializeWith "GCM container" kGcmMagic kGcmContainerVersion
    (kGcmNonceSizeBytes + kGcmTagSizeBytes) data
  pure {
    nonce := Vector.ofFn fun i => fields[i.val]
    tag := Vector.ofFn fun i => fields[kGcmNonceSizeBytes + i.val]
    ciphertext }

theorem deserializeWith_serializeWith (what : String) (magic : Vector Byte 4) (version : Byte) {n : Nat}
    (fields : Vector Byte n) {ciphertext : List Byte} (hlen : ciphertext.length < 2 ^ 64) :
    deserializeWith what magic version n (serializeWith magic version fields ciphertext) =
      .ok (fields, ciphertext) := by
  set data := serializeWith magic version fields ciphertext with hdata
  set len := toBytesLE 8 (BitVec.ofNat 64 ciphertext.length) with hlenBytes
  have hlength : data.length = 5 + n + 8 + ciphertext.length := by
    simp [hdata, serializeWith]
    omega
  have hmagic : readBytes data 0 4 = .ok magic :=
    readBytes_append (a := []) (b := [version] ++ fields.toList ++ len.toList ++ ciphertext) magic
      (by simp [hdata, serializeWith, hlenBytes]) rfl
  have hversion : readBytes data 4 1 = .ok #v[version] :=
    readBytes_append (a := magic.toList) (b := fields.toList ++ len.toList ++ ciphertext) #v[version]
      (by simp [hdata, serializeWith, hlenBytes]) (by simp)
  have hfields : readBytes data 5 n = .ok fields :=
    readBytes_append (a := magic.toList ++ [version]) (b := len.toList ++ ciphertext) fields
      (by simp [hdata, serializeWith, hlenBytes]) (by simp)
  have hctLen : readBytes data (5 + n) 8 = .ok len :=
    readBytes_append (a := magic.toList ++ [version] ++ fields.toList) (b := ciphertext) len
      (by simp [hdata, serializeWith, hlenBytes]) (by simp; omega)
  have hrest : data.drop (5 + n + 8) = ciphertext := by
    have hsplit : data = (magic.toList ++ [version] ++ fields.toList ++ len.toList) ++ ciphertext := rfl
    rw [hsplit, List.drop_left' (by simp; omega)]
  have hvalue : (ofBytesLE 64 len).toNat = ciphertext.length := by
    rw [hlenBytes, ofBytesLE_toBytesLE _ rfl, BitVec.toNat_ofNat, Nat.mod_eq_of_lt hlen]
  have hmore : data.length - (5 + n + 8) = ciphertext.length := by omega
  simp only [deserializeWith, throwIf_bind, hmagic, hversion, hfields, hctLen, ok_bind, hrest,
    hvalue, hmore]
  rw [if_neg (by omega), if_neg (not_not_intro rfl),
    if_neg (show ¬(#v[version][0] ≠ version) from not_not_intro rfl), if_neg (not_not_intro rfl)]
  rfl

/-- A container whose length fits the format's 64-bit field is read back. -/
theorem deserialize_serialize {container : Container} (hlen : container.ciphertext.length < 2 ^ 64) :
    deserialize (serialize container) = .ok container := by
  rw [deserialize, serialize, deserializeWith_serializeWith _ _ _ _ hlen]
  rfl

theorem deserializeGcm_serializeGcm {container : GcmContainer}
    (hlen : container.ciphertext.length < 2 ^ 64) :
    deserializeGcm (serializeGcm container) = .ok container := by
  rw [deserializeGcm, serializeGcm, deserializeWith_serializeWith _ _ _ _ hlen, ok_bind]
  have hnonce : (Vector.ofFn fun i : Fin 12 => (container.nonce ++ container.tag)[i.val]) =
      container.nonce :=
    Vector.ext fun i hi => by simp
  have htag : (Vector.ofFn fun i : Fin 16 => (container.nonce ++ container.tag)[12 + i.val]) =
      container.tag :=
    Vector.ext fun i hi => by simp
  exact congrArg₂ (fun nonce tag => Except.ok (GcmContainer.mk nonce tag container.ciphertext))
    hnonce htag

end Aeslib
