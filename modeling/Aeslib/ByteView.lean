import Aeslib.Gcm
import Aeslib.LibStorage

/-!
`src/include/aeslib/byte_view.hpp` and the template overloads of the two modes. The traits select
one of three conversions for a type: a resizable container and a fixed-size one are viewed as the
row of their elements, anything else as a single object. A value is the objects that it consists of,
and these are what their bytes say.
-/

namespace Aeslib

open Prog Storage TriviallyCopyable

/-- What the traits look at. -/
structure Traits where
  hasContiguousStorage : Bool
  isResizable : Bool
  elementIsTriviallyCopyable : Bool
  isTriviallyCopyable : Bool

def isByteContainer (t : Traits) : Bool := t.hasContiguousStorage && t.elementIsTriviallyCopyable

def isByteObject (t : Traits) : Bool := t.isTriviallyCopyable && !isByteContainer t

def isByteViewable (t : Traits) : Bool := isByteContainer t || isByteObject t

/-- How the values of `T` consist of objects; the field is the condition of the overload of
`from_byte_vector`. -/
inductive ByteViewable (T : Type) (t : Traits) : Type 1 where
  | resizable {α : Type} [TriviallyCopyable α] (elements : T ≃ List α)
      (enabled : isByteContainer t = true ∧ t.isResizable = true)
  | fixed {α : Type} [TriviallyCopyable α] {n : Nat} (elements : T ≃ Vector α n)
      (enabled : isByteContainer t = true ∧ t.isResizable = false)
  | object [TriviallyCopyable T] (enabled : isByteObject t = true)

/-- `to_byte_vector` of a container whose elements are `row`. -/
def toByteVectorContainer {α : Type} [TriviallyCopyable α] (row : List α) : List Byte := storage row

def toByteVectorObject {T : Type} [TriviallyCopyable T] (value : T) : List Byte := (bytes value).toList

def fromByteVectorResizable {T α : Type} [TriviallyCopyable α] (elements : T ≃ List α)
    (data : List Byte) : Except Error T :=
  if h : data.length % sizeof α ≠ 0 then
    .error (.formatError "decrypted byte length is not a whole multiple of the target element size")
  else
    let out := List.replicate (data.length / sizeof α) (initial : α)
    have hfits : data.length ≤ out.length * sizeof α := by
      rw [List.length_replicate, Nat.div_mul_cancel (Nat.dvd_of_mod_eq_zero (not_not.mp h))]
    .ok (elements.symm (memcpy out data hfits))

def fromByteVectorFixed {T α : Type} [TriviallyCopyable α] {n : Nat} (elements : T ≃ Vector α n)
    (data : List Byte) : Except Error T :=
  let out := List.replicate n (initial : α)
  if h : data.length ≠ out.length * sizeof α then
    .error (.formatError "decrypted byte length does not match the fixed-size container's capacity")
  else
    have hfits : data.length ≤ out.length * sizeof α := (not_not.mp h).le
    .ok (elements.symm ⟨(memcpy out data hfits).toArray, by simp [out]⟩)

def fromByteVectorObject {T : Type} [TriviallyCopyable T] (data : List Byte) : Except Error T :=
  if h : data.length ≠ sizeof T then
    .error (.formatError "decrypted byte length does not match sizeof(T)")
  else .ok (bytes.symm ⟨data.toArray, not_not.mp h⟩)

section View

variable {T : Type} {t : Traits}

def toByteVector : ByteViewable T t → T → List Byte
  | @ByteViewable.resizable _ _ _ _ elements _, value => toByteVectorContainer (elements value)
  | @ByteViewable.fixed _ _ _ _ _ elements _, value => toByteVectorContainer (elements value).toList
  | @ByteViewable.object _ _ _ _, value => toByteVectorObject value

def fromByteVector : ByteViewable T t → List Byte → Except Error T
  | @ByteViewable.resizable _ _ _ _ elements _, data => fromByteVectorResizable elements data
  | @ByteViewable.fixed _ _ _ _ _ elements _, data => fromByteVectorFixed elements data
  | @ByteViewable.object _ _ _ _, data => fromByteVectorObject data

/-- The lengths that a type has room for. -/
def Fits : ByteViewable T t → Nat → Prop
  | @ByteViewable.resizable _ _ α _ _ _, length => sizeof α ∣ length
  | @ByteViewable.fixed _ _ α _ n _ _, length => length = n * sizeof α
  | @ByteViewable.object _ _ _ _, length => length = sizeof T

/-- Only a byte-viewable type is converted. -/
theorem ByteViewable.isByteViewable (view : ByteViewable T t) : isByteViewable t = true := by
  unfold Aeslib.isByteViewable
  cases view with
  | resizable _ enabled => rw [enabled.1, Bool.true_or]
  | fixed _ enabled => rw [enabled.1, Bool.true_or]
  | object enabled => rw [enabled, Bool.or_true]

theorem fits_toByteVector (view : ByteViewable T t) (value : T) :
    Fits view (toByteVector view value).length := by
  cases view with
  | resizable elements _ => exact Dvd.intro_left _ (length_storage (elements value)).symm
  | fixed elements _ => exact (length_storage _).trans (by rw [Vector.length_toList])
  | object _ => exact Vector.length_toList

theorem toByteVector_injective (view : ByteViewable T t) : Function.Injective (toByteVector view) := by
  intro a b h
  cases view with
  | resizable elements _ => exact elements.injective (storage_injective h)
  | fixed elements _ => exact elements.injective (Vector.toList_inj.mp (storage_injective h))
  | object _ => exact bytes.injective (Vector.toList_inj.mp h)

/-- Bytes of a length with room are taken over. -/
theorem fromByteVector_fits (view : ByteViewable T t) {data : List Byte} (h : Fits view data.length) :
    ∃ value, fromByteVector view data = .ok value ∧ toByteVector view value = data := by
  cases view with
  | @resizable α _ elements _ =>
      have hmod : ¬data.length % sizeof α ≠ 0 := not_not_intro (Nat.mod_eq_zero_of_dvd h)
      refine ⟨_, dif_neg hmod, ?_⟩
      rw [toByteVector, toByteVectorContainer, Equiv.apply_symm_apply]
      exact storage_memcpy _ (by rw [List.length_replicate, Nat.div_mul_cancel h])
  | @fixed α _ n elements _ =>
      have hlength : data.length = (List.replicate n (initial : α)).length * sizeof α := by
        rw [List.length_replicate]
        exact h
      refine ⟨_, dif_neg (not_not_intro hlength), ?_⟩
      rw [toByteVector, toByteVectorContainer, Equiv.apply_symm_apply]
      exact storage_memcpy hlength.le hlength
  | object _ =>
      refine ⟨_, dif_neg (not_not_intro h), ?_⟩
      rw [toByteVector, toByteVectorObject, Equiv.apply_symm_apply]
      rfl

theorem fromByteVector_refuses (view : ByteViewable T t) {data : List Byte}
    (h : ¬Fits view data.length) :
    ∃ what, fromByteVector view data = .error (.formatError what) := by
  cases view with
  | resizable elements _ => exact ⟨_, dif_pos fun hmod => h (Nat.dvd_of_mod_eq_zero hmod)⟩
  | @fixed α _ n elements _ =>
      refine ⟨_, dif_pos fun hlength => h ?_⟩
      rwa [List.length_replicate] at hlength
  | object _ => exact ⟨_, dif_pos h⟩

theorem fromByteVector_toByteVector (view : ByteViewable T t) (value : T) :
    fromByteVector view (toByteVector view value) = .ok value := by
  obtain ⟨value', hvalue, hbytes⟩ := fromByteVector_fits view (fits_toByteVector view value)
  rw [hvalue, toByteVector_injective view hbytes]

theorem fromByteVector_ok_iff (view : ByteViewable T t) (data : List Byte) :
    (∃ value, fromByteVector view data = .ok value) ↔ Fits view data.length := by
  constructor
  · rintro ⟨value, hvalue⟩
    by_contra h
    obtain ⟨what, hrefused⟩ := fromByteVector_refuses view h
    simp [hvalue] at hrefused
  · intro h
    obtain ⟨value, hvalue, -⟩ := fromByteVector_fits view h
    exact ⟨value, hvalue⟩

theorem fromByteVector_error_iff (view : ByteViewable T t) (data : List Byte) :
    (∃ what, fromByteVector view data = .error (.formatError what)) ↔ ¬Fits view data.length := by
  constructor
  · rintro ⟨what, hrefused⟩ h
    obtain ⟨value, hvalue, -⟩ := fromByteVector_fits view h
    simp [hvalue] at hrefused
  · exact fromByteVector_refuses view

theorem toByteVector_fromByteVector (view : ByteViewable T t) {data : List Byte} {value : T}
    (h : fromByteVector view data = .ok value) : toByteVector view value = data := by
  obtain ⟨value', hvalue, hbytes⟩ :=
    fromByteVector_fits view ((fromByteVector_ok_iff view data).mp ⟨value, h⟩)
  obtain rfl : value = value' := Except.ok.inj (h.symm.trans hvalue)
  exact hbytes

/-- `std::int32_t` on a little-endian machine. -/
instance : TriviallyCopyable (BitVec 32) where
  sizeof := 4
  sizeof_pos := Nat.zero_lt_succ 3
  bytes := {
    toFun := Bytes.toBytesLE 4
    invFun := Bytes.ofBytesLE 32
    left_inv := fun x => Bytes.ofBytesLE_toBytesLE x rfl
    right_inv := fun v => Bytes.toBytesLE_ofBytesLE v le_rfl }
  initial := 0

example : toByteVectorContainer [1#32, 0x0102#32] = [1, 0, 0, 0, 2, 1, 0, 0] := by decide

variable (view : ByteViewable T t)

/-- The template `encrypt`; `T` is not `std::vector<std::byte>` there, which is the overload on bytes. -/
def Aes256Ctr.encryptView (os : Os) (key : SecretKey) (plaintext : T) : Prog World Error Container :=
  Aes256Ctr.encrypt os key (toByteVector view plaintext)

def Aes256Ctr.decryptAs (os : Os) (key : SecretKey) (container : Container) : Prog World Error T := do
  let data ← Aes256Ctr.decrypt os key container
  ofExcept (fromByteVector view data)

def AesGcm.encryptView (os : Os) (plaintext : T) (aad : List Byte) :
    Prog (World × SecretKey) Error GcmContainer :=
  AesGcm.encrypt os (toByteVector view plaintext) aad

def AesGcm.decryptAs (os : Os) (key : SecretKey) (container : GcmContainer) (aad : List Byte) :
    Prog World Error T := do
  let data ← AesGcm.decrypt os key container aad
  ofExcept (fromByteVector view data)

theorem Aes256Ctr.decryptAs_encryptView {os : Os} {key : SecretKey} {value : T} {w w' : World}
    {container : Container}
    (h : Ends (Aes256Ctr.encryptView view os key value) w (.ok container) w') (os' : Os) (v : World) :
    ∃ v', Ends (Aes256Ctr.decryptAs view os' key container) v (.ok value) v' := by
  obtain ⟨hlength, nonce, -, rfl⟩ := Aes256Ctr.encrypt_triple os key (toByteVector view value) trivial h
  have hdecrypt :=
    Aes256Ctr.decrypt_ends { nonce, ciphertext := keystreamXor key 0 nonce (toByteVector view value) }
    (by rwa [length_keystreamXor]) os' v key
  rw [keystreamXor_keystreamXor] at hdecrypt
  exact ⟨_, hdecrypt.bind
    ((ends_ofExcept _ _ _ _).mpr ⟨(fromByteVector_toByteVector view value).symm, rfl⟩)⟩

/-- The key object has counted the encryption when it decrypts. -/
theorem AesGcm.decryptAs_encryptView {os : Os} {key key' : SecretKey} {value : T} {aad : List Byte}
    {w w' : World} {container : GcmContainer}
    (h : Ends (AesGcm.encryptView view os value aad) (w, key) (.ok container) (w', key')) (os' : Os)
    (v : World) : ∃ v', Ends (AesGcm.decryptAs view os' key' container aad) v (.ok value) v' := by
  obtain ⟨hkey, hlength, nonce, -, rfl⟩ :=
    AesGcm.encrypt_triple os key (toByteVector view value) aad rfl h
  obtain rfl : key' = (consumeGcmInvocation key).2 := hkey
  have hdecrypt := AesGcm.decrypt_accepts os' v (consumeGcmInvocation key).2
    (AesGcm.gcmContainer key nonce (toByteVector view value) aad)
    (by rwa [AesGcm.gcmContainer, length_keystreamXor]) rfl
  have hplaintext :
      keystreamXor (consumeGcmInvocation key).2 2 nonce
        (keystreamXor key 2 nonce (toByteVector view value)) =
      toByteVector view value := keystreamXor_keystreamXor key 2 nonce (toByteVector view value)
  rw [AesGcm.gcmContainer, hplaintext] at hdecrypt
  exact ⟨_, hdecrypt.bind
    ((ends_ofExcept _ _ _ _).mpr ⟨(fromByteVector_toByteVector view value).symm, rfl⟩)⟩

end View

/-- `std::vector<std::int32_t>`. -/
def int32Vector : ByteViewable (List (BitVec 32))
    { hasContiguousStorage := true, isResizable := true
      elementIsTriviallyCopyable := true, isTriviallyCopyable := false } :=
  .resizable (.refl _) ⟨rfl, rfl⟩

/-- `std::array<std::int32_t, 2>`. -/
def int32Array : ByteViewable (Vector (BitVec 32) 2)
    { hasContiguousStorage := true, isResizable := false
      elementIsTriviallyCopyable := true, isTriviallyCopyable := true } :=
  .fixed (.refl _) ⟨rfl, rfl⟩

/-- `std::int32_t`. -/
def int32Object : ByteViewable (BitVec 32)
    { hasContiguousStorage := false, isResizable := false
      elementIsTriviallyCopyable := false, isTriviallyCopyable := true } :=
  .object rfl

end Aeslib
