import Aeslib.LibBytes

/-!
Rows of objects as bytes. An object of a trivially copyable type is made up of a fixed number of
bytes; a row of objects lies in memory one behind the other. `memcpy` into a row takes a proof that
the bytes fit, so a copy past the end cannot be written down. A copy of the right length and the
view of a row as bytes are inverse to each other.
-/

/-- Any `sizeof` bytes make up an object, and it is made up of no others. -/
class TriviallyCopyable (α : Type) where
  sizeof : Nat
  sizeof_pos : 0 < sizeof
  bytes : α ≃ Vector Byte sizeof
  /-- The object before anything is copied to it. -/
  initial : α

namespace Storage

open TriviallyCopyable

variable {α : Type} [TriviallyCopyable α]

theorem div_sizeof_lt {n k : Nat} (h : k < n * sizeof α) : k / sizeof α < n := by
  rw [Nat.mul_comm] at h
  exact Nat.div_lt_of_lt_mul h

theorem mod_sizeof_lt (k : Nat) : k % sizeof α < sizeof α := Nat.mod_lt k sizeof_pos

/-- Byte `j` of object `i` stands at `i * sizeof + j`. -/
theorem index_lt {n i j : Nat} (hi : i < n) (hj : j < sizeof α) : i * sizeof α + j < n * sizeof α :=
  calc
    i * sizeof α + j < i * sizeof α + sizeof α := Nat.add_lt_add_left hj _
    _ = (i + 1) * sizeof α := (Nat.succ_mul i _).symm
    _ ≤ n * sizeof α := Nat.mul_le_mul_right _ hi

/-- The bytes of a row. -/
def storage (row : List α) : List Byte := List.ofFn fun k : Fin (row.length * sizeof α) =>
  (bytes (row.get ⟨k.val / sizeof α, div_sizeof_lt k.isLt⟩)).get ⟨k.val % sizeof α, mod_sizeof_lt k.val⟩

/-- `memcpy` to the start of a row. -/
def memcpy (row : List α) (data : List Byte) (_fits : data.length ≤ row.length * sizeof α) : List α :=
  List.ofFn fun i : Fin row.length => bytes.symm <| Vector.ofFn fun j : Fin (sizeof α) =>
    data[i.val * sizeof α + j.val]?.getD ((bytes (row.get i)).get j)

@[simp] theorem length_storage (row : List α) : (storage row).length = row.length * sizeof α :=
  List.length_ofFn

section Memcpy

variable {row : List α} {data : List Byte} (hfits : data.length ≤ row.length * sizeof α)

@[simp] theorem length_memcpy : (memcpy row data hfits).length = row.length := List.length_ofFn

/-- A row that is filled to its end holds exactly the bytes. -/
theorem storage_memcpy (hall : data.length = row.length * sizeof α) :
    storage (memcpy row data hfits) = data := by
  refine List.ext_getElem (by rw [length_storage, length_memcpy, hall]) fun k hk hk' => ?_
  have hindex : k / sizeof α * sizeof α + k % sizeof α = k := Nat.div_add_mod' k _
  simp only [storage, memcpy, List.getElem_ofFn, List.get_eq_getElem, Equiv.apply_symm_apply,
    Vector.get_eq_getElem, Vector.getElem_ofFn]
  rw [hindex, List.getElem?_eq_getElem hk', Option.getD_some]

/-- The bytes of a row, copied to one of the same length, make up the row. -/
theorem memcpy_storage {row' : List α} (hlength : row'.length = row.length)
    (hfits : (storage row').length ≤ row.length * sizeof α) :
    memcpy row (storage row') hfits = row' := by
  refine List.ext_getElem (by rw [length_memcpy, hlength]) fun i hi hi' => ?_
  simp only [memcpy, List.getElem_ofFn]
  rw [Equiv.symm_apply_eq]
  refine Vector.ext fun j hj => ?_
  have hdiv : (i * sizeof α + j) / sizeof α = i := by
    rw [Nat.mul_comm, Nat.mul_add_div sizeof_pos, Nat.div_eq_of_lt hj, Nat.add_zero]
  have hmod : (i * sizeof α + j) % sizeof α = j := by
    rw [Nat.mul_add_mod_self_right, Nat.mod_eq_of_lt hj]
  rw [Vector.getElem_ofFn, List.getElem?_eq_getElem (by rw [length_storage]; exact index_lt hi' hj),
    Option.getD_some]
  simp only [storage, List.getElem_ofFn, List.get_eq_getElem, Vector.get_eq_getElem, hdiv, hmod]

theorem storage_injective : Function.Injective (storage : List α → List Byte) := by
  intro row row' h
  have hlength := congrArg List.length h
  rw [length_storage, length_storage] at hlength
  have hrow := Nat.eq_of_mul_eq_mul_right sizeof_pos hlength
  have hfits : (storage row).length ≤ row.length * sizeof α := (length_storage row).le
  calc
    row = memcpy row (storage row) hfits := (memcpy_storage rfl hfits).symm
    _ = memcpy row (storage row') (h ▸ hfits) := by simp only [h]
    _ = row' := memcpy_storage hrow.symm _

end Memcpy

end Storage
