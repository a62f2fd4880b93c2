import Aeslib.LibBytes

/-!
PBKDF2 of RFC 8018, section 5.2, over any pseudorandom function.
-/

namespace Rfc8018

open Bytes

variable {hLen : Nat} (prf : List Byte → List Byte → Vector Byte hLen) (p s : List Byte)

/-- `U_{j+1}` of the block with index `i`. -/
def u (i : Nat) : Nat → Vector Byte hLen
  | 0 => prf p (s ++ (toBytesBE 4 (BitVec.ofNat 32 i)).toList)
  | j + 1 => prf p (u i j).toList

/-- `F(P, S, c, i)`: `U_1 ⊕ … ⊕ U_c`. -/
def f (i : Nat) : Nat → Vector Byte hLen
  | 0 => Vector.replicate hLen 0
  | c + 1 => Vector.zipWith (· ^^^ ·) (f i c) (u prf p s i c)

/-- `T_1 ‖ … ‖ T_l`, cut to `dkLen` bytes. -/
def pbkdf2 (c dkLen : Nat) : List Byte :=
  ((List.range ((dkLen + hLen - 1) / hLen)).flatMap fun k => (f prf p s (k + 1) c).toList).take dkLen

theorem f_one (i : Nat) : f prf p s i 1 = u prf p s i 0 := by
  refine Vector.ext fun k hk => ?_
  simp [f]

variable {prf} {prf' : List Byte → List Byte → Vector Byte hLen} {p s}

theorem u_congr (h : ∀ text, text.length ≤ s.length + 4 + hLen → prf p text = prf' p text) (i j : Nat) :
    u prf p s i j = u prf' p s i j := by
  induction j with
  | zero => exact h _ (by rw [List.length_append, Vector.length_toList]; omega)
  | succ j ih =>
      rw [u, u, ih]
      exact h _ (by rw [Vector.length_toList]; omega)

theorem f_congr (h : ∀ text, text.length ≤ s.length + 4 + hLen → prf p text = prf' p text) (i c : Nat) :
    f prf p s i c = f prf' p s i c := by
  induction c with
  | zero => rfl
  | succ c ih => rw [f, f, ih, u_congr h]

/-- A derivation sees its pseudorandom function on the salt with a block index, and on results. -/
theorem pbkdf2_congr (h : ∀ text, text.length ≤ s.length + 4 + hLen → prf p text = prf' p text)
    (c dkLen : Nat) : pbkdf2 prf p s c dkLen = pbkdf2 prf' p s c dkLen := by
  simp only [pbkdf2, f_congr h]

end Rfc8018
