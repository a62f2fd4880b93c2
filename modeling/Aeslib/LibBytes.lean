import Mathlib

/-!
Bytes inside wider machine words. `byteLE x i` is byte `i` of a register in little-endian order and
`ofBytesLE`, `ofBytesBE` are the loads of a byte array in either order. Registers of whole bytes are
equal when their bytes are (`eq_of_byteLE`). `Fill` is about loops that store an array in index order.
-/

abbrev Byte := BitVec 8

namespace Bytes

/-- Byte `i` of a register, the least significant byte first. -/
def byteLE {w : Nat} (x : BitVec w) (i : Nat) : Byte := x.extractLsb' (8 * i) 8

/-- The register whose byte `i`, least significant first, is `v[i]`. -/
def ofBytesLE {n : Nat} (w : Nat) (v : Vector Byte n) : BitVec w :=
  BitVec.ofFnLE fun i => v[i.val / 8]!.getLsbD (i.val % 8)

/-- The register whose byte `i`, most significant first, is `v[i]`. -/
def ofBytesBE {n : Nat} (w : Nat) (v : Vector Byte n) : BitVec w :=
  BitVec.ofFnBE fun i => v[i.val / 8]!.getMsbD (i.val % 8)

/-- The bytes of a register, least significant first. -/
def toBytesLE {w : Nat} (n : Nat) (x : BitVec w) : Vector Byte n := Vector.ofFn fun i => byteLE x i

/-- The bytes of a register, most significant first. -/
def toBytesBE {w : Nat} (n : Nat) (x : BitVec w) : Vector Byte n :=
  Vector.ofFn fun i => byteLE x (n - 1 - i.val)

section LittleEndian

variable {w n : Nat}

theorem getLsbD_byteLE (x : BitVec w) (i k : Nat) :
    (byteLE x i).getLsbD k = (decide (k < 8) && x.getLsbD (8 * i + k)) := by
  rw [byteLE, BitVec.getLsbD_extractLsb']

@[simp] theorem getElem_toBytesLE (x : BitVec w) {i : Nat} (hi : i < n) :
    (toBytesLE n x)[i] = byteLE x i := by simp [toBytesLE]

theorem byteLE_ofBytesLE (v : Vector Byte n) (hw : 8 * n ≤ w) {i : Nat} (hi : i < n) :
    byteLE (ofBytesLE w v) i = v[i] := by
  apply BitVec.eq_of_getLsbD_eq
  intro k hk
  rw [getLsbD_byteLE, ofBytesLE, BitVec.getLsbD_ofFnLE, dif_pos (by omega : 8 * i + k < w)]
  simp only [show (8 * i + k) / 8 = i by omega, show (8 * i + k) % 8 = k by omega]
  rw [getElem!_pos v i hi, decide_eq_true hk, Bool.true_and]

theorem eq_of_byteLE {x y : BitVec w} (hw : w ≤ 8 * n) (h : ∀ i < n, byteLE x i = byteLE y i) :
    x = y := by
  apply BitVec.eq_of_getLsbD_eq
  intro k hk
  have hbit := congrArg (fun b : Byte => b.getLsbD (k % 8)) (h (k / 8) (by omega))
  simpa only [getLsbD_byteLE, Nat.mod_lt k (by decide : 8 > 0), decide_true, Bool.true_and,
    Nat.div_add_mod] using hbit

theorem toBytesLE_ofBytesLE (v : Vector Byte n) (hw : 8 * n ≤ w) :
    toBytesLE n (ofBytesLE w v) = v := by
  ext i hi : 1
  rw [getElem_toBytesLE, byteLE_ofBytesLE v hw hi]

theorem ofBytesLE_toBytesLE (x : BitVec w) (hw : w = 8 * n) : ofBytesLE w (toBytesLE n x) = x := by
  refine eq_of_byteLE (n := n) (by omega) fun i hi => ?_
  rw [byteLE_ofBytesLE _ (by omega) hi, getElem_toBytesLE]

@[simp] theorem byteLE_xor (x y : BitVec w) (i : Nat) :
    byteLE (x ^^^ y) i = byteLE x i ^^^ byteLE y i := BitVec.extractLsb'_xor

/-- A left shift by whole bytes moves the bytes up and clears the ones it leaves. -/
theorem byteLE_shiftLeft (x : BitVec w) {m i : Nat} (hi : 8 * i + 8 ≤ w) :
    byteLE (x <<< (8 * m)) i = if i < m then 0 else byteLE x (i - m) := by
  apply BitVec.eq_of_getLsbD_eq
  intro k hk
  rw [getLsbD_byteLE, BitVec.getLsbD_shiftLeft, decide_eq_true hk,
    decide_eq_true (by omega : 8 * i + k < w)]
  split_ifs with h
  · simp [show 8 * i + k < 8 * m by omega]
  · rw [getLsbD_byteLE, decide_eq_true hk, show 8 * (i - m) + k = 8 * i + k - 8 * m by omega]
    simp [show ¬8 * i + k < 8 * m by omega]

theorem byteLE_append_low {a b : Nat} (x : BitVec a) (y : BitVec b) {i : Nat} (hi : 8 * i + 8 ≤ b) :
    byteLE (x ++ y) i = byteLE y i := by
  apply BitVec.eq_of_getLsbD_eq
  intro k hk
  rw [getLsbD_byteLE, getLsbD_byteLE, BitVec.getLsbD_append, if_pos (by omega)]

theorem byteLE_append_high {a b m : Nat} (x : BitVec a) (y : BitVec b) (hb : b = 8 * m) {i : Nat}
    (hi : m ≤ i) : byteLE (x ++ y) i = byteLE x (i - m) := by
  apply BitVec.eq_of_getLsbD_eq
  intro k hk
  rw [getLsbD_byteLE, getLsbD_byteLE, BitVec.getLsbD_append, if_neg (by omega),
    show 8 * i + k - b = 8 * (i - m) + k by omega]

/-- Bytes of a sub-register that starts at byte `m`. -/
theorem byteLE_extractLsb' (x : BitVec w) {m len i : Nat} (hi : 8 * i + 8 ≤ len) :
    byteLE (x.extractLsb' (8 * m) len) i = byteLE x (m + i) := by
  apply BitVec.eq_of_getLsbD_eq
  intro k hk
  rw [getLsbD_byteLE, getLsbD_byteLE, BitVec.getLsbD_extractLsb',
    decide_eq_true (by omega : 8 * i + k < len), Bool.true_and,
    show 8 * m + (8 * i + k) = 8 * (m + i) + k by omega]

theorem setWidth_ushiftRight (x : BitVec w) (i : Nat) : (x >>> (8 * i)).setWidth 8 = byteLE x i := by
  apply BitVec.eq_of_getLsbD_eq
  intro k hk
  rw [BitVec.getLsbD_setWidth, BitVec.getLsbD_ushiftRight, getLsbD_byteLE]

theorem byteLE_ushiftRight (x : BitVec w) (i : Nat) : byteLE (x >>> 8) i = byteLE x (i + 1) := by
  rw [← setWidth_ushiftRight, ← setWidth_ushiftRight, ← BitVec.shiftRight_add, Nat.mul_succ,
    Nat.add_comm]

theorem setWidth_and_ff (x : BitVec w) (hw : 8 ≤ w) (i : Nat) :
    (x >>> (8 * i) &&& 0xff).setWidth 8 = byteLE x i := by
  have hmask : (0xff : BitVec w).setWidth 8 = BitVec.allOnes 8 := by
    have hlt : 255 < 2 ^ w := lt_of_lt_of_le (by decide) (Nat.pow_le_pow_right (by decide) hw)
    apply BitVec.eq_of_toNat_eq
    have hmod : (0xff : BitVec w).toNat = 255 := (BitVec.toNat_ofNat 255 w).trans (Nat.mod_eq_of_lt hlt)
    rw [BitVec.toNat_setWidth, hmod]
    rfl
  rw [BitVec.setWidth_and, hmask, BitVec.and_allOnes, setWidth_ushiftRight]

end LittleEndian

section BigEndian

variable {w n : Nat}

theorem getMsbD_ofBytesBE (v : Vector Byte n) {i : Nat} (hi : i < w) :
    (ofBytesBE w v).getMsbD i = v[i / 8]!.getMsbD (i % 8) := by
  rw [ofBytesBE, BitVec.getMsbD_ofFnBE, dif_pos hi]

theorem ofBytesBE_injective (hw : 8 * n ≤ w) {u v : Vector Byte n}
    (h : ofBytesBE w u = ofBytesBE w v) : u = v := by
  ext i hi : 1
  apply BitVec.eq_of_getMsbD_eq
  intro k hk
  have hbit := congrArg (fun x : BitVec w => x.getMsbD (8 * i + k)) h
  simp only [getMsbD_ofBytesBE _ (by omega : 8 * i + k < w), show (8 * i + k) / 8 = i by omega,
    show (8 * i + k) % 8 = k by omega] at hbit
  rwa [getElem!_pos u i hi, getElem!_pos v i hi] at hbit

theorem ofBytesBE_toBytesBE (x : BitVec w) (hw : w = 8 * n) : ofBytesBE w (toBytesBE n x) = x := by
  apply BitVec.eq_of_getMsbD_eq
  intro i hi
  have hd : i / 8 < n := by omega
  rw [getMsbD_ofBytesBE _ hi, getElem!_pos (toBytesBE n x) _ hd, toBytesBE, Vector.getElem_ofFn,
    BitVec.getMsbD_eq_getLsbD, BitVec.getMsbD_eq_getLsbD, getLsbD_byteLE, decide_eq_true hi,
    decide_eq_true (by omega : i % 8 < 8), decide_eq_true (by omega : 8 - 1 - i % 8 < 8),
    Bool.true_and, Bool.true_and, Bool.true_and]
  exact congrArg x.getLsbD (by simp only; omega)

theorem toBytesBE_ofBytesBE (v : Vector Byte n) (hw : w = 8 * n) : toBytesBE n (ofBytesBE w v) = v :=
  ofBytesBE_injective hw.ge (ofBytesBE_toBytesBE _ hw)

theorem ofBytesBE_xor (u v : Vector Byte n) (hw : w ≤ 8 * n) :
    ofBytesBE w (Vector.zipWith (· ^^^ ·) u v) = ofBytesBE w u ^^^ ofBytesBE w v := by
  apply BitVec.eq_of_getMsbD_eq
  intro i hi
  have hd : i / 8 < n := by omega
  rw [BitVec.getMsbD_xor, getMsbD_ofBytesBE _ hi, getMsbD_ofBytesBE _ hi, getMsbD_ofBytesBE _ hi,
    getElem!_pos (Vector.zipWith _ u v) _ hd, getElem!_pos u _ hd, getElem!_pos v _ hd,
    Vector.getElem_zipWith, BitVec.getMsbD_xor]

/-- The load of two halves. -/
theorem ofBytesBE_append {m : Nat} (u : Vector Byte m) (v : Vector Byte n) :
    ofBytesBE (8 * m + 8 * n) (u ++ v) = ofBytesBE (8 * m) u ++ ofBytesBE (8 * n) v := by
  apply BitVec.eq_of_getMsbD_eq
  intro i hi
  rw [getMsbD_ofBytesBE _ hi, BitVec.getMsbD_append, getElem!_pos (u ++ v) _ (by omega),
    Vector.getElem_append]
  split_ifs with h1 h2 h2
  · omega
  · rw [getMsbD_ofBytesBE _ (by omega), getElem!_pos u _ h1]
  · rw [getMsbD_ofBytesBE _ (by omega), getElem!_pos v _ (by omega)]
    simp only [show (i - 8 * m) / 8 = i / 8 - m by omega, show (i - 8 * m) % 8 = i % 8 by omega]
  · omega

/-- The load that shifts the bytes in, the most significant one first. -/
theorem foldl_shiftIn {n : Nat} (f : Nat → Byte) (hw : w = 8 * n) :
    (List.range n).foldl (fun (v : BitVec w) i => v <<< 8 ||| (f i).setWidth w) 0#w =
      ofBytesBE w (Vector.ofFn fun i : Fin n => f i) := by
  have hbits (m k : Nat) (hk : k < 8 * m) (hm : m ≤ n) :
      ((List.range m).foldl (fun (v : BitVec w) i => v <<< 8 ||| (f i).setWidth w) 0#w).getLsbD k =
        (f (m - 1 - k / 8)).getLsbD (k % 8) := by
    induction m generalizing k with
    | zero => omega
    | succ m ih =>
        rw [List.range_succ, List.foldl_append, List.foldl_cons, List.foldl_nil, BitVec.getLsbD_or,
          BitVec.getLsbD_shiftLeft, BitVec.getLsbD_setWidth, decide_eq_true (by omega : k < w),
          Bool.true_and, Bool.true_and]
        by_cases h8 : k < 8
        · simp [h8, Nat.div_eq_of_lt h8, Nat.mod_eq_of_lt h8]
        · have hdiv : m - 1 - (k - 8) / 8 = m + 1 - 1 - k / 8 := by omega
          have hmod : (k - 8) % 8 = k % 8 := by omega
          rw [decide_eq_false h8, ih (k - 8) (by omega) (by omega), hdiv, hmod,
            BitVec.getLsbD_of_ge (f m) k (by omega)]
          simp
  subst hw
  apply BitVec.eq_of_getMsbD_eq
  intro i hi
  have hd : i / 8 < n := by omega
  have hindex : n - 1 - (8 * n - 1 - i) / 8 = i / 8 := by omega
  have hbit : (8 * n - 1 - i) % 8 = 8 - 1 - i % 8 := by omega
  rw [getMsbD_ofBytesBE _ hi, getElem!_pos (Vector.ofFn _) _ hd, Vector.getElem_ofFn,
    BitVec.getMsbD_eq_getLsbD, BitVec.getMsbD_eq_getLsbD, decide_eq_true hi,
    decide_eq_true (by omega : i % 8 < 8), Bool.true_and, Bool.true_and,
    hbits n _ (by omega) le_rfl, hindex, hbit]

end BigEndian

/-- `0 - bit` is the mask that keeps or clears a whole register. -/
theorem mask_and {w : Nat} (x v : BitVec w) :
    (0#w - (x &&& 1#w)) &&& v = if x.getLsbD 0 then v else 0#w := by
  have hbit : x &&& 1#w = if x.getLsbD 0 then 1#w else 0#w := by
    apply BitVec.eq_of_getLsbD_eq
    intro i hi
    rw [BitVec.getLsbD_and, BitVec.getLsbD_one, apply_ite (fun b : BitVec w => b.getLsbD i),
      BitVec.getLsbD_one, BitVec.getLsbD_zero]
    by_cases h : i = 0
    · subst h
      cases x.getLsbD 0 <;> simp
    · simp [h]
  rw [hbit]
  split_ifs
  · rw [BitVec.zero_sub, BitVec.neg_one_eq_allOnes, BitVec.allOnes_and]
  · rw [BitVec.sub_zero, BitVec.zero_and]

end Bytes

namespace Fill

variable {α : Type} {size : Nat}

/-- `for (i = a; i < a + n; ++i) s[i] = f(s, i)`: entry `i` is written once, from the entries before
it. -/
def fill (f : Vector α size → Nat → α) (a n : Nat) (s : Vector α size) : Vector α size :=
  (List.range' a n).foldl (fun s i => s.setIfInBounds i (f s i)) s

theorem fill_succ (f : Vector α size → Nat → α) (a n : Nat) (s : Vector α size) :
    fill f a (n + 1) s = (fill f a n s).setIfInBounds (a + n) (f (fill f a n s) (a + n)) := by
  rw [fill, List.range'_1_concat, List.foldl_append, List.foldl_cons, List.foldl_nil]
  rfl

variable [Inhabited α]

/-- Later writes leave the entries before them alone. -/
theorem fill_of_lt (f : Vector α size → Nat → α) (a : Nat) {j m n : Nat} (s : Vector α size)
    (hj : j < a + m) (hmn : m ≤ n) : (fill f a n s)[j]! = (fill f a m s)[j]! := by
  induction n with
  | zero => rw [Nat.le_zero.mp hmn]
  | succ n ih =>
      rcases Nat.lt_or_ge n m with h | h
      · rw [show m = n + 1 by omega]
      · rw [fill_succ, getElem!_def, Vector.getElem?_setIfInBounds_ne (by omega), ← getElem!_def, ih h]

/-- Every entry of the range holds what the body computed from the entries before it. -/
theorem fill_entry (f : Vector α size → Nat → α) (a : Nat) {m n : Nat} (s : Vector α size) (hm : m < n)
    (hsize : a + m < size) : (fill f a n s)[a + m]! = f (fill f a m s) (a + m) := by
  rw [fill_of_lt f a s (show a + m < a + (m + 1) by omega) hm, fill_succ,
    getElem!_pos (Vector.setIfInBounds _ _ _) _ hsize, Vector.getElem_setIfInBounds_self]

end Fill
