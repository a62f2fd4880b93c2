import Aeslib.LibBytes

/-!
SHA-256 of FIPS 180-4, on strings of whole bytes. The message is padded as a bit string and cut into
blocks of 512 bits; the constants are given by the primes they come from.
-/

namespace Fips180

open Bytes

abbrev Word := BitVec 32

def Ch (x y z : Word) : Word := (x &&& y) ^^^ (~~~x &&& z)

def Maj (x y z : Word) : Word := (x &&& y) ^^^ (x &&& z) ^^^ (y &&& z)

/-- `Σ_0`. -/
def bigSigma0 (x : Word) : Word := x.rotateRight 2 ^^^ x.rotateRight 13 ^^^ x.rotateRight 22

/-- `Σ_1`. -/
def bigSigma1 (x : Word) : Word := x.rotateRight 6 ^^^ x.rotateRight 11 ^^^ x.rotateRight 25

/-- `σ_0`. -/
def smallSigma0 (x : Word) : Word := x.rotateRight 7 ^^^ x.rotateRight 18 ^^^ x >>> 3

/-- `σ_1`. -/
def smallSigma1 (x : Word) : Word := x.rotateRight 17 ^^^ x.rotateRight 19 ^^^ x >>> 10

/-- The first 32 bits of the fractional part of the cube root of the prime number with index `t`. -/
noncomputable def K (t : Nat) : Word := BitVec.ofNat 32 (Nat.nthRoot 3 (Nat.nth Nat.Prime t * 2 ^ 96))

/-- `H^(0)`: the first 32 bits of the fractional parts of the square roots of the first eight prime
numbers. -/
noncomputable def initialHash : Vector Word 8 :=
  Vector.ofFn fun i => BitVec.ofNat 32 (Nat.sqrt (Nat.nth Nat.Prime i * 2 ^ 64))

/-- The bits of a byte string, the most significant bit of each byte first. -/
def bits (s : List Byte) : List Bool := s.flatMap fun b => List.ofFn fun i : Fin 8 => b.getMsbD i

/-- The message, the bit `1`, the fewest zeros that leave 64 bits to a whole block, and the length
in 64 bits. -/
def pad (m : List Bool) : List Bool :=
  m ++ true :: List.replicate ((447 + 512 - m.length % 512) % 512) false ++
    List.ofFn fun i : Fin 64 => (BitVec.ofNat 64 m.length).getMsbD i

/-- `M^(1), …, M^(N)`, for a string of whole blocks. -/
def blocks (m : List Bool) : List (BitVec 512) :=
  (List.range (m.length / 512)).map fun k => BitVec.ofFnBE fun i : Fin 512 => m[512 * k + i.val]!

/-- `W_t` for the block `M`. -/
def W (M : BitVec 512) (t : Nat) : Word :=
  if t < 16 then M.extractLsb' (32 * (15 - t)) 32
  else smallSigma1 (W M (t - 2)) + W M (t - 7) + smallSigma0 (W M (t - 15)) + W M (t - 16)
termination_by t

/-- Step 3 for one `t`; the working variables are `a` to `h`. -/
noncomputable def step (M : BitVec 512) (v : Vector Word 8) (t : Nat) : Vector Word 8 :=
  let T1 := v.get 7 + bigSigma1 (v.get 4) + Ch (v.get 4) (v.get 5) (v.get 6) + K t + W M t
  let T2 := bigSigma0 (v.get 0) + Maj (v.get 0) (v.get 1) (v.get 2)
  #v[T1 + T2, v.get 0, v.get 1, v.get 2, v.get 3 + T1, v.get 4, v.get 5, v.get 6]

/-- `H^(i)` from `H^(i-1)` and `M^(i)`. -/
noncomputable def compress (H : Vector Word 8) (M : BitVec 512) : Vector Word 8 :=
  Vector.zipWith (· + ·) H ((List.range 64).foldl (step M) H)

/-- The message digest of a message shorter than `2^64` bits. -/
noncomputable def sha256 (s : List Byte) : Option (List Byte) :=
  let m := bits s
  if m.length < 2 ^ 64 then
    let H := (blocks (pad m)).foldl compress initialHash
    some (H.toList.flatMap fun x => (toBytesBE 4 x).toList)
  else none

theorem length_bits (s : List Byte) : (bits s).length = 8 * s.length := by
  rw [bits, List.length_flatMap]
  simp only [List.length_ofFn, List.map_const', List.sum_replicate, smul_eq_mul, mul_comm]

theorem bits_append (s t : List Byte) : bits (s ++ t) = bits s ++ bits t := List.flatMap_append

theorem getElem_bits (s : List Byte) {i : Nat} (hi : i < (bits s).length) (hbyte : i / 8 < s.length) :
    (bits s)[i] = s[i / 8].getMsbD (i % 8) := by
  induction s generalizing i with
  | nil => simp [bits] at hi
  | cons b s ih =>
      have hcons : bits (b :: s) = (List.ofFn fun j : Fin 8 => b.getMsbD j) ++ bits s := rfl
      simp only [hcons]
      by_cases h : i < 8
      · rw [List.getElem_append_left (by simpa using h), List.getElem_ofFn]
        simp [Nat.div_eq_of_lt h, Nat.mod_eq_of_lt h]
      · rw [length_bits, List.length_cons] at hi
        rw [List.getElem_append_right (by simpa using h)]
        simp only [List.length_ofFn]
        rw [ih (by rw [length_bits]; omega) (by omega)]
        have hdiv : i / 8 = (i - 8) / 8 + 1 := by omega
        have hmod : i % 8 = (i - 8) % 8 := by omega
        simp only [hdiv, hmod, List.getElem_cons_succ]

theorem bits_zeros (n : Nat) : bits (List.replicate n 0) = List.replicate (8 * n) false := by
  induction n with
  | zero => rfl
  | succ n ih =>
      rw [List.replicate_succ, Nat.mul_succ, Nat.add_comm, List.replicate_add, ← ih]
      rfl

theorem bits_toBytesBE (x : BitVec 64) :
    bits (toBytesBE 8 x).toList = List.ofFn fun i : Fin 64 => x.getMsbD i := by
  refine List.ext_getElem (by rw [length_bits, Vector.length_toList, List.length_ofFn]) fun i h1 h2 => ?_
  have hi : i < 64 := by rwa [List.length_ofFn] at h2
  have hd : i / 8 < 8 := by omega
  have hbyte : (toBytesBE 8 x)[i / 8] = byteLE x (8 - 1 - i / 8) := by
    rw [toBytesBE, Vector.getElem_ofFn]
  rw [getElem_bits _ _ (by rwa [Vector.length_toList]), List.getElem_ofFn, Vector.getElem_toList, hbyte,
    BitVec.getMsbD_eq_getLsbD, BitVec.getMsbD_eq_getLsbD, getLsbD_byteLE,
    decide_eq_true (by omega : i % 8 < 8), decide_eq_true hi,
    decide_eq_true (by omega : 8 - 1 - i % 8 < 8), Bool.true_and, Bool.true_and, Bool.true_and]
  exact congrArg x.getLsbD (by simp only; omega)

/-- The bytes that pad a message of `len` bytes. -/
def padding (len : Nat) : List Byte :=
  0x80 :: List.replicate ((55 + 64 - len % 64) % 64) 0 ++
    (toBytesBE 8 (BitVec.ofNat 64 (8 * len))).toList

theorem pad_bits (s : List Byte) : pad (bits s) = bits (s ++ padding s.length) := by
  have hfirst : bits [0x80] = true :: List.replicate 7 false := by decide
  have hzeros : (447 + 512 - 8 * s.length % 512) % 512 =
      7 + 8 * ((55 + 64 - s.length % 64) % 64) := by omega
  have hpadding : padding s.length =
      [0x80] ++ List.replicate ((55 + 64 - s.length % 64) % 64) 0 ++
        (toBytesBE 8 (BitVec.ofNat 64 (8 * s.length))).toList := rfl
  rw [hpadding, bits_append, bits_append, bits_append, hfirst, bits_zeros, bits_toBytesBE, pad,
    length_bits, hzeros, List.replicate_add, List.cons_append, ← List.append_assoc]

/-- Block `k` of a byte string. -/
def byteBlock (s : List Byte) (k : Nat) : Vector Byte 64 := Vector.ofFn fun i => s[64 * k + i.val]!

theorem blocks_bits (s : List Byte) :
    blocks (bits s) = (List.range (s.length / 64)).map fun k => ofBytesBE 512 (byteBlock s k) := by
  have hcount : 8 * s.length / 512 = s.length / 64 := by omega
  rw [blocks, length_bits, hcount]
  refine List.map_congr_left fun k hk => congrArg BitVec.ofFnBE (funext fun i => ?_)
  have hk := List.mem_range.mp hk
  have hi := i.isLt
  have hlt : 512 * k + i.val < (bits s).length := by
    rw [length_bits]
    omega
  have hdiv : (512 * k + i.val) / 8 = 64 * k + i.val / 8 := by omega
  have hmod : (512 * k + i.val) % 8 = i.val % 8 := by omega
  rw [getElem!_pos (bits s) _ hlt, getElem_bits s hlt (by omega),
    getElem!_pos (byteBlock s k) _ (by omega), byteBlock, Vector.getElem_ofFn,
    getElem!_pos s _ (by omega)]
  simp only [hdiv, hmod]

end Fips180
