import Aeslib.AesSoft
import Aeslib.LibGalois
import Aeslib.LibPolyHash

/-!
GHASH, `src/ghash.cpp`, and its meaning: the bit-serial loop on two halves multiplies in `GF(2^128)`, and
folding the blocks of the two strings and the length block is Horner's rule.
-/

namespace Aeslib

open Bytes

/-- `load_be64(b.data() + offset)`. -/
def loadBe64 (b : Block) (offset : Nat) : BitVec 64 :=
  ofBytesBE 64 (Vector.ofFn fun i : Fin 8 => b[offset + i.val]!)

def storeBe64 (v : BitVec 64) : Vector Byte 8 := toBytesBE 8 v

def kRHi : BitVec 64 := 0xE100000000000000

/-- The variables of the loop. -/
structure Gf128State where
  zHi : BitVec 64
  zLo : BitVec 64
  vHi : BitVec 64
  vLo : BitVec 64

def gf128Step (yHi yLo : BitVec 64) (s : Gf128State) (i : Nat) : Gf128State :=
  let ybit := if i < 64 then (yHi >>> (63 - i)) &&& 1#64 else (yLo >>> (63 - (i - 64))) &&& 1#64
  let zmask := 0#64 - ybit
  let lsb := s.vLo &&& 1#64
  let newLo := s.vLo >>> 1 ||| (s.vHi &&& 1#64) <<< 63
  let newHi := s.vHi >>> 1
  let rmask := 0#64 - lsb
  { zHi := s.zHi ^^^ (zmask &&& s.vHi)
    zLo := s.zLo ^^^ (zmask &&& s.vLo)
    vHi := newHi ^^^ (rmask &&& kRHi)
    vLo := newLo }

def gf128Mul (x y : Block) : Block :=
  let s := (List.range 128).foldl (gf128Step (loadBe64 y 0) (loadBe64 y 8))
    { zHi := 0, zLo := 0, vHi := loadBe64 x 0, vLo := loadBe64 x 8 }
  storeBe64 s.zHi ++ storeBe64 s.zLo

def xorBlocks (a b : Block) : Block := Vector.zipWith (· ^^^ ·) a b

/-- One iteration of `fold_into`: the block at `offset`, zero past the end of the data. -/
def foldBlock (h : Block) (data : List Byte) (y : Block) (offset : Nat) : Block :=
  let block : Block := Vector.ofFn fun i => data[offset + i.val]?.getD 0
  gf128Mul (xorBlocks y block) h

/-- The offsets of the loop are the multiples of the block size below the length. -/
def foldInto (y h : Block) (data : List Byte) : Block :=
  (List.range ((data.length + 15) / 16)).foldl (fun y k => foldBlock h data y (kBlockSizeBytes * k)) y

def ghash (h : Block) (aad ciphertext : List Byte) : Block :=
  let y : Block := Vector.replicate kBlockSizeBytes 0
  let y := foldInto y h aad
  let y := foldInto y h ciphertext
  let lenBlock : Block :=
    storeBe64 (BitVec.ofNat 64 aad.length * 8) ++ storeBe64 (BitVec.ofNat 64 ciphertext.length * 8)
  gf128Mul (xorBlocks y lenBlock) h

/-- The register of a block. -/
def toReg (b : Block) : BitVec 128 := ofBytesBE 128 b

/-- The field element of a block. -/
noncomputable def toField (b : Block) : GF128 := GF128.ofBlock (toReg b)

theorem toReg_injective : Function.Injective toReg := fun _ _ h => ofBytesBE_injective (by decide) h

theorem toField_injective : Function.Injective toField :=
  fun _ _ h => toReg_injective (GF128.ofBlock.injective h)

theorem toReg_xorBlocks (a b : Block) : toReg (xorBlocks a b) = toReg a ^^^ toReg b :=
  ofBytesBE_xor a b (by decide)

theorem toField_xorBlocks (a b : Block) : toField (xorBlocks a b) = toField a + toField b := by
  rw [toField, toReg_xorBlocks, GF128.ofBlock_xor]
  rfl

theorem ofBytesBE_storeBe64 (v : BitVec 64) : ofBytesBE 64 (storeBe64 v) = v := ofBytesBE_toBytesBE v rfl

theorem toReg_storeBe64 (hi lo : BitVec 64) : toReg (storeBe64 hi ++ storeBe64 lo) = hi ++ lo := by
  have happend := ofBytesBE_append (storeBe64 hi) (storeBe64 lo)
  rw [ofBytesBE_storeBe64, ofBytesBE_storeBe64] at happend
  exact happend

theorem loadBe64_append (b : Block) : loadBe64 b 0 ++ loadBe64 b 8 = toReg b := by
  have hsplit : (Vector.ofFn fun i : Fin 8 => b[0 + i.val]!) ++
      (Vector.ofFn fun i : Fin 8 => b[8 + i.val]!) = b := by
    refine Vector.ext fun i hi => ?_
    rw [Vector.getElem_append]
    split_ifs with h
    · rw [Vector.getElem_ofFn, Nat.zero_add, getElem!_pos b i hi]
    · have hidx : 8 + (i - 8) = i := by omega
      rw [Vector.getElem_ofFn, hidx, getElem!_pos b i hi]
  have happend := ofBytesBE_append (Vector.ofFn fun i : Fin 8 => b[0 + i.val]!)
    (Vector.ofFn fun i : Fin 8 => b[8 + i.val]!)
  rw [hsplit] at happend
  exact happend.symm

/-- A right shift that folds the bit it drops back in multiplies by `x`. -/
theorem ofBlock_shift (v : BitVec 128) :
    GF128.ofBlock (v >>> 1 ^^^ if v.getLsbD 0 then 0xE1#128 <<< 120 else 0#128) =
      AdjoinRoot.root gf128Modulus * GF128.ofBlock v := by
  have hred : ∀ i < 128, (0xE1#128 <<< 120).getMsbD i = Nat.testBit 0x87 i := by decide +kernel
  have hmul := BinaryField.root_mul_cls (g := gf128Modulus) (n := 127) v.getMsbD
  rw [GF128.ofBlock_apply, GF128.ofBlock_apply, hmul, GF128.root_pow_128, BitVec.getMsbD_eq_getLsbD,
    show 128 - 1 - 127 = 0 from rfl, decide_eq_true (by decide : 127 < 128), Bool.true_and]
  split_ifs with h
  · rw [← BinaryField.cls_xor]
    refine BinaryField.cls_congr fun i hi => ?_
    rw [BitVec.getMsbD_xor, hred i hi, BitVec.getMsbD_ushiftRight]
    by_cases h0 : i = 0 <;> simp [h0, hi, Nat.pos_iff_ne_zero]
  · rw [add_zero, BitVec.xor_zero]
    refine BinaryField.cls_congr fun i hi => ?_
    rw [BitVec.getMsbD_ushiftRight]
    by_cases h0 : i = 0 <;> simp [h0, hi, Nat.pos_iff_ne_zero]

theorem append_shift (hi lo : BitVec 64) :
    (hi >>> 1) ++ (lo >>> 1 ||| (hi &&& 1#64) <<< 63) = (hi ++ lo) >>> 1 := by
  apply BitVec.eq_of_getLsbD_eq
  intro i hi'
  simp only [BitVec.getLsbD_append, BitVec.getLsbD_ushiftRight, BitVec.getLsbD_or,
    BitVec.getLsbD_shiftLeft, BitVec.getLsbD_and, BitVec.getLsbD_one]
  by_cases h63 : i = 63
  · subst h63
    simp
  · by_cases h64 : i < 64
    · simp [h64, show 1 + i < 64 by omega, show i < 63 by omega]
    · simp [h64, show ¬1 + i < 64 by omega, show 1 + (i - 64) = 1 + i - 64 by omega]

/-- The two halves of the register `v` shift together. -/
theorem gf128Step_v (yHi yLo : BitVec 64) (s : Gf128State) (i : Nat) :
    (gf128Step yHi yLo s i).vHi ++ (gf128Step yHi yLo s i).vLo =
      (s.vHi ++ s.vLo) >>> 1 ^^^ if (s.vHi ++ s.vLo).getLsbD 0 then 0xE1#128 <<< 120 else 0#128 := by
  have hred : (if s.vLo.getLsbD 0 then 0xE1#128 <<< 120 else 0#128) =
      (if s.vLo.getLsbD 0 then kRHi else 0#64) ++ 0#64 := by
    split_ifs <;> rfl
  have hlsb : (s.vHi ++ s.vLo).getLsbD 0 = s.vLo.getLsbD 0 := by
    rw [BitVec.getLsbD_append, if_pos (by omega : 0 < 64)]
  rw [hlsb, hred, ← append_shift, BitVec.xor_append, BitVec.xor_zero]
  simp only [gf128Step, mask_and]

theorem gf128Step_z (yHi yLo : BitVec 64) (s : Gf128State) {i : Nat} (hi : i < 128) :
    (gf128Step yHi yLo s i).zHi ++ (gf128Step yHi yLo s i).zLo =
      (s.zHi ++ s.zLo) ^^^ if (yHi ++ yLo).getMsbD i then s.vHi ++ s.vLo else 0#128 := by
  have hbit : (yHi ++ yLo).getMsbD i = if i < 64 then (yHi >>> (63 - i)).getLsbD
      0 else (yLo >>> (63 - (i - 64))).getLsbD 0 := by
    rw [BitVec.getMsbD_append]
    split_ifs with h1 h2 h2
    · omega
    · rw [BitVec.getLsbD_ushiftRight, BitVec.getMsbD_eq_getLsbD,
        decide_eq_true (by omega : i - 64 < 64), Bool.true_and]
      exact congrArg _ (by omega)
    · rw [BitVec.getLsbD_ushiftRight, BitVec.getMsbD_eq_getLsbD, decide_eq_true h2, Bool.true_and]
      exact congrArg _ (by omega)
    · omega
  have hif : (if (yHi ++ yLo).getMsbD i then s.vHi ++ s.vLo else 0#128) =
      (if (yHi ++ yLo).getMsbD i then s.vHi else 0#64) ++
        (if (yHi ++ yLo).getMsbD i then s.vLo else 0#64) := by
    split_ifs <;> rfl
  rw [hif, BitVec.xor_append, hbit]
  by_cases h : i < 64
  · simp only [gf128Step, h, if_true, mask_and]
  · simp only [gf128Step, h, if_false, mask_and]

/-- The product of two blocks is the product of their field elements. -/
theorem toField_gf128Mul (x y : Block) : toField (gf128Mul x y) = toField x * toField y := by
  have h := BinaryField.foldl_shiftAdd (gf128Step (loadBe64 y 0) (loadBe64 y 8)) (fun _ _ => True)
    (fun s => GF128.ofBlock (s.zHi ++ s.zLo)) (fun s => GF128.ofBlock (s.vHi ++ s.vLo))
    (AdjoinRoot.root gf128Modulus) (toReg y).getMsbD 128 (fun k hk s _ => ⟨trivial, ?_, ?_⟩)
    { zHi := 0, zLo := 0, vHi := loadBe64 x 0, vLo := loadBe64 x 8 } trivial
  · rw [toField, gf128Mul, toReg_storeBe64, h, loadBe64_append,
      show (0 : BitVec 64) ++ (0 : BitVec 64) = (0 : BitVec 128) from rfl, GF128.ofBlock_zero,
      zero_add, mul_comm]
    rfl
  · rw [gf128Step_z _ _ _ hk, loadBe64_append, GF128.ofBlock_xor]
    split_ifs
    · rfl
    · rw [show (0#128 : BitVec 128) = 0 from rfl, GF128.ofBlock_zero]
  · rw [gf128Step_v, ofBlock_shift]

/-- Block `k` of a string, zero past its end. -/
def paddedBlock (data : List Byte) (k : Nat) : Block :=
  Vector.ofFn fun i => data[kBlockSizeBytes * k + i.val]?.getD 0

def paddedBlocks (data : List Byte) : List Block :=
  (List.range ((data.length + 15) / 16)).map (paddedBlock data)

def lengthBlock (aad ciphertext : List Byte) : Block :=
  storeBe64 (BitVec.ofNat 64 aad.length * 8) ++ storeBe64 (BitVec.ofNat 64 ciphertext.length * 8)

def ghashBlocks (aad ciphertext : List Byte) : List Block :=
  paddedBlocks aad ++ paddedBlocks ciphertext ++ [lengthBlock aad ciphertext]

theorem ghash_eq_foldl (h : Block) (aad ciphertext : List Byte) :
    ghash h aad ciphertext = (ghashBlocks aad ciphertext).foldl (fun y b => gf128Mul (xorBlocks y b) h)
      (Vector.replicate kBlockSizeBytes 0) := by
  simp only [ghash, ghashBlocks, foldInto, paddedBlocks, List.foldl_append, List.foldl_map,
    List.foldl_cons, List.foldl_nil]
  rfl

theorem toField_zero : toField (Vector.replicate kBlockSizeBytes 0) = 0 := by
  have hxor : xorBlocks (Vector.replicate kBlockSizeBytes 0) (Vector.replicate kBlockSizeBytes 0) =
      Vector.replicate kBlockSizeBytes 0 := Vector.ext fun i hi => by simp [xorBlocks]
  have h := toField_xorBlocks (Vector.replicate kBlockSizeBytes 0) (Vector.replicate kBlockSizeBytes 0)
  rw [hxor] at h
  exact left_eq_add.mp h

theorem toField_ghash (h : Block) (aad ciphertext : List Byte) :
    toField (ghash h aad ciphertext) = PolyHash.hash (toField h)
      ((ghashBlocks aad ciphertext).map toField) := by
  have hfold (bs : List Block) (y : Block) :
      toField (bs.foldl (fun y b => gf128Mul (xorBlocks y b) h) y) =
        (bs.map toField).foldl (PolyHash.step (toField h)) (toField y) := by
    induction bs generalizing y with
    | nil => rfl
    | cons b bs ih =>
        rw [List.foldl_cons, ih, toField_gf128Mul, toField_xorBlocks]
        rfl
  rw [ghash_eq_foldl, hfold, toField_zero]
  rfl

end Aeslib
