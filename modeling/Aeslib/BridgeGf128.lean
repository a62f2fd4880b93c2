import Aeslib.Ghash

/-!
`gf128_mul` on polynomials over two elements. A block is the polynomial of its bits, counted from
the most significant bit of byte 0; the loop returns the block of the product of two polynomials,
reduced. The laws of the field carry over to blocks.
-/

namespace Aeslib

open Bytes Polynomial

/-- Bit 0 is the most significant bit of byte 0. -/
def blockBit (b : Block) (i : Nat) : Bool := b[i / 8]!.getMsbD (i % 8)

/-- The polynomial whose coefficient of `x ^ i` is bit `i`. -/
noncomputable def blockPoly (b : Block) : (ZMod 2)[X] :=
  ∑ i ∈ Finset.range 128, if blockBit b i then X ^ i else 0

section Blocks

variable (b x y z : Block)

theorem getMsbD_toReg {i : Nat} (hi : i < 128) : (toReg b).getMsbD i = blockBit b i := by
  rw [toReg, getMsbD_ofBytesBE b hi, blockBit]

theorem toField_eq_mk : toField b = AdjoinRoot.mk gf128Modulus (blockPoly b) := by
  rw [toField, GF128.ofBlock_apply, BinaryField.cls_congr fun i hi => getMsbD_toReg b hi,
    BinaryField.cls_eq_mk, blockPoly]

theorem degree_blockPoly_lt : (blockPoly b).degree < gf128Modulus.degree := by
  have hdegree : (blockPoly b).natDegree < 128 := BinaryField.natDegree_sum_bits_lt _ (by decide)
  refine degree_lt_degree ?_
  rwa [GF128.modulus_natDegree]

theorem blockPoly_injective : Function.Injective blockPoly := fun a b h => by
  refine toField_injective ?_
  rw [toField_eq_mk, toField_eq_mk, h]

/-- The loop returns the remainder of the product. -/
theorem blockPoly_gf128Mul : blockPoly (gf128Mul x y) = blockPoly x * blockPoly y %ₘ gf128Modulus := by
  have hclass := toField_gf128Mul x y
  rw [toField_eq_mk, toField_eq_mk, toField_eq_mk, ← map_mul, AdjoinRoot.mk_eq_mk] at hclass
  calc
    blockPoly (gf128Mul x y) = blockPoly (gf128Mul x y) %ₘ gf128Modulus :=
      ((modByMonic_eq_self_iff GF128.modulus_monic).mpr (degree_blockPoly_lt _)).symm
    _ = blockPoly x * blockPoly y %ₘ gf128Modulus := modByMonic_eq_of_dvd_sub GF128.modulus_monic hclass

theorem gf128Mul_comm : gf128Mul x y = gf128Mul y x := by
  refine toField_injective ?_
  rw [toField_gf128Mul, toField_gf128Mul, mul_comm]

theorem gf128Mul_assoc : gf128Mul (gf128Mul x y) z = gf128Mul x (gf128Mul y z) := by
  refine toField_injective ?_
  simp only [toField_gf128Mul, mul_assoc]

theorem gf128Mul_xorBlocks : gf128Mul x (xorBlocks y z) = xorBlocks (gf128Mul x y) (gf128Mul x z) := by
  refine toField_injective ?_
  simp only [toField_gf128Mul, toField_xorBlocks, mul_add]

/-- The block `0x80 00 … 00`. -/
def oneBlock : Block := #v[0x80, 0, 0, 0, 0, 0, 0, 0, 0, 0, 0, 0, 0, 0, 0, 0]

theorem blockBit_oneBlock : ∀ i < 128, blockBit oneBlock i = decide (i = 0) := by decide +kernel

theorem toField_oneBlock : toField oneBlock = 1 := by
  rw [toField, GF128.ofBlock_apply, ← pow_zero (AdjoinRoot.root gf128Modulus),
    ← BinaryField.cls_single (show 0 < 128 by decide)]
  refine BinaryField.cls_congr fun i hi => ?_
  rw [getMsbD_toReg oneBlock hi, blockBit_oneBlock i hi]

theorem gf128Mul_oneBlock : gf128Mul x oneBlock = x := by
  refine toField_injective ?_
  rw [toField_gf128Mul, toField_oneBlock, mul_one]

theorem gf128Mul_eq_zero_iff :
    gf128Mul x y = Vector.replicate kBlockSizeBytes 0 ↔
      x = Vector.replicate kBlockSizeBytes 0 ∨ y = Vector.replicate kBlockSizeBytes 0 := by
  simp only [← toField_injective.eq_iff, toField_zero, toField_gf128Mul, mul_eq_zero]

end Blocks

/-- **`gf128_mul` is multiplication in `GF(2^128)`**, and the blocks with it and with XOR satisfy
the laws of a field. -/
theorem gf128Mul_spec :
    Function.Injective blockPoly ∧
    (∀ x y, blockPoly (gf128Mul x y) = blockPoly x * blockPoly y %ₘ (X ^ 128 + X ^ 7 + X ^ 2 + X + 1)) ∧
    (∀ x y, gf128Mul x y = gf128Mul y x) ∧
    (∀ x y z, gf128Mul (gf128Mul x y) z = gf128Mul x (gf128Mul y z)) ∧
    (∀ x y z, gf128Mul x (xorBlocks y z) = xorBlocks (gf128Mul x y) (gf128Mul x z)) ∧
    (∀ x y z, gf128Mul (xorBlocks x y) z = xorBlocks (gf128Mul x z) (gf128Mul y z)) ∧
    (∀ x, gf128Mul x oneBlock = x ∧ gf128Mul oneBlock x = x) ∧
    ∀ x y, gf128Mul x y = Vector.replicate kBlockSizeBytes 0 ↔
      x = Vector.replicate kBlockSizeBytes 0 ∨ y = Vector.replicate kBlockSizeBytes 0 := by
  refine ⟨blockPoly_injective, fun x y => ?_, gf128Mul_comm, gf128Mul_assoc, gf128Mul_xorBlocks,
    fun x y z => ?_,
    fun x => ⟨gf128Mul_oneBlock x, ?_⟩, gf128Mul_eq_zero_iff⟩
  · have hproduct := blockPoly_gf128Mul x y
    unfold gf128Modulus at hproduct
    exact hproduct
  · rw [gf128Mul_comm, gf128Mul_xorBlocks, gf128Mul_comm z x, gf128Mul_comm z y]
  · rw [gf128Mul_comm, gf128Mul_oneBlock]

end Aeslib
