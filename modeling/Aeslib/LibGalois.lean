import Aeslib.LibBinaryField

/-!
The two binary fields of AES-GCM. A byte is an element of `GF(2^8)` with its least significant bit
as the constant coefficient; a 128-bit block is an element of `GF(2^128)` with its *most* significant
bit as the constant coefficient. Both moduli are irreducible by Rabin's test.
-/

open Polynomial

namespace BinaryField

section Readings

variable {g : (ZMod 2)[X]} {n : ℕ}

/-- Bit vectors as classes, the constant coefficient in the least significant bit. -/
noncomputable def ofLsb (g : (ZMod 2)[X]) (x : BitVec n) : AdjoinRoot g := cls g n x.getLsbD

/-- Bit vectors as classes, the constant coefficient in the most significant bit. -/
noncomputable def ofMsb (g : (ZMod 2)[X]) (x : BitVec n) : AdjoinRoot g := cls g n x.getMsbD

theorem ofLsb_xor (x y : BitVec n) : ofLsb g (x ^^^ y) = ofLsb g x + ofLsb g y := by
  rw [ofLsb, ofLsb, ofLsb, ← cls_xor]
  exact cls_congr fun i _ => BitVec.getLsbD_xor

theorem ofMsb_xor (x y : BitVec n) : ofMsb g (x ^^^ y) = ofMsb g x + ofMsb g y := by
  rw [ofMsb, ofMsb, ofMsb, ← cls_xor]
  exact cls_congr fun i _ => BitVec.getMsbD_xor

theorem ofLsb_bijective (hg : g.Monic) (hdeg : g.natDegree = n) (hn : 0 < n) :
    Function.Bijective (ofLsb g : BitVec n → AdjoinRoot g) := by
  refine ⟨fun x y h => BitVec.eq_of_getLsbD_eq (cls_injective hdeg h), fun r => ?_⟩
  obtain ⟨c, hc⟩ := cls_surjective hg hdeg hn r
  refine ⟨BitVec.ofFnLE fun i => c i, hc ▸ cls_congr fun i hi => ?_⟩
  rw [BitVec.getLsbD_ofFnLE, dif_pos hi]

theorem ofMsb_bijective (hg : g.Monic) (hdeg : g.natDegree = n) (hn : 0 < n) :
    Function.Bijective (ofMsb g : BitVec n → AdjoinRoot g) := by
  refine ⟨fun x y h => BitVec.eq_of_getMsbD_eq (cls_injective hdeg h), fun r => ?_⟩
  obtain ⟨c, hc⟩ := cls_surjective hg hdeg hn r
  refine ⟨BitVec.ofFnBE fun i => c i, hc ▸ cls_congr fun i hi => ?_⟩
  rw [BitVec.getMsbD_ofFnBE, dif_pos hi]

end Readings

theorem testBit_of_lt_two_pow {a k i : ℕ} (ha : a < 2 ^ k) (hi : k ≤ i) : a.testBit i = false :=
  Nat.testBit_eq_false_of_lt (ha.trans_le (Nat.pow_le_pow_right (by decide) hi))

theorem prime_dvd_two_pow {r k : ℕ} (hr : r.Prime) (h : r ∣ 2 ^ k) : r = 2 :=
  (Nat.prime_dvd_prime_iff_eq hr Nat.prime_two).mp (hr.dvd_of_dvd_pow h)

end BinaryField

/-- `x^8 + x^4 + x^3 + x + 1`. -/
noncomputable def gf256Modulus : (ZMod 2)[X] := X ^ 8 + X ^ 4 + X ^ 3 + X + 1

abbrev GF256 := AdjoinRoot gf256Modulus

namespace GF256
open BinaryField

theorem testBit_reduction (i : ℕ) :
    Nat.testBit 0x1b i = decide (i = 0 ∨ i = 1 ∨ i = 3 ∨ i = 4) := by
  by_cases hi : i < 8
  · have hbit : ∀ i < 8, Nat.testBit 0x1b i = decide (i = 0 ∨ i = 1 ∨ i = 3 ∨ i = 4) := by decide
    exact hbit i hi
  · rw [testBit_of_lt_two_pow (k := 8) (by decide) (by omega)]
    simp only [false_eq_decide_iff]
    omega

theorem modulus_eq : modulus 8 0x1b = gf256Modulus := by
  rw [modulus, gf256Modulus]
  simp only [testBit_reduction, decide_eq_true_eq]
  simp [Finset.sum_range_succ]
  ring

instance irreducible : Fact (Irreducible gf256Modulus) := ⟨by
  rw [← modulus_eq]
  refine irreducible_of_certificate (by decide) (by decide +kernel) fun r hr hdvd => ⟨0x51, ?_⟩
  obtain rfl := prime_dvd_two_pow (k := 3) hr hdvd
  decide +kernel⟩

theorem modulus_monic : gf256Modulus.Monic := modulus_eq ▸ BinaryField.modulus_monic (by decide)

theorem modulus_natDegree : gf256Modulus.natDegree = 8 :=
  modulus_eq ▸ BinaryField.modulus_natDegree (by decide)

theorem root_pow_eight :
    AdjoinRoot.root gf256Modulus ^ 8 = cls gf256Modulus 8 (Nat.testBit 0x1b) :=
  root_pow_of_modulus_eq modulus_eq

/-- Bytes are the elements of `GF(2^8)`. -/
noncomputable def ofByte : BitVec 8 ≃ GF256 :=
  Equiv.ofBijective (ofLsb gf256Modulus) (ofLsb_bijective modulus_monic modulus_natDegree (by decide))

theorem ofByte_apply (b : BitVec 8) : ofByte b = cls gf256Modulus 8 b.getLsbD := rfl

theorem ofByte_xor (a b : BitVec 8) : ofByte (a ^^^ b) = ofByte a + ofByte b := ofLsb_xor a b

theorem ofByte_zero : ofByte 0 = 0 := by
  have h : ofByte 0 = ofByte 0 + ofByte 0 := ofByte_xor 0 0
  exact left_eq_add.mp h

theorem ofByte_two_pow {k : ℕ} (hk : k < 8) :
    ofByte (BitVec.twoPow 8 k) = AdjoinRoot.root gf256Modulus ^ k := by
  rw [ofByte_apply, ← cls_single hk]
  refine cls_congr fun i hi => ?_
  simp [BitVec.getLsbD_twoPow, hk, eq_comm]

theorem ofByte_one : ofByte 1 = 1 := ofByte_two_pow (k := 0) (by decide)

/-- `GF(2^8)` has 256 elements, so its units have order dividing 255. -/
theorem pow_254 (a : GF256) : a ^ 254 = a⁻¹ := by
  have : Finite GF256 := Finite.of_equiv _ ofByte
  have := Fintype.ofFinite GF256
  have hcard : Fintype.card GF256 = 256 := by
    rw [← Fintype.card_congr ofByte, ← Nat.card_eq_fintype_card]
    simp [Nat.card_eq_fintype_card, Fintype.card_congr (BitVec.equivFin (m := 8)).toEquiv]
  by_cases ha : a = 0
  · rw [ha, inv_zero, zero_pow (by decide)]
  · have h := FiniteField.pow_card_sub_one_eq_one a ha
    rw [hcard] at h
    exact eq_inv_of_mul_eq_one_left (by rw [← pow_succ]; exact h)

end GF256

/-- `x^128 + x^7 + x^2 + x + 1`. -/
noncomputable def gf128Modulus : (ZMod 2)[X] := X ^ 128 + X ^ 7 + X ^ 2 + X + 1

abbrev GF128 := AdjoinRoot gf128Modulus

namespace GF128
open BinaryField

theorem testBit_reduction (i : ℕ) :
    Nat.testBit 0x87 i = decide (i = 0 ∨ i = 1 ∨ i = 2 ∨ i = 7) := by
  by_cases hi : i < 8
  · have hbit : ∀ i < 8, Nat.testBit 0x87 i = decide (i = 0 ∨ i = 1 ∨ i = 2 ∨ i = 7) := by decide
    exact hbit i hi
  · rw [testBit_of_lt_two_pow (k := 8) (by decide) (by omega)]
    simp only [false_eq_decide_iff]
    omega

theorem modulus_eq : modulus 128 0x87 = gf128Modulus := by
  have hlow : ∑ i ∈ Finset.range 128, (if Nat.testBit 0x87 i then (X : (ZMod 2)[X]) ^ i else 0) =
      ∑ i ∈ Finset.range 8, (if Nat.testBit 0x87 i then (X : (ZMod 2)[X]) ^ i else 0) := by
    symm
    refine Finset.sum_subset (Finset.range_mono (by decide)) fun i _ hi => if_neg ?_
    rw [Finset.mem_range] at hi
    rw [testBit_reduction, decide_eq_true_eq]
    omega
  have hbits : ∑ i ∈ Finset.range 128, (if Nat.testBit 0x87 i then (X : (ZMod 2)[X]) ^ i else 0) =
      X ^ 7 + X ^ 2 + X + 1 := by
    rw [hlow]
    simp only [testBit_reduction, decide_eq_true_eq]
    simp [Finset.sum_range_succ]
    ring
  unfold modulus gf128Modulus
  rw [hbits, ← add_assoc, ← add_assoc, ← add_assoc]

instance irreducible : Fact (Irreducible gf128Modulus) := ⟨by
  rw [← modulus_eq]
  refine irreducible_of_certificate (by decide) (by decide +kernel) fun r hr hdvd =>
    ⟨0x9e4af928ddbc838a41a8cafd2c95b018, ?_⟩
  obtain rfl := prime_dvd_two_pow (k := 7) hr hdvd
  decide +kernel⟩

theorem modulus_monic : gf128Modulus.Monic := modulus_eq ▸ BinaryField.modulus_monic (by decide)

theorem modulus_natDegree : gf128Modulus.natDegree = 128 :=
  modulus_eq ▸ BinaryField.modulus_natDegree (by decide)

theorem root_pow_128 :
    AdjoinRoot.root gf128Modulus ^ 128 = cls gf128Modulus 128 (Nat.testBit 0x87) :=
  root_pow_of_modulus_eq modulus_eq

/-- Blocks are the elements of `GF(2^128)`. -/
noncomputable def ofBlock : BitVec 128 ≃ GF128 :=
  Equiv.ofBijective (ofMsb gf128Modulus) (ofMsb_bijective modulus_monic modulus_natDegree (by decide))

theorem ofBlock_apply (b : BitVec 128) : ofBlock b = cls gf128Modulus 128 b.getMsbD := rfl

theorem ofBlock_xor (a b : BitVec 128) : ofBlock (a ^^^ b) = ofBlock a + ofBlock b := ofMsb_xor a b

theorem ofBlock_zero : ofBlock 0 = 0 := by
  have h : ofBlock 0 = ofBlock 0 + ofBlock 0 := ofBlock_xor 0 0
  exact left_eq_add.mp h

end GF128
