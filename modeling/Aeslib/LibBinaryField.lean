import Mathlib

/-!
Quotients `𝔽₂[x] / (g)` read off bit sequences. A sequence of `n` coefficients names a class
(`cls`); for a monic modulus of degree `n` the naming is a bijection. A shift-and-add loop
multiplies classes (`foldl_shiftAdd`), whatever order its register keeps the coefficients in.
Rabin's test, run on natural numbers by the same loop, certifies that a modulus is irreducible.
-/

open Polynomial

namespace BinaryField

/-- The class of `∑ c i · x ^ i`, `i < n`, modulo `g`. -/
noncomputable def cls (g : (ZMod 2)[X]) (n : ℕ) (c : ℕ → Bool) : AdjoinRoot g :=
  ∑ i ∈ Finset.range n, if c i then AdjoinRoot.root g ^ i else 0

section Class

variable {g : (ZMod 2)[X]} {n : ℕ}

/-- Addition modulo `g` has characteristic two. -/
theorem add_self (a : AdjoinRoot g) : a + a = 0 := by
  have h2 : (2 : AdjoinRoot g) = 0 := by
    rw [← map_ofNat (AdjoinRoot.of g) 2, show (OfNat.ofNat 2 : ZMod 2) = 0 from rfl, map_zero]
  rw [← two_mul, h2, zero_mul]

theorem neg_eq (a : AdjoinRoot g) : -a = a := neg_eq_of_add_eq_zero_left (add_self a)

theorem cls_congr {c d : ℕ → Bool} (h : ∀ i < n, c i = d i) : cls g n c = cls g n d :=
  Finset.sum_congr rfl fun i hi => by rw [h i (Finset.mem_range.mp hi)]

theorem cls_false : cls g n (fun _ => false) = 0 := by simp [cls]

theorem cls_testBit_zero : cls g n (Nat.testBit 0) = 0 := by
  rw [← cls_false (g := g) (n := n)]
  exact cls_congr fun i _ => Nat.zero_testBit i

theorem cls_xor (c d : ℕ → Bool) :
    cls g n (fun i => c i ^^ d i) = cls g n c + cls g n d := by
  rw [cls, cls, cls, ← Finset.sum_add_distrib]
  refine Finset.sum_congr rfl fun i _ => ?_
  cases c i <;> cases d i <;> simp [add_self]

/-- The class whose only coefficient is the one of `x ^ k`. -/
theorem cls_single {k : ℕ} (hk : k < n) :
    cls g n (fun i => decide (i = k)) = AdjoinRoot.root g ^ k := by
  simp [cls, Finset.sum_ite_eq', hk]

/-- Multiplication by `x` moves every coefficient up by one; the top one leaves as `x ^ n`. -/
theorem root_mul_cls (c : ℕ → Bool) :
    AdjoinRoot.root g * cls g (n + 1) c =
      cls g (n + 1) (fun i => decide (0 < i) && c (i - 1)) +
        if c n then AdjoinRoot.root g ^ (n + 1) else 0 := by
  have hlow : cls g (n + 1) (fun i => decide (0 < i) && c (i - 1)) =
      ∑ i ∈ Finset.range n, if c i then AdjoinRoot.root g ^ (i + 1) else 0 := by
    rw [cls, Finset.sum_range_succ']
    simp
  rw [hlow, cls, Finset.mul_sum, Finset.sum_range_succ]
  congr 1
  · refine Finset.sum_congr rfl fun i _ => ?_
    split_ifs <;> simp [pow_succ']
  · split_ifs <;> simp [pow_succ']

theorem cls_eq_mk (c : ℕ → Bool) :
    cls g n c = AdjoinRoot.mk g (∑ i ∈ Finset.range n, if c i then X ^ i else 0) := by
  rw [cls, map_sum]
  refine Finset.sum_congr rfl fun i _ => ?_
  split_ifs <;> simp

theorem coeff_sum_bits (c : ℕ → Bool) {k : ℕ} (hk : k < n) :
    (∑ i ∈ Finset.range n, if c i then (X : (ZMod 2)[X]) ^ i else 0).coeff k =
      if c k then 1 else 0 := by
  rw [finsetSum_coeff, Finset.sum_eq_single_of_mem k (Finset.mem_range.mpr hk)]
  · split_ifs <;> simp
  · intro i _ hik
    split_ifs
    · rw [coeff_X_pow, if_neg hik.symm]
    · exact coeff_zero k

theorem natDegree_sum_bits_lt (c : ℕ → Bool) (hn : 0 < n) :
    (∑ i ∈ Finset.range n, if c i then (X : (ZMod 2)[X]) ^ i else 0).natDegree < n := by
  refine lt_of_le_of_lt (natDegree_sum_le_of_forall_le _ _ (n := n - 1) fun i hi => ?_) (by omega)
  have := Finset.mem_range.mp hi
  split_ifs
  · rw [natDegree_X_pow]; omega
  · simp

/-- The coefficients of a class below the degree of the modulus are determined. -/
theorem cls_injective (hdeg : g.natDegree = n) {c d : ℕ → Bool}
    (h : cls g n c = cls g n d) : ∀ i < n, c i = d i := by
  intro k hk
  have hn : 0 < n := by omega
  rw [cls_eq_mk, cls_eq_mk, AdjoinRoot.mk_eq_mk] at h
  have hzero := Polynomial.eq_zero_of_dvd_of_natDegree_lt h
    (lt_of_le_of_lt (natDegree_sub_le _ _) (by
      rw [hdeg]
      exact max_lt (natDegree_sum_bits_lt c hn) (natDegree_sum_bits_lt d hn)))
  have hcoeff := congrArg (fun p => p.coeff k) (sub_eq_zero.mp hzero)
  simp only [coeff_sum_bits _ hk] at hcoeff
  cases hc : c k <;> cases hd : d k <;> simp_all

theorem zmod_two_cases (a : ZMod 2) : a = if decide (a = 1) then 1 else 0 := by
  revert a; decide

/-- Every class has coefficients below the degree of the modulus. -/
theorem cls_surjective (hg : g.Monic) (hdeg : g.natDegree = n) (hn : 0 < n) (r : AdjoinRoot g) :
    ∃ c, cls g n c = r := by
  obtain ⟨p, rfl⟩ := AdjoinRoot.mk_surjective r
  refine ⟨fun i => decide ((p %ₘ g).coeff i = 1), ?_⟩
  have hlt : (p %ₘ g).natDegree < n := by
    rw [← hdeg]
    exact natDegree_modByMonic_lt p hg (by rintro rfl; simp at hdeg; omega)
  have hsum : ∑ i ∈ Finset.range n,
      (if decide ((p %ₘ g).coeff i = 1) then (X : (ZMod 2)[X]) ^ i else 0) =
      p %ₘ g := by
    conv_rhs => rw [Polynomial.as_sum_range' (p %ₘ g) n hlt]
    refine Finset.sum_congr rfl fun i _ => ?_
    rw [← C_mul_X_pow_eq_monomial]
    conv_rhs => rw [zmod_two_cases ((p %ₘ g).coeff i)]
    split_ifs <;> simp
  rw [cls_eq_mk, hsum, AdjoinRoot.mk_eq_mk]
  refine ⟨-(p /ₘ g), ?_⟩
  linear_combination Polynomial.modByMonic_add_div p g

end Class

section ShiftAdd

variable {R σ : Type} [CommRing R]

/-- A loop that adds the register `v` into the accumulator `z` when the next multiplier bit is set,
then multiplies `v` by `x`, has added the product of `v` and the multiplier after its `n` rounds.
`inv` is what the loop keeps about the rest of its state. -/
theorem foldl_shiftAdd (step : σ → ℕ → σ) (inv : ℕ → σ → Prop) (z v : σ → R) (x : R) (y : ℕ → Bool)
    (n : ℕ) (hstep : ∀ k < n, ∀ s, inv k s → inv (k + 1) (step s k) ∧
      z (step s k) = z s + (if y k then v s else 0) ∧ v (step s k) = x * v s)
    (s : σ) (hs : inv 0 s) :
    z ((List.range n).foldl step s) =
      z s + (∑ k ∈ Finset.range n, if y k then x ^ k else 0) * v s := by
  have hrun : ∀ k ≤ n, inv k ((List.range k).foldl step s) ∧
      v ((List.range k).foldl step s) = x ^ k * v s ∧
      z ((List.range k).foldl step s) =
        z s + (∑ i ∈ Finset.range k, if y i then x ^ i else 0) * v s := by
    intro k
    induction k with
    | zero => intro _; simpa using hs
    | succ k ih =>
        intro hk
        obtain ⟨hinv, hv, hz⟩ := ih (by omega)
        obtain ⟨hinv', hz', hv'⟩ := hstep k (by omega) _ hinv
        rw [List.range_succ, List.foldl_append, List.foldl_cons, List.foldl_nil, Finset.sum_range_succ]
        refine ⟨hinv', ?_, ?_⟩
        · rw [hv', hv, pow_succ', mul_assoc]
        · rw [hz', hz, hv]
          split_ifs <;> ring
  exact (hrun n le_rfl).2.2

end ShiftAdd

section Modulus

variable (n red : ℕ)

/-- `x ^ n + red`. Bit `i` of a natural number is the coefficient of `x ^ i`; `red` holds the
modulus below `x ^ n`. -/
noncomputable def modulus : (ZMod 2)[X] :=
  X ^ n + ∑ i ∈ Finset.range n, if red.testBit i then X ^ i else 0

/-- Multiply by `x` and reduce. -/
def shl (a : ℕ) : ℕ := if a.testBit (n - 1) then a <<< 1 ^^^ 1 <<< n ^^^ red else a <<< 1

def mulStep (b : ℕ) (s : ℕ × ℕ) (k : ℕ) : ℕ × ℕ :=
  (if b.testBit k then s.1 ^^^ s.2 else s.1, shl n red s.2)

/-- Multiply and reduce. -/
def mul (a b : ℕ) : ℕ := ((List.range n).foldl (mulStep n red b) (0, a)).1

/-- `x ^ 2 ^ k`, by squaring `k` times. -/
def frobenius (k : ℕ) : ℕ := (fun a => mul n red a a)^[k] 2

variable {n red}

theorem modulus_monic (hn : 0 < n) : (modulus n red).Monic := by
  refine monic_X_pow_add ?_
  exact (degree_le_natDegree.trans_lt (by exact_mod_cast natDegree_sum_bits_lt _ hn))

theorem modulus_natDegree (hn : 0 < n) : (modulus n red).natDegree = n := by
  rw [modulus, natDegree_add_eq_left_of_natDegree_lt, natDegree_X_pow]
  rw [natDegree_X_pow]
  exact natDegree_sum_bits_lt _ hn

/-- Reduction: `x ^ n` is the class of the lower part of the modulus. -/
theorem root_pow_modulus :
    AdjoinRoot.root (modulus n red) ^ n = cls (modulus n red) n red.testBit := by
  have h : AdjoinRoot.mk (modulus n red)
      (X ^ n + ∑ i ∈ Finset.range n, if red.testBit i then X ^ i else 0) = 0 := AdjoinRoot.mk_self
  rw [map_add, ← cls_eq_mk, map_pow, AdjoinRoot.mk_X] at h
  rw [eq_neg_of_add_eq_zero_left h, neg_eq]

theorem root_pow_of_modulus_eq {g : (ZMod 2)[X]} (hg : modulus n red = g) :
    AdjoinRoot.root g ^ n = cls g n red.testBit := by
  subst hg
  exact root_pow_modulus

theorem cls_shl (hn : 0 < n) (a : ℕ) :
    cls (modulus n red) n (shl n red a).testBit =
      AdjoinRoot.root (modulus n red) * cls (modulus n red) n a.testBit := by
  obtain ⟨m, rfl⟩ : ∃ m, n = m + 1 := ⟨n - 1, by omega⟩
  rw [root_mul_cls, shl, Nat.add_sub_cancel]
  by_cases h : a.testBit m
  · rw [if_pos h, if_pos h, root_pow_modulus, ← cls_xor]
    refine cls_congr fun i hi => ?_
    have hne : m + 1 ≠ i := by omega
    simp [Nat.testBit_shiftLeft, Nat.one_shiftLeft, Nat.testBit_two_pow_of_ne hne,
      Nat.one_le_iff_ne_zero, Nat.pos_iff_ne_zero]
  · rw [if_neg h, if_neg h, add_zero]
    refine cls_congr fun i _ => ?_
    simp [Nat.testBit_shiftLeft, Nat.one_le_iff_ne_zero, Nat.pos_iff_ne_zero]

/-- The arithmetic on natural numbers is multiplication of classes. -/
theorem cls_mul (hn : 0 < n) (a b : ℕ) :
    cls (modulus n red) n (mul n red a b).testBit =
      cls (modulus n red) n a.testBit * cls (modulus n red) n b.testBit := by
  have h := foldl_shiftAdd (mulStep n red b) (fun _ _ => True)
    (fun s => cls (modulus n red) n s.1.testBit) (fun s => cls (modulus n red) n s.2.testBit)
    (AdjoinRoot.root (modulus n red)) b.testBit n
    (fun k _ s _ => ⟨trivial, ?_, cls_shl hn s.2⟩) (0, a) trivial
  · rw [mul, h, ← cls]
    rw [cls_testBit_zero, zero_add, mul_comm]
  · simp only [mulStep]
    split_ifs
    · rw [← cls_xor]
      exact cls_congr fun i _ => by rw [Nat.testBit_xor]
    · rw [add_zero]

theorem cls_two (hn : 1 < n) :
    cls (modulus n red) n (Nat.testBit 2) = AdjoinRoot.root (modulus n red) := by
  rw [← pow_one (AdjoinRoot.root _), ← cls_single hn]
  exact cls_congr fun i _ => by rw [show 2 = 2 ^ 1 from rfl, Nat.testBit_two_pow]; simp [eq_comm]

theorem cls_frobenius (hn : 1 < n) (k : ℕ) :
    cls (modulus n red) n (frobenius n red k).testBit = AdjoinRoot.root (modulus n red) ^ 2 ^ k := by
  induction k with
  | zero => rw [pow_zero, pow_one]; exact cls_two hn
  | succ k ih =>
      rw [frobenius, Function.iterate_succ_apply', ← frobenius, cls_mul (by omega), ih, ← pow_add]
      congr 1
      ring

end Modulus

/-- **Rabin's test.** A polynomial of degree `n` over a field of `q` elements is irreducible when it
divides `X ^ q ^ n - X` and is coprime to `X ^ q ^ (n / r) - X` for every prime `r` dividing `n`. -/
theorem irreducible_of_rabin {k : Type} [Field k] [Finite k] {g : k[X]} (hdeg : 0 < g.natDegree)
    (hdvd : g ∣ X ^ Nat.card k ^ g.natDegree - X)
    (hcop : ∀ r : ℕ, r.Prime → r ∣ g.natDegree →
      IsCoprime g (X ^ Nat.card k ^ (g.natDegree / r) - X)) : Irreducible g := by
  have hg0 : g ≠ 0 := by rintro rfl; simp at hdeg
  have hunit : ¬IsUnit g := fun h => by rw [natDegree_eq_zero_of_isUnit h] at hdeg; omega
  obtain ⟨p, hp, hpg⟩ := WfDvdMonoid.exists_irreducible_factor hunit hg0
  have hd : p.natDegree ∣ g.natDegree :=
    hp.natDegree_dvd_of_dvd_X_pow_card_pow_sub_X (hpg.trans hdvd)
  by_cases heq : p.natDegree = g.natDegree
  · have hassoc : Associated p g := associated_of_dvd_of_natDegree_le hpg hg0 heq.ge
    exact hassoc.irreducible hp
  · exfalso
    -- a proper divisor of the degree divides the degree over one of its primes
    obtain ⟨e, he⟩ := hd
    have he1 : e ≠ 1 := by rintro rfl; omega
    obtain ⟨r, hr, hre⟩ := Nat.exists_prime_and_dvd he1
    have hdiv : p.natDegree ∣ g.natDegree / r := by
      rw [he, Nat.mul_div_assoc _ hre]
      exact Dvd.intro _ rfl
    have hp2 := hp.natDegree_dvd_iff_dvd_X_pow_card_pow_sub_X.mp hdiv
    have hrg : r ∣ g.natDegree := by rw [he]; exact Dvd.dvd.mul_left hre _
    exact hp.not_isUnit ((hcop r hr hrg).isUnit_of_dvd' hpg hp2)

/-- Rabin's test on natural numbers: `x ^ 2 ^ n = x`, and for each prime `r` of `n` an inverse of
`x ^ 2 ^ (n / r) - x`. -/
theorem irreducible_of_certificate {n red : ℕ} (hn : 1 < n) (hfix : frobenius n red n = 2)
    (hinv : ∀ r : ℕ, r.Prime → r ∣ n → ∃ u, mul n red u (frobenius n red (n / r) ^^^ 2) = 1) :
    Irreducible (modulus n red) := by
  have hcard : Nat.card (ZMod 2) = 2 := by simp
  have hdeg : (modulus n red).natDegree = n := modulus_natDegree (by omega)
  refine irreducible_of_rabin (by omega) ?_ fun r hr hrn => ?_
  · rw [hdeg, hcard, ← AdjoinRoot.mk_eq_zero, map_sub, map_pow, AdjoinRoot.mk_X,
      ← cls_frobenius hn, hfix, cls_two hn, sub_self]
  · rw [hdeg] at hrn ⊢
    obtain ⟨u, hu⟩ := hinv r hr hrn
    have hclass := congrArg (fun a : ℕ => cls (modulus n red) n a.testBit) hu
    have hone : cls (modulus n red) n (Nat.testBit 1) = 1 := by
      rw [← pow_zero (AdjoinRoot.root _), ← cls_single (show 0 < n by omega)]
      exact cls_congr fun i _ => by rw [show 1 = 2 ^ 0 from rfl, Nat.testBit_two_pow]; simp [eq_comm]
    have hxor : cls (modulus n red) n (frobenius n red (n / r) ^^^ 2).testBit =
        AdjoinRoot.root (modulus n red) ^ 2 ^ (n / r) + AdjoinRoot.root (modulus n red) := by
      rw [← cls_frobenius hn, ← cls_two hn, ← cls_xor]
      exact cls_congr fun i _ => by rw [Nat.testBit_xor]
    obtain ⟨w, hw⟩ := AdjoinRoot.mk_surjective (cls (modulus n red) n u.testBit)
    rw [cls_mul (by omega), hone, hxor, ← hw] at hclass
    have hdvd : modulus n red ∣ w * (X ^ 2 ^ (n / r) - X) - 1 := by
      rw [← AdjoinRoot.mk_eq_zero, map_sub, map_mul, map_sub, map_pow, AdjoinRoot.mk_X, map_one,
        sub_eq_add_neg _ (AdjoinRoot.root _), neg_eq, hclass, sub_self]
    obtain ⟨v, hv⟩ := hdvd
    rw [hcard]
    exact ⟨-v, w, by linear_combination hv⟩

end BinaryField
