import Mathlib

/-!
Polynomial hashing in a commutative ring: the message is a list of coefficients and the hash
evaluates it at a secret point by Horner's rule, with a zero constant coefficient. A change of one
coefficient changes the hash by one monomial. Two messages with different polynomials have a given
difference of hashes at no more points than the longer one has coefficients.
-/

open Polynomial

namespace PolyHash

variable {R : Type*} [CommRing R]

def step (h : R) (y b : R) : R := (y + b) * h

/-- `b₁ * h ^ n + … + bₙ * h`. -/
def hash (h : R) (bs : List R) : R := bs.foldl (step h) 0

theorem foldl_step (h y : R) (bs : List R) : bs.foldl (step h) y = y * h ^ bs.length + hash h bs := by
  induction bs using List.reverseRecOn with
  | nil => simp [hash]
  | append_singleton bs b ih =>
      rw [hash] at ih ⊢
      simp only [List.foldl_append, List.foldl_cons, List.foldl_nil, ih, step, List.length_append,
        List.length_singleton]
      ring

theorem hash_append (h : R) (as bs : List R) :
    hash h (as ++ bs) = hash h as * h ^ bs.length + hash h bs := by
  rw [hash, List.foldl_append, foldl_step]
  rfl

theorem hash_cons (h b : R) (bs : List R) : hash h (b :: bs) = b * h ^ (bs.length + 1) + hash h bs := by
  rw [hash, List.foldl_cons, foldl_step, step]
  ring

/-- Two messages that differ in one coefficient. -/
theorem hash_sub_hash (h b b' : R) (as bs : List R) :
    hash h (as ++ b :: bs) - hash h (as ++ b' :: bs) = (b - b') * h ^ (bs.length + 1) := by
  simp only [hash_append, hash_cons, List.length_cons]
  ring

theorem hash_ne_hash [NoZeroDivisors R] {h b b' : R} (hh : h ≠ 0) (hb : b ≠ b') (as bs : List R) :
    hash h (as ++ b :: bs) ≠ hash h (as ++ b' :: bs) := by
  have : Nontrivial R := ⟨⟨h, 0, hh⟩⟩
  rw [← sub_ne_zero, hash_sub_hash]
  exact mul_ne_zero (sub_ne_zero.mpr hb) (pow_ne_zero _ hh)

/-- The hash at an indeterminate point. -/
noncomputable def poly (bs : List R) : R[X] := hash X (bs.map C)

theorem poly_concat (bs : List R) (b : R) : poly (bs ++ [b]) = (poly bs + C b) * X := by
  simp only [poly, hash, List.map_append, List.map_cons, List.map_nil, List.foldl_append,
    List.foldl_cons, List.foldl_nil, step]

theorem eval_poly (h : R) (bs : List R) : (poly bs).eval h = hash h bs := by
  induction bs using List.reverseRecOn with
  | nil => exact eval_zero
  | append_singleton bs b ih =>
      rw [poly_concat, eval_mul_X, eval_add, eval_C, ih, hash, hash, List.foldl_append,
        List.foldl_cons, List.foldl_nil, step]

theorem coeff_poly_zero (bs : List R) : (poly bs).coeff 0 = 0 := by
  induction bs using List.reverseRecOn with
  | nil => exact coeff_zero 0
  | append_singleton bs b _ => rw [poly_concat, mul_coeff_zero, coeff_X_zero, mul_zero]

theorem natDegree_poly_le (bs : List R) : (poly bs).natDegree ≤ bs.length := by
  induction bs using List.reverseRecOn with
  | nil => exact natDegree_zero.le
  | append_singleton bs b ih =>
      rw [poly_concat, List.length_append, List.length_singleton]
      refine natDegree_mul_le.trans (Nat.add_le_add ?_ natDegree_X_le)
      exact (natDegree_add_C).le.trans ih

/-- The last coefficient can be read off. -/
theorem poly_concat_inj {bs bs' : List R} {b b' : R} (h : poly (bs ++ [b]) = poly (bs' ++ [b'])) :
    poly bs = poly bs' ∧ b = b' := by
  rw [poly_concat, poly_concat] at h
  have hsum : poly bs + C b = poly bs' + C b' := by
    ext k
    have hcoeff := congrArg (fun p => p.coeff (k + 1)) h
    simpa only [coeff_mul_X] using hcoeff
  have hb : b = b' := by
    have hcoeff := congrArg (fun p => p.coeff 0) hsum
    simpa only [coeff_add, coeff_poly_zero, coeff_C_zero, zero_add] using hcoeff
  subst hb
  exact ⟨add_right_cancel hsum, rfl⟩

/-- Messages of one length have different polynomials. -/
theorem poly_injective {bs bs' : List R} (hlen : bs.length = bs'.length) (h : poly bs = poly bs') :
    bs = bs' := by
  induction bs using List.reverseRecOn generalizing bs' with
  | nil => exact (List.eq_nil_of_length_eq_zero hlen.symm).symm
  | append_singleton bs b ih =>
      rcases bs'.eq_nil_or_concat' with rfl | ⟨bs', b', rfl⟩
      · simp at hlen
      · obtain ⟨hpoly, rfl⟩ := poly_concat_inj h
        rw [ih (by simpa using hlen) hpoly]

/-- **The difference of two hashes** takes a value at no more points than the longer message has
coefficients. -/
theorem encard_hash_sub_le [IsDomain R] {bs bs' : List R} (hne : poly bs ≠ poly bs') (d : R) :
    {h : R | hash h bs - hash h bs' = d}.encard ≤ max bs.length bs'.length := by
  classical
  set p := poly bs - poly bs' - C d with hp
  have hp0 : p ≠ 0 := by
    intro h0
    have hC : poly bs - poly bs' = C d := sub_eq_zero.mp h0
    have hcoeff := congrArg (fun q => q.coeff 0) hC
    simp only [coeff_sub, coeff_poly_zero, sub_zero, coeff_C_zero] at hcoeff
    rw [← hcoeff, C_0] at hC
    exact hne (sub_eq_zero.mp hC)
  have hsub : {h : R | hash h bs - hash h bs' = d} ⊆ (p.roots.toFinset : Set R) := by
    intro h hh
    rw [Finset.mem_coe, Multiset.mem_toFinset, mem_roots hp0, IsRoot, hp, eval_sub, eval_sub,
      eval_C, eval_poly, eval_poly, sub_eq_zero]
    exact hh
  have hdegree : p.natDegree ≤ max bs.length bs'.length := by
    rw [hp, natDegree_sub_C]
    exact (natDegree_sub_le _ _).trans (max_le_max (natDegree_poly_le bs) (natDegree_poly_le bs'))
  calc {h : R | hash h bs - hash h bs' = d}.encard
      ≤ (p.roots.toFinset : Set R).encard := Set.encard_le_encard hsub
    _ = p.roots.toFinset.card := Set.encard_coe_eq_coe_finsetCard _
    _ ≤ (max bs.length bs'.length : ℕ) :=
        Nat.cast_le.mpr ((Multiset.toFinset_card_le _).trans ((card_roots' p).trans hdegree))

end PolyHash
