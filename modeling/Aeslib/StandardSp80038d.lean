import Aeslib.LibBytes
import Aeslib.LibGalois

/-!
The authenticated encryption function of NIST SP 800-38D on byte strings, for a 96-bit IV and a
128-bit tag, over any block function `ciph`. Blocks are 128-bit registers with the first byte of the
string on top.
-/

namespace Sp80038d

open Bytes

/-- The bytes of a block. -/
def bytes (x : BitVec 128) : List Byte := (toBytesBE 16 x).toList

/-- `X_1 ‖ … ‖ X_m`, for a string of whole blocks. -/
def blocks (s : List Byte) : List (BitVec 128) :=
  (List.range (s.length / 16)).map fun k =>
    ofBytesBE 128 (Vector.ofFn fun i : Fin 16 => s[16 * k + i.val]!)

/-- A string with the shortest zero string that completes its last block. -/
def pad (s : List Byte) : List Byte := s ++ List.replicate (16 * ((s.length + 15) / 16) - s.length) 0

/-- `[len(s)]_64`, the length in bits. -/
def len64 (s : List Byte) : List Byte := (toBytesBE 8 (BitVec.ofNat 64 (8 * s.length))).toList

/-- `X • Y`, section 6.3. -/
noncomputable def product (x y : BitVec 128) : BitVec 128 :=
  GF128.ofBlock.symm (GF128.ofBlock x * GF128.ofBlock y)

/-- `GHASH_H`, section 6.4. -/
noncomputable def ghash (h : BitVec 128) (xs : List (BitVec 128)) : BitVec 128 :=
  xs.foldl (fun y x => product (y ^^^ x) h) 0

/-- `inc_32`, section 6.2. -/
def inc32 (x : BitVec 128) : BitVec 128 := x.extractLsb' 32 96 ++ (x.extractLsb' 0 32 + 1)

/-- `GCTR_K`, section 6.5. -/
def gctr (ciph : BitVec 128 → BitVec 128) (icb : BitVec 128) (x : List Byte) : List Byte :=
  if 0 < x.length then
    (x.take 16).zipWith (· ^^^ ·) (bytes (ciph icb)) ++ gctr ciph (inc32 icb) (x.drop 16)
  else []
termination_by x.length
decreasing_by simp; omega

/-- `J_0` for a 96-bit IV: `IV ‖ 0^31 ‖ 1`. -/
def j0 (iv : Vector Byte 12) : BitVec 128 := ofBytesBE 96 iv ++ (1 : BitVec 32)

/-- GCM-AE, section 7.1: the ciphertext and the tag, for a plaintext of at most `2^39 - 256` bits and
additional data of at most `2^64 - 1` bits. -/
noncomputable def gcmAE (ciph : BitVec 128 → BitVec 128) (iv : Vector Byte 12) (p a : List Byte) :
    Option (List Byte × List Byte) :=
  if 8 * p.length + 256 ≤ 2 ^ 39 ∧ 8 * a.length < 2 ^ 64 then
    let h := ciph 0
    let c := gctr ciph (inc32 (j0 iv)) p
    let s := ghash h (blocks (pad a ++ pad c ++ len64 a ++ len64 c))
    let t := gctr ciph (j0 iv) (bytes s)
    some (c, t)
  else none

/-- GCM-AD, section 7.2: the plaintext, or `FAIL`, for a tag of 128 bits. -/
noncomputable def gcmAD (ciph : BitVec 128 → BitVec 128) (iv : Vector Byte 12) (c a t : List Byte) :
    Option (List Byte) :=
  if 8 * c.length + 256 ≤ 2 ^ 39 ∧ 8 * a.length < 2 ^ 64 ∧ t.length = 16 then
    let h := ciph 0
    let p := gctr ciph (inc32 (j0 iv)) c
    let s := ghash h (blocks (pad a ++ pad c ++ len64 a ++ len64 c))
    let t' := gctr ciph (j0 iv) (bytes s)
    if t = t' then some p else none
  else none

theorem blocks_append {s t : List Byte} (hs : 16 ∣ s.length) :
    blocks (s ++ t) = blocks s ++ blocks t := by
  obtain ⟨n, hn⟩ := hs
  have hdiv : (s ++ t).length / 16 = n + t.length / 16 := by
    rw [List.length_append, hn, Nat.mul_add_div (by decide)]
  rw [blocks, blocks, blocks, hdiv, hn, Nat.mul_div_cancel_left _ (by decide), List.range_add,
    List.map_append, List.map_map]
  refine congrArg₂ (· ++ ·) ?_ ?_
  · refine List.map_congr_left fun k hk => congrArg (ofBytesBE 128) (Vector.ext fun i hi => ?_)
    have hk := List.mem_range.mp hk
    rw [Vector.getElem_ofFn, Vector.getElem_ofFn, getElem!_pos _ _ (by simp; omega),
      getElem!_pos s _ (by omega), List.getElem_append_left (by omega)]
  · refine List.map_congr_left fun k hk => congrArg (ofBytesBE 128) (Vector.ext fun i hi => ?_)
    have hk := List.mem_range.mp hk
    have hidx : 16 * (n + k) + i - s.length = 16 * k + i := by omega
    have hlt : 16 * (n + k) + i < (s ++ t).length := by
      rw [List.length_append]
      omega
    have hbyte : (s ++ t)[16 * (n + k) + i]! = t[16 * k + i]! := by
      rw [getElem!_pos (s ++ t) _ hlt, getElem!_pos t _ (by omega), List.getElem_append_right (by omega)]
      exact getElem_congr_idx hidx
    rw [Vector.getElem_ofFn, Vector.getElem_ofFn]
    exact hbyte

theorem length_pad (s : List Byte) : (pad s).length = 16 * ((s.length + 15) / 16) := by
  rw [pad, List.length_append, List.length_replicate]
  omega

theorem getElem_pad (s : List Byte) {i : Nat} (hi : i < (pad s).length) : (pad s)[i] = s[i]?.getD 0 := by
  by_cases h : i < s.length
  · simp [pad, h]
  · simp only [pad] at hi ⊢
    rw [List.getElem_append_right (by omega), List.getElem_replicate, List.getElem?_eq_none (by omega),
      Option.getD_none]

theorem blocks_pad (s : List Byte) : blocks (pad s) = (List.range ((s.length + 15) / 16)).map fun k =>
    ofBytesBE 128 (Vector.ofFn fun i : Fin 16 => s[16 * k + i.val]?.getD 0) := by
  rw [blocks, length_pad, Nat.mul_div_cancel_left _ (by decide)]
  refine List.map_congr_left fun k hk => congrArg (ofBytesBE 128) (Vector.ext fun i hi => ?_)
  have hk := List.mem_range.mp hk
  have hlt : 16 * k + i < (pad s).length := by
    rw [length_pad]
    omega
  rw [Vector.getElem_ofFn, Vector.getElem_ofFn, getElem!_pos (pad s) _ hlt, getElem_pad s hlt]

section Decryption

variable (ciph : BitVec 128 → BitVec 128)

theorem length_bytes (x : BitVec 128) : (bytes x).length = 16 := Vector.length_toList

theorem length_gctr (icb : BitVec 128) (x : List Byte) : (gctr ciph icb x).length = x.length := by
  induction hn : x.length using Nat.strong_induction_on generalizing icb x with
  | _ n ih =>
      rw [gctr]
      split_ifs with hpos
      · have hrest : (x.drop 16).length = n - 16 := by rw [List.length_drop, hn]
        rw [List.length_append, List.length_zipWith, List.length_take, length_bytes,
          ih (n - 16) (by omega) _ _ hrest]
        omega
      · rw [List.length_nil]
        omega

theorem gctr_nil (icb : BitVec 128) : gctr ciph icb [] = [] :=
  List.eq_nil_of_length_eq_zero (length_gctr ciph icb [])

/-- The first block of the output. -/
theorem take_gctr (icb : BitVec 128) (x : List Byte) :
    (gctr ciph icb x).take 16 = (x.take 16).zipWith (· ^^^ ·) (bytes (ciph icb)) := by
  have hfirst : ((x.take 16).zipWith (· ^^^ ·) (bytes (ciph icb))).length = min 16 x.length := by
    rw [List.length_zipWith, List.length_take, length_bytes]
    omega
  rw [gctr]
  split_ifs with hpos
  · by_cases hlong : 16 ≤ x.length
    · exact List.take_left' (by rw [hfirst, Nat.min_eq_left hlong])
    · rw [List.drop_eq_nil_of_le (by omega), gctr_nil, List.append_nil,
        List.take_of_length_le (by rw [hfirst]; omega)]
  · rw [List.eq_nil_of_length_eq_zero (by omega : x.length = 0)]
    rfl

theorem drop_gctr (icb : BitVec 128) (x : List Byte) :
    (gctr ciph icb x).drop 16 = gctr ciph (inc32 icb) (x.drop 16) := by
  by_cases hlong : 16 ≤ x.length
  · have hfirst : ((x.take 16).zipWith (· ^^^ ·) (bytes (ciph icb))).length = 16 := by
      rw [List.length_zipWith, List.length_take, length_bytes, Nat.min_eq_left hlong, Nat.min_self]
    rw [gctr, if_pos (by omega), List.drop_left' hfirst]
  · rw [List.drop_eq_nil_of_le (by rw [length_gctr]; omega), List.drop_eq_nil_of_le (by omega), gctr_nil]

/-- `GCTR` undoes itself, block by block. -/
theorem gctr_gctr (icb : BitVec 128) (x : List Byte) : gctr ciph icb (gctr ciph icb x) = x := by
  induction hn : x.length using Nat.strong_induction_on generalizing icb x with
  | _ n ih =>
      by_cases hpos : 0 < x.length
      · have hxor : ((x.take 16).zipWith (· ^^^ ·) (bytes (ciph icb))).zipWith (· ^^^ ·)
            (bytes (ciph icb)) = x.take 16 := by
          refine List.ext_getElem (by simp [length_bytes]) fun i h1 h2 => ?_
          rw [List.getElem_zipWith, List.getElem_zipWith, BitVec.xor_assoc, BitVec.xor_self,
            BitVec.xor_zero]
        have hrest := ih (x.drop 16).length (by rw [List.length_drop]; omega) (inc32 icb) (x.drop 16) rfl
        calc gctr ciph icb (gctr ciph icb x)
            = (gctr ciph icb (gctr ciph icb x)).take 16 ++ (gctr ciph icb (gctr ciph icb x)).drop 16 :=
              (List.take_append_drop 16 _).symm
          _ = x.take 16 ++ x.drop 16 := by rw [take_gctr, drop_gctr, take_gctr, drop_gctr, hxor, hrest]
          _ = x := List.take_append_drop 16 x
      · rw [List.eq_nil_of_length_eq_zero (by omega : x.length = 0), gctr_nil, gctr_nil]

/-- **A ciphertext is accepted if and only if it has been encrypted**: GCM-AD returns `p` on just
the ciphertext and tag that GCM-AE makes of `p`. -/
theorem gcmAD_iff_gcmAE (iv : Vector Byte 12) (p a c t : List Byte) :
    gcmAD ciph iv c a t = some p ↔ gcmAE ciph iv p a = some (c, t) := by
  have htag (s : BitVec 128) : (gctr ciph (j0 iv) (bytes s)).length = 16 := by
    rw [length_gctr, length_bytes]
  constructor
  · intro h
    rw [gcmAD, Option.ite_none_right_eq_some] at h
    obtain ⟨⟨hc, ha, -⟩, hrest⟩ := h
    obtain ⟨rfl, hp⟩ := (Option.ite_none_right_eq_some ..).mp hrest
    obtain rfl := Option.some.inj hp
    rw [gcmAE, if_pos ⟨by rwa [length_gctr], ha⟩]
    simp only [gctr_gctr]
  · intro h
    rw [gcmAE, Option.ite_none_right_eq_some] at h
    obtain ⟨⟨hp, ha⟩, hrest⟩ := h
    obtain ⟨rfl, rfl⟩ := Prod.mk.inj (Option.some.inj hrest)
    rw [gcmAD, if_pos ⟨by rwa [length_gctr], ha, htag _⟩, gctr_gctr, if_pos rfl]

end Decryption

end Sp80038d
