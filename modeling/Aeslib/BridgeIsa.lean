import Aeslib.BridgeFips197
import Aeslib.LibIsa

/-!
What the three hardware backends share. The tables of the instructions are the functions of the portable
backend, its rounds only see the schedule through 16-byte round keys, and the recurrence of
`expand_key` is spelled out for the two key sizes.
-/

namespace Aeslib

open Bytes

/-- The inverse of the affine map. -/
def invAffine (b : Byte) : Byte := rotl8 b 1 ^^^ rotl8 b 3 ^^^ rotl8 b 6 ^^^ 0x05

/-- The table, undone by the inverse affine map, holds the inverses of `GF(2^8)`. -/
theorem sbox_table_spec : ∀ b : Byte, Isa.sbox b = Fips197.affine (invAffine (Isa.sbox b)) ∧
    if b = 0 then invAffine (Isa.sbox b) = 0 else gmul (invAffine (Isa.sbox b)) b = 1 := by
  decide +kernel

theorem sbox_eq_ctSbox (b : Byte) : Isa.sbox b = ctSbox b := by
  obtain ⟨haffine, hinv⟩ := sbox_table_spec b
  have hfield : GF256.ofByte (invAffine (Isa.sbox b)) = (GF256.ofByte b)⁻¹ := by
    split_ifs at hinv with hb
    · rw [hinv, hb, GF256.ofByte_zero, inv_zero]
    · refine eq_inv_of_mul_eq_one_left ?_
      rw [← ofByte_gmul, hinv, GF256.ofByte_one]
  rw [ctSbox_eq_sbox, Fips197.sbox, ← hfield, Equiv.symm_apply_apply, ← haffine]

theorem xt2_eq_gmul : ∀ b : Byte, Isa.xt2 b = gmul b 2 := by decide +kernel

theorem xt3_eq_gmul : ∀ b : Byte, Isa.xt3 b = gmul b 3 := by decide +kernel

theorem isa_subBytes (s : State) : Isa.subBytes s = subBytes s := by
  rw [Isa.subBytes, subBytes, funext sbox_eq_ctSbox]

/-- A state from its entries. -/
theorem state_ext {s t : State} (h : ∀ i, ∀ hi : i < 16, s[i] = t[i]) : s = t := Vector.ext h

theorem isa_shiftRows (s : State) : Isa.shiftRows s = shiftRows s := by
  refine state_ext fun i hi => ?_
  simp only [shiftRows, Vector.getElem_ofFn]
  rw [getElem!_pos s _ (by omega)]
  interval_cases i <;> rfl

theorem isa_mixColumn (a b c d : Byte) : Isa.mixColumn a b c d = mixColumn a b c d := by
  refine Vector.ext fun i hi => ?_
  interval_cases i <;>
    simp only [Isa.mixColumn, mixColumn, Vector.getElem_mk, List.getElem_toArray, List.getElem_cons_zero,
      List.getElem_cons_succ, xt2_eq_gmul, xt3_eq_gmul]

theorem isa_mixColumns (s : State) : Isa.mixColumns s = mixColumns s := by
  simp only [Isa.mixColumns, mixColumns, isa_mixColumn, Nat.mul_comm 4]

/-- Substitution acts on every byte alike, so it may come before or after the permutation. -/
theorem subBytes_shiftRows (s : State) : subBytes (shiftRows s) = shiftRows (subBytes s) := by
  refine state_ext fun i hi => ?_
  have hidx : (i / 4 + i % 4) % 4 * 4 + i % 4 < 16 := by omega
  simp only [subBytes, shiftRows, Vector.getElem_map, Vector.getElem_ofFn]
  rw [getElem!_pos s _ hidx, getElem!_pos (s.map ctSbox) _ hidx, Vector.getElem_map]

/-- The 16 bytes that `add_round_key` reads for a round. -/
def roundKey {nr : Nat} (schedule : Schedule nr) (round : Nat) : State :=
  Vector.ofFn fun i => (schedule[round * kScheduleNb + i.val / 4]!)[i.val % 4]!

theorem addRoundKey_eq_xor {nr : Nat} (s : State) (schedule : Schedule nr) (round : Nat) :
    addRoundKey s schedule round = Isa.xorState s (roundKey schedule round) := by
  refine state_ext fun i hi => ?_
  simp [addRoundKey, roundKey, Isa.xorState]

/-- The cipher as a loop over a family of round keys. -/
theorem softRounds_succ {nr : Nat} (schedule : Schedule nr) (n : Nat) (s : State) :
    (List.range' 1 (n + 1)).foldl (softRound schedule) s =
      Isa.xorState (mixColumns (shiftRows (subBytes ((List.range' 1 n).foldl (softRound schedule) s))))
        (roundKey schedule (n + 1)) := by
  rw [List.range'_1_concat, List.foldl_append, List.foldl_cons, List.foldl_nil, softRound,
    addRoundKey_eq_xor, Nat.add_comm 1 n]

theorem aesEncryptBlockSoft_eq_xor (nk nr : Nat) (key : SecretKey) (block : Block) :
    aesEncryptBlockSoft nk nr key block =
      Isa.xorState (shiftRows (subBytes ((List.range' 1 (nr - 1)).foldl (softRound (expandKey nk nr key))
        (Isa.xorState block (roundKey (expandKey nk nr key) 0)))))
          (roundKey (expandKey nk nr key) nr) := by
  simp only [aesEncryptBlockSoft, addRoundKey_eq_xor]

/-- Word `i` of the schedule. -/
abbrev scheduleWord (nk nr : Nat) (key : SecretKey) (i : Nat) : Word := (expandKey nk nr key)[i]!

theorem getElem_scheduleXorWord (a b : Word) {j : Nat} (hj : j < 4) :
    (scheduleXorWord a b)[j] = a[j] ^^^ b[j] := by
  interval_cases j <;> rfl

theorem getElem_scheduleSubWord (w : Word) {j : Nat} (hj : j < 4) :
    (scheduleSubWord w)[j] = ctSbox w[j] := by
  rw [scheduleSubWord, Vector.getElem_map]

/-- The word that starts a group of `nk`: rotated, substituted and given its round constant. -/
theorem scheduleWord_first (nk nr g : Nat) (key : SecretKey) (hnk : 0 < nk)
    (hi : nk * (g + 1) < 4 * (nr + 1)) :
    scheduleWord nk nr key (nk * (g + 1)) =
      scheduleXorWord (scheduleWord nk nr key (nk * g))
        (scheduleXorWord (scheduleSubWord (scheduleRotWord (scheduleWord nk nr key (nk * (g + 1) - 1))))
          #v[kScheduleRcon[g + 1]!, 0, 0, 0]) := by
  have hle : nk ≤ nk * (g + 1) := Nat.le_mul_of_pos_right nk (Nat.succ_pos g)
  rw [scheduleWord, expandKey_ge hnk hle hi, expandKeyWord, if_pos (Nat.mul_mod_right nk (g + 1)),
    Nat.mul_div_cancel_left _ hnk,
    show nk * (g + 1) - nk = nk * g by rw [Nat.mul_succ, Nat.add_sub_cancel]]

/-- The middle word of a group of eight: substituted only. -/
theorem scheduleWord_middle (nr g : Nat) (key : SecretKey) (hi : 8 * (g + 1) + 4 < 4 * (nr + 1)) :
    scheduleWord 8 nr key (8 * (g + 1) + 4) =
      scheduleXorWord (scheduleWord 8 nr key (8 * g + 4))
        (scheduleSubWord (scheduleWord 8 nr key (8 * (g + 1) + 3))) := by
  rw [scheduleWord, expandKey_ge (by decide) (by omega) hi, expandKeyWord, if_neg (by omega),
    if_pos ⟨by decide, by omega⟩, show 8 * (g + 1) + 4 - 8 = 8 * g + 4 by omega,
    show 8 * (g + 1) + 4 - 1 = 8 * (g + 1) + 3 by omega]

/-- Any other word is added to its predecessor. -/
theorem scheduleWord_plain {nk nr i : Nat} {key : SecretKey} (hnk : 0 < nk) (hle : nk ≤ i)
    (hi : i < 4 * (nr + 1)) (hmod : i % nk ≠ 0) (hmid : ¬(nk > 6 ∧ i % nk = 4)) :
    scheduleWord nk nr key i =
      scheduleXorWord (scheduleWord nk nr key (i - nk)) (scheduleWord nk nr key (i - 1)) := by
  rw [scheduleWord, expandKey_ge hnk hle hi, expandKeyWord, if_neg hmod, if_neg hmid]

/-- Word `c` of a register, the least significant first. -/
def wordLE {w : Nat} (x : BitVec w) (c : Nat) : Word := Vector.ofFn fun j => byteLE x (4 * c + j.val)

section WordLE

variable {w : Nat}

@[simp] theorem getElem_wordLE (x : BitVec w) (c : Nat) {j : Nat} (hj : j < 4) :
    (wordLE x c)[j] = byteLE x (4 * c + j) := by simp [wordLE]

theorem wordLE_xor (x y : BitVec w) (c : Nat) :
    wordLE (x ^^^ y) c = scheduleXorWord (wordLE x c) (wordLE y c) := by
  refine Vector.ext fun j hj => ?_
  rw [getElem_scheduleXorWord _ _ hj, getElem_wordLE _ _ hj, getElem_wordLE _ _ hj,
    getElem_wordLE _ _ hj, byteLE_xor]

theorem wordLE_append_low {a b : Nat} (x : BitVec a) (y : BitVec b) {c : Nat} (hc : 32 * c + 32 ≤ b) :
    wordLE (x ++ y) c = wordLE y c := by
  refine Vector.ext fun j hj => ?_
  rw [getElem_wordLE _ _ hj, getElem_wordLE _ _ hj, byteLE_append_low _ _ (by omega)]

theorem wordLE_append_high {a b m : Nat} (x : BitVec a) (y : BitVec b) (hb : b = 32 * m) {c : Nat}
    (hc : m ≤ c) : wordLE (x ++ y) c = wordLE x (c - m) := by
  refine Vector.ext fun j hj => ?_
  rw [getElem_wordLE _ _ hj, getElem_wordLE _ _ hj,
    byteLE_append_high (m := 4 * m) _ _ (by omega) (by omega),
    show 4 * c + j - 4 * m = 4 * (c - m) + j by omega]

theorem wordLE_extractLsb' (x : BitVec w) (c : Nat) :
    wordLE (x.extractLsb' (32 * c) 32) 0 = wordLE x c := by
  refine Vector.ext fun j hj => ?_
  rw [getElem_wordLE _ _ hj, getElem_wordLE _ _ hj, show 32 * c = 8 * (4 * c) by omega,
    byteLE_extractLsb' _ (by omega), Nat.mul_zero, Nat.zero_add]

theorem wordLE_subWord (x : BitVec 32) : wordLE (Isa.subWord x) 0 = scheduleSubWord (wordLE x 0) := by
  refine Vector.ext fun j hj => ?_
  rw [getElem_scheduleSubWord _ hj, getElem_wordLE _ _ hj, getElem_wordLE _ _ hj, Isa.subWord,
    byteLE_ofBytesLE _ (by decide) (by omega), Vector.getElem_map, getElem_toBytesLE, sbox_eq_ctSbox]

/-- `RotWord` on a little-endian register. -/
theorem wordLE_rotateRight (x : BitVec 32) :
    wordLE (x.rotateRight 8) 0 = scheduleRotWord (wordLE x 0) := by
  have hbyte (i m : Nat) (hi : i < 4) (hm : m = (i + 1) % 4) :
      byteLE (x.rotateRight 8) i = byteLE x m := by
    apply BitVec.eq_of_getLsbD_eq
    intro k hk
    rw [getLsbD_byteLE, getLsbD_byteLE, BitVec.getLsbD_rotateRight, decide_eq_true hk, Bool.true_and,
      Bool.true_and]
    by_cases hlow : i = 3
    · rw [decide_eq_false (by omega), decide_eq_true (by omega), cond_false, Bool.true_and]
      exact congrArg _ (by omega)
    · rw [decide_eq_true (by omega), cond_true]
      exact congrArg _ (by omega)
  refine Vector.ext fun j hj => ?_
  rw [getElem_wordLE _ _ hj]
  interval_cases j
  · exact hbyte 0 1 (by decide) rfl
  · exact hbyte 1 2 (by decide) rfl
  · exact hbyte 2 3 (by decide) rfl
  · exact hbyte 3 0 (by decide) rfl

/-- A round constant sits in the first byte. -/
theorem wordLE_setWidth (b : Byte) : wordLE (b.setWidth 32) 0 = #v[b, 0, 0, 0] := by
  have hlow : byteLE (b.setWidth 32) 0 = b := by
    apply BitVec.eq_of_getLsbD_eq
    intro k hk
    rw [getLsbD_byteLE, BitVec.getLsbD_setWidth, decide_eq_true hk,
      decide_eq_true (by omega : 8 * 0 + k < 32), Bool.true_and, Bool.true_and, Nat.mul_zero,
      Nat.zero_add]
  have hhigh (i : Nat) (hi : 0 < i) : byteLE (b.setWidth 32) i = 0 := by
    apply BitVec.eq_of_getLsbD_eq
    intro k hk
    rw [getLsbD_byteLE, BitVec.getLsbD_setWidth, BitVec.getLsbD_of_ge b _ (by omega), Bool.and_false,
      Bool.and_false]
    exact BitVec.getLsbD_zero.symm
  refine Vector.ext fun j hj => ?_
  rw [getElem_wordLE _ _ hj]
  interval_cases j
  · exact hlow
  · exact hhigh 1 (by decide)
  · exact hhigh 2 (by decide)
  · exact hhigh 3 (by decide)

end WordLE

theorem scheduleXorWord_comm (a b : Word) : scheduleXorWord a b = scheduleXorWord b a := by
  refine Vector.ext fun j hj => ?_
  rw [getElem_scheduleXorWord _ _ hj, getElem_scheduleXorWord _ _ hj, BitVec.xor_comm]

theorem scheduleXorWord_assoc (a b c : Word) :
    scheduleXorWord (scheduleXorWord a b) c = scheduleXorWord a (scheduleXorWord b c) := by
  refine Vector.ext fun j hj => ?_
  rw [getElem_scheduleXorWord _ _ hj, getElem_scheduleXorWord _ _ hj, getElem_scheduleXorWord _ _ hj,
    getElem_scheduleXorWord _ _ hj, BitVec.xor_assoc]

instance : Std.Commutative scheduleXorWord := ⟨scheduleXorWord_comm⟩

instance : Std.Associative scheduleXorWord := ⟨scheduleXorWord_assoc⟩

theorem scheduleXorWord_zero (a : Word) : scheduleXorWord a #v[0, 0, 0, 0] = a := by
  refine Vector.ext fun j hj => ?_
  rw [getElem_scheduleXorWord _ _ hj]
  interval_cases j <;> exact BitVec.xor_zero

/-- Rotation permutes the bytes, so it commutes with the substitution. -/
theorem scheduleSubWord_rotWord (a : Word) :
    scheduleSubWord (scheduleRotWord a) = scheduleRotWord (scheduleSubWord a) := by
  refine Vector.ext fun j hj => ?_
  rw [getElem_scheduleSubWord _ hj]
  interval_cases j <;> simp [scheduleRotWord, scheduleSubWord]

/-- Round key `r` of the words `w` comes from round key `p`: its first word adds `temp`, every other word
adds the one before it. -/
structure RoundStep (w : Nat → Word) (p r : Nat) (temp : Word) : Prop where
  first : w (4 * r) = scheduleXorWord (w (4 * p)) temp
  next : ∀ c < 3, w (4 * r + c + 1) = scheduleXorWord (w (4 * p + c + 1)) (w (4 * r + c))

theorem roundStep_even (key : SecretKey) {g : Nat} (hg : g < 7) :
    RoundStep (scheduleWord 8 14 key) (2 * g) (2 * (g + 1))
      (scheduleXorWord (scheduleSubWord (scheduleRotWord (scheduleWord 8 14 key (4 * (2 * g + 1) + 3))))
        #v[kScheduleRcon[g + 1]!, 0, 0, 0]) where
  first := by
    have hrec := scheduleWord_first 8 14 g key (by decide) (by omega)
    rwa [show 8 * (g + 1) - 1 = 4 * (2 * g + 1) + 3 by omega,
      show 8 * (g + 1) = 4 * (2 * (g + 1)) by omega, show 8 * g = 4 * (2 * g) by omega] at hrec
  next c hc := by
    rw [scheduleWord_plain (by decide) (by omega) (by omega) (by omega) (by omega),
      show 4 * (2 * (g + 1)) + c + 1 - 8 = 4 * (2 * g) + c + 1 by omega, Nat.add_sub_cancel]

theorem roundStep_odd (key : SecretKey) {g : Nat} (hg : g < 6) :
    RoundStep (scheduleWord 8 14 key) (2 * g + 1) (2 * (g + 1) + 1)
      (scheduleSubWord (scheduleWord 8 14 key (4 * (2 * (g + 1)) + 3))) where
  first := by
    have hrec := scheduleWord_middle 14 g key (by omega)
    rwa [show 8 * (g + 1) + 4 = 4 * (2 * (g + 1) + 1) by omega,
      show 8 * g + 4 = 4 * (2 * g + 1) by omega,
      show 8 * (g + 1) + 3 = 4 * (2 * (g + 1)) + 3 by omega] at hrec
  next c hc := by
    rw [scheduleWord_plain (by decide) (by omega) (by omega) (by omega) (by omega),
      show 4 * (2 * (g + 1) + 1) + c + 1 - 8 = 4 * (2 * g + 1) + c + 1 by omega, Nat.add_sub_cancel]

theorem roundStep_128 (key : SecretKey) {g : Nat} (hg : g < 10) :
    RoundStep (scheduleWord 4 10 key) g (g + 1)
      (scheduleXorWord (scheduleSubWord (scheduleRotWord (scheduleWord 4 10 key (4 * g + 3))))
        #v[kScheduleRcon[g + 1]!, 0, 0, 0]) where
  first := by
    have hrec := scheduleWord_first 4 10 g key (by decide) (by omega)
    rwa [show 4 * (g + 1) - 1 = 4 * g + 3 by omega] at hrec
  next c hc := by
    rw [scheduleWord_plain (by decide) (by omega) (by omega) (by omega) (by omega),
      show 4 * (g + 1) + c + 1 - 4 = 4 * g + c + 1 by omega, Nat.add_sub_cancel]

/-- The 16 key bytes from `16 r` on are round key `r`. -/
theorem scheduleWord_key {nk nr r c j : Nat} (key : SecretKey) (hr : 4 * r + 4 ≤ nk)
    (hnr : nk ≤ 4 * (nr + 1)) (hc : c < 4) (hj : j < 4) :
    (scheduleWord nk nr key (4 * r + c))[j] = (keyBytes key)[16 * r + (4 * c + j)]! := by
  rw [scheduleWord, expandKey_lt (by omega) (by simp only [kScheduleNb]; omega)]
  interval_cases j <;>
    simp only [Vector.getElem_mk, List.getElem_toArray, List.getElem_cons_zero,
      List.getElem_cons_succ] <;>
    exact congrArg (fun n => (keyBytes key)[n]!) (by omega)

/-- Byte `4 c + j` of a round key is byte `j` of its word `c`. -/
theorem getElem_roundKey (nk nr r : Nat) (key : SecretKey) {i : Nat} (hi : i < 16) (hj : i % 4 < 4) :
    (roundKey (expandKey nk nr key) r)[i] = (scheduleWord nk nr key (4 * r + i / 4))[i % 4] := by
  rw [roundKey, Vector.getElem_ofFn, Nat.mul_comm r kScheduleNb]
  exact getElem!_pos (scheduleWord nk nr key (4 * r + i / 4)) _ hj

end Aeslib
