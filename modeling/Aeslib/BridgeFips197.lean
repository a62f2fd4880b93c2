import Aeslib.AesSoft
import Aeslib.StandardFips197

/-!
The portable backend computes FIPS 197. The square-and-multiply chain is inversion in `GF(2^8)`, the
masked multiplier is its product, and the loop of `expand_key` satisfies the recurrence of the key
schedule.
-/

namespace Aeslib

open BinaryField

theorem and_mask (a c : Byte) : a &&& -(c &&& 1) = if c.getLsbD 0 then a else 0 := by
  have hbit : ∀ c : Byte, -(c &&& 1) = if c.getLsbD 0 then BitVec.allOnes 8 else 0 := by decide
  rw [hbit]
  split_ifs
  · exact BitVec.and_allOnes
  · exact BitVec.and_zero

theorem getLsbD_xtime :
    ∀ b : Byte, ∀ i < 8, (xtime b).getLsbD i =
      ((decide (0 < i) && b.getLsbD (i - 1)) ^^ (b.getLsbD 7 && Nat.testBit 0x1b i)) := by
  decide +kernel

theorem ofByte_xtime (a : Byte) :
    GF256.ofByte (xtime a) = AdjoinRoot.root gf256Modulus * GF256.ofByte a := by
  rw [GF256.ofByte_apply, GF256.ofByte_apply, root_mul_cls, cls_congr (getLsbD_xtime a), cls_xor]
  congr 1
  split_ifs with h
  · rw [GF256.root_pow_eight]
    exact cls_congr fun i _ => by rw [h, Bool.true_and]
  · rw [← cls_false (n := 8)]
    exact cls_congr fun i _ => by rw [(Bool.not_eq_true _).mp h, Bool.false_and]

/-- The masked multiplier is multiplication in `GF(2^8)`. -/
theorem ofByte_gmul (a b : Byte) :
    GF256.ofByte (gmul a b) = GF256.ofByte a * GF256.ofByte b := by
  have h := foldl_shiftAdd (fun s (_ : ℕ) => gmulStep s) (fun k s => s.2.2 = b >>> k)
    (fun s => GF256.ofByte s.1) (fun s => GF256.ofByte s.2.1) (AdjoinRoot.root gf256Modulus)
    b.getLsbD 8 (fun k _ s hs => ⟨?_, ?_, ofByte_xtime s.2.1⟩) (0, a, b) (by simp)
  · rw [gmul, h, GF256.ofByte_zero, zero_add, mul_comm]
    rfl
  · simp only [gmulStep, hs, BitVec.shiftRight_add]
  · simp only [gmulStep, GF256.ofByte_xor, and_mask, hs, BitVec.getLsbD_ushiftRight, add_zero]
    split_ifs
    · rfl
    · rw [GF256.ofByte_zero]

theorem ofByte_gf256InvStep (x result : Byte) (bit : ℕ) :
    GF256.ofByte (gf256InvStep x result bit) =
      GF256.ofByte result ^ 2 * (if 254 >>> bit &&& 1 ≠ 0 then GF256.ofByte x else 1) := by
  simp only [gf256InvStep]
  split_ifs
  · rw [ofByte_gmul, ofByte_gmul, sq]
  · rw [ofByte_gmul, sq, mul_one]

/-- The square-and-multiply chain is inversion, with `0` sent to itself. -/
theorem ofByte_gf256Inv (x : Byte) : GF256.ofByte (gf256Inv x) = (GF256.ofByte x)⁻¹ := by
  have hchain : GF256.ofByte (gf256Inv x) = GF256.ofByte x ^ 254 := by
    rw [gf256Inv]
    simp +decide only [List.foldl_cons, List.foldl_nil, ofByte_gf256InvStep, ite_true, ite_false]
    rw [GF256.ofByte_one]
    ring
  rw [hchain, GF256.pow_254]

theorem rotl8_sum_eq_affine :
    ∀ v : Byte, v ^^^ rotl8 v 1 ^^^ rotl8 v 2 ^^^ rotl8 v 3 ^^^ rotl8 v 4 ^^^ 0x63 =
    Fips197.affine v := by
  decide +kernel

theorem ctSbox_eq_sbox (x : Byte) : ctSbox x = Fips197.sbox x := by
  rw [ctSbox, rotl8_sum_eq_affine, Fips197.sbox, ← ofByte_gf256Inv, Equiv.symm_apply_apply]

theorem ofByte_two : GF256.ofByte 2#8 = Fips197.x :=
  (GF256.ofByte_two_pow (k := 1) (by decide)).trans (pow_one _)

theorem ofByte_three : GF256.ofByte 3#8 = Fips197.x + 1 := by
  rw [← ofByte_two, ← GF256.ofByte_one, ← GF256.ofByte_xor]
  rfl

theorem ofBytes_subBytes (s : State) :
    Fips197.ofBytes (subBytes s) = Fips197.subBytes (Fips197.ofBytes s) := by
  funext r c
  simp only [Fips197.ofBytes, Fips197.subBytes, subBytes, Vector.getElem_map, ctSbox_eq_sbox]

theorem ofBytes_shiftRows (s : State) :
    Fips197.ofBytes (shiftRows s) = Fips197.shiftRows (Fips197.ofBytes s) := by
  funext r c
  have hr := r.isLt
  have hc := c.isLt
  have hidx : ((r.val + 4 * c.val) / 4 + (r.val + 4 * c.val) % 4) % 4 * 4 + (r.val + 4 * c.val) % 4 =
      r.val + 4 * (c + r).val := by
    rw [Fin.val_add]
    omega
  simp only [Fips197.ofBytes, Fips197.shiftRows, shiftRows, Vector.getElem_ofFn, hidx]
  exact getElem!_pos s _ _

theorem ofByte_mixColumn (a0 a1 a2 a3 : Byte) (r : Fin 4) :
    GF256.ofByte (mixColumn a0 a1 a2 a3)[r] =
      Fips197.mixMatrix.mulVec (fun k => GF256.ofByte (#v[a0, a1, a2, a3] : Word)[k]) r := by
  fin_cases r <;>
    simp [mixColumn, Fips197.mixMatrix, Matrix.mulVec, dotProduct, Fin.sum_univ_four,
      GF256.ofByte_xor, ofByte_gmul, ofByte_two, ofByte_three] <;> ring

theorem ofBytes_mixColumns (s : State) :
    Fips197.ofBytes (mixColumns s) = Fips197.mixColumns (Fips197.ofBytes s) := by
  funext r c
  have hr := r.isLt
  have hc := c.isLt
  have hget (k : Fin 4) : s[c.val * 4 + k.val]! = Fips197.ofBytes s k c := by
    rw [getElem!_pos s _ (by omega), Fips197.ofBytes_apply]
    congr 1
    omega
  have h0 : s[c.val * 4]! = Fips197.ofBytes s 0 c := hget 0
  have h1 : s[c.val * 4 + 1]! = Fips197.ofBytes s 1 c := hget 1
  have h2 : s[c.val * 4 + 2]! = Fips197.ofBytes s 2 c := hget 2
  have h3 : s[c.val * 4 + 3]! = Fips197.ofBytes s 3 c := hget 3
  have hcol : (mixColumns s)[r.val + 4 * c.val] =
      (mixColumn (Fips197.ofBytes s 0 c) (Fips197.ofBytes s 1 c) (Fips197.ofBytes s 2 c)
        (Fips197.ofBytes s 3 c))[r] := by
    simp only [mixColumns, Vector.getElem_ofFn, show (r.val + 4 * c.val) / 4 = c.val by omega,
      show (r.val + 4 * c.val) % 4 = r.val by omega, h0, h1, h2, h3]
    exact getElem!_pos (mixColumn _ _ _ _) _ hr
  rw [Fips197.mixColumns, Equiv.eq_symm_apply, Fips197.ofBytes_apply, hcol, ofByte_mixColumn]
  congr 1
  funext k
  fin_cases k <;> rfl

theorem ofBytes_addRoundKey {nr : ℕ} (schedule : Schedule nr) (w : ℕ → Fips197.Word) (round : ℕ)
    (hw : ∀ c : Fin 4, (fun r : Fin 4 => (schedule[4 * round + c.val]!)[r]) = w (4 * round + c))
    (s : State) :
    Fips197.ofBytes (addRoundKey s schedule round) = Fips197.addRoundKey w round
      (Fips197.ofBytes s) := by
  funext r c
  have hr := r.isLt
  have hc := c.isLt
  have hword := congrFun (hw c) r
  simp only [Fips197.ofBytes_apply, Fips197.addRoundKey, addRoundKey, Vector.getElem_ofFn, ← hword]
  simp only [show (r.val + 4 * c.val) / 4 = c.val by omega,
    show (r.val + 4 * c.val) % 4 = r.val by omega, Nat.mul_comm round]
  rw [getElem!_pos (schedule[4 * round + c.val]!) _ hr]
  rfl

/-- A word of the schedule as a word of the standard. -/
def stdWord (w : Word) : Fips197.Word := fun r => w[r]

theorem stdWord_xor (a b : Word) :
    stdWord (scheduleXorWord a b) = Fips197.xorWord (stdWord a) (stdWord b) := by
  funext r
  fin_cases r <;> rfl

theorem stdWord_sub (w : Word) : stdWord (scheduleSubWord w) = Fips197.subWord (stdWord w) := by
  funext r
  simp only [stdWord, scheduleSubWord, Fips197.subWord, Fin.getElem_fin, Vector.getElem_map,
    ctSbox_eq_sbox]

theorem stdWord_rot (w : Word) : stdWord (scheduleRotWord w) = Fips197.rotWord (stdWord w) := by
  funext r
  fin_cases r <;> rfl

/-- The table of round constants holds the powers of `x`. -/
theorem stdWord_rcon {j : ℕ} (h1 : 1 ≤ j) (h10 : j ≤ 10) :
    stdWord #v[kScheduleRcon[j]!, 0, 0, 0] = Fips197.rcon j := by
  have hpow : ∀ k ≤ 9, GF256.ofByte kScheduleRcon[k + 1]! = Fips197.x ^ k := by
    intro k
    induction k with
    | zero => intro _; rw [pow_zero, ← GF256.ofByte_one]; rfl
    | succ k ih =>
        intro hk
        have hstep : ∀ k < 9, kScheduleRcon[k + 1 + 1]! = xtime kScheduleRcon[k + 1]! := by decide
        rw [hstep k (by omega), ofByte_xtime, ih (by omega), pow_succ']
  obtain ⟨k, rfl⟩ : ∃ k, j = k + 1 := ⟨j - 1, by omega⟩
  funext r
  fin_cases r
  · show kScheduleRcon[k + 1]! = GF256.ofByte.symm (Fips197.x ^ (k + 1 - 1))
    rw [Nat.add_sub_cancel, ← hpow k (by omega), Equiv.symm_apply_apply]
  all_goals rfl

theorem expandKey_eq_keyExpansion {nk nr : ℕ} (hnk : 0 < nk) (hkey : 4 * nk ≤ 32)
    (hrcon : kScheduleNb * (nr + 1) ≤ 11 * nk) (key : SecretKey) (k : ℕ → Byte)
    (hk : ∀ j, ∀ hj : j < 4 * nk, k j = (keyBytes key)[j]) :
    ∀ i < kScheduleNb * (nr + 1),
      stdWord (expandKey nk nr key)[i]! = Fips197.keyExpansion nk k i := by
  intro i
  induction i using Nat.strongRecOn with
  | ind i ih =>
      intro hi
      by_cases hlt : i < nk
      · rw [expandKey_lt hlt hi, Fips197.keyExpansion_lt k hlt]
        funext r
        rw [hk _ (by omega)]
        fin_cases r
        · exact getElem!_pos (keyBytes key) (4 * i) (by omega)
        · exact getElem!_pos (keyBytes key) (4 * i + 1) (by omega)
        · exact getElem!_pos (keyBytes key) (4 * i + 2) (by omega)
        · exact getElem!_pos (keyBytes key) (4 * i + 3) (by omega)
      · have hge : nk ≤ i := not_lt.mp hlt
        rw [expandKey_ge hnk hge hi, Fips197.keyExpansion_ge k hnk hge, expandKeyWord, stdWord_xor,
          ih (i - nk) (by omega) (by omega)]
        congr 1
        rw [← ih (i - 1) (by omega) (by omega), Fips197.scheduleTemp]
        split_ifs with h1 h2
        · rw [stdWord_xor, stdWord_sub, stdWord_rot, stdWord_rcon]
          · exact Nat.div_pos hge hnk
          · have : i / nk < 11 := Nat.div_lt_of_lt_mul (by omega)
            omega
        · rw [stdWord_sub]
        · rfl

/-- The software loop is the standard's, for any parameters whose key fits the storage and whose round
constants fit the table. -/
theorem aesEncryptBlockSoft_eq {nk nr : ℕ} (hnk : 0 < nk) (hkey : 4 * nk ≤ 32)
    (hrcon : kScheduleNb * (nr + 1) ≤ 11 * nk) (key : SecretKey) (block : Block) (k : ℕ → Byte)
    (hk : ∀ j, ∀ hj : j < 4 * nk, k j = (keyBytes key)[j]) :
    aesEncryptBlockSoft nk nr key block = Fips197.encrypt nk nr k block := by
  have hround : ∀ round ≤ nr, ∀ s, Fips197.ofBytes (addRoundKey s (expandKey nk nr key) round) =
      Fips197.addRoundKey (Fips197.keyExpansion nk k) round (Fips197.ofBytes s) := by
    intro round hround s
    refine ofBytes_addRoundKey _ _ _ (fun c => ?_) s
    have hc := c.isLt
    exact expandKey_eq_keyExpansion hnk hkey hrcon key k hk _ (by simp only [kScheduleNb]; omega)
  have hmiddle : ∀ n ≤ nr - 1, ∀ s,
      Fips197.ofBytes ((List.range' 1 n).foldl (softRound (expandKey nk nr key)) s) =
        Fips197.middleRounds (Fips197.keyExpansion nk k) n (Fips197.ofBytes s) := by
    intro n
    induction n with
    | zero => intro _ s; rfl
    | succ n ih =>
        intro hn s
        rw [List.range'_1_concat, List.foldl_append, List.foldl_cons, List.foldl_nil, softRound,
          hround _ (by omega), ofBytes_mixColumns, ofBytes_shiftRows, ofBytes_subBytes, ih (by omega),
          Fips197.middleRounds, Nat.add_comm 1 n]
  rw [← Fips197.toBytes_ofBytes (aesEncryptBlockSoft nk nr key block), Fips197.encrypt, Fips197.cipher,
    aesEncryptBlockSoft, hround nr le_rfl, ofBytes_shiftRows, ofBytes_subBytes, hmiddle _ le_rfl,
    hround 0 (Nat.zero_le _)]

theorem aes128EncryptBlockSoft_eq (key : SecretKey) (block : Block) : aes128EncryptBlockSoft key block =
    Fips197.encrypt 4 10 (fun j => ((keyBytes key).toList.take 16)[j]!) block := by
  refine aesEncryptBlockSoft_eq (by decide) (by decide) (by decide) key block _ fun j hj => ?_
  have hlen : j < ((keyBytes key).toList.take 16).length := by simp; omega
  rw [getElem!_pos ((keyBytes key).toList.take 16) j hlen]
  simp

theorem aes256EncryptBlockSoft_eq (key : SecretKey) (block : Block) : aes256EncryptBlockSoft key block =
    Fips197.encrypt 8 14 (fun j => (keyBytes key).toList[j]!) block := by
  refine aesEncryptBlockSoft_eq (by decide) (by decide) (by decide) key block _ fun j hj => ?_
  have hlen : j < (keyBytes key).toList.length := by simp; omega
  rw [getElem!_pos (keyBytes key).toList j hlen]
  simp

/-- **The software path is FIPS 197**: AES-128 under the first 16 key bytes, AES-256 under all 32. -/
theorem aesEncryptBlockSoft_fips197 (key : SecretKey) (block : Block) :
    aes128EncryptBlockSoft key block =
        Fips197.encrypt 4 10 (fun j => ((keyBytes key).toList.take 16)[j]!) block ∧
      aes256EncryptBlockSoft key block =
        Fips197.encrypt 8 14 (fun j => (keyBytes key).toList[j]!) block :=
  ⟨aes128EncryptBlockSoft_eq key block, aes256EncryptBlockSoft_eq key block⟩

end Aeslib
