import Aeslib.Sha256
import Aeslib.StandardFips180

/-!
`sha256` is SHA-256. The schedule and the rounds are those of the standard; the incremental loop
with its 64-byte buffer compresses the blocks of the padded message, since the two fills of the
finalisation store the same bytes as the loop would.
-/

namespace Aeslib

open Bytes Fill

def firstPrimes : Vector Nat 64 := #v[
  2, 3, 5, 7, 11, 13, 17, 19, 23, 29, 31, 37, 41, 43, 47, 53, 59, 61, 67, 71, 73, 79, 83, 89, 97,
  101, 103, 107, 109, 113, 127, 131, 137, 139, 149, 151, 157, 163, 167, 173, 179, 181, 191, 193,
  197, 199, 211, 223, 227, 229, 233, 239, 241, 251, 257, 263, 269, 271, 277, 281, 283, 293, 307, 311]

/-- Up to 323 the divisors below 18 decide. -/
theorem prime_iff_small {p : Nat} (hp : p < 324) :
    p.Prime ↔ 2 ≤ p ∧ ∀ m < 18, 2 ≤ m → m * m ≤ p → ¬m ∣ p := by
  rw [Nat.prime_def_le_sqrt]
  refine and_congr_right fun _ =>
    ⟨fun h m _ hm hle => h m hm (Nat.le_sqrt.mpr hle), fun h m hm hle => ?_⟩
  have hsq := Nat.le_sqrt.mp hle
  exact h m (by nlinarith) hm hsq

theorem firstPrimes_prime {t : Nat} (ht : t < 64) : firstPrimes[t].Prime := by
  have htable : ∀ t : Fin 64, firstPrimes.get t < 324 ∧ 2 ≤ firstPrimes.get t ∧
      ∀ m < 18, 2 ≤ m → m * m ≤ firstPrimes.get t → ¬m ∣ firstPrimes.get t := by decide +kernel
  exact (prime_iff_small (htable ⟨t, ht⟩).1).mpr (htable ⟨t, ht⟩).2

theorem firstPrimes_gap (t : Fin 63) : firstPrimes[t.val] < firstPrimes[t.val + 1] ∧
    ∀ k < firstPrimes[t.val + 1] - firstPrimes[t.val], 0 < k → ¬(firstPrimes[t.val] + k).Prime := by
  have htable : ∀ t : Fin 63, firstPrimes[t.val] < firstPrimes[t.val + 1] ∧
      firstPrimes[t.val + 1] < 324 ∧
      ∀ k < firstPrimes[t.val + 1] - firstPrimes[t.val], 0 < k →
        ∃ m < 18, 2 ≤ m ∧ m * m ≤ firstPrimes[t.val] + k ∧ m ∣ firstPrimes[t.val] + k := by
        decide +kernel
  obtain ⟨hlt, hle, hgap⟩ := htable t
  refine ⟨hlt, fun k hk hpos hprime => ?_⟩
  obtain ⟨m, hm, hm2, hsq, hdvd⟩ := hgap k hk hpos
  exact ((prime_iff_small (by omega)).mp hprime).2 m hm hm2 hsq hdvd

theorem count_firstPrimes {t : Nat} (ht : t < 64) : Nat.count Nat.Prime firstPrimes[t] = t := by
  induction t with
  | zero => exact Nat.count_iff_forall_not.mpr fun m hm hprime =>
      absurd hprime.two_le (Nat.not_le.mpr hm)
  | succ t ih =>
      obtain ⟨hlt, hgap⟩ : firstPrimes[t] < firstPrimes[t + 1] ∧
          ∀ k < firstPrimes[t + 1] - firstPrimes[t], 0 < k → ¬(firstPrimes[t] + k).Prime :=
          firstPrimes_gap ⟨t, by omega⟩
      have hprime : (firstPrimes[t] + 0).Prime := firstPrimes_prime (by omega)
      obtain ⟨g, hg⟩ : ∃ g, firstPrimes[t + 1] - firstPrimes[t] = g + 1 :=
        ⟨firstPrimes[t + 1] - firstPrimes[t] - 1, by omega⟩
      have hnone : Nat.count (fun k => Nat.Prime (firstPrimes[t] + (k + 1))) g = 0 :=
        Nat.count_iff_forall_not.mpr fun k hk => hgap (k + 1) (by omega) (Nat.succ_pos k)
      have hadd := Nat.count_add Nat.Prime firstPrimes[t] (firstPrimes[t + 1] - firstPrimes[t])
      rw [Nat.add_sub_cancel' hlt.le, ih (by omega), hg, Nat.count_succ', hnone, if_pos hprime] at hadd
      exact hadd

theorem nth_prime {t : Nat} (ht : t < 64) : Nat.nth Nat.Prime t = firstPrimes[t] := by
  have hnth := Nat.nth_count (firstPrimes_prime ht)
  rwa [count_firstPrimes ht] at hnth

theorem kSha256K_roots {t : Nat} (ht : t < 64) :
    kSha256K[t] = BitVec.ofNat 32 (Nat.nthRoot 3 (firstPrimes[t] * 2 ^ 96)) := by
  have hroots : ∀ t : Fin 64,
      kSha256K.get t = BitVec.ofNat 32 (Nat.nthRoot 3 (firstPrimes.get t * 2 ^ 96)) := by
    decide +kernel
  exact hroots ⟨t, ht⟩

theorem kSha256K_eq {t : Nat} (ht : t < 64) : kSha256K[t]! = Fips180.K t := by
  have hroot := kSha256K_roots ht
  rw [getElem!_pos kSha256K t ht, Fips180.K, nth_prime ht]
  exact hroot

theorem sha256Init_h : sha256Init.h = Fips180.initialHash := by
  have hroots : ∀ i : Fin 8,
      sha256Init.h[i] = BitVec.ofNat 32 (Nat.sqrt (firstPrimes[i.val] * 2 ^ 64)) := by
    decide +kernel
  refine Vector.ext fun i hi => ?_
  have hroot := hroots ⟨i, hi⟩
  rw [Fips180.initialHash, Vector.getElem_ofFn, nth_prime (by omega)]
  exact hroot

theorem ch_eq (x y z : BitVec 32) : ch x y z = Fips180.Ch x y z := rfl

theorem maj_eq (x y z : BitVec 32) : maj x y z = Fips180.Maj x y z := rfl

theorem sigma0_eq (x : BitVec 32) : sigma0 x = Fips180.bigSigma0 x := rfl

theorem sigma1_eq (x : BitVec 32) : sigma1 x = Fips180.bigSigma1 x := rfl

theorem gamma0_eq (x : BitVec 32) : gamma0 x = Fips180.smallSigma0 x := rfl

theorem gamma1_eq (x : BitVec 32) : gamma1 x = Fips180.smallSigma1 x := rfl

/-- The block as one register. -/
def blockReg (b : Vector Byte 64) : BitVec 512 := ofBytesBE 512 b

theorem beToU32_eq (b : Vector Byte 64) {t : Nat} (ht : t < 16) :
    beToU32 b (t * 4) = (blockReg b).extractLsb' (32 * (15 - t)) 32 := by
  apply BitVec.eq_of_getMsbD_eq
  intro i hi
  have hbit : 32 * (15 - t) + (32 - 1 - i) = 512 - 1 - (32 * t + i) := by omega
  have hlt : 32 * t + i < 512 := by omega
  have hdiv : (32 * t + i) / 8 = t * 4 + i / 8 := by omega
  have hmod : (32 * t + i) % 8 = i % 8 := by omega
  have hreg := getMsbD_ofBytesBE b hlt
  rw [BitVec.getMsbD_eq_getLsbD, decide_eq_true hlt, Bool.true_and, hdiv, hmod] at hreg
  rw [BitVec.getMsbD_eq_getLsbD (x := (blockReg b).extractLsb' _ _), decide_eq_true hi, Bool.true_and,
    BitVec.getLsbD_extractLsb', decide_eq_true (by omega : 32 - 1 - i < 32), Bool.true_and, hbit,
    blockReg, hreg, beToU32, getMsbD_ofBytesBE _ hi, getElem!_pos (Vector.ofFn _) _ (by omega),
    Vector.getElem_ofFn]

/-- The array after the first loop. -/
def messageWords (b : Vector Byte 64) : Vector (BitVec 32) 64 :=
  fill (fun _ i => beToU32 b (i * 4)) 0 16 (Vector.replicate 64 0)

/-- One entry of the second loop. -/
def extendWord (w : Vector (BitVec 32) 64) (i : Nat) : BitVec 32 :=
  gamma1 w[i - 2]! + w[i - 7]! + gamma0 w[i - 15]! + w[i - 16]!

theorem messageWords_eq (b : Vector Byte 64) {t : Nat} (ht : t < 16) :
    (messageWords b)[t]! = (blockReg b).extractLsb' (32 * (15 - t)) 32 := by
  have hentry := fill_entry (fun _ i => beToU32 b (i * 4)) 0 (Vector.replicate 64 (0 : BitVec 32))
    ht (by omega)
  rw [Nat.zero_add] at hentry
  rw [messageWords, hentry, beToU32_eq b ht]

/-- The first fill is the message, and each entry of the second one the recurrence on the entries
before it. -/
theorem messageSchedule_eq (b : Vector Byte 64) {t : Nat} (ht : t < 64) :
    (messageSchedule b)[t]! = Fips180.W (blockReg b) t := by
  have hschedule : messageSchedule b = fill extendWord 16 48 (messageWords b) := rfl
  rw [hschedule]
  induction t using Nat.strong_induction_on with
  | _ t ih =>
      rw [Fips180.W]
      split_ifs with h16
      · rw [fill_of_lt extendWord 16 (m := 0) (messageWords b) h16 (Nat.zero_le 48), fill,
          List.range'_zero, List.foldl_nil, messageWords_eq b h16]
      · obtain ⟨m, rfl⟩ : ∃ m, t = 16 + m := ⟨t - 16, by omega⟩
        have hbefore {j : Nat} (hj : j < 16 + m) :
            (fill extendWord 16 m (messageWords b))[j]! = Fips180.W (blockReg b) j := by
          rw [← fill_of_lt extendWord 16 (messageWords b) hj (show m ≤ 48 by omega)]
          exact ih j hj (by omega)
        rw [fill_entry extendWord 16 (messageWords b) (show m < 48 by omega) ht, extendWord,
          hbefore (by omega), hbefore (by omega), hbefore (by omega), hbefore (by omega), gamma0_eq,
          gamma1_eq]

/-- The working variables as a vector. -/
def Working.toVector (s : Working) : Vector (BitVec 32) 8 := #v[s.a, s.b, s.c, s.d, s.e, s.f, s.g, s.h]

theorem compressRound_eq (b : Vector Byte 64) (s : Working) {t : Nat} (ht : t < 64) :
    (compressRound (messageSchedule b) s t).toVector = Fips180.step (blockReg b) s.toVector t := by
  simp only [compressRound, kSha256K_eq ht, messageSchedule_eq b ht, ch_eq, maj_eq, sigma0_eq, sigma1_eq]
  rfl

/-- The sum at the end of a block. -/
theorem addWorking_eq (h : HashValues) (s : Working) :
    #v[h.get 0 + s.a, h.get 1 + s.b, h.get 2 + s.c, h.get 3 + s.d, h.get 4 + s.e, h.get 5 + s.f,
      h.get 6 + s.g,
        h.get 7 + s.h] =
      Vector.zipWith (· + ·) h s.toVector := by
  refine Vector.ext fun i hi => ?_
  rw [Vector.getElem_zipWith]
  interval_cases i <;> rfl

theorem processBlock_eq (h : HashValues) (b : Vector Byte 64) :
    processBlock h b = Fips180.compress h (blockReg b) := by
  have hrounds (n : Nat) (hn : n ≤ 64) (s : Working) :
      ((List.range n).foldl (compressRound (messageSchedule b)) s).toVector =
        (List.range n).foldl (Fips180.step (blockReg b)) s.toVector := by
    induction n with
    | zero => rfl
    | succ n ih =>
        rw [List.range_succ, List.foldl_append, List.foldl_append, ← ih (by omega)]
        exact compressRound_eq b _ (by omega)
  have hstart : Working.toVector
      { a := h[0], b := h[1], c := h[2], d := h[3], e := h[4], f := h[5], g := h[6], h := h[7] } =
      h := by
    refine Vector.ext fun i hi => ?_
    interval_cases i <;> rfl
  rw [Fips180.compress, ← hstart, ← hrounds 64 le_rfl, hstart]
  exact addWorking_eq h _

theorem storeBytes_zeros (block : Vector Byte 64) (first len : Nat) :
    storeBytes block first (List.replicate len 0) = zeroRange block first (first + len) := by
  refine Vector.ext fun i hi => ?_
  rw [getElem_storeBytes _ _ _ hi, zeroRange, Vector.getElem_ofFn]
  by_cases hin : first ≤ i ∧ i < first + len
  · rw [if_pos hin, if_pos hin.1, List.getElem?_replicate, if_pos (by omega), Option.getD_some]
  · rw [if_neg hin]
    split_ifs with h
    · rw [List.getElem?_eq_none (by rw [List.length_replicate]; omega), Option.getD_none]
      rfl
    · rfl

theorem storeBytes_length (block : Vector Byte 64) (ml : BitVec 64) :
    storeBytes block 56 (toBytesBE 8 ml).toList = putLength block ml := by
  refine Vector.ext fun i hi => ?_
  rw [getElem_storeBytes _ _ _ hi, putLength, Vector.getElem_ofFn]
  split_ifs with h
  · have hidx : 8 - 1 - (i - 56) = 63 - i := by omega
    rw [List.getElem?_eq_getElem (by rw [Vector.length_toList]; omega), Option.getD_some,
      Vector.getElem_toList]
    simp [toBytesBE, hidx]
  · rfl

/-- The fill of the buffer: no index reaches 64. -/
theorem blockLen_foldl (data : List Byte) {s : Sha256State} (hs : s.blockLen < 64) :
    (data.foldl sha256Byte s).blockLen = (s.blockLen + data.length) % 64 := by
  induction data generalizing s with
  | nil => exact (Nat.mod_eq_of_lt hs).symm
  | cons b data ih =>
      have hnext : (sha256Byte s b).blockLen = (s.blockLen + 1) % 64 := by
        simp only [sha256Byte]
        split_ifs with h
        · rw [h]
        · simp only
          omega
      rw [List.foldl_cons, ih (by omega), hnext, List.length_cons]
      omega

/-- Bytes that do not fill the block. -/
theorem foldl_sha256Byte_store (data : List Byte) {s : Sha256State} (h : s.blockLen + data.length < 64) :
    data.foldl sha256Byte s =
      { s with block := storeBytes s.block s.blockLen data, blockLen := s.blockLen + data.length } := by
  induction data generalizing s with
  | nil => rw [storeBytes_nil]; rfl
  | cons b data ih =>
      rw [List.length_cons] at h
      have hbyte : sha256Byte s b =
          { s with block := s.block.setIfInBounds s.blockLen b, blockLen := s.blockLen + 1 } :=
        if_neg (by omega)
      rw [List.foldl_cons, hbyte, ih (by simp only; omega), storeBytes_cons]
      simp only [List.length_cons, Sha256State.mk.injEq, true_and]
      omega

/-- Bytes that fill it. -/
theorem foldl_sha256Byte_fill (data : List Byte) {s : Sha256State} (hs : s.blockLen < 64)
    (h : s.blockLen + data.length = 64) :
    data.foldl sha256Byte s = {
      h := processBlock s.h (storeBytes s.block s.blockLen data)
      block := storeBytes s.block s.blockLen data
      blockLen := 0 } := by
  rcases data.eq_nil_or_concat' with rfl | ⟨init, last, rfl⟩
  · rw [List.length_nil] at h
    omega
  · rw [List.length_append, List.length_singleton] at h
    rw [List.foldl_append, foldl_sha256Byte_store init (by omega), List.foldl_cons, List.foldl_nil,
      storeBytes_append, storeBytes_singleton]
    exact if_pos (by simp only; omega)

/-- Whole blocks. -/
theorem foldl_sha256Byte_blocks (n : Nat) (data : List Byte) {s : Sha256State} (hs : s.blockLen = 0)
    (hdata : data.length = 64 * n) :
    (data.foldl sha256Byte s).h =
      ((List.range n).map (Fips180.byteBlock data)).foldl processBlock s.h := by
  induction n generalizing data s with
  | zero =>
      obtain rfl := List.eq_nil_of_length_eq_zero hdata
      rfl
  | succ n ih =>
      have htake : (data.take 64).length = 64 := by
        rw [List.length_take]
        omega
      have hfirst : storeBytes s.block s.blockLen (data.take 64) = Fips180.byteBlock data 0 := by
        refine Vector.ext fun i hi => ?_
        rw [getElem_storeBytes _ _ _ hi, hs, if_pos (Nat.zero_le i), Nat.sub_zero,
          List.getElem?_take_of_lt hi, List.getElem?_eq_getElem (by omega), Option.getD_some,
          Fips180.byteBlock, Vector.getElem_ofFn, Nat.mul_zero, Nat.zero_add,
          getElem!_pos data i (by omega)]
      have hrest : Fips180.byteBlock (data.drop 64) = Fips180.byteBlock data ∘ Nat.succ := by
        refine funext fun k => Vector.ext fun i hi => ?_
        have hidx : 64 + (64 * k + i) = 64 * (k + 1) + i := by omega
        rw [Function.comp_apply, Fips180.byteBlock, Fips180.byteBlock, Vector.getElem_ofFn,
          Vector.getElem_ofFn, getElem!_def, getElem!_def, List.getElem?_drop, hidx]
      conv_lhs => rw [← List.take_append_drop 64 data]
      rw [List.foldl_append, foldl_sha256Byte_fill (data.take 64) (by omega) (by omega), hfirst,
        ih (data.drop 64) rfl (by rw [List.length_drop]; omega), hrest, List.range_succ_eq_map,
        List.map_cons, List.map_map, List.foldl_cons]

/-- The two fills store what the loop would store of the padding. -/
theorem sha256Final_eq {s : Sha256State} (len : Nat) (hs : s.blockLen = len % 64) :
    sha256Final s (BitVec.ofNat 64 (8 * len)) = ((Fips180.padding len).foldl sha256Byte s).h := by
  have hlt : s.blockLen < 64 := hs ▸ Nat.mod_lt len (by decide)
  by_cases h : s.blockLen + 1 > 56
  · -- the length needs a block of its own
    have hzeros : (55 + 64 - len % 64) % 64 = (63 - s.blockLen) + 56 := by omega
    have hsplit : Fips180.padding len = (0x80 :: List.replicate (63 - s.blockLen) 0) ++
        (List.replicate 56 0 ++ (toBytesBE 8 (BitVec.ofNat 64 (8 * len))).toList) := by
      rw [Fips180.padding, hzeros, List.replicate_add]
      simp only [List.cons_append, List.append_assoc]
    have hfirst : storeBytes s.block s.blockLen (0x80 :: List.replicate (63 - s.blockLen) 0) =
        zeroRange (s.block.setIfInBounds s.blockLen 0x80) (s.blockLen + 1) 64 := by
      have hend : s.blockLen + 1 + (63 - s.blockLen) = 64 := by omega
      rw [storeBytes_cons, storeBytes_zeros, hend]
    rw [hsplit, List.foldl_append, foldl_sha256Byte_fill _ hlt (by simp; omega), hfirst,
      foldl_sha256Byte_fill _ (Nat.zero_lt_succ 63) (by simp), storeBytes_append, storeBytes_zeros,
      List.length_replicate, storeBytes_length]
    simp only [sha256Final, if_pos h]
  · have hzeros : (55 + 64 - len % 64) % 64 = 55 - s.blockLen := by omega
    have hend : s.blockLen + 1 + (55 - s.blockLen) = 56 := by omega
    rw [Fips180.padding, hzeros, foldl_sha256Byte_fill _ hlt (by simp; omega), List.cons_append,
      storeBytes_cons, storeBytes_append, storeBytes_zeros, List.length_replicate, hend,
      storeBytes_length]
    simp only [sha256Final, if_neg h]

theorem toList_digest (h : HashValues) :
    (Vector.ofFn fun i : Fin 32 => byteLE h[i.val / 4]! (3 - i.val % 4)).toList =
      h.toList.flatMap fun x => (toBytesBE 4 x).toList := by
  have hwords : h.toList = List.ofFn fun i : Fin 8 => h[i.val] := by
    rw [← Vector.toList_ofFn, Vector.ofFn_getElem]
  rw [hwords, List.flatMap_def, List.map_ofFn, Vector.toList_ofFn]
  refine (List.ofFn_mul (m := 8) (n := 4) fun i : Fin (8 * 4) => byteLE h[i.val / 4]!
    (3 - i.val % 4)).trans ?_
  refine congrArg List.flatten (congrArg List.ofFn (funext fun i => ?_))
  rw [Function.comp_apply, toBytesBE, Vector.toList_ofFn]
  refine congrArg List.ofFn (funext fun j => ?_)
  have hi := i.isLt
  have hj := j.isLt
  have hdiv : (i.val * 4 + j.val) / 4 = i.val := by omega
  have hmod : (i.val * 4 + j.val) % 4 = j.val := by omega
  simp only [hdiv, hmod, getElem!_pos h i.val hi]

/-- The hash values are those of the padded message. -/
theorem sha256Final_foldl (data : List Byte) :
    sha256Final (data.foldl sha256Byte sha256Init) (BitVec.ofNat 64 (8 * data.length)) =
      (Fips180.blocks (Fips180.pad (Fips180.bits data))).foldl Fips180.compress Fips180.initialHash := by
  have hfill : (data.foldl sha256Byte sha256Init).blockLen = data.length % 64 := by
    rw [blockLen_foldl data (s := sha256Init) (Nat.zero_lt_succ 63)]
    exact congrArg (· % 64) (Nat.zero_add data.length)
  set padded := data ++ Fips180.padding data.length with hpadded
  obtain ⟨n, hn⟩ : ∃ n, padded.length = 64 * n := by
    refine ⟨padded.length / 64, ?_⟩
    simp only [hpadded, Fips180.padding, List.length_append, List.length_cons,
      List.length_replicate, Vector.length_toList]
    omega
  rw [sha256Final_eq data.length hfill, ← List.foldl_append, ← hpadded,
    foldl_sha256Byte_blocks n padded rfl hn, Fips180.pad_bits, ← hpadded, Fips180.blocks_bits, hn,
    Nat.mul_div_cancel_left n (by decide), List.foldl_map, List.foldl_map, sha256Init_h]
  simp only [processBlock_eq]
  rfl

/-- All stores of `sha256` stay inside of the block, and neither `64 - block_len` nor `56 -
block_len` is negative. -/
structure StaysInBlock (data : List Byte) : Prop where
  store : ∀ k, ((data.take k).foldl sha256Byte sha256Init).blockLen < 64
  marker : (data.foldl sha256Byte sha256Init).blockLen < 64
  firstFill : (data.foldl sha256Byte sha256Init).blockLen + 1 ≤ 64
  secondFill : (if (data.foldl sha256Byte sha256Init).blockLen + 1 > 56 then 0
    else (data.foldl sha256Byte sha256Init).blockLen + 1) ≤ 56

theorem staysInBlock (data : List Byte) : StaysInBlock data := by
  have hlt (data : List Byte) : (data.foldl sha256Byte sha256Init).blockLen < 64 := by
    rw [blockLen_foldl data (s := sha256Init) (Nat.zero_lt_succ 63)]
    exact Nat.mod_lt _ (by decide)
  refine ⟨fun k => hlt (data.take k), hlt data, hlt data, ?_⟩
  split_ifs with h
  · exact Nat.zero_le 56
  · exact Nat.le_of_not_lt h

theorem sha256_digest {data : List Byte} (hlen : data.length < 2 ^ 61) :
    Fips180.sha256 data = some (sha256 data).toList := by
  have hbits : (Fips180.bits data).length < 2 ^ 64 := by
    rw [Fips180.length_bits]
    omega
  have hml : BitVec.ofNat 64 data.length * 8 = BitVec.ofNat 64 (8 * data.length) := by
    rw [Nat.mul_comm, BitVec.ofNat_mul]
    rfl
  simp only [Fips180.sha256, if_pos hbits, sha256, hml, sha256Final_foldl, toList_digest]

/-- **SHA-256** of FIPS 180-4. -/
theorem sha256_exact (data : List Byte) (hlen : data.length < 2 ^ 61) :
    Fips180.sha256 data = some (sha256 data).toList ∧ StaysInBlock data :=
  ⟨sha256_digest hlen, staysInBlock data⟩

/-- Three blocks: two whole ones from the message, and a last one whose padding needs no block of
its own. -/
theorem sha256_exact_threeBlocks :
    Fips180.sha256 (List.replicate 150 0x61) = some (sha256 (List.replicate 150 0x61)).toList ∧
      StaysInBlock (List.replicate 150 0x61) :=
  sha256_exact (List.replicate 150 0x61) (by rw [List.length_replicate]; decide)

end Aeslib
