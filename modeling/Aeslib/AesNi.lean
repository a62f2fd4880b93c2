import Aeslib.BridgeIsa

/-!
The AES-NI backend, `src/aes_core_ni.cpp`, and its agreement with the portable one. A round key of the
unrolled schedules is a register; `IsRoundKey` says which four schedule words it holds.
-/

namespace Aeslib

open Bytes Isa.X86

/-- The three shift-and-XOR pairs that every expansion step opens with. -/
def slliXorChain (temp : M128) : M128 :=
  let shifted := slliSi128 temp 4
  let temp := temp ^^^ shifted
  let shifted := slliSi128 shifted 4
  let temp := temp ^^^ shifted
  let shifted := slliSi128 shifted 4
  temp ^^^ shifted

def keyExpansionStepEven (temp1 temp2 : M128) : M128 := slliXorChain temp1 ^^^ shuffleEpi32 temp2 0xff

def keyExpansionStepOdd (temp1 temp3 : M128) : M128 :=
  let temp4 := aeskeygenassist temp1 0x0
  let temp2 := shuffleEpi32 temp4 0xaa
  slliXorChain temp3 ^^^ temp2

/-- `AESLIB_EVEN_STEP`. -/
def evenStep (rcon : Byte) (temp1 temp3 : M128) : M128 :=
  keyExpansionStepEven temp1 (aeskeygenassist temp3 rcon)

/-- `temp1` and `temp3` are named by the schedule index they are stored at. -/
def expandKeyNi (key : SecretKey) : Vector M128 15 :=
  let k0 := loadu (Vector.ofFn fun i => (keyBytes key)[i.val])
  let k1 := loadu (Vector.ofFn fun i => (keyBytes key)[16 + i.val])
  let k2 := evenStep 0x01 k0 k1
  let k3 := keyExpansionStepOdd k2 k1
  let k4 := evenStep 0x02 k2 k3
  let k5 := keyExpansionStepOdd k4 k3
  let k6 := evenStep 0x04 k4 k5
  let k7 := keyExpansionStepOdd k6 k5
  let k8 := evenStep 0x08 k6 k7
  let k9 := keyExpansionStepOdd k8 k7
  let k10 := evenStep 0x10 k8 k9
  let k11 := keyExpansionStepOdd k10 k9
  let k12 := evenStep 0x20 k10 k11
  let k13 := keyExpansionStepOdd k12 k11
  let k14 := evenStep 0x40 k12 k13
  #v[k0, k1, k2, k3, k4, k5, k6, k7, k8, k9, k10, k11, k12, k13, k14]

def key128Assist (temp1 temp2 : M128) : M128 := slliXorChain temp1 ^^^ shuffleEpi32 temp2 0xff

/-- `AESLIB_KEY128_STEP`. -/
def key128Step (rcon : Byte) (temp1 : M128) : M128 := key128Assist temp1 (aeskeygenassist temp1 rcon)

def expandKey128Ni (key : SecretKey) : Vector M128 11 :=
  let k0 := loadu (Vector.ofFn fun i => (keyBytes key)[i.val])
  let k1 := key128Step 0x01 k0
  let k2 := key128Step 0x02 k1
  let k3 := key128Step 0x04 k2
  let k4 := key128Step 0x08 k3
  let k5 := key128Step 0x10 k4
  let k6 := key128Step 0x20 k5
  let k7 := key128Step 0x40 k6
  let k8 := key128Step 0x80 k7
  let k9 := key128Step 0x1B k8
  let k10 := key128Step 0x36 k9
  #v[k0, k1, k2, k3, k4, k5, k6, k7, k8, k9, k10]

/-- The body of both block functions, on a schedule of `n` round keys. -/
def encryptWithScheduleNi {n : Nat} (schedule : Vector M128 n) (block : Block) : Block :=
  let state := loadu block ^^^ schedule[0]!
  let state := (List.range' 1 (n - 2)).foldl (fun state round => aesenc state schedule[round]!) state
  storeu (aesenclast state schedule[n - 1]!)

def aes256EncryptBlockNi (key : SecretKey) (block : Block) : Block :=
  encryptWithScheduleNi (expandKeyNi key) block

def aes128EncryptBlockNi (key : SecretKey) (block : Block) : Block :=
  encryptWithScheduleNi (expandKey128Ni key) block

theorem wordLE_dword (x : M128) (c : Nat) : wordLE (dword x c) 0 = wordLE x c := wordLE_extractLsb' x c

theorem wordLE_ofDwords (d0 d1 d2 d3 : BitVec 32) :
    wordLE (ofDwords d0 d1 d2 d3) 0 = wordLE d0 0 ∧ wordLE (ofDwords d0 d1 d2 d3) 1 = wordLE d1 0 ∧
      wordLE (ofDwords d0 d1 d2 d3) 2 = wordLE d2 0 ∧ wordLE (ofDwords d0 d1 d2 d3) 3 = wordLE d3 0 := by
  refine ⟨wordLE_append_low _ _ (by decide), ?_, ?_, ?_⟩
  · rw [ofDwords, wordLE_append_high (m := 1) _ _ rfl (by decide), wordLE_append_low _ _ (by decide)]
  · rw [ofDwords, wordLE_append_high (m := 1) _ _ rfl (by decide),
      wordLE_append_high (m := 1) _ _ rfl (by decide), wordLE_append_low _ _ (by decide)]
  · rw [ofDwords, wordLE_append_high (m := 1) _ _ rfl (by decide),
      wordLE_append_high (m := 1) _ _ rfl (by decide), wordLE_append_high (m := 1) _ _ rfl (by decide)]

/-- The immediates `0xff` and `0xaa` broadcast one word. -/
theorem wordLE_broadcast (a : M128) {c : Nat} (hc : c < 4) :
    wordLE (shuffleEpi32 a 0xff) c = wordLE a 3 ∧ wordLE (shuffleEpi32 a 0xaa) c = wordLE a 2 := by
  have hff := wordLE_ofDwords (dword a 3) (dword a 3) (dword a 3) (dword a 3)
  have haa := wordLE_ofDwords (dword a 2) (dword a 2) (dword a 2) (dword a 2)
  simp only [wordLE_dword] at hff haa
  constructor
  · rw [show shuffleEpi32 a 0xff = ofDwords (dword a 3) (dword a 3) (dword a 3) (dword a 3) from rfl]
    interval_cases c
    exacts [hff.1, hff.2.1, hff.2.2.1, hff.2.2.2]
  · rw [show shuffleEpi32 a 0xaa = ofDwords (dword a 2) (dword a 2) (dword a 2) (dword a 2) from rfl]
    interval_cases c
    exacts [haa.1, haa.2.1, haa.2.2.1, haa.2.2.2]

theorem wordLE_aeskeygenassist (a : M128) (rcon : Byte) :
    wordLE (aeskeygenassist a rcon) 2 = scheduleSubWord (wordLE a 3) ∧
      wordLE (aeskeygenassist a rcon) 3 =
        scheduleXorWord (scheduleSubWord (scheduleRotWord (wordLE a 3))) #v[rcon, 0, 0, 0] := by
  obtain ⟨-, -, h2, h3⟩ := wordLE_ofDwords (Isa.subWord (dword a 1))
    ((Isa.subWord (dword a 1)).rotateRight 8 ^^^ rcon.setWidth 32) (Isa.subWord (dword a 3))
    ((Isa.subWord (dword a 3)).rotateRight 8 ^^^ rcon.setWidth 32)
  constructor
  · rw [aeskeygenassist, h2, wordLE_subWord, wordLE_dword]
  · rw [aeskeygenassist, h3, wordLE_xor, wordLE_rotateRight, wordLE_subWord, wordLE_dword,
      wordLE_setWidth, scheduleSubWord_rotWord]

theorem wordLE_slliSi128 (x : M128) {c : Nat} (hc : c < 3) :
    wordLE (slliSi128 x 4) 0 = #v[0, 0, 0, 0] ∧ wordLE (slliSi128 x 4) (c + 1) = wordLE x c := by
  have hbyte {i : Nat} (hi : i < 16) :
      byteLE (slliSi128 x 4) i = if i < 4 then 0 else byteLE x (i - 4) :=
    byteLE_shiftLeft x (by omega)
  constructor
  · refine Vector.ext fun j hj => ?_
    rw [getElem_wordLE _ _ hj, hbyte (by omega), if_pos (by omega)]
    interval_cases j <;> rfl
  · refine Vector.ext fun j hj => ?_
    rw [getElem_wordLE _ _ hj, getElem_wordLE _ _ hj, hbyte (by omega), if_neg (by omega),
      show 4 * (c + 1) + j - 4 = 4 * c + j by omega]

/-- The three shifts add to each word all the words before it. -/
theorem wordLE_slliXorChain (x : M128) :
    wordLE (slliXorChain x) 0 = wordLE x 0 ∧
      ∀ c < 3, wordLE (slliXorChain x) (c + 1) = scheduleXorWord (wordLE x (c + 1))
        (wordLE (slliXorChain x) c) := by
  have hzero (y : M128) : wordLE (slliSi128 y 4) 0 = #v[0, 0, 0, 0] :=
    (wordLE_slliSi128 y (by decide : 0 < 3)).1
  have h1 (y : M128) : wordLE (slliSi128 y 4) 1 = wordLE y 0 := (wordLE_slliSi128 y (by decide)).2
  have h2 (y : M128) : wordLE (slliSi128 y 4) 2 = wordLE y 1 := (wordLE_slliSi128 y (by decide)).2
  have h3 (y : M128) : wordLE (slliSi128 y 4) 3 = wordLE y 2 := (wordLE_slliSi128 y (by decide)).2
  refine ⟨?_, fun c hc => ?_⟩
  · simp only [slliXorChain, wordLE_xor, hzero, scheduleXorWord_zero]
  · interval_cases c
    · simp only [slliXorChain, wordLE_xor, h1, hzero, scheduleXorWord_zero]
    · simp only [slliXorChain, wordLE_xor, h2, h1, hzero, scheduleXorWord_zero, scheduleXorWord_assoc]
    · simp only [slliXorChain, wordLE_xor, h3, h2, h1, hzero, scheduleXorWord_zero,
        scheduleXorWord_assoc]

/-- Register `x` holds round key `r` of the words `w`. -/
def IsRoundKey (w : Nat → Word) (x : M128) (r : Nat) : Prop := ∀ c < 4, wordLE x c = w (4 * r + c)

theorem isRoundKey_step {w : Nat → Word} {x t : M128} {p r : Nat} {temp : Word}
    (hstep : RoundStep w p r temp) (hx : IsRoundKey w x p) (ht : ∀ c < 4, wordLE t c = temp) :
    IsRoundKey w (slliXorChain x ^^^ t) r := by
  obtain ⟨hchain0, hchain⟩ := wordLE_slliXorChain x
  intro c
  induction c with
  | zero =>
      intro h
      rw [wordLE_xor, hchain0, ht 0 h, hx 0 h]
      exact hstep.first.symm
  | succ c ih =>
      intro h
      have hprev := ih (by omega)
      rw [wordLE_xor, ht c (by omega)] at hprev
      rw [wordLE_xor, hchain c (by omega), ht (c + 1) h, hx (c + 1) h, scheduleXorWord_assoc, hprev]
      exact (hstep.next c (by omega)).symm

section Steps

variable {key : SecretKey} {x y : M128}

theorem isRoundKey_evenStep (g : Nat) (rcon : Byte) (hg : g < 7) (hrcon : kScheduleRcon[g + 1]! = rcon)
    (hx : IsRoundKey (scheduleWord 8 14 key) x (2 * g))
    (hy : IsRoundKey (scheduleWord 8 14 key) y (2 * g + 1)) :
    IsRoundKey (scheduleWord 8 14 key) (evenStep rcon x y) (2 * (g + 1)) := by
  refine isRoundKey_step (roundStep_even key hg) hx fun c hc => ?_
  rw [(wordLE_broadcast _ hc).1, (wordLE_aeskeygenassist y rcon).2, hy 3 (by decide), hrcon]

theorem isRoundKey_oddStep (g : Nat) (hg : g < 6)
    (hx : IsRoundKey (scheduleWord 8 14 key) x (2 * (g + 1)))
    (hy : IsRoundKey (scheduleWord 8 14 key) y (2 * g + 1)) :
    IsRoundKey (scheduleWord 8 14 key) (keyExpansionStepOdd x y) (2 * (g + 1) + 1) := by
  refine isRoundKey_step (roundStep_odd key hg) hy fun c hc => ?_
  rw [(wordLE_broadcast _ hc).2, (wordLE_aeskeygenassist x 0).1, hx 3 (by decide)]

theorem isRoundKey_key128Step {g : Nat} (rcon : Byte) (hg : g < 10)
    (hrcon : kScheduleRcon[g + 1]! = rcon) (hx : IsRoundKey (scheduleWord 4 10 key) x g) :
    IsRoundKey (scheduleWord 4 10 key) (key128Step rcon x) (g + 1) := by
  refine isRoundKey_step (roundStep_128 key hg) hx fun c hc => ?_
  rw [(wordLE_broadcast _ hc).1, (wordLE_aeskeygenassist x rcon).2, hx 3 (by decide), hrcon]

end Steps

theorem isRoundKey_loadu {nk nr : Nat} (r : Nat) (key : SecretKey) (hr : 4 * r + 4 ≤ nk)
    (hnr : nk ≤ 4 * (nr + 1)) (v : Vector Byte 16)
    (hv : ∀ i, ∀ hi : i < 16, v[i] = (keyBytes key)[16 * r + i]!) :
    IsRoundKey (scheduleWord nk nr key) (loadu v) r := by
  intro c hc
  refine Vector.ext fun j hj => ?_
  rw [getElem_wordLE _ _ hj, loadu, byteLE_ofBytesLE _ (by decide) (by omega), hv _ (by omega),
    scheduleWord_key key hr hnr hc hj]

theorem isRoundKey_expandKeyNi (key : SecretKey) :
    ∀ r < 15, IsRoundKey (scheduleWord 8 14 key) ((expandKeyNi key)[r]!) r := by
  intro r hr
  rw [getElem!_pos (expandKeyNi key) r hr]
  unfold expandKeyNi
  extract_lets k0 k1 k2 k3 k4 k5 k6 k7 k8 k9 k10 k11 k12 k13 k14
  have h0 : IsRoundKey (scheduleWord 8 14 key) k0 0 :=
    isRoundKey_loadu 0 key (by decide) (by decide) _ fun i hi => by
      rw [Vector.getElem_ofFn, getElem!_pos (keyBytes key) _ (by omega)]
      simp only [Nat.mul_zero, Nat.zero_add]
  have h1 : IsRoundKey (scheduleWord 8 14 key) k1 1 :=
    isRoundKey_loadu 1 key (by decide) (by decide) _ fun i hi => by
      rw [Vector.getElem_ofFn, getElem!_pos (keyBytes key) _ (by omega)]
  have h2 := isRoundKey_evenStep 0 0x01 (by decide) rfl h0 h1
  have h3 := isRoundKey_oddStep 0 (by decide) h2 h1
  have h4 := isRoundKey_evenStep 1 0x02 (by decide) rfl h2 h3
  have h5 := isRoundKey_oddStep 1 (by decide) h4 h3
  have h6 := isRoundKey_evenStep 2 0x04 (by decide) rfl h4 h5
  have h7 := isRoundKey_oddStep 2 (by decide) h6 h5
  have h8 := isRoundKey_evenStep 3 0x08 (by decide) rfl h6 h7
  have h9 := isRoundKey_oddStep 3 (by decide) h8 h7
  have h10 := isRoundKey_evenStep 4 0x10 (by decide) rfl h8 h9
  have h11 := isRoundKey_oddStep 4 (by decide) h10 h9
  have h12 := isRoundKey_evenStep 5 0x20 (by decide) rfl h10 h11
  have h13 := isRoundKey_oddStep 5 (by decide) h12 h11
  have h14 := isRoundKey_evenStep 6 0x40 (by decide) rfl h12 h13
  interval_cases r
  exacts [h0, h1, h2, h3, h4, h5, h6, h7, h8, h9, h10, h11, h12, h13, h14]

theorem isRoundKey_expandKey128Ni (key : SecretKey) :
    ∀ r < 11, IsRoundKey (scheduleWord 4 10 key) ((expandKey128Ni key)[r]!) r := by
  intro r hr
  rw [getElem!_pos (expandKey128Ni key) r hr]
  unfold expandKey128Ni
  extract_lets k0 k1 k2 k3 k4 k5 k6 k7 k8 k9 k10
  have h0 : IsRoundKey (scheduleWord 4 10 key) k0 0 :=
    isRoundKey_loadu 0 key (by decide) (by decide) _ fun i hi => by
      rw [Vector.getElem_ofFn, getElem!_pos (keyBytes key) _ (by omega)]
      simp only [Nat.mul_zero, Nat.zero_add]
  have h1 := isRoundKey_key128Step 0x01 (by decide) rfl h0
  have h2 := isRoundKey_key128Step 0x02 (by decide) rfl h1
  have h3 := isRoundKey_key128Step 0x04 (by decide) rfl h2
  have h4 := isRoundKey_key128Step 0x08 (by decide) rfl h3
  have h5 := isRoundKey_key128Step 0x10 (by decide) rfl h4
  have h6 := isRoundKey_key128Step 0x20 (by decide) rfl h5
  have h7 := isRoundKey_key128Step 0x40 (by decide) rfl h6
  have h8 := isRoundKey_key128Step 0x80 (by decide) rfl h7
  have h9 := isRoundKey_key128Step 0x1B (by decide) rfl h8
  have h10 := isRoundKey_key128Step 0x36 (by decide) rfl h9
  interval_cases r
  exacts [h0, h1, h2, h3, h4, h5, h6, h7, h8, h9, h10]

theorem storeu_loadu (s : State) : storeu (loadu s) = s := toBytesLE_ofBytesLE s (by decide)

theorem loadu_xorState (s t : State) : loadu (Isa.xorState s t) = loadu s ^^^ loadu t := by
  refine eq_of_byteLE (n := 16) (by decide) fun i hi => ?_
  rw [byteLE_xor, loadu, loadu, loadu, byteLE_ofBytesLE _ (by decide) hi,
    byteLE_ofBytesLE _ (by decide) hi, byteLE_ofBytesLE _ (by decide) hi, Isa.xorState,
    Vector.getElem_zipWith]

theorem IsRoundKey.eq_loadu {nk nr r : Nat} {key : SecretKey} {x : M128}
    (h : IsRoundKey (scheduleWord nk nr key) x r) : x = loadu (roundKey (expandKey nk nr key) r) := by
  refine eq_of_byteLE (n := 16) (by decide) fun i hi => ?_
  have hj : i % 4 < 4 := Nat.mod_lt i (by decide)
  rw [loadu, byteLE_ofBytesLE _ (by decide) hi, getElem_roundKey _ _ _ _ hi hj, ← h (i / 4) (by omega),
    getElem_wordLE _ _ hj, Nat.div_add_mod]

theorem aesenc_loadu (s k : State) :
    aesenc (loadu s) (loadu k) = loadu (Isa.xorState (mixColumns (shiftRows (subBytes s))) k) := by
  rw [aesenc, storeu_loadu, loadu_xorState, isa_mixColumns, isa_subBytes, isa_shiftRows,
    subBytes_shiftRows]

theorem aesenclast_loadu (s k : State) :
    aesenclast (loadu s) (loadu k) = loadu (Isa.xorState (shiftRows (subBytes s)) k) := by
  rw [aesenclast, storeu_loadu, loadu_xorState, isa_subBytes, isa_shiftRows, subBytes_shiftRows]

/-- On round keys of the same words the register loop is the portable one. -/
theorem encryptWithScheduleNi_eq (nk : Nat) {nr : Nat} (hnr : 0 < nr) (key : SecretKey)
    (ks : Vector M128 (nr + 1)) (hks : ∀ r < nr + 1, IsRoundKey (scheduleWord nk nr key) ks[r]! r)
    (block : Block) : encryptWithScheduleNi ks block = aesEncryptBlockSoft nk nr key block := by
  have hload {r : Nat} (hr : r < nr + 1) : ks[r]! = loadu (roundKey (expandKey nk nr key) r) :=
    (hks r hr).eq_loadu
  have hrounds (n : Nat) (hn : n < nr) (s : State) :
      (List.range' 1 n).foldl (fun state round => aesenc state ks[round]!) (loadu s) =
        loadu ((List.range' 1 n).foldl (softRound (expandKey nk nr key)) s) := by
    induction n with
    | zero => simp only [List.range'_zero, List.foldl_nil]
    | succ n ih =>
        rw [softRounds_succ, ← aesenc_loadu, ← ih (by omega), ← hload (by omega), List.range'_1_concat,
          List.foldl_append, List.foldl_cons, List.foldl_nil, Nat.add_comm 1 n]
  rw [aesEncryptBlockSoft_eq_xor, ← storeu_loadu (Isa.xorState _ (roundKey _ nr)), ← aesenclast_loadu,
    ← hrounds (nr - 1) (by omega), loadu_xorState, ← hload (Nat.succ_pos nr), ← hload
    (Nat.lt_succ_self nr)]
  rfl

theorem aes256EncryptBlockNi_eq (key : SecretKey) (block : Block) :
    aes256EncryptBlockNi key block = aes256EncryptBlockSoft key block :=
  encryptWithScheduleNi_eq 8 (by decide) key (expandKeyNi key) (isRoundKey_expandKeyNi key) block

theorem aes128EncryptBlockNi_eq (key : SecretKey) (block : Block) :
    aes128EncryptBlockNi key block = aes128EncryptBlockSoft key block :=
  encryptWithScheduleNi_eq 4 (by decide) key (expandKey128Ni key) (isRoundKey_expandKey128Ni key) block

/-- The AES-NI backend computes the portable one's function, for both key sizes. -/
theorem aesNi_agrees_soft (key : SecretKey) (block : Block) :
    aes128EncryptBlockNi key block = aes128EncryptBlockSoft key block ∧
      aes256EncryptBlockNi key block = aes256EncryptBlockSoft key block :=
  ⟨aes128EncryptBlockNi_eq key block, aes256EncryptBlockNi_eq key block⟩

end Aeslib
