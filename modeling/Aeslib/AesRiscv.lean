import Aeslib.BridgeIsa

/-!
The RV64 Zkne backend, `src/aes_core_riscv.cpp`. A state or a round key is a pair of 64-bit registers.
-/

namespace Aeslib.Riscv

open Bytes Isa.Rv64

/-- `lo` holds the block bytes 0 to 7, `hi` the bytes 8 to 15. -/
structure State where
  lo : BitVec 64
  hi : BitVec 64
  deriving DecidableEq, Inhabited

def loadState (block : Block) : State where
  lo := ofBytesLE 64 (Vector.ofFn fun i : Fin 8 => block[i.val]!)
  hi := ofBytesLE 64 (Vector.ofFn fun i : Fin 8 => block[8 + i.val]!)

def storeState (s : State) : Block :=
  Vector.ofFn fun i => if i.val < 8 then byteLE s.lo i else byteLE s.hi (i - 8)

def xorState (a b : State) : State := ⟨a.lo ^^^ b.lo, a.hi ^^^ b.hi⟩

def roundMiddle (s : State) : State := ⟨aes64esm s.lo s.hi, aes64esm s.hi s.lo⟩

def roundFinal (s : State) : State := ⟨aes64es s.lo s.hi, aes64es s.hi s.lo⟩

/-- The variables of `expand_key256_riscv`. -/
structure Regs256 where
  t0 : BitVec 64
  t1 : BitVec 64
  t2 : BitVec 64
  t3 : BitVec 64
  rk : Vector State 15

/-- `AESLIB_KS256_STEP`. -/
def ks256Step (s : Regs256) (rnum idx : Nat) : Regs256 :=
  let t4 := aes64ks1i s.t3 rnum
  let t0 := aes64ks2 t4 s.t0
  let t1 := aes64ks2 t0 s.t1
  let rk := s.rk.setIfInBounds idx ⟨t0, t1⟩
  if rnum ≠ 6 then
    let t4 := aes64ks1i t1 0xA
    let t2 := aes64ks2 t4 s.t2
    let t3 := aes64ks2 t2 s.t3
    { t0, t1, t2, t3, rk := rk.setIfInBounds (idx + 1) ⟨t2, t3⟩ }
  else { s with t0, t1, rk }

/-- The 8 key bytes from `offset` on. -/
def loadKey (key : SecretKey) (offset : Nat) : BitVec 64 :=
  ofBytesLE 64 (Vector.ofFn fun i : Fin 8 => (keyBytes key)[offset + i.val]!)

def expandKey256Riscv (key : SecretKey) : Vector State 15 :=
  let t0 := loadKey key 0
  let t1 := loadKey key 8
  let t2 := loadKey key 16
  let t3 := loadKey key 24
  let rk : Vector State 15 := Vector.replicate 15 ⟨0, 0⟩
  let rk := (rk.setIfInBounds 0 ⟨t0, t1⟩).setIfInBounds 1 ⟨t2, t3⟩
  let s := [(0, 2), (1, 4), (2, 6), (3, 8), (4, 10), (5, 12), (6, 14)].foldl
    (fun s step => ks256Step s step.1 step.2) { t0, t1, t2, t3, rk : Regs256 }
  s.rk

/-- The variables of `expand_key128_riscv`. -/
structure Regs128 where
  t0 : BitVec 64
  t1 : BitVec 64
  rk : Vector State 11

/-- `AESLIB_KS128_STEP`. -/
def ks128Step (s : Regs128) (rnum idx : Nat) : Regs128 :=
  let t2 := aes64ks1i s.t1 rnum
  let t0 := aes64ks2 t2 s.t0
  let t1 := aes64ks2 t0 s.t1
  { t0, t1, rk := s.rk.setIfInBounds idx ⟨t0, t1⟩ }

def expandKey128Riscv (key : SecretKey) : Vector State 11 :=
  let t0 := loadKey key 0
  let t1 := loadKey key 8
  let rk : Vector State 11 := Vector.replicate 11 ⟨0, 0⟩
  let rk := rk.setIfInBounds 0 ⟨t0, t1⟩
  let s := [(0, 1), (1, 2), (2, 3), (3, 4), (4, 5), (5, 6), (6, 7), (7, 8), (8, 9), (9, 10)].foldl
    (fun s step => ks128Step s step.1 step.2) { t0, t1, rk : Regs128 }
  s.rk

/-- `kNr` is `n - 1`. -/
def encryptWithSchedule {n : Nat} (rk : Vector State n) (block : Block) : Block :=
  let state := xorState (loadState block) rk[0]!
  let state := (List.range' 1 (n - 2)).foldl
    (fun state round => xorState (roundMiddle state) rk[round]!) state
  storeState (xorState (roundFinal state) rk[n - 1]!)

def aes256EncryptBlockRiscv (key : SecretKey) (block : Block) : Block :=
  encryptWithSchedule (expandKey256Riscv key) block

def aes128EncryptBlockRiscv (key : SecretKey) (block : Block) : Block :=
  encryptWithSchedule (expandKey128Riscv key) block

theorem wordLE_aes64ks2 (rs1 rs2 : BitVec 64) :
    wordLE (aes64ks2 rs1 rs2) 0 = scheduleXorWord (wordLE rs1 1) (wordLE rs2 0) ∧
      wordLE (aes64ks2 rs1 rs2) 1 = scheduleXorWord (wordLE (aes64ks2 rs1 rs2) 0) (wordLE rs2 1) := by
  have hlow : wordLE (aes64ks2 rs1 rs2) 0 = scheduleXorWord (wordLE rs1 1) (wordLE rs2 0) := by
    rw [aes64ks2, wordLE_append_low _ _ (by decide), wordLE_xor]
    exact congrArg₂ _ (wordLE_extractLsb' rs1 1) (wordLE_extractLsb' rs2 0)
  refine ⟨hlow, ?_⟩
  rw [hlow, aes64ks2, wordLE_append_high (m := 1) _ _ rfl (by decide), wordLE_xor, wordLE_xor]
  exact congrArg₂ _ (congrArg₂ _ (wordLE_extractLsb' rs1 1) (wordLE_extractLsb' rs2 0))
    (wordLE_extractLsb' rs2 1)

theorem wordLE_decodeRcon {rnum : Nat} (h : rnum < 10) :
    wordLE (decodeRcon rnum) 0 = #v[kScheduleRcon[rnum + 1]!, 0, 0, 0] := by
  rw [← wordLE_setWidth]
  interval_cases rnum <;> rfl

theorem wordLE_aes64ks1i (rs1 : BitVec 64) {rnum : Nat} (h : rnum < 10) :
    wordLE (aes64ks1i rs1 rnum) 1 = scheduleXorWord (scheduleSubWord (scheduleRotWord (wordLE rs1 1)))
      #v[kScheduleRcon[rnum + 1]!, 0, 0, 0] := by
  rw [aes64ks1i, wordLE_append_high (m := 1) _ _ rfl (by decide), if_neg (by omega), wordLE_xor,
    wordLE_subWord, wordLE_rotateRight, wordLE_decodeRcon h]
  exact congrArg (fun w => scheduleXorWord (scheduleSubWord (scheduleRotWord w)) _)
    (wordLE_extractLsb' rs1 1)

/-- Round number `0xA` leaves out the rotation and the round constant. -/
theorem wordLE_aes64ks1i_noRotate (rs1 : BitVec 64) :
    wordLE (aes64ks1i rs1 0xA) 1 = scheduleSubWord (wordLE rs1 1) := by
  rw [aes64ks1i, wordLE_append_high (m := 1) _ _ rfl (by decide), if_pos rfl, wordLE_xor, wordLE_subWord,
    show decodeRcon 0xA = BitVec.setWidth 32 (0 : Byte) from rfl, wordLE_setWidth, scheduleXorWord_zero]
  exact congrArg scheduleSubWord (wordLE_extractLsb' rs1 1)

/-- Word `c` of a round key. -/
def State.word (s : State) (c : Nat) : Word := if c < 2 then wordLE s.lo c else wordLE s.hi (c - 2)

/-- The registers hold round key `r` of the words `w`. -/
def IsRoundKey (w : Nat → Word) (s : State) (r : Nat) : Prop := ∀ c < 4, s.word c = w (4 * r + c)

/-- The two chained `aes64ks2` of each step. -/
theorem isRoundKey_step {w : Nat → Word} {a b t : BitVec 64} {p r : Nat} {temp : Word}
    (hstep : RoundStep w p r temp) (hab : IsRoundKey w ⟨a, b⟩ p) (ht : wordLE t 1 = temp) :
    IsRoundKey w ⟨aes64ks2 t a, aes64ks2 (aes64ks2 t a) b⟩ r := by
  have h0 : wordLE (aes64ks2 t a) 0 = w (4 * r) := by
    rw [(wordLE_aes64ks2 t a).1, ht, scheduleXorWord_comm, hstep.first]
    exact congrArg (scheduleXorWord · temp) (hab 0 (by decide))
  have h1 : wordLE (aes64ks2 t a) 1 = w (4 * r + 1) := by
    rw [(wordLE_aes64ks2 t a).2, h0, scheduleXorWord_comm, hstep.next 0 (by decide)]
    exact congrArg (scheduleXorWord · (w (4 * r))) (hab 1 (by decide))
  have h2 : wordLE (aes64ks2 (aes64ks2 t a) b) 0 = w (4 * r + 2) := by
    rw [(wordLE_aes64ks2 _ b).1, h1, scheduleXorWord_comm, hstep.next 1 (by decide)]
    exact congrArg (scheduleXorWord · (w (4 * r + 1))) (hab 2 (by decide))
  have h3 : wordLE (aes64ks2 (aes64ks2 t a) b) 1 = w (4 * r + 3) := by
    rw [(wordLE_aes64ks2 _ b).2, h2, scheduleXorWord_comm, hstep.next 2 (by decide)]
    exact congrArg (scheduleXorWord · (w (4 * r + 2))) (hab 3 (by decide))
  intro c hc
  interval_cases c
  exacts [h0, h1, h2, h3]

/-- The 16 key bytes from `16 r` on are round key `r`. -/
theorem isRoundKey_loadKey {nk nr : Nat} (r : Nat) (key : SecretKey) (hr : 4 * r + 4 ≤ nk)
    (hnr : nk ≤ 4 * (nr + 1)) :
    IsRoundKey (scheduleWord nk nr key) ⟨loadKey key (16 * r), loadKey key (16 * r + 8)⟩ r := by
  intro c hc
  refine Vector.ext fun j hj => ?_
  rw [scheduleWord_key key hr hnr hc hj, State.word]
  split_ifs with h
  · rw [getElem_wordLE _ _ hj]
    simp only [loadKey]
    rw [byteLE_ofBytesLE _ (by decide) (by omega), Vector.getElem_ofFn]
  · rw [getElem_wordLE _ _ hj]
    simp only [loadKey]
    rw [byteLE_ofBytesLE _ (by decide) (by omega), Vector.getElem_ofFn]
    exact congrArg (fun n => (keyBytes key)[n]!) (by simp only; omega)

theorem getElem!_setIfInBounds {α : Type} [Inhabited α] {n : Nat} (v : Vector α n) (x : α) {i j : Nat}
    (hj : j < n) : (v.setIfInBounds i x)[j]! = if i = j then x else v[j]! := by
  rw [getElem!_pos (v.setIfInBounds i x) j hj, getElem!_pos v j hj, Vector.getElem_setIfInBounds]

/-- Before step `g` of the AES-256 schedule: the registers hold the round keys `2 g` and `2 g + 1`,
and the array every round key up to these. -/
structure Inv256 (key : SecretKey) (g : Nat) (s : Regs256) : Prop where
  even : IsRoundKey (scheduleWord 8 14 key) ⟨s.t0, s.t1⟩ (2 * g)
  odd : g < 7 → IsRoundKey (scheduleWord 8 14 key) ⟨s.t2, s.t3⟩ (2 * g + 1)
  stored : ∀ r < 15, r < 2 * g + 2 → IsRoundKey (scheduleWord 8 14 key) s.rk[r]! r

theorem inv256_step {key : SecretKey} {g : Nat} {s : Regs256} (hg : g < 7) (h : Inv256 key g s) :
    Inv256 key (g + 1) (ks256Step s g (2 * (g + 1))) := by
  have htemp : wordLE s.t3 1 = scheduleWord 8 14 key (4 * (2 * g + 1) + 3) := h.odd hg 3 (by decide)
  have heven := isRoundKey_step (roundStep_even key hg) h.even
    ((wordLE_aes64ks1i s.t3 (Nat.lt_trans hg (by decide))).trans (by rw [htemp]))
  by_cases h6 : g = 6
  · subst h6
    simp only [ks256Step, ne_eq, not_true_eq_false, if_false]
    refine ⟨heven, fun h => absurd h (by decide), fun r hr _ => ?_⟩
    rw [getElem!_setIfInBounds _ _ hr]
    split_ifs with hr'
    · exact hr' ▸ heven
    · exact h.stored r hr (by omega)
  · have hmid := heven 3 (by decide)
    have hodd := isRoundKey_step (roundStep_odd key (by omega)) (h.odd hg)
      ((wordLE_aes64ks1i_noRotate _).trans (congrArg scheduleSubWord hmid))
    simp only [ks256Step, ne_eq, h6, not_false_eq_true, if_true]
    refine ⟨heven, fun _ => hodd, fun r hr hlt => ?_⟩
    rw [getElem!_setIfInBounds _ _ hr, getElem!_setIfInBounds _ _ hr]
    split_ifs with hr' hr''
    · exact hr' ▸ hodd
    · exact hr'' ▸ heven
    · exact h.stored r hr (by omega)

theorem inv256_start (key : SecretKey) (rk : Vector State 15) :
    Inv256 key 0 ⟨loadKey key 0, loadKey key 8, loadKey key 16, loadKey key 24,
      (rk.setIfInBounds 0 ⟨loadKey key 0, loadKey key 8⟩).setIfInBounds 1
        ⟨loadKey key 16, loadKey key 24⟩⟩ := by
  have h0 : IsRoundKey (scheduleWord 8 14 key) ⟨loadKey key 0, loadKey key 8⟩ 0 :=
    isRoundKey_loadKey 0 key (by decide) (by decide)
  have h1 : IsRoundKey (scheduleWord 8 14 key) ⟨loadKey key 16, loadKey key 24⟩ 1 :=
    isRoundKey_loadKey 1 key (by decide) (by decide)
  refine ⟨h0, fun _ => h1, fun r hr hlt => ?_⟩
  rw [getElem!_setIfInBounds _ _ hr, getElem!_setIfInBounds _ _ hr]
  split_ifs with hr' hr''
  · exact hr' ▸ h1
  · exact hr'' ▸ h0
  · omega

theorem isRoundKey_expandKey256Riscv (key : SecretKey) :
    ∀ r < 15, IsRoundKey (scheduleWord 8 14 key) (expandKey256Riscv key)[r]! r := by
  have hrun (s : Regs256) (hs : Inv256 key 0 s) (n : Nat) (hn : n ≤ 7) :
      Inv256 key n ((List.range n).foldl (fun s g => ks256Step s g (2 * (g + 1))) s) := by
    induction n with
    | zero => exact hs
    | succ n ih =>
        rw [List.range_succ, List.foldl_append, List.foldl_cons, List.foldl_nil]
        exact inv256_step (by omega) (ih (by omega))
  have hsteps : [(0, 2), (1, 4), (2, 6), (3, 8), (4, 10), (5, 12), (6, 14)] =
      (List.range 7).map fun g => (g, 2 * (g + 1)) := by decide
  intro r hr
  simp only [expandKey256Riscv]
  rw [hsteps, List.foldl_map]
  exact (hrun _ (inv256_start key _) 7 le_rfl).stored r hr (by omega)

/-- Before step `g` of the AES-128 schedule. -/
structure Inv128 (key : SecretKey) (g : Nat) (s : Regs128) : Prop where
  held : IsRoundKey (scheduleWord 4 10 key) ⟨s.t0, s.t1⟩ g
  stored : ∀ r < 11, r < g + 1 → IsRoundKey (scheduleWord 4 10 key) s.rk[r]! r

theorem inv128_step {key : SecretKey} {g : Nat} {s : Regs128} (hg : g < 10) (h : Inv128 key g s) :
    Inv128 key (g + 1) (ks128Step s g (g + 1)) := by
  have htemp : wordLE s.t1 1 = scheduleWord 4 10 key (4 * g + 3) := h.held 3 (by decide)
  have hnext := isRoundKey_step (roundStep_128 key hg) h.held
    ((wordLE_aes64ks1i s.t1 hg).trans (by rw [htemp]))
  refine ⟨hnext, fun r hr hlt => ?_⟩
  rw [ks128Step, getElem!_setIfInBounds _ _ hr]
  split_ifs with hr'
  · exact hr' ▸ hnext
  · exact h.stored r hr (by omega)

theorem inv128_start (key : SecretKey) (rk : Vector State 11) :
    Inv128 key 0 ⟨loadKey key 0, loadKey key 8, rk.setIfInBounds 0 ⟨loadKey key 0, loadKey key 8⟩⟩ := by
  have h0 : IsRoundKey (scheduleWord 4 10 key) ⟨loadKey key 0, loadKey key 8⟩ 0 :=
    isRoundKey_loadKey 0 key (by decide) (by decide)
  refine ⟨h0, fun r hr hlt => ?_⟩
  rw [getElem!_setIfInBounds _ _ hr, if_pos (by omega), show r = 0 by omega]
  exact h0

theorem isRoundKey_expandKey128Riscv (key : SecretKey) :
    ∀ r < 11, IsRoundKey (scheduleWord 4 10 key) (expandKey128Riscv key)[r]! r := by
  have hrun (s : Regs128) (hs : Inv128 key 0 s) (n : Nat) (hn : n ≤ 10) :
      Inv128 key n ((List.range n).foldl (fun s g => ks128Step s g (g + 1)) s) := by
    induction n with
    | zero => exact hs
    | succ n ih =>
        rw [List.range_succ, List.foldl_append, List.foldl_cons, List.foldl_nil]
        exact inv128_step (by omega) (ih (by omega))
  have hsteps : [(0, 1), (1, 2), (2, 3), (3, 4), (4, 5), (5, 6), (6, 7), (7, 8), (8, 9), (9, 10)] =
      (List.range 10).map fun g => (g, g + 1) := by decide
  intro r hr
  simp only [expandKey128Riscv]
  rw [hsteps, List.foldl_map]
  exact (hrun _ (inv128_start key _) 10 le_rfl).stored r hr hr

theorem storeState_loadState (block : Block) : storeState (loadState block) = block := by
  refine state_ext fun i hi => ?_
  rw [storeState, Vector.getElem_ofFn]
  split_ifs with h
  · rw [loadState, byteLE_ofBytesLE _ (by decide) h, Vector.getElem_ofFn, getElem!_pos block i hi]
  · simp only [loadState]
    have hi8 : i - 8 < 8 := by omega
    have hi' : 8 + (i - 8) = i := Nat.add_sub_cancel' (Nat.le_of_not_lt h)
    rw [byteLE_ofBytesLE _ (by decide) hi8, Vector.getElem_ofFn]
    simp only [hi']
    exact getElem!_pos block i hi

/-- Registers are the load of a state when their bytes are its bytes. -/
theorem eq_loadState {s : State} {t : Block} (hlo : ∀ i < 8, byteLE s.lo i = t[i]!)
    (hhi : ∀ i < 8, byteLE s.hi i = t[8 + i]!) : s = loadState t := by
  obtain ⟨lo, hi⟩ := s
  refine congrArg₂ State.mk (eq_of_byteLE (n := 8) (by decide) fun i h => ?_)
    (eq_of_byteLE (n := 8) (by decide) fun i h => ?_)
  · rw [byteLE_ofBytesLE _ (by decide) h, Vector.getElem_ofFn]
    exact hlo i h
  · rw [byteLE_ofBytesLE _ (by decide) h, Vector.getElem_ofFn]
    exact hhi i h

theorem byteLE_loadState (t : Block) {i : Nat} (hi : i < 8) :
    byteLE (loadState t).lo i = t[i]! ∧ byteLE (loadState t).hi i = t[8 + i]! := by
  constructor
  · rw [loadState, byteLE_ofBytesLE _ (by decide) hi, Vector.getElem_ofFn]
  · rw [loadState, byteLE_ofBytesLE _ (by decide) hi, Vector.getElem_ofFn]

theorem getElem!_xorState (s t : Block) {i : Nat} (hi : i < 16) :
    (Isa.xorState s t)[i]! = s[i]! ^^^ t[i]! := by
  rw [getElem!_pos (Isa.xorState s t) i hi, getElem!_pos s i hi, getElem!_pos t i hi, Isa.xorState,
    Vector.getElem_zipWith]

theorem xorState_loadState (s t : Block) :
    xorState (loadState s) (loadState t) = loadState (Isa.xorState s t) := by
  refine eq_loadState (fun i hi => ?_) fun i hi => ?_
  · rw [xorState, byteLE_xor, (byteLE_loadState s hi).1, (byteLE_loadState t hi).1,
      getElem!_xorState s t (by omega)]
  · rw [xorState, byteLE_xor, (byteLE_loadState s hi).2, (byteLE_loadState t hi).2,
      getElem!_xorState s t (by omega)]

theorem IsRoundKey.eq_loadState {nk nr r : Nat} {key : SecretKey} {s : State}
    (h : IsRoundKey (scheduleWord nk nr key) s r) :
    s = loadState (roundKey (expandKey nk nr key) r) := by
  refine Riscv.eq_loadState (fun i hi => ?_) fun i hi => ?_
  · have hj : i % 4 < 4 := Nat.mod_lt i (by decide)
    have hi' : i < 16 := by omega
    rw [getElem!_pos (roundKey _ r) _ hi', getElem_roundKey _ _ _ _ hi' hj, ← h (i / 4) (by omega),
      State.word, if_pos (by omega), getElem_wordLE _ _ hj, Nat.div_add_mod]
  · have hj : (8 + i) % 4 < 4 := Nat.mod_lt _ (by decide)
    have hi' : 8 + i < 16 := by omega
    rw [getElem!_pos (roundKey _ r) _ hi', getElem_roundKey _ _ _ _ hi' hj,
      ← h ((8 + i) / 4) (by omega), State.word, if_neg (by omega), getElem_wordLE _ _ hj]
    exact congrArg _ (by omega)

/-- The byte order in which `aes64es` and `aes64esm` read their operands is `ShiftRows` on the half
of the state that the first operand holds. -/
theorem byteLE_aes64es (rs1 rs2 : BitVec 64) {i : Nat} (hi : i < 8) :
    byteLE (aes64es rs1 rs2) i = Isa.sbox (byteLE (shiftRowsFwd rs2 rs1) i) := by
  rw [aes64es, applyFwdSboxToEachByte, byteLE_ofBytesLE _ (by decide) hi, Vector.getElem_map,
    getElem_toBytesLE]

theorem byteLE_self (b : Byte) : byteLE b 0 = b := by
  apply BitVec.eq_of_getLsbD_eq
  intro k hk
  rw [getLsbD_byteLE, decide_eq_true hk, Bool.true_and, Nat.mul_zero, Nat.zero_add]

theorem byteLE_shiftRowsFwd (rs2 rs1 : BitVec 64) :
    toBytesLE 8 (shiftRowsFwd rs2 rs1) =
      #v[byteLE rs1 0, byteLE rs1 5, byteLE rs2 2, byteLE rs2 7, byteLE rs1 4, byteLE rs2 1,
        byteLE rs2 6, byteLE rs1 3] := by
  have hhigh {a : Nat} (x : BitVec a) (y : Byte) (i : Nat) : byteLE (x ++ y) (i + 1) = byteLE x i :=
    byteLE_append_high (m := 1) x y rfl (by omega)
  have hlow {a : Nat} (x : BitVec a) (y : Byte) : byteLE (x ++ y) 0 = y :=
    (byteLE_append_low x y (by decide)).trans (byteLE_self y)
  refine Vector.ext fun i hi => ?_
  rw [getElem_toBytesLE _ hi, shiftRowsFwd]
  interval_cases i <;>
    simp only [hhigh, hlow, byteLE_self, Vector.getElem_mk, List.getElem_toArray, List.getElem_cons_zero,
      List.getElem_cons_succ]

/-- The permuted bytes are the half of `ShiftRows` that the first operand holds. -/
theorem shiftRowsFwd_loadState (s : Isa.State) {i : Nat} (hi : i < 8) :
    byteLE (shiftRowsFwd (loadState s).hi (loadState s).lo) i = (Isa.shiftRows s)[i]! ∧
      byteLE (shiftRowsFwd (loadState s).lo (loadState s).hi) i = (Isa.shiftRows s)[8 + i]! := by
  have hlo (k : Nat) (hk : k < 8) : byteLE (loadState s).lo k = s[k] :=
    (byteLE_loadState s hk).1.trans (getElem!_pos s k (by omega))
  have hhi (k : Nat) (hk : k < 8) : byteLE (loadState s).hi k = s[8 + k] :=
    (byteLE_loadState s hk).2.trans (getElem!_pos s (8 + k) (by omega))
  rw [← getElem_toBytesLE _ hi, ← getElem_toBytesLE _ hi, getElem!_pos (Isa.shiftRows s) i (by omega),
    getElem!_pos (Isa.shiftRows s) (8 + i) (by omega)]
  simp only [byteLE_shiftRowsFwd, Isa.shiftRows]
  interval_cases i <;>
    simp only [hlo, hhi, Nat.reduceLT, Nat.reduceAdd, Vector.getElem_mk, List.getElem_toArray,
      List.getElem_cons_zero, List.getElem_cons_succ, and_self]

theorem getElem!_subBytes (s : Isa.State) {i : Nat} (hi : i < 16) :
    (Isa.subBytes s)[i]! = Isa.sbox s[i]! := by
  rw [getElem!_pos (Isa.subBytes s) i hi, Isa.subBytes, Vector.getElem_map, getElem!_pos s i hi]

/-- `aes64es` on the two halves, in this and in the swapped order. -/
theorem roundFinal_loadState (s : Block) :
    roundFinal (loadState s) = loadState (Isa.subBytes (Isa.shiftRows s)) := by
  refine eq_loadState (fun i hi => ?_) fun i hi => ?_
  · rw [getElem!_subBytes _ (by omega), roundFinal, byteLE_aes64es _ _ hi,
      (shiftRowsFwd_loadState s hi).1]
  · rw [getElem!_subBytes _ (by omega), roundFinal, byteLE_aes64es _ _ hi,
      (shiftRowsFwd_loadState s hi).2]

theorem byteLE_mixColumnFwd (x : BitVec 32) {j : Nat} (hj : j < 4) :
    byteLE (mixColumnFwd x) j =
      (Isa.mixColumn (byteLE x 0) (byteLE x 1) (byteLE x 2) (byteLE x 3))[j] := by
  rw [mixColumnFwd, byteLE_ofBytesLE _ (by decide) hj]

/-- `aes64esm` is `aes64es` with the column transform on each of its two words. -/
theorem byteLE_aes64esm (rs1 rs2 : BitVec 64) {c j : Nat} (hc : c < 2) (hj : j < 4) :
    byteLE (aes64esm rs1 rs2) (4 * c + j) =
      (Isa.mixColumn (byteLE (aes64es rs1 rs2) (4 * c)) (byteLE (aes64es rs1 rs2) (4 * c + 1))
        (byteLE (aes64es rs1 rs2) (4 * c + 2)) (byteLE (aes64es rs1 rs2) (4 * c + 3)))[j] := by
  have hcolumn (m k : Nat) (hk : k < 4) :
      byteLE ((aes64es rs1 rs2).extractLsb' (32 * m) 32) k = byteLE (aes64es rs1 rs2) (4 * m + k) := by
    rw [show 32 * m = 8 * (4 * m) by omega, byteLE_extractLsb' _ (by omega)]
  have hsplit : aes64esm rs1 rs2 = mixColumnFwd ((aes64es rs1 rs2).extractLsb' (32 * 1) 32) ++
      mixColumnFwd ((aes64es rs1 rs2).extractLsb' (32 * 0) 32) := rfl
  have hmix (m : Nat) : byteLE (mixColumnFwd ((aes64es rs1 rs2).extractLsb' (32 * m) 32)) j =
      (Isa.mixColumn (byteLE (aes64es rs1 rs2) (4 * m)) (byteLE (aes64es rs1 rs2) (4 * m + 1))
        (byteLE (aes64es rs1 rs2) (4 * m + 2)) (byteLE (aes64es rs1 rs2) (4 * m + 3)))[j] := by
    rw [byteLE_mixColumnFwd _ hj, hcolumn m 0 (by decide), hcolumn m 1 (by decide),
      hcolumn m 2 (by decide), hcolumn m 3 (by decide), Nat.add_zero]
  rw [← hmix c, hsplit]
  interval_cases c
  · rw [byteLE_append_low _ _ (by omega), Nat.mul_zero, Nat.zero_add]
  · rw [byteLE_append_high (m := 4) _ _ rfl (by omega), Nat.mul_one, Nat.add_sub_cancel_left]

theorem roundMiddle_loadState (s : Block) :
    roundMiddle (loadState s) = loadState (Isa.mixColumns (Isa.subBytes (Isa.shiftRows s))) := by
  -- the half that starts at byte `b`
  have hmix (t : Isa.State) (b i : Nat) (hb : b % 4 = 0) (hi : b + i < 16) (hj : i % 4 < 4) :
      (Isa.mixColumns t)[b + i]! =
        (Isa.mixColumn t[b + 4 * (i / 4)]! t[b + (4 * (i / 4) + 1)]! t[b + (4 * (i / 4) + 2)]!
          t[b + (4 * (i / 4) + 3)]!)[i % 4] := by
    rw [getElem!_pos (Isa.mixColumns t) (b + i) hi, Isa.mixColumns, Vector.getElem_ofFn]
    simp only [show (b + i) % 4 = i % 4 by omega, show 4 * ((b + i) / 4) = b + 4 * (i / 4) by omega,
      Nat.add_assoc]
    exact getElem!_pos (Isa.mixColumn _ _ _ _) _ hj
  have hlo (k : Nat) (hk : k < 8) :
      byteLE (aes64es (loadState s).lo (loadState s).hi) k =
        (Isa.subBytes (Isa.shiftRows s))[0 + k]! := by
    rw [byteLE_aes64es _ _ hk, (shiftRowsFwd_loadState s hk).1, Nat.zero_add,
      getElem!_subBytes _ (by omega)]
  have hhi (k : Nat) (hk : k < 8) :
      byteLE (aes64es (loadState s).hi (loadState s).lo) k =
        (Isa.subBytes (Isa.shiftRows s))[8 + k]! := by
    rw [byteLE_aes64es _ _ hk, (shiftRowsFwd_loadState s hk).2, getElem!_subBytes _ (by omega)]
  refine eq_loadState (fun i hi => ?_) fun i hi => ?_
  · have hj : i % 4 < 4 := Nat.mod_lt i (by decide)
    rw [congrArg (fun k => (Isa.mixColumns (Isa.subBytes (Isa.shiftRows s)))[k]!) (Nat.zero_add i).symm,
      hmix _ 0 i rfl (by omega) hj, roundMiddle, ← hlo _ (by omega), ← hlo _ (by omega), ← hlo _
        (by omega), ← hlo _ (by omega), ← byteLE_aes64esm _ _ (by omega) hj, Nat.div_add_mod]
  · have hj : i % 4 < 4 := Nat.mod_lt i (by decide)
    rw [hmix _ 8 i rfl (by omega) hj, roundMiddle, ← hhi _ (by omega), ← hhi _ (by omega), ← hhi _
      (by omega), ← hhi _ (by omega), ← byteLE_aes64esm _ _ (by omega) hj, Nat.div_add_mod]

theorem encryptWithSchedule_eq (nk : Nat) {nr : Nat} (hnr : 0 < nr) (key : SecretKey)
    (rk : Vector State (nr + 1)) (hrk : ∀ r < nr + 1, IsRoundKey (scheduleWord nk nr key) rk[r]! r)
    (block : Block) : encryptWithSchedule rk block = aesEncryptBlockSoft nk nr key block := by
  have hload {r : Nat} (hr : r < nr + 1) : rk[r]! = loadState (roundKey (expandKey nk nr key) r) :=
    (hrk r hr).eq_loadState
  have hmiddle (s : Block) :
      roundMiddle (loadState s) = loadState (mixColumns (shiftRows (subBytes s))) := by
    rw [roundMiddle_loadState, isa_mixColumns, isa_subBytes, isa_shiftRows, subBytes_shiftRows]
  have hfinal (s : Block) : roundFinal (loadState s) = loadState (shiftRows (subBytes s)) := by
    rw [roundFinal_loadState, isa_subBytes, isa_shiftRows, subBytes_shiftRows]
  have hrounds (n : Nat) (hn : n < nr) (s : Block) :
      (List.range' 1 n).foldl (fun state round => xorState (roundMiddle state) rk[round]!)
        (loadState s) =
        loadState ((List.range' 1 n).foldl (softRound (expandKey nk nr key)) s) := by
    induction n with
    | zero => simp only [List.range'_zero, List.foldl_nil]
    | succ n ih =>
        rw [softRounds_succ, ← xorState_loadState, ← hmiddle, ← ih (by omega), ← hload (by omega),
          List.range'_1_concat, List.foldl_append, List.foldl_cons, List.foldl_nil, Nat.add_comm 1 n]
  simp only [encryptWithSchedule]
  rw [hload (Nat.succ_pos nr), Nat.add_sub_cancel, hload (Nat.lt_succ_self nr), xorState_loadState,
    show nr + 1 - 2 = nr - 1 from rfl, hrounds (nr - 1) (by omega), hfinal, xorState_loadState,
    storeState_loadState, aesEncryptBlockSoft_eq_xor]

theorem aes256EncryptBlockRiscv_eq (key : SecretKey) (block : Block) :
    aes256EncryptBlockRiscv key block = aes256EncryptBlockSoft key block :=
  encryptWithSchedule_eq 8 (by decide) key (expandKey256Riscv key)
    (isRoundKey_expandKey256Riscv key) block

theorem aes128EncryptBlockRiscv_eq (key : SecretKey) (block : Block) :
    aes128EncryptBlockRiscv key block = aes128EncryptBlockSoft key block :=
  encryptWithSchedule_eq 4 (by decide) key (expandKey128Riscv key)
    (isRoundKey_expandKey128Riscv key) block

/-- The RISC-V backend computes the portable one's function, for both key sizes. -/
theorem aesRiscv_agrees_soft (key : SecretKey) (block : Block) :
    aes128EncryptBlockRiscv key block = aes128EncryptBlockSoft key block ∧
      aes256EncryptBlockRiscv key block = aes256EncryptBlockSoft key block :=
  ⟨aes128EncryptBlockRiscv_eq key block, aes256EncryptBlockRiscv_eq key block⟩

end Aeslib.Riscv
