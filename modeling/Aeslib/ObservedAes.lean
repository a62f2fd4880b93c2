import Aeslib.AesSoft
import Aeslib.LibLeakage

/-!
What the portable backend, `src/aes_core_soft.cpp` and `src/aes_key_schedule.hpp`, shows of its
branches and of the indices that it reads and writes. Its only branch on a secret is the conditional
expression of `xtime`, so what it shows depends on how that is compiled: as a selection it shows
nothing of the key and the block, as a jump it does.
-/

namespace Aeslib.Observed

open Leakage Fill

section Code

variable (jumps : Bool)

def xtime (b : Byte) : Leaky Byte := do
  let reduction : Byte ← conditional jumps (b &&& 0x80 ≠ 0) 0x1b 0x00
  pure (b <<< 1 ^^^ reduction)

def gmulStep (s : Byte × Byte × Byte) : Leaky (Byte × Byte × Byte) := do
  let mask : Byte := -(s.2.2 &&& 1)
  let a ← xtime jumps s.2.1
  pure (s.1 ^^^ (s.2.1 &&& mask), a, s.2.2 >>> 1)

def gmul (a b : Byte) : Leaky Byte := do
  let s ← forEach (fun s _ => gmulStep jumps s) (List.range 8) (0, a, b)
  pure s.1

/-- The branch is on a bit of the exponent. -/
def gf256InvStep (x result : Byte) (bit : Nat) : Leaky Byte := do
  let result ← gmul jumps result result
  if ← branch (254 >>> bit &&& 1 ≠ 0) then gmul jumps result x else pure result

def gf256Inv (x : Byte) : Leaky Byte := forEach (gf256InvStep jumps x) [7, 6, 5, 4, 3, 2, 1, 0] 1

def ctSbox (x : Byte) : Leaky Byte := do
  let inv ← gf256Inv jumps x
  pure (inv ^^^ rotl8 inv 1 ^^^ rotl8 inv 2 ^^^ rotl8 inv 3 ^^^ rotl8 inv 4 ^^^ 0x63)

/-- `for (auto& b : v) b = ct_sbox(b);` -/
def substitute {size : Nat} (v : Vector Byte size) : Leaky (Vector Byte size) :=
  forEach (fun v i => do
    let b ← getAt v i
    let b ← ctSbox jumps b
    setAt v i b) (List.range size) v

def scheduleSubWord (w : Word) : Leaky Word := substitute jumps w

def scheduleRotWord (w : Word) : Leaky Word := do
  let w1 ← getAt w 1
  let w2 ← getAt w 2
  let w3 ← getAt w 3
  let w0 ← getAt w 0
  pure #v[w1, w2, w3, w0]

def xorEntry (a b : Word) (i : Nat) : Leaky Byte := do
  let x ← getAt a i
  let y ← getAt b i
  pure (x ^^^ y)

def scheduleXorWord (a b : Word) : Leaky Word := do
  let w0 ← xorEntry a b 0
  let w1 ← xorEntry a b 1
  let w2 ← xorEntry a b 2
  let w3 ← xorEntry a b 3
  pure #v[w0, w1, w2, w3]

/-- `temp` after the two branches on the index. -/
def expandKeyTemp (nk : Nat) (temp : Word) (i : Nat) : Leaky Word := do
  if ← branch (i % nk = 0) then
    let rotated ← scheduleRotWord temp
    let substituted ← scheduleSubWord jumps rotated
    let rcon ← getAt kScheduleRcon (i / nk)
    scheduleXorWord substituted #v[rcon, 0, 0, 0]
  else if ← branch (nk > 6 ∧ i % nk = 4) then scheduleSubWord jumps temp
  else pure temp

def expandKeyWord (nk : Nat) {size : Nat} (schedule : Vector Word size) (i : Nat) : Leaky Word := do
  let temp ← getAt schedule (i - 1)
  let temp ← expandKeyTemp jumps nk temp i
  let before ← getAt schedule (i - nk)
  scheduleXorWord before temp

def keyWord (key : SecretKey) (i : Nat) : Leaky Word := do
  let b0 ← getAt (keyBytes key) (4 * i)
  let b1 ← getAt (keyBytes key) (4 * i + 1)
  let b2 ← getAt (keyBytes key) (4 * i + 2)
  let b3 ← getAt (keyBytes key) (4 * i + 3)
  pure #v[b0, b1, b2, b3]

/-- The first loop of `expand_key`. -/
def keyWords (nk nr : Nat) (key : SecretKey) : Leaky (Schedule nr) :=
  forEach (fun schedule i => do
    let w ← keyWord key i
    setAt schedule i w) (List.range nk) (Vector.replicate _ (Vector.replicate _ 0))

def expandKey (nk nr : Nat) (key : SecretKey) : Leaky (Schedule nr) := do
  let schedule ← keyWords nk nr key
  forEach (fun schedule i => do
    let w ← expandKeyWord jumps nk schedule i
    setAt schedule i w) (List.range' nk (kScheduleNb * (nr + 1) - nk)) schedule

def addRoundKey {nr : Nat} (state : State) (schedule : Schedule nr) (round : Nat) : Leaky State :=
  forEach (fun state c => do
    let w ← getAt schedule (round * kScheduleNb + c)
    forEach (fun (state : State) r => do
      let k ← getAt w r
      let b ← getAt state (c * 4 + r)
      setAt state (c * 4 + r) (b ^^^ k)) (List.range 4) state) (List.range kScheduleNb) state

def subBytes (state : State) : Leaky State := substitute jumps state

def shiftRows (s : State) : Leaky State :=
  forEach (fun state row =>
    forEach (fun (state : State) col => do
      let b ← getAt s ((col + row) % 4 * 4 + row)
      setAt state (col * 4 + row) b) (List.range 4) state) [1, 2, 3] s

def mixColumn (a0 a1 a2 a3 : Byte) : Leaky Word := do
  let b00 ← gmul jumps a0 2
  let b01 ← gmul jumps a1 3
  let b11 ← gmul jumps a1 2
  let b12 ← gmul jumps a2 3
  let b22 ← gmul jumps a2 2
  let b23 ← gmul jumps a3 3
  let b30 ← gmul jumps a0 3
  let b33 ← gmul jumps a3 2
  pure #v[b00 ^^^ b01 ^^^ a2 ^^^ a3, a0 ^^^ b11 ^^^ b12 ^^^ a3, a0 ^^^ a1 ^^^ b22 ^^^ b23,
    b30 ^^^ a1 ^^^ a2 ^^^ b33]

def mixColumns (state : State) : Leaky State :=
  forEach (fun (state : State) c => do
    let a0 ← getAt state (c * 4)
    let a1 ← getAt state (c * 4 + 1)
    let a2 ← getAt state (c * 4 + 2)
    let a3 ← getAt state (c * 4 + 3)
    let w ← mixColumn jumps a0 a1 a2 a3
    let state ← setAt state (c * 4) w[0]!
    let state ← setAt state (c * 4 + 1) w[1]!
    let state ← setAt state (c * 4 + 2) w[2]!
    setAt state (c * 4 + 3) w[3]!) (List.range 4) state

def softRound {nr : Nat} (schedule : Schedule nr) (state : State) (round : Nat) : Leaky State := do
  let state ← subBytes jumps state
  let state ← shiftRows state
  let state ← mixColumns jumps state
  addRoundKey state schedule round

/-- `wipe_schedule`, on the bytes of the schedule. -/
def wipeSchedule (nr : Nat) : Leaky Unit :=
  forEach (fun _ i => access i) (List.range (4 * (kScheduleNb * (nr + 1)))) ()

/-- The copies of the block into the state and back. -/
def copyBlock (block : Block) : Leaky State :=
  forEach (fun (state : State) i => do
    let b ← getAt block i
    setAt state i b) (List.range 16) (Vector.replicate 16 0)

def aesEncryptBlockSoft (nk nr : Nat) (key : SecretKey) (block : Block) : Leaky Block := do
  let schedule ← expandKey jumps nk nr key
  let state ← copyBlock block
  let state ← addRoundKey state schedule 0
  let state ← forEach (softRound jumps schedule) (List.range' 1 (nr - 1)) state
  let state ← subBytes jumps state
  let state ← shiftRows state
  let state ← addRoundKey state schedule nr
  wipeSchedule nr
  copyBlock state

def aes256EncryptBlockSoft (key : SecretKey) (block : Block) : Leaky Block :=
  aesEncryptBlockSoft jumps 8 14 key block

def aes128EncryptBlockSoft (key : SecretKey) (block : Block) : Leaky Block :=
  aesEncryptBlockSoft jumps 4 10 key block

/-- `encrypt_block` where the portable backend is in use. -/
def encryptBlock (key : SecretKey) (block : Block) : Leaky Block := do
  if ← branch (key.sizeBytes = 16) then
    let _ ← branch false
    aes128EncryptBlockSoft jumps key block
  else
    let _ ← branch false
    aes256EncryptBlockSoft jumps key block

end Code

section Value

variable (jumps : Bool)

@[simp] theorem value_xtime (b : Byte) : (xtime jumps b).value = Aeslib.xtime b := by
  simp only [xtime, Aeslib.xtime, value_bind, value_conditional, value_pure, decide_eq_true_eq]

@[simp] theorem value_gmulStep (s : Byte × Byte × Byte) :
    (gmulStep jumps s).value = Aeslib.gmulStep s := by
  rw [gmulStep, value_bind, value_xtime]
  rfl

@[simp] theorem value_gmul (a b : Byte) : (gmul jumps a b).value = Aeslib.gmul a b := by
  simp only [gmul, value_bind, value_forEach, value_gmulStep, value_pure]
  rfl

@[simp] theorem value_gf256InvStep (x result : Byte) (bit : Nat) :
    (gf256InvStep jumps x result bit).value = Aeslib.gf256InvStep x result bit := by
  rw [gf256InvStep, value_bind, value_if, value_gmul, value_gmul, value_pure]
  simp only [Aeslib.gf256InvStep, decide_eq_true_eq]

@[simp] theorem value_ctSbox (x : Byte) : (ctSbox jumps x).value = Aeslib.ctSbox x := by
  simp only [ctSbox, gf256Inv, value_bind, value_forEach, value_gf256InvStep, value_pure]
  rfl

@[simp] theorem value_substitute {size : Nat} (v : Vector Byte size) :
    (substitute jumps v).value = v.map Aeslib.ctSbox := by
  simp only [substitute, value_forEach, value_bind, value_getAt, value_ctSbox, value_setAt,
    List.range_eq_range']
  refine (fill_update (fun b _ => Aeslib.ctSbox b) v).trans (Vector.ext fun i hi => ?_)
  rw [Vector.getElem_ofFn, Vector.getElem_map, getElem!_pos v i hi]

@[simp] theorem value_scheduleRotWord (w : Word) :
    (scheduleRotWord w).value = Aeslib.scheduleRotWord w := rfl

@[simp] theorem value_scheduleXorWord (a b : Word) :
    (scheduleXorWord a b).value = Aeslib.scheduleXorWord a b := rfl

@[simp] theorem value_expandKeyTemp (nk : Nat) (temp : Word) (i : Nat) :
    (expandKeyTemp jumps nk temp i).value =
    if i % nk = 0 then Aeslib.scheduleXorWord (Aeslib.scheduleSubWord (Aeslib.scheduleRotWord temp))
      #v[kScheduleRcon[i / nk]!, 0, 0, 0]
    else if nk > 6 ∧ i % nk = 4 then Aeslib.scheduleSubWord temp
    else temp := by
  rw [expandKeyTemp, value_if, value_if]
  simp only [scheduleSubWord, Aeslib.scheduleSubWord, value_bind, value_scheduleRotWord,
    value_substitute, value_getAt, value_scheduleXorWord, value_pure, decide_eq_true_eq]

@[simp] theorem value_expandKeyWord (nk : Nat) {size : Nat} (schedule : Vector Word size) (i : Nat) :
    (expandKeyWord jumps nk schedule i).value = Aeslib.expandKeyWord nk schedule i := by
  simp [expandKeyWord, Aeslib.expandKeyWord]

@[simp] theorem value_expandKey (nk nr : Nat) (key : SecretKey) :
    (expandKey jumps nk nr key).value = Aeslib.expandKey nk nr key := by
  simp only [expandKey, keyWords, keyWord, value_bind, value_forEach, value_getAt, value_setAt,
    value_pure, value_expandKeyWord, List.range_eq_range']
  rfl

@[simp] theorem value_addRoundKey {nr : Nat} (state : State) (schedule : Schedule nr) (round : Nat) :
    (addRoundKey state schedule round).value = Aeslib.addRoundKey state schedule round := by
  have hrow (c : Nat) (state : State) :
      (List.range 4).foldl (fun (state : State) r => state.setIfInBounds (c * 4 + r)
      (state[c * 4 + r]! ^^^ (schedule[round * kScheduleNb + c]!)[r]!)) state =
      fill (fun state i => state[i]! ^^^ (schedule[round * kScheduleNb + i / 4]!)[i % 4]!)
        (c * 4) 4 state := by
    rw [fill, List.range'_eq_map_range, List.foldl_map]
    refine List.foldl_ext _ _ state fun state r hr => ?_
    have hlt : r < 4 := List.mem_range.mp hr
    rw [show (c * 4 + r) / 4 = c by omega, show (c * 4 + r) % 4 = r by omega]
  simp only [addRoundKey, value_forEach, value_bind, value_getAt, value_setAt, hrow]
  rw [foldl_fill]
  refine (fill_update (fun b i => b ^^^ (schedule[round * kScheduleNb + i / 4]!)[i % 4]!) state).trans ?_
  refine Vector.ext fun i hi => ?_
  rw [Vector.getElem_ofFn, Aeslib.addRoundKey, Vector.getElem_ofFn, getElem!_pos state i hi]
  rfl

/-- One row is shifted, and the other ones stay. -/
theorem getElem_shiftRow (s state : State) {row j : Nat} (hrow : row < 4) (hj : j < kBlockSizeBytes) :
    ((List.range 4).foldl
      (fun (state : State) col => state.setIfInBounds (col * 4 + row) s[(col + row) % 4 * 4 + row]!)
      state)[j] = if j % 4 = row then s[(j / 4 + row) % 4 * 4 + row]! else state[j] := by
  have hsize : j < 16 := hj
  have hrange : List.range 4 = [0, 1, 2, 3] := rfl
  simp only [hrange, List.foldl_cons, List.foldl_nil]
  by_cases hmod : j % 4 = row
  · rw [if_pos hmod]
    obtain hcol | hcol | hcol | hcol : j / 4 = 0 ∨ j / 4 = 1 ∨ j / 4 = 2 ∨ j / 4 = 3 := by omega
    all_goals
      rw [hcol]
      simp only [Vector.getElem_setIfInBounds hj]
      split_ifs <;> first | rfl | omega
  · rw [if_neg hmod]
    simp only [Vector.getElem_setIfInBounds hj]
    split_ifs <;> first | rfl | omega

@[simp] theorem value_shiftRows (s : State) : (shiftRows s).value = Aeslib.shiftRows s := by
  simp only [shiftRows, value_forEach, value_bind, value_getAt, value_setAt, List.foldl_cons,
    List.foldl_nil]
  refine Vector.ext fun j hj => ?_
  have hsize : j < 16 := hj
  rw [getElem_shiftRow s _ (by decide) hj, getElem_shiftRow s _ (by decide) hj,
    getElem_shiftRow s _ (by decide) hj, Aeslib.shiftRows, Vector.getElem_ofFn]
  split_ifs with h3 h2 h1
  · simp only [h3]
  · simp only [h2]
  · simp only [h1]
  · -- the first row
    have hfirst : (j / 4 + j % 4) % 4 * 4 + j % 4 = j := by omega
    simp only [hfirst, getElem!_pos s j hj]

@[simp] theorem value_mixColumn (a0 a1 a2 a3 : Byte) :
    (mixColumn jumps a0 a1 a2 a3).value = Aeslib.mixColumn a0 a1 a2 a3 := by
  rw [mixColumn]
  -- one product at a time
  iterate 8 rw [value_bind, value_gmul]
  rfl

/-- The bytes that `mix_columns` stores in column `c`. -/
def columnOf (state : State) (c : Nat) : Word :=
  Aeslib.mixColumn state[c * 4]! state[c * 4 + 1]! state[c * 4 + 2]! state[c * 4 + 3]!

/-- Each iteration reads a column that the ones before it have not written. -/
theorem foldl_columns (state : State) (m : Nat) :
    (List.range m).foldl
    (fun state c => fill (fun _ i => (columnOf state c)[i - c * 4]!) (c * 4) 4 state) state =
      fill (fun _ i => (columnOf state (i / 4))[i % 4]!) 0 (m * 4) state := by
  induction m with
  | zero => rfl
  | succ m ih =>
      have hadd := fill_add (fun _ i => (columnOf state (i / 4))[i % 4]!) 0 (m * 4) 4 state
      rw [Nat.zero_add] at hadd
      rw [List.range_succ, List.foldl_append, List.foldl_cons, List.foldl_nil, ih, Nat.succ_mul, ← hadd]
      refine fill_congr _ _ _ fun k hk => ?_
      have hread (j : Nat) (hj : m * 4 ≤ j) :
          (fill (fun _ i => (columnOf state (i / 4))[i % 4]!) 0 (m * 4) state)[j]! =
          state[j]! := fill_of_ge _ 0 state (by omega)
      rw [show (m * 4 + k) / 4 = m by omega, show (m * 4 + k) % 4 = k by omega,
        Nat.add_sub_cancel_left, columnOf, columnOf, hread _ (by omega), hread _ (by omega),
        hread _ (by omega), hread _ (by omega)]

@[simp] theorem value_mixColumns (state : State) :
    (mixColumns jumps state).value = Aeslib.mixColumns state := by
  have hcolumn (c : Nat) (state : State) :
      (((state.setIfInBounds (c * 4) (columnOf state c)[0]!).setIfInBounds (c * 4 + 1)
      (columnOf state c)[1]!).setIfInBounds (c * 4 + 2) (columnOf state c)[2]!).setIfInBounds (c * 4 + 3)
      (columnOf state c)[3]! = fill (fun _ i => (columnOf state c)[i - c * 4]!) (c * 4) 4 state := by
    rw [fill, show List.range' (c * 4) 4 = [c * 4, c * 4 + 1, c * 4 + 2, c * 4 + 3] from rfl]
    simp only [List.foldl_cons, List.foldl_nil, Nat.sub_self, Nat.add_sub_cancel_left]
  have hof (state : State) (c : Nat) :
      Aeslib.mixColumn state[c * 4]! state[c * 4 + 1]! state[c * 4 + 2]! state[c * 4 + 3]! =
      columnOf state c := rfl
  simp only [mixColumns, value_forEach, value_bind, value_getAt, value_setAt, value_mixColumn, hof,
    hcolumn]
  rw [foldl_columns]
  exact fill_eq_ofFn (fun i => (columnOf state (i / 4))[i % 4]!) state

@[simp] theorem value_softRound {nr : Nat} (schedule : Schedule nr) (state : State) (round : Nat) :
    (softRound jumps schedule state round).value = Aeslib.softRound schedule state round := by
  rw [softRound, subBytes, value_bind, value_bind, value_bind, value_substitute, value_shiftRows,
    value_mixColumns, value_addRoundKey]
  rfl

@[simp] theorem value_copyBlock (block : Block) : (copyBlock block).value = block := by
  simp only [copyBlock, value_forEach, value_bind, value_getAt, value_setAt, List.range_eq_range']
  refine (fill_eq_ofFn (fun i => block[i]!) (Vector.replicate 16 0)).trans (Vector.ext fun i hi => ?_)
  rw [Vector.getElem_ofFn, getElem!_pos block i hi]

@[simp] theorem value_aesEncryptBlockSoft (nk nr : Nat) (key : SecretKey) (block : Block) :
    (aesEncryptBlockSoft jumps nk nr key block).value = Aeslib.aesEncryptBlockSoft nk nr key block := by
  simp only [aesEncryptBlockSoft, subBytes, value_bind, value_expandKey, value_copyBlock,
    value_addRoundKey, value_forEach, value_softRound, value_substitute, value_shiftRows]
  rfl

end Value

section Selections

theorem alike_gmulStep (s s' : Byte × Byte × Byte) : Alike (gmulStep false s) (gmulStep false s') :=
  ((alike_conditional _ _ _ _ _ _).bind fun _ _ => alike_pure _ _).bind fun _ _ => alike_pure _ _

theorem alike_gmul (a b a' b' : Byte) : Alike (gmul false a b) (gmul false a' b') :=
  (alike_forEach (fun _ _ s t => alike_gmulStep s t) _ _).bind fun _ _ => alike_pure _ _

theorem alike_gf256InvStep (x x' result result' : Byte) (bit : Nat) :
    Alike (gf256InvStep false x result bit) (gf256InvStep false x' result' bit) := by
  refine (alike_gmul _ _ _ _).bind fun r r' => alike_if (fun _ => ?_) fun _ => ?_
  · exact alike_gmul r x r' x'
  · exact alike_pure r r'

theorem alike_ctSbox (x x' : Byte) : Alike (ctSbox false x) (ctSbox false x') :=
  (alike_forEach (fun bit _ r r' => alike_gf256InvStep x x' r r' bit) _ _).bind fun _ _ => alike_pure _ _

theorem alike_substitute {size : Nat} (v v' : Vector Byte size) :
    Alike (substitute false v) (substitute false v') :=
  alike_forEach (fun i _ v v' => (alike_getAt v v' i).bind fun b b' => (alike_ctSbox b b').bind
    fun _ _ =>
    alike_setAt v v' i _ _) v v'

theorem alike_scheduleRotWord (w w' : Word) : Alike (scheduleRotWord w) (scheduleRotWord w') := ⟨rfl⟩

theorem alike_scheduleXorWord (a b a' b' : Word) :
    Alike (scheduleXorWord a b) (scheduleXorWord a' b') := ⟨rfl⟩

theorem alike_expandKeyTemp (nk : Nat) (temp temp' : Word) (i : Nat) :
    Alike (expandKeyTemp false nk temp i) (expandKeyTemp false nk temp' i) := by
  refine alike_if (fun _ => ?_) fun _ => alike_if (fun _ => ?_) fun _ => ?_
  · refine (alike_scheduleRotWord temp temp').bind fun r r' =>
      (alike_substitute r r').bind fun w w' => ?_
    exact Alike.bind_value ⟨rfl⟩ (alike_scheduleXorWord _ _ _ _)
  · exact alike_substitute temp temp'
  · exact alike_pure temp temp'

theorem alike_expandKeyWord (nk : Nat) {size : Nat} (schedule schedule' : Vector Word size) (i : Nat) :
    Alike (expandKeyWord false nk schedule i) (expandKeyWord false nk schedule' i) := by
  refine (alike_getAt schedule schedule' (i - 1)).bind fun temp temp' =>
    (alike_expandKeyTemp nk temp temp' i).bind fun t t' => ?_
  exact (alike_getAt schedule schedule' (i - nk)).bind fun b b' => alike_scheduleXorWord b t b' t'

theorem alike_keyWord (key key' : SecretKey) (i : Nat) : Alike (keyWord key i) (keyWord key' i) := ⟨rfl⟩

theorem alike_keyWords (nk nr : Nat) (key key' : SecretKey) :
    Alike (keyWords nk nr key) (keyWords nk nr key') :=
  alike_forEach (fun i _ s s' => (alike_keyWord key key' i).bind fun w w' => alike_setAt s s' i w w') _ _

theorem alike_expandKey (nk nr : Nat) (key key' : SecretKey) :
    Alike (expandKey false nk nr key) (expandKey false nk nr key') := by
  refine (alike_keyWords nk nr key key').bind fun s s' => alike_forEach (fun i _ s s' => ?_) s s'
  exact (alike_expandKeyWord nk s s' i).bind fun w w' => alike_setAt s s' i w w'

theorem alike_addRoundKey {nr : Nat} (state state' : State) (schedule schedule' : Schedule nr)
    (round : Nat) :
    Alike (addRoundKey state schedule round) (addRoundKey state' schedule' round) := by
  refine alike_forEach
    (fun c _ s s' => (alike_getAt schedule schedule' (round * kScheduleNb + c)).bind fun w w' => ?_) _ _
  refine alike_forEach (fun r _ s s' => (alike_getAt w w' r).bind fun k k' => ?_) _ _
  exact (alike_getAt s s' (c * 4 + r)).bind fun b b' => alike_setAt s s' (c * 4 + r) (b ^^^ k)
    (b' ^^^ k')

theorem alike_shiftRows (s s' : State) : Alike (shiftRows s) (shiftRows s') := by
  refine alike_forEach (fun row _ t t' => ?_) _ _
  refine alike_forEach (fun col _ u u' => ?_) _ _
  exact (alike_getAt s s' ((col + row) % 4 * 4 + row)).bind fun b b' =>
    alike_setAt u u' (col * 4 + row) b b'

theorem alike_mixColumn (a0 a1 a2 a3 a0' a1' a2' a3' : Byte) :
    Alike (mixColumn false a0 a1 a2 a3) (mixColumn false a0' a1' a2' a3') :=
  (alike_gmul _ _ _ _).bind fun _ _ => (alike_gmul _ _ _ _).bind fun _ _ =>
    (alike_gmul _ _ _ _).bind fun _ _ =>
    (alike_gmul _ _ _ _).bind fun _ _ => (alike_gmul _ _ _ _).bind fun _ _ =>
      (alike_gmul _ _ _ _).bind fun _ _ =>
      (alike_gmul _ _ _ _).bind fun _ _ => (alike_gmul _ _ _ _).bind fun _ _ => alike_pure _ _

theorem alike_mixColumns (state state' : State) :
    Alike (mixColumns false state) (mixColumns false state') := by
  refine alike_forEach (fun c _ s s' => ?_) state state'
  refine (alike_getAt s s' _).bind fun a0 a0' => (alike_getAt s s' _).bind fun a1 a1' =>
    (alike_getAt s s' _).bind fun a2 a2' =>
    (alike_getAt s s' _).bind fun a3 a3' =>
      (alike_mixColumn a0 a1 a2 a3 a0' a1' a2' a3').bind fun w w' => ?_
  exact (alike_setAt s s' _ _ _).bind fun s s' => (alike_setAt s s' _ _ _).bind fun s s' =>
    (alike_setAt s s' _ _ _).bind fun s s' => alike_setAt s s' _ _ _

theorem alike_softRound {nr : Nat} (schedule schedule' : Schedule nr) (state state' : State)
    (round : Nat) :
    Alike (softRound false schedule state round) (softRound false schedule' state' round) :=
  (alike_substitute state state').bind fun s s' => (alike_shiftRows s s').bind fun s s' =>
    (alike_mixColumns s s').bind fun s s' => alike_addRoundKey s s' schedule schedule' round

theorem alike_copyBlock (block block' : Block) : Alike (copyBlock block) (copyBlock block') :=
  alike_forEach (fun i _ s s' => (alike_getAt block block' i).bind fun b b' =>
    alike_setAt s s' i b b') _ _

theorem alike_aesEncryptBlockSoft (nk nr : Nat) (key key' : SecretKey) (block block' : Block) :
    Alike (aesEncryptBlockSoft false nk nr key block) (aesEncryptBlockSoft false nk nr key' block') := by
  refine (alike_expandKey nk nr key key').bind fun schedule schedule' =>
    (alike_copyBlock block block').bind fun s s' => ?_
  refine (alike_addRoundKey s s' schedule schedule' 0).bind fun s s' => ?_
  refine (alike_forEach (fun round _ s s' => alike_softRound schedule schedule' s s' round) s
    s').bind fun s s' => ?_
  refine (alike_substitute s s').bind fun s s' => (alike_shiftRows s s').bind fun s s' => ?_
  refine (alike_addRoundKey s s' schedule schedule' nr).bind fun s s' => ?_
  exact Alike.bind_value ⟨rfl⟩ (alike_copyBlock s s')

theorem alike_encryptBlock {key key' : SecretKey} (hsize : key.size = key'.size) (block block' : Block) :
    Alike (encryptBlock false key block) (encryptBlock false key' block') := by
  have hbytes : key.sizeBytes = key'.sizeBytes := congrArg KeySize.sizeBytes hsize
  rw [encryptBlock, encryptBlock, hbytes]
  refine alike_if (fun _ => Alike.bind_value ⟨rfl⟩ ?_) fun _ => Alike.bind_value ⟨rfl⟩ ?_
  · exact alike_aesEncryptBlockSoft 4 10 key key' block block'
  · exact alike_aesEncryptBlockSoft 8 14 key key' block block'

end Selections

section Jumps

theorem diverge_gmul {a a' : Byte} (h : decide (a &&& 0x80 ≠ 0) ≠ decide (a' &&& 0x80 ≠ 0))
    (b b' : Byte) : Diverge (gmul true a b) (gmul true a' b') := by
  have hstep : Diverge (gmulStep true (0, a, b)) (gmulStep true (0, a', b')) :=
    (diverge_conditional h _ _ _ _).bind.bind
  exact (diverge_forEach hstep).bind

/-- The first bit of the argument that is seen is that of its square. -/
theorem diverge_gf256Inv : Diverge (gf256Inv true 0x00) (gf256Inv true 0x80) := by
  have hfirst : Alike (gf256InvStep true 0x00 1 7) (gf256InvStep true 0x80 1 7) := by
    constructor
    decide +kernel
  refine Alike.bind_diverge (p := branch true) (q := branch true) ⟨rfl⟩
    (hfirst.bind_diverge (diverge_forEach ?_))
  rw [value_gf256InvStep, value_gf256InvStep]
  exact (diverge_gmul (by decide +kernel) _ _).bind

theorem diverge_substitute {size : Nat} {v v' : Vector Byte (size + 1)} (h : v[0]! = 0x00)
    (h' : v'[0]! = 0x80) : Diverge (substitute true v) (substitute true v') := by
  rw [substitute, substitute, List.range_succ_eq_map]
  refine diverge_forEach (Alike.bind_diverge (alike_getAt v v' 0) ?_)
  rw [value_getAt, value_getAt, h, h']
  exact diverge_gf256Inv.bind.bind

/-- The zero key with the byte `0x80` in the last word. -/
def markedKey : SecretKey := { bytes := (Vector.replicate kKeySizeBytes 0).set 29 0x80 }

theorem diverge_expandKey : Diverge (expandKey true 8 14 {}) (expandKey true 8 14 markedKey) := by
  have hfirst : (scheduleRotWord ((keyWords 8 14 {}).value[8 - 1]!)).value[0]! = 0x00 := by
    decide +kernel
  have hfirst' : (scheduleRotWord ((keyWords 8 14 markedKey).value[8 - 1]!)).value[0]! = 0x80 := by
    decide +kernel
  refine (alike_keyWords 8 14 {} markedKey).bind_diverge ?_
  rw [show List.range' 8 (kScheduleNb * (14 + 1) - 8) = 8 :: List.range' 9 51 from rfl]
  refine diverge_forEach (Diverge.bind ((alike_getAt _ _ _).bind_diverge (Diverge.bind ?_)))
  -- the word with index 8 is rotated and substituted
  refine Alike.bind_diverge (p := branch true) (q := branch true) ⟨rfl⟩
    ((alike_scheduleRotWord _ _).bind_diverge ?_)
  exact (diverge_substitute hfirst hfirst').bind

theorem diverge_encryptBlock (block : Block) :
    Diverge (encryptBlock true {} block) (encryptBlock true markedKey block) := by
  refine Alike.bind_diverge (p := branch false) (q := branch false) ⟨rfl⟩ ?_
  exact Alike.bind_diverge (p := branch false) (q := branch false) ⟨rfl⟩ diverge_expandKey.bind

end Jumps

end Aeslib.Observed
