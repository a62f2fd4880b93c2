import Aeslib.Key

/-!
The portable backend: `src/aes_key_schedule.hpp` and `src/aes_core_soft.cpp`. The template parameters
`Nk` and `Nr` are arguments; the loops are folds over the index ranges of the source.
-/

namespace Aeslib

open Fill

def xtime (b : Byte) : Byte := b <<< 1 ^^^ (if b &&& 0x80 ≠ 0 then 0x1b else 0x00)

/-- One round of `gmul` on its variables `product`, `a`, `b`. -/
def gmulStep (s : Byte × Byte × Byte) : Byte × Byte × Byte :=
  let (product, a, b) := s
  let mask : Byte := -(b &&& 1)
  (product ^^^ (a &&& mask), xtime a, b >>> 1)

def gmul (a b : Byte) : Byte := ((List.range 8).foldl (fun s _ => gmulStep s) (0, a, b)).1

/-- One round of `gf256_inv` for the exponent's bit `bit`. -/
def gf256InvStep (x : Byte) (result : Byte) (bit : Nat) : Byte :=
  let result := gmul result result
  if 254 >>> bit &&& 1 ≠ 0 then gmul result x else result

def gf256Inv (x : Byte) : Byte := [7, 6, 5, 4, 3, 2, 1, 0].foldl (gf256InvStep x) 1

def rotl8 (v : Byte) (shift : Nat) : Byte := v <<< shift ||| v >>> (8 - shift)

def ctSbox (x : Byte) : Byte :=
  let inv := gf256Inv x
  inv ^^^ rotl8 inv 1 ^^^ rotl8 inv 2 ^^^ rotl8 inv 3 ^^^ rotl8 inv 4 ^^^ 0x63

abbrev Word := Vector Byte 4

abbrev kScheduleNb : Nat := 4

def kScheduleRcon : Vector Byte 11 :=
  #v[0x00, 0x01, 0x02, 0x04, 0x08, 0x10, 0x20, 0x40, 0x80, 0x1B, 0x36]

def scheduleSubWord (w : Word) : Word := w.map ctSbox

def scheduleRotWord (w : Word) : Word := #v[w[1], w[2], w[3], w[0]]

def scheduleXorWord (a b : Word) : Word :=
  #v[a[0] ^^^ b[0], a[1] ^^^ b[1], a[2] ^^^ b[2], a[3] ^^^ b[3]]

abbrev Schedule (nr : Nat) := Vector Word (kScheduleNb * (nr + 1))

/-- The word that `expand_key`'s second loop stores at index `i`. -/
def expandKeyWord (nk : Nat) {n : Nat} (schedule : Vector Word n) (i : Nat) : Word :=
  let temp := schedule[i - 1]!
  let temp :=
    if i % nk = 0 then
      scheduleXorWord (scheduleSubWord (scheduleRotWord temp)) #v[kScheduleRcon[i / nk]!, 0, 0, 0]
    else if nk > 6 ∧ i % nk = 4 then scheduleSubWord temp
    else temp
  scheduleXorWord schedule[i - nk]! temp

def expandKey (nk nr : Nat) (key : SecretKey) : Schedule nr :=
  let kb := keyBytes key
  let schedule : Schedule nr := Vector.replicate _ (Vector.replicate _ 0)
  let schedule := fill
    (fun _ i => #v[kb[4 * i]!, kb[4 * i + 1]!, kb[4 * i + 2]!, kb[4 * i + 3]!]) 0 nk schedule
  fill (expandKeyWord nk) nk (kScheduleNb * (nr + 1) - nk) schedule

theorem expandKeyWord_congr {nk n i : Nat} {s t : Vector Word n} (h1 : s[i - 1]! = t[i - 1]!)
    (hnk : s[i - nk]! = t[i - nk]!) : expandKeyWord nk s i = expandKeyWord nk t i := by
  simp only [expandKeyWord, h1, hnk]

/-- The first `nk` words are the key. -/
theorem expandKey_lt {nk nr i : Nat} {key : SecretKey} (h : i < nk) (hi : i < kScheduleNb * (nr + 1)) :
    (expandKey nk nr key)[i]! = #v[(keyBytes key)[4 * i]!, (keyBytes key)[4 * i + 1]!,
      (keyBytes key)[4 * i + 2]!, (keyBytes key)[4 * i + 3]!] := by
  rw [expandKey, fill_of_lt _ _ _ (show i < nk + 0 by omega) (Nat.zero_le _)]
  have hentry := fill_entry
    (fun (_ : Schedule nr) i =>
    (#v[(keyBytes key)[4 * i]!, (keyBytes key)[4 * i + 1]!, (keyBytes key)[4 * i + 2]!,
    (keyBytes key)[4 * i + 3]!] : Word)) 0
    (Vector.replicate _ (Vector.replicate _ 0)) h (by omega)
  rwa [Nat.zero_add] at hentry

/-- The later words satisfy the recurrence. -/
theorem expandKey_ge {nk nr i : Nat} {key : SecretKey} (hnk : 0 < nk) (h : nk ≤ i)
    (hi : i < kScheduleNb * (nr + 1)) :
    (expandKey nk nr key)[i]! = expandKeyWord nk (expandKey nk nr key) i := by
  obtain ⟨m, rfl⟩ : ∃ m, i = nk + m := ⟨i - nk, by omega⟩
  rw [expandKey, fill_entry _ _ _ (by omega) hi]
  refine expandKeyWord_congr ?_ ?_
  · exact (fill_of_lt _ _ _ (by omega) (by omega)).symm
  · exact (fill_of_lt _ _ _ (by omega) (by omega)).symm

/-- The state is column-major: `state[col * 4 + row]`. -/
abbrev State := Vector Byte 16

def addRoundKey {nr : Nat} (state : State) (schedule : Schedule nr) (round : Nat) : State :=
  Vector.ofFn fun i => state[i] ^^^ (schedule[round * kScheduleNb + i.val / 4]!)[i.val % 4]!

def subBytes (state : State) : State := state.map ctSbox

/-- Row 0 is not touched by the source's loop; the formula leaves it in place. -/
def shiftRows (state : State) : State :=
  Vector.ofFn fun i => state[((i.val / 4 + i.val % 4) % 4) * 4 + i.val % 4]!

/-- One column of `mix_columns`. -/
def mixColumn (a0 a1 a2 a3 : Byte) : Word :=
  #v[gmul a0 2 ^^^ gmul a1 3 ^^^ a2 ^^^ a3,
    a0 ^^^ gmul a1 2 ^^^ gmul a2 3 ^^^ a3,
    a0 ^^^ a1 ^^^ gmul a2 2 ^^^ gmul a3 3,
    gmul a0 3 ^^^ a1 ^^^ a2 ^^^ gmul a3 2]

def mixColumns (state : State) : State :=
  Vector.ofFn fun i =>
    let c := i.val / 4
    (mixColumn state[c * 4]! state[c * 4 + 1]! state[c * 4 + 2]! state[c * 4 + 3]!)[i.val % 4]!

def softRound {nr : Nat} (schedule : Schedule nr) (state : State) (round : Nat) : State :=
  addRoundKey (mixColumns (shiftRows (subBytes state))) schedule round

def aesEncryptBlockSoft (nk nr : Nat) (key : SecretKey) (block : Block) : Block :=
  let schedule := expandKey nk nr key
  let state := addRoundKey block schedule 0
  let state := (List.range' 1 (nr - 1)).foldl (softRound schedule) state
  addRoundKey (shiftRows (subBytes state)) schedule nr

def aes256EncryptBlockSoft (key : SecretKey) (block : Block) : Block :=
  aesEncryptBlockSoft 8 14 key block

def aes128EncryptBlockSoft (key : SecretKey) (block : Block) : Block :=
  aesEncryptBlockSoft 4 10 key block

end Aeslib
