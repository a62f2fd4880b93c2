import Aeslib.BridgeIsa

/-!
The ARM Crypto Extensions backend, `src/aes_core_arm.cpp`. AESE adds a round key before it
substitutes and permutes, so its state runs one `AddRoundKey` behind the portable one.
-/

namespace Aeslib

open Isa.Arm

def packRoundKeys {nr : Nat} (schedule : Schedule nr) : Vector (Vector Byte 16) (nr + 1) :=
  Vector.ofFn fun round =>
    Vector.ofFn fun i => (schedule[round.val * kScheduleNb + i.val / 4]!)[i.val % 4]!

def aesEncryptBlockArm (nk nr : Nat) (key : SecretKey) (block : Block) : Block :=
  let roundKeys := packRoundKeys (expandKey nk nr key)
  let state := (List.range (nr - 1)).foldl
    (fun state round => vaesmcq (vaeseq state roundKeys[round]!)) block
  let state := vaeseq state roundKeys[nr - 1]!
  veorq state roundKeys[nr]!

def aes256EncryptBlockArm (key : SecretKey) (block : Block) : Block := aesEncryptBlockArm 8 14 key block

def aes128EncryptBlockArm (key : SecretKey) (block : Block) : Block := aesEncryptBlockArm 4 10 key block

theorem packRoundKeys_eq {nr : Nat} (schedule : Schedule nr) {round : Nat} (h : round < nr + 1) :
    (packRoundKeys schedule)[round]! = roundKey schedule round := by
  rw [getElem!_pos (packRoundKeys schedule) _ h, packRoundKeys, Vector.getElem_ofFn]
  rfl

theorem vaeseq_eq (x k : State) : vaeseq x k = shiftRows (subBytes (Isa.xorState x k)) := by
  rw [vaeseq, isa_subBytes, isa_shiftRows]

theorem vaesmcq_vaeseq (x k : State) :
    vaesmcq (vaeseq x k) = mixColumns (shiftRows (subBytes (Isa.xorState x k))) := by
  rw [vaesmcq, isa_mixColumns, vaeseq_eq]

/-- Adding the pending round key to the state after `n` rounds gives the portable state after `n`
rounds. -/
theorem armRounds_xor {nr : Nat} (schedule : Schedule nr) (block : State) {n : Nat} (hn : n < nr + 1) :
    Isa.xorState
        ((List.range n).foldl
          (fun state round => vaesmcq (vaeseq state (packRoundKeys schedule)[round]!)) block)
        (roundKey schedule n) =
      (List.range' 1 n).foldl (softRound schedule) (Isa.xorState block (roundKey schedule 0)) := by
  induction n with
  | zero => simp only [List.range_zero, List.range'_zero, List.foldl_nil]
  | succ n ih =>
      have hprev := ih (by omega)
      rw [List.range_succ, List.foldl_append, List.foldl_cons, List.foldl_nil,
        packRoundKeys_eq schedule (by omega), vaesmcq_vaeseq, hprev, softRounds_succ]

theorem aesEncryptBlockArm_eq (nk : Nat) {nr : Nat} (hnr : 0 < nr) (key : SecretKey) (block : Block) :
    aesEncryptBlockArm nk nr key block = aesEncryptBlockSoft nk nr key block := by
  have hrounds := armRounds_xor (expandKey nk nr key) block (show nr - 1 < nr + 1 by omega)
  rw [aesEncryptBlockSoft_eq_xor, ← hrounds]
  simp only [aesEncryptBlockArm]
  rw [packRoundKeys_eq _ (show nr - 1 < nr + 1 by omega), packRoundKeys_eq _ (Nat.lt_succ_self nr),
    vaeseq_eq, veorq]

theorem aes256EncryptBlockArm_eq (key : SecretKey) (block : Block) :
    aes256EncryptBlockArm key block = aes256EncryptBlockSoft key block :=
  aesEncryptBlockArm_eq 8 (by decide) key block

theorem aes128EncryptBlockArm_eq (key : SecretKey) (block : Block) :
    aes128EncryptBlockArm key block = aes128EncryptBlockSoft key block :=
  aesEncryptBlockArm_eq 4 (by decide) key block

/-- The ARM backend computes the portable one's function, for both key sizes. -/
theorem aesArm_agrees_soft (key : SecretKey) (block : Block) :
    aes128EncryptBlockArm key block = aes128EncryptBlockSoft key block ∧
      aes256EncryptBlockArm key block = aes256EncryptBlockSoft key block :=
  ⟨aes128EncryptBlockArm_eq key block, aes256EncryptBlockArm_eq key block⟩

end Aeslib
