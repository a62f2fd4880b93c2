import Aeslib.BridgeRfc2104
import Aeslib.StandardRfc8018

/-!
`pbkdf2_hmac_sha256` is PBKDF2 with 64 derived bytes, for every count below `2^32 - 1`. The loop
variable has as many bits as the count, so for the last count the loop condition never fails.
-/

namespace Aeslib

open Bytes Prog

variable (passphrase salt : List Byte) (iterations : BitVec 32)

/-- `T_1 ‖ T_2`. -/
def derivedKey : Vector Byte 64 :=
  Rfc8018.f hmacSha256 passphrase salt 1 iterations.toNat ++ Rfc8018.f hmacSha256 passphrase salt 2
    iterations.toNat

theorem toList_derivedKey : (derivedKey passphrase salt iterations).toList =
    Rfc8018.pbkdf2 hmacSha256 passphrase salt iterations.toNat 64 := by
  rw [derivedKey, Rfc8018.pbkdf2, Vector.toList_append]
  simp [List.range_succ]

namespace World

/-- After `n` HMAC evaluations. -/
def prfs (w : World) (n : Nat) : World := { w with trace := w.trace ++ List.replicate n .prf }

theorem prfs_zero (w : World) : w.prfs 0 = w := by simp [prfs]

theorem record_prfs (w : World) (n : Nat) : (w.record .prf).prfs n = w.prfs (n + 1) := by
  simp [prfs, record, List.replicate_succ]

theorem prfs_prfs (w : World) (m n : Nat) : (w.prfs m).prfs n = w.prfs (m + n) := by
  simp [prfs]

/-- After a derivation with `iterations` iterations for each of its two blocks. -/
def derived (w : World) (iterations : BitVec 32) : World :=
  (w.record (.pbkdf2 iterations)).prfs (2 * iterations.toNat)

end World

/-- The state before `U_{k+2}` is computed. -/
def pbkdf2State (i k : Nat) : Pbkdf2State where
  i := BitVec.ofNat 32 (k + 2)
  u := Rfc8018.u hmacSha256 passphrase salt i k
  tBlock := Rfc8018.f hmacSha256 passphrase salt i (k + 1)

variable {iterations} in
theorem pbkdf2Body_next (i : Nat) {k : Nat} (w : World) (hk : k + 2 ≤ iterations.toNat) :
    Ends (pbkdf2Body passphrase iterations (pbkdf2State passphrase salt i k)) w
      (.ok (.inl (pbkdf2State passphrase salt i (k + 1)))) (w.record .prf) := by
  have hlt := iterations.isLt
  have hle : BitVec.ofNat 32 (k + 2) ≤ iterations := by
    rw [BitVec.le_def, BitVec.toNat_ofNat, Nat.mod_eq_of_lt (by omega)]
    exact hk
  have hi : BitVec.ofNat 32 (k + 2) + 1 = BitVec.ofNat 32 (k + 1 + 2) :=
    (BitVec.ofNat_add (k + 2) 1).symm
  rw [pbkdf2Body, pbkdf2State, if_pos hle, (record_ends .prf w).bind_iff, ends_pure, hi]
  exact ⟨rfl, rfl⟩

variable {iterations} in
/-- The remaining `m` iterations. -/
theorem pbkdf2Loop_ends (i m : Nat) {k : Nat} (w : World) (hm : k + 1 + m = iterations.toNat)
    (hmax : iterations.toNat < 2 ^ 32 - 1) :
    Ends (loop (pbkdf2Body passphrase iterations) (pbkdf2State passphrase salt i k)) w
      (.ok (Rfc8018.f hmacSha256 passphrase salt i iterations.toNat))
      (w.prfs m) := by
  induction m generalizing k w with
  | zero =>
      have hgt : ¬BitVec.ofNat 32 (k + 2) ≤ iterations := by
        rw [BitVec.le_def, BitVec.toNat_ofNat, Nat.mod_eq_of_lt (by omega)]
        omega
      apply Ends.loop_done
      rw [pbkdf2Body, pbkdf2State, if_neg hgt, ends_pure, ← hm]
      exact ⟨rfl, w.prfs_zero⟩
  | succ m ih =>
      rw [(pbkdf2Body_next passphrase salt i w (by omega)).loop_next, ← World.record_prfs]
      exact ih (w.record .prf) (by omega)

variable {iterations} in
theorem pbkdf2Block_ends (blockIdx : BitVec 32) (w : World) (hmin : 0 < iterations.toNat)
    (hmax : iterations.toNat < 2 ^ 32 - 1) :
    Ends (pbkdf2Block passphrase salt iterations blockIdx) w
      (.ok (Rfc8018.f hmacSha256 passphrase salt blockIdx.toNat iterations.toNat))
      (w.prfs iterations.toNat) := by
  obtain ⟨m, hm⟩ : ∃ m, iterations.toNat = m + 1 := ⟨iterations.toNat - 1, by omega⟩
  have hinput : salt ++ [byteLE blockIdx 3, byteLE blockIdx 2, byteLE blockIdx 1, byteLE blockIdx 0] =
      salt ++ (toBytesBE 4 (BitVec.ofNat 32 blockIdx.toNat)).toList := by
    rw [BitVec.ofNat_toNat, BitVec.setWidth_eq]
    rfl
  have hloop := pbkdf2Loop_ends passphrase salt blockIdx.toNat m (k := 0) (w.record .prf) (by omega) hmax
  rw [pbkdf2State, Rfc8018.f_one, Rfc8018.u] at hloop
  rw [World.record_prfs, ← hm] at hloop
  rw [pbkdf2Block, (record_ends .prf w).bind_iff, hinput]
  exact hloop

variable {iterations} in
/-- The derived bytes and the number of HMAC evaluations. -/
theorem pbkdf2HmacSha256_ends (w : World) (hmin : 0 < iterations.toNat)
    (hmax : iterations.toNat < 2 ^ 32 - 1) :
    Ends (pbkdf2HmacSha256 passphrase salt iterations) w (.ok (derivedKey passphrase salt iterations))
      (w.derived iterations) := by
  have h1 := pbkdf2Block_ends passphrase salt 1 (w.record (.pbkdf2 iterations)) hmin hmax
  have h2 := pbkdf2Block_ends passphrase salt 2
    ((w.record (.pbkdf2 iterations)).prfs iterations.toNat) hmin hmax
  rw [World.prfs_prfs, ← two_mul] at h2
  rw [pbkdf2HmacSha256, (record_ends (.pbkdf2 iterations) w).bind_iff, h1.bind_iff, h2.bind_iff,
    ends_pure]
  exact ⟨rfl, rfl⟩

variable {iterations} in
/-- **PBKDF2** of RFC 8018 with HMAC-SHA256 of RFC 2104, for every count that the loop variable can
pass. -/
theorem pbkdf2HmacSha256_exact (w : World) (hmin : 0 < iterations.toNat)
    (hmax : iterations.toNat < 2 ^ 32 - 1) :
    ∃ derived w', Ends (pbkdf2HmacSha256 passphrase salt iterations) w (.ok derived) w' ∧
      derived.toList =
        Rfc8018.pbkdf2 (Rfc2104.hmac sha256 kHmacBlockSize) passphrase salt iterations.toNat 64 :=
  ⟨_, _, pbkdf2HmacSha256_ends passphrase salt w hmin hmax, by rw [toList_derivedKey, hmacSha256_eq]⟩

/-- The passphrase `"p"` and the salt `"salt"`, with 999 runs of the loop for each block. -/
theorem pbkdf2HmacSha256_exact_thousand :
    ∃ derived w', Ends (pbkdf2HmacSha256 [0x70] [0x73, 0x61, 0x6c, 0x74] 1000) World.empty
      (.ok derived) w' ∧
      derived.toList =
        Rfc8018.pbkdf2 (Rfc2104.hmac sha256 kHmacBlockSize) [0x70] [0x73, 0x61, 0x6c, 0x74] 1000 64 :=
  pbkdf2HmacSha256_exact [0x70] [0x73, 0x61, 0x6c, 0x74] World.empty (by decide) (by decide)

/-- With the largest count the loop variable wraps around below it. -/
theorem pbkdf2HmacSha256_diverges (w w' : World) (r : Except Error (Vector Byte 64)) :
    ¬Ends (pbkdf2HmacSha256 passphrase salt (BitVec.allOnes 32)) w r w' := by
  have hblock (blockIdx : BitVec 32) (v v' : World) (r : Except Error (Vector Byte 32)) :
      ¬Ends (pbkdf2Block passphrase salt (BitVec.allOnes 32) blockIdx) v r v' := by
    intro h
    rw [pbkdf2Block, (record_ends .prf v).bind_iff] at h
    refine loop_diverges (fun _ _ => True) (fun s t _ => ?_) trivial h
    have hle : s.i ≤ BitVec.allOnes 32 := by
      rw [BitVec.le_def, BitVec.toNat_allOnes]
      exact Nat.le_pred_of_lt s.i.isLt
    unfold pbkdf2Body
    rw [if_pos hle]
    exact ⟨_, t.record .prf, (record_ends .prf t).bind ((ends_pure _ _ _ _).mpr ⟨rfl, rfl⟩), trivial⟩
  intro h
  rw [pbkdf2HmacSha256, (record_ends (.pbkdf2 _) w).bind_iff] at h
  rcases ends_bind.mp h with ⟨_, _, hfirst, _⟩ | ⟨_, _, hfirst⟩
  · exact hblock 1 _ _ _ hfirst
  · exact hblock 1 _ _ _ hfirst

end Aeslib
