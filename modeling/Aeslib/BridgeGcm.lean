import Aeslib.BridgeFips197
import Aeslib.Gcm
import Aeslib.StandardSp80038d

/-!
AES-GCM is the authenticated encryption function of NIST SP 800-38D over the cipher of FIPS 197: the
counter block is the register of `inc_32`, the keystream loop is `GCTR` and the bit-serial field
product is `•`.
-/

namespace Aeslib

open Bytes Prog

def ofReg (x : BitVec 128) : Block := toBytesBE 16 x

theorem ofReg_toReg (b : Block) : ofReg (toReg b) = b := toBytesBE_ofBytesBE b rfl

/-- The cipher of FIPS 197 for the size of the key, on registers. -/
noncomputable def standardCipher (key : SecretKey) (x : BitVec 128) : BitVec 128 :=
  match key.size with
  | .aes128 => toReg (Fips197.encrypt 4 10 (fun j => key.material[j]!) (ofReg x))
  | .aes256 => toReg (Fips197.encrypt 8 14 (fun j => key.material[j]!) (ofReg x))

theorem getElem!_material (key : SecretKey) {j : Nat} (hj : j < key.sizeBytes) :
    key.material[j]! = (keyBytes key)[j]! := by
  have hle := key.size.sizeBytes_le
  have hj32 : j < 32 := Nat.lt_of_lt_of_le hj hle
  rw [getElem!_pos key.material j (by rw [key.length_material]; exact hj),
    getElem!_pos (keyBytes key) j hj32]
  simp [SecretKey.material, keyBytes]

theorem standardCipher_toReg (key : SecretKey) (block : Block) :
    standardCipher key (toReg block) = toReg (blockCipher key block) := by
  have hmaterial (j : Nat) (hj : j < key.sizeBytes) (hj32 : j < 32) :
      key.material[j]! = (keyBytes key)[j] := by
    rw [getElem!_material key hj, getElem!_pos (keyBytes key) j hj32]
  unfold standardCipher blockCipher
  cases hsize : key.size with
  | aes128 =>
      have hbytes : key.sizeBytes = 16 := by rw [SecretKey.sizeBytes, hsize, KeySize.sizeBytes_aes128]
      rw [if_pos hbytes, ofReg_toReg, aes128EncryptBlockSoft,
        aesEncryptBlockSoft_eq (by decide) (by decide) (by decide)]
      exact fun j hj => hmaterial j (by omega) _
  | aes256 =>
      have hbytes : key.sizeBytes = 32 := by rw [SecretKey.sizeBytes, hsize, KeySize.sizeBytes_aes256]
      rw [if_neg (by omega), ofReg_toReg, aes256EncryptBlockSoft,
        aesEncryptBlockSoft_eq (by decide) (by decide) (by decide)]
      exact fun j hj => hmaterial j (by omega) _

/-- Only the size and the key material count. -/
theorem blockCipher_congr {key key' : SecretKey} (hsize : key'.size = key.size)
    (hmaterial : key'.material = key.material) : blockCipher key' = blockCipher key := by
  funext block
  apply toReg_injective
  rw [← standardCipher_toReg, ← standardCipher_toReg, standardCipher, standardCipher, hsize, hmaterial]

theorem toReg_makeCounterBlock (nonce : Vector Byte kNonceSizeBytes) (counter : BitVec 32) :
    toReg (makeCounterBlock nonce counter) = ofBytesBE 96 nonce ++ counter := by
  have happend := ofBytesBE_append nonce (toBytesBE 4 counter)
  rw [ofBytesBE_toBytesBE (n := 4) counter rfl] at happend
  exact happend

theorem inc32_append (high : BitVec 96) (counter : BitVec 32) :
    Sp80038d.inc32 (high ++ counter) = high ++ (counter + 1) := by
  rw [Sp80038d.inc32, BitVec.extractLsb'_append_eq_left, BitVec.extractLsb'_append_eq_right]

theorem inc32_toReg (nonce : Vector Byte kNonceSizeBytes) (counter : BitVec 32) :
    Sp80038d.inc32 (toReg (makeCounterBlock nonce counter)) =
      toReg (makeCounterBlock nonce (counter + 1)) := by
  rw [toReg_makeCounterBlock, inc32_append, toReg_makeCounterBlock]

theorem bytes_toReg (b : Block) : Sp80038d.bytes (toReg b) = b.toList :=
  congrArg Vector.toList (ofReg_toReg b)

theorem keystreamXor_take (key : SecretKey) (start : BitVec 32) (nonce : Vector Byte kNonceSizeBytes)
    (input : List Byte) : (keystreamXor key start nonce input).take 16 =
      (input.take 16).zipWith (· ^^^ ·) (blockCipher key (makeCounterBlock nonce start)).toList := by
  have hchunk := xorChunk_eq key start nonce input 0
  rw [Nat.mul_zero, List.drop_zero, BitVec.add_zero, xorChunk, List.drop_zero] at hchunk
  exact hchunk.symm

theorem keystreamXor_drop (key : SecretKey) (start : BitVec 32) (nonce : Vector Byte kNonceSizeBytes)
    (input : List Byte) : (keystreamXor key start nonce input).drop 16 =
      keystreamXor key (start + 1) nonce (input.drop 16) := by
  refine List.ext_getElem (by simp) fun i h1 h2 => ?_
  have hcounter : start + BitVec.ofNat 32 ((16 + i) / 16) = start + 1 + BitVec.ofNat 32 (i / 16) := by
    rw [show (16 + i) / 16 = 1 + i / 16 by omega, BitVec.ofNat_add, BitVec.add_assoc]
    rfl
  simp only [keystreamXor, List.getElem_drop, List.getElem_mapIdx, hcounter, Nat.add_mod_left]

/-- The keystream loop is GCTR. -/
theorem gctr_eq_keystreamXor (key : SecretKey) (start : BitVec 32) (nonce : Vector Byte kNonceSizeBytes)
    (input : List Byte) :
    Sp80038d.gctr (standardCipher key) (toReg (makeCounterBlock nonce start)) input =
      keystreamXor key start nonce input := by
  induction hn : input.length using Nat.strong_induction_on generalizing start input with
  | _ n ih =>
      rw [Sp80038d.gctr]
      split_ifs with hpos
      · rw [inc32_toReg, ih (input.drop 16).length (by simp; omega) _ _ rfl, standardCipher_toReg,
          bytes_toReg, ← keystreamXor_take, ← keystreamXor_drop, List.take_append_drop]
      · rw [List.eq_nil_of_length_eq_zero (by omega : input.length = 0)]
        rfl

theorem toReg_gf128Mul (x y : Block) : toReg (gf128Mul x y) = Sp80038d.product (toReg x) (toReg y) := by
  have hfield := toField_gf128Mul x y
  unfold toField at hfield
  rw [Sp80038d.product, ← hfield, Equiv.symm_apply_apply]

theorem blocks_padded (data : List Byte) :
    Sp80038d.blocks (Sp80038d.pad data) = (paddedBlocks data).map toReg := by
  rw [Sp80038d.blocks_pad, paddedBlocks, List.map_map]
  refine List.map_congr_left fun k _ => ?_
  rw [Function.comp_apply, toReg, paddedBlock]

theorem blocks_lengths (aad ciphertext : List Byte) :
    Sp80038d.blocks (Sp80038d.len64 aad ++ Sp80038d.len64 ciphertext) =
    [toReg (lengthBlock aad ciphertext)] := by
  have hmul (s : List Byte) : BitVec.ofNat 64 (8 * s.length) = BitVec.ofNat 64 s.length * 8 := by
    rw [Nat.mul_comm, BitVec.ofNat_mul]
    rfl
  have hlist : Sp80038d.len64 aad ++ Sp80038d.len64 ciphertext =
      (lengthBlock aad ciphertext).toList := by
    rw [Sp80038d.len64, Sp80038d.len64, hmul, hmul, lengthBlock, Vector.toList_append]
    rfl
  have hblock (b : Block) : Sp80038d.blocks b.toList = [toReg b] := by
    have hbytes : (Vector.ofFn fun i : Fin 16 => b.toList[16 * 0 + i.val]!) = b := by
      refine Vector.ext fun i hi => ?_
      rw [Vector.getElem_ofFn, Nat.mul_zero, Nat.zero_add,
        getElem!_pos b.toList i (by simpa using hi), Vector.getElem_toList]
    rw [Sp80038d.blocks, Vector.length_toList]
    exact congrArg (fun v : Vector Byte 16 => [ofBytesBE 128 v]) hbytes
  rw [hlist, hblock]

/-- GHASH on the padded strings and their lengths. -/
theorem toReg_ghash (h : Block) (aad ciphertext : List Byte) :
    toReg (ghash h aad ciphertext) = Sp80038d.ghash (toReg h) (Sp80038d.blocks (Sp80038d.pad aad ++
      Sp80038d.pad ciphertext ++ Sp80038d.len64 aad ++ Sp80038d.len64 ciphertext)) := by
  have hfold (bs : List Block) (y : Block) :
      toReg (bs.foldl (fun y b => gf128Mul (xorBlocks y b) h) y) =
        (bs.map toReg).foldl (fun y x => Sp80038d.product (y ^^^ x) (toReg h)) (toReg y) := by
    induction bs generalizing y with
    | nil => simp only [List.map_nil, List.foldl_nil]
    | cons b bs ih =>
        rw [List.foldl_cons, ih, toReg_gf128Mul, toReg_xorBlocks, List.map_cons, List.foldl_cons]
  have hzero : toReg (Vector.replicate kBlockSizeBytes 0) = 0 := by decide +kernel
  have hdvd (s : List Byte) : 16 ∣ (Sp80038d.pad s).length := ⟨_, Sp80038d.length_pad s⟩
  have hdvd2 : 16 ∣ (Sp80038d.pad aad ++ Sp80038d.pad ciphertext).length := by
    rw [List.length_append]
    exact Nat.dvd_add (hdvd aad) (hdvd ciphertext)
  rw [ghash_eq_foldl, hfold, hzero, Sp80038d.ghash, List.append_assoc, Sp80038d.blocks_append hdvd2,
    Sp80038d.blocks_append (hdvd aad), blocks_padded, blocks_padded, blocks_lengths, ghashBlocks,
    List.map_append, List.map_append]
  rfl

/-- The tag is the one-block GCTR at `J_0` of GHASH. -/
theorem gctr_tag (key : SecretKey) (nonce : Vector Byte kNonceSizeBytes) (s : Block) :
    Sp80038d.gctr (standardCipher key) (toReg (makeCounterBlock nonce 1)) (Sp80038d.bytes (toReg s)) =
      (xorBlocks (blockCipher key (makeCounterBlock nonce 1)) s).toList := by
  rw [gctr_eq_keystreamXor, bytes_toReg]
  refine List.ext_getElem (by simp) fun i h1 h2 => ?_
  have hi : i < 16 := by simpa using h2
  simp only [keystreamXor, List.getElem_mapIdx, Vector.getElem_toList, xorBlocks, Vector.getElem_zipWith,
    Nat.div_eq_of_lt hi, Nat.mod_eq_of_lt hi]
  rw [BitVec.add_zero, getElem!_pos (blockCipher key _) i hi, BitVec.xor_comm]

theorem gcmAE_eq (key : SecretKey) (nonce : Vector Byte kGcmNonceSizeBytes) {plaintext aad : List Byte}
    (hlen : plaintext.length ≤ AesGcm.kMaxPlaintextBytes) (haad : aad.length < 2 ^ 61) :
    Sp80038d.gcmAE (standardCipher key) nonce plaintext aad =
      some ((AesGcm.gcmContainer key nonce plaintext aad).ciphertext,
        (AesGcm.gcmContainer key nonce plaintext aad).tag.toList) := by
  have hj0 : Sp80038d.j0 nonce = toReg (makeCounterBlock nonce 1) :=
    (toReg_makeCounterBlock nonce 1).symm
  have hzero : toReg (Vector.replicate kBlockSizeBytes 0) = 0 := by decide +kernel
  have hh : standardCipher key 0 = toReg (AesGcm.hashSubkey key) := by
    rw [← hzero, standardCipher_toReg]
    rfl
  simp only [AesGcm.kMaxPlaintextBytes, AesGcm.kMaxBlocks, kBlockSizeBytes] at hlen
  rw [Sp80038d.gcmAE, if_pos (by omega)]
  simp only [hj0, hh, inc32_toReg, gctr_eq_keystreamXor key (1 + 1), ← toReg_ghash, gctr_tag]
  rfl

/-- Once `nonce` has been drawn, `encrypt` returns the ciphertext and the tag of the standard. -/
theorem aesGcm_sp80038d (os : Os) (w w' : World) (key : SecretKey)
    (nonce : Vector Byte kGcmNonceSizeBytes) (plaintext aad : List Byte)
    (hlen : plaintext.length ≤ (2 ^ 32 - 2) * 16) (haad : aad.length < 2 ^ 61)
    (hcount : key.gcmInvocations < kGcmInvocationLimit)
    (hnonce : Ends (generateNonce os) w (.ok nonce) w') :
    ∃ container s, Ends (AesGcm.encrypt os plaintext aad) (w, key) (.ok container) s ∧
      container.nonce = nonce ∧
      Sp80038d.gcmAE (standardCipher key) nonce plaintext aad =
        some (container.ciphertext, container.tag.toList) :=
  ⟨_, _, AesGcm.encrypt_ends os w key aad hlen hcount hnonce, rfl, gcmAE_eq key nonce hlen haad⟩

theorem aesGcm_sp80038d_plain :
    ∃ container s, Ends (AesGcm.encrypt Os.plain [0x61] [0x62]) (World.empty, {}) (.ok container) s ∧
      container.nonce = Os.plain.draw 0 12 ∧
      Sp80038d.gcmAE (standardCipher {}) (Os.plain.draw 0 12) [0x61] [0x62] =
        some (container.ciphertext, container.tag.toList) :=
  aesGcm_sp80038d Os.plain World.empty World.empty.tick {} (Os.plain.draw 0 12) [0x61] [0x62] (by decide)
    (by decide) (by decide) (generateNonce_serves Os.plain_serves World.empty)

end Aeslib
