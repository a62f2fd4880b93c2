import Aeslib.Gcm
import Aeslib.ObservedAes

/-!
What the modes, `src/aes_gcm.cpp` with `src/ghash.cpp` and the keystream loop of
`src/aes256_ctr.cpp`, show where the portable backend is in use. The loops run over lengths, and the
only other branch is on the verdict of the tag; so an encryption shows the size of the key and the
lengths of its inputs, and a decryption shows its outcome besides.
-/

namespace Aeslib.Observed

open Bytes Leakage Fill Prog

/-- `load_be64(b.data() + offset)`. -/
def loadBe64 (b : Block) (offset : Nat) : Leaky (BitVec 64) :=
  forEach (fun v i => do
    let x ← getAt b (offset + i)
    pure (v <<< 8 ||| x.setWidth 64)) (List.range 8) 0#64

/-- `store_be64(b.data() + offset, v)`, from the last byte on. -/
def storeBe64 (b : Block) (offset : Nat) (v : BitVec 64) : Leaky Block := do
  let s ← forEach (fun (s : Block × BitVec 64) i => do
    let b ← setAt s.1 (offset + i) ((s.2 &&& 0xff).setWidth 8)
    pure (b, s.2 >>> 8)) (List.range 8).reverse (b, v)
  pure s.1

/-- The loop picks the half of `y` by its index. -/
def gf128Step (yHi yLo : BitVec 64) (s : Gf128State) (i : Nat) : Leaky Gf128State := do
  let ybit ← branch (i < 64) >>= fun first => if first then pure ((yHi >>> (63 - i)) &&& 1#64)
    else pure ((yLo >>> (63 - (i - 64))) &&& 1#64)
  let zmask := 0#64 - ybit
  let lsb := s.vLo &&& 1#64
  let newLo := s.vLo >>> 1 ||| (s.vHi &&& 1#64) <<< 63
  let newHi := s.vHi >>> 1
  let rmask := 0#64 - lsb
  pure {
    zHi := s.zHi ^^^ (zmask &&& s.vHi)
    zLo := s.zLo ^^^ (zmask &&& s.vLo)
    vHi := newHi ^^^ (rmask &&& kRHi)
    vLo := newLo }

def gf128Mul (x y : Block) : Leaky Block := do
  let vHi ← loadBe64 x 0
  let vLo ← loadBe64 x 8
  let yHi ← loadBe64 y 0
  let yLo ← loadBe64 y 8
  let s ← forEach (gf128Step yHi yLo) (List.range 128) { zHi := 0, zLo := 0, vHi, vLo }
  let out ← storeBe64 (Vector.replicate kBlockSizeBytes 0) 0 s.zHi
  storeBe64 out 8 s.zLo

/-- The loops that add a block to another one. -/
def xorBlocks (a b : Block) : Leaky Block :=
  forEach (fun a i => do
    let x ← getAt a i
    let y ← getAt b i
    setAt a i (x ^^^ y)) (List.range kBlockSizeBytes) a

/-- `data[offset + i]` for the `chunk` indices that there are, into a zero block; `std::min` compares. -/
def paddedChunk (data : List Byte) (offset : Nat) : Leaky Block := do
  let _ ← branch (data.length - offset < kBlockSizeBytes)
  forEach (fun (block : Block) i => do
    let x ← getListAt data (offset + i)
    setAt block i x) (List.range (min kBlockSizeBytes (data.length - offset)))
    (Vector.replicate kBlockSizeBytes 0)

/-- One iteration of `fold_into`. -/
def foldBlock (h : Block) (data : List Byte) (y : Block) (offset : Nat) : Leaky Block := do
  let block ← paddedChunk data offset
  let y ← xorBlocks y block
  gf128Mul y h

def foldInto (y h : Block) (data : List Byte) : Leaky Block :=
  forEach (fun y k => foldBlock h data y (kBlockSizeBytes * k)) (List.range ((data.length + 15) / 16)) y

def ghash (h : Block) (aad ciphertext : List Byte) : Leaky Block := do
  let y ← foldInto (Vector.replicate kBlockSizeBytes 0) h aad
  let y ← foldInto y h ciphertext
  let lenBlock ← storeBe64 (Vector.replicate kBlockSizeBytes 0) 0 (BitVec.ofNat 64 aad.length * 8)
  let lenBlock ← storeBe64 lenBlock 8 (BitVec.ofNat 64 ciphertext.length * 8)
  let y ← xorBlocks y lenBlock
  gf128Mul y h

def makeCounterBlock (nonce : Vector Byte kNonceSizeBytes) (counter : BitVec 32) : Leaky Block := do
  let block ← forEach (fun (block : Block) i => do
    let x ← getAt nonce i
    setAt block i x) (List.range kNonceSizeBytes) (Vector.replicate kBlockSizeBytes 0)
  let block ← setAt block 12 ((counter >>> 24 &&& 0xff).setWidth 8)
  let block ← setAt block 13 ((counter >>> 16 &&& 0xff).setWidth 8)
  let block ← setAt block 14 ((counter >>> 8 &&& 0xff).setWidth 8)
  setAt block 15 ((counter &&& 0xff).setWidth 8)

def constantTimeEqual {n : Nat} (a b : Vector Byte n) : Leaky Bool := do
  let diff ← forEach (fun diff i => do
    let x ← getAt a i
    let y ← getAt b i
    pure (diff ||| x ^^^ y)) (List.range n) 0#8
  pure (diff == 0#8)

def secureWipe (len : Nat) : Leaky Unit := forEach (fun _ i => access i) (List.range len) ()

section Code

variable (jumps : Bool)

/-- One iteration of `apply_keystream`. -/
def keystreamBlock (start : BitVec 32) (key : SecretKey) (nonce : Vector Byte kNonceSizeBytes)
    (input : List Byte) (output : Vector Byte input.length) (k : Nat) :
    Leaky (Vector Byte input.length) := do
  let block ← makeCounterBlock nonce (start + BitVec.ofNat 32 k)
  let keystream ← encryptBlock jumps key block
  let _ ← branch (input.length - 16 * k < kBlockSizeBytes)
  forEach (fun output i => do
    let x ← getListAt input (16 * k + i)
    let z ← getAt keystream i
    setAt output (16 * k + i) (x ^^^ z)) (List.range (min kBlockSizeBytes (input.length - 16 * k)))
      output

def applyKeystreamFrom (start : BitVec 32) (key : SecretKey) (nonce : Vector Byte kNonceSizeBytes)
    (input : List Byte) : Leaky (List Byte) := do
  let output ← forEach (keystreamBlock jumps start key nonce input)
    (List.range ((input.length + 15) / 16))
    (Vector.replicate input.length 0)
  pure output.toList

def computeTag (key : SecretKey) (nonce : Vector Byte kGcmNonceSizeBytes)
    (aad ciphertext : List Byte) : Leaky Block := do
  let h ← encryptBlock jumps key (Vector.replicate kBlockSizeBytes 0)
  let j0 ← makeCounterBlock nonce 1
  let s ← ghash h aad ciphertext
  let eJ0 ← encryptBlock jumps key j0
  let tag ← xorBlocks eJ0 s
  secureWipe kBlockSizeBytes
  secureWipe kBlockSizeBytes
  pure tag

/-- `AesGcm::encrypt` after its nonce has been drawn. -/
def encryptUnder (key : SecretKey) (nonce : Vector Byte kGcmNonceSizeBytes) (plaintext aad : List Byte) :
    Leaky GcmContainer := do
  let ciphertext ← applyKeystreamFrom jumps 2 key nonce plaintext
  let tag ← computeTag jumps key nonce aad ciphertext
  pure { nonce, tag, ciphertext }

def decrypt (key : SecretKey) (container : GcmContainer) (aad : List Byte) :
    Leaky (Except Error (List Byte)) := do
  if ← branch (container.ciphertext.length > AesGcm.kMaxPlaintextBytes) then
    pure (.error (.limitError
      "plaintext exceeds the limit addressable by this GCM construction's 32-bit block counter"))
  else
    let expectedTag ← computeTag jumps key container.nonce aad container.ciphertext
    let equal ← constantTimeEqual expectedTag container.tag
    if ← branch (!equal) then
      pure (.error (.authenticationError
        "GCM authentication failed: wrong key/nonce/aad, or tampered ciphertext/tag"))
    else
      let plaintext ← applyKeystreamFrom jumps 2 key container.nonce container.ciphertext
      pure (.ok plaintext)

end Code

section Value

variable (jumps : Bool)

@[simp] theorem value_loadBe64 (b : Block) (offset : Nat) :
    (loadBe64 b offset).value = Aeslib.loadBe64 b offset := by
  simp only [loadBe64, value_forEach, value_bind, value_getAt, value_pure]
  exact foldl_shiftIn (fun i => b[offset + i]!) rfl

/-- The loop over the last `n` of the bytes. -/
theorem value_storeLoop (n : Nat) (b : Block) {offset : Nat} (hn : offset + n ≤ kBlockSizeBytes)
    (v : BitVec 64) {j : Nat} (hj : j < kBlockSizeBytes) :
    ((List.range n).reverse.foldl (fun (s : Block × BitVec 64) i =>
      (s.1.setIfInBounds (offset + i) ((s.2 &&& 0xff).setWidth 8), s.2 >>> 8)) (b, v)).1[j] =
      if offset ≤ j ∧ j < offset + n then byteLE v (n - 1 - (j - offset)) else b[j] := by
  induction n generalizing b v with
  | zero => exact (if_neg (by omega)).symm
  | succ n ih =>
      rw [List.range_succ, List.reverse_append, List.reverse_singleton, List.singleton_append,
        List.foldl_cons, ih _ (by omega)]
      have hlow : ((v &&& 0xff).setWidth 8 : Byte) = byteLE v 0 := setWidth_and_ff v (by decide) 0
      by_cases hlt : offset ≤ j ∧ j < offset + n
      · have hindex : n - 1 - (j - offset) + 1 = n + 1 - 1 - (j - offset) := by omega
        rw [if_pos hlt, if_pos (by omega), byteLE_ushiftRight, hindex]
      · rw [if_neg hlt, Vector.getElem_setIfInBounds hj, hlow]
        by_cases heq : offset + n = j
        · have hindex : n + 1 - 1 - (j - offset) = 0 := by omega
          rw [if_pos heq, if_pos (by omega), hindex]
        · rw [if_neg heq, if_neg (by omega)]

/-- Both halves of a block. -/
@[simp] theorem value_storeBe64 (b : Block) (hi lo : BitVec 64) :
    (storeBe64 (storeBe64 b 0 hi).value 8 lo).value = Aeslib.storeBe64 hi ++ Aeslib.storeBe64 lo := by
  refine Vector.ext fun j hj => ?_
  simp only [storeBe64, value_bind, value_forEach, value_setAt, value_pure]
  have hsize : j < 16 := hj
  rw [value_storeLoop 8 _ (by decide) lo hj, value_storeLoop 8 b (by decide) hi hj,
    Vector.getElem_append]
  by_cases hhalf : j < 8
  · rw [if_neg (by omega), if_pos (by omega), dif_pos hhalf, Aeslib.storeBe64, toBytesBE,
      Vector.getElem_ofFn]
    rfl
  · rw [if_pos (by omega), dif_neg hhalf, Aeslib.storeBe64, toBytesBE, Vector.getElem_ofFn]

@[simp] theorem value_gf128Step (yHi yLo : BitVec 64) (s : Gf128State) (i : Nat) :
    (gf128Step yHi yLo s i).value = Aeslib.gf128Step yHi yLo s i := by
  rw [gf128Step, value_bind, value_if, Aeslib.gf128Step]
  simp only [decide_eq_true_eq, value_pure]

@[simp] theorem value_gf128Mul (x y : Block) : (gf128Mul x y).value = Aeslib.gf128Mul x y := by
  simp only [gf128Mul, value_bind, value_loadBe64, value_gf128Step, value_storeBe64, value_forEach]
  rfl

@[simp] theorem value_xorBlocks (a b : Block) : (xorBlocks a b).value = Aeslib.xorBlocks a b := by
  simp only [xorBlocks, value_forEach, value_bind, value_getAt, value_setAt, List.range_eq_range']
  refine (fill_update (fun x i => x ^^^ b[i]!) a).trans (Vector.ext fun i hi => ?_)
  rw [Vector.getElem_ofFn, Aeslib.xorBlocks, Vector.getElem_zipWith, getElem!_pos a i hi,
    getElem!_pos b i hi]

@[simp] theorem value_paddedChunk (data : List Byte) (offset : Nat) :
    (paddedChunk data offset).value =
      Vector.ofFn fun i : Fin kBlockSizeBytes => data[offset + i.val]?.getD 0 := by
  simp only [paddedChunk, value_forEach, value_bind, value_getListAt, value_setAt, List.range_eq_range']
  refine Vector.ext fun i hi => ?_
  rw [Vector.getElem_ofFn, ← getElem!_pos _ i hi]
  by_cases hlt : i < min kBlockSizeBytes (data.length - offset)
  · have hentry :=
      fill_entry (fun _ i => data[offset + i]!) 0 (Vector.replicate kBlockSizeBytes (0 : Byte)) hlt
      (by rwa [Nat.zero_add])
    rw [Nat.zero_add] at hentry
    rw [getElem!_def] at hentry
    refine hentry.trans ?_
    rw [List.getElem!_eq_getElem?_getD]
    rfl
  · have hentry :=
      fill_of_ge (fun _ i => data[offset + i]!) 0 (Vector.replicate kBlockSizeBytes (0 : Byte))
      (show 0 + min kBlockSizeBytes (data.length - offset) ≤ i by omega)
    have hend : data.length ≤ offset + i := by
      have hsize : i < 16 := hi
      simp only [kBlockSizeBytes] at hlt
      omega
    rw [List.getElem?_eq_none hend]
    refine hentry.trans ?_
    rw [getElem!_pos _ i hi, Vector.getElem_replicate]
    rfl

@[simp] theorem value_foldInto (y h : Block) (data : List Byte) :
    (foldInto y h data).value = Aeslib.foldInto y h data := by
  simp only [foldInto, foldBlock, value_forEach, value_bind, value_paddedChunk, value_xorBlocks,
    value_gf128Mul]
  rfl

@[simp] theorem value_ghash (h : Block) (aad ciphertext : List Byte) :
    (ghash h aad ciphertext).value = Aeslib.ghash h aad ciphertext := by
  simp only [ghash, value_bind, value_foldInto, value_storeBe64, value_xorBlocks, value_gf128Mul]
  rfl

@[simp] theorem value_makeCounterBlock (nonce : Vector Byte kNonceSizeBytes) (counter : BitVec 32) :
    (makeCounterBlock nonce counter).value = Aeslib.makeCounterBlock nonce counter := by
  have h3 := setWidth_and_ff counter (by decide) 3
  have h2 := setWidth_and_ff counter (by decide) 2
  have h1 := setWidth_and_ff counter (by decide) 1
  have h0 := setWidth_and_ff counter (by decide) 0
  simp only [makeCounterBlock, value_bind, value_forEach, value_getAt, value_setAt, List.range_eq_range']
  refine Vector.ext fun j hj => ?_
  have hsize : j < 16 := hj
  rw [Aeslib.makeCounterBlock, Vector.getElem_append]
  by_cases hnonce : j < kNonceSizeBytes
  · have hne : 12 ≠ j ∧ 13 ≠ j ∧ 14 ≠ j ∧ 15 ≠ j := by
      simp only [kNonceSizeBytes] at hnonce
      omega
    have hentry := fill_entry (fun _ i => nonce[i]!) 0 (Vector.replicate kBlockSizeBytes (0 : Byte))
      hnonce (by omega)
    rw [Nat.zero_add, getElem!_pos (fill _ _ _ _) j hj, getElem!_pos nonce j hnonce] at hentry
    rw [dif_pos hnonce, Vector.getElem_setIfInBounds_ne hj hne.2.2.2,
      Vector.getElem_setIfInBounds_ne hj hne.2.2.1, Vector.getElem_setIfInBounds_ne hj hne.2.1,
      Vector.getElem_setIfInBounds_ne hj hne.1]
    exact hentry
  · rw [dif_neg hnonce, toBytesBE, Vector.getElem_ofFn]
    obtain rfl | rfl | rfl | rfl : j = 12 ∨ j = 13 ∨ j = 14 ∨ j = 15 := by
      simp only [kNonceSizeBytes] at hnonce
      omega
    · simpa [Vector.getElem_setIfInBounds] using h3
    · simpa [Vector.getElem_setIfInBounds, kNonceSizeBytes] using h2
    · simpa [Vector.getElem_setIfInBounds, kNonceSizeBytes] using h1
    · simpa [Vector.getElem_setIfInBounds, kNonceSizeBytes] using h0

@[simp] theorem value_constantTimeEqual {n : Nat} (a b : Vector Byte n) :
    (constantTimeEqual a b).value = Aeslib.constantTimeEqual a b := by
  simp only [constantTimeEqual, value_bind, value_forEach, value_getAt, value_pure]
  rfl

@[simp] theorem value_encryptBlock (key : SecretKey) (block : Block) :
    (encryptBlock jumps key block).value = blockCipher key block := by
  rw [encryptBlock, value_if, value_bind, value_bind, aes128EncryptBlockSoft, aes256EncryptBlockSoft,
    value_aesEncryptBlockSoft, value_aesEncryptBlockSoft]
  simp only [blockCipher, decide_eq_true_eq]
  rfl

section Keystream

variable (start : BitVec 32) (key : SecretKey) (nonce : Vector Byte kNonceSizeBytes) (input : List Byte)

/-- Byte `i` of the output. -/
def keystreamByte (i : Nat) : Byte :=
  input[i]! ^^^ (blockCipher key
    (Aeslib.makeCounterBlock nonce (start + BitVec.ofNat 32 (i / 16))))[i % 16]!

theorem value_keystreamBlock (output : Vector Byte input.length) (k : Nat) :
    (keystreamBlock jumps start key nonce input output k).value =
      fill (fun _ i => keystreamByte start key nonce input i) (16 * k)
        (min kBlockSizeBytes (input.length - 16 * k)) output := by
  rw [← foldl_range_eq_fill]
  simp only [keystreamBlock, value_bind, value_makeCounterBlock, value_encryptBlock, value_forEach,
    value_getListAt, value_getAt, value_setAt]
  refine List.foldl_ext _ _ output fun output i hi => ?_
  have hlt : i < 16 := Nat.lt_of_lt_of_le (List.mem_range.mp hi) (Nat.min_le_left _ _)
  rw [keystreamByte, show (16 * k + i) / 16 = k by omega, show (16 * k + i) % 16 = i by omega]

/-- The bytes that the first `m` iterations have stored. -/
theorem foldl_keystreamBlock (m : Nat) :
    (List.range m).foldl (fun output k => (keystreamBlock jumps start key nonce input output k).value)
      (Vector.replicate input.length 0) =
      fill (fun _ i => keystreamByte start key nonce input i) 0 (min (16 * m) input.length)
        (Vector.replicate _ 0) := by
  induction m with
  | zero => rw [Nat.mul_zero, Nat.zero_min]; rfl
  | succ m ih =>
      rw [List.range_succ, List.foldl_append, List.foldl_cons, List.foldl_nil, ih, value_keystreamBlock]
      by_cases hlen : 16 * m ≤ input.length
      · have hadd := fill_add (fun _ i => keystreamByte start key nonce input i) 0 (16 * m)
          (min kBlockSizeBytes (input.length - 16 * m)) (Vector.replicate input.length 0)
        rw [Nat.zero_add] at hadd
        rw [Nat.min_eq_left hlen, hadd]
        have hend : 16 * m + min 16 (input.length - 16 * m) = min (16 * (m + 1)) input.length := by omega
        exact congrArg (fun n => fill _ 0 n _) hend
      · rw [show input.length - 16 * m = 0 by omega, Nat.min_zero, show min (16 * (m + 1)) input.length =
          min (16 * m) input.length by omega]
        rfl

@[simp] theorem value_applyKeystreamFrom :
    (applyKeystreamFrom jumps start key nonce input).value = keystreamXor key start nonce input := by
  rw [applyKeystreamFrom, value_bind, value_forEach, foldl_keystreamBlock, value_pure,
    Nat.min_eq_right (by omega), fill_eq_ofFn]
  refine List.ext_getElem (by simp) fun i h1 h2 => ?_
  have hi : i < input.length := by simpa using h2
  rw [Vector.getElem_toList, Vector.getElem_ofFn, keystreamByte, getElem!_pos input i hi]
  simp [keystreamXor]

end Keystream

variable (key : SecretKey)

@[simp] theorem value_computeTag (nonce : Vector Byte kGcmNonceSizeBytes) (aad ciphertext : List Byte) :
    (computeTag jumps key nonce aad ciphertext).value = AesGcm.tagOf key nonce aad ciphertext := by
  simp only [computeTag, value_bind, value_encryptBlock, value_makeCounterBlock, value_ghash,
    value_xorBlocks, value_pure]
  rfl

theorem value_encryptUnder (nonce : Vector Byte kGcmNonceSizeBytes) (plaintext aad : List Byte) :
    (encryptUnder jumps key nonce plaintext aad).value =
      AesGcm.gcmContainer key nonce plaintext aad := by
  simp only [encryptUnder, value_bind, value_applyKeystreamFrom, value_computeTag, value_pure]
  rfl

theorem value_decrypt (container : GcmContainer) (aad : List Byte) :
    (decrypt jumps key container aad).value =
    if container.ciphertext.length > AesGcm.kMaxPlaintextBytes then
      .error (.limitError
        "plaintext exceeds the limit addressable by this GCM construction's 32-bit block counter")
    else if AesGcm.tagOf key container.nonce aad container.ciphertext = container.tag then
      .ok (keystreamXor key 2 container.nonce container.ciphertext)
    else .error (.authenticationError
      "GCM authentication failed: wrong key/nonce/aad, or tampered ciphertext/tag") := by
  rw [decrypt, value_if, value_bind, value_bind, value_if, value_computeTag,
    value_constantTimeEqual, value_bind, value_applyKeystreamFrom]
  simp only [value_pure, decide_eq_true_eq]
  by_cases htag : AesGcm.tagOf key container.nonce aad container.ciphertext = container.tag
  · rw [(constantTimeEqual_iff _ _).mpr htag, if_pos htag]
    rfl
  · rw [Bool.eq_false_iff.mpr fun h => htag ((constantTimeEqual_iff _ _).mp h), if_neg htag]
    rfl

/-- **The loops over arrays compute the calls.** Whichever way it is compiled, the code whose
branches and indices are observed ends as the keystream loop of CTR, as `encrypt` with the nonce
that it has drawn and as `decrypt` do on any platform. -/
theorem observed_computes (os : Os) (w : World) :
    (∀ nonce input, ∃ v, Ends (Aes256Ctr.applyKeystream os key nonce input) w
      (.ok (applyKeystreamFrom jumps 0 key nonce input).value) v) ∧
    (∀ nonce plaintext aad, ∃ v, Ends (AesGcm.encryptUnder os key nonce plaintext aad) w
      (.ok (encryptUnder jumps key nonce plaintext aad).value) v) ∧
    ∀ container aad, ∃ v, Ends (AesGcm.decrypt os key container aad) w
      (decrypt jumps key container aad).value v := by
  refine ⟨fun nonce input => ?_, fun nonce plaintext aad => ?_, fun container aad => ?_⟩
  · rw [value_applyKeystreamFrom]
    exact ⟨_, applyKeystreamFrom_ends key 0 nonce input os w⟩
  · rw [value_encryptUnder]
    exact ⟨_, AesGcm.encryptUnder_ends os w key nonce plaintext aad⟩
  · rw [value_decrypt]
    split_ifs with hlen htag
    · exact ⟨_, AesGcm.decrypt_refuses os w key container aad hlen⟩
    · exact ⟨_, AesGcm.decrypt_accepts os w key container (Nat.not_lt.mp hlen) htag⟩
    · exact ⟨_, AesGcm.decrypt_rejects os w key container (Nat.not_lt.mp hlen) htag⟩

end Value

section Shows

theorem alike_loadBe64 (b b' : Block) (offset : Nat) : Alike (loadBe64 b offset) (loadBe64 b' offset) :=
  alike_forEach (fun i _ _ _ => (alike_getAt b b' (offset + i)).bind fun _ _ => alike_pure _ _) _ _

theorem alike_storeBe64 (b b' : Block) (offset : Nat) (v v' : BitVec 64) :
    Alike (storeBe64 b offset v) (storeBe64 b' offset v') := by
  refine (alike_forEach (fun i _ s s' => ?_) _ _).bind fun _ _ => alike_pure _ _
  exact (alike_setAt s.1 s'.1 (offset + i) _ _).bind fun _ _ => alike_pure _ _

theorem alike_gf128Mul (x y x' y' : Block) : Alike (gf128Mul x y) (gf128Mul x' y') := by
  refine (alike_loadBe64 x x' 0).bind fun vHi vHi' => (alike_loadBe64 x x' 8).bind fun vLo vLo' => ?_
  refine (alike_loadBe64 y y' 0).bind fun yHi yHi' => (alike_loadBe64 y y' 8).bind fun yLo yLo' => ?_
  refine (alike_forEach (fun i _ s s' => ?_) _ _).bind fun s s' => ?_
  · exact (alike_if (fun _ => alike_pure _ _) fun _ => alike_pure _ _).bind fun ybit ybit' =>
      alike_pure _ _
  · exact (alike_storeBe64 _ _ 0 _ _).bind fun out out' => alike_storeBe64 out out' 8 _ _

theorem alike_xorBlocks (a b a' b' : Block) : Alike (xorBlocks a b) (xorBlocks a' b') := by
  refine alike_forEach (fun i _ s s' => ?_) a a'
  exact (alike_getAt s s' i).bind fun x x' => (alike_getAt b b' i).bind fun y y' =>
    alike_setAt s s' i (x ^^^ y) (x' ^^^ y')

theorem alike_paddedChunk {data data' : List Byte} (hlen : data.length = data'.length) (offset : Nat) :
    Alike (paddedChunk data offset) (paddedChunk data' offset) := by
  rw [paddedChunk, paddedChunk, hlen]
  refine Alike.bind_value ⟨rfl⟩ (alike_forEach (fun i _ s s' => ?_) _ _)
  exact (alike_getListAt data data' (offset + i)).bind fun x x' => alike_setAt s s' i x x'

theorem alike_foldInto (y h y' h' : Block) {data data' : List Byte} (hlen : data.length = data'.length) :
    Alike (foldInto y h data) (foldInto y' h' data') := by
  rw [foldInto, foldInto, hlen]
  refine alike_forEach (fun k _ s s' => ?_) y y'
  exact (alike_paddedChunk hlen _).bind fun b b' => (alike_xorBlocks s b s' b').bind fun y y' =>
    alike_gf128Mul y h y' h'

theorem alike_ghash (h h' : Block) {aad aad' ciphertext ciphertext' : List Byte}
    (haad : aad.length = aad'.length) (hlen : ciphertext.length = ciphertext'.length) :
    Alike (ghash h aad ciphertext) (ghash h' aad' ciphertext') := by
  refine (alike_foldInto _ h _ h' haad).bind fun y y' =>
    (alike_foldInto y h y' h' hlen).bind fun y y' => ?_
  refine (alike_storeBe64 _ _ 0 _ _).bind fun b b' => (alike_storeBe64 b b' 8 _ _).bind fun b b' => ?_
  exact (alike_xorBlocks y _ y' _).bind fun y y' => alike_gf128Mul y h y' h'

theorem alike_makeCounterBlock (nonce nonce' : Vector Byte kNonceSizeBytes)
    (counter counter' : BitVec 32) :
    Alike (makeCounterBlock nonce counter) (makeCounterBlock nonce' counter') := by
  refine (alike_forEach (fun i _ b b' => ?_) _ _).bind fun b b' =>
    (alike_setAt b b' 12 _ _).bind fun b b' => ?_
  · exact (alike_getAt nonce nonce' i).bind fun x x' => alike_setAt b b' i x x'
  · exact (alike_setAt b b' 13 _ _).bind fun b b' => (alike_setAt b b' 14 _ _).bind fun b b' =>
      alike_setAt b b' 15 _ _

theorem alike_constantTimeEqual {n : Nat} (a b a' b' : Vector Byte n) :
    Alike (constantTimeEqual a b) (constantTimeEqual a' b') := by
  refine (alike_forEach (fun i _ diff diff' => ?_) _ _).bind fun _ _ => alike_pure _ _
  exact (alike_getAt a a' i).bind fun x x' => (alike_getAt b b' i).bind fun y y' => alike_pure _ _

section Keys

variable {key key' : SecretKey} (hsize : key.size = key'.size)

include hsize

theorem alike_applyKeystreamFrom (start start' : BitVec 32) (nonce nonce' : Vector Byte kNonceSizeBytes)
    {input input' : List Byte} (hlen : input.length = input'.length) :
    Alike (applyKeystreamFrom false start key nonce input)
      (applyKeystreamFrom false start' key' nonce' input') := by
  have hcount : (input.length + 15) / 16 = (input'.length + 15) / 16 := by rw [hlen]
  rw [applyKeystreamFrom, applyKeystreamFrom, hcount]
  refine (alike_forEach (fun k _ s s' => ?_) _ _).bind fun _ _ => alike_pure _ _
  refine (alike_makeCounterBlock nonce nonce' _ _).bind fun b b' =>
    (alike_encryptBlock hsize b b').bind fun z z' => ?_
  have hchunk : min kBlockSizeBytes (input.length - 16 * k) =
      min kBlockSizeBytes (input'.length - 16 * k) := by rw [hlen]
  rw [hchunk]
  refine Alike.bind_value ⟨by rw [hlen]⟩ (alike_forEach (fun i _ s s' => ?_) s s')
  exact (alike_getListAt input input' _).bind fun x x' => (alike_getAt z z' i).bind fun y y' =>
    alike_setAt s s' _ _ _

theorem alike_computeTag (nonce nonce' : Vector Byte kGcmNonceSizeBytes)
    {aad aad' ciphertext ciphertext' : List Byte} (haad : aad.length = aad'.length)
    (hlen : ciphertext.length = ciphertext'.length) :
    Alike (computeTag false key nonce aad ciphertext)
      (computeTag false key' nonce' aad' ciphertext') := by
  refine (alike_encryptBlock hsize _ _).bind fun h h' =>
    (alike_makeCounterBlock nonce nonce' 1 1).bind fun j0 j0' => ?_
  refine (alike_ghash h h' haad hlen).bind fun s s' =>
    (alike_encryptBlock hsize j0 j0').bind fun e e' => ?_
  refine (alike_xorBlocks e s e' s').bind fun tag tag' => ?_
  exact Alike.bind_value ⟨rfl⟩ (Alike.bind_value ⟨rfl⟩ (alike_pure tag tag'))

theorem alike_encryptUnder (nonce nonce' : Vector Byte kGcmNonceSizeBytes)
    {plaintext plaintext' aad aad' : List Byte} (hlen : plaintext.length = plaintext'.length)
    (haad : aad.length = aad'.length) :
    Alike (encryptUnder false key nonce plaintext aad)
      (encryptUnder false key' nonce' plaintext' aad') := by
  refine (alike_applyKeystreamFrom hsize 2 2 nonce nonce' hlen).bind_value ?_
  rw [value_applyKeystreamFrom, value_applyKeystreamFrom]
  refine (alike_computeTag hsize nonce nonce' haad ?_).bind fun _ _ => alike_pure _ _
  rw [length_keystreamXor, length_keystreamXor, hlen]

/-- The verdict is the only thing that a decryption shows besides the sizes. -/
theorem alike_decrypt {container container' : GcmContainer} {aad aad' : List Byte}
    (hlen : container.ciphertext.length = container'.ciphertext.length) (haad : aad.length = aad'.length)
    (hverdict : (decrypt false key container aad).value.isOk =
      (decrypt false key' container' aad').value.isOk) :
    Alike (decrypt false key container aad) (decrypt false key' container' aad') := by
  rw [value_decrypt, value_decrypt, hlen] at hverdict
  rw [decrypt, decrypt, hlen]
  refine alike_if (fun _ => alike_pure _ _) fun hfits => ?_
  have hsmall : ¬container'.ciphertext.length > AesGcm.kMaxPlaintextBytes := of_decide_eq_false hfits
  rw [if_neg hsmall, if_neg hsmall] at hverdict
  refine (alike_computeTag hsize container.nonce container'.nonce haad hlen).bind_value ?_
  refine (alike_constantTimeEqual _ _ _ _).bind_value ?_
  rw [value_constantTimeEqual, value_constantTimeEqual, value_computeTag, value_computeTag]
  -- both tags match or neither does
  have hequal :
      Aeslib.constantTimeEqual (AesGcm.tagOf key container.nonce aad container.ciphertext) container.tag =
      Aeslib.constantTimeEqual (AesGcm.tagOf key' container'.nonce aad' container'.ciphertext)
        container'.tag := by
    rw [Bool.eq_iff_iff, constantTimeEqual_iff, constantTimeEqual_iff]
    split_ifs at hverdict with htag htag' htag'
    · exact ⟨fun _ => htag', fun _ => htag⟩
    · exact absurd hverdict (by simp [Except.isOk, Except.toBool])
    · exact absurd hverdict (by simp [Except.isOk, Except.toBool])
    · exact ⟨fun h => absurd h htag, fun h => absurd h htag'⟩
  rw [hequal]
  refine alike_if (fun _ => alike_pure _ _) fun _ => ?_
  exact (alike_applyKeystreamFrom hsize 2 2 container.nonce container'.nonce hlen).bind fun _ _ =>
    alike_pure _ _

end Keys

theorem diverge_encryptUnder (nonce : Vector Byte kGcmNonceSizeBytes) :
    Diverge (encryptUnder true {} nonce [] []) (encryptUnder true markedKey nonce [] []) := by
  have hstream : Alike (applyKeystreamFrom true 2 {} nonce [])
      (applyKeystreamFrom true 2 markedKey nonce []) :=
    (alike_forEach (fun k hk => absurd (List.mem_range.mp hk) (Nat.not_lt_zero k)) _ _).bind
      fun _ _ => alike_pure _ _
  exact hstream.bind_diverge (Diverge.bind (diverge_encryptBlock _).bind)

/-- What an observer of the branches and the indices may learn: the size of the key, the lengths,
and the outcome of a decryption. -/
structure ConstantTime (jumps : Bool) : Prop where
  keystream : ∀ (key key' : SecretKey) (nonce nonce' : Vector Byte kNonceSizeBytes)
    (input input' : List Byte), key.size = key'.size → input.length = input'.length →
      Alike (applyKeystreamFrom jumps 0 key nonce input) (applyKeystreamFrom jumps 0 key' nonce' input')
  encrypt : ∀ (key key' : SecretKey) (nonce nonce' : Vector Byte kGcmNonceSizeBytes)
    (plaintext plaintext' aad aad' : List Byte), key.size = key'.size →
    plaintext.length = plaintext'.length → aad.length = aad'.length →
      Alike (encryptUnder jumps key nonce plaintext aad) (encryptUnder jumps key' nonce' plaintext' aad')
  decrypt : ∀ (key key' : SecretKey) (container container' : GcmContainer) (aad aad' : List Byte),
    key.size = key'.size → container.ciphertext.length = container'.ciphertext.length →
    aad.length = aad'.length →
      (decrypt jumps key container aad).value.isOk = (decrypt jumps key' container' aad').value.isOk →
      Alike (decrypt jumps key container aad) (decrypt jumps key' container' aad')

/-- **Both modes are constant-time on the portable backend if and only if the conditional expression
of `xtime` is compiled to a selection.** -/
theorem constantTime_iff (jumps : Bool) : ConstantTime jumps ↔ jumps = false := by
  constructor
  · intro h
    cases jumps with
    | false => rfl
    | true =>
        have halike := h.encrypt {} markedKey (Vector.replicate _ 0) (Vector.replicate _ 0) [] [] []
          [] rfl rfl rfl
        exact absurd halike (diverge_encryptUnder _).not_alike
  · rintro rfl
    constructor
    · exact fun key key' nonce nonce' input input' hsize hlen =>
        alike_applyKeystreamFrom hsize 0 0 nonce nonce' hlen
    · exact fun key key' nonce nonce' plaintext plaintext' aad aad' hsize hlen haad =>
        alike_encryptUnder hsize nonce nonce' hlen haad
    · exact fun key key' container container' aad aad' hsize hlen haad hverdict =>
        alike_decrypt hsize hlen haad hverdict

end Shows

end Aeslib.Observed
