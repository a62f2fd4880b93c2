import Aeslib.Os

/-!
SHA-256, HMAC and PBKDF2 of `src/sha256.cpp`, with its constant-time comparison. The hash keeps a
64-byte buffer and compresses it when it is full. The loop of PBKDF2 counts with 32 bits and
compares with `≤`, so it is a program that need not end.
-/

namespace Aeslib

open Bytes Fill Prog

def kSha256K : Vector (BitVec 32) 64 := #v[
  0x428a2f98, 0x71374491, 0xb5c0fbcf, 0xe9b5dba5, 0x3956c25b, 0x59f111f1, 0x923f82a4, 0xab1c5ed5,
  0xd807aa98, 0x12835b01, 0x243185be, 0x550c7dc3, 0x72be5d74, 0x80deb1fe, 0x9bdc06a7, 0xc19bf174,
  0xe49b69c1, 0xefbe4786, 0x0fc19dc6, 0x240ca1cc, 0x2de92c6f, 0x4a7484aa, 0x5cb0a9dc, 0x76f988da,
  0x983e5152, 0xa831c66d, 0xb00327c8, 0xbf597fc7, 0xc6e00bf3, 0xd5a79147, 0x06ca6351, 0x14292967,
  0x27b70a85, 0x2e1b2138, 0x4d2c6dfc, 0x53380d13, 0x650a7354, 0x766a0abb, 0x81c2c92e, 0x92722c85,
  0xa2bfe8a1, 0xa81a664b, 0xc24b8b70, 0xc76c51a3, 0xd192e819, 0xd6990624, 0xf40e3585, 0x106aa070,
  0x19a4c116, 0x1e376c08, 0x2748774c, 0x34b0bcb5, 0x391c0cb3, 0x4ed8aa4a, 0x5b9cca4f, 0x682e6ff3,
  0x748f82ee, 0x78a5636f, 0x84c87814, 0x8cc70208, 0x90befffa, 0xa4506ceb, 0xbef9a3f7, 0xc67178f2]

def ror32 (x : BitVec 32) (n : Nat) : BitVec 32 := x >>> n ||| x <<< (32 - n)

def ch (x y z : BitVec 32) : BitVec 32 := (x &&& y) ^^^ (~~~x &&& z)

def maj (x y z : BitVec 32) : BitVec 32 := (x &&& y) ^^^ (x &&& z) ^^^ (y &&& z)

def sigma0 (x : BitVec 32) : BitVec 32 := ror32 x 2 ^^^ ror32 x 13 ^^^ ror32 x 22

def sigma1 (x : BitVec 32) : BitVec 32 := ror32 x 6 ^^^ ror32 x 11 ^^^ ror32 x 25

def gamma0 (x : BitVec 32) : BitVec 32 := ror32 x 7 ^^^ ror32 x 18 ^^^ x >>> 3

def gamma1 (x : BitVec 32) : BitVec 32 := ror32 x 17 ^^^ ror32 x 19 ^^^ x >>> 10

/-- `be_to_u32(&b[offset])`. -/
def beToU32 (b : Vector Byte 64) (offset : Nat) : BitVec 32 :=
  ofBytesBE 32 (Vector.ofFn fun i : Fin 4 => b[offset + i.val]!)

/-- The variables `a` to `h` of the compression. -/
structure Working where
  a : BitVec 32
  b : BitVec 32
  c : BitVec 32
  d : BitVec 32
  e : BitVec 32
  f : BitVec 32
  g : BitVec 32
  h : BitVec 32

abbrev HashValues := Vector (BitVec 32) 8

def messageSchedule (b : Vector Byte 64) : Vector (BitVec 32) 64 :=
  let w : Vector (BitVec 32) 64 := Vector.replicate 64 0
  let w := fill (fun _ i => beToU32 b (i * 4)) 0 16 w
  fill (fun w i => gamma1 w[i - 2]! + w[i - 7]! + gamma0 w[i - 15]! + w[i - 16]!) 16 48 w

def compressRound (w : Vector (BitVec 32) 64) (s : Working) (i : Nat) : Working :=
  let t1 := s.h + sigma1 s.e + ch s.e s.f s.g + kSha256K[i]! + w[i]!
  let t2 := sigma0 s.a + maj s.a s.b s.c
  { a := t1 + t2, b := s.a, c := s.b, d := s.c, e := s.d + t1, f := s.e, g := s.f, h := s.g }

/-- The lambda `process_block`. -/
def processBlock (h : HashValues) (b : Vector Byte 64) : HashValues :=
  let w := messageSchedule b
  let s : Working :=
    { a := h[0], b := h[1], c := h[2], d := h[3], e := h[4], f := h[5], g := h[6], h := h[7] }
  let s := (List.range 64).foldl (compressRound w) s
  #v[h[0] + s.a, h[1] + s.b, h[2] + s.c, h[3] + s.d, h[4] + s.e, h[5] + s.f, h[6] + s.g, h[7] + s.h]

/-- The variables of the incremental loop. -/
structure Sha256State where
  h : HashValues
  block : Vector Byte 64
  blockLen : Nat

def sha256Init : Sha256State where
  h := #v[0x6a09e667, 0xbb67ae85, 0x3c6ef372, 0xa54ff53a, 0x510e527f, 0x9b05688c, 0x1f83d9ab, 0x5be0cd19]
  block := Vector.replicate 64 0
  blockLen := 0

def sha256Byte (s : Sha256State) (byte : Byte) : Sha256State :=
  let block := s.block.setIfInBounds s.blockLen byte
  let blockLen := s.blockLen + 1
  if blockLen = 64 then { h := processBlock s.h block, block, blockLen := 0 }
  else { s with block, blockLen }

/-- `memset(&block[first], 0, last - first)`. -/
def zeroRange (block : Vector Byte 64) (first last : Nat) : Vector Byte 64 :=
  Vector.ofFn fun i => if first ≤ i.val ∧ i.val < last then 0 else block[i]

/-- `u64_to_be(&block[56], ml)`. -/
def putLength (block : Vector Byte 64) (ml : BitVec 64) : Vector Byte 64 :=
  Vector.ofFn fun i => if 56 ≤ i.val then byteLE ml (63 - i.val) else block[i]

/-- The padding and the last one or two blocks. -/
def sha256Final (s : Sha256State) (ml : BitVec 64) : HashValues :=
  let block := s.block.setIfInBounds s.blockLen 0x80
  let blockLen := s.blockLen + 1
  let s : Sha256State :=
    if blockLen > 56 then
      let block := zeroRange block blockLen 64
      { h := processBlock s.h block, block, blockLen := 0 }
    else { s with block, blockLen }
  processBlock s.h (putLength (zeroRange s.block s.blockLen 56) ml)

def sha256 (data : List Byte) : Vector Byte 32 :=
  let ml := BitVec.ofNat 64 data.length * 8
  let h := sha256Final (data.foldl sha256Byte sha256Init) ml
  Vector.ofFn fun i => byteLE h[i.val / 4]! (3 - i.val % 4)

abbrev kHmacBlockSize : Nat := 64

abbrev kInlineCap : Nat := 256

/-- The key, hashed when it is longer than a block. -/
def hmacKey (key : List Byte) : List Byte :=
  if key.length > kHmacBlockSize then (sha256 key).toList else key

/-- A block of `pad` bytes with the key added. -/
def hmacPad (pad : Byte) (key : List Byte) : Vector Byte kHmacBlockSize :=
  Vector.ofFn fun i => if h : i.val < key.length then pad ^^^ key[i.val] else pad

/-- `inner_data` before the copies: cells that nothing wrote are `none`. -/
def hmacInnerBuffer (len : Nat) : List (Option Byte) :=
  if len ≤ kInlineCap then List.replicate (kHmacBlockSize + kInlineCap) none
  else List.replicate (kHmacBlockSize + len) (some 0)

/-- `memcpy(buffer + offset, data, len)`. -/
def copyInto (buffer : List (Option Byte)) (offset : Nat) (data : List Byte) : List (Option Byte) :=
  buffer.take offset ++ data.map some ++ buffer.drop (offset + data.length)

/-- The bytes that the inner hash reads. -/
def hmacInnerData (ipad : Vector Byte kHmacBlockSize) (data : List Byte) : List (Option Byte) :=
  let innerData := copyInto (hmacInnerBuffer data.length) 0 ipad.toList
  let innerData := copyInto innerData kHmacBlockSize data
  innerData.take (kHmacBlockSize + data.length)

def hmacSha256 (key data : List Byte) : Vector Byte 32 :=
  let key := hmacKey key
  let ipad := hmacPad 0x36 key
  let opad := hmacPad 0x5c key
  -- an unwritten cell has no value; zero stands in for it
  let inner := sha256 ((hmacInnerData ipad data).map fun cell => cell.getD 0)
  sha256 (opad.toList ++ inner.toList)

/-- The variables of the loop over the iterations. -/
structure Pbkdf2State where
  i : BitVec 32
  u : Vector Byte 32
  tBlock : Vector Byte 32

def pbkdf2Body (passphrase : List Byte) (iterations : BitVec 32) (s : Pbkdf2State) :
    Prog World Error (Pbkdf2State ⊕ Vector Byte 32) :=
  if s.i ≤ iterations then do
    record .prf
    let u := hmacSha256 passphrase s.u.toList
    pure (.inl { i := s.i + 1, u, tBlock := Vector.zipWith (· ^^^ ·) s.tBlock u })
  else pure (.inr s.tBlock)

/-- The body of the loop over `block_idx`. -/
def pbkdf2Block (passphrase salt : List Byte) (iterations blockIdx : BitVec 32) :
    Prog World Error (Vector Byte 32) := do
  let uInputBuf := salt ++ [byteLE blockIdx 3, byteLE blockIdx 2, byteLE blockIdx 1, byteLE blockIdx 0]
  record .prf
  let u := hmacSha256 passphrase uInputBuf
  loop (pbkdf2Body passphrase iterations) { i := 2, u, tBlock := u }

def pbkdf2HmacSha256 (passphrase salt : List Byte) (iterations : BitVec 32) :
    Prog World Error (Vector Byte 64) := do
  record (.pbkdf2 iterations)
  let t1 ← pbkdf2Block passphrase salt iterations 1
  let t2 ← pbkdf2Block passphrase salt iterations 2
  pure (t1 ++ t2)

def constantTimeEqual {n : Nat} (a b : Vector Byte n) : Bool :=
  (List.range n).foldl (fun diff i => diff ||| a[i]! ^^^ b[i]!) 0#8 == 0#8

theorem constantTimeEqual_iff {n : Nat} (a b : Vector Byte n) :
    constantTimeEqual a b = true ↔ a = b := by
  have hfold (k : Nat) (hk : k ≤ n) :
      (List.range k).foldl (fun diff i => diff ||| a[i]! ^^^ b[i]!) 0#8 = 0#8 ↔
      ∀ i < k, a[i]! = b[i]! := by
    induction k with
    | zero => simp
    | succ k ih =>
        rw [List.range_succ, List.foldl_append, List.foldl_cons, List.foldl_nil,
          BitVec.or_eq_zero_iff, ih (by omega), BitVec.xor_eq_zero_iff]
        constructor
        · rintro ⟨hlt, hk⟩ i hi
          rcases Nat.lt_succ_iff_lt_or_eq.mp hi with h | rfl
          · exact hlt i h
          · exact hk
        · exact fun h => ⟨fun i hi => h i (by omega), h k (Nat.lt_succ_self k)⟩
  rw [constantTimeEqual, beq_iff_eq, hfold n le_rfl]
  constructor
  · intro h
    refine Vector.ext fun i hi => ?_
    have hi' := h i hi
    rwa [getElem!_pos a i hi, getElem!_pos b i hi] at hi'
  · exact fun h i _ => by rw [h]

end Aeslib
