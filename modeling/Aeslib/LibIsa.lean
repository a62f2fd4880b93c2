import Aeslib.LibBytes

/-!
The AES instructions of three architectures, by their vendors' pseudocode: Intel's AES-NI with the
shuffles its key schedules use, the two AArch64 instructions, and the RISC-V scalar extension Zkne. They
share the S-box table and the column transform of FIPS 197.
-/

namespace Isa

open Bytes

/-- The S-box as a table, FIPS 197 figure 7: the row is the high digit of the byte, the column the low
digit. -/
def sboxTable : Vector (Vector Byte 16) 16 := #v[
  #v[0x63, 0x7c, 0x77, 0x7b, 0xf2, 0x6b, 0x6f, 0xc5, 0x30, 0x01, 0x67, 0x2b, 0xfe, 0xd7, 0xab, 0x76],
  #v[0xca, 0x82, 0xc9, 0x7d, 0xfa, 0x59, 0x47, 0xf0, 0xad, 0xd4, 0xa2, 0xaf, 0x9c, 0xa4, 0x72, 0xc0],
  #v[0xb7, 0xfd, 0x93, 0x26, 0x36, 0x3f, 0xf7, 0xcc, 0x34, 0xa5, 0xe5, 0xf1, 0x71, 0xd8, 0x31, 0x15],
  #v[0x04, 0xc7, 0x23, 0xc3, 0x18, 0x96, 0x05, 0x9a, 0x07, 0x12, 0x80, 0xe2, 0xeb, 0x27, 0xb2, 0x75],
  #v[0x09, 0x83, 0x2c, 0x1a, 0x1b, 0x6e, 0x5a, 0xa0, 0x52, 0x3b, 0xd6, 0xb3, 0x29, 0xe3, 0x2f, 0x84],
  #v[0x53, 0xd1, 0x00, 0xed, 0x20, 0xfc, 0xb1, 0x5b, 0x6a, 0xcb, 0xbe, 0x39, 0x4a, 0x4c, 0x58, 0xcf],
  #v[0xd0, 0xef, 0xaa, 0xfb, 0x43, 0x4d, 0x33, 0x85, 0x45, 0xf9, 0x02, 0x7f, 0x50, 0x3c, 0x9f, 0xa8],
  #v[0x51, 0xa3, 0x40, 0x8f, 0x92, 0x9d, 0x38, 0xf5, 0xbc, 0xb6, 0xda, 0x21, 0x10, 0xff, 0xf3, 0xd2],
  #v[0xcd, 0x0c, 0x13, 0xec, 0x5f, 0x97, 0x44, 0x17, 0xc4, 0xa7, 0x7e, 0x3d, 0x64, 0x5d, 0x19, 0x73],
  #v[0x60, 0x81, 0x4f, 0xdc, 0x22, 0x2a, 0x90, 0x88, 0x46, 0xee, 0xb8, 0x14, 0xde, 0x5e, 0x0b, 0xdb],
  #v[0xe0, 0x32, 0x3a, 0x0a, 0x49, 0x06, 0x24, 0x5c, 0xc2, 0xd3, 0xac, 0x62, 0x91, 0x95, 0xe4, 0x79],
  #v[0xe7, 0xc8, 0x37, 0x6d, 0x8d, 0xd5, 0x4e, 0xa9, 0x6c, 0x56, 0xf4, 0xea, 0x65, 0x7a, 0xae, 0x08],
  #v[0xba, 0x78, 0x25, 0x2e, 0x1c, 0xa6, 0xb4, 0xc6, 0xe8, 0xdd, 0x74, 0x1f, 0x4b, 0xbd, 0x8b, 0x8a],
  #v[0x70, 0x3e, 0xb5, 0x66, 0x48, 0x03, 0xf6, 0x0e, 0x61, 0x35, 0x57, 0xb9, 0x86, 0xc1, 0x1d, 0x9e],
  #v[0xe1, 0xf8, 0x98, 0x11, 0x69, 0xd9, 0x8e, 0x94, 0x9b, 0x1e, 0x87, 0xe9, 0xce, 0x55, 0x28, 0xdf],
  #v[0x8c, 0xa1, 0x89, 0x0d, 0xbf, 0xe6, 0x42, 0x68, 0x41, 0x99, 0x2d, 0x0f, 0xb0, 0x54, 0xbb, 0x16]]

def sbox (b : Byte) : Byte := (sboxTable[b.toNat / 16]!)[b.toNat % 16]!

/-- Multiplication by `{02}`. -/
def xt2 (b : Byte) : Byte := b <<< 1 ^^^ (if b.getLsbD 7 then 0x1b else 0)

/-- Multiplication by `{03}`. -/
def xt3 (b : Byte) : Byte := b ^^^ xt2 b

/-- `MixColumns` on one column. -/
def mixColumn (s0 s1 s2 s3 : Byte) : Vector Byte 4 :=
  #v[xt2 s0 ^^^ xt3 s1 ^^^ s2 ^^^ s3, s0 ^^^ xt2 s1 ^^^ xt3 s2 ^^^ s3,
    s0 ^^^ s1 ^^^ xt2 s2 ^^^ xt3 s3, xt3 s0 ^^^ s1 ^^^ s2 ^^^ xt2 s3]

/-- A state of 16 bytes, column after column. -/
abbrev State := Vector Byte 16

def subBytes (s : State) : State := s.map sbox

def shiftRows (s : State) : State :=
  #v[s[0], s[5], s[10], s[15], s[4], s[9], s[14], s[3], s[8], s[13], s[2], s[7], s[12], s[1], s[6],
    s[11]]

def mixColumns (s : State) : State :=
  Vector.ofFn fun i =>
    let c := 4 * (i.val / 4)
    (mixColumn s[c]! s[c + 1]! s[c + 2]! s[c + 3]!)[i.val % 4]!

def xorState (a b : State) : State := Vector.zipWith (· ^^^ ·) a b

/-- The S-box on each byte of a register. -/
def subWord (x : BitVec 32) : BitVec 32 := ofBytesLE 32 ((toBytesLE 4 x).map sbox)

namespace X86

abbrev M128 := BitVec 128

/-- `_mm_loadu_si128` and `_mm_storeu_si128`: byte `i` of memory is byte `i` of the register. -/
def loadu (bytes : Vector Byte 16) : M128 := ofBytesLE 128 bytes

def storeu (x : M128) : Vector Byte 16 := toBytesLE 16 x

def dword (x : M128) (i : Nat) : BitVec 32 := x.extractLsb' (32 * i) 32

def ofDwords (d0 d1 d2 d3 : BitVec 32) : M128 := d3 ++ d2 ++ d1 ++ d0

/-- PSHUFD: destination doubleword `i` is the source doubleword that bits `2i, 2i + 1` of the
immediate select. -/
def shuffleEpi32 (a : M128) (imm : Byte) : M128 :=
  let select (i : Nat) := dword a (imm.extractLsb' (2 * i) 2).toNat
  ofDwords (select 0) (select 1) (select 2) (select 3)

/-- PSLLDQ: shift left by `imm` bytes. -/
def slliSi128 (a : M128) (imm : Nat) : M128 := a <<< (8 * imm)

/-- AESENC. -/
def aesenc (a roundKey : M128) : M128 :=
  loadu (mixColumns (subBytes (shiftRows (storeu a)))) ^^^ roundKey

/-- AESENCLAST. -/
def aesenclast (a roundKey : M128) : M128 := loadu (subBytes (shiftRows (storeu a))) ^^^ roundKey

/-- AESKEYGENASSIST. -/
def aeskeygenassist (a : M128) (rcon : Byte) : M128 :=
  let x1 := subWord (dword a 1)
  let x3 := subWord (dword a 3)
  let rcon : BitVec 32 := rcon.setWidth 32
  ofDwords x1 (x1.rotateRight 8 ^^^ rcon) x3 (x3.rotateRight 8 ^^^ rcon)

end X86

namespace Arm

/-- AESE. -/
def vaeseq (x k : State) : State := shiftRows (subBytes (xorState x k))

/-- AESMC. -/
def vaesmcq (x : State) : State := mixColumns x

def veorq (x y : State) : State := xorState x y

end Arm

namespace Rv64

/-- The bytes of the shifted state that form its low half, most significant first, when the state is in
`rs2 ++ rs1`. -/
def shiftRowsFwd (rs2 rs1 : BitVec 64) : BitVec 64 :=
  byteLE rs1 3 ++ byteLE rs2 6 ++ byteLE rs2 1 ++ byteLE rs1 4 ++
    byteLE rs2 7 ++ byteLE rs2 2 ++ byteLE rs1 5 ++ byteLE rs1 0

def applyFwdSboxToEachByte (x : BitVec 64) : BitVec 64 := ofBytesLE 64 ((toBytesLE 8 x).map sbox)

def mixColumnFwd (x : BitVec 32) : BitVec 32 :=
  ofBytesLE 32 (mixColumn (byteLE x 0) (byteLE x 1) (byteLE x 2) (byteLE x 3))

def aes64es (rs1 rs2 : BitVec 64) : BitVec 64 := applyFwdSboxToEachByte (shiftRowsFwd rs2 rs1)

def aes64esm (rs1 rs2 : BitVec 64) : BitVec 64 :=
  let sb := applyFwdSboxToEachByte (shiftRowsFwd rs2 rs1)
  mixColumnFwd (sb.extractLsb' 32 32) ++ mixColumnFwd (sb.extractLsb' 0 32)

/-- The round constant of a round number; `0xA` selects none. -/
def decodeRcon (rnum : Nat) : BitVec 32 :=
  #v[0x01, 0x02, 0x04, 0x08, 0x10, 0x20, 0x40, 0x80, 0x1b, 0x36, 0x00][rnum]!

def aes64ks1i (rs1 : BitVec 64) (rnum : Nat) : BitVec 64 :=
  let tmp1 : BitVec 32 := rs1.extractLsb' 32 32
  let tmp2 := if rnum = 0xA then tmp1 else tmp1.rotateRight 8
  let tmp3 := subWord tmp2
  (tmp3 ^^^ decodeRcon rnum) ++ (tmp3 ^^^ decodeRcon rnum)

def aes64ks2 (rs1 rs2 : BitVec 64) : BitVec 64 :=
  let w0 : BitVec 32 := rs1.extractLsb' 32 32 ^^^ rs2.extractLsb' 0 32
  let w1 : BitVec 32 := rs1.extractLsb' 32 32 ^^^ rs2.extractLsb' 0 32 ^^^ rs2.extractLsb' 32 32
  w1 ++ w0

end Rv64

end Isa
