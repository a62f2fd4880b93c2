import Aeslib.Sha256
import Aeslib.StandardRfc2104

/-!
`hmac_sha256` is HMAC with blocks of 64 bytes. The inner hash reads the padded key and the whole
message, from the stack or from the heap, and no cell that nothing wrote.
-/

namespace Aeslib

theorem length_hmacKey_le (key : List Byte) : (hmacKey key).length ≤ kHmacBlockSize := by
  rw [hmacKey]
  split_ifs with h
  · rw [Vector.length_toList]
    decide
  · exact Nat.le_of_not_lt h

theorem toList_hmacPad (pad : Byte) (key : List Byte) :
    (hmacPad pad (hmacKey key)).toList =
      Rfc2104.xorPad pad (Rfc2104.blockKey sha256 kHmacBlockSize key) := by
  have hlen := length_hmacKey_le key
  change _ = (hmacKey key ++ List.replicate (kHmacBlockSize - (hmacKey key).length) 0).map (· ^^^ pad)
  refine List.ext_getElem (by simp; omega) fun i h1 h2 => ?_
  have hi : i < kHmacBlockSize := by simpa using h1
  simp only [hmacPad, Vector.toList_ofFn, List.getElem_ofFn, List.getElem_map]
  split_ifs with h
  · rw [List.getElem_append_left h, BitVec.xor_comm]
  · rw [List.getElem_append_right (by omega), List.getElem_replicate]
    exact BitVec.zero_xor.symm

theorem take_copyInto {buffer : List (Option Byte)} {offset : Nat} (data : List Byte)
    (h : offset ≤ buffer.length) :
    (copyInto buffer offset data).take (offset + data.length) = buffer.take offset ++ data.map some := by
  have hlen : (buffer.take offset ++ data.map some).length = offset + data.length := by
    rw [List.length_append, List.length_take_of_le h, List.length_map]
  rw [copyInto, List.take_left' hlen]

/-- Both copies stay inside of the buffer. -/
theorem le_length_hmacInnerBuffer (len : Nat) : kHmacBlockSize + len ≤ (hmacInnerBuffer len).length := by
  rw [hmacInnerBuffer]
  split_ifs with h
  · rw [List.length_replicate]
    exact Nat.add_le_add_left h _
  · rw [List.length_replicate]

/-- On both paths, what the inner hash reads is the pad and the message. -/
theorem hmacInnerData_eq (ipad : Vector Byte kHmacBlockSize) (data : List Byte) :
    hmacInnerData ipad data = (ipad.toList ++ data).map some := by
  have hipad : (copyInto (hmacInnerBuffer data.length) 0 ipad.toList).take kHmacBlockSize =
      ipad.toList.map some := by
    have htake := take_copyInto ipad.toList (Nat.zero_le (hmacInnerBuffer data.length).length)
    rwa [Nat.zero_add, Vector.length_toList, List.take_zero, List.nil_append] at htake
  have hlen : kHmacBlockSize ≤ (copyInto (hmacInnerBuffer data.length) 0 ipad.toList).length := by
    rw [copyInto, List.length_append, List.length_append, List.length_map, Vector.length_toList]
    omega
  simp only [hmacInnerData]
  rw [take_copyInto data hlen, hipad, List.map_append]

theorem hmacSha256_eq : hmacSha256 = Rfc2104.hmac sha256 kHmacBlockSize := by
  funext key data
  have hread : (hmacInnerData (hmacPad 0x36 (hmacKey key)) data).map (fun cell => cell.getD 0) =
      (hmacPad 0x36 (hmacKey key)).toList ++ data := by
    rw [hmacInnerData_eq, List.map_map]
    exact List.map_id _
  simp only [hmacSha256, hread, toList_hmacPad]
  rfl

/-- **HMAC-SHA256** of RFC 2104, for every key and message: the copies stay inside of the buffer of
either path, and the inner hash reads the padded key and the whole message. -/
theorem hmacSha256_exact (key data : List Byte) :
    hmacSha256 key data = Rfc2104.hmac sha256 kHmacBlockSize key data ∧
      kHmacBlockSize + data.length ≤ (hmacInnerBuffer data.length).length ∧
      hmacInnerData (hmacPad 0x36 (hmacKey key)) data =
        (Rfc2104.xorPad 0x36 (Rfc2104.blockKey sha256 kHmacBlockSize key) ++ data).map some := by
  refine ⟨by rw [hmacSha256_eq], le_length_hmacInnerBuffer data.length, ?_⟩
  rw [hmacInnerData_eq, toList_hmacPad]

end Aeslib
