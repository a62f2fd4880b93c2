import Aeslib.LibBytes

/-!
HMAC of RFC 2104, over any hash function `hash` whose blocks have `b` bytes.
-/

namespace Rfc2104

variable {hLen : Nat} (hash : List Byte → Vector Byte hLen) (b : Nat)

/-- The key as one block: a key longer than a block is hashed first, then zeros fill the block. -/
def blockKey (k : List Byte) : List Byte :=
  let k := if b < k.length then (hash k).toList else k
  k ++ List.replicate (b - k.length) 0

/-- `K XOR pad`, for a pad that repeats one byte. -/
def xorPad (pad : Byte) (k : List Byte) : List Byte := k.map (· ^^^ pad)

/-- `H(K XOR opad, H(K XOR ipad, text))`. -/
def hmac (k text : List Byte) : Vector Byte hLen :=
  hash (xorPad 0x5c (blockKey hash b k) ++ (hash (xorPad 0x36 (blockKey hash b k) ++ text)).toList)

theorem length_blockKey (hLen_le : hLen ≤ b) (k : List Byte) : (blockKey hash b k).length = b := by
  simp only [blockKey]
  split_ifs
  · rw [List.length_append, List.length_replicate, Vector.length_toList]
    omega
  · rw [List.length_append, List.length_replicate]
    omega

/-- Two hash functions that agree on the messages shorter than `n` bytes give one HMAC. -/
theorem hmac_congr {hash hash' : List Byte → Vector Byte hLen} {b n : Nat} {k text : List Byte}
    (h : ∀ m, m.length < n → hash m = hash' m) (hLen_le : hLen ≤ b) (hb : b + hLen < n)
    (hk : k.length < n) (htext : b + text.length < n) : hmac hash b k text = hmac hash' b k text := by
  have hkey : blockKey hash b k = blockKey hash' b k := by simp only [blockKey, h k hk]
  have hlen (pad : Byte) : (xorPad pad (blockKey hash' b k)).length = b :=
    (List.length_map _).trans (length_blockKey hash' b hLen_le k)
  have hinner := h (xorPad 0x36 (blockKey hash' b k) ++ text)
    (by rw [List.length_append, hlen]; exact htext)
  rw [hmac, hmac, hkey, hinner]
  exact h _ (by rw [List.length_append, hlen, Vector.length_toList]; exact hb)

theorem xorPad_injective (pad : Byte) : Function.Injective (xorPad pad) :=
  List.map_injective_iff.mpr fun _ _ h => (BitVec.xor_left_inj pad).mp h

theorem blockKey_of_le {k : List Byte} (hk : k.length ≤ b) :
    blockKey hash b k = k ++ List.replicate (b - k.length) 0 := by
  simp only [blockKey, if_neg (Nat.not_lt.mpr hk)]

theorem blockKey_append_zeros {k : List Byte} {n : Nat} (hk : (k ++ List.replicate n 0).length ≤ b) :
    blockKey hash b (k ++ List.replicate n 0) = blockKey hash b k := by
  rw [blockKey_of_le hash b hk]
  rw [List.length_append, List.length_replicate] at hk ⊢
  rw [blockKey_of_le hash b (Nat.le_of_add_right_le hk), List.append_assoc,
    List.replicate_append_replicate]
  congr 3
  omega

/-- Up to one block, the key block forgets the zeros at the end of a key and nothing else. -/
theorem blockKey_eq_iff {k k' : List Byte} (hk : k.length ≤ b) (hk' : k'.length ≤ b) :
    blockKey hash b k = blockKey hash b k' ↔
      ∃ n, k' = k ++ List.replicate n 0 ∨ k = k' ++ List.replicate n 0 := by
  constructor
  · intro h
    rw [blockKey_of_le hash b hk, blockKey_of_le hash b hk'] at h
    have htake {k k' : List Byte} (h : k ++ List.replicate (b - k.length) 0 = k' ++
        List.replicate (b - k'.length) 0)
        (hle : k.length ≤ k'.length) (hk' : k'.length ≤ b) :
        k' = k ++ List.replicate (k'.length - k.length) 0 := by
      have hprefix := congrArg (List.take k'.length) h
      rw [List.take_left, List.take_append, List.take_of_length_le hle, List.take_replicate,
        Nat.min_eq_left (by omega)] at hprefix
      exact hprefix.symm
    rcases Nat.le_total k.length k'.length with hle | hle
    · exact ⟨_, .inl (htake h hle hk')⟩
    · exact ⟨_, .inr (htake h.symm hle hk)⟩
  · rintro ⟨n, rfl | rfl⟩
    · exact (blockKey_append_zeros hash b hk').symm
    · exact blockKey_append_zeros hash b hk

end Rfc2104
