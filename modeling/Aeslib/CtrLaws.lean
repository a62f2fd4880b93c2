import Aeslib.Gcm

/-!
Laws of the two modes. The keystream transform of CTR is the addition of the encrypted counter
blocks, byte by byte, so it is its own inverse. Within one call no block is encrypted twice: the
limits of the two modes keep the 32-bit counter away from every value that was used before.
-/

namespace Aeslib

open Bytes Prog

namespace Aes256Ctr

/-- What `apply_keystream` of CTR computes. -/
abbrev transform (key : SecretKey) (nonce : Vector Byte kNonceSizeBytes) (input : List Byte) :
    List Byte :=
  keystreamXor key 0 nonce input

section Transform

variable (key : SecretKey) (nonce : Vector Byte kNonceSizeBytes)

theorem getElem_transform (input : List Byte) {i : Nat} (hi : i < input.length)
    (hout : i < (transform key nonce input).length) : (transform key nonce input)[i] =
      input[i] ^^^ (blockCipher key (nonce ++ toBytesBE 4 (BitVec.ofNat 32 (i / 16))))[i % 16]! := by
  simp only [keystreamXor, List.getElem_mapIdx, makeCounterBlock]
  rw [zero_add]

theorem transform_take (input : List Byte) (n : Nat) :
    transform key nonce (input.take n) = (transform key nonce input).take n := by
  refine List.ext_getElem (by simp) fun i h1 h2 => ?_
  simp only [keystreamXor, List.getElem_mapIdx, List.getElem_take]

theorem transform_xor {input mask : List Byte} :
    transform key nonce (input.zipWith (· ^^^ ·) mask) =
    (transform key nonce input).zipWith (· ^^^ ·) mask := by
  refine List.ext_getElem (by simp) fun i h1 h2 => ?_
  have hmask : i < mask.length := (lt_min_iff.mp (List.length_zipWith ▸ h2)).2
  simp only [keystreamXor, List.getElem_mapIdx, List.getElem_zipWith]
  rw [BitVec.xor_assoc, BitVec.xor_assoc, BitVec.xor_comm mask[i]]

end Transform

theorem encrypt_refuses (os : Os) (w : World) (key : SecretKey) {plaintext : List Byte}
    (hlen : kMaxPlaintextBytes < plaintext.length) :
    Ends (encrypt os key plaintext) w (.error (.limitError
      "plaintext exceeds the 64 GiB limit addressable by this CTR construction's 32-bit block counter")) w :=
  (ends_raiseIf_pos hlen).bind_error _

theorem decrypt_refuses (os : Os) (w : World) (key : SecretKey) {container : Container}
    (hlen : kMaxPlaintextBytes < container.ciphertext.length) :
    Ends (decrypt os key container) w (.error (.limitError
      "plaintext exceeds the 64 GiB limit addressable by this CTR construction's 32-bit block counter")) w :=
  (ends_raiseIf_pos hlen).bind_error _

/-- The law of the transform, byte by byte, and what follows from it: it is its own inverse, it commutes
with prefixes, and it carries flipped bits over. -/
theorem keystream_law (key : SecretKey) (nonce : Vector Byte kNonceSizeBytes) :
    (∀ input : List Byte, input.length ≤ 2 ^ 36 → ∃ output, ∃ hlength : output.length = input.length,
      (∀ (os : Os) (w : World), ∃ w', Ends (applyKeystream os key nonce input) w (.ok output) w') ∧
      (∀ (i : Nat) (hi : i < input.length), output[i] =
        input[i] ^^^ (blockCipher key (nonce ++ toBytesBE 4 (BitVec.ofNat 32 (i / 16))))[i % 16]!) ∧
      (∀ (os : Os) (w : World), ∃ w', Ends (applyKeystream os key nonce output) w (.ok input) w') ∧
      (∀ (n : Nat) (os : Os) (w : World),
        ∃ w', Ends (applyKeystream os key nonce (input.take n)) w (.ok (output.take n)) w') ∧
      ∀ mask : List Byte, mask.length = input.length → ∀ (os : Os) (w : World), ∃ w',
        Ends (applyKeystream os key nonce (input.zipWith (· ^^^ ·) mask)) w
          (.ok (output.zipWith (· ^^^ ·) mask)) w') ∧
    ∀ input : List Byte, 2 ^ 36 < input.length → ∀ (os : Os) (w : World),
      (∃ what, Ends (encrypt os key input) w (.error (.limitError what)) w) ∧
      ∃ what, Ends (decrypt os key { nonce, ciphertext := input }) w (.error (.limitError what)) w := by
  have hends (input : List Byte) (os : Os) (w : World) :
      ∃ w', Ends (applyKeystream os key nonce input) w (.ok (transform key nonce input)) w' :=
    ⟨_, applyKeystreamFrom_ends key 0 nonce input os w⟩
  refine ⟨fun input _ => ⟨transform key nonce input, length_keystreamXor key 0 nonce input, hends input,
    fun i hi => getElem_transform key nonce input hi _, fun os w => ?_, fun n os w => ?_,
    fun mask _ os w => ?_⟩,
    fun input hlen os w => ⟨⟨_, encrypt_refuses os w key hlen⟩, ⟨_, decrypt_refuses os w key hlen⟩⟩⟩
  · have hinverse : transform key nonce (transform key nonce input) = input :=
      keystreamXor_keystreamXor key 0 nonce input
    have hback := hends (transform key nonce input) os w
    rwa [hinverse] at hback
  · rw [← transform_take]
    exact hends (input.take n) os w
  · rw [← transform_xor]
    exact hends (input.zipWith (· ^^^ ·) mask) os w

end Aes256Ctr

section Distinct

variable (nonce : Vector Byte kNonceSizeBytes)

theorem makeCounterBlock_injective : Function.Injective (makeCounterBlock nonce) := by
  intro a b h
  have hlow : toBytesBE 4 a = toBytesBE 4 b := by
    have hlist := congrArg Vector.toList h
    rw [makeCounterBlock, makeCounterBlock, Vector.toList_append, Vector.toList_append] at hlist
    exact Vector.toList_inj.mp (List.append_cancel_left hlist)
  have hreg := congrArg (ofBytesBE 32) hlow
  rwa [ofBytesBE_toBytesBE a rfl, ofBytesBE_toBytesBE b rfl] at hreg

/-- Up to `2^32` counters from `start` on are distinct. -/
theorem counterBlocks_nodup (start : BitVec 32) {length : Nat} (hlen : length ≤ 2 ^ 32 * 16) :
    (counterBlocks start nonce length).Nodup := by
  refine List.Nodup.map_on (fun i hi j hj hij => ?_) List.nodup_range
  rw [List.mem_range] at hi hj
  have hcounter := makeCounterBlock_injective nonce hij
  have hoffset : BitVec.ofNat 32 i = BitVec.ofNat 32 j := by simpa using hcounter
  have htoNat := congrArg BitVec.toNat hoffset
  rw [BitVec.toNat_ofNat, BitVec.toNat_ofNat, Nat.mod_eq_of_lt (by omega),
    Nat.mod_eq_of_lt (by omega)] at htoNat
  exact htoNat

theorem counter_toNat (start : BitVec 32) {k : Nat} (h : start.toNat + k < 2 ^ 32) :
    (start + BitVec.ofNat 32 k).toNat = start.toNat + k := by
  rw [BitVec.toNat_add, BitVec.toNat_ofNat, Nat.mod_eq_of_lt (show k < 2 ^ 32 by omega),
    Nat.mod_eq_of_lt h]

/-- Block `k` has the counter `start + k`, without wrapping around. -/
theorem counterBlocks_counter (start : BitVec 32) {length k : Nat} (hk : k < (length + 15) / 16)
    (h : start.toNat + k < 2 ^ 32) : ∃ counter, (counterBlocks start nonce length)[k]? =
      some (makeCounterBlock nonce counter) ∧ counter.toNat = start.toNat + k := by
  refine ⟨start + BitVec.ofNat 32 k, ?_, counter_toNat start h⟩
  rw [counterBlocks, List.getElem?_map, List.getElem?_range hk]
  rfl

/-- The two blocks of the tag are no keystream blocks, and differ. -/
theorem tagInputs_counterBlocks_nodup {length : Nat} (hlen : length ≤ AesGcm.kMaxPlaintextBytes) :
    (AesGcm.tagInputs nonce ++ counterBlocks 2 nonce length).Nodup := by
  simp only [AesGcm.kMaxPlaintextBytes, AesGcm.kMaxBlocks, kBlockSizeBytes] at hlen
  have hzero (counter : BitVec 32)
      (h : Vector.replicate kBlockSizeBytes 0 = makeCounterBlock nonce counter) :
      counter = 0 := by
    have hlow : Vector.replicate 4 0 = toBytesBE 4 counter := by
      have hlist := congrArg (fun b : Block => b.toList.drop 12) h
      simp only [makeCounterBlock, Vector.toList_append, Vector.toList_replicate] at hlist
      rw [List.drop_left' Vector.length_toList] at hlist
      exact Vector.toList_inj.mp (Vector.toList_replicate.trans hlist)
    have hreg := congrArg (ofBytesBE 32) hlow
    rw [ofBytesBE_toBytesBE counter rfl] at hreg
    rw [← hreg]
    decide +kernel
  have hcounter {k : Nat} (hk : k < (length + 15) / 16) :
      (2 + BitVec.ofNat 32 k : BitVec 32).toNat = 2 + k :=
    counter_toNat 2 (show 2 + k < 2 ^ 32 by omega)
  refine List.nodup_append.mpr ⟨?_, counterBlocks_nodup nonce 2 (by omega), ?_⟩
  · rw [AesGcm.tagInputs, List.nodup_cons]
    refine ⟨fun hmem => ?_, List.nodup_singleton _⟩
    exact absurd (hzero 1 (List.mem_singleton.mp hmem)) (by decide)
  · rintro a ha b hb rfl
    obtain ⟨k, hk, hblock⟩ := List.mem_map.mp hb
    have htoNat := hcounter (List.mem_range.mp hk)
    rw [AesGcm.tagInputs, List.mem_cons, List.mem_singleton] at ha
    rcases ha with rfl | rfl
    · rw [hzero _ hblock.symm] at htoNat
      simp at htoNat
      omega
    · rw [makeCounterBlock_injective nonce hblock] at htoNat
      simp at htoNat
      omega

end Distinct

/-- What a run adds to the trace is the encryption of pairwise distinct blocks. -/
def DistinctInputs (w w' : World) : Prop :=
  ∃ blocks : List Block, w'.trace = w.trace ++ blocks.map .cipher ∧ blocks.Nodup

theorem DistinctInputs.refl (w : World) : DistinctInputs w w := ⟨[], by simp, List.nodup_nil⟩

/-- A draw of the nonce before the encryptions adds nothing. -/
theorem DistinctInputs.of_trace {w w₁ w' : World} (htrace : w₁.trace = w.trace)
    (h : DistinctInputs w₁ w') : DistinctInputs w w' := by
  obtain ⟨blocks, hblocks, hnodup⟩ := h
  exact ⟨blocks, htrace ▸ hblocks, hnodup⟩

theorem distinctInputs_ciphered (w : World) {blocks : List Block} (h : blocks.Nodup) :
    DistinctInputs w (w.ciphered blocks) := ⟨blocks, rfl, h⟩

section Calls

variable {os : Os} {key : SecretKey} {w w' : World}

theorem Aes256Ctr.encrypt_distinct {plaintext : List Byte} {r : Except Error Container}
    (h : Ends (Aes256Ctr.encrypt os key plaintext) w r w') : DistinctInputs w w' := by
  by_cases hlen : plaintext.length ≤ Aes256Ctr.kMaxPlaintextBytes
  · have hrest := h
    rw [Aes256Ctr.encrypt, (Aes256Ctr.validateBlockCount_ends hlen w).bind_iff] at hrest
    rcases ends_bind.mp hrest with ⟨nonce, w₁, hnonce, -⟩ | ⟨_, -, hnonce⟩
    · obtain ⟨-, rfl⟩ := h.unique (Aes256Ctr.encrypt_ends key hlen hnonce)
      exact (distinctInputs_ciphered w₁ (counterBlocks_nodup nonce 0 hlen)).of_trace
        (fillRandom_trace hnonce)
    · exact (DistinctInputs.refl w').of_trace (fillRandom_trace hnonce)
  · obtain ⟨-, rfl⟩ := h.unique (Aes256Ctr.encrypt_refuses os w key (by omega))
    exact DistinctInputs.refl w'

theorem Aes256Ctr.decrypt_distinct {container : Container} {r : Except Error (List Byte)}
    (h : Ends (Aes256Ctr.decrypt os key container) w r w') : DistinctInputs w w' := by
  by_cases hlen : container.ciphertext.length ≤ Aes256Ctr.kMaxPlaintextBytes
  · obtain ⟨-, rfl⟩ := h.unique (Aes256Ctr.decrypt_ends container hlen os w key)
    exact distinctInputs_ciphered w (counterBlocks_nodup container.nonce 0 hlen)
  · obtain ⟨-, rfl⟩ := h.unique (Aes256Ctr.decrypt_refuses os w key (by omega))
    exact DistinctInputs.refl w'

theorem AesGcm.encrypt_distinct {plaintext aad : List Byte} {r : Except Error GcmContainer}
    {key' : SecretKey} (h : Ends (AesGcm.encrypt os plaintext aad) (w, key) r (w', key')) :
    DistinctInputs w w' := by
  cases AesGcm.encrypt_cases os w key h with
  | refused _ => exact DistinctInputs.refl _
  | limited _ _ => exact DistinctInputs.refl _
  | undrawn _ _ hnonce => exact (DistinctInputs.refl _).of_trace (fillRandom_trace hnonce)
  | @returned nonce w₁ hlen hcount hnonce =>
      rw [World.ciphered_ciphered]
      have hnodup := List.nodup_append_comm.mp (tagInputs_counterBlocks_nodup nonce hlen)
      exact (distinctInputs_ciphered w₁ hnodup).of_trace (fillRandom_trace hnonce)

theorem AesGcm.decrypt_distinct {container : GcmContainer} {aad : List Byte}
    {r : Except Error (List Byte)} (h : Ends (AesGcm.decrypt os key container aad) w r w') :
    DistinctInputs w w' := by
  by_cases hlen : container.ciphertext.length ≤ AesGcm.kMaxPlaintextBytes
  · have hnodup := tagInputs_counterBlocks_nodup container.nonce hlen
    by_cases htag : AesGcm.tagOf key container.nonce aad container.ciphertext = container.tag
    · obtain ⟨-, rfl⟩ := h.unique (AesGcm.decrypt_accepts os w key container hlen htag)
      rw [World.ciphered_ciphered]
      exact distinctInputs_ciphered w hnodup
    · obtain ⟨-, rfl⟩ := h.unique (AesGcm.decrypt_rejects os w key container hlen htag)
      exact distinctInputs_ciphered w hnodup.of_append_left
  · obtain ⟨-, rfl⟩ := h.unique (AesGcm.decrypt_refuses os w key container aad (by omega))
    exact DistinctInputs.refl w'

end Calls

/-- No call of either mode encrypts a block twice, and within the limits of the modes the counter of the
keystream does not wrap around. -/
theorem cipher_inputs_distinct (os : Os) (key : SecretKey) (w : World) :
    (∀ plaintext r w', Ends (Aes256Ctr.encrypt os key plaintext) w r w' → DistinctInputs w w') ∧
    (∀ container r w', Ends (Aes256Ctr.decrypt os key container) w r w' → DistinctInputs w w') ∧
    (∀ plaintext aad r w' key', Ends (AesGcm.encrypt os plaintext aad) (w, key) r (w', key') →
      DistinctInputs w w') ∧
    (∀ container aad r w', Ends (AesGcm.decrypt os key container aad) w r w' → DistinctInputs w w') ∧
    (∀ nonce, ∀ length ≤ Aes256Ctr.kMaxPlaintextBytes, ∀ k < (length + 15) / 16, ∃ counter,
      (counterBlocks 0 nonce length)[k]? = some (makeCounterBlock nonce counter) ∧ counter.toNat = k) ∧
    ∀ nonce, ∀ length ≤ AesGcm.kMaxPlaintextBytes, ∀ k < (length + 15) / 16, ∃ counter,
      (counterBlocks 2 nonce length)[k]? = some (makeCounterBlock nonce counter) ∧
        counter.toNat = 2 + k := by
  refine ⟨fun _ _ _ h => Aes256Ctr.encrypt_distinct h, fun _ _ _ h => Aes256Ctr.decrypt_distinct h,
    fun _ _ _ _ _ h => AesGcm.encrypt_distinct h, fun _ _ _ _ h => AesGcm.decrypt_distinct h,
    fun nonce length hlen k hk => ?_, fun nonce length hlen k hk => ?_⟩
  · change length ≤ 2 ^ 32 * 16 at hlen
    have hcounter := counterBlocks_counter nonce 0 hk (show 0 + k < 2 ^ 32 by omega)
    rwa [show (0 : BitVec 32).toNat = 0 from rfl, Nat.zero_add] at hcounter
  · change length ≤ (2 ^ 32 - 2) * 16 at hlen
    exact counterBlocks_counter nonce 2 hk (show 2 + k < 2 ^ 32 by omega)

end Aeslib
