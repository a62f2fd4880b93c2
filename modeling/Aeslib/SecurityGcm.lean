import Aeslib.Gcm
import Aeslib.LibPolyHash

/-!
Tampering with a GCM container. Under a nonzero hash subkey GHASH separates two strings of equal length
that differ inside one block, so the tag of the changed container is a different one.
-/

namespace Aeslib

open Prog

/-- `s'` has the length of `s` and differs from it, but only inside one block. -/
structure ChangesOneBlock (s s' : List Byte) : Prop where
  length : s'.length = s.length
  ne : s' ≠ s
  within : ∃ k, ∀ i, i / 16 ≠ k → s'[i]? = s[i]?

/-- A change of one byte. -/
theorem changesOneBlock_modify {s : List Byte} {i : Nat} (hi : i < s.length) {f : Byte → Byte}
    (hf : ∀ b, f b ≠ b) : ChangesOneBlock s (s.modify i f) where
  length := List.length_modify f s i
  ne := by
    intro heq
    have hbyte := congrArg (·[i]?) heq
    simp only [List.getElem?_modify_eq, List.getElem?_eq_getElem hi, Option.map_eq_map,
      Option.map_some] at hbyte
    exact hf _ (Option.some.inj hbyte)
  within := by
    refine ⟨i / 16, fun j hj => List.getElem?_modify_ne f s ?_⟩
    rintro rfl
    exact hj rfl

theorem getElem_paddedBlock (data : List Byte) (k : Nat) {i : Nat} (hi : i < 16) :
    (paddedBlock data k)[i] = data[16 * k + i]?.getD 0 := by rw [paddedBlock, Vector.getElem_ofFn]

theorem paddedBlocks_split (data : List Byte) {k m : Nat} (hn : (data.length + 15) / 16 = k + (m + 1)) :
    paddedBlocks data = (List.range k).map (paddedBlock data) ++
      paddedBlock data k :: (List.range m).map fun j => paddedBlock data (k + (j + 1)) := by
  rw [paddedBlocks, hn, List.range_add, List.map_append, List.range_succ_eq_map, List.map_cons,
    List.map_cons, List.map_map, List.map_map]
  rfl

/-- A change inside one block replaces one of the padded blocks. -/
theorem ChangesOneBlock.paddedBlocks {s s' : List Byte} (h : ChangesOneBlock s s') :
    ∃ as b b' bs, paddedBlocks s = as ++ b :: bs ∧ paddedBlocks s' = as ++ b' :: bs ∧ b ≠ b' := by
  obtain ⟨k, hwithin⟩ := h.within
  have hlength := h.length
  have hsame {i : Nat} (hi : s.length ≤ i) : s'[i]? = s[i]? := by
    rw [List.getElem?_eq_none (by omega), List.getElem?_eq_none (by omega)]
  have hother {j : Nat} (hj : j ≠ k) : paddedBlock s' j = paddedBlock s j := by
    refine Vector.ext fun i hi => ?_
    have hi16 : i < 16 := hi
    rw [getElem_paddedBlock s' j hi16, getElem_paddedBlock s j hi16, hwithin _ (by omega)]
  have hk : k < (s.length + 15) / 16 := by
    by_contra hk
    refine h.ne (List.ext_getElem? fun i => ?_)
    by_cases hi : i < s.length
    · exact hwithin i (by omega)
    · exact hsame (by omega)
  have hb : paddedBlock s k ≠ paddedBlock s' k := by
    intro heq
    refine h.ne (List.ext_getElem? fun i => ?_)
    by_cases hik : i / 16 = k
    · by_cases hi : i < s.length
      · have hmod : i % 16 < 16 := Nat.mod_lt _ (by decide)
        have hidx : 16 * k + i % 16 = i := by omega
        have hbyte : (paddedBlock s k)[i % 16] = (paddedBlock s' k)[i % 16] := by rw [heq]
        rw [getElem_paddedBlock s k hmod, getElem_paddedBlock s' k hmod, hidx,
          List.getElem?_eq_getElem hi, List.getElem?_eq_getElem (hlength ▸ hi : i < s'.length),
          Option.getD_some, Option.getD_some] at hbyte
        rw [List.getElem?_eq_getElem hi, List.getElem?_eq_getElem (hlength ▸ hi : i < s'.length), hbyte]
      · exact hsame (by omega)
    · exact hwithin i hik
  obtain ⟨m, hm⟩ : ∃ m, (s.length + 15) / 16 = k + (m + 1) := ⟨(s.length + 15) / 16 - k - 1, by omega⟩
  refine ⟨_, _, _, _, paddedBlocks_split s hm, ?_, hb⟩
  rw [paddedBlocks_split s' (hlength ▸ hm)]
  have hbefore : (List.range k).map (paddedBlock s') = (List.range k).map (paddedBlock s) :=
    List.map_congr_left fun j hj => hother (Nat.ne_of_lt (List.mem_range.mp hj))
  have hafter : ((List.range m).map fun j => paddedBlock s' (k + (j + 1))) =
      (List.range m).map fun j => paddedBlock s (k + (j + 1)) :=
    List.map_congr_left fun j _ => hother (by omega)
  rw [hbefore, hafter]

section Ghash

variable {h : Block} (hh : h ≠ Vector.replicate kBlockSizeBytes 0)

include hh in
theorem toField_ne_zero : toField h ≠ 0 := by
  rw [← toField_zero]
  exact fun heq => hh (toField_injective heq)

include hh in
theorem ghash_ne_of_blocks {aad ciphertext aad' ciphertext' : List Byte} (as bs : List Block)
    {b b' : Block} (hblocks : ghashBlocks aad ciphertext = as ++ b :: bs)
    (hblocks' : ghashBlocks aad' ciphertext' = as ++ b' :: bs) (hb : b ≠ b') :
    ghash h aad ciphertext ≠ ghash h aad' ciphertext' := by
  intro heq
  have hfield := congrArg toField heq
  rw [toField_ghash, toField_ghash, hblocks, hblocks', List.map_append, List.map_append, List.map_cons,
    List.map_cons] at hfield
  exact PolyHash.hash_ne_hash (toField_ne_zero hh) (fun heq => hb (toField_injective heq)) _ _ hfield

include hh in
theorem ghash_ne_of_ciphertext (aad : List Byte) {ciphertext ciphertext' : List Byte}
    (hchange : ChangesOneBlock ciphertext ciphertext') :
    ghash h aad ciphertext ≠ ghash h aad ciphertext' := by
  obtain ⟨as, b, b', bs, hs, hs', hb⟩ := hchange.paddedBlocks
  refine ghash_ne_of_blocks hh (Aeslib.paddedBlocks aad ++ as)
    (bs ++ [lengthBlock aad ciphertext]) ?_ ?_ hb
  · rw [ghashBlocks, hs, List.append_assoc, List.append_assoc, List.append_assoc, List.cons_append]
  · rw [ghashBlocks, hs', lengthBlock, hchange.length, ← lengthBlock, List.append_assoc,
      List.append_assoc, List.append_assoc, List.cons_append]

include hh in
theorem ghash_ne_of_aad {aad aad' : List Byte} (ciphertext : List Byte)
    (hchange : ChangesOneBlock aad aad') : ghash h aad ciphertext ≠ ghash h aad' ciphertext := by
  obtain ⟨as, b, b', bs, hs, hs', hb⟩ := hchange.paddedBlocks
  refine ghash_ne_of_blocks hh as
    (bs ++ (Aeslib.paddedBlocks ciphertext ++ [lengthBlock aad ciphertext])) ?_ ?_ hb
  · rw [ghashBlocks, hs, List.append_assoc, List.append_assoc, List.cons_append]
  · rw [ghashBlocks, hs', lengthBlock, hchange.length, ← lengthBlock, List.append_assoc,
      List.append_assoc, List.cons_append]

end Ghash

namespace AesGcm

theorem tagOf_ne {key : SecretKey} (nonce : Vector Byte kGcmNonceSizeBytes)
    {aad ciphertext aad' ciphertext' : List Byte}
    (hne : ghash (hashSubkey key) aad ciphertext ≠ ghash (hashSubkey key) aad' ciphertext') :
    tagOf key nonce aad' ciphertext' ≠ tagOf key nonce aad ciphertext := by
  intro heq
  have hfield := congrArg toField heq
  rw [tagOf, tagOf, toField_xorBlocks, toField_xorBlocks] at hfield
  exact hne (toField_injective (add_left_cancel hfield).symm)

section Encrypted

variable (key : SecretKey) (nonce : Vector Byte kGcmNonceSizeBytes) (plaintext aad : List Byte)

theorem tagOf_gcmContainer : tagOf key nonce aad (gcmContainer key nonce plaintext aad).ciphertext =
    (gcmContainer key nonce plaintext aad).tag := rfl

theorem ciphertext_gcmContainer :
    (gcmContainer key nonce plaintext aad).ciphertext = keystreamXor key 2 nonce plaintext := rfl

end Encrypted

/-- What an accepted container tells: its tag is the right one, and the result is its ciphertext with the
keystream added. -/
theorem decrypt_ok {os : Os} {w w' : World} {key : SecretKey} {container : GcmContainer}
    {aad plaintext : List Byte} (h : Ends (decrypt os key container aad) w (.ok plaintext) w') :
    container.ciphertext.length ≤ kMaxPlaintextBytes ∧
      tagOf key container.nonce aad container.ciphertext = container.tag ∧
      plaintext = keystreamXor key 2 container.nonce container.ciphertext := by
  by_cases hlen : container.ciphertext.length ≤ kMaxPlaintextBytes
  · by_cases htag : tagOf key container.nonce aad container.ciphertext = container.tag
    · exact ⟨hlen, htag, Except.ok.inj (h.unique (decrypt_accepts os w key container hlen htag)).1⟩
    · exact absurd (h.unique (decrypt_rejects os w key container hlen htag)).1 (by simp)
  · exact absurd (h.unique (decrypt_refuses os w key container aad (by omega))).1 (by simp)

/-- A decryption that fails the check encrypts the two blocks of the tag and nothing else. -/
theorem decrypt_authenticationError {os : Os} {w w' : World} {key : SecretKey} {container : GcmContainer}
    {aad : List Byte} {what : String}
    (h : Ends (decrypt os key container aad) w (.error (.authenticationError what)) w') :
    w' = w.ciphered (tagInputs container.nonce) := by
  by_cases hlen : container.ciphertext.length ≤ kMaxPlaintextBytes
  · by_cases htag : tagOf key container.nonce aad container.ciphertext = container.tag
    · exact absurd (h.unique (decrypt_accepts os w key container hlen htag)).1 (by simp)
    · exact (h.unique (decrypt_rejects os w key container hlen htag)).2
  · exact absurd (h.unique (decrypt_refuses os w key container aad (by omega))).1 (by simp)

/-- A change of the tag, or of one block of the ciphertext or of the additional data, of an accepted
container is rejected, and a rejected container leaves no keystream block behind. -/
theorem decrypt_tampered {os : Os} {w w₁ : World} {key : SecretKey} {container : GcmContainer}
    {aad plaintext : List Byte} (hsubkey : hashSubkey key ≠ Vector.replicate kBlockSizeBytes 0)
    (haccepted : Ends (decrypt os key container aad) w (.ok plaintext) w₁) (os' : Os) (w' : World) :
    (∀ tag ≠ container.tag, ∃ what t,
      Ends (decrypt os' key { container with tag } aad) w' (.error (.authenticationError what)) t) ∧
    (∀ ciphertext, ChangesOneBlock container.ciphertext ciphertext → ∃ what t,
      Ends (decrypt os' key { container with ciphertext } aad) w'
        (.error (.authenticationError what)) t) ∧
    (∀ aad', ChangesOneBlock aad aad' → ∃ what t,
      Ends (decrypt os' key container aad') w' (.error (.authenticationError what)) t) ∧
    (∀ container' aad' what t,
      Ends (decrypt os' key container' aad') w' (.error (.authenticationError what)) t →
        t = w'.ciphered (tagInputs container'.nonce)) ∧
    (∀ container' aad' plaintext' t, Ends (decrypt os' key container' aad') w' (.ok plaintext') t →
      plaintext' = keystreamXor key 2 container'.nonce container'.ciphertext) := by
  obtain ⟨hlen, htag, -⟩ := decrypt_ok haccepted
  refine ⟨fun tag hne => ?_, fun ciphertext hchange => ?_, fun aad' hchange => ?_,
    fun _ _ _ _ h => decrypt_authenticationError h, fun _ _ _ _ h => (decrypt_ok h).2.2⟩
  · exact ⟨_, _, decrypt_rejects os' w' key { container with tag } hlen
      (fun heq => hne (heq.symm.trans htag))⟩
  · have hne := tagOf_ne container.nonce (ghash_ne_of_ciphertext hsubkey aad hchange)
    exact ⟨_, _, decrypt_rejects os' w' key { container with ciphertext }
      (hchange.length ▸ hlen) (fun heq => hne (heq.trans htag.symm))⟩
  · have hne := tagOf_ne container.nonce (ghash_ne_of_aad hsubkey container.ciphertext hchange)
    exact ⟨_, _, decrypt_rejects os' w' key container hlen (fun heq => hne (heq.trans htag.symm))⟩

/-- A container with two blocks of ciphertext and two of additional data: any other tag, a changed
byte in the last block of the ciphertext, and two changed bytes in the first block of the additional
data. -/
theorem decrypt_tampered_twoBlocks :
    let key : SecretKey := { size := .aes128 }
    let aad : List Byte := List.replicate 20 1
    let container := gcmContainer key (Vector.replicate kGcmNonceSizeBytes 0) (List.replicate 20 0) aad
    (∀ tag ≠ container.tag, ∃ what t,
      Ends (decrypt Os.plain key { container with tag } aad) World.empty
      (.error (.authenticationError what)) t) ∧
    (∃ what t, Ends (decrypt Os.plain key
      { container with ciphertext := container.ciphertext.modify 17 (· + 1) } aad)
      World.empty (.error (.authenticationError what)) t) ∧
    (∃ what t, Ends (decrypt Os.plain key container ((aad.set 3 0).set 7 2)) World.empty
      (.error (.authenticationError what)) t) ∧
    ∃ t, Ends (decrypt Os.plain key container aad) World.empty (.ok (List.replicate 20 0)) t := by
  intro key aad container
  have hsubkey : hashSubkey key ≠ Vector.replicate kBlockSizeBytes 0 := by decide +kernel
  have htag : tagOf key container.nonce aad container.ciphertext = container.tag :=
    tagOf_gcmContainer key _ _ aad
  have hstream : container.ciphertext = keystreamXor key 2 container.nonce (List.replicate 20 0) :=
    ciphertext_gcmContainer key _ _ aad
  have hlength : container.ciphertext.length = 20 := by
    rw [hstream, length_keystreamXor, List.length_replicate]
  have haccepted := decrypt_accepts Os.plain World.empty key container (by rw [hlength]; decide) htag
  have hciphertext : ChangesOneBlock container.ciphertext (container.ciphertext.modify 17 (· + 1)) :=
    changesOneBlock_modify (by rw [hlength]; decide) fun b => by bv_omega
  have haad : ChangesOneBlock aad ((aad.set 3 0).set 7 2) := by
    refine ⟨by rw [List.length_set, List.length_set], by decide, 0, fun i hi => ?_⟩
    rw [List.getElem?_set_ne (by omega), List.getElem?_set_ne (by omega)]
  obtain ⟨hother, hchanged, hdata, -, -⟩ := decrypt_tampered hsubkey haccepted Os.plain World.empty
  have hplaintext : keystreamXor key 2 container.nonce container.ciphertext = List.replicate 20 0 := by
    rw [hstream, keystreamXor_keystreamXor]
  rw [hplaintext] at haccepted
  exact ⟨hother, hchanged _ hciphertext, hdata _ haad, _, haccepted⟩

end AesGcm

end Aeslib
