import Aeslib.SecurityGcm

/-!
GHASH is an almost universal hash. The blocks determine the two strings, since the length block
tells where the additional data ends and where the ciphertext does; so the polynomials of two
different pairs differ, and a given difference of hashes occurs for at most as many subkeys as the
longer pair has blocks.
-/

namespace Aeslib

theorem storeBe64_injective {v v' : BitVec 64} (h : storeBe64 v = storeBe64 v') : v = v' := by
  rw [← ofBytesBE_storeBe64 v, h, ofBytesBE_storeBe64]

/-- A length in bits, below the wrap. -/
theorem bitLength_injective {m n : Nat} (hm : m < 2 ^ 61) (hn : n < 2 ^ 61)
    (h : BitVec.ofNat 64 m * 8 = BitVec.ofNat 64 n * 8) : m = n := by
  have htoNat := congrArg BitVec.toNat h
  rw [BitVec.toNat_mul, BitVec.toNat_mul, BitVec.toNat_ofNat, BitVec.toNat_ofNat] at htoNat
  have hm' : m % 2 ^ 64 = m := Nat.mod_eq_of_lt (by omega)
  have hn' : n % 2 ^ 64 = n := Nat.mod_eq_of_lt (by omega)
  have h8 : (8 : BitVec 64).toNat = 8 := rfl
  rw [hm', hn', h8, Nat.mod_eq_of_lt (by omega), Nat.mod_eq_of_lt (by omega)] at htoNat
  omega

theorem lengthBlock_injective {aad ciphertext aad' ciphertext' : List Byte} (ha : aad.length < 2 ^ 61)
    (hc : ciphertext.length < 2 ^ 61) (ha' : aad'.length < 2 ^ 61) (hc' : ciphertext'.length < 2 ^ 61)
    (h : lengthBlock aad ciphertext = lengthBlock aad' ciphertext') :
    aad.length = aad'.length ∧ ciphertext.length = ciphertext'.length := by
  have hlists := congrArg Vector.toList h
  rw [lengthBlock, lengthBlock, Vector.toList_append, Vector.toList_append] at hlists
  obtain ⟨hhi, hlo⟩ := List.append_inj hlists (by rw [Vector.length_toList, Vector.length_toList])
  exact ⟨bitLength_injective ha ha' (storeBe64_injective (Vector.toList_inj.mp hhi)),
    bitLength_injective hc hc' (storeBe64_injective (Vector.toList_inj.mp hlo))⟩

/-- Strings of one length are determined by their padded blocks. -/
theorem paddedBlocks_injective {s s' : List Byte} (hlen : s.length = s'.length)
    (h : paddedBlocks s = paddedBlocks s') : s = s' := by
  refine List.ext_getElem hlen fun i h1 h2 => ?_
  have hk : i / 16 < (s.length + 15) / 16 := by omega
  have hblock : paddedBlock s (i / 16) = paddedBlock s' (i / 16) := by
    rw [paddedBlocks, paddedBlocks, ← hlen] at h
    exact List.map_inj_left.mp h (i / 16) (List.mem_range.mpr hk)
  have hmod : i % 16 < 16 := Nat.mod_lt i (by decide)
  have hidx : 16 * (i / 16) + i % 16 = i := Nat.div_add_mod i 16
  have hbyte : (paddedBlock s (i / 16))[i % 16] = (paddedBlock s' (i / 16))[i % 16] := by rw [hblock]
  rw [getElem_paddedBlock s _ hmod, getElem_paddedBlock s' _ hmod, hidx] at hbyte
  rwa [List.getElem?_eq_getElem h1, List.getElem?_eq_getElem h2] at hbyte

theorem length_paddedBlocks (s : List Byte) : (paddedBlocks s).length = (s.length + 15) / 16 := by
  rw [paddedBlocks, List.length_map, List.length_range]

/-- Different pairs have different polynomials. -/
theorem poly_ghashBlocks_ne {aad ciphertext aad' ciphertext' : List Byte} (ha : aad.length < 2 ^ 61)
    (hc : ciphertext.length < 2 ^ 61) (ha' : aad'.length < 2 ^ 61) (hc' : ciphertext'.length < 2 ^ 61)
    (hne : (aad, ciphertext) ≠ (aad', ciphertext')) :
    PolyHash.poly ((ghashBlocks aad ciphertext).map toField) ≠ PolyHash.poly
      ((ghashBlocks aad' ciphertext').map toField) := by
  intro hpoly
  rw [ghashBlocks, ghashBlocks, List.map_append,
    @List.map_append _ _ _ _ [lengthBlock aad' ciphertext']] at hpoly
  obtain ⟨hbody, hlast⟩ := PolyHash.poly_concat_inj hpoly
  obtain ⟨halen, hclen⟩ := lengthBlock_injective ha hc ha' hc' (toField_injective hlast)
  have hblocks := List.map_injective_iff.mpr toField_injective (PolyHash.poly_injective (by
    simp only [List.length_map, List.length_append, length_paddedBlocks, halen, hclen]) hbody)
  obtain ⟨haad, hciphertext⟩ :=
    List.append_inj hblocks (by rw [length_paddedBlocks, length_paddedBlocks, halen])
  exact hne (Prod.ext (paddedBlocks_injective halen haad) (paddedBlocks_injective hclen hciphertext))

/-- The number of blocks of a pair, the length block left out. -/
def blockCount (aad ciphertext : List Byte) : Nat :=
  (aad.length + 15) / 16 + (ciphertext.length + 15) / 16

theorem length_ghashBlocks (aad ciphertext : List Byte) :
    (ghashBlocks aad ciphertext).length = blockCount aad ciphertext + 1 := by
  rw [ghashBlocks, List.length_append, List.length_append, length_paddedBlocks, length_paddedBlocks,
    List.length_singleton, blockCount]

/-- A difference of blocks is a difference of field elements. -/
theorem toField_xorBlocks_sub (a b : Block) : toField (xorBlocks a b) = toField a - toField b := by
  have : CharP GF128 2 := charP_of_injective_algebraMap (algebraMap (ZMod 2) GF128).injective 2
  rw [toField_xorBlocks, CharTwo.sub_eq_add]

/-- **GHASH is an almost universal hash**: two different pairs have a given difference under at most
`n + 1` subkeys, where `n` is the larger number of blocks. -/
theorem ghash_almostUniversal {aad ciphertext aad' ciphertext' : List Byte}
    (hne : (aad, ciphertext) ≠ (aad', ciphertext')) (ha : aad.length < 2 ^ 61)
    (hc : ciphertext.length < 2 ^ 61) (ha' : aad'.length < 2 ^ 61)
    (hc' : ciphertext'.length < 2 ^ 61) (d : Block) :
    {h : Block | xorBlocks (ghash h aad ciphertext) (ghash h aad' ciphertext') = d}.encard ≤
      (max (blockCount aad ciphertext) (blockCount aad' ciphertext') + 1 : ℕ) := by
  set bs := (ghashBlocks aad ciphertext).map toField with hbs
  set bs' := (ghashBlocks aad' ciphertext').map toField with hbs'
  have hlen : max bs.length bs'.length = max (blockCount aad ciphertext)
      (blockCount aad' ciphertext') + 1 := by
    rw [hbs, hbs', List.length_map, List.length_map, length_ghashBlocks, length_ghashBlocks,
      Nat.add_max_add_right]
  have himage : toField ''
      {h : Block | xorBlocks (ghash h aad ciphertext) (ghash h aad' ciphertext') = d} ⊆
      {x : GF128 | PolyHash.hash x bs - PolyHash.hash x bs' = toField d} := by
    rintro _ ⟨h, hh, rfl⟩
    have hfield := congrArg toField hh
    rw [toField_xorBlocks_sub, toField_ghash, toField_ghash] at hfield
    exact hfield
  rw [← hlen, ← toField_injective.encard_image]
  exact (Set.encard_le_encard himage).trans
    (PolyHash.encard_hash_sub_le (poly_ghashBlocks_ne ha hc ha' hc' hne) (toField d))

/-- Collisions of two pairs between which a zero byte has moved. -/
theorem ghash_almostUniversal_moved :
    {h : Block |
        xorBlocks (ghash h [0] []) (ghash h [] [0]) = Vector.replicate kBlockSizeBytes 0}.encard ≤
      (max (blockCount [0] []) (blockCount [] [0]) + 1 : ℕ) :=
  ghash_almostUniversal (by decide) (by decide) (by decide) (by decide) (by decide)
    (Vector.replicate kBlockSizeBytes 0)

end Aeslib
