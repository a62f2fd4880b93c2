import Aeslib.LibBytes
import Aeslib.LibGalois

/-!
FIPS 197, the forward cipher. The state is the 4 × 4 array `s r c` with input byte `r + 4 c` in row
`r`, column `c`; bytes are multiplied and inverted in `GF(2^8)`. The key schedule is given by its
recurrence, word by word.
-/

namespace Fips197

/-- Four bytes `a_0, ..., a_3`. -/
abbrev Word := Fin 4 → Byte

/-- `s r c`: the byte in row `r` and column `c`. -/
abbrev State := Fin 4 → Fin 4 → Byte

/-- The affine map of section 5.1.1: `b_i ⊕ b_(i+4) ⊕ b_(i+5) ⊕ b_(i+6) ⊕ b_(i+7) ⊕ c_i`, indices
modulo 8, with `c = 63`. -/
def affine (b : Byte) : Byte := BitVec.ofFnLE fun i =>
  b.getLsbD i ^^ b.getLsbD ((i + 4) % 8) ^^ b.getLsbD ((i + 5) % 8) ^^ b.getLsbD ((i + 6) % 8) ^^
    b.getLsbD ((i + 7) % 8) ^^ (0x63 : Byte).getLsbD i

/-- The inverse in `GF(2^8)`, with `0` sent to itself, then the affine map. -/
noncomputable def sbox (b : Byte) : Byte := affine (GF256.ofByte.symm (GF256.ofByte b)⁻¹)

noncomputable def subBytes (s : State) : State := fun r c => sbox (s r c)

/-- Row `r` is rotated left by `r`. -/
def shiftRows (s : State) : State := fun r c => s r (c + r)

/-- The element `{02}` of `GF(2^8)`. -/
noncomputable abbrev x : GF256 := AdjoinRoot.root gf256Modulus

/-- The circulant of `{02} {03} {01} {01}`, section 5.1.3. -/
noncomputable def mixMatrix : Matrix (Fin 4) (Fin 4) GF256 :=
  !![x, x + 1, 1, 1; 1, x, x + 1, 1; 1, 1, x, x + 1; x + 1, 1, 1, x]

noncomputable def mixColumns (s : State) : State := fun r c =>
  GF256.ofByte.symm (mixMatrix.mulVec (fun k => GF256.ofByte (s k c)) r)

/-- Column `c` takes word `4 * round + c` of the schedule. -/
def addRoundKey (w : ℕ → Word) (round : ℕ) (s : State) : State := fun r c =>
  s r c ^^^ w (4 * round + c) r

noncomputable def subWord (w : Word) : Word := fun r => sbox (w r)

def rotWord (w : Word) : Word := fun r => w (r + 1)

def xorWord (a b : Word) : Word := fun r => a r ^^^ b r

/-- `[x^(j-1), {00}, {00}, {00}]`. -/
noncomputable def rcon (j : ℕ) : Word := fun r => if r = 0 then GF256.ofByte.symm (x ^ (j - 1)) else 0

/-- `temp` of `KeyExpansion` for word `i`, made from word `i - 1`. -/
noncomputable def scheduleTemp (nk i : ℕ) (prev : Word) : Word :=
  if i % nk = 0 then xorWord (subWord (rotWord prev)) (rcon (i / nk))
  else if nk > 6 ∧ i % nk = 4 then subWord prev
  else prev

/-- `KeyExpansion`: word `i` of the schedule of the `nk`-word key whose byte `j` is `key j`. -/
noncomputable def keyExpansion (nk : ℕ) (key : ℕ → Byte) (i : ℕ) : Word :=
  if _h : i < nk ∨ nk = 0 then fun r => key (4 * i + r)
  else xorWord (keyExpansion nk key (i - nk)) (scheduleTemp nk i (keyExpansion nk key (i - 1)))
termination_by i
decreasing_by all_goals omega

/-- The rounds with `MixColumns`. -/
noncomputable def middleRounds (w : ℕ → Word) : ℕ → State → State
  | 0, s => s
  | n + 1, s => addRoundKey w (n + 1) (mixColumns (shiftRows (subBytes (middleRounds w n s))))

/-- `Cipher()` with `nr` rounds under the schedule `w`. -/
noncomputable def cipher (nr : ℕ) (w : ℕ → Word) (input : State) : State :=
  addRoundKey w nr (shiftRows (subBytes (middleRounds w (nr - 1) (addRoundKey w 0 input))))

/-- The input bytes `in_0, ..., in_15` as a state. -/
def ofBytes (input : Vector Byte 16) : State := fun r c => input[r.val + 4 * c.val]

/-- The state as output bytes. -/
def toBytes (s : State) : Vector Byte 16 :=
  Vector.ofFn fun i => s ⟨i.val % 4, by omega⟩ ⟨i.val / 4, by omega⟩

/-- The cipher of section 5 on bytes: `nk` key words, `nr` rounds. -/
noncomputable def encrypt (nk nr : ℕ) (key : ℕ → Byte) (input : Vector Byte 16) : Vector Byte 16 :=
  toBytes (cipher nr (keyExpansion nk key) (ofBytes input))

theorem ofBytes_apply (v : Vector Byte 16) (r c : Fin 4) : ofBytes v r c = v[r.val + 4 * c.val] := rfl

theorem toBytes_ofBytes (v : Vector Byte 16) : toBytes (ofBytes v) = v := by
  ext i hi : 1
  simp only [toBytes, ofBytes, Vector.getElem_ofFn]
  congr 1
  omega

theorem keyExpansion_lt {nk i : ℕ} (key : ℕ → Byte) (h : i < nk) :
    keyExpansion nk key i = fun r : Fin 4 => key (4 * i + r) := by
  rw [keyExpansion, dif_pos (Or.inl h)]

theorem keyExpansion_ge {nk i : ℕ} (key : ℕ → Byte) (h0 : 0 < nk) (h : nk ≤ i) :
    keyExpansion nk key i =
      xorWord (keyExpansion nk key (i - nk)) (scheduleTemp nk i (keyExpansion nk key (i - 1))) := by
  rw [keyExpansion, dif_neg (by omega)]

end Fips197
