import Aeslib.LibAdaptive
import Aeslib.SecurityGhash

/-!
Forging GCM messages. A forgery under a nonce that has already been used gives the hash subkey away
up to as many candidates as the longer message has blocks. So an adversary whose attempts are
answered by `decrypt` succeeds only if the subkey is among few blocks, which depend on nothing
secret; and two messages that do share a nonce are enough to forge any other one, by trying as many
tags.
-/

namespace Aeslib

open Prog

/-- A container with the additional data it is opened with. -/
structure Message where
  container : GcmContainer
  aad : List Byte

namespace Message

variable (m : Message)

/-- What GHASH runs over. -/
def strings : List Byte × List Byte := (m.aad, m.container.ciphertext)

def blocks : Nat := blockCount m.aad m.container.ciphertext

def ghash (h : Block) : Block := Aeslib.ghash h m.aad m.container.ciphertext

end Message

namespace AesGcm

/-- `decrypt` returns a plaintext. -/
def Opens (key : SecretKey) (m : Message) : Prop :=
  ∃ os w plaintext v, Ends (decrypt os key m.container m.aad) w (.ok plaintext) v

theorem opens_iff {key : SecretKey} {m : Message} : Opens key m ↔
    m.container.ciphertext.length ≤ kMaxPlaintextBytes ∧
      tagOf key m.container.nonce m.aad m.container.ciphertext = m.container.tag := by
  constructor
  · rintro ⟨os, w, plaintext, v, h⟩
    obtain ⟨hlen, htag, -⟩ := decrypt_ok h
    exact ⟨hlen, htag⟩
  · rintro ⟨hlen, htag⟩
    exact ⟨Os.plain, World.empty, _, _, decrypt_accepts Os.plain World.empty key m.container hlen htag⟩

/-- What `decrypt` throws on a message it does not open. -/
def refusal (m : Message) : Except Error (List Byte) :=
  if m.container.ciphertext.length ≤ kMaxPlaintextBytes then
    .error (.authenticationError
      "GCM authentication failed: wrong key/nonce/aad, or tampered ciphertext/tag")
  else .error (.limitError
    "plaintext exceeds the limit addressable by this GCM construction's 32-bit block counter")

theorem decrypt_refusal {os : Os} {w v : World} {key : SecretKey} {m : Message}
    {r : Except Error (List Byte)} (h : Ends (decrypt os key m.container m.aad) w r v)
    (hopens : ¬Opens key m) : r = refusal m := by
  rw [opens_iff] at hopens
  unfold refusal
  split_ifs with hlen
  · have htag := fun htag => hopens ⟨hlen, htag⟩
    exact (h.unique (decrypt_rejects os w key m.container hlen htag)).1
  · exact (h.unique (decrypt_refuses os w key m.container m.aad (by omega))).1

/-- The subkeys under which the two messages can have their tags. -/
def subkeyCandidates (m m' : Message) : Set Block :=
  {h | m.strings ≠ m'.strings ∧
    xorBlocks (m.ghash h) (m'.ghash h) = xorBlocks m.container.tag m'.container.tag}

/-- No string of so few blocks is long enough to wrap its length in bits. -/
theorem Message.lengths_lt {m : Message} {n : Nat} (hn : n ≤ 2 ^ 56) (hm : m.blocks ≤ n) :
    m.aad.length < 2 ^ 61 ∧ m.container.ciphertext.length < 2 ^ 61 := by
  unfold Message.blocks blockCount at hm
  omega

theorem encard_subkeyCandidates_le {m m' : Message} {n : Nat} (hn : n ≤ 2 ^ 56) (hm : m.blocks ≤ n)
    (hm' : m'.blocks ≤ n) : (subkeyCandidates m m').encard ≤ (n + 1 : ℕ) := by
  obtain ⟨ha, hc⟩ := Message.lengths_lt hn hm
  obtain ⟨ha', hc'⟩ := Message.lengths_lt hn hm'
  by_cases hne : m.strings = m'.strings
  · have hempty : subkeyCandidates m m' = ∅ := Set.eq_empty_of_forall_notMem fun h hh => hh.1 hne
    rw [hempty, Set.encard_empty]
    exact zero_le
  set bs := (ghashBlocks m.aad m.container.ciphertext).map toField with hbs
  set bs' := (ghashBlocks m'.aad m'.container.ciphertext).map toField with hbs'
  have hlen : max bs.length bs'.length ≤ n + 1 := by
    rw [hbs, hbs', List.length_map, List.length_map, length_ghashBlocks, length_ghashBlocks,
      Nat.add_max_add_right]
    exact Nat.add_le_add_right (max_le hm hm') 1
  have himage : toField '' subkeyCandidates m m' ⊆
      {x : GF128 | PolyHash.hash x bs - PolyHash.hash x bs' =
      toField (xorBlocks m.container.tag m'.container.tag)} := by
    rintro _ ⟨h, ⟨-, hh⟩, rfl⟩
    have hfield := congrArg toField hh
    rwa [toField_xorBlocks_sub, Message.ghash, Message.ghash, toField_ghash, toField_ghash] at hfield
  calc (subkeyCandidates m m').encard
      = (toField '' subkeyCandidates m m').encard := (toField_injective.encard_image _).symm
    _ ≤ _ := Set.encard_le_encard himage
    _ ≤ max bs.length bs'.length := PolyHash.encard_hash_sub_le (poly_ghashBlocks_ne ha hc ha' hc' hne) _
    _ ≤ (n + 1 : ℕ) := by exact_mod_cast hlen

theorem hashSubkey_mem_subkeyCandidates {key : SecretKey} {m m' : Message} (hopens : Opens key m)
    (hopens' : Opens key m') (hnonce : m.container.nonce = m'.container.nonce) (hne : m ≠ m') :
    hashSubkey key ∈ subkeyCandidates m m' := by
  obtain ⟨-, htag⟩ := opens_iff.mp hopens
  obtain ⟨-, htag'⟩ := opens_iff.mp hopens'
  rw [← hnonce] at htag'
  refine ⟨fun hstrings => hne ?_, ?_⟩
  · obtain ⟨⟨nonce, tag, ciphertext⟩, aad⟩ := m
    obtain ⟨⟨nonce', tag', ciphertext'⟩, aad'⟩ := m'
    obtain ⟨haad, hciphertext⟩ := Prod.mk.inj hstrings
    simp only at hnonce htag htag' haad hciphertext
    subst hnonce haad hciphertext
    rw [htag.symm.trans htag']
  · -- the masks of the two tags cancel
    refine toField_injective ?_
    rw [← htag, ← htag', tagOf, tagOf, toField_xorBlocks_sub, toField_xorBlocks_sub,
      toField_xorBlocks, toField_xorBlocks, add_sub_add_left_eq_sub]
    rfl

/-- The tag of another pair of strings under the nonce of `m`, if `h` is the subkey. -/
def forgedTag (h : Block) (m : Message) (aad ciphertext : List Byte) : Block :=
  xorBlocks m.container.tag (xorBlocks (m.ghash h) (Aeslib.ghash h aad ciphertext))

theorem tagOf_eq_forgedTag {key : SecretKey} {m : Message} (hopens : Opens key m)
    (aad ciphertext : List Byte) :
    tagOf key m.container.nonce aad ciphertext = forgedTag (hashSubkey key) m aad ciphertext := by
  obtain ⟨-, htag⟩ := opens_iff.mp hopens
  have : CharP GF128 2 := charP_of_injective_algebraMap (algebraMap (ZMod 2) GF128).injective 2
  refine toField_injective ?_
  rw [forgedTag, ← htag, tagOf, tagOf, Message.ghash, toField_xorBlocks, toField_xorBlocks,
    toField_xorBlocks, toField_xorBlocks]
  -- `mask + ghash = (mask + ghash m) + (ghash m + ghash)`
  rw [add_assoc, ← add_assoc (toField (Aeslib.ghash _ m.aad _)), CharTwo.add_self_eq_zero, zero_add]

/-- The ciphertext of `chosen` under the keystream that turned `plaintext` into `ciphertext`. -/
def splice (plaintext ciphertext chosen : List Byte) : List Byte :=
  chosen.zipWith (· ^^^ ·) (plaintext.zipWith (· ^^^ ·) ciphertext)

theorem length_splice {plaintext ciphertext chosen : List Byte}
    (hlen : plaintext.length = ciphertext.length) (hchosen : chosen.length ≤ ciphertext.length) :
    (splice plaintext ciphertext chosen).length = chosen.length := by
  rw [splice, List.length_zipWith, List.length_zipWith]
  omega

theorem keystreamXor_splice (key : SecretKey) (start : BitVec 32) (nonce : Vector Byte kNonceSizeBytes)
    {ciphertext chosen : List Byte} (hchosen : chosen.length ≤ ciphertext.length) :
    keystreamXor key start nonce
      (splice (keystreamXor key start nonce ciphertext) ciphertext chosen) = chosen := by
  have hlen := length_splice (length_keystreamXor key start nonce ciphertext) hchosen
  refine List.ext_getElem (by rw [length_keystreamXor, hlen]) fun i h1 h2 => ?_
  simp only [keystreamXor, splice, List.getElem_mapIdx, List.getElem_zipWith]
  rw [BitVec.xor_comm (ciphertext[i]), BitVec.xor_assoc _ (ciphertext[i]), BitVec.xor_self,
    BitVec.xor_zero, BitVec.xor_assoc, BitVec.xor_self, BitVec.xor_zero]

/-- With the right subkey, the forged message is opened. -/
theorem decrypt_forged {os : Os} {w v : World} {key : SecretKey} {m : Message}
    {plaintext chosen : List Byte} (h : Ends (decrypt os key m.container m.aad) w (.ok plaintext) v)
    (aad : List Byte) (hchosen : chosen.length ≤ m.container.ciphertext.length) (os' : Os) (w' : World) :
    ∃ v', Ends (decrypt os' key
      { nonce := m.container.nonce
        tag := forgedTag (hashSubkey key) m aad (splice plaintext m.container.ciphertext chosen)
        ciphertext := splice plaintext m.container.ciphertext chosen } aad) w' (.ok chosen) v' := by
  obtain ⟨hlen, -, hplaintext⟩ := decrypt_ok h
  have hsplice : keystreamXor key 2 m.container.nonce
      (splice plaintext m.container.ciphertext chosen) = chosen := by
    rw [hplaintext]
    exact keystreamXor_splice key 2 m.container.nonce hchosen
  have hlength : (splice plaintext m.container.ciphertext chosen).length ≤ kMaxPlaintextBytes := by
    rw [length_splice (by rw [hplaintext, length_keystreamXor]) hchosen]
    exact hchosen.trans hlen
  have htag := tagOf_eq_forgedTag ⟨os, w, plaintext, v, h⟩ aad
    (splice plaintext m.container.ciphertext chosen)
  have haccepts := decrypt_accepts os' w' key
    { nonce := m.container.nonce
      tag := forgedTag (hashSubkey key) m aad (splice plaintext m.container.ciphertext chosen)
      ciphertext := splice plaintext m.container.ciphertext chosen } hlength htag
  rw [hsplice] at haccepts
  exact ⟨_, haccepts⟩

/-- **One nonce used twice breaks a key.** From two messages under one nonce and the plaintext of
the first, a ciphertext and `n + 1` tags can be computed for any plaintext of up to that length and
any additional data, so that `decrypt` opens one of them and returns that plaintext. -/
theorem nonceReuse_forges {m m' : Message} (hnonce : m.container.nonce = m'.container.nonce)
    (hne : m ≠ m') {n : Nat} (hn : n ≤ 2 ^ 56) (hm : m.blocks ≤ n) (hm' : m'.blocks ≤ n)
    (plaintext aad : List Byte) {chosen : List Byte}
    (hchosen : chosen.length ≤ m.container.ciphertext.length) :
    ∃ (ciphertext : List Byte) (tags : Set Block), tags.encard ≤ (n + 1 : ℕ) ∧ ∀ key,
      (∃ os w v, Ends (decrypt os key m.container m.aad) w (.ok plaintext) v) → Opens key m' →
      ∃ tag ∈ tags, ∀ os w, ∃ v,
        Ends (decrypt os key { nonce := m.container.nonce, tag, ciphertext } aad) w (.ok chosen) v := by
  refine ⟨splice plaintext m.container.ciphertext chosen,
    (fun h => forgedTag h m aad (splice plaintext m.container.ciphertext chosen)) ''
      subkeyCandidates m m', ?_, ?_⟩
  · exact (Set.encard_image_le _ _).trans (encard_subkeyCandidates_le hn hm hm')
  rintro key ⟨os, w, v, hends⟩ hopens'
  have hsubkey := hashSubkey_mem_subkeyCandidates ⟨os, w, plaintext, v, hends⟩ hopens' hnonce hne
  exact ⟨_, Set.mem_image_of_mem _ hsubkey, fun os' w' => decrypt_forged hends aad hchosen os' w'⟩

/-- A message that is not `original` but has its nonce. -/
structure Forgery (known : List Message) (n : Nat) where
  message : Message
  original : Message
  mem : original ∈ known
  nonce : message.container.nonce = original.container.nonce
  fresh : message ≠ original
  blocks : message.blocks ≤ n
  original_blocks : original.blocks ≤ n

/-- An adversary at work: it chooses each forgery from the answers of `decrypt` to the earlier ones. -/
inductive Attack (os : Os) (key : SecretKey) {known : List Message} {n : Nat}
    (choose : List (Except Error (List Byte)) → Forgery known n) :
    List (Except Error (List Byte)) → World → World → Prop
  | start (w : World) : Attack os key choose [] w w
  | attempt {answers : List (Except Error (List Byte))} {w u v : World} {r : Except Error (List Byte)}
      (before : Attack os key choose answers w u)
      (step : Ends (decrypt os key (choose answers).message.container (choose answers).message.aad)
        u r v) :
      Attack os key choose (answers ++ [r]) w v

section Bound

variable {known : List Message} {n : Nat}

/-- What `decrypt` answers to a forgery. -/
noncomputable def answerOf (key : SecretKey) (x : Forgery known n) : Except Error (List Byte) :=
  open Classical in
  if Opens key x.message then
    .ok (keystreamXor key 2 x.message.container.nonce x.message.container.ciphertext)
  else refusal x.message

theorem decrypt_answerOf {os : Os} {w v : World} {key : SecretKey} {x : Forgery known n}
    {r : Except Error (List Byte)}
    (h : Ends (decrypt os key x.message.container x.message.aad) w r v) : r = answerOf key x := by
  unfold answerOf
  split_ifs with hopens
  · obtain ⟨hlen, htag⟩ := opens_iff.mp hopens
    exact (h.unique (decrypt_accepts os w key x.message.container hlen htag)).1
  · exact decrypt_refusal h hopens

theorem Attack.answers_eq {os : Os} {key : SecretKey}
    {choose : List (Except Error (List Byte)) → Forgery known n}
    {answers : List (Except Error (List Byte))} {w v : World}
    (h : Attack os key choose answers w v) :
    answers = Adaptive.answers (answerOf key) choose answers.length := by
  induction h with
  | start w => rfl
  | @attempt answers w u v r before step ih =>
      rw [decrypt_answerOf step, List.length_append, List.length_singleton, Adaptive.answers_succ,
        Adaptive.attempt, ← ih]

theorem answerOf_ok {key : SecretKey} {x : Forgery known n} {plaintext : List Byte}
    (h : answerOf key x = .ok plaintext) : Opens key x.message := by
  by_contra hopens
  rw [answerOf, if_neg hopens, refusal] at h
  split_ifs at h

/-- **Forging by trial.** Whatever an adversary does with the answers of `decrypt`, there are at
most `q (n + 1)` blocks, given by its strategy and the messages it knows, such that one of its first
`q` forgeries of up to `n` blocks is opened only under a key whose hash subkey is one of them. -/
theorem forgeries_bounded (hn : n ≤ 2 ^ 56)
    (choose : List (Except Error (List Byte)) → Forgery known n) (q : Nat) :
    ∃ subkeys : Set Block, subkeys.encard ≤ (q * (n + 1) : ℕ) ∧
      ∀ os key w v answers, (∀ m ∈ known, Opens key m) → Attack os key choose answers w v →
        answers.length ≤ q → (∃ plaintext, .ok plaintext ∈ answers) → hashSubkey key ∈ subkeys := by
  refine ⟨Adaptive.guesses (fun x => refusal x.message) choose
    (fun x => subkeyCandidates x.message x.original) q,
    Adaptive.encard_guesses_le (fun x => encard_subkeyCandidates_le hn x.blocks x.original_blocks) q, ?_⟩
  rintro os key w v answers hknown hattack hq ⟨plaintext, hmem⟩
  rw [hattack.answers_eq] at hmem
  obtain ⟨i, hi, hanswer⟩ := Adaptive.mem_answers hmem
  have hrefuse (x : Forgery known n) (hfails : ¬Opens key x.message) :
      answerOf key x = refusal x.message := by
    rw [answerOf, if_neg hfails]
  have hcandidate (x : Forgery known n) (hopens : Opens key x.message) :
      hashSubkey key ∈ subkeyCandidates x.message x.original :=
    hashSubkey_mem_subkeyCandidates hopens (hknown _ x.mem) x.nonce x.fresh
  exact Adaptive.mem_guesses hrefuse hcandidate ⟨i, by omega, answerOf_ok hanswer.symm⟩

end Bound

/-- The message of one byte and no additional data. -/
def oneByteMessage (b : Byte) : Message where
  container := gcmContainer {} (Vector.replicate kGcmNonceSizeBytes 0) [b] []
  aad := []

theorem length_ciphertext_oneByteMessage (b : Byte) :
    (oneByteMessage b).container.ciphertext.length = 1 :=
  length_keystreamXor {} 2 _ [b]

theorem oneByteMessage_ends (b : Byte) : ∃ v, Ends (decrypt Os.plain {} (oneByteMessage b).container
    (oneByteMessage b).aad) World.empty (.ok [b]) v := by
  have hlen : (oneByteMessage b).container.ciphertext.length ≤ kMaxPlaintextBytes := by
    rw [length_ciphertext_oneByteMessage]
    decide
  have haccepts := decrypt_accepts Os.plain World.empty {} (oneByteMessage b).container hlen
    (rfl : tagOf {} (oneByteMessage b).container.nonce [] (oneByteMessage b).container.ciphertext = _)
  have hplaintext :
      keystreamXor {} 2 (oneByteMessage b).container.nonce (oneByteMessage b).container.ciphertext =
        [b] :=
    keystreamXor_keystreamXor {} 2 _ [b]
  rw [hplaintext] at haccepts
  exact ⟨_, haccepts⟩

theorem oneByteMessage_opens (b : Byte) : Opens {} (oneByteMessage b) := by
  obtain ⟨v, hends⟩ := oneByteMessage_ends b
  exact ⟨_, _, _, _, hends⟩

theorem oneByteMessage_blocks (b : Byte) : (oneByteMessage b).blocks ≤ 1 := by
  have haad : (oneByteMessage b).aad.length = 0 := rfl
  rw [Message.blocks, blockCount, length_ciphertext_oneByteMessage, haad]

theorem oneByteMessage_nonce (b : Byte) :
    (oneByteMessage b).container.nonce = Vector.replicate kGcmNonceSizeBytes 0 := rfl

theorem oneByteMessage_injective {b b' : Byte} (h : oneByteMessage b = oneByteMessage b') : b = b' := by
  obtain ⟨v, hends⟩ := oneByteMessage_ends b
  obtain ⟨v', hends'⟩ := oneByteMessage_ends b'
  rw [h] at hends
  have hplaintexts := Except.ok.inj (hends.unique hends').1
  exact List.head_eq_of_cons_eq hplaintexts

/-- A third message from these two. -/
theorem nonceReuse_forges_oneByte : ∃ ciphertext tag, ∀ os w, ∃ v,
    Ends (decrypt os {} { nonce := (oneByteMessage 7).container.nonce, tag, ciphertext } [1]) w
      (.ok [9]) v := by
  have hlen : ([9] : List Byte).length ≤ (oneByteMessage 7).container.ciphertext.length := by
    rw [length_ciphertext_oneByteMessage]
    rfl
  have hne : oneByteMessage 7 ≠ oneByteMessage 8 :=
    fun h => absurd (oneByteMessage_injective h) (by decide)
  obtain ⟨v, hends⟩ := oneByteMessage_ends 7
  obtain ⟨ciphertext, tags, -, htags⟩ :=
    nonceReuse_forges ((oneByteMessage_nonce 7).trans (oneByteMessage_nonce 8).symm) hne (by decide)
    (oneByteMessage_blocks 7)
    (oneByteMessage_blocks 8) [7] [1] hlen
  obtain ⟨tag, -, hforged⟩ := htags {} ⟨_, _, v, hends⟩ (oneByteMessage_opens 8)
  exact ⟨ciphertext, tag, hforged⟩

/-- An adversary that knows the first message and happens on the second. -/
theorem forgeries_bounded_oneByte :
    ∃ subkeys : Set Block, subkeys.encard ≤ 2 ∧ hashSubkey {} ∈ subkeys := by
  let forgery : Forgery [oneByteMessage 7] 1 := {
    message := oneByteMessage 8
    original := oneByteMessage 7
    mem := List.mem_singleton_self _
    nonce := (oneByteMessage_nonce 8).trans (oneByteMessage_nonce 7).symm
    fresh := fun h => absurd (oneByteMessage_injective h) (by decide)
    blocks := oneByteMessage_blocks 8
    original_blocks := oneByteMessage_blocks 7 }
  obtain ⟨subkeys, hcard, hsubkeys⟩ := forgeries_bounded (by decide : 1 ≤ 2 ^ 56) (fun _ => forgery) 1
  obtain ⟨v, hends⟩ := oneByteMessage_ends 8
  have hattack : Attack Os.plain {} (fun _ => forgery) [.ok [8]] World.empty v :=
    .attempt (.start World.empty) hends
  refine ⟨subkeys, hcard, hsubkeys Os.plain {} World.empty v _ (fun m hm => ?_) hattack (by simp)
    ⟨_, List.mem_singleton_self _⟩⟩
  rw [List.mem_singleton.mp hm]
  exact oneByteMessage_opens 7

end AesGcm

end Aeslib
