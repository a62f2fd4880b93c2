import Aeslib.BridgeRfc2104
import Aeslib.KeyStorageRoundTrip
import Aeslib.LibProgParts

/-!
Passphrases and the inputs of the hash. The reader of a wrapped key file is written over what it
does for a system call and for one HMAC, so that the reader of `src/key_storage.cpp` and the one
that notes every input of the hash are two cases of it. Two passphrases lead to the same inputs
exactly when HMAC prepares one key block from both.
-/

namespace Aeslib

open Bytes Prog

/-- How the reader does a system call, and how it evaluates HMAC. -/
structure Steps (σ : Type) where
  call : {α : Type} → Prog World Error α → Prog σ Error α
  hmac : List Byte → List Byte → Prog σ Error (Vector Byte 32)

section Over

variable {σ : Type} (steps : Steps σ)

def pbkdf2BodyOver (passphrase : List Byte) (iterations : BitVec 32) (s : Pbkdf2State) :
    Prog σ Error (Pbkdf2State ⊕ Vector Byte 32) :=
  if s.i ≤ iterations then do
    steps.call (record .prf)
    let u ← steps.hmac passphrase s.u.toList
    pure (.inl { i := s.i + 1, u, tBlock := Vector.zipWith (· ^^^ ·) s.tBlock u })
  else pure (.inr s.tBlock)

def pbkdf2BlockOver (passphrase salt : List Byte) (iterations blockIdx : BitVec 32) :
    Prog σ Error (Vector Byte 32) := do
  let uInputBuf := salt ++ [byteLE blockIdx 3, byteLE blockIdx 2, byteLE blockIdx 1, byteLE blockIdx 0]
  steps.call (record .prf)
  let u ← steps.hmac passphrase uInputBuf
  loop (pbkdf2BodyOver steps passphrase iterations) { i := 2, u, tBlock := u }

def pbkdf2HmacSha256Over (passphrase salt : List Byte) (iterations : BitVec 32) :
    Prog σ Error (Vector Byte 64) := do
  steps.call (record (.pbkdf2 iterations))
  let t1 ← pbkdf2BlockOver steps passphrase salt iterations 1
  let t2 ← pbkdf2BlockOver steps passphrase salt iterations 2
  pure (t1 ++ t2)

def unwrapKeyOver (os : Os) (passphrase fileData : List Byte) (fields : WrappedKeyFields) :
    Prog σ Error SecretKey := do
  let keyLen := fields.sizeMarker.toNat
  let derived ← pbkdf2HmacSha256Over steps passphrase fields.salt.toList fields.iterations
  let part ← steps.call (ofExcept (readBytes fileData 0 (kWrappedKeyOffset + keyLen)))
  let computedTag ← steps.hmac (macKeyOf derived).toList part.toList
  steps.call do
    raiseIf (constantTimeEqual computedTag fields.storedTag = false) (.authenticationError
      "encrypted key file authentication failed: wrong passphrase or corrupted file")
    let wrappedContainer : Container := { nonce := fields.nonce, ciphertext := fields.wrappedCiphertext }
    let decryptedBytes ← Aes256Ctr.decrypt os (wrapKeyOf derived) wrappedContainer
    raiseIf (decryptedBytes.length ≠ keyLen)
      (.formatError "encrypted key file: decrypted key has wrong size")
    let result : SecretKey := { size := .ofMarker fields.sizeMarker }
    pure { result with bytes := copyToStorage result.bytes decryptedBytes }

def loadFromFileEncryptedOver (os : Os) (path : String) (passphrase : List Byte) :
    Prog σ Error SecretKey := do
  let fileData ← steps.call (readFile os path)
  let sizeMarker ← steps.call (ofExcept (checkWrappedKeyHeader fileData))
  let fields ← steps.call (ofExcept (readWrappedKeyFields fileData sizeMarker))
  unwrapKeyOver steps os passphrase fileData fields

end Over

/-- The steps of the reader of the source. -/
def Steps.plain : Steps World where
  call p := p
  hmac key data := pure (hmacSha256 key data)

theorem call_plain {α : Type} (p : Prog World Error α) : Steps.plain.call p = p := (rfl)

theorem hmac_plain_bind {α : Type} (key data : List Byte) (f : Vector Byte 32 → Prog World Error α) :
    (Steps.plain.hmac key data >>= f) = f (hmacSha256 key data) := (rfl)

theorem pbkdf2BlockOver_plain : pbkdf2BlockOver Steps.plain = pbkdf2Block := by
  have hbody : pbkdf2BodyOver Steps.plain = pbkdf2Body := by
    funext passphrase iterations s
    simp only [pbkdf2BodyOver, pbkdf2Body, call_plain, hmac_plain_bind]
  funext passphrase salt iterations blockIdx
  simp only [pbkdf2BlockOver, pbkdf2Block, call_plain, hmac_plain_bind, hbody]

theorem unwrapKeyOver_plain : unwrapKeyOver Steps.plain = unwrapKey := by
  have hderive : pbkdf2HmacSha256Over Steps.plain = pbkdf2HmacSha256 := by
    funext passphrase salt iterations
    simp only [pbkdf2HmacSha256Over, pbkdf2HmacSha256, call_plain, pbkdf2BlockOver_plain]
  funext os passphrase fileData fields
  simp only [unwrapKeyOver, unwrapKey, call_plain, hmac_plain_bind, hderive]

theorem loadFromFileEncryptedOver_plain :
    loadFromFileEncryptedOver Steps.plain = SecretKey.loadFromFileEncrypted := by
  funext os path passphrase
  simp only [loadFromFileEncryptedOver, SecretKey.loadFromFileEncrypted, call_plain, unwrapKeyOver_plain]

section Maps

variable {σ τ : Type} {g : σ → τ} {steps : Steps σ} {steps' : Steps τ}

/-- Steps that are images of the steps give an image of the reader. -/
theorem loadFromFileEncryptedOver_maps
    (hcall : ∀ {α : Type} (p : Prog World Error α), Maps g (steps.call p) (steps'.call p))
    (hhmac : ∀ key data, Maps g (steps.hmac key data) (steps'.hmac key data)) (os : Os) (path : String)
    (passphrase : List Byte) :
    Maps g (loadFromFileEncryptedOver steps os path passphrase)
      (loadFromFileEncryptedOver steps' os path passphrase) := by
  have hbody (iterations : BitVec 32) (s : Pbkdf2State) :
      Maps g (pbkdf2BodyOver steps passphrase iterations s)
        (pbkdf2BodyOver steps' passphrase iterations s) := by
    unfold pbkdf2BodyOver
    split_ifs
    · exact (hcall _).bind fun _ => (hhmac _ _).bind fun u => Maps.pure _
    · exact Maps.pure _
  have hblock (salt : List Byte) (iterations blockIdx : BitVec 32) :
      Maps g (pbkdf2BlockOver steps passphrase salt iterations blockIdx)
        (pbkdf2BlockOver steps' passphrase salt iterations blockIdx) :=
    (hcall _).bind fun _ => (hhmac _ _).bind fun u => Maps.loop (hbody iterations) _
  have hderive (salt : List Byte) (iterations : BitVec 32) :
      Maps g (pbkdf2HmacSha256Over steps passphrase salt iterations)
        (pbkdf2HmacSha256Over steps' passphrase salt iterations) :=
    (hcall _).bind fun _ => (hblock _ _ _).bind fun t1 => (hblock _ _ _).bind fun t2 => Maps.pure _
  have hunwrap (fileData : List Byte) (fields : WrappedKeyFields) :
      Maps g (unwrapKeyOver steps os passphrase fileData fields)
        (unwrapKeyOver steps' os passphrase fileData fields) :=
    (hderive _ _).bind fun derived => (hcall _).bind fun part => (hhmac _ _).bind fun tag => hcall _
  exact (hcall _).bind fun fileData => (hcall _).bind fun _ => (hcall _).bind fun fields =>
    hunwrap fileData fields

end Maps

section Preserves

variable {σ : Type} {inv : σ → Prop} {steps : Steps σ} {passphrase : List Byte}
  (hcall : ∀ {α : Type} (p : Prog World Error α), Preserves inv (steps.call p))
  (hpassphrase : ∀ data, Preserves inv (steps.hmac passphrase data))

include hcall hpassphrase

theorem pbkdf2Loop_preserves (iterations : BitVec 32) (s : Pbkdf2State) :
    Preserves inv (loop (pbkdf2BodyOver steps passphrase iterations) s) := by
  refine Preserves.loop (fun s => ?_) s
  unfold pbkdf2BodyOver
  split_ifs
  · exact (hcall _).bind fun _ => (hpassphrase _).bind fun _ => Preserves.pure _
  · exact Preserves.pure _

theorem pbkdf2BlockOver_preserves (salt : List Byte) (iterations blockIdx : BitVec 32) :
    Preserves inv (pbkdf2BlockOver steps passphrase salt iterations blockIdx) :=
  (hcall _).bind fun _ => (hpassphrase _).bind fun _ =>
    pbkdf2Loop_preserves hcall hpassphrase iterations _

variable (hmac : ∀ (macKey : Vector Byte 32) (data : List Byte),
  Preserves inv (steps.hmac macKey.toList data))

include hmac

theorem loadFromFileEncryptedOver_preserves (os : Os) (path : String) :
    Preserves inv (loadFromFileEncryptedOver steps os path passphrase) := by
  have hderive (salt : List Byte) (iterations : BitVec 32) :
      Preserves inv (pbkdf2HmacSha256Over steps passphrase salt iterations) :=
    (hcall _).bind fun _ => (pbkdf2BlockOver_preserves hcall hpassphrase _ _ _).bind fun _ =>
      (pbkdf2BlockOver_preserves hcall hpassphrase _ _ _).bind fun _ => Preserves.pure _
  have hunwrap (fileData : List Byte) (fields : WrappedKeyFields) :
      Preserves inv (unwrapKeyOver steps os passphrase fileData fields) :=
    (hderive _ _).bind fun _ => (hcall _).bind fun _ => (hmac _ _).bind fun _ => hcall _
  exact (hcall _).bind fun _ => (hcall _).bind fun _ => (hcall _).bind fun _ => hunwrap _ _

end Preserves

/-- A passphrase matters by what HMAC does with it. -/
theorem loadFromFileEncryptedOver_congr {σ : Type} {steps : Steps σ} {p p' : List Byte}
    (h : steps.hmac p = steps.hmac p') (os : Os) (path : String) :
    loadFromFileEncryptedOver steps os path p = loadFromFileEncryptedOver steps os path p' := by
  have hbody : pbkdf2BodyOver steps p = pbkdf2BodyOver steps p' := by
    unfold pbkdf2BodyOver
    rw [h]
  have hblock : pbkdf2BlockOver steps p = pbkdf2BlockOver steps p' := by
    unfold pbkdf2BlockOver
    rw [h, hbody]
  have hunwrap : unwrapKeyOver steps os p = unwrapKeyOver steps os p' := by
    unfold unwrapKeyOver pbkdf2HmacSha256Over
    rw [hblock]
  unfold loadFromFileEncryptedOver
  rw [hunwrap]

/-- What one HMAC hashes: a key that is longer than a block, the inner data and the outer data. -/
structure HmacInputs where
  keyHash : Option (List Byte)
  inner : List Byte
  outer : List Byte

def hmacInputs (key data : List Byte) : HmacInputs :=
  let inner := (hmacInnerData (hmacPad 0x36 (hmacKey key)) data).map fun cell => cell.getD 0
  { keyHash := if key.length > kHmacBlockSize then some key else none
    inner
    outer := (hmacPad 0x5c (hmacKey key)).toList ++ (sha256 inner).toList }

/-- The HMAC is the hash of these inputs and of nothing else. -/
theorem hmacSha256_hmacInputs (key data : List Byte) :
    hmacSha256 key data = sha256 (hmacInputs key data).outer ∧
      (hmacInputs key data).outer = (hmacPad 0x5c (hmacKey key)).toList ++
        (sha256 (hmacInputs key data).inner).toList ∧
      hmacKey key = ((hmacInputs key data).keyHash.map fun k => (sha256 k).toList).getD key := by
  refine ⟨rfl, rfl, ?_⟩
  unfold hmacKey hmacInputs
  split_ifs
  · rfl
  · rfl

/-- The reader's steps with a note of the inputs of each HMAC. -/
def Steps.noting {ι : Type} (note : List Byte → List Byte → ι) : Steps (World × List ι) where
  call p := lift p
  hmac key data := op fun s => (.ok (hmacSha256 key data), (s.1, s.2 ++ [note key data]))

/-- `load_from_file_encrypted` with the inputs of the hash on record. -/
abbrev loadFromFileEncryptedNoting (os : Os) (path : String) (passphrase : List Byte) :
    Prog (World × List HmacInputs) Error SecretKey :=
  loadFromFileEncryptedOver (Steps.noting hmacInputs) os path passphrase

section Noting

variable {ι κ : Type} (note : List Byte → List Byte → ι) (os : Os) (path : String)
  (passphrase : List Byte)

/-- The notes have no influence on the reader. -/
theorem loadNoting_maps_fst :
    Maps Prod.fst (loadFromFileEncryptedOver (Steps.noting note) os path passphrase)
    (SecretKey.loadFromFileEncrypted os path passphrase) := by
  rw [← loadFromFileEncryptedOver_plain]
  exact loadFromFileEncryptedOver_maps (fun p => Maps.lift p) (fun key data => Maps.op fun _ => rfl)
    os path passphrase

theorem loadNoting_maps_notes (f : ι → κ) : Maps (Prod.map id (List.map f))
    (loadFromFileEncryptedOver (Steps.noting note) os path passphrase)
    (loadFromFileEncryptedOver (Steps.noting fun key data => f (note key data)) os path passphrase) := by
  refine loadFromFileEncryptedOver_maps (fun p => Maps.lift_map _ p)
    (fun key data => Maps.op fun s => ?_) os path passphrase
  simp only [Prod.map_fst, Prod.map_snd, Prod.map_apply, List.map_append, List.map_cons,
    List.map_nil, id_eq]

end Noting

section First

variable {ι : Type} {note : List Byte → List Byte → ι}

theorem noting_call_bind_iff {α β : Type} {p : Prog World Error β}
    {f : β → Prog (World × List ι) Error α} {w w' : World} {b : β} {notes : List ι}
    {r : Except Error α} {t : World × List ι} (hp : Ends p w (.ok b) w') :
    Ends ((Steps.noting note).call p >>= f) (w, notes) r t ↔ Ends (f b) (w', notes) r t :=
  (hp.lift notes).bind_iff

theorem noting_hmac_bind_iff {α : Type} {key data : List Byte}
    {f : Vector Byte 32 → Prog (World × List ι) Error α} {w : World} {notes : List ι}
    {r : Except Error α} {t : World × List ι} :
    Ends ((Steps.noting note).hmac key data >>= f) (w, notes) r t ↔
      Ends (f (hmacSha256 key data)) (w, notes ++ [note key data]) r t := (op_ends _ _).bind_iff

theorem noting_call_preserves {α : Type} (first : ι) (p : Prog World Error α) :
    Preserves (fun s => [first] <+: s.2) ((Steps.noting note).call p) := Preserves.lift ([first] <+: ·) p

theorem noting_hmac_preserves (first : ι) (key data : List Byte) :
    Preserves (fun s => [first] <+: s.2) ((Steps.noting note).hmac key data) :=
  Preserves.op fun s hs => hs.trans (List.prefix_append s.2 _)

/-- What follows the first HMAC keeps its note. -/
theorem firstNote_bind {α β : Type} {first : ι} {q : Prog (World × List ι) Error β}
    {f : β → Prog (World × List ι) Error α} (hq : ∀ w r t, Ends q (w, []) r t → [first] <+: t.2)
    (hf : ∀ b, Preserves (fun s => [first] <+: s.2) (f b)) (w : World) (r : Except Error α)
    (t : World × List ι) (h : Ends (q >>= f) (w, []) r t) : [first] <+: t.2 := by
  rcases ends_bind.mp h with ⟨b, u, hb, hrest⟩ | ⟨e, -, hq'⟩
  · exact hf b (hq w _ u hb) hrest
  · exact hq w _ t hq'

variable (note) (passphrase : List Byte)

theorem pbkdf2BlockOver_first (salt : List Byte) (iterations : BitVec 32) (w : World)
    (r : Except Error (Vector Byte 32)) (t : World × List ι)
    (h : Ends (pbkdf2BlockOver (Steps.noting note) passphrase salt iterations 1) (w, []) r t) :
    [note passphrase (salt ++ [0, 0, 0, 1])] <+: t.2 := by
  rw [pbkdf2BlockOver, noting_call_bind_iff (record_ends .prf w), noting_hmac_bind_iff] at h
  exact pbkdf2Loop_preserves (noting_call_preserves _) (noting_hmac_preserves _ passphrase) _ _
    (List.prefix_refl _) h

theorem unwrapKeyOver_first (os : Os) (fileData : List Byte) (fields : WrappedKeyFields) (w : World)
    (r : Except Error SecretKey) (t : World × List ι)
    (h : Ends (unwrapKeyOver (Steps.noting note) os passphrase fileData fields) (w, []) r t) :
    [note passphrase (fields.salt.toList ++ [0, 0, 0, 1])] <+: t.2 := by
  have hblocks := firstNote_bind
    (pbkdf2BlockOver_first note passphrase fields.salt.toList fields.iterations)
    (f := fun t1 => pbkdf2BlockOver (Steps.noting note) passphrase fields.salt.toList
      fields.iterations 2 >>= fun t2 =>
      pure (t1 ++ t2))
    fun _ => (pbkdf2BlockOver_preserves (noting_call_preserves _)
      (noting_hmac_preserves _ passphrase) _ _ _).bind
      fun _ => Preserves.pure _
  have hderive : ∀ w r t,
      Ends (pbkdf2HmacSha256Over (Steps.noting note) passphrase fields.salt.toList fields.iterations)
      (w, []) r t → [note passphrase (fields.salt.toList ++ [0, 0, 0, 1])] <+: t.2 := by
    intro w r t h
    rw [pbkdf2HmacSha256Over, noting_call_bind_iff (record_ends (.pbkdf2 _) w)] at h
    exact hblocks _ r t h
  exact firstNote_bind hderive (fun _ => (noting_call_preserves _ _).bind fun _ =>
    (noting_hmac_preserves _ _ _).bind fun _ => noting_call_preserves _ _) w r t h

/-- The first input of the passphrase is the salt with the index of the first block. -/
theorem loadNoting_first {os : Os} {path : String} {v v₁ t : World} {fileData : List Byte}
    {r : Except Error SecretKey} {notes : List ι}
    (hread : Ends (readFile os path) v (.ok fileData) v₁) (hformat : WrappedKeyFormat fileData)
    (hload : Ends (loadFromFileEncryptedOver (Steps.noting note) os path passphrase) (v, []) r
      (t, notes)) :
    notes[0]? = some (note passphrase ((fieldsOf fileData).salt.toList ++ [0, 0, 0, 1])) := by
  have hcheck : Ends (ofExcept (checkWrappedKeyHeader fileData)) v₁ (.ok fileData[5]!) v₁ :=
    (ends_ofExcept _ v₁ v₁ _).mpr ⟨(checkWrappedKeyHeader_format hformat).symm, rfl⟩
  have hfields : Ends (ofExcept (readWrappedKeyFields fileData fileData[5]!)) v₁
      (.ok (fieldsOf fileData)) v₁ :=
    (ends_ofExcept _ v₁ v₁ _).mpr ⟨(readWrappedKeyFields_format hformat).symm, rfl⟩
  rw [loadFromFileEncryptedOver, noting_call_bind_iff hread, noting_call_bind_iff hcheck,
    noting_call_bind_iff hfields] at hload
  obtain ⟨rest, hrest : _ ++ rest = notes⟩ :=
    unwrapKeyOver_first note passphrase os fileData (fieldsOf fileData) v₁ r _ hload
  rw [← hrest]
  rfl

end First

/-- The two HMACs hash some different input in the same place. -/
def HmacInputs.Differ (a a' : HmacInputs) : Prop :=
  (∃ k ∈ a.keyHash, ∃ k' ∈ a'.keyHash, k ≠ k') ∨ a.inner ≠ a'.inner ∨ a.outer ≠ a'.outer

/-- HMAC prepares one key block from both, and not as the digests of both. -/
def PreparedAlike (p p' : List Byte) : Prop :=
  p = p' ∨ Rfc2104.blockKey sha256 kHmacBlockSize p = Rfc2104.blockKey sha256 kHmacBlockSize p' ∧
    (p.length ≤ kHmacBlockSize ∨ p'.length ≤ kHmacBlockSize)

theorem hmacInputs_inner (key data : List Byte) :
    (hmacInputs key data).inner =
      Rfc2104.xorPad 0x36 (Rfc2104.blockKey sha256 kHmacBlockSize key) ++ data := by
  change (hmacInnerData _ _).map _ = _
  rw [hmacInnerData_eq, toList_hmacPad, List.map_map]
  exact List.map_id _

theorem hmacInputs_outer (key data : List Byte) :
    (hmacInputs key data).outer = Rfc2104.xorPad 0x5c (Rfc2104.blockKey sha256 kHmacBlockSize key) ++
      (sha256 (Rfc2104.xorPad 0x36 (Rfc2104.blockKey sha256 kHmacBlockSize key) ++ data)).toList := by
  rw [← hmacInputs_inner, ← toList_hmacPad]
  rfl

/-- One evaluation with each passphrase, on the same data. -/
theorem differ_of_not_preparedAlike {p p' : List Byte} (h : ¬PreparedAlike p p') (data : List Byte) :
    (hmacInputs p data).Differ (hmacInputs p' data) := by
  rw [PreparedAlike, not_or, not_and_or, not_or, not_le, not_le] at h
  obtain ⟨hne, hblock | ⟨hp, hp'⟩⟩ := h
  · refine .inr (.inl fun heq => hblock ?_)
    rw [hmacInputs_inner, hmacInputs_inner] at heq
    exact Rfc2104.xorPad_injective 0x36 (List.append_cancel_right heq)
  · exact .inl ⟨p, if_pos hp, p', if_pos hp', hne⟩

theorem hmacSha256_of_preparedAlike {p p' : List Byte} (h : PreparedAlike p p') :
    hmacSha256 p = hmacSha256 p' := by
  rcases h with rfl | ⟨hblock, _⟩
  · rfl
  · funext data
    rw [hmacSha256_eq, Rfc2104.hmac, Rfc2104.hmac, hblock]

/-- The reader does the same for both. -/
theorem loadFromFileEncrypted_of_preparedAlike {p p' : List Byte} (h : PreparedAlike p p') (os : Os)
    (path : String) :
    SecretKey.loadFromFileEncrypted os path p' = SecretKey.loadFromFileEncrypted os path p := by
  rw [← loadFromFileEncryptedOver_plain]
  refine loadFromFileEncryptedOver_congr (funext fun data => ?_) os path
  exact congrArg (fun hmac => (pure (hmac data) : Prog World Error _))
    (hmacSha256_of_preparedAlike h).symm

section Alike

variable {p p' : List Byte} {os : Os} {path : String} {v t t' : World} {r r' : Except Error SecretKey}
  {notes notes' : List HmacInputs}
  (hload : Ends (loadFromFileEncryptedNoting os path p) (v, []) r (t, notes))
  (hload' : Ends (loadFromFileEncryptedNoting os path p') (v, []) r' (t', notes'))

include hload

/-- A short passphrase is never hashed as a key. -/
theorem keyHash_of_short (hp : p.length ≤ kHmacBlockSize) {a : HmacInputs} (ha : a ∈ notes) :
    a.keyHash = none := by
  have hkeeps : Preserves (fun s => ∀ a ∈ s.2, a.keyHash = none)
      (loadFromFileEncryptedNoting os path p) := by
    refine loadFromFileEncryptedOver_preserves
      (fun q => Preserves.lift (fun notes : List HmacInputs => ∀ a ∈ notes, a.keyHash = none) q)
      (fun data => Preserves.op fun s hs => ?_) (fun macKey data => Preserves.op fun s hs => ?_) os path
    · rw [List.forall_mem_append]
      exact ⟨hs, by simp [hmacInputs, hp]⟩
    · rw [List.forall_mem_append]
      exact ⟨hs, by simp [hmacInputs, kHmacBlockSize]⟩
  exact hkeeps (by simp) hload a ha

include hload'

/-- The inner and the outer data are those of the other passphrase. -/
theorem notes_of_preparedAlike (h : PreparedAlike p p') :
    notes.map (fun a => (a.inner, a.outer)) = notes'.map fun a => (a.inner, a.outer) := by
  have hblock :
      Rfc2104.blockKey sha256 kHmacBlockSize p = Rfc2104.blockKey sha256 kHmacBlockSize p' := by
    rcases h with rfl | ⟨hblock, _⟩
    · rfl
    · exact hblock
  have hnote (data : List Byte) : ((hmacInputs p data).inner, (hmacInputs p data).outer) =
      ((hmacInputs p' data).inner, (hmacInputs p' data).outer) := by
    rw [hmacInputs_inner, hmacInputs_inner, hmacInputs_outer, hmacInputs_outer, hblock]
  have hsteps :
      (Steps.noting fun key data => ((hmacInputs key data).inner, (hmacInputs key data).outer)).hmac p =
      (Steps.noting fun key data => ((hmacInputs key data).inner, (hmacInputs key data).outer)).hmac p' := by
    funext data
    simp only [Steps.noting, hnote, hmacSha256_of_preparedAlike h]
  have hmapped := (loadNoting_maps_notes hmacInputs os path p fun a => (a.inner, a.outer)).ends.mpr
    ⟨_, hload, rfl⟩
  have hmapped' :=
    (loadNoting_maps_notes hmacInputs os path p' fun a => (a.inner, a.outer)).ends.mpr ⟨_, hload', rfl⟩
  rw [loadFromFileEncryptedOver_congr hsteps] at hmapped
  exact congrArg Prod.snd (hmapped.unique hmapped').2

theorem not_differ_of_preparedAlike (h : PreparedAlike p p') {i : Nat} {a a' : HmacInputs}
    (ha : notes[i]? = some a) (ha' : notes'[i]? = some a') : ¬a.Differ a' := by
  have hpair := congrArg (·[i]?) (notes_of_preparedAlike hload hload' h)
  simp only [List.getElem?_map, ha, ha', Option.map_some, Option.some.injEq, Prod.mk.injEq] at hpair
  rintro (⟨k, hk, k', hk', hne⟩ | hinner | houter)
  · rcases h with rfl | ⟨_, hp | hp'⟩
    · obtain rfl : notes = notes' := congrArg Prod.snd (hload.unique hload').2
      obtain rfl := Option.some.inj (ha.symm.trans ha')
      exact hne (Option.some.inj (hk.symm.trans hk'))
    · rw [keyHash_of_short hload hp (List.mem_of_getElem? ha)] at hk
      exact absurd hk (by simp)
    · rw [keyHash_of_short hload' hp' (List.mem_of_getElem? ha')] at hk'
      exact absurd hk' (by simp)
  · exact hinner hpair.1
  · exact houter hpair.2

end Alike

/-- Every load that gets to the contents of a file saved with `p` hashes, with `p'` in the place of
`p`, some different input. -/
def PassphraseSeparated (p p' : List Byte) : Prop :=
  ∀ (key : SecretKey) (iterations : BitVec 32), iterations ≤ kMaxPbkdf2Iterations →
    ∀ (os : Os) (w w₁ : World) (path : String),
      Ends (SecretKey.saveToFileEncrypted os key path p iterations) w (.ok ()) w₁ →
    ∀ (os' : Os) (v v₁ : World) (path' : String) (fileData : List Byte), v.files path' = w₁.files path →
      Ends (readFile os' path') v (.ok fileData) v₁ →
    ∀ (r r' : Except Error SecretKey) (t t' : World) (notes notes' : List HmacInputs),
      Ends (loadFromFileEncryptedNoting os' path' p) (v, []) r (t, notes) →
      Ends (loadFromFileEncryptedNoting os' path' p') (v, []) r' (t', notes') →
        ∃ (i : Nat) (a a' : HmacInputs), notes[i]? = some a ∧ notes'[i]? = some a' ∧ a.Differ a'

theorem passphraseSeparated {p p' : List Byte} (h : ¬PreparedAlike p p') : PassphraseSeparated p p' := by
  intro key iterations hmax os w w₁ path hsave os' v v₁ path' fileData hv hread r r' t t' notes
    notes' hload hload'
  obtain ⟨hmin, -, salt, nonce, -, -, hfile⟩ :=
    saveToFileEncrypted_stores os key path p iterations trivial hsave
  obtain ⟨data, hdata, heq⟩ := (readFile_result hread).2.resolve_left (by simp)
  obtain rfl := Except.ok.inj heq
  obtain rfl := Option.some.inj ((hdata.symm.trans hv).trans hfile)
  have hformat := (wrappedKeyFormat_iff key p iterations salt nonce).mpr ⟨hmin, hmax⟩
  exact ⟨0, _, _, loadNoting_first hmacInputs p hread hformat hload,
    loadNoting_first hmacInputs p' hread hformat hload', differ_of_not_preparedAlike h _⟩

theorem not_passphraseSeparated {p p' : List Byte} (h : PreparedAlike p p') :
    ¬PassphraseSeparated p p' := by
  intro hseparated
  obtain ⟨w₁, hsave⟩ :=
    saveToFileEncrypted_serves {} "key" p 1000 Os.plain_serves World.empty (by decide) (by decide)
  obtain ⟨-, -, salt, nonce, -, -, hfile⟩ :=
    saveToFileEncrypted_stores Os.plain {} "key" p 1000 trivial hsave
  obtain ⟨v₁, hread, -⟩ := readFile_serves Os.plain_serves hfile
  have hformat := (wrappedKeyFormat_iff {} p 1000 salt nonce).mpr ⟨by decide, by decide⟩
  have hopens := loadFromFileEncrypted_unwraps hread p hformat
    (unwrapKey_accepts hformat Os.plain v₁ (tagMatches_wrappedKeyFile hformat))
  have hopens' := hopens
  rw [← loadFromFileEncrypted_of_preparedAlike h] at hopens'
  obtain ⟨⟨t, notes⟩, hload, -⟩ :=
    (loadNoting_maps_fst hmacInputs Os.plain "key" p).ends (s := (w₁, [])) |>.mp hopens
  obtain ⟨⟨t', notes'⟩, hload', -⟩ :=
    (loadNoting_maps_fst hmacInputs Os.plain "key" p').ends (s := (w₁, [])) |>.mp hopens'
  obtain ⟨i, a, a', ha, ha', hdiffer⟩ :=
    hseparated {} 1000 (by decide) Os.plain World.empty w₁ "key" hsave Os.plain w₁ v₁
    "key" _ rfl hread _ _ t t' notes notes' hload hload'
  exact not_differ_of_preparedAlike hload hload' h ha ha' hdiffer

/-- **Two passphrases are told apart by the inputs of the hash** unless HMAC prepares one key from
both, and then the reader does the same for both. -/
theorem passphraseSeparated_iff (p p' : List Byte) :
    (PassphraseSeparated p p' ↔ ¬PreparedAlike p p') ∧
      (PreparedAlike p p' → ∀ os path,
        SecretKey.loadFromFileEncrypted os path p' = SecretKey.loadFromFileEncrypted os path p) :=
  ⟨⟨fun h halike => not_passphraseSeparated halike h, passphraseSeparated⟩,
    loadFromFileEncrypted_of_preparedAlike⟩

/-- A zero byte at the end is lost. -/
theorem not_passphraseSeparated_zeroByte : ¬∀ p p' : List Byte, p' ≠ p → PassphraseSeparated p p' :=
  fun h =>
  not_passphraseSeparated (.inr ⟨by decide, .inl (by decide)⟩) (h [] [0] (by decide))

/-- Up to one block, the passphrases that HMAC prepares alike are those that differ in zeros at the
end. -/
theorem preparedAlike_short {p p' : List Byte} (hp : p.length ≤ kHmacBlockSize)
    (hp' : p'.length ≤ kHmacBlockSize) :
    PreparedAlike p p' ↔ ∃ n, p' = p ++ List.replicate n 0 ∨ p = p' ++ List.replicate n 0 := by
  rw [PreparedAlike, Rfc2104.blockKey_eq_iff sha256 kHmacBlockSize hp hp', and_iff_left (.inl hp)]
  refine or_iff_right_of_imp fun heq => ⟨0, .inl ?_⟩
  rw [heq, List.replicate_zero, List.append_nil]

end Aeslib
