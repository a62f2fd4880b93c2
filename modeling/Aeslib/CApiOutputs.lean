import Aeslib.CApiExceptions

/-!
The outputs of a C call. A call that returns an error has written through none of the caller's
pointers and has left no handle and no buffer behind, and a call that returns `AESLIB_OK` has set
all of them, with one exception: both encryptions store the nonce (and the tag) before the output
buffer is allocated.
-/

namespace Aeslib.CApi

open Prog

/-- Every out-parameter is as before, and no handle or buffer is new. -/
structure Untouched (s t : CState) : Prop where
  memory : t.memory = s.memory
  handles : t.handles.length = s.handles.length
  buffers : t.buffers = s.buffers

/-- `*out` and `*out_len` refer to a new buffer with the bytes. -/
def Memory.setOutput (m : Memory) (out buffer outLen : Nat) (bytes : List Byte) : Memory :=
  (m.setBuffer out buffer).setLength outLen bytes.length

/-- From `s` to `t` every out-parameter of the call is set to the result of its library call. -/
def Call.Sets (env : Env) (s t : CState) : Call → Prop
  | keyGenerate keySizeBits outKey => ∃ out key w, outKey = some out ∧
      Ends (SecretKey.generate env.os (if keySizeBits = 128 then .aes128 else .aes256)) s.world
        (.ok key) w ∧
      t.memory = s.memory.setKey out s.handles.length ∧ t.handles = s.handles ++ [key] ∧
      t.buffers = s.buffers
  | keySaveToFile _ _ => Untouched s t
  | keyLoadFromFile path outKey => ∃ path' out key w, path = some path' ∧ outKey = some out ∧
      Ends (SecretKey.loadFromFile env.os path') s.world (.ok key) w ∧
      t.memory = s.memory.setKey out s.handles.length ∧ t.handles = s.handles ++ [key] ∧
      t.buffers = s.buffers
  | ctrEncrypt key plaintext outNonce outCiphertext outCiphertextLen =>
    ∃ handle data nonce out len container w, key = some handle ∧ plaintext.data? = some data ∧
      outNonce = some nonce ∧ outCiphertext = some out ∧ outCiphertextLen = some len ∧
      Ends (Aes256Ctr.encrypt env.os (s.key handle) data) s.world (.ok container) w ∧
      t.memory = (s.memory.setNonce nonce container.nonce).setOutput out s.buffers.length len
        container.ciphertext ∧
      t.handles = s.handles ∧ t.buffers = s.buffers ++ [newBuffer container.ciphertext]
  | ctrDecrypt key nonce ciphertext outPlaintext outPlaintextLen =>
    ∃ handle nonce' data out len plaintext w, key = some handle ∧ nonce = some nonce' ∧
      ciphertext.data? = some data ∧ outPlaintext = some out ∧ outPlaintextLen = some len ∧
      Ends (Aes256Ctr.decrypt env.os (s.key handle) { nonce := nonce', ciphertext := data }) s.world
        (.ok plaintext) w ∧
      t.memory = s.memory.setOutput out s.buffers.length len plaintext ∧ t.handles = s.handles ∧
      t.buffers = s.buffers ++ [newBuffer plaintext]
  | gcmEncrypt key plaintext aad outNonce outTag outCiphertext outCiphertextLen =>
    ∃ handle data aadData nonce tag out len container w key', key = some handle ∧
      plaintext.data? = some data ∧ aad.data? = some aadData ∧ outNonce = some nonce ∧
      outTag = some tag ∧ outCiphertext = some out ∧ outCiphertextLen = some len ∧
      Ends (AesGcm.encrypt env.os data aadData) (s.world, s.key handle) (.ok container) (w, key') ∧
      t.memory = ((s.memory.setNonce nonce container.nonce).setTag tag container.tag).setOutput out
        s.buffers.length len container.ciphertext ∧
      t.handles = s.handles.set handle key' ∧ t.buffers = s.buffers ++ [newBuffer container.ciphertext]
  | gcmDecrypt key nonce tag ciphertext aad outPlaintext outPlaintextLen =>
    ∃ handle nonce' tag' data aadData out len plaintext w, key = some handle ∧ nonce = some nonce' ∧
      tag = some tag' ∧ ciphertext.data? = some data ∧ aad.data? = some aadData ∧
      outPlaintext = some out ∧ outPlaintextLen = some len ∧
      Ends (AesGcm.decrypt env.os (s.key handle)
        { nonce := nonce', tag := tag', ciphertext := data } aadData) s.world (.ok plaintext) w ∧
      t.memory = s.memory.setOutput out s.buffers.length len plaintext ∧ t.handles = s.handles ∧
      t.buffers = s.buffers ++ [newBuffer plaintext]

/-- A status that is not `AESLIB_OK` means untouched outputs, and `AESLIB_OK` that all are set. -/
def OutputsKept (env : Env) (call : Call) (s : CState) : Prop :=
  ∀ status t, Ends (call.run env) s (.ok status) t →
    (status ≠ .ok → Untouched s t) ∧ (status = .ok → call.Sets env s t)

/-- The platform draws the nonce of an encryption. -/
def Draws (env : Env) (s : CState) : Prop := ∃ nonce w, Ends (generateNonce env.os) s.world (.ok nonce) w

/-- The call is an encryption that succeeds up to the allocation of its output buffer, which is
refused. -/
def Call.LosesBuffer (env : Env) (s : CState) : Call → Prop
  | ctrEncrypt key plaintext outNonce outCiphertext outCiphertextLen =>
    env.failures.denies .output = true ∧ env.failures.library = none ∧ Draws env s ∧ key.isSome ∧
      outNonce.isSome ∧ outCiphertext.isSome ∧ outCiphertextLen.isSome ∧
      ∃ data, plaintext.data? = some data ∧
        Copied env.failures.text data ∧ data.length ≤ Aes256Ctr.kMaxPlaintextBytes
  | gcmEncrypt key plaintext aad outNonce outTag outCiphertext outCiphertextLen =>
    env.failures.denies .output = true ∧ env.failures.library = none ∧ Draws env s ∧
      (∃ handle, key = some handle ∧ (s.key handle).gcmInvocations < kGcmInvocationLimit) ∧
      outNonce.isSome ∧ outTag.isSome ∧ outCiphertext.isSome ∧ outCiphertextLen.isSome ∧
      ∃ data aadData, plaintext.data? = some data ∧ aad.data? = some aadData ∧
        Copied env.failures.text data ∧ Copied env.failures.aad aadData ∧
        data.length ≤ AesGcm.kMaxPlaintextBytes
  | _ => False

/-- Every end of `p` from `u` is an exception with the caller untouched since `s`, or satisfies
`sets`. -/
def Meets (s : CState) (sets : CState → Prop) (p : Prog CState Exc Unit) (u : CState) : Prop :=
  ∀ r t, Ends p u r t → (∃ e, r = .error e) ∧ Untouched s t ∨ r = .ok () ∧ sets t

section Meets

variable {env : Env} {s u : CState} {sets : CState → Prop} {α : Type}

theorem meets_readHandle {handle : Nat} {f : SecretKey → Prog CState Exc Unit}
    (h : Meets s sets (f (u.key handle)) u) : Meets s sets (readHandle handle >>= f) u := by
  intro r t hrun
  exact h r t ((op_ends _ u).bind_iff.mp hrun)

theorem meets_toBytes {failure : Option Exc} {data : List Byte} {f : List Byte → Prog CState Exc Unit}
    (hu : Untouched s u) (h : Copied failure data → Meets s sets (f data) u) :
    Meets s sets (toBytes failure data >>= f) u := by
  intro r t hrun
  cases failure with
  | none => exact h (.inl rfl) r t ((Ends.bind_iff ((ends_pure data u u _).mpr ⟨rfl, rfl⟩)).mp hrun)
  | some e =>
      cases data with
      | nil => exact h (.inr rfl) r t ((Ends.bind_iff ((ends_pure [] u u _).mpr ⟨rfl, rfl⟩)).mp hrun)
      | cons b data =>
          have hraise : Ends (toBytes (some e) (b :: data)) u (.error e) u :=
            (ends_raise e u u _).mpr ⟨rfl, rfl⟩
          obtain ⟨rfl, rfl⟩ := hraise.bind_error_iff.mp hrun
          exact .inl ⟨⟨e, rfl⟩, hu⟩

theorem library_cases {p : Prog World Error α} {r : Except Exc α} {t : CState}
    (h : Ends (library env p) u r t) :
    ∃ w, t = { u with world := w } ∧
      ((∃ e, r = .error e) ∨ ∃ a, r = .ok a ∧ env.failures.library = none ∧
        Ends p u.world (.ok a) w) := by
  unfold library at h
  split at h
  · next cut _ =>
      obtain ⟨rfl, rfl⟩ := Prod.mk.inj ((ends_op _ _ _ _).mp h)
      exact ⟨_, rfl, .inl ⟨cut.exc, rfl⟩⟩
  · next hnone =>
      obtain ⟨r', w, hp, rfl, rfl⟩ := ends_focus.mp h
      refine ⟨w, rfl, ?_⟩
      cases r' with
      | error e => exact .inl ⟨_, rfl⟩
      | ok a => exact .inr ⟨a, rfl, hnone, hp⟩

/-- The last call of a block. -/
theorem meets_library_last {p : Prog World Error Unit} (hu : Untouched s u)
    (h : ∀ w, Ends p u.world (.ok ()) w → sets { u with world := w }) :
    Meets s sets (library env p) u := by
  intro r t hrun
  obtain ⟨w, rfl, ⟨e, rfl⟩ | ⟨_, rfl, _, hends⟩⟩ := library_cases hrun
  · exact .inl ⟨⟨e, rfl⟩, hu.memory, hu.handles, hu.buffers⟩
  · exact .inr ⟨rfl, h w hends⟩

theorem meets_library {p : Prog World Error α} {f : α → Prog CState Exc Unit} (hu : Untouched s u)
    (h : ∀ a w, env.failures.library = none → Ends p u.world (.ok a) w →
      Meets s sets (f a) { u with world := w }) :
    Meets s sets (library env p >>= f) u := by
  intro r t hrun
  rcases ends_bind.mp hrun with ⟨a, v, hp, hf⟩ | ⟨e, rfl, hp⟩
  · obtain ⟨w, rfl, ⟨_, he⟩ | ⟨a', ha, hnone, hends⟩⟩ := library_cases hp
    · exact absurd he (by simp)
    · obtain rfl := Except.ok.inj ha
      exact h a w hnone hends r t hf
  · obtain ⟨w, rfl, _⟩ := library_cases hp
    exact .inl ⟨⟨e, rfl⟩, hu.memory, hu.handles, hu.buffers⟩

theorem libraryOn_cases {handle : Nat} {p : Prog (World × SecretKey) Error α} {r : Except Exc α}
    {t : CState} (h : Ends (libraryOn env handle p) u r t) :
    ∃ w key, t = { u.setKey handle key with world := w } ∧
      ((∃ e, r = .error e) ∨
        ∃ a, r = .ok a ∧ env.failures.library = none ∧
        Ends p (u.world, u.key handle) (.ok a) (w, key)) := by
  unfold libraryOn at h
  split at h
  · next cut _ =>
      obtain ⟨rfl, rfl⟩ := Prod.mk.inj ((ends_op _ _ _ _).mp h)
      exact ⟨_, _, rfl, .inl ⟨cut.exc, rfl⟩⟩
  · next hnone =>
      obtain ⟨r', ⟨w, key⟩, hp, rfl, rfl⟩ := ends_focus.mp h
      refine ⟨w, key, rfl, ?_⟩
      cases r' with
      | error e => exact .inl ⟨_, rfl⟩
      | ok a => exact .inr ⟨a, rfl, hnone, hp⟩

theorem meets_libraryOn {handle : Nat} {p : Prog (World × SecretKey) Error α}
    {f : α → Prog CState Exc Unit} (hu : Untouched s u)
    (h : ∀ a w key, env.failures.library = none → Ends p (u.world, u.key handle) (.ok a) (w, key) →
      Meets s sets (f a) { u.setKey handle key with world := w }) :
    Meets s sets (libraryOn env handle p >>= f) u := by
  intro r t hrun
  rcases ends_bind.mp hrun with ⟨a, v, hp, hf⟩ | ⟨e, rfl, hp⟩
  · obtain ⟨w, key, rfl, ⟨_, he⟩ | ⟨a', ha, hnone, hends⟩⟩ := libraryOn_cases hp
    · exact absurd he (by simp)
    · obtain rfl := Except.ok.inj ha
      exact h a w key hnone hends r t hf
  · obtain ⟨w, key, rfl, _⟩ := libraryOn_cases hp
    exact .inl ⟨⟨e, rfl⟩, hu.memory, List.length_set.trans hu.handles, hu.buffers⟩

theorem meets_allocate {a : Allocation} {f : Unit → Prog CState Exc Unit}
    (hdenied : env.failures.denies a = true → Untouched s u) (h : Meets s sets (f ()) u) :
    Meets s sets (allocate env a >>= f) u := by
  intro r t hrun
  by_cases ha : env.failures.denies a = true
  · obtain ⟨rfl, rfl⟩ := (ends_raiseIf_pos ha).bind_error_iff.mp hrun
    exact .inl ⟨⟨_, rfl⟩, hdenied ha⟩
  · exact h r t ((ends_raiseIf_neg ha).bind_iff.mp hrun)

theorem meets_store {g : Memory → Memory} {f : Unit → Prog CState Exc Unit}
    (h : Meets s sets (f ()) { u with memory := g u.memory }) : Meets s sets (store g >>= f) u := by
  intro r t hrun
  exact h r t ((op_ends _ u).bind_iff.mp hrun)

theorem meets_store_last {g : Memory → Memory} (h : sets { u with memory := g u.memory }) :
    Meets s sets (store g) u := by
  intro r t hrun
  obtain ⟨rfl, rfl⟩ := Prod.mk.inj ((ends_op _ _ _ _).mp hrun)
  exact .inr ⟨rfl, h⟩

theorem meets_makeHandle {key : SecretKey} {f : Nat → Prog CState Exc Unit} (hu : Untouched s u)
    (h : Meets s sets (f u.handles.length) { u with handles := u.handles ++ [key] }) :
    Meets s sets (makeHandle env key >>= f) u := by
  intro r t hrun
  by_cases ha : env.failures.denies .handle = true
  · have hmake : Ends (makeHandle env key) u (.error .badAlloc) u := (ends_raiseIf_pos ha).bind_error _
    obtain ⟨rfl, rfl⟩ := hmake.bind_error_iff.mp hrun
    exact .inl ⟨⟨_, rfl⟩, hu⟩
  · have hmake : Ends (makeHandle env key) u (.ok u.handles.length)
        { u with handles := u.handles ++ [key] } :=
      (ends_raiseIf_neg ha).bind (op_ends _ u)
    exact h r t (hmake.bind_iff.mp hrun)

theorem meets_allocateOutput {bytes : List Byte} {out outLen : Nat}
    (hdenied : env.failures.denies .output = true → Untouched s u)
    (h : sets { u with
      buffers := u.buffers ++ [newBuffer bytes]
      memory := u.memory.setOutput out u.buffers.length outLen bytes }) :
    Meets s sets (allocateOutput env bytes out outLen) u := by
  refine meets_allocate hdenied fun r t hrun => ?_
  rw [(op_ends _ u).bind_iff] at hrun
  exact meets_store (meets_store_last h) r t hrun

end Meets

section Functions

variable {env : Env} {body : Prog CState Exc Unit} (s : CState)

theorem aeslibKeyGenerate_meets {keySizeBits : Int} {outKey : Option Nat}
    (hentry : aeslibKeyGenerate env keySizeBits outKey = .attempt body) :
    Meets s (fun t => (Call.keyGenerate keySizeBits outKey).Sets env s t) body s := by
  unfold aeslibKeyGenerate at hentry
  split at hentry
  · cases hentry
  · split at hentry
    · cases hentry
    · next out _ =>
        cases hentry
        refine meets_library ⟨rfl, rfl, rfl⟩ fun key w _ hkey =>
          meets_makeHandle ⟨rfl, rfl, rfl⟩ (meets_store_last ?_)
        exact ⟨out, key, w, rfl, hkey, rfl, rfl, rfl⟩

theorem aeslibKeySaveToFile_meets {key : Option Nat} {path : Option String}
    (hentry : aeslibKeySaveToFile env key path = .attempt body) :
    Meets s (fun t => (Call.keySaveToFile key path).Sets env s t) body s := by
  unfold aeslibKeySaveToFile at hentry
  split at hentry
  · cases hentry
    exact meets_readHandle (meets_library_last ⟨rfl, rfl, rfl⟩ fun w _ => ⟨rfl, rfl, rfl⟩)
  · cases hentry

theorem aeslibKeyLoadFromFile_meets {path : Option String} {outKey : Option Nat}
    (hentry : aeslibKeyLoadFromFile env path outKey = .attempt body) :
    Meets s (fun t => (Call.keyLoadFromFile path outKey).Sets env s t) body s := by
  unfold aeslibKeyLoadFromFile at hentry
  split at hentry
  · next path out =>
      cases hentry
      refine meets_library ⟨rfl, rfl, rfl⟩ fun key w _ hkey =>
        meets_makeHandle ⟨rfl, rfl, rfl⟩ (meets_store_last ?_)
      exact ⟨path, out, key, w, rfl, rfl, hkey, rfl, rfl, rfl⟩
  · cases hentry

theorem encrypt_drawn {os : Os} {key : SecretKey} {plaintext : List Byte} {w w' : World}
    {container : Container} (h : Ends (Aes256Ctr.encrypt os key plaintext) w (.ok container) w') :
    plaintext.length ≤ Aes256Ctr.kMaxPlaintextBytes ∧
    ∃ nonce w₁, Ends (generateNonce os) w (.ok nonce) w₁ := by
  have hlen := (Aes256Ctr.encrypt_triple os key plaintext trivial h).1
  rw [Aes256Ctr.encrypt, (Aes256Ctr.validateBlockCount_ends hlen w).bind_iff] at h
  rcases ends_bind.mp h with ⟨nonce, w₁, hnonce, -⟩ | ⟨e, he, -⟩
  · exact ⟨hlen, nonce, w₁, hnonce⟩
  · exact absurd he (by simp)

theorem gcmEncrypt_drawn {os : Os} {key : SecretKey} {plaintext aad : List Byte} {w : World}
    {t : World × SecretKey} {container : GcmContainer}
    (h : Ends (AesGcm.encrypt os plaintext aad) (w, key) (.ok container) t) :
    plaintext.length ≤ AesGcm.kMaxPlaintextBytes ∧ key.gcmInvocations < kGcmInvocationLimit ∧
      ∃ nonce w₁, Ends (generateNonce os) w (.ok nonce) w₁ := by
  generalize hr : (.ok container : Except Error GcmContainer) = r at h
  cases AesGcm.encrypt_cases os w key h with
  | refused _ => exact absurd hr (by simp)
  | limited _ _ => exact absurd hr (by simp)
  | undrawn _ _ _ => exact absurd hr (by simp)
  | returned hlen hcount hnonce => exact ⟨hlen, hcount, _, _, hnonce⟩

/-- The nonce is stored before the last allocation, so that one must not be refused. -/
theorem aeslibCtrEncrypt_meets {key : Option Nat} {plaintext : InBuffer}
    {outNonce outCiphertext outCiphertextLen : Option Nat}
    (hentry :
      aeslibCtrEncrypt env key plaintext outNonce outCiphertext outCiphertextLen = .attempt body)
    (hbuffer :
      ¬(Call.ctrEncrypt key plaintext outNonce outCiphertext outCiphertextLen).LosesBuffer env s) :
    Meets s (fun t => (Call.ctrEncrypt key plaintext outNonce outCiphertext outCiphertextLen).Sets
      env s t) body s := by
  unfold aeslibCtrEncrypt at hentry
  split at hentry
  · next handle data nonce out len hdata =>
      cases hentry
      refine meets_readHandle (meets_toBytes ⟨rfl, rfl, rfl⟩ fun hcopied =>
        meets_library ⟨rfl, rfl, rfl⟩ fun container w hlibrary hencrypt => ?_)
      refine meets_store (meets_allocateOutput (fun hdenied => absurd ?_ hbuffer) ?_)
      · obtain ⟨hlen, hdrawn⟩ := encrypt_drawn hencrypt
        exact ⟨hdenied, hlibrary, hdrawn, rfl, rfl, rfl, rfl, data, hdata, hcopied, hlen⟩
      · exact ⟨handle, data, nonce, out, len, container, w, rfl, hdata, rfl, rfl, rfl, hencrypt,
          rfl, rfl, rfl⟩
  · cases hentry

theorem aeslibCtrDecrypt_meets {key : Option Nat} {nonce : Option (Vector Byte kNonceSizeBytes)}
    {ciphertext : InBuffer} {outPlaintext outPlaintextLen : Option Nat}
    (hentry : aeslibCtrDecrypt env key nonce ciphertext outPlaintext outPlaintextLen = .attempt body) :
    Meets s (fun t => (Call.ctrDecrypt key nonce ciphertext outPlaintext outPlaintextLen).Sets env s
      t) body s := by
  unfold aeslibCtrDecrypt at hentry
  split at hentry
  · next handle nonce data out len hdata =>
      cases hentry
      refine meets_toBytes ⟨rfl, rfl, rfl⟩ fun _ => meets_readHandle
        (meets_library ⟨rfl, rfl, rfl⟩ fun plaintext w _ hdecrypt => ?_)
      refine meets_allocateOutput (fun _ => ⟨rfl, rfl, rfl⟩) ?_
      exact ⟨handle, nonce, data, out, len, plaintext, w, rfl, rfl, hdata, rfl, rfl, hdecrypt, rfl,
        rfl, rfl⟩
  · cases hentry

theorem aeslibGcmEncrypt_meets {key : Option Nat} {plaintext aad : InBuffer}
    {outNonce outTag outCiphertext outCiphertextLen : Option Nat}
    (hentry : aeslibGcmEncrypt env key plaintext aad outNonce outTag outCiphertext
      outCiphertextLen = .attempt body)
    (hbuffer : ¬(Call.gcmEncrypt key plaintext aad outNonce outTag outCiphertext
      outCiphertextLen).LosesBuffer env s) :
    Meets s (fun t =>
      (Call.gcmEncrypt key plaintext aad outNonce outTag outCiphertext outCiphertextLen).Sets env s t)
      body s := by
  unfold aeslibGcmEncrypt at hentry
  split at hentry
  · next handle data aadData nonce tag out len hdata haad =>
      cases hentry
      refine meets_toBytes ⟨rfl, rfl, rfl⟩ fun hcopied => meets_toBytes ⟨rfl, rfl, rfl⟩ fun hcopiedAad =>
        meets_libraryOn ⟨rfl, rfl, rfl⟩ fun container w key hlibrary hencrypt => ?_
      refine meets_store (meets_store (meets_allocateOutput (fun hdenied => absurd ?_ hbuffer) ?_))
      · obtain ⟨hlen, hcount, hdrawn⟩ := gcmEncrypt_drawn hencrypt
        exact ⟨hdenied, hlibrary, hdrawn, ⟨handle, rfl, hcount⟩, rfl, rfl, rfl, rfl, data, aadData,
          hdata, haad, hcopied, hcopiedAad, hlen⟩
      · exact ⟨handle, data, aadData, nonce, tag, out, len, container, w, key, rfl, hdata, haad,
          rfl, rfl, rfl, rfl, hencrypt, rfl, rfl, rfl⟩
  · cases hentry

theorem aeslibGcmDecrypt_meets {key : Option Nat} {nonce : Option (Vector Byte kNonceSizeBytes)}
    {tag : Option (Vector Byte kGcmTagSizeBytes)} {ciphertext aad : InBuffer}
    {outPlaintext outPlaintextLen : Option Nat}
    (hentry : aeslibGcmDecrypt env key nonce tag ciphertext aad outPlaintext outPlaintextLen =
      .attempt body) :
    Meets s (fun t =>
      (Call.gcmDecrypt key nonce tag ciphertext aad outPlaintext outPlaintextLen).Sets env s t)
      body s := by
  unfold aeslibGcmDecrypt at hentry
  split at hentry
  · next handle nonce tag data aadData out len hdata haad =>
      cases hentry
      refine meets_toBytes ⟨rfl, rfl, rfl⟩ fun _ => meets_toBytes ⟨rfl, rfl, rfl⟩ fun _ =>
        meets_readHandle
        (meets_library ⟨rfl, rfl, rfl⟩ fun plaintext w _ hdecrypt => ?_)
      refine meets_allocateOutput (fun _ => ⟨rfl, rfl, rfl⟩) ?_
      exact ⟨handle, nonce, tag, data, aadData, out, len, plaintext, w, rfl, rfl, rfl, hdata, haad,
        rfl, rfl, hdecrypt, rfl, rfl, rfl⟩
  · cases hentry

theorem entry_meets {call : Call} (hentry : call.entry env = .attempt body)
    (hbuffer : ¬call.LosesBuffer env s) : Meets s (fun t => call.Sets env s t) body s := by
  cases call with
  | keyGenerate => exact aeslibKeyGenerate_meets s hentry
  | keySaveToFile => exact aeslibKeySaveToFile_meets s hentry
  | keyLoadFromFile => exact aeslibKeyLoadFromFile_meets s hentry
  | ctrEncrypt => exact aeslibCtrEncrypt_meets s hentry hbuffer
  | ctrDecrypt => exact aeslibCtrDecrypt_meets s hentry
  | gcmEncrypt => exact aeslibGcmEncrypt_meets s hentry hbuffer
  | gcmDecrypt => exact aeslibGcmDecrypt_meets s hentry

end Functions

section Kept

variable {env : Env} {call : Call} {s : CState}

/-- Recording an error leaves the outputs alone. -/
theorem record_untouched {message : String} {status status' : Status} {t : CState}
    (h : Ends (setLastError env message >>= fun _ => pure status) s (.ok status') t) :
    status' = status ∧ ∃ lastError, t = { s with lastError } := by
  by_cases hgrants : env.Grants s.lastError message
  · obtain ⟨_, hset⟩ := setLastError_granted hgrants
    have hpure := (hset.bind_iff (f := fun _ => pure status)).mp h
    obtain ⟨heq, rfl⟩ := (ends_pure _ _ _ _).mp hpure
    exact ⟨Except.ok.inj heq, _, rfl⟩
  · exact absurd ((setLastError_refused hgrants).bind_error_iff.mp h).1 (by simp)

theorem outputsKept (hbuffer : ¬call.LosesBuffer env s) : OutputsKept env call s := by
  intro status t hrun
  unfold Call.run at hrun
  cases hentry : call.entry env with
  | reject rejected =>
      rw [hentry] at hrun
      obtain ⟨rfl, _, rfl⟩ := record_untouched hrun
      exact ⟨fun _ => ⟨rfl, rfl, rfl⟩, fun hok => absurd hok (by decide)⟩
  | attempt body =>
      rw [hentry] at hrun
      have hbody := entry_meets s hentry hbuffer
      rcases ends_tryCatch.mp hrun with ⟨_, heq, hok⟩ | ⟨e, u, herror, hrecord⟩
      · obtain rfl := Except.ok.inj heq
        rcases ends_bind.mp hok with ⟨_, u, hu, hpure⟩ | ⟨_, he, _⟩
        · obtain ⟨hok, rfl⟩ := (ends_pure _ _ _ _).mp hpure
          obtain rfl := Except.ok.inj hok
          rcases hbody _ _ hu with ⟨⟨_, he⟩, _⟩ | ⟨_, hsets⟩
          · exact absurd he (by simp)
          · exact ⟨fun hne => absurd rfl hne, fun _ => hsets⟩
        · exact absurd he (by simp)
      · rcases ends_bind.mp herror with ⟨_, _, _, hpure⟩ | ⟨e', he, hu⟩
        · exact absurd ((ends_pure _ _ _ _).mp hpure).1 (by simp)
        · obtain rfl := Except.error.inj he
          rw [translateException_eq] at hrecord
          obtain ⟨rfl, lastError, rfl⟩ := record_untouched hrecord
          rcases hbody _ _ hu with ⟨_, huntouched⟩ | ⟨he, _⟩
          · exact ⟨fun _ => ⟨huntouched.memory, huntouched.handles, huntouched.buffers⟩,
              fun hok => absurd hok e.status_ne_ok⟩
          · exact absurd he (by simp)

end Kept

section Lost

variable {env : Env} {s : CState}

theorem toBytes_copied {failure : Option Exc} {data : List Byte} (h : Copied failure data) (s : CState) :
    Ends (toBytes failure data) s (.ok data) s := by
  rcases h with rfl | rfl
  · exact (ends_pure _ _ _ _).mpr ⟨rfl, rfl⟩
  · cases failure
    · exact (ends_pure _ _ _ _).mpr ⟨rfl, rfl⟩
    · exact (ends_pure _ _ _ _).mpr ⟨rfl, rfl⟩

theorem library_ends {α : Type} (hlibrary : env.failures.library = none) {p : Prog World Error α}
    {s : CState} {a : α} {w : World} (h : Ends p s.world (.ok a) w) :
    Ends (library env p) s (.ok a) { s with world := w } := by
  simp only [library, hlibrary]
  exact ends_focus.mpr ⟨.ok a, w, h, rfl, rfl⟩

theorem libraryOn_ends {α : Type} (hlibrary : env.failures.library = none)
    {p : Prog (World × SecretKey) Error α} {s : CState} {handle : Nat} {a : α} {w : World}
    {key : SecretKey} (h : Ends p (s.world, s.key handle) (.ok a) (w, key)) :
    Ends (libraryOn env handle p) s (.ok a) { s.setKey handle key with world := w } := by
  simp only [libraryOn, hlibrary]
  exact ends_focus.mpr ⟨.ok a, (w, key), h, rfl, rfl⟩

theorem allocateOutput_refused (hdenied : env.failures.denies .output = true) (bytes : List Byte)
    (out outLen : Nat) (s : CState) :
    Ends (allocateOutput env bytes out outLen) s (.error .badAlloc) s :=
  (ends_raiseIf_pos hdenied).bind_error _

/-- The `try` block of such an encryption ends with `std::bad_alloc`, and the nonce has been stored. -/
theorem lost_ends {call : Call} (h : call.LosesBuffer env s) :
    ∃ body out nonce w, call.entry env = .attempt body ∧
    Ends (generateNonce env.os) s.world (.ok nonce) w ∧
      ∀ memory, ∃ t, Ends body { s with memory } (.error .badAlloc) t ∧ t.lastError = s.lastError ∧
        t.memory.nonces = Function.update memory.nonces out nonce := by
  cases call with
  | ctrEncrypt key plaintext outNonce outCiphertext outCiphertextLen =>
      obtain ⟨hdenied, hlibrary, ⟨nonce, w, hnonce⟩, hkey, hout, hbuffer, hlen, data, hdata,
        hcopied, hle⟩ := h
      obtain ⟨handle, rfl⟩ := Option.isSome_iff_exists.mp hkey
      obtain ⟨out, rfl⟩ := Option.isSome_iff_exists.mp hout
      obtain ⟨buffer, rfl⟩ := Option.isSome_iff_exists.mp hbuffer
      obtain ⟨len, rfl⟩ := Option.isSome_iff_exists.mp hlen
      have hencrypt := Aes256Ctr.encrypt_ends (s.key handle) hle hnonce
      refine ⟨_, out, nonce, w, by simp only [Call.entry, aeslibCtrEncrypt, hdata]; rfl, hnonce,
        fun memory => ?_⟩
      set t : CState := { s with
        world := w.ciphered (counterBlocks 0 nonce data.length), memory :=
          memory.setNonce out nonce } with ht
      refine ⟨t, ?_, rfl, rfl⟩
      have hlibrary := library_ends (s := { s with memory }) hlibrary hencrypt
      exact (op_ends _ _).bind ((toBytes_copied hcopied _).bind (hlibrary.bind
        ((op_ends _ _).bind (allocateOutput_refused hdenied _ _ _ t))))
  | gcmEncrypt key plaintext aad outNonce outTag outCiphertext outCiphertextLen =>
      obtain ⟨hdenied, hlibrary, ⟨nonce, w, hnonce⟩, ⟨handle, rfl, hcount⟩, hout, htag, hbuffer,
        hlen, data, aadData, hdata, haad, hcopied, hcopiedAad, hle⟩ := h
      obtain ⟨out, rfl⟩ := Option.isSome_iff_exists.mp hout
      obtain ⟨tag, rfl⟩ := Option.isSome_iff_exists.mp htag
      obtain ⟨buffer, rfl⟩ := Option.isSome_iff_exists.mp hbuffer
      obtain ⟨len, rfl⟩ := Option.isSome_iff_exists.mp hlen
      have hencrypt := AesGcm.encrypt_ends env.os s.world (s.key handle) aadData hle hcount hnonce
      refine ⟨_, out, nonce, w, by simp only [Call.entry, aeslibGcmEncrypt, hdata, haad]; rfl,
        hnonce, fun memory => ?_⟩
      set container := AesGcm.gcmContainer (s.key handle) nonce data aadData with hcontainer
      set t : CState := { s.setKey handle (consumeGcmInvocation (s.key handle)).2 with
        world := (w.ciphered (counterBlocks 2 nonce data.length)).ciphered (AesGcm.tagInputs nonce)
        memory := (memory.setNonce out nonce).setTag tag container.tag } with ht
      refine ⟨t, ?_, rfl, rfl⟩
      have hlibrary := libraryOn_ends (s := { s with memory }) hlibrary hencrypt
      exact (toBytes_copied hcopied _).bind ((toBytes_copied hcopiedAad _).bind (hlibrary.bind
        ((op_ends _ _).bind ((op_ends _ _).bind (allocateOutput_refused hdenied _ _ _ t)))))
  | keyGenerate => exact h.elim
  | keySaveToFile => exact h.elim
  | keyLoadFromFile => exact h.elim
  | ctrDecrypt => exact h.elim
  | gcmDecrypt => exact h.elim

/-- A `try` block that ends with `std::bad_alloc` is followed by the record of its message. -/
theorem run_badAlloc {call : Call} {body : Prog CState Exc Unit} {t : CState}
    (hentry : call.entry env = .attempt body) (hbody : Ends body s (.error .badAlloc) t)
    {r : Except Exc Status} {u : CState} :
    Ends (call.run env) s r u ↔
    Ends (setLastError env env.std.badAllocWhat >>= fun _ => pure .errUnknown) t r u := by
  have hrun : Ends (do
      body
      pure Status.ok) s (.error .badAlloc) t := hbody.bind_error _
  rw [Call.run, hentry, Entry.run, ends_tryCatch]
  constructor
  · rintro (⟨_, -, hok⟩ | ⟨e, v, herror, hrecord⟩)
    · exact absurd (hok.unique hrun).1 (by simp)
    · obtain ⟨he, rfl⟩ := herror.unique hrun
      obtain rfl := Except.error.inj he
      exact hrecord
  · exact fun hrecord => .inr ⟨.badAlloc, t, hrun, hrecord⟩

theorem exists_ne_nonce (nonce : Vector Byte kNonceSizeBytes) : ∃ before, before ≠ nonce := by
  by_cases hzero : nonce = Vector.replicate _ 0
  · exact ⟨Vector.replicate _ 1, hzero ▸ by decide⟩
  · exact ⟨Vector.replicate _ 0, Ne.symm hzero⟩

/-- The nonce variables held something else before. -/
theorem not_outputsKept {call : Call} (h : call.LosesBuffer env s)
    (hgrants : env.Grants s.lastError env.std.badAllocWhat) {memory : Memory}
    (hmemory : ∀ out nonce w, Ends (generateNonce env.os) s.world (.ok nonce) w →
      memory.nonces out ≠ nonce) :
    ¬OutputsKept env call { s with memory } := by
  intro hkept
  obtain ⟨body, out, nonce, w, hentry, hnonce, hbody⟩ := lost_ends h
  obtain ⟨t, hends, hlast, hnonces⟩ := hbody memory
  obtain ⟨capacity, hset⟩ := setLastError_granted (hlast ▸ hgrants)
  have hrun := (run_badAlloc hentry hends).mpr
    (hset.bind ((ends_pure Status.errUnknown _ _ _).mpr ⟨rfl, rfl⟩))
  have hsame : t.memory.nonces out = memory.nonces out :=
    congrFun (congrArg Memory.nonces ((hkept _ _ hrun).1 (by decide)).memory) out
  rw [hnonces, Function.update_self] at hsame
  exact hmemory out nonce w hnonce hsame.symm

/-- **The outputs of a failed call are untouched, and those of a successful one are set**, whatever
the variables of the caller hold, exactly if the call is not an encryption whose output buffer alone
is refused. The message of the `std::bad_alloc` is recorded wherever a string holds it in place;
where it is not, no status is returned. -/
theorem outputsKept_iff (env : Env) (call : Call) (s : CState) :
    (∀ memory, OutputsKept env call { s with memory }) ↔
      ¬(call.LosesBuffer env s ∧ env.Grants s.lastError env.std.badAllocWhat) := by
  constructor
  · rintro h ⟨hlost, hgrants⟩
    obtain ⟨_, _, nonce, w, -, hnonce, -⟩ := lost_ends hlost
    obtain ⟨before, hbefore⟩ := exists_ne_nonce nonce
    refine not_outputsKept hlost hgrants ?_ (h { s.memory with nonces := fun _ => before })
    intro _ nonce' w' hnonce'
    rwa [Except.ok.inj (hnonce'.unique hnonce).1]
  · intro h memory
    by_cases hlost : call.LosesBuffer env s
    · -- the exception of the record leaves the function
      obtain ⟨body, _, _, _, hentry, -, hbody⟩ := lost_ends hlost
      obtain ⟨t, hends, hlast, -⟩ := hbody memory
      have hrefused : ¬env.Grants t.lastError env.std.badAllocWhat :=
        hlast ▸ fun hgrants => h ⟨hlost, hgrants⟩
      intro status u hrun
      rw [run_badAlloc hentry hends, (setLastError_refused hrefused).bind_error_iff] at hrun
      exact absurd hrun.1 (by simp)
    · exact outputsKept hlost

/-- One byte under the first handle, without memory for its ciphertext: the nonce variable held ones
before. -/
theorem not_outputsKept_oneByte :
    ¬OutputsKept (Env.plain (· = .output))
      (.ctrEncrypt (some 0) (.bytes [0x61]) (some 0) (some 0) (some 0))
      (CState.start (Env.plain (· = .output)).std (Vector.replicate _ 1)) := by
  have hdrawn := generateNonce_serves Os.plain_serves World.empty
  have hlost : (Call.ctrEncrypt (some 0) (.bytes [0x61]) (some 0) (some 0) (some 0)).LosesBuffer
      (Env.plain (· = .output)) (CState.start (Env.plain (· = .output)).std (Vector.replicate _ 1)) :=
    ⟨rfl, rfl, ⟨_, _, hdrawn⟩, rfl, rfl, rfl, rfl, [0x61], rfl, .inl rfl, by decide⟩
  refine not_outputsKept hlost (grants_badAlloc le_rfl) fun out nonce w hnonce => ?_
  have hdiffers : Vector.replicate kNonceSizeBytes 1 ≠ Os.plain.draw World.empty.clock
      kNonceSizeBytes := by decide
  rwa [Except.ok.inj (hnonce.unique hdrawn).1]

end Lost

end Aeslib.CApi
