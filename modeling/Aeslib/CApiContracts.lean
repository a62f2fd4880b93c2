import Aeslib.CApiOutputs
import Aeslib.LibContract

/-!
What a C call does to the heap. A call that returns `AESLIB_OK` hands out the handle or the buffer
of its result; any other end leaves no allocation behind, not even where an encryption has already
stored its nonce; and on every way out the keys behind the handles are the same logical keys.
-/

namespace Aeslib.CApi

open Prog

/-- An exception inside the library may have counted an encryption, and leaves the rest of the key
object alone. -/
def Env.KeepsKeys (env : Env) : Prop :=
  ∀ cut, env.failures.library = some cut → ∀ key, (cut.key key).size = key.size ∧
    (cut.key key).material = key.material

/-- The keys behind the handles of `s` are the same logical keys in `t`. -/
def SameKeys (s t : CState) : Prop :=
  ∀ k < s.handles.length, (t.key k).size = (s.key k).size ∧ (t.key k).material = (s.key k).material

/-- From `s` to `t` nothing has been allocated for the caller. -/
structure NoneNew (s t : CState) : Prop where
  handles : t.handles.length = s.handles.length
  keys : SameKeys s t
  buffers : t.buffers = s.buffers

section SameKeys

variable {s t u : CState}

theorem SameKeys.of_append {keys : List SecretKey} (h : t.handles = s.handles ++ keys) :
    SameKeys s t := by
  intro k hk
  rw [CState.key, CState.key, h, List.getElem?_append_left hk]
  exact ⟨rfl, rfl⟩

theorem SameKeys.of_eq (h : t.handles = s.handles) : SameKeys s t :=
  .of_append (h.trans (List.append_nil _).symm)

theorem SameKeys.trans (h : SameKeys s t) (hle : s.handles.length ≤ t.handles.length)
    (h' : SameKeys t u) :
    SameKeys s u := fun k hk =>
  ⟨(h' k (hk.trans_le hle)).1.trans (h k hk).1, (h' k (hk.trans_le hle)).2.trans (h k hk).2⟩

theorem key_setKey (s : CState) (handle : Nat) (key : SecretKey) (k : Nat) :
    (s.setKey handle key).key k = if k = handle ∧ handle < s.handles.length then key else s.key k := by
  rw [CState.key, CState.setKey, List.getElem?_set]
  by_cases hk : handle = k
  · subst hk
    by_cases hlt : handle < s.handles.length
    · simp [hlt]
    · simp [hlt, CState.key]
  · simp [hk, Ne.symm hk, CState.key]

theorem SameKeys.of_setKey {handle : Nat} {key : SecretKey} (hsize : key.size = (s.key handle).size)
    (hmaterial : key.material = (s.key handle).material) : SameKeys s (s.setKey handle key) := by
  intro k _
  rw [key_setKey]
  split_ifs with hk
  · rw [hk.1]
    exact ⟨hsize, hmaterial⟩
  · exact ⟨rfl, rfl⟩

theorem NoneNew.of_eq (hhandles : t.handles = s.handles) (hbuffers : t.buffers = s.buffers) :
    NoneNew s t :=
  ⟨congrArg List.length hhandles, .of_eq hhandles, hbuffers⟩

theorem NoneNew.trans (h : NoneNew s t) (h' : NoneNew t u) : NoneNew s u :=
  ⟨h'.handles.trans h.handles, h.keys.trans h.handles.ge h'.keys, h'.buffers.trans h.buffers⟩

theorem NoneNew.setKey {handle : Nat} {key : SecretKey} (hsize : key.size = (s.key handle).size)
    (hmaterial : key.material = (s.key handle).material) (w : World) :
    NoneNew s { s.setKey handle key with world := w } :=
  ⟨List.length_set, .of_setKey hsize hmaterial, rfl⟩

end SameKeys

section Steps

variable {env : Env} (u : CState) {α : Type}

theorem readHandle_contract (handle : Nat) :
    Contract (· = u) (readHandle handle) (fun key t => key = u.key handle ∧ t = u)
    fun _ => NoneNew u :=
  Contract.op (fun s a hs ha => by subst hs; exact ⟨(Except.ok.inj ha).symm, rfl⟩)
    fun s e hs he => by simp at he

theorem toBytes_contract (failure : Option Exc) (data : List Byte) :
    Contract (· = u) (toBytes failure data) (fun a t => a = data ∧ t = u) fun _ => NoneNew u := by
  unfold toBytes
  split
  · split_ifs with hempty
    · exact Contract.pure fun s hs => ⟨(List.isEmpty_iff.mp hempty).symm, hs⟩
    · exact Contract.raise fun _ hs => hs ▸ .of_eq rfl rfl
  · exact Contract.pure fun _ hs => ⟨rfl, hs⟩

theorem library_contract (p : Prog World Error α) : Contract (· = u) (library env p)
    (fun a t => ∃ w, Ends p u.world (.ok a) w ∧ t = { u with world := w }) fun _ => NoneNew u where
  returns := by
    rintro s a t rfl h
    obtain ⟨w, rfl, ⟨e, he⟩ | ⟨a', ha, -, hends⟩⟩ := library_cases h
    · simp at he
    · exact ⟨w, Except.ok.inj ha ▸ hends, rfl⟩
  throws := by
    rintro s e t rfl h
    obtain ⟨w, rfl, -⟩ := library_cases h
    exact .of_eq rfl rfl

theorem allocate_contract (a : Allocation) :
    Contract (· = u) (allocate env a) (fun _ t => t = u) fun _ => NoneNew u :=
  (Contract.raiseIf fun _ hs _ => hs ▸ .of_eq rfl rfl).weaken (fun _ h => h) (fun _ _ h => h.1)
    fun _ _ h => h

theorem makeHandle_contract (key : SecretKey) : Contract (· = u) (makeHandle env key)
    (fun handle t => handle = u.handles.length ∧ t = { u with handles := u.handles ++ [key] })
      fun _ => NoneNew u := by
  refine (allocate_contract u .handle).bind fun _ =>
    Contract.op (fun s a hs ha => ?_) fun s e hs he => by simp at he
  subst hs
  exact ⟨(Except.ok.inj ha).symm, rfl⟩

theorem store_contract {exc : Exc → CState → Prop} (g : Memory → Memory) :
    Contract (· = u) (store g) (fun _ t => t = { u with memory := g u.memory }) exc :=
  Contract.op (fun s a hs _ => by rw [hs]) fun s e hs he => by simp at he

theorem allocateOutput_contract (bytes : List Byte) (out outLen : Nat) :
    Contract (· = u) (allocateOutput env bytes out outLen)
    (fun _ t => t = { u with
      buffers := u.buffers ++ [newBuffer bytes]
      memory := u.memory.setOutput out u.buffers.length outLen bytes }) fun _ => NoneNew u := by
  have hnew : Contract (· = u)
      (op fun s : CState => (.ok s.buffers.length, { s with buffers := s.buffers ++ [newBuffer bytes] }))
        (fun buffer t => buffer = u.buffers.length ∧
        t = { u with buffers := u.buffers ++ [newBuffer bytes] })
      fun _ : Exc => NoneNew u :=
    Contract.op (fun s a hs ha => by subst hs; exact ⟨(Except.ok.inj ha).symm, rfl⟩)
      fun s e hs he => by simp at he
  refine (allocate_contract u .output).bind fun _ => hnew.bind fun buffer =>
    Contract.of_states fun s hs => ?_
  obtain ⟨rfl, rfl⟩ := hs
  exact (store_contract _ _).bind fun _ => Contract.of_states fun s hs => hs ▸ store_contract _ _

/-- An encryption keeps the logical key, also one that throws. -/
theorem encrypt_keepsKey (os : Os) (key : SecretKey) (plaintext aad : List Byte) :
    Preserves (fun s : World × SecretKey => s.2.size = key.size ∧ s.2.material = key.material)
      (AesGcm.encrypt os plaintext aad) := by
  refine (Preserves.raiseIf _).bind fun _ => ?_
  refine (Preserves.op fun s hs => hs).bind fun priorInvocations =>
    (Preserves.raiseIf _).bind fun _ => ?_
  refine (Preserves.lift (fun k : SecretKey => k.size = key.size ∧
    k.material = key.material) _).bind fun nonce => ?_
  refine (Preserves.op fun s hs => hs).bind fun key' => ?_
  refine (Preserves.lift (fun k : SecretKey => k.size = key.size ∧
    k.material = key.material) _).bind fun ciphertext => ?_
  exact (Preserves.lift (fun k : SecretKey => k.size = key.size ∧ k.material = key.material) _).bind
    fun tag =>
    Preserves.pure _

theorem libraryOn_contract (hkeeps : env.KeepsKeys) (handle : Nat) {p : Prog (World × SecretKey) Error α}
    (hp : ∀ key : SecretKey, Preserves (fun s => s.2.size = key.size ∧ s.2.material = key.material) p) :
    Contract (· = u) (libraryOn env handle p)
      (fun a t => ∃ w key, Ends p (u.world, u.key handle) (.ok a) (w, key) ∧
        t = { u.setKey handle key with world := w })
      fun _ => NoneNew u where
  returns := by
    rintro s a t rfl h
    obtain ⟨w, key, rfl, ⟨e, he⟩ | ⟨a', ha, -, hends⟩⟩ := libraryOn_cases h
    · simp at he
    · exact ⟨w, key, Except.ok.inj ha ▸ hends, rfl⟩
  throws := by
    rintro s e t rfl h
    unfold libraryOn at h
    split at h
    · next cut hcut =>
        obtain ⟨-, rfl⟩ := Prod.mk.inj ((ends_op _ _ _ _).mp h)
        obtain ⟨hsize, hmaterial⟩ := hkeeps cut hcut (s.key handle)
        exact .setKey hsize hmaterial _
    · obtain ⟨r', ⟨w, key⟩, hends, -, rfl⟩ := ends_focus.mp h
      obtain ⟨hsize, hmaterial⟩ := hp (s.key handle) ⟨rfl, rfl⟩ hends
      exact .setKey hsize hmaterial w

end Steps

section Functions

variable {env : Env} {body : Prog CState Exc Unit} (s : CState)

/-- A step that leaves one of a family of states behind. -/
theorem bind_states {α : Type} {q : Prog CState Exc α} {f : α → Prog CState Exc Unit}
    {mid : α → CState → Prop} {u : CState} {post : CState → Prop} (hu : NoneNew s u)
    (hq : Contract (· = u) q mid fun _ => NoneNew u)
    (hf : ∀ a t, mid a t → Contract (· = t) (f a) (fun _ => post) fun _ => NoneNew s) :
    Contract (· = u) (q >>= f) (fun _ => post) fun _ => NoneNew s :=
  (hq.weaken (fun _ h => h) (fun _ _ h => h) fun _ _ h => hu.trans h).bind fun a =>
    Contract.of_states fun t ht => hf a t ht

theorem last_states {q : Prog CState Exc Unit} {mid : Unit → CState → Prop} {u : CState}
    {post : CState → Prop} (hu : NoneNew s u) (hq : Contract (· = u) q mid fun _ => NoneNew u)
    (hpost : ∀ t, mid () t → post t) : Contract (· = u) q (fun _ => post) fun _ => NoneNew s :=
  hq.weaken (fun _ h => h) (fun _ t h => hpost t h) fun _ _ h => hu.trans h

/-- The `try` block of a call: all outputs are set, or nothing is new; and the keys are kept either
way. -/
theorem entry_contract (hkeeps : env.KeepsKeys) {call : Call} (hentry : call.entry env = .attempt body) :
    Contract (· = s) body (fun _ t => call.Sets env s t ∧ SameKeys s t) fun _ => NoneNew s := by
  have hs : NoneNew s s := .of_eq rfl rfl
  cases call with
  | keyGenerate keySizeBits outKey =>
      simp only [Call.entry, aeslibKeyGenerate] at hentry
      split at hentry
      · cases hentry
      split at hentry
      · cases hentry
      next out _ =>
        cases hentry
        refine bind_states s hs (library_contract s _) fun key t h => ?_
        obtain ⟨w, hkey, ht⟩ := h
        subst ht
        refine bind_states s (.of_eq rfl rfl) (makeHandle_contract _ key) fun handle t h => ?_
        obtain ⟨hhandle, ht⟩ := h
        subst hhandle ht
        exact (store_contract _ _).weaken (fun _ h => h)
          (fun _ t ht => ht ▸ ⟨⟨out, key, w, rfl, hkey, rfl, rfl, rfl⟩, .of_append rfl⟩) fun _ _ h => h
  | keySaveToFile key path =>
      simp only [Call.entry, aeslibKeySaveToFile] at hentry
      split at hentry
      · cases hentry
        refine bind_states s hs (readHandle_contract s _) fun key t h => ?_
        obtain ⟨hkey, ht⟩ := h
        subst ht
        refine last_states _ hs (library_contract _ _) fun t h => ?_
        obtain ⟨w, -, ht⟩ := h
        exact ht ▸ ⟨⟨rfl, rfl, rfl⟩, .of_eq rfl⟩
      · cases hentry
  | keyLoadFromFile path outKey =>
      simp only [Call.entry, aeslibKeyLoadFromFile] at hentry
      split at hentry
      · next path out =>
        cases hentry
        refine bind_states s hs (library_contract s _) fun key t h => ?_
        obtain ⟨w, hkey, ht⟩ := h
        subst ht
        refine bind_states s (.of_eq rfl rfl) (makeHandle_contract _ key) fun handle t h => ?_
        obtain ⟨hhandle, ht⟩ := h
        subst hhandle ht
        exact (store_contract _ _).weaken (fun _ h => h)
          (fun _ t ht => ht ▸ ⟨⟨path, out, key, w, rfl, rfl, hkey, rfl, rfl, rfl⟩, .of_append rfl⟩)
            fun _ _ h => h
      · cases hentry
  | ctrEncrypt key plaintext outNonce outCiphertext outCiphertextLen =>
      simp only [Call.entry, aeslibCtrEncrypt] at hentry
      split at hentry
      · next handle data nonce out len hdata =>
        cases hentry
        refine bind_states s hs (readHandle_contract s _) fun key t h => ?_
        obtain ⟨hkey, ht⟩ := h
        subst hkey ht
        refine bind_states _ hs (toBytes_contract _ _ _) fun copy t h => ?_
        obtain ⟨hcopy, ht⟩ := h
        subst hcopy ht
        refine bind_states _ hs (library_contract _ _) fun container t h => ?_
        obtain ⟨w, hencrypt, ht⟩ := h
        subst ht
        refine bind_states _ (.of_eq rfl rfl) (store_contract _ _) fun _ t ht => ?_
        subst ht
        -- from here on the nonce of the caller is set
        refine last_states _ (.of_eq rfl rfl) (allocateOutput_contract _ _ _ _) fun t ht => ?_
        exact ht ▸ ⟨⟨handle, _, nonce, out, len, container, w, rfl, hdata, rfl, rfl, rfl, hencrypt,
          rfl, rfl, rfl⟩, .of_eq rfl⟩
      · cases hentry
  | ctrDecrypt key nonce ciphertext outPlaintext outPlaintextLen =>
      simp only [Call.entry, aeslibCtrDecrypt] at hentry
      split at hentry
      · next handle nonce data out len hdata =>
        cases hentry
        refine bind_states s hs (toBytes_contract s _ _) fun copy t h => ?_
        obtain ⟨hcopy, ht⟩ := h
        subst hcopy ht
        refine bind_states _ hs (readHandle_contract _ _) fun key t h => ?_
        obtain ⟨hkey, ht⟩ := h
        subst hkey ht
        refine bind_states _ hs (library_contract _ _) fun plaintext t h => ?_
        obtain ⟨w, hdecrypt, ht⟩ := h
        subst ht
        refine last_states _ (.of_eq rfl rfl) (allocateOutput_contract _ _ _ _) fun t ht => ?_
        exact ht ▸ ⟨⟨handle, nonce, _, out, len, plaintext, w, rfl, rfl, hdata, rfl, rfl, hdecrypt,
          rfl, rfl, rfl⟩, .of_eq rfl⟩
      · cases hentry
  | gcmEncrypt key plaintext aad outNonce outTag outCiphertext outCiphertextLen =>
      simp only [Call.entry, aeslibGcmEncrypt] at hentry
      split at hentry
      · next handle data aadData nonce tag out len hdata haad =>
        cases hentry
        refine bind_states s hs (toBytes_contract s _ _) fun copy t h => ?_
        obtain ⟨hcopy, ht⟩ := h
        subst hcopy ht
        refine bind_states _ hs (toBytes_contract _ _ _) fun aadCopy t h => ?_
        obtain ⟨hcopy, ht⟩ := h
        subst hcopy ht
        refine bind_states _ hs (libraryOn_contract _ hkeeps _ fun key => encrypt_keepsKey _ key _ _)
          fun container t h => ?_
        obtain ⟨w, key, hencrypt, ht⟩ := h
        subst ht
        obtain ⟨hsize, hmaterial⟩ := encrypt_keepsKey _ _ _ _ ⟨rfl, rfl⟩ hencrypt
        have hkept := NoneNew.setKey hsize hmaterial w
        refine bind_states _ hkept (store_contract _ _) fun _ t ht => ?_
        subst ht
        refine bind_states _ (hkept.trans (.of_eq rfl rfl)) (store_contract _ _) fun _ t ht => ?_
        subst ht
        refine last_states _ (hkept.trans (.of_eq rfl rfl)) (allocateOutput_contract _ _ _ _)
          fun t ht => ?_
        exact ht ▸ ⟨⟨handle, _, _, nonce, tag, out, len, container, w, key, rfl, hdata, haad, rfl,
          rfl, rfl, rfl, hencrypt, rfl, rfl, rfl⟩, .of_setKey hsize hmaterial⟩
      · cases hentry
  | gcmDecrypt key nonce tag ciphertext aad outPlaintext outPlaintextLen =>
      simp only [Call.entry, aeslibGcmDecrypt] at hentry
      split at hentry
      · next handle nonce tag data aadData out len hdata haad =>
        cases hentry
        refine bind_states s hs (toBytes_contract s _ _) fun copy t h => ?_
        obtain ⟨hcopy, ht⟩ := h
        subst hcopy ht
        refine bind_states _ hs (toBytes_contract _ _ _) fun aadCopy t h => ?_
        obtain ⟨hcopy, ht⟩ := h
        subst hcopy ht
        refine bind_states _ hs (readHandle_contract _ _) fun key t h => ?_
        obtain ⟨hkey, ht⟩ := h
        subst hkey ht
        refine bind_states _ hs (library_contract _ _) fun plaintext t h => ?_
        obtain ⟨w, hdecrypt, ht⟩ := h
        subst ht
        refine last_states _ (.of_eq rfl rfl) (allocateOutput_contract _ _ _ _) fun t ht => ?_
        exact ht ▸ ⟨⟨handle, nonce, tag, _, _, out, len, plaintext, w, rfl, rfl, rfl, hdata, haad,
          rfl, rfl, hdecrypt, rfl, rfl, rfl⟩, .of_eq rfl⟩
      · cases hentry

end Functions

end Aeslib.CApi
