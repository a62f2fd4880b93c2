import Aeslib.ContainerFiles
import Aeslib.Gcm
import Aeslib.KeyStorageRoundTrip
import Aeslib.WriteCalls

/-!
The public operations of the library as one system. An `Operation` is a call with its arguments, and
`Calls` is any sequence of them, each ended by a value or an exception. Which files a call can touch
and which exceptions it can throw is said once for each call; what holds after any sequence follows.
-/

namespace Aeslib

open Prog

/-- Whatever happens, the files and the descriptors are as they were, and an exception is of one of
the `kinds`. -/
def Quiet {α : Type} (p : Prog World Error α) (kinds : List ErrorKind) : Prop :=
  ∀ w : World, Contract w.Unchanged p (fun _ => w.Unchanged) fun e v => e.kind ∈ kinds ∧ w.Unchanged v

namespace Quiet

variable {α β : Type} {p : Prog World Error α} {kinds : List ErrorKind}

theorem of_ends (h : ∀ w, ∃ r w', Ends p w r w' ∧ w.Unchanged w' ∧ ∀ e, r = .error e → e.kind ∈ kinds) :
    Quiet p kinds := by
  refine fun w => ⟨fun v a v' hv hp => ?_, fun v e v' hv hp => ?_⟩
  · obtain ⟨r, u, hends, hsame, -⟩ := h v
    obtain ⟨-, rfl⟩ := hp.unique hends
    exact hv.trans hsame
  · obtain ⟨r, u, hends, hsame, hkind⟩ := h v
    obtain ⟨hr, rfl⟩ := hp.unique hends
    exact ⟨hkind e hr.symm, hv.trans hsame⟩

theorem weaken {kinds' : List ErrorKind} (h : Quiet p kinds) (hsub : kinds ⊆ kinds') :
    Quiet p kinds' := fun w =>
  (h w).weaken (fun _ h => h) (fun _ _ h => h) fun _ _ h => ⟨hsub h.1, h.2⟩

theorem bind {q : Prog World Error β} {f : β → Prog World Error α} (hq : Quiet q kinds)
    (hf : ∀ b, Quiet (f b) kinds) :
    Quiet (q >>= f) kinds := fun w => (hq w).bind fun b => hf b w

/-- A quiet part of an operation, with what it is known to return. -/
theorem step {w : World} {φ : World → Prop} {post : α → World → Prop} {kinds' : List ErrorKind}
    (h : Quiet p kinds) (hsub : kinds ⊆ kinds') (hpost : Triple (fun _ => True) p post) :
    Contract (fun v => w.Unchanged v ∧ φ v) p (fun a v => w.Unchanged v ∧ post a v)
      fun e v => e.kind ∈ kinds' ∧ w.Unchanged v :=
  ((h.weaken hsub w).and (Contract.of_triple fun _ _ _ _ => hpost trivial)).weaken
    (fun _ hv => hv.1) (fun _ _ h => h)
    fun _ _ h => h.1

theorem pure (a : α) : Quiet (pure a) kinds := fun _ => Contract.pure fun _ hv => hv

theorem raiseIf {b : Prop} [Decidable b] {e : Error} (he : e.kind ∈ kinds) :
    Quiet (raiseIf b e) kinds := fun _ =>
  (Contract.raiseIf fun _ hv _ => ⟨he, hv⟩).weaken (fun _ h => h) (fun _ _ h => h.1) fun _ _ h => h

theorem ofExcept {x : Except Error α} (h : ∀ e, x = .error e → e.kind ∈ kinds) :
    Quiet (ofExcept x) kinds := fun _ =>
  Contract.ofExcept (fun _ _ hv _ => hv) fun _ e hv he => ⟨h e he, hv⟩

theorem loop {body : β → Prog World Error (β ⊕ α)} (hbody : ∀ b, Quiet (body b) kinds) (b : β) :
    Quiet (loop body b) kinds := fun w => Contract.loop (fun _ => w.Unchanged)
  (fun b => (hbody b w).weaken (fun _ h => h) (fun r _ h => by cases r <;> exact h) fun _ _ h => h) b

end Quiet

section QuietRuns

theorem World.unchanged_tick (w : World) : w.Unchanged w.tick := ⟨rfl, rfl, Nat.le_succ _⟩

theorem World.unchanged_ciphered (w : World) (blocks : List Block) : w.Unchanged (w.ciphered blocks) :=
  ⟨rfl, rfl, Nat.le_add_right _ _⟩

theorem World.unchanged_derived (w : World) (iterations : BitVec 32) :
    w.Unchanged (w.derived iterations) :=
  ⟨rfl, rfl, le_rfl⟩

theorem record_quiet (event : Event) : Quiet (record event) [] := Quiet.of_ends fun w =>
  ⟨_, _, record_ends event w, ⟨rfl, rfl, le_rfl⟩, fun e he => by simp at he⟩

variable (os : Os)

theorem fillRandom_quiet {n : Nat} (buffer : Vector Byte n) : Quiet (fillRandom os buffer) [.io] := by
  unfold fillRandom
  split
  · refine Quiet.of_ends fun w => ⟨_, _, op_ends _ w, ?_⟩
    split_ifs
    · exact ⟨w.unchanged_tick, by simp⟩
    · exact ⟨w.unchanged_tick, by simp [Error.kind]⟩
  · refine Quiet.loop (fun s => ?_) _
    obtain ⟨buffer, filled⟩ := s
    simp only [getrandomStep]
    split_ifs
    · refine Quiet.of_ends fun w => ⟨_, _, op_ends _ w, ?_⟩
      split
      · exact ⟨w.unchanged_tick, by simp⟩
      · exact ⟨w.unchanged_tick, by simp⟩
      · exact ⟨w.unchanged_tick, by simp [Error.kind]⟩
    · exact Quiet.pure _
  · exact Quiet.of_ends fun w => ⟨_, _, op_ends _ w, w.unchanged_tick, by simp⟩

theorem pbkdf2HmacSha256_quiet (passphrase salt : List Byte) (iterations : BitVec 32) :
    Quiet (pbkdf2HmacSha256 passphrase salt iterations) [] := by
  have hblock (blockIdx : BitVec 32) : Quiet (pbkdf2Block passphrase salt iterations blockIdx) [] := by
    refine (record_quiet _).bind fun _ => Quiet.loop (fun s => ?_) _
    unfold pbkdf2Body
    split_ifs
    · exact (record_quiet _).bind fun _ => Quiet.pure _
    · exact Quiet.pure _
  exact (record_quiet _).bind fun _ => (hblock 1).bind fun t1 => (hblock 2).bind fun t2 => Quiet.pure _

theorem applyKeystreamFrom_quiet (start : BitVec 32) (key : SecretKey)
    (nonce : Vector Byte kNonceSizeBytes) (input : List Byte) :
    Quiet (applyKeystreamFrom os start key nonce input) [] := Quiet.of_ends fun w =>
  ⟨_, _, applyKeystreamFrom_ends key start nonce input os w, w.unchanged_ciphered _, by simp⟩

theorem activeBackend_quiet : Quiet (activeBackend os) [] := Quiet.of_ends fun w => by
  obtain ⟨backend, hends, -⟩ := activeBackend_ends os w
  exact ⟨_, _, hends, w.unchanged_tick, by simp⟩

theorem SecretKey.generate_quiet (size : KeySize) : Quiet (generate os size) [.io] :=
  (fillRandom_quiet os _).bind fun _ => Quiet.pure _

variable (key : SecretKey)

theorem Aes256Ctr.encrypt_quiet (plaintext : List Byte) :
    Quiet (encrypt os key plaintext) [.limit, .io] := by
  refine (Quiet.raiseIf (by simp [Error.kind])).bind fun _ => ?_
  refine ((fillRandom_quiet os _).weaken (by simp)).bind fun nonce => ?_
  exact ((applyKeystreamFrom_quiet os 0 key nonce plaintext).weaken (by simp)).bind fun _ => Quiet.pure _

theorem Aes256Ctr.decrypt_quiet (container : Container) : Quiet (decrypt os key container) [.limit] :=
  (Quiet.raiseIf (by simp [Error.kind])).bind fun _ =>
    (applyKeystreamFrom_quiet os 0 key _ _).weaken (by simp)

theorem AesGcm.decrypt_quiet (container : GcmContainer) (aad : List Byte) :
    Quiet (decrypt os key container aad) [.limit, .authentication] := by
  refine Quiet.of_ends fun w => ?_
  by_cases hlen : container.ciphertext.length ≤ kMaxPlaintextBytes
  · by_cases htag : tagOf key container.nonce aad container.ciphertext = container.tag
    · refine ⟨_, _, decrypt_accepts os w key container hlen htag, ?_, by simp⟩
      exact (w.unchanged_ciphered _).trans (World.unchanged_ciphered _ _)
    · exact ⟨_, _, decrypt_rejects os w key container hlen htag,
        w.unchanged_ciphered _, by simp [Error.kind]⟩
  · exact ⟨_, _, decrypt_refuses os w key container aad (by omega), .refl w, by simp [Error.kind]⟩

theorem AesGcm.computeTag_quiet (nonce : Vector Byte kGcmNonceSizeBytes) (aad ciphertext : List Byte) :
    Quiet (computeTag os key nonce aad ciphertext) [] := Quiet.of_ends fun w =>
  ⟨_, _, computeTag_ends os w key nonce aad ciphertext, w.unchanged_ciphered _, by simp⟩

/-- The key object is a part of the state of an encryption. -/
theorem AesGcm.encrypt_quiet (plaintext aad : List Byte) :
    Quiet (withState key (encrypt os plaintext aad)) [.limit, .io] := by
  intro w
  have hlift {α : Type} {p : Prog World Error α} {kinds : List ErrorKind} (h : Quiet p kinds)
      (hsub : kinds ⊆ [.limit, .io]) : Contract (fun s : World × SecretKey => w.Unchanged s.1) (lift p)
      (fun _ s => w.Unchanged s.1) fun e s => e.kind ∈ [.limit, .io] ∧ w.Unchanged s.1 :=
      (h.weaken hsub w).lift
  have hlimit (b : Prop) [Decidable b] (what : String) :
      Contract (fun s : World × SecretKey => w.Unchanged s.1)
      (raiseIf b (Error.limitError what)) (fun _ s => w.Unchanged s.1)
      fun (e : Error) s => e.kind ∈ [.limit, .io] ∧ w.Unchanged s.1 :=
    (Contract.raiseIf fun _ hs _ => ⟨by simp [Error.kind], hs⟩).weaken (fun _ h => h)
      (fun _ _ h => h.1) fun _ _ h => h
  have hop {α : Type} (f : World × SecretKey → Except Error α × (World × SecretKey))
      (hf : ∀ s, (∃ a, (f s).1 = .ok a) ∧ (f s).2.1 = s.1) :
      Contract (fun s : World × SecretKey => w.Unchanged s.1)
      (op f) (fun _ s => w.Unchanged s.1) fun (e : Error) s => e.kind ∈ [.limit, .io] ∧
      w.Unchanged s.1 := by
    refine Contract.op (fun s _ hs _ => by rwa [(hf s).2]) fun s e _ herror => ?_
    obtain ⟨a, ha⟩ := (hf s).1
    simp [ha] at herror
  have hrun : Contract (fun s : World × SecretKey => w.Unchanged s.1) (encrypt os plaintext aad)
      (fun _ s => w.Unchanged s.1) fun e s => e.kind ∈ [.limit, .io] ∧ w.Unchanged s.1 := by
    refine (hlimit _ _).bind fun _ => (hop _ fun s => ⟨⟨_, rfl⟩, rfl⟩).bind fun count =>
      (hlimit _ _).bind fun _ => ?_
    refine (hlift (fillRandom_quiet os _) (by simp)).bind fun nonce => ?_
    refine (hop _ fun s => ⟨⟨_, rfl⟩, rfl⟩).bind fun key => ?_
    refine (hlift (applyKeystreamFrom_quiet os 2 key nonce plaintext) (by simp)).bind
      fun ciphertext => ?_
    refine (hlift (computeTag_quiet os key nonce aad ciphertext) (by simp)).bind fun tag => ?_
    exact Contract.pure fun _ hs => hs
  exact Contract.withState (Q := fun _ _ => w.Unchanged)
    (hrun.weaken (fun _ h => h.1) (fun _ _ h => h) fun _ _ h => h)

end QuietRuns

section WrappedKeys

variable {os : Os} {w : World}

/-- The file of a wrapped key, before it is written. -/
theorem SecretKey.sealKey_effect (key : SecretKey) (passphrase : List Byte) (iterations : BitVec 32) :
    Contract w.Unchanged (key.sealKey os passphrase iterations)
      (fun sealed v => w.Unchanged v ∧ 1000 ≤ iterations.toNat ∧ sealed.1 ≠ [] ∧ ∃ salt nonce,
        sealed.1 ++ sealed.2.toList = wrappedKeyFile key passphrase iterations salt nonce)
      fun e v => e.kind ∈ [.limit, .io] ∧ w.Unchanged v := by
  refine (Contract.raiseIf fun _ hv _ => ⟨by simp [Error.kind], hv⟩).bind fun _ => ?_
  refine Contract.assume (fun _ h => h.2) fun hmin => ?_
  have hmin : 1000 ≤ iterations.toNat := Nat.not_lt.mp hmin
  refine ((fillRandom_quiet os _).step (by simp) (Triple.any _)).bind fun salt => ?_
  refine ((pbkdf2HmacSha256_quiet passphrase salt.toList iterations).step (by simp)
    (pbkdf2HmacSha256_triple passphrase iterations salt.toList (by omega))).bind fun derived => ?_
  refine Contract.assume (fun _ h => h.2) fun h => ?_
  obtain ⟨hderived, _⟩ := h
  refine ((fillRandom_quiet os _).step (by simp) (Triple.any _)).bind fun _ => ?_
  refine ((Aes256Ctr.encrypt_quiet os (wrapKeyOf derived) key.material).step (by simp)
    (Aes256Ctr.encrypt_triple os (wrapKeyOf derived) key.material)).bind fun container => ?_
  refine Contract.assume (fun _ h => h.2) fun h => ?_
  obtain ⟨_, nonce, _, hcontainer⟩ := h
  refine (Contract.raiseIf fun _ hv _ => ⟨by simp [Error.kind], hv.1⟩).bind fun _ => ?_
  -- the walk over the fields has room for all of them
  have hpart : plaintextPart key.sizeBytes salt iterations container =
      .ok (wrappedKeyPart key.size.marker salt iterations
        nonce (keystreamXor (wrapKeyOf derived) 0 nonce
          key.material)) := by rw [hcontainer, plaintextPart_wrapped]
  rw [hpart]
  refine Contract.pure fun v hv => ⟨hv.1.1, hmin, List.ne_nil_of_length_pos ?_, salt, nonce, ?_⟩
  · rw [length_wrappedKeyPart]
    exact Nat.lt_of_lt_of_le (by decide) (Nat.le_add_right _ _)
  · rw [wrappedKeyFile, ← hderived]

theorem SecretKey.writeSealed_effect (hw : w.Fresh) (path : String) {part : List Byte}
    (hpart : part ≠ []) (tag : Vector Byte kTagSize) :
    Contract (· = w) (writeSealed os path part tag)
      (fun _ => w.Stored path (part ++ tag.toList)) (SaveFails w path (part ++ tag.toList)) := by
  have htag : tag.toList ≠ [] := List.ne_nil_of_length_pos (by rw [Vector.length_toList]; decide)
  exact writeNewFile_effect hw path _ _ _
    ((writeLoop_sends os part).andThen (writeLoop_sends os tag.toList) htag)
    ((writeFileWin_sends os hpart).andThen (writeFileWin_sends os htag) htag)

/-- Before the file is open nothing has changed, and then the file holds a prefix of a wrapped key. -/
theorem SecretKey.saveToFileEncrypted_effect (hw : w.Fresh) (key : SecretKey) (path : String)
    (passphrase : List Byte) (iterations : BitVec 32) :
    Contract (· = w) (key.saveToFileEncrypted os path passphrase iterations)
      (fun _ v => 1000 ≤ iterations.toNat ∧ ∃ salt nonce,
        w.Stored path (wrappedKeyFile key passphrase iterations salt nonce) v)
      fun e v => (e.kind ∈ [.limit, .io] ∧ w.Unchanged v) ∨ 1000 ≤ iterations.toNat ∧ ∃ salt nonce,
        SaveFails w path (wrappedKeyFile key passphrase iterations salt nonce) e v := by
  rw [saveToFileEncrypted_eq]
  refine Contract.bind ((sealKey_effect (w := w) key passphrase iterations).weaken ?_ (fun _ _ h => h)
    fun _ _ h => .inl h) fun sealed => ?_
  · rintro v rfl
    exact .refl v
  refine Contract.assume (fun _ h => h.2) fun ⟨hmin, hpart, salt, nonce, hfile⟩ => ?_
  refine ⟨fun v a v' hv h => ⟨hmin, salt, nonce, ?_⟩, fun v e v' hv h => .inr ⟨hmin, salt, nonce, ?_⟩⟩
  · have hstored := (writeSealed_effect (hv.1.fresh hw) path hpart sealed.2).returns rfl h
    exact hfile ▸ hv.1.stored hstored
  · obtain ⟨hkind, hsame | ⟨part, hbegins, hall, hstored⟩⟩ :=
      (writeSealed_effect (hv.1.fresh hw) path hpart sealed.2).throws rfl h
    · exact ⟨hkind, .inl (hv.1.trans hsame)⟩
    · exact hfile ▸ ⟨hkind, .inr ⟨part, hbegins, hall, hv.1.stored hstored⟩⟩

/-- The reader behind the read of the file: none of its own reads is out of range. -/
theorem unwrap_quiet (passphrase fileData : List Byte) :
    Quiet (do
      let sizeMarker ← ofExcept (checkWrappedKeyHeader fileData)
      let fields ← ofExcept (readWrappedKeyFields fileData sizeMarker)
      unwrapKey os passphrase fileData fields) [.format, .authentication] := by
  intro w
  have hcheck : Contract w.Unchanged (ofExcept (checkWrappedKeyHeader fileData))
      (fun sizeMarker v => w.Unchanged v ∧ WrappedKeyHeader fileData ∧ sizeMarker = fileData[5]!)
      fun e v => e.kind ∈ [.format, .authentication] ∧ w.Unchanged v := by
    refine Contract.ofExcept (fun v sizeMarker hv hok => ?_) fun v e hv herror => ?_
    all_goals rcases checkWrappedKeyHeader_cases fileData with ⟨hheader, hcheck⟩ | ⟨_, what, hcheck⟩
    · exact ⟨hv, hheader, (Except.ok.inj (hcheck.symm.trans hok)).symm⟩
    · simp [hcheck] at hok
    · simp [hcheck] at herror
    · obtain rfl := Except.error.inj (hcheck.symm.trans herror)
      exact ⟨by simp [Error.kind], hv⟩
  refine hcheck.bind fun sizeMarker => Contract.assume (fun _ h => h.2) fun h => ?_
  obtain ⟨hheader, hmarker⟩ := h
  have hfields : Contract (fun v => w.Unchanged v ∧ WrappedKeyHeader fileData ∧
      sizeMarker = fileData[5]!)
      (ofExcept (readWrappedKeyFields fileData sizeMarker))
      (fun fields v => w.Unchanged v ∧ WrappedKeyFormat fileData ∧ fields = fieldsOf fileData)
      fun e v => e.kind ∈ [.format, .authentication] ∧ w.Unchanged v := by
    rw [hmarker, readWrappedKeyFields_eq hheader]
    split_ifs with hcount
    · refine Contract.ofExcept (fun v fields hv hok => by simp at hok) fun v e hv herror => ?_
      obtain rfl := Except.error.inj herror
      exact ⟨by simp [Error.kind], hv.1⟩
    · have hbounds := (countAt_bounds fileData).mp hcount
      refine Contract.ofExcept (fun v fields hv hok => ?_) fun v e hv herror => by simp at herror
      exact ⟨hv.1, ⟨hheader, hbounds.1, hbounds.2⟩, (Except.ok.inj hok).symm⟩
  refine hfields.bind fun fields => Contract.assume (fun _ h => h.2) fun h => ?_
  obtain ⟨hformat, hfields⟩ := h
  subst hfields
  have hunwrap : Quiet (unwrapKey os passphrase fileData (fieldsOf fileData))
      [.format, .authentication] := by
    refine Quiet.of_ends fun v => ?_
    by_cases htag : TagMatches passphrase fileData
    · refine ⟨_, _, unwrapKey_accepts hformat os v htag, ?_, by simp⟩
      exact (v.unchanged_derived _).trans (World.unchanged_ciphered _ _)
    · exact ⟨_, _, unwrapKey_rejects hformat os v htag, v.unchanged_derived _, by simp [Error.kind]⟩
  exact (hunwrap w).weaken (fun _ h => h.1) (fun _ _ h => h) fun _ _ h => h

theorem SecretKey.loadFromFileEncrypted_effect (hw : w.Fresh) (path : String) (passphrase : List Byte) :
    Contract (· = w) (loadFromFileEncrypted os path passphrase) (fun _ => w.Unchanged)
      fun e v => ReaderThrows os path [.io, .format, .authentication] e ∧ w.Unchanged v := by
  refine Contract.bind ((readFile_effect hw path).weaken (fun _ h => h) (fun _ _ h => h) ?_)
    fun fileData => ?_
  · exact fun e v h => ⟨.of_readFile List.mem_cons_self h.1, h.2⟩
  · exact (unwrap_quiet passphrase fileData w).weaken (fun _ h => h) (fun _ _ h => h)
      fun e v h => ⟨.inl (List.mem_cons_of_mem _ h.1), h.2⟩

end WrappedKeys

end Aeslib
