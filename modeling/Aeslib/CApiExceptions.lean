import Aeslib.CApi

/-!
Exceptions and the C boundary. The `try` block of an exported function lets nothing out, but its
argument checks and the handlers of `translate_exception` record a message, and that allocates. An
exception leaves the function exactly when such an allocation is refused.
-/

namespace Aeslib.CApi

open Prog

/-- The message can be recorded: what it allocates is not refused. -/
structure Env.Grants (env : Env) (lastError : StdString) (message : String) : Prop where
  converts : message.utf8ByteSize > env.std.smallCapacity → env.failures.denies .message = false
  fits : message.utf8ByteSize > lastError.capacity → env.failures.denies .lastError = false

section Record

variable {env : Env} {s : CState} {message : String}

theorem makeString_ends (h : message.utf8ByteSize > env.std.smallCapacity →
    env.failures.denies .message = false) :
    Ends (makeString env message) s (.ok ()) s := by
  unfold makeString
  split_ifs with hsize
  · exact ends_raiseIf_neg (by rw [h hsize]; decide)
  · exact (ends_pure _ _ _ _).mpr ⟨rfl, rfl⟩

theorem setLastError_granted (h : env.Grants s.lastError message) :
    ∃ capacity, Ends (setLastError env message) s (.ok ())
      { s with lastError := { text := message, capacity } } := by
  simp only [setLastError, (makeString_ends h.converts).bind_iff, ends_op]
  split_ifs with hroom hdenied
  · exact ⟨_, rfl⟩
  · rw [h.fits (Nat.lt_of_not_le hroom)] at hdenied
    exact absurd hdenied (by decide)
  · exact ⟨_, rfl⟩

theorem setLastError_refused (h : ¬env.Grants s.lastError message) :
    Ends (setLastError env message) s (.error .badAlloc) s := by
  by_cases hmessage : message.utf8ByteSize > env.std.smallCapacity → env.failures.denies .message = false
  · have hlast :
        ¬(message.utf8ByteSize > s.lastError.capacity → env.failures.denies .lastError = false) :=
      fun hlast => h ⟨hmessage, hlast⟩
    rw [Classical.not_imp, Bool.not_eq_false] at hlast
    rw [setLastError, (makeString_ends hmessage).bind_iff, ends_op, if_neg (Nat.not_le.mpr hlast.1),
      if_pos hlast.2]
  · rw [Classical.not_imp, Bool.not_eq_false] at hmessage
    refine Ends.bind_error _ ?_
    rw [makeString, if_pos hmessage.1]
    exact ends_raiseIf_pos hmessage.2

/-- A `std::bad_alloc` needs no memory to be recorded. -/
theorem grants_badAlloc {lastError : StdString}
    (hcapacity : env.std.smallCapacity ≤ lastError.capacity) :
    env.Grants lastError env.std.badAllocWhat where
  converts h := absurd env.std.badAlloc_small (Nat.not_le.mpr h)
  fits h := absurd (env.std.badAlloc_small.trans hcapacity) (Nat.not_le.mpr h)

end Record

namespace Exc

def what (env : Env) : Exc → String
  | .aeslib (.authenticationError what) => what
  | .aeslib (.limitError what) => what
  | .aeslib (.formatError what) => what
  | .aeslib (.ioError what) => what
  | .aeslib (.logicError what) => what
  | .aeslib .badAlloc => env.std.badAllocWhat
  | .aeslib (.filesystemError what) => what
  | .aeslib .outOfRange => ""
  | .badAlloc => env.std.badAllocWhat
  | .standard what => what
  | .nonStandard => "unknown non-standard-exception failure"

def status : Exc → Status
  | .aeslib (.authenticationError _) => .errAuthentication
  | .aeslib (.limitError _) => .errLimit
  | .aeslib (.formatError _) => .errFormat
  | .aeslib (.ioError _) => .errIo
  | _ => .errUnknown

theorem status_ne_ok (e : Exc) : e.status ≠ .ok := by
  rcases e with (_ | _ | _ | _ | _ | _ | _ | _) | _ | _ | _ <;> simp [status]

end Exc

theorem translateException_eq (env : Env) (e : Exc) :
    translateException env e = setLastError env (e.what env) >>= fun _ => pure e.status := by
  rcases e with (_ | _ | _ | _ | _ | _ | _ | _) | _ | _ | _ <;> rfl

/-- `to_bytes` makes its copy. -/
def Copied (failure : Option Exc) (data : List Byte) : Prop := failure = none ∨ data = []

/-- The parts of a `try` block that throw, in their order: a copy of an input, the library call `p`,
cut short or by itself, and the allocation of its result. -/
def Raised {σ α : Type} (env : Env) (p : Prog σ Error α) (w : σ) (result : Option Allocation) (e : Exc) :
    List (Option Exc × List Byte) → Prop
  | [] => (∃ cut, env.failures.library = some cut ∧ e = cut.exc) ∨ env.failures.library = none ∧
      ((∃ error w', Ends p w (.error error) w' ∧ e = .aeslib error) ∨ ∃ a w', Ends p w (.ok a) w' ∧
        ∃ allocation, result = some allocation ∧ env.failures.denies allocation = true ∧ e = .badAlloc)
  | (failure, data) :: rest =>
      (failure = some e ∧ data ≠ []) ∨ Copied failure data ∧ Raised env p w result e rest

/-- The exceptions that a call with accepted arguments catches. -/
def Call.Raises (env : Env) (s : CState) (e : Exc) : Call → Prop
  | keyGenerate keySizeBits outKey => outKey.isSome ∧ (keySizeBits = 128 ∨ keySizeBits = 256) ∧
      Raised env (SecretKey.generate env.os (if keySizeBits = 128 then .aes128 else .aes256)) s.world
        (some .handle) e []
  | keySaveToFile key path => ∃ handle path', key = some handle ∧ path = some path' ∧
      Raised env ((s.key handle).saveToFile env.os path') s.world none e []
  | keyLoadFromFile path outKey => ∃ path', path = some path' ∧ outKey.isSome ∧
      Raised env (SecretKey.loadFromFile env.os path') s.world (some .handle) e []
  | ctrEncrypt key plaintext outNonce outCiphertext outCiphertextLen => ∃ handle data,
      key = some handle ∧ plaintext.data? = some data ∧
      outNonce.isSome ∧ outCiphertext.isSome ∧ outCiphertextLen.isSome ∧
      Raised env (Aes256Ctr.encrypt env.os (s.key handle) data) s.world (some .output) e
        [(env.failures.text, data)]
  | ctrDecrypt key nonce ciphertext outPlaintext outPlaintextLen => ∃ handle nonce' data,
      key = some handle ∧ nonce = some nonce' ∧ ciphertext.data? = some data ∧
      outPlaintext.isSome ∧ outPlaintextLen.isSome ∧
      Raised env (Aes256Ctr.decrypt env.os (s.key handle) { nonce := nonce', ciphertext := data }) s.world
        (some .output) e [(env.failures.text, data)]
  | gcmEncrypt key plaintext aad outNonce outTag outCiphertext outCiphertextLen => ∃ handle data aadData,
      key = some handle ∧ plaintext.data? = some data ∧ aad.data? = some aadData ∧
      outNonce.isSome ∧ outTag.isSome ∧ outCiphertext.isSome ∧ outCiphertextLen.isSome ∧
      Raised env (AesGcm.encrypt env.os data aadData) (s.world, s.key handle) (some .output) e
        [(env.failures.text, data), (env.failures.aad, aadData)]
  | gcmDecrypt key nonce tag ciphertext aad outPlaintext outPlaintextLen => ∃ handle nonce' tag' data aadData,
      key = some handle ∧ nonce = some nonce' ∧ tag = some tag' ∧ ciphertext.data? = some data ∧
      aad.data? = some aadData ∧ outPlaintext.isSome ∧ outPlaintextLen.isSome ∧
      Raised env (AesGcm.decrypt env.os (s.key handle)
        { nonce := nonce', tag := tag', ciphertext := data } aadData) s.world
        (some .output) e [(env.failures.text, data), (env.failures.aad, aadData)]

/-- A message that the call has to record from the state `s` on: of a failed check, or of an
exception. -/
def Call.Records (env : Env) (s : CState) (call : Call) (message : String) : Prop :=
  call.entry env = .reject message ∨ ∃ e, call.Raises env s e ∧ message = e.what env

/-- Every end of the call is a status. -/
def NoExceptionLeaves (env : Env) (call : Call) (s : CState) : Prop :=
  ∀ r t, Ends (call.run env) s r t → ∃ status, r = .ok status

section Bodies

variable {lastError : StdString} (env : Env)

theorem library_keeps {α : Type} (p : Prog World Error α) :
    Preserves (·.lastError = lastError) (library env p) := by
  unfold library
  split
  · exact Preserves.op fun _ hs => hs
  · refine Preserves.focus ?_ _ p
    exact fun _ _ hs => hs

theorem libraryOn_keeps {α : Type} (handle : Nat) (p : Prog (World × SecretKey) Error α) :
    Preserves (·.lastError = lastError) (libraryOn env handle p) := by
  unfold libraryOn
  split
  · exact Preserves.op fun _ hs => hs
  · refine Preserves.focus ?_ _ p
    exact fun _ _ hs => hs

theorem toBytes_keeps (failure : Option Exc) (data : List Byte) :
    Preserves (·.lastError = lastError) (toBytes failure data) := by
  unfold toBytes
  split
  · split_ifs
    · exact Preserves.pure _
    · exact Preserves.op fun _ hs => hs
  · exact Preserves.pure _

theorem store_keeps (f : Memory → Memory) : Preserves (·.lastError = lastError) (store f) :=
  Preserves.op fun _ hs => hs

theorem readHandle_keeps (handle : Nat) : Preserves (·.lastError = lastError) (readHandle handle) :=
  Preserves.op fun _ hs => hs

theorem makeHandle_keeps (key : SecretKey) : Preserves (·.lastError = lastError) (makeHandle env key) :=
  (Preserves.raiseIf _).bind fun _ => Preserves.op fun _ hs => hs

theorem allocateOutput_keeps (bytes : List Byte) (out outLen : Nat) :
    Preserves (·.lastError = lastError) (allocateOutput env bytes out outLen) :=
  (Preserves.raiseIf _).bind fun _ => (Preserves.op fun _ hs => hs).bind fun _ =>
    (store_keeps _).bind fun _ => store_keeps _

/-- The `try` blocks record nothing. -/
theorem entry_keeps {call : Call} {body : Prog CState Exc Unit} (h : call.entry env = .attempt body) :
    Preserves (·.lastError = lastError) body := by
  cases call with
  | keyGenerate keySizeBits outKey =>
      simp only [Call.entry, aeslibKeyGenerate] at h
      split at h
      · cases h
      · split at h
        · cases h
        · cases h
          exact (library_keeps env _).bind fun _ => (makeHandle_keeps env _).bind fun _ => store_keeps _
  | keySaveToFile key path =>
      simp only [Call.entry, aeslibKeySaveToFile] at h
      split at h
      · cases h
        exact (readHandle_keeps _).bind fun _ => library_keeps env _
      · cases h
  | keyLoadFromFile path outKey =>
      simp only [Call.entry, aeslibKeyLoadFromFile] at h
      split at h
      · cases h
        exact (library_keeps env _).bind fun _ => (makeHandle_keeps env _).bind fun _ => store_keeps _
      · cases h
  | ctrEncrypt key plaintext outNonce outCiphertext outCiphertextLen =>
      simp only [Call.entry, aeslibCtrEncrypt] at h
      split at h
      · cases h
        exact (readHandle_keeps _).bind fun _ => (toBytes_keeps _ _).bind fun _ =>
          (library_keeps env _).bind fun _ =>
          (store_keeps _).bind fun _ => allocateOutput_keeps env _ _ _
      · cases h
  | ctrDecrypt key nonce ciphertext outPlaintext outPlaintextLen =>
      simp only [Call.entry, aeslibCtrDecrypt] at h
      split at h
      · cases h
        exact (toBytes_keeps _ _).bind fun _ => (readHandle_keeps _).bind fun _ =>
          (library_keeps env _).bind fun _ =>
          allocateOutput_keeps env _ _ _
      · cases h
  | gcmEncrypt key plaintext aad outNonce outTag outCiphertext outCiphertextLen =>
      simp only [Call.entry, aeslibGcmEncrypt] at h
      split at h
      · cases h
        exact (toBytes_keeps _ _).bind fun _ => (toBytes_keeps _ _).bind fun _ =>
          (libraryOn_keeps env _ _).bind fun _ =>
          (store_keeps _).bind fun _ => (store_keeps _).bind fun _ => allocateOutput_keeps env _ _ _
      · cases h
  | gcmDecrypt key nonce tag ciphertext aad outPlaintext outPlaintextLen =>
      simp only [Call.entry, aeslibGcmDecrypt] at h
      split at h
      · cases h
        exact (toBytes_keeps _ _).bind fun _ => (toBytes_keeps _ _).bind fun _ =>
          (readHandle_keeps _).bind fun _ =>
          (library_keeps env _).bind fun _ => allocateOutput_keeps env _ _ _
      · cases h

end Bodies

def Throws {α : Type} (p : Prog CState Exc α) (s : CState) (e : Exc) : Prop := ∃ t, Ends p s (.error e) t

section Throws

variable {env : Env} {s : CState} {e : Exc} {α β : Type}

theorem throws_bind {p : Prog CState Exc α} {f : α → Prog CState Exc β} :
    Throws (p >>= f) s e ↔ Throws p s e ∨ ∃ a t, Ends p s (.ok a) t ∧ Throws (f a) t e := by
  constructor
  · rintro ⟨u, h⟩
    rcases ends_bind.mp h with ⟨a, t, hp, hf⟩ | ⟨e', he, hp⟩
    · exact .inr ⟨a, t, hp, u, hf⟩
    · exact .inl ⟨u, Except.error.inj he ▸ hp⟩
  · rintro (⟨t, hp⟩ | ⟨a, t, hp, u, hf⟩)
    · exact ⟨t, hp.bind_error _⟩
    · exact ⟨u, hp.bind hf⟩

theorem throws_bind_of_ends {p : Prog CState Exc α} {f : α → Prog CState Exc β} {a : α} {t : CState}
    (h : Ends p s (.ok a) t) : Throws (p >>= f) s e ↔ Throws (f a) t e :=
  exists_congr fun _ => h.bind_iff

theorem throws_allocate {a : Allocation} {f : Unit → Prog CState Exc β} (hf : ¬Throws (f ()) s e) :
    Throws (allocate env a >>= f) s e ↔ env.failures.denies a = true ∧ e = .badAlloc := by
  by_cases hdenied : env.failures.denies a = true
  · have hthrow : Ends (allocate env a) s (.error .badAlloc) s := ends_raiseIf_pos hdenied
    rw [Throws, and_iff_right hdenied]
    simp only [hthrow.bind_error_iff, Except.error.injEq, exists_and_left, exists_eq, and_true]
  · have hgranted : Ends (allocate env a) s (.ok ()) s := ends_raiseIf_neg hdenied
    rw [throws_bind_of_ends hgranted]
    exact iff_of_false hf fun h => hdenied h.1

theorem throws_toBytes {failure : Option Exc} {data : List Byte} {f : List Byte → Prog CState Exc β} :
    Throws (toBytes failure data >>= f) s e ↔
      (failure = some e ∧ data ≠ []) ∨ Copied failure data ∧ Throws (f data) s e := by
  cases failure with
  | none => simp [toBytes, Copied, throws_bind_of_ends ((ends_pure data s s _).mpr ⟨rfl, rfl⟩)]
  | some e' =>
      cases data with
      | nil => simp [toBytes, Copied,
          throws_bind_of_ends ((ends_pure ([] : List Byte) s s _).mpr ⟨rfl, rfl⟩)]
      | cons b data =>
          have hthrow : Ends (toBytes (some e') (b :: data)) s (.error e') s :=
            (ends_raise _ _ _ _).mpr ⟨rfl, rfl⟩
          simp [Throws, hthrow.bind_error_iff, Copied, eq_comm]

theorem throws_readHandle {handle : Nat} {f : SecretKey → Prog CState Exc β} :
    Throws (readHandle handle >>= f) s e ↔ Throws (f (s.key handle)) s e :=
  throws_bind_of_ends (op_ends _ s)

theorem throws_store {g : Memory → Memory} {f : Unit → Prog CState Exc β} :
    Throws (store g >>= f) s e ↔ Throws (f ()) { s with memory := g s.memory } e :=
  throws_bind_of_ends (op_ends _ s)

theorem throws_allocateOutput {bytes : List Byte} {out outLen : Nat} :
    Throws (allocateOutput env bytes out outLen) s e ↔
    env.failures.denies .output = true ∧ e = .badAlloc :=
  throws_allocate fun ⟨_, h⟩ => by simp [ends_bind, store] at h

theorem throws_makeHandle {key : SecretKey} {g : Nat → Memory → Memory} :
    Throws (makeHandle env key >>= fun handle => store (g handle)) s e ↔
      env.failures.denies .handle = true ∧ e = .badAlloc := by
  rw [makeHandle, Prog.bind_bind]
  exact throws_allocate fun ⟨_, h⟩ => by simp [ends_bind, store] at h

/-- The library call, when what follows throws only because the result of the call is denied its
memory. -/
theorem throws_call {σ : Type} {q : Prog CState Exc α} {f : α → Prog CState Exc β} {p : Prog σ Error α}
    (get : CState → σ) (put : σ → CState → CState) {result : Option Allocation}
    (hcut : ∀ cut, env.failures.library = some cut → ∃ t, Ends q s (.error cut.exc) t)
    (hnone : env.failures.library = none → q = focus get put .aeslib p)
    (hf : ∀ a x, Throws (f a) (put x s) e ↔
      ∃ allocation, result = some allocation ∧ env.failures.denies allocation = true ∧ e = .badAlloc) :
    Throws (q >>= f) s e ↔ Raised env p (get s) result e [] := by
  cases hlibrary : env.failures.library with
  | some cut =>
      obtain ⟨t, hends⟩ := hcut cut hlibrary
      have hthrows : Throws (q >>= f) s e ↔ e = cut.exc := by
        simp only [Throws, hends.bind_error_iff, Except.error.injEq, exists_and_left, exists_eq,
          and_true]
      simp [hthrows, Raised, hlibrary]
  | none =>
      rw [hnone hlibrary, throws_bind, Raised, hlibrary]
      simp only [reduceCtorEq, false_and, exists_false, false_or, true_and]
      refine or_congr ⟨?_, ?_⟩ ⟨?_, ?_⟩
      · rintro ⟨t, h⟩
        obtain ⟨r, x, hp, hr, -⟩ := ends_focus.mp h
        cases r with
        | error error => exact ⟨error, x, hp, Except.error.inj hr⟩
        | ok a => exact absurd hr (by simp [Except.mapError])
      · rintro ⟨error, x, hp, rfl⟩
        exact ⟨_, ends_focus.mpr ⟨_, x, hp, rfl, rfl⟩⟩
      · rintro ⟨a, t, h, hthrow⟩
        obtain ⟨r, x, hp, hr, rfl⟩ := ends_focus.mp h
        cases r with
        | error error => exact absurd hr (by simp [Except.mapError])
        | ok a' =>
            obtain rfl := Except.ok.inj hr
            exact ⟨a, x, hp, (hf a x).mp hthrow⟩
      · rintro ⟨a, x, hp, hdenied⟩
        exact ⟨a, _, ends_focus.mpr ⟨_, x, hp, rfl, rfl⟩, (hf a x).mpr hdenied⟩

theorem throws_library {p : Prog World Error α} {f : α → Prog CState Exc β} (result : Option Allocation)
    (hf : ∀ a w, Throws (f a) { s with world := w } e ↔
      ∃ allocation, result = some allocation ∧ env.failures.denies allocation = true ∧ e = .badAlloc) :
    Throws (library env p >>= f) s e ↔ Raised env p s.world result e [] := by
  refine throws_call CState.world (fun w s => { s with world := w }) (fun cut hcut => ?_)
    (fun hnone => ?_) hf
  · rw [library, hcut]
    exact ⟨_, op_ends _ s⟩
  · rw [library, hnone]

/-- The last call of a block. -/
theorem throws_library_last {p : Prog World Error α} :
    Throws (library env p) s e ↔ Raised env p s.world none e [] := by
  have hpure (a : α) (t : CState) : ¬Throws (pure a : Prog CState Exc α) t e :=
    fun ⟨_, h⟩ => by simp at h
  rw [← throws_library (f := pure) none fun a w => iff_of_false (hpure a _) (by simp), throws_bind,
    or_iff_left]
  rintro ⟨a, t, -, hthrow⟩
  exact hpure a t hthrow

theorem throws_libraryOn {handle : Nat} {p : Prog (World × SecretKey) Error α}
    {f : α → Prog CState Exc β} (result : Option Allocation)
    (hf : ∀ a (x : World × SecretKey), Throws (f a) { s.setKey handle x.2 with world := x.1 } e ↔
      ∃ allocation, result = some allocation ∧ env.failures.denies allocation = true ∧ e = .badAlloc) :
    Throws (libraryOn env handle p >>= f) s e ↔ Raised env p (s.world, s.key handle) result e [] := by
  refine throws_call (fun s => (s.world, s.key handle))
    (fun x s => { s.setKey handle x.2 with world := x.1 })
    (fun cut hcut => ?_) (fun hnone => ?_) hf
  · rw [libraryOn, hcut]
    exact ⟨_, op_ends _ s⟩
  · rw [libraryOn, hnone]

theorem throws_denied {a : Allocation} : (env.failures.denies a = true ∧ e = .badAlloc) ↔
    ∃ allocation, some a = some allocation ∧ env.failures.denies allocation = true ∧
    e = .badAlloc := by simp

/-- The exceptions of a `try` block, by its parts. -/
theorem throws_iff_raises {call : Call} {body : Prog CState Exc Unit}
    (h : call.entry env = .attempt body) :
    Throws body s e ↔ call.Raises env s e := by
  cases call with
  | keyGenerate keySizeBits outKey =>
      simp only [Call.entry, aeslibKeyGenerate] at h
      split at h
      · cases h
      · split at h
        · cases h
        · next hbits =>
            cases h
            have hsize : keySizeBits = 128 ∨ keySizeBits = 256 := by omega
            rw [throws_library (some .handle) fun _ _ => throws_makeHandle.trans throws_denied]
            exact ⟨fun h => ⟨rfl, hsize, h⟩, fun h => h.2.2⟩
  | keySaveToFile key path =>
      simp only [Call.entry, aeslibKeySaveToFile] at h
      split at h
      · cases h
        rw [throws_readHandle, throws_library_last]
        simp [Call.Raises]
      · cases h
  | keyLoadFromFile path outKey =>
      simp only [Call.entry, aeslibKeyLoadFromFile] at h
      split at h
      · cases h
        rw [throws_library (some .handle) fun _ _ => throws_makeHandle.trans throws_denied]
        simp [Call.Raises]
      · cases h
  | ctrEncrypt key plaintext outNonce outCiphertext outCiphertextLen =>
      simp only [Call.entry, aeslibCtrEncrypt] at h
      split at h
      · next hdata =>
          cases h
          rw [throws_readHandle, throws_toBytes, throws_library (some .output) fun _ _ =>
            throws_store.trans (throws_allocateOutput.trans throws_denied)]
          simp [Call.Raises, hdata, Raised]
      · cases h
  | ctrDecrypt key nonce ciphertext outPlaintext outPlaintextLen =>
      simp only [Call.entry, aeslibCtrDecrypt] at h
      split at h
      · next hdata =>
          cases h
          rw [throws_toBytes, throws_readHandle, throws_library (some .output) fun _ _ =>
            throws_allocateOutput.trans throws_denied]
          simp [Call.Raises, hdata, Raised]
      · cases h
  | gcmEncrypt key plaintext aad outNonce outTag outCiphertext outCiphertextLen =>
      simp only [Call.entry, aeslibGcmEncrypt] at h
      split at h
      · next hdata haad =>
          cases h
          rw [throws_toBytes, throws_toBytes, throws_libraryOn (some .output) fun _ _ =>
            throws_store.trans (throws_store.trans (throws_allocateOutput.trans throws_denied))]
          simp [Call.Raises, hdata, haad, Raised]
      · cases h
  | gcmDecrypt key nonce tag ciphertext aad outPlaintext outPlaintextLen =>
      simp only [Call.entry, aeslibGcmDecrypt] at h
      split at h
      · next hdata haad =>
          cases h
          rw [throws_toBytes, throws_toBytes, throws_readHandle, throws_library (some .output) fun _ _ =>
            throws_allocateOutput.trans throws_denied]
          simp [Call.Raises, hdata, haad, Raised]
      · cases h

theorem not_raises_of_reject {call : Call} {rejected : String} (h : call.entry env = .reject rejected) :
    ¬call.Raises env s e := by
  intro hraises
  cases call with
  | keyGenerate keySizeBits outKey =>
      obtain ⟨hout, hsize, -⟩ := hraises
      obtain ⟨out, rfl⟩ := Option.isSome_iff_exists.mp hout
      rw [Call.entry, aeslibKeyGenerate, if_neg (by omega)] at h
      cases h
  | keySaveToFile key path =>
      obtain ⟨_, _, rfl, rfl, -⟩ := hraises
      cases h
  | keyLoadFromFile path outKey =>
      obtain ⟨_, rfl, hout, -⟩ := hraises
      obtain ⟨out, rfl⟩ := Option.isSome_iff_exists.mp hout
      cases h
  | ctrEncrypt key plaintext outNonce outCiphertext outCiphertextLen =>
      obtain ⟨_, _, rfl, hdata, hnonce, hout, hlen, -⟩ := hraises
      obtain ⟨_, rfl⟩ := Option.isSome_iff_exists.mp hnonce
      obtain ⟨_, rfl⟩ := Option.isSome_iff_exists.mp hout
      obtain ⟨_, rfl⟩ := Option.isSome_iff_exists.mp hlen
      simp only [Call.entry, aeslibCtrEncrypt, hdata] at h
      cases h
  | ctrDecrypt key nonce ciphertext outPlaintext outPlaintextLen =>
      obtain ⟨_, _, _, rfl, rfl, hdata, hout, hlen, -⟩ := hraises
      obtain ⟨_, rfl⟩ := Option.isSome_iff_exists.mp hout
      obtain ⟨_, rfl⟩ := Option.isSome_iff_exists.mp hlen
      simp only [Call.entry, aeslibCtrDecrypt, hdata] at h
      cases h
  | gcmEncrypt key plaintext aad outNonce outTag outCiphertext outCiphertextLen =>
      obtain ⟨_, _, _, rfl, hdata, haad, hnonce, htag, hout, hlen, -⟩ := hraises
      obtain ⟨_, rfl⟩ := Option.isSome_iff_exists.mp hnonce
      obtain ⟨_, rfl⟩ := Option.isSome_iff_exists.mp htag
      obtain ⟨_, rfl⟩ := Option.isSome_iff_exists.mp hout
      obtain ⟨_, rfl⟩ := Option.isSome_iff_exists.mp hlen
      simp only [Call.entry, aeslibGcmEncrypt, hdata, haad] at h
      cases h
  | gcmDecrypt key nonce tag ciphertext aad outPlaintext outPlaintextLen =>
      obtain ⟨_, _, _, _, _, rfl, rfl, rfl, hdata, haad, hout, hlen, -⟩ := hraises
      obtain ⟨_, rfl⟩ := Option.isSome_iff_exists.mp hout
      obtain ⟨_, rfl⟩ := Option.isSome_iff_exists.mp hlen
      simp only [Call.entry, aeslibGcmDecrypt, hdata, haad] at h
      cases h

theorem records_of_reject {call : Call} {rejected message : String}
    (h : call.entry env = .reject rejected) : call.Records env s message ↔ message = rejected := by
  rw [Call.Records, h, Entry.reject.injEq,
    or_iff_left fun ⟨_, hraises, _⟩ => not_raises_of_reject h hraises, eq_comm]

theorem records_of_attempt {call : Call} {body : Prog CState Exc Unit} {message : String}
    (h : call.entry env = .attempt body) :
    call.Records env s message ↔ ∃ e, Throws body s e ∧ message = e.what env := by
  simp only [Call.Records, h, reduceCtorEq, false_or, throws_iff_raises h]

end Throws

section Boundary

variable (env : Env) (call : Call) (s : CState)

theorem record_leaves_iff {message : String} (status : Status) :
    (∀ r t, Ends (setLastError env message >>= fun _ => pure status) s r t → ∃ status',
      r = .ok status') ↔ env.Grants s.lastError message := by
  constructor
  · intro h
    by_contra hrefused
    obtain ⟨_, hok⟩ := h _ s ((setLastError_refused hrefused).bind_error _)
    exact absurd hok (by simp)
  · intro hgrants r t h
    obtain ⟨_, hset⟩ := setLastError_granted hgrants
    have hpure := (hset.bind_iff (f := fun _ => pure status)).mp h
    exact ⟨status, ((ends_pure _ _ _ _).mp hpure).1⟩

/-- **No exception leaves a call** if and only if the memory for every message that it has to record
is granted. -/
theorem noExceptionLeaves_iff :
    NoExceptionLeaves env call s ↔
      ∀ message, call.Records env s message → env.Grants s.lastError message := by
  unfold NoExceptionLeaves Call.run
  cases hentry : call.entry env with
  | reject rejected =>
      simp only [Entry.run, record_leaves_iff, records_of_reject hentry, forall_eq]
  | attempt body =>
      have hkeeps {e : Exc} {t : CState} (h : Ends body s (.error e) t) : t.lastError = s.lastError :=
        entry_keeps env hentry rfl h
      simp only [records_of_attempt hentry]
      constructor
      · rintro h message ⟨e, ⟨t, hbody⟩, rfl⟩
        rw [← hkeeps hbody, ← record_leaves_iff env t e.status]
        intro r u hrecord
        rw [← translateException_eq] at hrecord
        exact h r u (ends_tryCatch.mpr (.inr ⟨e, t, hbody.bind_error _, hrecord⟩))
      · intro h r u hrun
        rcases ends_tryCatch.mp hrun with ⟨status, rfl, _⟩ | ⟨e, t, hbody, hrecord⟩
        · exact ⟨status, rfl⟩
        · rcases ends_bind.mp hbody with ⟨_, _, _, hpure⟩ | ⟨e', he, hbody⟩
          · exact absurd ((ends_pure _ _ _ _).mp hpure).1 (by simp)
          · obtain rfl := Except.error.inj he
            rw [translateException_eq] at hrecord
            exact record_leaves_iff env t e.status |>.mpr (hkeeps hbody ▸ h _ ⟨e, ⟨t, hbody⟩, rfl⟩)
              r u hrecord

end Boundary

/-- A platform that serves, with strings of 15 characters in place, where `denies` says which
allocations fail. -/
def Env.plain (denies : Allocation → Bool) : Env where
  os := Os.plain
  std := { smallCapacity := 15, badAllocWhat := "std::bad_alloc", newCapacity := fun _ size => size,
           badAlloc_small := by decide }
  failures := { denies, text := none, aad := none, library := none }

/-- One handle to the zero key, no error so far, and `nonce` in every nonce variable of the caller. -/
def CState.start (std : StdLibrary) (nonce : Vector Byte kNonceSizeBytes) : CState where
  world := World.empty
  handles := [{}]
  buffers := []
  lastError := { text := "", capacity := std.smallCapacity }
  memory := {
    keys := fun _ => 0
    buffers := fun _ => 0
    lengths := fun _ => 0
    nonces := fun _ => nonce
    tags := fun _ => Vector.replicate _ 0 }

/-- `aeslib_key_generate(128, NULL)` without memory for the message. -/
theorem not_noExceptionLeaves_nullKey :
    ¬NoExceptionLeaves (Env.plain (· = .message)) (.keyGenerate 128 none)
      (CState.start (Env.plain (· = .message)).std (Vector.replicate _ 0)) := by
  intro h
  have hrefused (lastError : StdString) :
      ¬(Env.plain (· = .message)).Grants lastError "out_key must not be null" :=
    fun hgrants => absurd (hgrants.converts (by decide)) (by decide)
  obtain ⟨_, hok⟩ := h _ _ ((setLastError_refused (hrefused _)).bind_error _)
  exact absurd hok (by simp)

end Aeslib.CApi
