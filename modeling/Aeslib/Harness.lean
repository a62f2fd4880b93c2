import Aeslib.KeyFileExact
import Aeslib.MessageExchange
import Aeslib.Operations

/-!
The end-to-end harness of `main.cpp`: it encrypts a sample under a new key, stores ciphertext and
key in two files, loads both back, decrypts and compares. On no platform does the comparison fail: a
run that ends reports a round trip or an exception, and on a platform that serves the run ends and
reports the round trip.
-/

namespace Aeslib

open Prog SecretKey

namespace Harness

/-- What has gone to `std::cout` and to `std::cerr`. -/
structure Console where
  out : String := ""
  err : String := ""

inductive ExitCode where
  | success
  | failure
  deriving DecidableEq

/-- `e.what()`. -/
def what (os : Os) : Error → String
  | .ioError text | .formatError text | .limitError text | .authenticationError text | .logicError text
  | .filesystemError text => text
  | .badAlloc => os.badAllocWhat
  | .outOfRange => ""

def print (text : String) : Prog (World × Console) Error Unit := op fun (w, console) =>
  (.ok (), (w, { console with out := console.out ++ text }))

def printError (text : String) : Prog (World × Console) Error Unit := op fun (w, console) =>
  (.ok (), (w, { console with err := console.err ++ text }))

def kHardwareBackendName : Arch → String
  | .x86 => "Hardware (AES-NI)"
  | .arm64 => "Hardware (ARM Crypto Extensions)"
  | .riscv64 => "Hardware (RV64 Zkne)"
  | .other => "Hardware"

def makeSamplePlaintext : List Byte :=
  let text := "The quick brown fox jumps over the lazy dog. AES-256-CTR round-trip " ++
    "test payload for the Spara take-home challenge.\n"
  text.toList.map fun c => BitVec.ofNat 8 c.toNat

def plaintextPath : String := "sample_plaintext.bin"

def keyPath : String := "sample.key"

def ciphertextPath : String := "sample_ciphertext.aesc"

/-- A path on a stream is quoted. -/
def quoted (path : String) : String := "\"" ++ path ++ "\""

/-- `std::filesystem::exists`: whether there is a file, unless that cannot be told. -/
def fileExists (os : Os) (path : String) : Prog World Error Bool := op fun w =>
  match os.statusError w.clock path with
  | some text => (.error (.filesystemError text), w.tick)
  | none => (.ok (w.files path).isSome, w.tick)

/-- Loads the sample plaintext, or generates it. -/
def samplePlaintext (os : Os) : Prog (World × Console) Error (List Byte) := do
  if ← lift (fileExists os plaintextPath) then
    let plaintext ← lift (readFile os plaintextPath)
    print ("Loaded existing sample plaintext from " ++ quoted plaintextPath ++ "\n")
    pure plaintext
  else
    let plaintext := makeSamplePlaintext
    lift (writeFile os plaintextPath plaintext)
    print ("Generated sample plaintext at " ++ quoted plaintextPath ++ "\n")
    pure plaintext

/-- The `try` block of `main`. -/
def roundTrip (os : Os) : Prog (World × Console) Error ExitCode := do
  let backend ← lift (activeBackend os)
  print ("Backend in use: " ++
    (if backend = .hardware then kHardwareBackendName os.arch else "Software") ++ "\n")
  let plaintext ← samplePlaintext os
  let key ← lift (generate os .aes256)
  let container ← lift (Aes256Ctr.encrypt os key plaintext)
  lift (saveContainer os container ciphertextPath)
  lift (key.saveToFile os keyPath)
  print ("Stored ciphertext at " ++ quoted ciphertextPath ++ " and key at " ++ quoted keyPath ++ "\n")
  let loadedContainer ← lift (loadContainer os ciphertextPath)
  let loadedKey ← lift (loadFromFile os keyPath)
  let decrypted ← lift (Aes256Ctr.decrypt os loadedKey loadedContainer)
  if decrypted = plaintext then
    print ("SUCCESS: round-tripped plaintext matches the original (" ++ toString plaintext.length ++
      " bytes).\n")
    pure .success
  else
    print "FAILURE: round-tripped plaintext does not match the original.\n"
    pure .failure

def main (os : Os) : Prog (World × Console) Error ExitCode :=
  tryCatch (roundTrip os) fun e => do
    printError ("FAILURE: " ++ what os e ++ "\n")
    pure .failure

/-- The descriptors are those of `w`, and the files are `files`. -/
structure Has (w : World) (files : String → Option (List Byte)) (v : World) : Prop where
  files : v.files = files
  fds : v.fds = w.fds
  clock : w.clock ≤ v.clock

section Any

variable {os : Os} {w : World} {files : String → Option (List Byte)}

theorem Has.fresh {v : World} (hv : Has w files v) (hw : w.Fresh) : v.Fresh := hw.of_fds hv.fds hv.clock

theorem has_quiet {α : Type} {p : Prog World Error α} {kinds : List ErrorKind} (h : Quiet p kinds) :
    Contract (Has w files) p (fun _ => Has w files) fun e _ => e.kind ∈ kinds where
  returns v a v' hv hp := by
    have hsame := (h v).returns (.refl v) hp
    exact ⟨hsame.files.trans hv.files, hsame.fds.trans hv.fds, hv.clock.trans hsame.clock⟩
  throws v e v' _ hp := ((h v).throws (.refl v) hp).1

theorem has_reader {α : Type} {p : Prog World Error α} {exc : Error → Prop} (hw : w.Fresh)
    (h : ∀ u : World, u.Fresh →
      Contract (· = u) p (fun _ => u.Unchanged) fun e v => exc e ∧ u.Unchanged v) :
    Contract (Has w files) p (fun _ => Has w files) fun e _ => exc e where
  returns v a v' hv hp := by
    have hsame := (h v (hv.fresh hw)).returns rfl hp
    exact ⟨hsame.files.trans hv.files, hsame.fds.trans hv.fds, hv.clock.trans hsame.clock⟩
  throws v e v' hv hp := ((h v (hv.fresh hw)).throws rfl hp).1

theorem has_writer {p : Prog World Error Unit} {path : String} {data : List Byte} (hw : w.Fresh)
    (h : ∀ u : World, u.Fresh →
      Contract (· = u) p (fun _ => u.Stored path data) (SaveFails u path data)) :
    Contract (Has w files) p (fun _ => Has w (Function.update files path (some data)))
      fun e _ => e.kind ∈ [.io] where
  returns v a v' hv hp := by
    have hstored := (h v (hv.fresh hw)).returns rfl hp
    exact ⟨by rw [hstored.files, hv.files], hstored.fds.trans hv.fds, hv.clock.trans hstored.clock⟩
  throws v e v' hv hp := List.mem_singleton.mpr ((h v (hv.fresh hw)).throws rfl hp).1

/-- Nothing has gone to `std::cerr`. -/
def Silent (console : Console) : Prop := console.err = ""

/-- The plaintext of a run from `w`. -/
def sample (w : World) : List Byte := (w.files plaintextPath).getD makeSamplePlaintext

/-- Nothing stands in the way of a run: every request is served, the sample is within the limit of
the mode, and on Windows its container fits a request. -/
structure Favourable (os : Os) (w : World) : Prop where
  serves : os.Serves
  limit : (sample w).length ≤ Aes256Ctr.kMaxPlaintextBytes
  request : os.family = .windows → 25 + (sample w).length < 2 ^ 32

/-- What can end the `try` block: an exception of the library, a file whose end is not found, or the
answer of `std::filesystem::exists`. -/
inductive Thrown (os : Os) : Error → Prop where
  | library {e : Error} (hkind : e.kind ∈ [.io, .format, .limit]) : Thrown os e
  | endless {path : String} (hpath : path ∈ [plaintextPath, ciphertextPath])
      (hend : os.Endless path) : Thrown os .badAlloc
  | status {time : Nat} {text : String} (hstatus : os.statusError time plaintextPath = some text) :
      Thrown os (.filesystemError text)

theorem Thrown.of_kind {kinds : List ErrorKind} (hsub : kinds ⊆ [.io, .format, .limit]) (e : Error)
    (h : e.kind ∈ kinds) :
    Thrown os e := .library (hsub h)

theorem Thrown.of_reader {kinds : List ErrorKind} {path : String} (hsub : kinds ⊆ [.io, .format, .limit])
    (hpath : path ∈ [plaintextPath, ciphertextPath]) (e : Error)
    (h : ReaderThrows os path kinds e) : Thrown os e := by
  obtain hkind | ⟨rfl, hend⟩ := h
  · exact .library (hsub hkind)
  · exact .endless hpath hend

/-- A library call of the harness. -/
theorem silent_call {α : Type} {p : Prog World Error α} {exc : Error → Prop} {pre : World → Prop}
    {post : α → World → Prop} (h : Contract pre p post fun e _ => exc e)
    (hexc : ∀ e, exc e → Thrown os e)
    (hends : Favourable os w → ∀ v, pre v → ∃ a v', Ends p v (.ok a) v') :
    Served (Favourable os w) (fun s => pre s.1 ∧ Silent s.2) (lift p)
      (fun a s => post a s.1 ∧ Silent s.2) fun e s => Thrown os e ∧ Silent s.2 where
  toContract := (h.lift_frame Silent).weaken (fun _ h => h) (fun _ _ h => h) fun e _ h =>
    ⟨hexc e h.1, h.2⟩
  ends hφ s hs := by
    obtain ⟨a, v', hp⟩ := hends hφ s.1 hs.1
    exact ⟨a, (v', s.2), hp.lift s.2⟩

/-- A library call of which something is known about its value. -/
theorem silent_value {α : Type} {p : Prog World Error α} {exc : Error → Prop}
    {files' : String → Option (List Byte)} {value : α → World → Prop}
    (h : Contract (Has w files) p (fun _ => Has w files') fun e _ => exc e)
    (hexc : ∀ e, exc e → Thrown os e) (hvalue : Triple (Has w files) p value)
    (hends : Favourable os w → ∀ v, Has w files v → ∃ a v', Ends p v (.ok a) v') :
    Served (Favourable os w) (fun s => Has w files s.1 ∧ Silent s.2) (lift p)
      (fun a s => (value a s.1 ∧ Has w files' s.1) ∧ Silent s.2) fun e s => Thrown os e ∧ Silent s.2 :=
  silent_call ((h.and (Contract.of_triple hvalue)).weaken (fun _ h => h) (fun _ _ h => h.symm)
    fun _ _ h => h.1) hexc hends

theorem silent_print (text : String) {pre : World → Prop} {exc : Error → World × Console → Prop} :
    Served (Favourable os w) (fun s => pre s.1 ∧ Silent s.2) (print text) (fun _ s => pre s.1 ∧
      Silent s.2) exc where
  toContract := Contract.op (fun _ _ hs _ => hs) fun _ _ _ herror => by simp at herror
  ends _ s _ := ⟨(), _, op_ends _ s⟩

theorem writeFile_ends (h : Favourable os w) {data : List Byte}
    (hlen : data.length ≤ 25 + (sample w).length) (v : World) (path : String) :
    ∃ a v', Ends (writeFile os path data) v (.ok a) v' := by
  obtain ⟨v', hwrite, -⟩ :=
    writeFile_serves h.serves (fun hfamily => hlen.trans_lt (h.request hfamily)) v path
  exact ⟨(), v', hwrite⟩

theorem length_serialize (container : Container) :
    (serialize container).length = 25 + container.ciphertext.length := by
  have hnonce : kNonceSizeBytes = 12 := rfl
  simp [serialize, serializeWith]
  omega

/-- What the round trip leaves: the sample, its ciphertext and the key, each in its file. -/
structure RoundTripped (w v : World) : Prop where
  length : (sample w).length ≤ Aes256Ctr.kMaxPlaintextBytes
  fds : v.fds = w.fds
  stored : ∃ key nonce, v.files = Function.update (Function.update (Function.update w.files
    plaintextPath (some (sample w)))
    ciphertextPath (some (serialize { nonce, ciphertext := keystreamXor key 0 nonce (sample w) })))
    keyPath (some key.keyFileBytes)

theorem fileExists_effect (os : Os) (w : World) : Contract (Has w w.files) (fileExists os plaintextPath)
    (fun found v => found = (w.files plaintextPath).isSome ∧ Has w w.files v) fun e _ =>
    Thrown os e := by
  refine Contract.op (fun v found hv hok => ?_) fun v e hv herror => ?_
  · split at hok
    · simp at hok
    · exact ⟨by rw [← Except.ok.inj hok, hv.files], hv.files, hv.fds, hv.clock.trans (Nat.le_succ _)⟩
  · split at herror
    · next hstatus => exact Except.error.inj herror ▸ .status hstatus
    · simp at herror

theorem fileExists_serves (hos : os.Serves) (v : World) :
    ∃ a v', Ends (fileExists os plaintextPath) v (.ok a) v' :=
  ⟨_, _, by rw [fileExists, ends_op, hos.statusError]⟩

theorem samplePlaintext_served (hw : w.Fresh) :
    Served (Favourable os w) (fun s => Has w w.files s.1 ∧ Silent s.2) (samplePlaintext os)
      (fun plaintext s => (plaintext = sample w ∧
        Has w (Function.update w.files plaintextPath (some plaintext)) s.1) ∧
        Silent s.2) fun e s => Thrown os e ∧ Silent s.2 := by
  refine (silent_call (fileExists_effect os w) (fun _ h => h) fun hφ v _ =>
    fileExists_serves hφ.serves v).bind
    fun found => Served.assume (fun _ h => h.1.1) fun hfound => ?_
  cases hsample : w.files plaintextPath with
  | none =>
      have hdefault : makeSamplePlaintext = sample w := by rw [sample, hsample, Option.getD_none]
      rw [hsample] at hfound
      rw [hfound, Option.isSome_none, if_neg (by simp)]
      have hwrite : Contract (Has w w.files) (writeFile os plaintextPath makeSamplePlaintext) _ _ :=
        has_writer hw fun u hu => writeFile_effect hu plaintextPath makeSamplePlaintext
      refine ((silent_call hwrite (Thrown.of_kind (by simp)) fun hφ v _ =>
        writeFile_ends hφ ?_ v _).of_pre fun _ h => ⟨h.1.2, h.2⟩).bind
        fun _ => (silent_print _).bind fun _ => Served.pure fun s hs => ⟨⟨hdefault, hs.1⟩, hs.2⟩
      rw [hdefault]
      exact Nat.le_add_left _ _
  | some content =>
      have hcontent : content = sample w := by rw [sample, hsample, Option.getD_some]
      rw [hsample] at hfound
      rw [hfound, Option.isSome_some, if_pos rfl]
      have hread : Contract (Has w w.files) (readFile os plaintextPath) (fun _ => Has w w.files)
          fun e _ => ReadFileThrows os plaintextPath e :=
          has_reader hw fun u hu => readFile_effect hu plaintextPath
      have hthrown (e : Error) (h : ReadFileThrows os plaintextPath e) : Thrown os e := by
        have hreader : ReaderThrows os plaintextPath [.io] e := .of_readFile List.mem_cons_self h
        exact .of_reader (by simp) (by simp) e hreader
      have hvalue : Triple (Has w w.files) (readFile os plaintextPath) fun data _ => data = content := by
        intro v data v' hv h
        obtain ⟨e, he, -⟩ | ⟨data', hdata', hok⟩ := (readFile_result h).2
        · simp at he
        · rw [hv.files, hsample] at hdata'
          exact (Except.ok.inj hok).trans (Option.some.inj hdata').symm
      have hends (hφ : Favourable os w) (v : World) (hv : Has w w.files v) :
          ∃ a v', Ends (readFile os plaintextPath) v (.ok a) v' := by
        obtain ⟨v', hread, -⟩ := readFile_serves hφ.serves (hv.files ▸ hsample)
        exact ⟨content, v', hread⟩
      refine ((silent_value hread hthrown hvalue hends).of_pre fun _ h => ⟨h.1.2, h.2⟩).bind
        fun data => Served.assume (fun _ h => h.1.1) fun hdata => ?_
      refine ((silent_print _).of_pre fun _ h => ⟨h.1.2, h.2⟩).bind fun _ => Served.pure fun s hs => ?_
      refine ⟨⟨hdata.trans hcontent, ?_⟩, hs.2⟩
      rw [hdata, ← hsample, Function.update_eq_self]
      exact hs.1

/-- The `try` block never comes to its last branch. -/
theorem roundTrip_served (hw : w.Fresh) :
    Served (Favourable os w) (fun s => Has w w.files s.1 ∧ Silent s.2) (roundTrip os)
      (fun code s => (code = .success ∧ RoundTripped w s.1) ∧ Silent s.2)
      fun e s => Thrown os e ∧ Silent s.2 := by
  have hbackend (v : World) : ∃ a v', Ends (activeBackend os) v (.ok a) v' := by
    obtain ⟨backend, hends, -⟩ := activeBackend_ends os v
    exact ⟨backend, _, hends⟩
  refine (silent_call (has_quiet (activeBackend_quiet os)) (Thrown.of_kind (by simp)) fun _ v _ =>
    hbackend v).bind fun backend =>
    (silent_print _).bind fun _ => ?_
  refine (samplePlaintext_served hw).bind fun plaintext =>
    Served.assume (fun _ h => h.1.1) fun hsample => ?_
  subst hsample
  refine ((silent_call (has_quiet (generate_quiet os .aes256)) (Thrown.of_kind (by simp)) fun hφ v _ =>
    ⟨_, _, generate_serves hφ.serves v .aes256⟩).of_pre fun _ h => ⟨h.1.2, h.2⟩).bind fun key => ?_
  -- the container is the encryption of the sample
  refine (silent_value (has_quiet (Aes256Ctr.encrypt_quiet os key (sample w))) (Thrown.of_kind (by simp))
    (fun _ _ _ _ h => Aes256Ctr.encrypt_triple os key (sample w) trivial h) fun hφ v _ =>
      ⟨_, _, Aes256Ctr.encrypt_ends key hφ.limit (generateNonce_serves hφ.serves v)⟩).bind
        fun container => ?_
  refine Served.assume (fun _ h => h.1.1) fun ⟨hlen, nonce, _, hcontainer⟩ => ?_
  have hciphertext : container.ciphertext.length = (sample w).length := by
    rw [hcontainer, length_keystreamXor]
  have hfits : container.ciphertext.length < 2 ^ 64 := hciphertext ▸ Nat.lt_of_le_of_lt hlen (by decide)
  have hserialized : (serialize container).length ≤ 25 + (sample w).length := by
    rw [length_serialize, hciphertext]
  refine ((silent_call
    (has_writer hw fun u hu => writeFile_effect hu ciphertextPath (serialize container))
    (Thrown.of_kind (by simp)) fun hφ v _ => writeFile_ends hφ hserialized v _).of_pre fun _ h =>
    ⟨h.1.2, h.2⟩).bind fun _ => ?_
  have hsave (hφ : Favourable os w) (v : World) :
      ∃ a v', Ends (key.saveToFile os keyPath) v (.ok a) v' := by
    obtain ⟨v', hsave, -⟩ := saveToFile_serves hφ.serves v key keyPath
    exact ⟨(), v', hsave⟩
  refine (silent_call (has_writer hw fun u hu => key.saveToFile_effect hu keyPath)
    (Thrown.of_kind (by simp))
    fun hφ v _ => hsave hφ v).bind fun _ => (silent_print _).bind fun _ => ?_
  set stored := Function.update
    (Function.update (Function.update w.files plaintextPath (some (sample w))) ciphertextPath
    (some (serialize container))) keyPath (some key.keyFileBytes) with hstored
  have hcipherFile : stored ciphertextPath = some (serialize container) := by
    rw [hstored, Function.update_of_ne (by decide), Function.update_self]
  have hkeyFile : stored keyPath = some key.keyFileBytes := by rw [hstored, Function.update_self]
  -- what is loaded is what was stored
  have hcontainerValue : Triple (Has w stored) (loadContainer os ciphertextPath) fun loaded _ =>
      loaded = container := by
    intro v loaded v' hv h
    have hparse := readFile_parse_triple deserialize ciphertextPath (hv.files ▸ hcipherFile) h
    rw [deserialize_serialize hfits] at hparse
    exact (Except.ok.inj hparse).symm
  have hcontainerEnds (hφ : Favourable os w) (v : World) (hv : Has w stored v) :
      ∃ a v', Ends (loadContainer os ciphertextPath) v (.ok a) v' := by
    obtain ⟨v', hload⟩ := readFile_parse_serves hφ.serves deserialize (hv.files ▸ hcipherFile)
    rw [deserialize_serialize hfits] at hload
    exact ⟨container, v', hload⟩
  have hkeyValue : Triple (Has w stored) (loadFromFile os keyPath) fun loaded _ =>
      loaded = reloaded key := by
    intro v loaded v' hv h
    have hparse := loadFromFile_triple os (hv.files ▸ hkeyFile) h
    rw [parseKeyFile_keyFileBytes] at hparse
    exact (Except.ok.inj hparse).symm
  have hkeyEnds (hφ : Favourable os w) (v : World) (hv : Has w stored v) :
      ∃ a v', Ends (loadFromFile os keyPath) v (.ok a) v' := by
    obtain ⟨v', hload⟩ := loadFromFile_serves hφ.serves key (hv.files ▸ hkeyFile)
    exact ⟨_, v', hload⟩
  refine (silent_value (has_reader hw fun u hu => loadContainer_effect hu ciphertextPath)
    (Thrown.of_reader (by simp) (by simp)) hcontainerValue hcontainerEnds).bind
      fun loadedContainer => Served.assume (fun _ h => h.1.1) fun hloadedContainer => ?_
  refine ((silent_value (has_reader hw fun u hu => loadFromFile_effect hu keyPath)
    (Thrown.of_kind (by simp)) hkeyValue
    hkeyEnds).of_pre fun _ h => ⟨h.1.2, h.2⟩).bind fun loadedKey => Served.assume (fun _ h => h.1.1)
      fun hloadedKey => ?_
  subst hloadedContainer hloadedKey
  -- and it decrypts to the sample
  have hdecrypt (v : World) :=
    Aes256Ctr.decrypt_ends loadedContainer (hciphertext ▸ hlen) os v (reloaded key)
  have hdecrypted : Triple (Has w stored) (Aes256Ctr.decrypt os (reloaded key) loadedContainer)
      fun decrypted _ => decrypted = sample w := by
    intro v decrypted v' _ h
    rw [(Except.ok.inj (h.unique (hdecrypt v)).1), keystreamXor_reloaded, hcontainer,
      keystreamXor_keystreamXor]
  refine ((silent_value (has_quiet (Aes256Ctr.decrypt_quiet os (reloaded key) loadedContainer))
    (Thrown.of_kind (by simp))
    hdecrypted fun _ v _ => ⟨_, _, hdecrypt v⟩).of_pre fun _ h => ⟨h.1.2, h.2⟩).bind fun decrypted =>
      Served.assume (fun _ h => h.1.1) fun hequal => ?_
  rw [if_pos hequal]
  refine ((silent_print _).of_pre fun _ h => ⟨h.1.2, h.2⟩).bind fun _ => Served.pure fun s hs => ?_
  refine ⟨⟨rfl, hlen, hs.1.fds, key, nonce, ?_⟩, hs.2⟩
  rw [← hcontainer]
  exact hs.1.files

theorem printError_ends (text : String) (s : World × Console) :
    Ends (printError text) s (.ok ()) (s.1, { s.2 with err := s.2.err ++ text }) := op_ends _ s

/-- **The harness never finds a mismatch.** On any platform a run that ends reports the round trip,
with the three files in place, or an exception of the library, of a file without an end or of
`std::filesystem::exists`; and where nothing stands in the way the run ends and reports the round
trip. -/
theorem main_roundTrips (os : Os) (hw : w.Fresh) :
    (∀ r s, Ends (main os) (w, {}) r s → (r = .ok .success ∧ RoundTripped w s.1 ∧ s.2.err = "") ∨
      (r = .ok .failure ∧ ∃ e : Error, Thrown os e ∧ s.2.err = "FAILURE: " ++ what os e ++ "\n")) ∧
    (Favourable os w → ∃ s, Ends (main os) (w, {}) (.ok .success) s) := by
  have hstart : Has w w.files (w, ({} : Console)).1 ∧ Silent (w, ({} : Console)).2 :=
    ⟨⟨rfl, rfl, le_rfl⟩, rfl⟩
  have hserved : Served (Favourable os w) _ (roundTrip os) _ _ := roundTrip_served hw
  refine ⟨fun r s h => ?_, fun hφ => ?_⟩
  · rcases ends_tryCatch.mp h with ⟨code, rfl, hends⟩ | ⟨e, t, hends, hhandler⟩
    · obtain ⟨⟨rfl, htripped⟩, hsilent⟩ := hserved.returns hstart hends
      exact .inl ⟨rfl, htripped, hsilent⟩
    · obtain ⟨hthrown, hsilent⟩ := hserved.throws hstart hends
      rw [(printError_ends _ t).bind_iff, ends_pure] at hhandler
      obtain ⟨rfl, rfl⟩ := hhandler
      have herr : t.2.err = "" := hsilent
      exact .inr ⟨rfl, e, hthrown, by rw [herr, String.empty_append]⟩
  · obtain ⟨code, s, hends⟩ := hserved.ends hφ _ hstart
    obtain ⟨⟨rfl, -⟩, -⟩ := hserved.returns hstart hends
    exact ⟨s, ends_tryCatch.mpr (.inl ⟨_, rfl, hends⟩)⟩

/-- The first run, where there is no sample yet: it ends, and all three files are in place. -/
theorem main_roundTrips_empty : ∃ s, Ends (main Os.plain) (World.empty, {}) (.ok .success) s ∧
    RoundTripped World.empty s.1 ∧ s.2.err = "" := by
  have hlength : (sample World.empty).length = 116 := by decide +kernel
  have hfavourable : Favourable Os.plain World.empty :=
    ⟨Os.plain_serves, by rw [hlength]; decide, fun hfamily => absurd hfamily (by decide)⟩
  obtain ⟨hends, hserved⟩ := main_roundTrips Os.plain World.fresh_empty
  obtain ⟨s, hrun⟩ := hserved hfavourable
  rcases hends _ s hrun with ⟨-, htripped, hsilent⟩ | ⟨hfailure, -⟩
  · exact ⟨s, hrun, htripped, hsilent⟩
  · exact absurd hfailure (by simp)

end Any

end Harness

end Aeslib
