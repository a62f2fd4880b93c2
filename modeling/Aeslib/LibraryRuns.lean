import Aeslib.FileFormats
import Aeslib.Operations

/-!
Runs of the library: any sequence of its public operations, on any platform, each of them ended by a
value or by an exception. `Operation.contract` says once what a call can do; from it, what the
files, the descriptors and the loaders are like after any run.
-/

namespace Aeslib

open Prog SecretKey

/-- A call of a public operation. -/
inductive Operation where
  | readFile (path : String)
  | writeFile (path : String) (data : List Byte)
  | saveContainer (container : Container) (path : String)
  | loadContainer (path : String)
  | saveGcmContainer (container : GcmContainer) (path : String)
  | loadGcmContainer (path : String)
  | generate (size : KeySize)
  | saveToFile (key : SecretKey) (path : String)
  | loadFromFile (path : String)
  | saveToFileEncrypted (key : SecretKey) (path : String) (passphrase : List Byte)
      (iterations : BitVec 32)
  | loadFromFileEncrypted (path : String) (passphrase : List Byte)
  | encryptCtr (key : SecretKey) (plaintext : List Byte)
  | decryptCtr (key : SecretKey) (container : Container)
  | encryptGcm (key : SecretKey) (plaintext aad : List Byte)
  | decryptGcm (key : SecretKey) (container : GcmContainer) (aad : List Byte)
  | activeBackend

namespace Operation

abbrev Result : Operation → Type
  | readFile _ | decryptCtr .. | decryptGcm .. => List Byte
  | writeFile .. | saveContainer .. | saveGcmContainer .. | saveToFile ..
  | saveToFileEncrypted .. => Unit
  | loadContainer _ | encryptCtr .. => Container
  | loadGcmContainer _ => GcmContainer
  | generate _ | loadFromFile _ | loadFromFileEncrypted .. => SecretKey
  | encryptGcm .. => GcmContainer × SecretKey
  | activeBackend => Backend

def prog (os : Os) : (c : Operation) → Prog World Error c.Result
  | readFile path => Aeslib.readFile os path
  | writeFile path data => Aeslib.writeFile os path data
  | saveContainer container path => Aeslib.saveContainer os container path
  | loadContainer path => Aeslib.loadContainer os path
  | saveGcmContainer container path => Aeslib.saveGcmContainer os container path
  | loadGcmContainer path => Aeslib.loadGcmContainer os path
  | generate size => SecretKey.generate os size
  | saveToFile key path => key.saveToFile os path
  | loadFromFile path => SecretKey.loadFromFile os path
  | saveToFileEncrypted key path passphrase iterations =>
      key.saveToFileEncrypted os path passphrase iterations
  | loadFromFileEncrypted path passphrase => SecretKey.loadFromFileEncrypted os path passphrase
  | encryptCtr key plaintext => Aes256Ctr.encrypt os key plaintext
  | decryptCtr key container => Aes256Ctr.decrypt os key container
  | encryptGcm key plaintext aad => withState key (AesGcm.encrypt os plaintext aad)
  | decryptGcm key container aad => AesGcm.decrypt os key container aad
  | activeBackend => Aeslib.activeBackend os

/-- The exceptions that the interface of the call names. -/
def kinds : Operation → List ErrorKind
  | readFile _ | writeFile .. | saveContainer .. | saveGcmContainer .. | generate _
  | saveToFile .. => [.io]
  | loadContainer _ | loadGcmContainer _ | loadFromFile _ => [.io, .format]
  | saveToFileEncrypted .. | encryptCtr .. | encryptGcm .. => [.limit, .io]
  | loadFromFileEncrypted .. => [.io, .format, .authentication]
  | decryptCtr .. => [.limit]
  | decryptGcm .. => [.limit, .authentication]
  | activeBackend => []

/-- The file that the call reads as a whole. -/
def source : Operation → Option String
  | readFile path | loadContainer path | loadGcmContainer path | loadFromFileEncrypted path _ =>
      some path
  | _ => none

/-- What the call may throw: what its interface names, and `std::bad_alloc` where the file that it
reads has no end. -/
def Throws (os : Os) (c : Operation) (e : Error) : Prop :=
  e.kind ∈ c.kinds ∨ e = .badAlloc ∧ ∃ path, c.source = some path ∧ os.Endless path

/-- The file that the call is to write. -/
def target : Operation → Option String
  | writeFile path _ | saveContainer _ path | saveGcmContainer _ path | saveToFile _ path
  | saveToFileEncrypted _ path _ _ => some path
  | _ => none

/-- What the call is to store there. -/
def Stores : Operation → List Byte → Prop
  | writeFile _ data', data => data = data'
  | saveContainer container _, data => data = serialize container
  | saveGcmContainer container _, data => data = serializeGcm container
  | saveToFile key _, data => data = key.keyFileBytes
  | saveToFileEncrypted key _ passphrase iterations, data => 1000 ≤ iterations.toNat ∧
      ∃ salt nonce, data = wrappedKeyFile key passphrase iterations salt nonce
  | _, _ => False

/-- `part` is what a call that ended well, or not, has left of `data`. -/
structure Leaves (ok : Bool) (part data : List Byte) : Prop where
  isPrefix : part <+: data
  whole : ok = true → part = data
  cut : ok = false → part = data → data = []

/-- What a call from `w` may have done at its end. -/
inductive After (c : Operation) (ok : Bool) (w v : World) : Prop where
  | unchanged (hnone : ok = true → c.target = none) (hv : w.Unchanged v)
  | stored (path : String) (part data : List Byte) (htarget : c.target = some path)
      (hdata : c.Stores data)
      (hleaves : Leaves ok part data) (hv : w.Stored path part v)

theorem After.of_reader {c : Operation} (hc : c.target = none) {ok : Bool} {w v : World}
    (hv : w.Unchanged v) :
    After c ok w v := .unchanged (fun _ => hc) hv

theorem After.of_stored {c : Operation} {path : String} (hc : c.target = some path) {data : List Byte}
    (hdata : c.Stores data) {w v : World} (hv : w.Stored path data v) : After c true w v :=
  .stored path data data hc hdata ⟨List.prefix_refl data, fun _ => rfl, fun h => by simp at h⟩ hv

theorem After.of_fails {c : Operation} {path : String} (hc : c.target = some path) {data : List Byte}
    (hdata : c.Stores data) {w v : World} {e : Error} (h : SaveFails w path data e v) :
    After c false w v := by
  obtain ⟨-, hv | ⟨part, hpart, hall, hv⟩⟩ := h
  · exact .unchanged (fun h => by simp at h) hv
  · exact .stored path part data hc hdata ⟨hpart, fun h => by simp at h, fun _ => hall⟩ hv

variable {os : Os} {w : World}

/-- A call without a file. -/
theorem contract_of_quiet {c : Operation} (hc : c.target = none) (h : Quiet (c.prog os) c.kinds) :
    Contract (· = w) (c.prog os) (fun _ => After c true w) fun e v => c.Throws os e ∧
    After c false w v :=
  (h w).weaken (fun v hv => hv ▸ .refl v) (fun _ _ hv => .of_reader hc hv)
    fun _ _ hv => ⟨.inl hv.1, .of_reader hc hv.2⟩

theorem contract_of_reader {c : Operation} (hc : c.target = none) {exc : Error → Prop}
    (hthrows : ∀ e, exc e → c.Throws os e)
    (h : Contract (· = w) (c.prog os) (fun _ => w.Unchanged) fun e v => exc e ∧ w.Unchanged v) :
    Contract (· = w) (c.prog os) (fun _ => After c true w) fun e v => c.Throws os e ∧
    After c false w v :=
  h.weaken (fun _ hv => hv) (fun _ _ hv => .of_reader hc hv) fun e _ hv =>
    ⟨hthrows e hv.1, .of_reader hc hv.2⟩

theorem Throws.of_readerThrows {c : Operation} {path : String} (hc : c.source = some path) {e : Error}
    (h : ReaderThrows os path c.kinds e) : c.Throws os e :=
  h.imp_right fun ⟨he, hendless⟩ => ⟨he, path, hc, hendless⟩

theorem contract_of_writer {c : Operation} {path : String} {data : List Byte} (hc : c.target = some path)
    (hdata : c.Stores data) (hio : ErrorKind.io ∈ c.kinds)
    (h : Contract (· = w) (c.prog os) (fun _ => w.Stored path data) (SaveFails w path data)) :
    Contract (· = w) (c.prog os) (fun _ => After c true w) fun e v => c.Throws os e ∧
    After c false w v :=
  h.weaken (fun _ hv => hv) (fun _ _ hv => .of_stored hc hdata hv) fun _ _ hv =>
    ⟨.inl (hv.1.symm ▸ hio), .of_fails hc hdata hv⟩

/-- **What a call can do**, on any platform: it throws what its interface names, or finds no end of
the file that it reads, and it touches its own file only. -/
theorem contract (c : Operation) (hw : w.Fresh) :
    Contract (· = w) (c.prog os) (fun _ => After c true w) fun e v => c.Throws os e ∧
    After c false w v := by
  cases c with
  | readFile path =>
      refine contract_of_reader rfl (fun e h => .of_readerThrows rfl ?_) (readFile_effect hw path)
      exact .of_readFile List.mem_cons_self h
  | writeFile path data =>
      exact contract_of_writer rfl rfl List.mem_cons_self (writeFile_effect hw path data)
  | saveContainer container path =>
      exact contract_of_writer rfl rfl List.mem_cons_self
        (writeFile_effect hw path (serialize container))
  | loadContainer path =>
      exact contract_of_reader rfl (fun _ h => .of_readerThrows rfl h) (loadContainer_effect hw path)
  | saveGcmContainer container path =>
      exact contract_of_writer rfl rfl List.mem_cons_self
        (writeFile_effect hw path (serializeGcm container))
  | loadGcmContainer path =>
      exact contract_of_reader rfl (fun _ h => .of_readerThrows rfl h) (loadGcmContainer_effect hw path)
  | generate size => exact contract_of_quiet rfl (SecretKey.generate_quiet os size)
  | saveToFile key path =>
      exact contract_of_writer rfl rfl List.mem_cons_self (key.saveToFile_effect hw path)
  | loadFromFile path =>
      exact contract_of_reader rfl (fun _ h => .inl h) (SecretKey.loadFromFile_effect hw path)
  | saveToFileEncrypted key path passphrase iterations =>
      refine (key.saveToFileEncrypted_effect hw path passphrase iterations).weaken (fun _ h => h) ?_ ?_
      · rintro _ v ⟨hmin, salt, nonce, hv⟩
        exact .of_stored (c := .saveToFileEncrypted key path passphrase iterations) rfl
          ⟨hmin, salt, nonce, rfl⟩ hv
      · rintro e v (⟨hkind, hv⟩ | ⟨hmin, salt, nonce, hv⟩)
        · exact ⟨.inl hkind, .unchanged (fun h => by simp at h) hv⟩
        · exact ⟨.inl (by simp [kinds, hv.1]),
            .of_fails (c := .saveToFileEncrypted key path passphrase iterations) rfl
              ⟨hmin, salt, nonce, rfl⟩ hv⟩
  | loadFromFileEncrypted path passphrase =>
      exact contract_of_reader rfl (fun _ h => .of_readerThrows rfl h)
        (SecretKey.loadFromFileEncrypted_effect hw path passphrase)
  | encryptCtr key plaintext => exact contract_of_quiet rfl (Aes256Ctr.encrypt_quiet os key plaintext)
  | decryptCtr key container => exact contract_of_quiet rfl (Aes256Ctr.decrypt_quiet os key container)
  | encryptGcm key plaintext aad =>
      exact contract_of_quiet rfl (AesGcm.encrypt_quiet os key plaintext aad)
  | decryptGcm key container aad =>
      exact contract_of_quiet rfl (AesGcm.decrypt_quiet os key container aad)
  | activeBackend => exact contract_of_quiet rfl (activeBackend_quiet os)

end Operation

/-- A call and how it ended. -/
abbrev EndedCall : Type := (c : Operation) × Except Error c.Result

abbrev Calls (os : Os) : List EndedCall → World → World → Prop := Sequence (Operation.prog os)

/-- Every call that was to write to `path` has thrown. -/
def NoneSaved (calls : List EndedCall) (path : String) : Prop :=
  ∀ x ∈ calls, x.1.target = some path → ∃ e, x.2 = .error e

/-- `x` is the last of the calls that opened the file at `path` for writing, and has left `part` of
`data` there. -/
structure LastSave (calls : List EndedCall) (path : String) (x : EndedCall)
    (part data : List Byte) : Prop where
  position : ∃ before after, calls = before ++ x :: after ∧ NoneSaved after path
  target : x.1.target = some path
  stores : x.1.Stores data
  leaves : Operation.Leaves x.2.isOk part data

theorem LastSave.cons {calls : List EndedCall} {path : String} {x : EndedCall} {part data : List Byte}
    (h : LastSave calls path x part data) (y : EndedCall) : LastSave (y :: calls) path x part data where
  position := by
    obtain ⟨before, after, rfl, hafter⟩ := h.position
    exact ⟨y :: before, after, rfl, hafter⟩
  target := h.target
  stores := h.stores
  leaves := h.leaves

section Runs

variable {os : Os} {calls : List EndedCall} {w v : World}

/-- The end of one call. -/
theorem Operation.after (c : Operation) (hw : w.Fresh) {r : Except Error c.Result}
    (h : Ends (c.prog os) w r v) : (∀ e, r = .error e → c.Throws os e) ∧ After c r.isOk w v := by
  cases r with
  | ok a => exact ⟨by simp, (c.contract hw).returns rfl h⟩
  | error e =>
      obtain ⟨hthrows, hafter⟩ := (c.contract hw).throws rfl h
      exact ⟨fun e' he => Except.error.inj he ▸ hthrows, hafter⟩

theorem Operation.After.fds {c : Operation} {ok : Bool} (h : c.After ok w v) :
    v.fds = w.fds ∧ w.clock ≤ v.clock := by
  cases h with
  | unchanged hnone hv => exact ⟨hv.fds, hv.clock⟩
  | stored path part data htarget hdata hleaves hv => exact ⟨hv.fds, hv.clock⟩

/-- One more call at the front of a run. -/
theorem Operation.After.files {c : Operation} {r : Except Error c.Result} (h : c.After r.isOk w v)
    (path : String) :
    (v.files path = w.files path ∧ (c.target = some path → ∃ e, r = .error e)) ∨
      ∃ part data, c.target = some path ∧ c.Stores data ∧ Leaves r.isOk part data ∧
      v.files path = some part := by
  cases h with
  | unchanged hnone hv =>
      refine .inl ⟨by rw [hv.files], fun htarget => ?_⟩
      cases r with
      | ok a => simp [hnone rfl] at htarget
      | error e => exact ⟨e, rfl⟩
  | stored path' part data htarget hdata hleaves hv =>
      by_cases hpath : path' = path
      · subst hpath
        exact .inr ⟨part, data, htarget, hdata, hleaves, by rw [hv.files, Function.update_self]⟩
      · refine .inl ⟨by rw [hv.files, Function.update_of_ne (Ne.symm hpath)], fun h => ?_⟩
        exact absurd (Option.some.inj (htarget.symm.trans h)) hpath

theorem calls_fds (h : Calls os calls w v) (hw : w.Fresh) : v.fds = w.fds ∧ v.Fresh := by
  induction h with
  | done s => exact ⟨rfl, hw⟩
  | next hends _ ih =>
      obtain ⟨hfds, hclock⟩ := (Operation.after _ hw hends).2.fds
      obtain ⟨hrest, hfresh⟩ := ih (hw.of_fds hfds hclock)
      exact ⟨hrest.trans hfds, hfresh⟩

theorem calls_throw (h : Calls os calls w v) (hw : w.Fresh) :
    ∀ x ∈ calls, ∀ e, x.2 = .error e → x.1.Throws os e := by
  induction h with
  | done s => exact fun x hx => absurd hx List.not_mem_nil
  | next hends _ ih =>
      obtain ⟨hthrows, hafter⟩ := Operation.after _ hw hends
      obtain ⟨hfds, hclock⟩ := hafter.fds
      intro x hx
      rcases List.mem_cons.mp hx with rfl | hx
      · exact hthrows
      · exact ih (hw.of_fds hfds hclock) x hx

/-- A file is as before the run, or as the last call that opened it has left it. -/
theorem calls_files (h : Calls os calls w v) (hw : w.Fresh) (path : String) :
    (v.files path = w.files path ∧ NoneSaved calls path) ∨
      ∃ x part data, LastSave calls path x part data ∧ v.files path = some part := by
  induction h with
  | done s => exact .inl ⟨rfl, fun x hx => absurd hx List.not_mem_nil⟩
  | @next c r rest s t u hends _ ih =>
      have hafter := (Operation.after c hw hends).2
      obtain ⟨hfds, hclock⟩ := hafter.fds
      rcases ih (hw.of_fds hfds hclock) with ⟨hfile, hnone⟩ | ⟨x, part, data, hlast, hfile⟩
      · rcases hafter.files path with ⟨hsame, hthrew⟩ | ⟨part, data, htarget, hdata, hleaves, hpart⟩
        · refine .inl ⟨hfile.trans hsame, fun x hx htarget => ?_⟩
          rcases List.mem_cons.mp hx with rfl | hx
          · exact hthrew htarget
          · exact hnone x hx htarget
        · exact .inr ⟨⟨c, r⟩, part, data, ⟨⟨[], rest, rfl, hnone⟩, htarget, hdata, hleaves⟩,
            hfile.trans hpart⟩
      · exact .inr ⟨x, part, data, hlast.cons _, hfile⟩

/-- **What any sequence of calls leaves**, whatever the platform answers: the descriptors are those
from before; each exception is one that the interface of its call names, or the `std::bad_alloc` of
a reader whose file has no end; and each file is as before, or it holds what the last call that
opened it was to store, in full if that call returned and cut short if it threw. -/
theorem calls_settle (h : Calls os calls w v) (hw : w.Fresh) :
    v.fds = w.fds ∧
      (∀ x ∈ calls, ∀ e, x.2 = .error e → e.kind ∈ x.1.kinds ∨
        e = .badAlloc ∧ ∃ path, x.1.source = some path ∧ ∃ time, os.tellg time path = .tooLarge) ∧
      ∀ path, (v.files path = w.files path ∧ NoneSaved calls path) ∨
        ∃ x part data, LastSave calls path x part data ∧ v.files path = some part :=
  ⟨(calls_fds h hw).1, calls_throw h hw, calls_files h hw⟩

/-- The `std::bad_alloc` is real. -/
theorem readFile_endless {path : String} (hopen : os.openForReading w.clock path = true)
    {content : List Byte} (hfile : w.files path = some content)
    (hend : os.tellg (w.clock + 1) path = .tooLarge) :
    ∃ w', Ends (Aeslib.readFile os path) w (.error .badAlloc) w' := by
  obtain ⟨w₁, hopened, -, -, -, hclock⟩ := openForReading_opens hopen hfile
  refine ⟨(w₁.setFd w.clock none).tick, ?_⟩
  rw [Aeslib.readFile, hopened.bind_iff, ends_op, hclock, hend]

/-- A container of one byte. -/
def oneByteContainer : Container := { nonce := Vector.replicate kNonceSizeBytes 0, ciphertext := [1] }

/-- A key is saved, taken for a container and loaded; a container is saved and loaded. -/
def savesAndLoads (what : String) : List EndedCall :=
  [⟨.saveToFile {} "key", .ok ()⟩, ⟨.loadContainer "key", .error (.formatError what)⟩,
    ⟨.saveContainer oneByteContainer "container", .ok ()⟩,
    ⟨.loadContainer "container", .ok oneByteContainer⟩]

theorem calls_savesAndLoads : ∃ what v, Calls Os.plain (savesAndLoads what) World.empty v := by
  obtain ⟨w₁, hsave, hkey⟩ := saveToFile_serves Os.plain_serves World.empty {} "key"
  obtain ⟨w₂, hload⟩ := readFile_parse_serves Os.plain_serves deserialize hkey
  have hlen : (serialize oneByteContainer).length < 2 ^ 32 := by decide
  obtain ⟨w₃, hstore, hcontainer⟩ :=
    storedByBothBranches hlen Os.plain Os.plain_serves w₂ "container"
  obtain ⟨w₄, hload'⟩ := readFile_parse_serves Os.plain_serves deserialize hcontainer
  rw [deserialize_serialize (by decide)] at hload'
  obtain ⟨container, -, hserialized⟩ | ⟨what, hbad⟩ := deserialize_cases (SecretKey.keyFileBytes {})
  · -- the first byte of a key file is its version
    have hmagic : (serialize container).head? = some 0x41 := rfl
    have hversion : (SecretKey.keyFileBytes {}).head? = some 2 := by decide
    rw [hserialized, hversion] at hmagic
    exact absurd hmagic (by decide)
  · rw [hbad] at hload
    exact ⟨what, w₄,
      .next (c := Operation.saveToFile {} "key") hsave (.next (c := Operation.loadContainer "key") hload
      (.next (c := Operation.saveContainer oneByteContainer "container") hstore
        (.next (c := Operation.loadContainer "container") hload' (.done w₄))))⟩

theorem LastSave.savesAndLoads {what path : String} {x : EndedCall} {part data : List Byte}
    (h : LastSave (savesAndLoads what) path x part data) :
    (x = ⟨.saveToFile {} "key", .ok ()⟩ ∧ part = SecretKey.keyFileBytes {}) ∨
      x = ⟨.saveContainer oneByteContainer "container", .ok ()⟩ ∧ part = serialize oneByteContainer := by
  obtain ⟨before, after, hcalls, -⟩ := h.position
  have hx : x ∈ Aeslib.savesAndLoads what := by simp [hcalls]
  simp only [Aeslib.savesAndLoads, List.mem_cons, List.not_mem_nil, or_false] at hx
  rcases hx with rfl | rfl | rfl | rfl
  · exact .inl ⟨rfl, (h.leaves.whole rfl).trans h.stores⟩
  · exact h.stores.elim
  · exact .inr ⟨rfl, (h.leaves.whole rfl).trans h.stores⟩
  · exact h.stores.elim

theorem not_noneSaved {calls : List EndedCall} {path : String} {c : Operation} {a : c.Result}
    (hx : ⟨c, .ok a⟩ ∈ calls) (htarget : c.target = some path) : ¬NoneSaved calls path := by
  intro hnone
  obtain ⟨e, he⟩ := hnone _ hx htarget
  exact absurd he (by simp)

theorem calls_settle_savesAndLoads : ∃ what v, Calls Os.plain (savesAndLoads what) World.empty v ∧
    v.fds = World.empty.fds ∧ v.files "key" = some (SecretKey.keyFileBytes {}) ∧
      v.files "container" = some (serialize oneByteContainer) ∧ v.files "other" = none := by
  obtain ⟨what, v, hcalls⟩ := calls_savesAndLoads
  obtain ⟨hfds, -, hfiles⟩ := calls_settle hcalls World.fresh_empty
  refine ⟨what, v, hcalls, hfds, ?_, ?_, ?_⟩
  · rcases hfiles "key" with ⟨-, hnone⟩ | ⟨x, part, data, hlast, hfile⟩
    · exact absurd hnone (not_noneSaved (c := .saveToFile {} "key") List.mem_cons_self rfl)
    · obtain ⟨-, rfl⟩ | ⟨rfl, -⟩ := hlast.savesAndLoads
      · exact hfile
      · exact absurd hlast.target (by decide)
  · rcases hfiles "container" with ⟨-, hnone⟩ | ⟨x, part, data, hlast, hfile⟩
    · refine absurd hnone
        (not_noneSaved (c := .saveContainer oneByteContainer "container") (a := ()) ?_ rfl)
      simp [savesAndLoads]
    · obtain ⟨rfl, -⟩ | ⟨-, rfl⟩ := hlast.savesAndLoads
      · exact absurd hlast.target (by decide)
      · exact hfile
  · rcases hfiles "other" with ⟨hsame, -⟩ | ⟨x, part, data, hlast, -⟩
    · exact hsame
    · obtain ⟨rfl, -⟩ | ⟨rfl, -⟩ := hlast.savesAndLoads
      · exact absurd hlast.target (by decide)
      · exact absurd hlast.target (by decide)

end Runs

namespace Operation

def format : Operation → Option FileFormat
  | saveContainer .. => some .container
  | saveGcmContainer .. => some .gcmContainer
  | saveToFile .. => some .key
  | saveToFileEncrypted .. => some .wrappedKey
  | _ => none

/-- The length of a ciphertext is a `std::size_t`. -/
def Fits : Operation → Prop
  | saveContainer container _ => container.ciphertext.length < 2 ^ 64
  | saveGcmContainer container _ => container.ciphertext.length < 2 ^ 64
  | _ => True

/-- A load that ends with a value of which `good` holds, wherever `content` is read in full. -/
def Loads {α : Type} (load : Os → String → Prog World Error α) (good : α → Prop)
    (content : List Byte) : Prop :=
  ∀ os : Os, os.Serves → ∀ w path, w.files path = some content → ∃ a w',
    Ends (load os path) w (.ok a) w' ∧ good a

/-- The same logical key. -/
def SameKey (key loaded : SecretKey) : Prop := loaded.size = key.size ∧ loaded.material = key.material

/-- The loader of the same format gives back what the call has saved. -/
def Restores : Operation → List Byte → Prop
  | saveContainer container _ => Loads Aeslib.loadContainer (· = container)
  | saveGcmContainer container _ => Loads Aeslib.loadGcmContainer (· = container)
  | saveToFile key _ => Loads SecretKey.loadFromFile (SameKey key)
  | saveToFileEncrypted key _ passphrase iterations => fun content => iterations.toNat ≤ 50000000 →
      Loads (fun os path => SecretKey.loadFromFileEncrypted os path passphrase) (SameKey key) content
  | _ => fun _ => True

theorem Stores.image {c : Operation} {data : List Byte} (h : c.Stores data) (hfits : c.Fits)
    {f : FileFormat} (hf : c.format = some f) : f.Image data := by
  cases c with
  | saveContainer container path =>
      obtain rfl := Option.some.inj hf
      exact ⟨container, hfits, h⟩
  | saveGcmContainer container path =>
      obtain rfl := Option.some.inj hf
      exact ⟨container, hfits, h⟩
  | saveToFile key path =>
      obtain rfl := Option.some.inj hf
      exact ⟨key, h⟩
  | saveToFileEncrypted key path passphrase iterations =>
      obtain rfl := Option.some.inj hf
      obtain ⟨-, salt, nonce, rfl⟩ := h
      exact ⟨key, passphrase, iterations, salt, nonce, rfl⟩
  | _ => simp [format] at hf

theorem sameKey_keyFromBytes (key : SecretKey) : SameKey key (keyFromBytes key.material key.size) :=
  ⟨by rw [keyFromBytes], material_keyFromBytes key.length_material⟩

theorem Stores.restores {c : Operation} {data : List Byte} (h : c.Stores data) (hfits : c.Fits) :
    c.Restores data := by
  cases c with
  | saveContainer container path =>
      obtain rfl : data = serialize container := h
      intro os hos w path hfile
      obtain ⟨w', hload⟩ := readFile_parse_serves hos deserialize hfile
      rw [deserialize_serialize hfits] at hload
      exact ⟨container, w', hload, rfl⟩
  | saveGcmContainer container path =>
      obtain rfl : data = serializeGcm container := h
      intro os hos w path hfile
      obtain ⟨w', hload⟩ := readFile_parse_serves hos deserializeGcm hfile
      rw [deserializeGcm_serializeGcm hfits] at hload
      exact ⟨container, w', hload, rfl⟩
  | saveToFile key path =>
      obtain rfl : data = key.keyFileBytes := h
      intro os hos w path hfile
      obtain ⟨w', hload⟩ := loadFromFile_serves hos key hfile
      exact ⟨_, w', hload, sameKey_keyFromBytes key⟩
  | saveToFileEncrypted key path passphrase iterations =>
      obtain ⟨hmin, salt, nonce, rfl⟩ := h
      intro hmax os hos w path hfile
      have hformat := (wrappedKeyFormat_iff key passphrase iterations salt nonce).mpr ⟨hmin, hmax⟩
      obtain ⟨v, hread, -⟩ := readFile_serves hos hfile
      have hunwrap := unwrapKey_accepts hformat os v (tagMatches_wrappedKeyFile hformat)
      rw [unwrapped_wrappedKeyFile] at hunwrap
      exact ⟨_, _, loadFromFileEncrypted_unwraps hread passphrase hformat hunwrap,
        sameKey_keyFromBytes key⟩
  | _ => exact trivial

theorem format_of_target {c : Operation} {path : String} (htarget : c.target = some path)
    (hraw : ∀ data, c ≠ writeFile path data) : ∃ f, c.format = some f := by
  cases c with
  | writeFile path' data =>
      obtain rfl := Option.some.inj htarget
      exact absurd rfl (hraw data)
  | saveContainer container path => exact ⟨_, rfl⟩
  | saveGcmContainer container path => exact ⟨_, rfl⟩
  | saveToFile key path => exact ⟨_, rfl⟩
  | saveToFileEncrypted key path passphrase iterations => exact ⟨_, rfl⟩
  | _ => simp [target] at htarget

theorem Stores.ne_nil {c : Operation} {data : List Byte} (h : c.Stores data) (hfits : c.Fits)
    {f : FileFormat} (hf : c.format = some f) : data ≠ [] := by
  rintro rfl
  have hsignature := List.prefix_nil.mp (h.image hfits hf).signature
  revert hsignature
  cases f <;> decide

end Operation

/-- What the last call that opened a file has left is refused by the loaders of the other formats,
and by its own if the call threw. -/
theorem LastSave.refuses {calls : List EndedCall} {path : String} {x : EndedCall} {part data : List Byte}
    (h : LastSave calls path x part data) (hfits : x.1.Fits) {f : FileFormat}
    (hf : x.1.format = some f) (g : FileFormat) (hg : g ≠ f ∨ x.2.isOk = false) : g.Refuses part := by
  have himage := h.stores.image hfits hf
  by_cases hgf : g = f
  · subst hgf
    have hthrew := hg.resolve_left fun hne => hne rfl
    refine himage.refuses h.leaves.isPrefix (.inr fun hall => ?_)
    exact h.stores.ne_nil hfits hf (h.leaves.cut hthrew hall)
  · exact himage.refuses h.leaves.isPrefix (.inl hgf)

/-- **No run makes a loader return anything that was not saved.** After any sequence of calls on any
platform, a file that is written by the savers alone is as before, or it is what the last call that
opened it has left: the loaders of the other formats refuse it, the loader of its own format refuses
it if that call threw, and gives back what was saved if it returned. -/
theorem calls_recover {os : Os} {calls : List EndedCall} {w v : World} (h : Calls os calls w v)
    (hw : w.Fresh) (hfits : ∀ x ∈ calls, x.1.Fits) {path : String}
    (hraw : ∀ x ∈ calls, ∀ data, x.1 ≠ .writeFile path data) :
    (v.files path = w.files path ∧ NoneSaved calls path) ∨
      ∃ x f part data, LastSave calls path x part data ∧ v.files path = some part ∧ x.1.format = some f ∧
        (∀ g, g ≠ f → g.Refuses part) ∧ (x.2.isOk = false → f.Refuses part) ∧
        (x.2.isOk = true → x.1.Restores part) := by
  refine (calls_files h hw path).imp_right fun ⟨x, part, data, hlast, hfile⟩ => ?_
  obtain ⟨before, after, hcalls, -⟩ := hlast.position
  have hx : x ∈ calls := by simp [hcalls]
  obtain ⟨f, hf⟩ := Operation.format_of_target hlast.target (hraw x hx)
  refine ⟨x, f, part, data, hlast, hfile, hf, fun g hg => hlast.refuses (hfits x hx) hf g (.inl hg),
    fun hthrew => hlast.refuses (hfits x hx) hf f (.inr hthrew), fun hreturned => ?_⟩
  rw [hlast.leaves.whole hreturned]
  exact hlast.stores.restores (hfits x hx)

/-- The key file after the four calls. -/
theorem calls_recover_savesAndLoads : ∃ what v, Calls Os.plain (savesAndLoads what) World.empty v ∧
    ∃ part, v.files "key" = some part ∧ (∀ g ≠ FileFormat.key, g.Refuses part) ∧
      Operation.Loads SecretKey.loadFromFile (Operation.SameKey {}) part := by
  obtain ⟨what, v, hcalls⟩ := calls_savesAndLoads
  have hfits : ∀ x ∈ savesAndLoads what, x.1.Fits := by
    simp [savesAndLoads, Operation.Fits, oneByteContainer]
  have hraw : ∀ x ∈ savesAndLoads what, ∀ data, x.1 ≠ .writeFile "key" data := by simp [savesAndLoads]
  rcases calls_recover hcalls World.fresh_empty hfits hraw with ⟨-, hnone⟩ |
    ⟨x, f, part, data, hlast, hfile, hformat, hothers, -, hrestores⟩
  · exact absurd hnone (not_noneSaved (c := .saveToFile {} "key") List.mem_cons_self rfl)
  · obtain ⟨rfl, -⟩ | ⟨rfl, -⟩ := hlast.savesAndLoads
    · obtain rfl : FileFormat.key = f := Option.some.inj hformat
      exact ⟨what, v, hcalls, part, hfile, hothers, hrestores rfl⟩
    · exact absurd hlast.target (by decide)

end Aeslib
