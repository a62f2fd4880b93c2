import Aeslib.LibraryRuns
import Aeslib.LogicalKey
import Aeslib.MessageExchange

/-!
Keys that travel through files. In any run of the library, on any platform, a key that has been
saved and loaded any number of times, under a passphrase or not, is still the key it started as; so
what was encrypted with the first one is decrypted with the last, whatever else has been called in
between.
-/

namespace Aeslib

open Prog SecretKey

/-- No call writes bytes of its own to `path`. -/
def NotRaw (calls : List EndedCall) (path : String) : Prop :=
  ∀ x ∈ calls, ∀ data, x.1 ≠ .writeFile path data

/-- `x` has saved to `path`, and after it no call has saved there or written bytes of its own. -/
structure SavedLast (calls : List EndedCall) (path : String) (x : EndedCall) : Prop where
  position : ∃ before after, calls = before ++ x :: after ∧ NoneSaved after path ∧ NotRaw after path
  target : x.1.target = some path
  returned : x.2.isOk = true

theorem NoneSaved.not_mem {calls : List EndedCall} {path : String} (h : NoneSaved calls path)
    {x : EndedCall} (htarget : x.1.target = some path) (hreturned : x.2.isOk = true) : x ∉ calls := by
  intro hx
  obtain ⟨e, he⟩ := h x hx htarget
  rw [he] at hreturned
  simp [Except.isOk, Except.toBool] at hreturned

section Runs

variable {os : Os} {calls : List EndedCall} {w v : World} {path : String}

/-- What a save leaves when it returns. -/
theorem file_of_saved {c : Operation} {r : Except Error c.Result} (hends : Ends (c.prog os) w r v)
    (hw : w.Fresh) (htarget : c.target = some path) (hreturned : r.isOk = true) :
    ∃ data, c.Stores data ∧ v.files path = some data := by
  have hrun : Calls os [⟨c, r⟩] w v := .next hends (.done v)
  rcases calls_files hrun hw path with ⟨-, hnone⟩ | ⟨x, part, data, hlast, hfile⟩
  · exact absurd List.mem_cons_self (hnone.not_mem (x := ⟨c, r⟩) htarget hreturned)
  · obtain ⟨before, after, hcalls, -⟩ := hlast.position
    have hx : x ∈ ([⟨c, r⟩] : List EndedCall) := by simp [hcalls]
    obtain rfl := List.mem_singleton.mp hx
    exact ⟨data, hlast.stores, hlast.leaves.whole hreturned ▸ hfile⟩

/-- A file that the loader of a format has not refused holds what the last save has stored: a save
that came later has thrown, and a file that it has cut short is refused. -/
theorem SavedLast.file {x : EndedCall} (hx : SavedLast calls path x) (h : Calls os calls w v)
    (hw : w.Fresh) (hfits : ∀ x ∈ calls, x.1.Fits) {f : FileFormat}
    (hload : ∀ content, v.files path = some content → ¬f.Refuses content) :
    ∃ data, x.1.Stores data ∧ v.files path = some data := by
  obtain ⟨before, after, rfl, hnone, hraw⟩ := hx.position
  obtain ⟨t, t', hbefore, hends, hafter⟩ := Sequence.split h
  have ht : t.Fresh := (calls_fds hbefore hw).2
  obtain ⟨data, hstores, hstored⟩ := file_of_saved hends ht hx.target hx.returned
  have ht' : t'.Fresh := (calls_fds (.next hends (.done t')) ht).2
  rcases calls_files hafter ht' path with ⟨hkept, -⟩ | ⟨y, part, data', hlast, hfile⟩
  · exact ⟨data, hstores, hkept.trans hstored⟩
  · obtain ⟨before', after', hcalls, -⟩ := hlast.position
    have hy : y ∈ after := by simp [hcalls]
    have hthrew : y.2.isOk = false := by
      rw [← Bool.not_eq_true]
      exact fun hreturned => hnone.not_mem hlast.target hreturned hy
    obtain ⟨g, hg⟩ := Operation.format_of_target hlast.target (hraw y hy)
    have hfitsY := hfits y (List.mem_append_right before (List.mem_cons_of_mem x hy))
    exact absurd (hlast.refuses hfitsY hg f (.inr hthrew)) (hload part hfile)

theorem loadFromFile_keyFile {key loaded : SecretKey} (hfile : w.files path = some key.keyFileBytes)
    (h : Ends (loadFromFile os path) w (.ok loaded) v) : Operation.SameKey key loaded := by
  have hparsed := loadFromFile_triple os hfile h
  rw [parseKeyFile_keyFileBytes] at hparsed
  exact Except.ok.inj hparsed ▸ Operation.sameKey_keyFromBytes key

theorem loadFromFileEncrypted_wrappedKeyFile {key loaded : SecretKey} {passphrase : List Byte}
    {iterations : BitVec 32} {salt : Vector Byte kSaltSize} {nonce : Vector Byte kNonceSizeBytes}
    (hfile : w.files path = some (wrappedKeyFile key passphrase iterations salt nonce))
    (h : Ends (loadFromFileEncrypted os path passphrase) w (.ok loaded) v) :
    Operation.SameKey key loaded := by
  rcases ends_bind.mp h with ⟨data, w₁, hread, -⟩ | ⟨e, he, -⟩
  · rcases (readFile_result hread).2 with ⟨what, hio⟩ | ⟨data', hdata', hok⟩
    · simp at hio
    obtain rfl := Except.ok.inj hok
    obtain rfl := Option.some.inj (hdata'.symm.trans hfile)
    by_cases hformat : WrappedKeyFormat (wrappedKeyFile key passphrase iterations salt nonce)
    · have hunwrap := unwrapKey_accepts hformat os w₁ (tagMatches_wrappedKeyFile hformat)
      rw [unwrapped_wrappedKeyFile] at hunwrap
      obtain ⟨hloaded, -⟩ := h.unique (loadFromFileEncrypted_unwraps hread passphrase hformat hunwrap)
      exact Except.ok.inj hloaded ▸ Operation.sameKey_keyFromBytes key
    · obtain ⟨what, hrefuse⟩ := loadFromFileEncrypted_refuses hread passphrase hformat
      exact absurd (h.unique hrefuse).1 (by simp)
  · simp at he

end Runs

/-- `key'` has come out of `key`: by encryptions, which count on the key object, and by loads of the
file that the object before was last saved to. -/
inductive Custody (calls : List EndedCall) (key : SecretKey) : SecretKey → Prop where
  | held : Custody calls key key
  | counted {key' used : SecretKey} {plaintext aad : List Byte} {container : GcmContainer}
      (from' : Custody calls key key')
      (call : ⟨.encryptGcm key' plaintext aad, .ok (container, used)⟩ ∈ calls) : Custody calls key used
  | loaded {key' key'' : SecretKey} {before after : List EndedCall} {path : String}
      (from' : Custody calls key key')
      (call : calls = before ++ ⟨.loadFromFile path, .ok key''⟩ :: after)
      (saved : SavedLast before path ⟨.saveToFile key' path, .ok ()⟩) : Custody calls key key''
  | unwrapped {key' key'' : SecretKey} {before after : List EndedCall} {path : String}
      {passphrase : List Byte}
      {iterations : BitVec 32} (from' : Custody calls key key')
      (call : calls = before ++ ⟨.loadFromFileEncrypted path passphrase, .ok key''⟩ :: after)
      (saved : SavedLast before path ⟨.saveToFileEncrypted key' path passphrase iterations,
        .ok ()⟩) : Custody calls key key''

theorem Operation.SameKey.trans {key key' key'' : SecretKey} (h : SameKey key key')
    (h' : SameKey key' key'') :
    SameKey key key'' := ⟨h'.1.trans h.1, h'.2.trans h.2⟩

/-- A GCM encryption that has returned. -/
theorem encryptGcm_ends_ok {os : Os} {key used : SecretKey} {plaintext aad : List Byte}
    {container : GcmContainer} {w v : World}
    (h : Ends ((Operation.encryptGcm key plaintext aad).prog os) w (.ok (container, used)) v) :
    used = (consumeGcmInvocation key).2 ∧ plaintext.length ≤ AesGcm.kMaxPlaintextBytes ∧
      ∃ nonce, container = AesGcm.gcmContainer key nonce plaintext aad := by
  obtain ⟨r, used', hends, hr⟩ := ends_withState.mp h
  cases r with
  | error e => simp [Except.map] at hr
  | ok container' =>
      obtain ⟨rfl, rfl⟩ := Prod.mk.inj (Except.ok.inj hr)
      obtain ⟨hused, hlen, nonce, -, hcontainer⟩ := AesGcm.encrypt_triple os key plaintext aad rfl hends
      exact ⟨hused, hlen, nonce, hcontainer⟩

section Custody

variable {os : Os} {calls : List EndedCall} {w v : World} {key key' : SecretKey}

/-- One step of custody keeps the logical key. -/
theorem Custody.sameKey (h : Custody calls key key') (hcalls : Calls os calls w v) (hw : w.Fresh)
    (hfits : ∀ x ∈ calls, x.1.Fits) : Operation.SameKey key key' := by
  induction h with
  | held => exact ⟨rfl, rfl⟩
  | counted _ call ih =>
      obtain ⟨t, t', hends⟩ := hcalls.ends_of_mem call
      obtain ⟨rfl, -⟩ := encryptGcm_ends_ok hends
      exact ih
  | loaded _ call saved ih =>
      subst call
      obtain ⟨t, t', hbefore, hends, -⟩ := hcalls.split
      have hfitsBefore := fun x hx => hfits x (List.mem_append_left _ hx)
      obtain ⟨data, rfl, hfile⟩ := saved.file hbefore hw hfitsBefore (f := .key)
        fun content hcontent hrefuses => hrefuses.2 os t _ _ t' hcontent hends
      exact ih.trans (loadFromFile_keyFile hfile hends)
  | unwrapped _ call saved ih =>
      subst call
      obtain ⟨t, t', hbefore, hends, -⟩ := hcalls.split
      have hfitsBefore := fun x hx => hfits x (List.mem_append_left _ hx)
      obtain ⟨data, ⟨-, salt, nonce, rfl⟩, hfile⟩ := saved.file hbefore hw hfitsBefore (f := .wrappedKey)
        fun content hcontent hrefuses => (hrefuses _).2 os t _ _ t' hcontent hends
      exact ih.trans (loadFromFileEncrypted_wrappedKeyFile hfile hends)

theorem Operation.SameKey.blockCipher (h : SameKey key key') : blockCipher key' = blockCipher key :=
  blockCipher_congr h.1 h.2

theorem Operation.SameKey.keystreamXor (h : SameKey key key') :
    keystreamXor key' = keystreamXor key := by
  funext start nonce input
  rw [Aeslib.keystreamXor, Aeslib.keystreamXor, h.blockCipher]

theorem Operation.SameKey.tagOf (h : SameKey key key') : AesGcm.tagOf key' = AesGcm.tagOf key := by
  funext nonce aad ciphertext
  rw [AesGcm.tagOf, AesGcm.tagOf, AesGcm.hashSubkey, AesGcm.hashSubkey, h.blockCipher]

/-- **What has been encrypted can be decrypted with any key that has come out of the key that
encrypted it**, in any run on any platform. -/
theorem custody_decrypts (hcalls : Calls os calls w v) (hw : w.Fresh) (hfits : ∀ x ∈ calls, x.1.Fits)
    (h : Custody calls key key') :
    Operation.SameKey key key' ∧
    (∀ plaintext container r, ⟨.encryptCtr key plaintext, .ok container⟩ ∈ calls →
      ⟨.decryptCtr key' container, r⟩ ∈ calls → r = .ok plaintext) ∧
    (∀ plaintext aad container used r, ⟨.encryptGcm key plaintext aad, .ok (container, used)⟩ ∈ calls →
      ⟨.decryptGcm key' container aad, r⟩ ∈ calls → r = .ok plaintext) := by
  have hsame := h.sameKey hcalls hw hfits
  refine ⟨hsame, fun plaintext container r hencrypt hdecrypt => ?_,
    fun plaintext aad container used r hencrypt hdecrypt => ?_⟩
  · obtain ⟨s, s', hencrypted⟩ := hcalls.ends_of_mem hencrypt
    obtain ⟨t, t', hdecrypted⟩ := hcalls.ends_of_mem hdecrypt
    obtain ⟨hlen, nonce, -, rfl⟩ := Aes256Ctr.encrypt_triple os key plaintext trivial hencrypted
    have hends := Aes256Ctr.decrypt_ends { nonce, ciphertext := keystreamXor key 0 nonce plaintext }
      (by rwa [length_keystreamXor]) os t key'
    rw [hsame.keystreamXor, keystreamXor_keystreamXor] at hends
    exact (hdecrypted.unique hends).1
  · obtain ⟨s, s', hencrypted⟩ := hcalls.ends_of_mem hencrypt
    obtain ⟨t, t', hdecrypted⟩ := hcalls.ends_of_mem hdecrypt
    obtain ⟨-, hlen, nonce, rfl⟩ := encryptGcm_ends_ok hencrypted
    have htag : AesGcm.tagOf key' nonce aad (keystreamXor key 2 nonce plaintext) =
        (AesGcm.gcmContainer key nonce plaintext aad).tag := by
      rw [hsame.tagOf]
      rfl
    have hends := AesGcm.decrypt_accepts os t key' (AesGcm.gcmContainer key nonce plaintext aad)
      (by rwa [AesGcm.gcmContainer, length_keystreamXor]) htag
    rw [AesGcm.gcmContainer, hsame.keystreamXor, keystreamXor_keystreamXor] at hends
    exact (hdecrypted.unique hends).1

end Custody

/-- A key that is saved, used and loaded again. -/
def savedUsedLoaded (container : Container) (r : Except Error (List Byte)) : List EndedCall :=
  [⟨.saveToFile {} "key", .ok ()⟩, ⟨.encryptCtr {} [7], .ok container⟩,
    ⟨.loadFromFile "key", .ok (reloaded {})⟩, ⟨.decryptCtr (reloaded {}) container, r⟩]

theorem custody_savedUsedLoaded (container : Container) (r : Except Error (List Byte)) :
    Custody (savedUsedLoaded container r) {} (reloaded {}) := by
  have hcalls : savedUsedLoaded container r =
      ([⟨.saveToFile {} "key", .ok ()⟩, ⟨.encryptCtr {} [7], .ok container⟩] :
      List EndedCall) ++
      ⟨.loadFromFile "key", .ok (reloaded {})⟩ :: [⟨.decryptCtr (reloaded {}) container, r⟩] := rfl
  refine .loaded .held hcalls ⟨⟨[], _, rfl, ?_, ?_⟩, rfl, rfl⟩
  · simp [NoneSaved, Operation.target]
  · simp [NotRaw]

theorem fits_savedUsedLoaded (container : Container) (r : Except Error (List Byte)) :
    ∀ x ∈ savedUsedLoaded container r, x.1.Fits := by simp [savedUsedLoaded, Operation.Fits]

theorem custody_decrypts_savedUsedLoaded : ∃ container r v,
    Calls Os.plain (savedUsedLoaded container r) World.empty v ∧ r = .ok [7] := by
  obtain ⟨w₁, hsave, hstored⟩ := saveToFile_serves Os.plain_serves World.empty {} "key"
  have hlen : ([7] : List Byte).length ≤ Aes256Ctr.kMaxPlaintextBytes := by decide
  have hencrypt := Aes256Ctr.encrypt_ends {} hlen (generateNonce_serves Os.plain_serves w₁)
  set nonce := Os.plain.draw w₁.clock kNonceSizeBytes
  have hkept : (w₁.tick.ciphered (counterBlocks 0 nonce 1)).files "key" = some (keyFileBytes {}) :=
    hstored
  obtain ⟨w₃, hload⟩ := loadFromFile_serves Os.plain_serves {} hkept
  have hdecrypt := Aes256Ctr.decrypt_ends { nonce, ciphertext := keystreamXor {} 0 nonce [7] }
    (by rwa [length_keystreamXor]) Os.plain w₃ (reloaded {})
  have hcalls : Calls Os.plain (savedUsedLoaded _ _) World.empty _ :=
    .next (c := Operation.saveToFile {} "key") hsave (.next (c := Operation.encryptCtr {} [7]) hencrypt
      (.next (c := Operation.loadFromFile "key") hload
        (.next (c := Operation.decryptCtr (reloaded {}) _) hdecrypt (.done _))))
  obtain ⟨-, hctr, -⟩ :=
    custody_decrypts hcalls World.fresh_empty (fits_savedUsedLoaded _ _) (custody_savedUsedLoaded _ _)
  exact ⟨_, _, _, hcalls, hctr [7] _ _ (List.mem_cons_of_mem _ List.mem_cons_self)
    (List.mem_cons_of_mem _ (List.mem_cons_of_mem _ (List.mem_cons_of_mem _ List.mem_cons_self)))⟩

end Aeslib
