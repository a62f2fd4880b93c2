import Aeslib.KeyStorageRoundTrip
import Aeslib.LibRequests

/-!
The POSIX writers against an arbitrary row of `write(2)` results. `Transfer.Carries` ties the loops
of `write_file`, `save_to_file` and `save_to_file_encrypted` to the requests that they make: a
transfer reports success where the requests are served, it reports a failure where one of them
fails, and it has no end where they stall. A result of zero is no error to these loops, so a
platform that answers zero from some time on keeps them in there.
-/

namespace Aeslib

open Prog Requests

/-- From the end of a file on, the transfer sends `data` as the requests of `plan` are answered. -/
structure Transfer.Carries (os : Os) (transfer : Transfer) (plan : Plan) (data : List Byte) : Prop where
  completes : ∀ {w u fd path content}, World.AtEnd w fd path content →
    plan.Completes os.write w.clock u →
    ∃ w', Ends (transfer fd) w (.ok true) w' ∧ w'.AtEnd fd path (content ++ data) ∧ w'.clock = u
  fails : ∀ {w fd path content}, World.AtEnd w fd path content → plan.Fails os.write w.clock →
    ∃ w', Ends (transfer fd) w (.ok false) w'
  stalls : ∀ {w fd path content}, World.AtEnd w fd path content → plan.Stalls os.write w.clock →
    ∀ r w', ¬Ends (transfer fd) w r w'

section Carries

variable (os : Os) (data : List Byte)

theorem writeOnce_carries : Transfer.Carries os (writeOnce os data) (.once data.length) data where
  completes := by
    rintro w u fd path content hw ⟨rfl, c, hanswer, hle⟩
    obtain ⟨w', hwrite, hend, hclock⟩ := write_answered hw hanswer
    rw [Nat.min_eq_right hle] at hwrite hend
    rw [List.take_length] at hend
    refine ⟨w', ?_, hend, hclock⟩
    rw [writeOnce, hwrite.bind_iff, ends_pure]
    simp
  fails := by
    intro w fd path content hw hfails
    cases hanswer : os.write w.clock data.length with
    | none =>
        refine ⟨w.tick, ?_⟩
        rw [writeOnce, (write_failed hanswer fd).bind_iff, ends_pure]
        simp
    | some c =>
        have hlt := hfails c hanswer
        obtain ⟨w', hwrite, -⟩ := write_answered hw hanswer
        refine ⟨w', ?_⟩
        rw [writeOnce, hwrite.bind_iff, ends_pure]
        simp
        omega
  stalls := fun _ hstalls => hstalls.elim

/-- The variables of the write loop at the time `u` with `m` bytes left. -/
def Sent (fd : Nat) (path : String) (content data : List Byte) (u m written : Nat) (w : World) : Prop :=
  w.clock = u ∧ written + m = data.length ∧ w.AtEnd fd path (content ++ data.take written)

theorem writeLoop_follows (fd : Nat) (path : String) (content : List Byte) :
    Follows os.write (writeLoopBody os fd data) (Sent fd path content data) := by
  rintro u m c written w ⟨rfl, hleft, hend⟩ hm hanswer
  have hlength : (data.drop written).length = m := by
    rw [List.length_drop]
    omega
  rw [← hlength] at hanswer
  obtain ⟨w', hwrite, hend', hclock⟩ := write_answered hend hanswer
  rw [hlength] at hwrite hend'
  refine ⟨written + min c m, w', ?_, hclock, by omega, ?_⟩
  · rw [writeLoopBody, if_pos (by omega), hwrite.bind_iff, ends_pure]
    exact ⟨rfl, rfl⟩
  · rwa [List.append_assoc, ← List.take_add] at hend'

theorem writeLoop_carries :
    Transfer.Carries os (fun fd => writeLoop os fd data) (.all data.length) data where
  completes := by
    intro w u fd path content hw hdone
    have hstart : Sent fd path content data w.clock data.length 0 w :=
      ⟨rfl, Nat.zero_add _, by simpa using hw⟩
    obtain ⟨written, w', ⟨hclock, hleft, hend⟩, hsame⟩ :=
      (writeLoop_follows os data fd path content).reaches hstart hdone
    obtain rfl : written = data.length := hleft
    rw [List.take_length] at hend
    refine ⟨w', (hsame _ _).mpr (Ends.loop_done ?_), hend, hclock⟩
    rw [writeLoopBody, if_neg (lt_irrefl _), ends_pure]
    exact ⟨rfl, rfl⟩
  fails := by
    rintro w fd path content hw ⟨u, m, hasked, hm, hanswer⟩
    have hstart : Sent fd path content data w.clock data.length 0 w :=
      ⟨rfl, Nat.zero_add _, by simpa using hw⟩
    obtain ⟨written, w', ⟨rfl, hleft, hend⟩, hsame⟩ :=
      (writeLoop_follows os data fd path content).reaches hstart hasked
    have hlength : (data.drop written).length = m := by
      rw [List.length_drop]
      omega
    rw [← hlength] at hanswer
    refine ⟨w'.tick, (hsame _ _).mpr (Ends.loop_done ?_)⟩
    rw [writeLoopBody, if_pos (by omega), (write_failed hanswer fd).bind_iff, ends_pure]
    exact ⟨rfl, rfl⟩
  stalls := by
    intro w fd path content hw hstalls
    have hstart : Sent fd path content data w.clock data.length 0 w :=
      ⟨rfl, Nat.zero_add _, by simpa using hw⟩
    exact (writeLoop_follows os data fd path content).diverges hstart hstalls

variable {os data}

theorem Transfer.Carries.andThen {first second : Transfer} {plan plan' : Plan} {data' : List Byte}
    (hfirst : first.Carries os plan data) (hsecond : second.Carries os plan' data') :
    (first.andThen second).Carries os (plan.andThen plan') (data ++ data') where
  completes := by
    rintro w u fd path content hw ⟨v, hdone, hdone'⟩
    obtain ⟨w₁, h₁, hend₁, rfl⟩ := hfirst.completes hw hdone
    obtain ⟨w₂, h₂, hend₂, hclock⟩ := hsecond.completes hend₁ hdone'
    rw [List.append_assoc] at hend₂
    exact ⟨w₂, h₁.bind (by simpa using h₂), hend₂, hclock⟩
  fails := by
    rintro w fd path content hw (hfails | ⟨v, hdone, hfails⟩)
    · obtain ⟨w', h⟩ := hfirst.fails hw hfails
      exact ⟨w', h.bind (by simp)⟩
    · obtain ⟨w₁, h₁, hend₁, rfl⟩ := hfirst.completes hw hdone
      obtain ⟨w₂, h₂⟩ := hsecond.fails hend₁ hfails
      exact ⟨w₂, h₁.bind (by simpa using h₂)⟩
  stalls := by
    rintro w fd path content hw (hstalls | ⟨v, hdone, hstalls⟩) r w' h
    · rcases ends_bind.mp h with ⟨_, w₁, h₁, -⟩ | ⟨_, -, h₁⟩
      · exact hfirst.stalls hw hstalls _ _ h₁
      · exact hfirst.stalls hw hstalls _ _ h₁
    · obtain ⟨w₁, h₁, hend₁, rfl⟩ := hfirst.completes hw hdone
      rw [Transfer.andThen, h₁.bind_iff, if_pos rfl] at h
      exact hsecond.stalls hend₁ hstalls _ _ h

end Carries

/-- The save ends, with `data` in the file or with `IoError`. -/
def EndsStored (save : Prog World Error Unit) (w : World) (path : String) (data : List Byte) : Prop :=
  (∃ w', Ends save w (.ok ()) w' ∧ w'.files path = some data) ∨
    ∃ what w', Ends save w (.error (.ioError what)) w'

/-- The file opens, and the requests of its writer stall. -/
def Hangs (os : Os) (plan : Plan) (w : World) (path : String) : Prop :=
  os.openForWriting w.clock path = true ∧ plan.Stalls os.write (w.clock + 1)

/-- The file opens, and one of the requests of its writer is answered by an error. -/
def MeetsError (os : Os) (plan : Plan) (w : World) (path : String) : Prop :=
  os.openForWriting w.clock path = true ∧ ∃ u m, plan.Asks os.write (w.clock + 1) u m ∧
    os.write u m = none

section NewFile

variable {os : Os} (hposix : os.family ≠ .windows) {posix windows : Transfer} {plan : Plan}
  {data : List Byte}
  (hcarries : posix.Carries os plan data) (w : World) (path createError reparseError writeError : String)

include hposix

/-- Behind a successful `open` there is the transfer, and then its flag decides. -/
theorem writeNewFile_ends_iff {w₁ : World}
    (hopen : Ends (openForWriting os path) w (.ok (some w.clock)) w₁) {r : Except Error Unit}
    {w' : World} :
    Ends (writeNewFile os path createError reparseError writeError posix windows) w r w' ↔
      Ends (do
        let ok ← posix w.clock
        closeFd w.clock
        raiseIf (ok = false) (.ioError (writeError ++ path))) w₁ r w' := by
  have hcheck : Ends (os.ifWindows (isReparsePoint os path) (pure false)) w₁ (.ok false) w₁ := by
    rw [Os.ifWindows, if_neg hposix, ends_pure]
    exact ⟨rfl, rfl⟩
  rw [writeNewFile, hopen.bind_iff, hcheck.bind_iff, if_neg Bool.false_ne_true, Os.ifWindows,
    if_neg hposix]

include hcarries

theorem writeNewFile_hangs (h : Hangs os plan w path) (r : Except Error Unit) (w' : World) :
    ¬Ends (writeNewFile os path createError reparseError writeError posix windows) w r w' := by
  obtain ⟨w₁, hopen, hend, hclock⟩ := openForWriting_opens h.1
  rw [writeNewFile_ends_iff hposix w path createError reparseError writeError hopen, ends_bind]
  have hstalls := h.2
  rw [← hclock] at hstalls
  rintro (⟨_, w₂, htransfer, -⟩ | ⟨_, -, htransfer⟩)
  · exact hcarries.stalls hend hstalls _ _ htransfer
  · exact hcarries.stalls hend hstalls _ _ htransfer

theorem writeNewFile_fails (hopen : os.openForWriting w.clock path = true)
    (hfails : plan.Fails os.write (w.clock + 1)) :
    ∃ w', Ends (writeNewFile os path createError reparseError writeError posix windows) w
      (.error (.ioError (writeError ++ path))) w' := by
  obtain ⟨w₁, hopen, hend, hclock⟩ := openForWriting_opens hopen
  rw [← hclock] at hfails
  obtain ⟨w₂, htransfer⟩ := hcarries.fails hend hfails
  refine ⟨(w₂.setFd w.clock none).tick, ?_⟩
  rw [writeNewFile_ends_iff hposix w path createError reparseError writeError hopen, htransfer.bind_iff,
    (closeFd_ends w.clock w₂).bind_iff]
  exact ends_raiseIf_pos rfl

theorem writeNewFile_completes (hopen : os.openForWriting w.clock path = true) {u : Nat}
    (hdone : plan.Completes os.write (w.clock + 1) u) :
    ∃ w', Ends (writeNewFile os path createError reparseError writeError posix windows) w (.ok ()) w' ∧
      w'.files path = some data := by
  obtain ⟨w₁, hopen, hend, hclock⟩ := openForWriting_opens hopen
  rw [← hclock] at hdone
  obtain ⟨w₂, htransfer, hend₂, -⟩ := hcarries.completes hend hdone
  refine ⟨(w₂.setFd w.clock none).tick, ?_, hend₂.file⟩
  rw [writeNewFile_ends_iff hposix w path createError reparseError writeError hopen, htransfer.bind_iff,
    (closeFd_ends w.clock w₂).bind_iff]
  exact ends_raiseIf_neg (by decide)

theorem writeNewFile_meetsError (h : MeetsError os plan w path) :
    ∃ what w', Ends (writeNewFile os path createError reparseError writeError posix windows) w
      (.error (.ioError what)) w' := by
  obtain ⟨hopen, u, m, hasks, herror⟩ := h
  exact ⟨_, writeNewFile_fails hposix hcarries w path createError reparseError writeError hopen
    (hasks.fails herror)⟩

theorem writeNewFile_endsStored_iff :
    EndsStored (writeNewFile os path createError reparseError writeError posix windows) w path data ↔
      ¬Hangs os plan w path := by
  constructor
  · rintro (⟨w', hends, -⟩ | ⟨_, w', hends⟩) hhangs
    · exact writeNewFile_hangs hposix hcarries w path createError reparseError writeError hhangs _ _
        hends
    · exact writeNewFile_hangs hposix hcarries w path createError reparseError writeError hhangs _ _
        hends
  · intro hnot
    by_cases hopen : os.openForWriting w.clock path = true
    swap
    · have hrefused : Ends (openForWriting os path) w (.ok none) w.tick := by
        rw [openForWriting, ends_op, if_neg hopen]
      exact .inr ⟨createError ++ path, w.tick, hrefused.bind ((ends_raise _ _ _ _).mpr ⟨rfl, rfl⟩)⟩
    obtain ⟨u, hdone⟩ | hfails | hstalls := plan.completes_or_fails_or_stalls (w.clock + 1)
    · exact .inl (writeNewFile_completes hposix hcarries w path createError reparseError writeError
        hopen hdone)
    · exact .inr ⟨_, writeNewFile_fails hposix hcarries w path createError reparseError writeError
        hopen hfails⟩
    · exact absurd ⟨hopen, hstalls⟩ hnot

end NewFile

namespace SecretKey

/-- What `save_to_file` asks of `write(2)`: the header at once, then the key. -/
def keyFilePlan (key : SecretKey) : Plan := (Plan.once 2).andThen (.all key.sizeBytes)

/-- What `save_to_file_encrypted` asks of `write(2)`. -/
def sealedPlan (part : List Byte) (tag : Vector Byte kTagSize) : Plan :=
  (Plan.all part.length).andThen (.all tag.toList.length)

theorem keyFile_carries (os : Os) (key : SecretKey) :
    Transfer.Carries os
    (Transfer.andThen (writeOnce os [kKeyFileVersion, key.size.marker]) fun fd =>
    writeLoop os fd key.material)
      key.keyFilePlan key.keyFileBytes := by
  have hmaterial := writeLoop_carries os key.material
  rw [key.length_material] at hmaterial
  exact (writeOnce_carries os [kKeyFileVersion, key.size.marker]).andThen hmaterial

theorem sealed_carries (os : Os) (part : List Byte) (tag : Vector Byte kTagSize) :
    Transfer.Carries os
    (Transfer.andThen (fun fd => writeLoop os fd part) fun fd => writeLoop os fd tag.toList)
      (sealedPlan part tag) (part ++ tag.toList) :=
      (writeLoop_carries os part).andThen (writeLoop_carries os tag.toList)

end SecretKey

section Writers

variable {os : Os} (hposix : os.family ≠ .windows) (path : String)

include hposix

theorem writeFile_endsStored_iff (w : World) (data : List Byte) :
    EndsStored (writeFile os path data) w path data ↔ ¬Hangs os (.all data.length) w path :=
  writeNewFile_endsStored_iff hposix (writeLoop_carries os data) w path _ _ _

theorem saveToFile_endsStored_iff (w : World) (key : SecretKey) :
    EndsStored (key.saveToFile os path) w path key.keyFileBytes ↔ ¬Hangs os key.keyFilePlan w path := by
  rw [SecretKey.saveToFile, SecretKey.sizeMarker_eq]
  exact writeNewFile_endsStored_iff hposix (SecretKey.keyFile_carries os key) w path _ _ _

theorem saveToFileEncrypted_endsStored_iff {key : SecretKey} {passphrase : List Byte}
    {iterations : BitVec 32} {part : List Byte} {tag : Vector Byte kTagSize} {w₀ w : World}
    (hsealed : Ends (key.sealKey os passphrase iterations) w₀ (.ok (part, tag)) w) :
    EndsStored (key.saveToFileEncrypted os path passphrase iterations) w₀ path (part ++ tag.toList) ↔
      ¬Hangs os (SecretKey.sealedPlan part tag) w path := by
  have hwrite : EndsStored (SecretKey.writeSealed os path part tag) w path (part ++ tag.toList) ↔
      ¬Hangs os (SecretKey.sealedPlan part tag) w path :=
    writeNewFile_endsStored_iff hposix (SecretKey.sealed_carries os part tag) w path _ _ _
  rw [← hwrite, SecretKey.saveToFileEncrypted_eq]
  simp only [EndsStored, hsealed.bind_iff]

/-- **The POSIX writers end, with everything stored or with `IoError`, unless their requests
stall**: that is, unless from some time on `write(2)` answers zero for good while bytes are left. -/
theorem writers_end_iff :
    (∀ w data, EndsStored (writeFile os path data) w path data ↔ ¬Hangs os (.all data.length) w path) ∧
    (∀ w key, EndsStored (SecretKey.saveToFile os key path) w path key.keyFileBytes ↔
      ¬Hangs os key.keyFilePlan w path) ∧
    ∀ (key : SecretKey) passphrase iterations w₀ part tag w,
      Ends (key.sealKey os passphrase iterations) w₀ (.ok (part, tag)) w →
      (EndsStored (key.saveToFileEncrypted os path passphrase iterations) w₀ path (part ++ tag.toList) ↔
        ¬Hangs os (SecretKey.sealedPlan part tag) w path) :=
  ⟨writeFile_endsStored_iff hposix path, saveToFile_endsStored_iff hposix path,
    fun _ _ _ _ _ _ _ hsealed => saveToFileEncrypted_endsStored_iff hposix path hsealed⟩

omit hposix in
theorem not_hangs (hos : os.Serves) (plan : Plan) (w : World) : ¬Hangs os plan w path := by
  rintro ⟨-, hstalls⟩
  refine plan.not_stalls (fun u m hm hzero => ?_) _ hstalls
  rw [hos.write, Option.some.injEq] at hzero
  omega

omit hposix in
theorem writers_end_iff_plain :
    EndsStored (writeFile Os.plain "file" [0x61]) World.empty "file" [0x61] ∧
    EndsStored (SecretKey.saveToFile Os.plain {} "file") World.empty "file" (SecretKey.keyFileBytes {}) ∧
    ∃ part tag w, Ends (SecretKey.sealKey Os.plain {} [] 1000) World.empty (.ok (part, tag)) w ∧
      EndsStored (SecretKey.saveToFileEncrypted Os.plain {} "file" [] 1000) World.empty "file"
        (part ++ Vector.toList tag) := by
  obtain ⟨hfile, hkey, hencrypted⟩ := writers_end_iff (show Os.plain.family ≠ .windows by decide) "file"
  have hplain := not_hangs "file" Os.plain_serves
  refine ⟨(hfile _ _).mpr (hplain _ _), (hkey _ _).mpr (hplain _ _), ?_⟩
  obtain ⟨w', hsave⟩ :=
    saveToFileEncrypted_serves {} "file" [] 1000 Os.plain_serves World.empty (by decide) (by decide)
  rw [SecretKey.saveToFileEncrypted_eq] at hsave
  rcases ends_bind.mp hsave with ⟨⟨part, tag⟩, w, hsealed, -⟩ | ⟨_, he, -⟩
  · exact ⟨part, tag, w, hsealed, (hencrypted _ _ _ _ _ _ _ hsealed).mpr (hplain _ _)⟩
  · exact absurd he (by simp)

/-- A platform on which `write(2)` transfers nothing and reports no error. -/
def Os.stuck : Os := { Os.plain with write := fun _ _ => some 0 }

omit hposix in
/-- One byte is never stored, and no error is thrown. -/
theorem not_endsStored_stuck :
    ¬EndsStored (writeFile Os.stuck "file" [0x61]) World.empty "file" [0x61] := by
  rw [writeFile_endsStored_iff (by decide), not_not]
  exact ⟨rfl, 1, 1, .start, by decide, fun _ _ => rfl⟩

/-- **A save that returns has stored everything**, and a save to which `write(2)` reports an error
throws `IoError`. -/
theorem saves_stored :
    (∀ w w' data, Ends (writeFile os path data) w (.ok ()) w' → w'.files path = some data) ∧
    (∀ w data, MeetsError os (.all data.length) w path →
      ∃ what w', Ends (writeFile os path data) w (.error (.ioError what)) w') ∧
    (∀ w w' key, Ends (SecretKey.saveToFile os key path) w (.ok ()) w' →
      w'.files path = some key.keyFileBytes) ∧
    (∀ w key, MeetsError os key.keyFilePlan w path →
      ∃ what w', Ends (SecretKey.saveToFile os key path) w (.error (.ioError what)) w') ∧
    (∀ (key : SecretKey) passphrase iterations w w',
      Ends (key.saveToFileEncrypted os path passphrase iterations) w (.ok ()) w' →
      ∃ salt nonce, Returned (fillRandom os (Vector.replicate kSaltSize 0)) salt ∧
        Returned (generateNonce os) nonce ∧
        w'.files path = some (wrappedKeyFile key passphrase iterations salt nonce)) ∧
    ∀ (key : SecretKey) passphrase iterations w₀ part tag w,
      Ends (key.sealKey os passphrase iterations) w₀ (.ok (part, tag)) w →
      MeetsError os (SecretKey.sealedPlan part tag) w path →
      ∃ what w', Ends (key.saveToFileEncrypted os path passphrase iterations) w₀
        (.error (.ioError what)) w' := by
  refine ⟨fun w w' data h => ?_, fun w data herror => ?_, fun w w' key h => ?_, fun w key herror => ?_,
    fun key passphrase iterations w w' h => ?_,
    fun key passphrase iterations w₀ part tag w hsealed herror => ?_⟩
  · exact writeNewFile_stores os (writeLoop_appends os data) (writeFileBranch_appends os data) trivial h
  · exact writeNewFile_meetsError hposix (writeLoop_carries os data) w path _ _ _ herror
  · exact SecretKey.saveToFile_stores os key path trivial h
  · rw [SecretKey.saveToFile, SecretKey.sizeMarker_eq]
    exact writeNewFile_meetsError hposix (SecretKey.keyFile_carries os key) w path _ _ _ herror
  · exact (saveToFileEncrypted_stores os key path passphrase iterations trivial h).2.2
  · obtain ⟨what, w', hthrow⟩ :=
      writeNewFile_meetsError hposix (SecretKey.sealed_carries os part tag) w path _ _ _ herror
    refine ⟨what, w', ?_⟩
    rw [SecretKey.saveToFileEncrypted_eq]
    exact hsealed.bind hthrow

end Writers

/-- A platform on which `write(2)` takes two bytes at a time. -/
def Os.narrow : Os := { Os.plain with write := fun _ count => some (min count 2) }

/-- A platform on which the disk is full 30 bytes before the end. -/
def Os.fillsUp : Os :=
  { Os.plain with write := fun _ count => if count = 30 then none else some (max 2 (count - 30)) }

theorem Os.narrow_completes (n t : Nat) : ∃ u, Left Os.narrow.write t n u 0 := by
  obtain hdone | ⟨_, _, -, -, hnone⟩ | hstalls :=
    Requests.completes_or_fails_or_stalls Os.narrow.write t n
  · exact hdone
  · exact absurd hnone (by simp [Os.narrow])
  · refine absurd hstalls (Requests.not_stalls fun _ m hm hzero => ?_)
    have hmin : min m 2 = 0 := Option.some.inj hzero
    omega

/-- A request for 30 bytes is made after the first one is answered. -/
theorem Os.fillsUp_asks {n : Nat} (hn : 32 ≤ n) (t : Nat) :
    ∃ u, (Plan.all n).Asks Os.fillsUp.write t u 30 := by
  have hanswer : Os.fillsUp.write t n = some (n - 30) := by
    have hne : n ≠ 30 := by omega
    have hmax : max 2 (n - 30) = n - 30 := by omega
    simp only [Os.fillsUp, if_neg hne, hmax]
  have hleft : n - (n - 30) = 30 := by omega
  exact ⟨t + 1, hleft ▸ Left.start.next (by omega) hanswer, by decide⟩

/-- What comes before the file does not see `write(2)`. -/
theorem sealKey_writes (write : Nat → Nat → Option Nat) : ∃ part tag w,
    Ends (SecretKey.sealKey { Os.plain with write } {} [0x70] 1000) World.empty (.ok (part, tag))
      w ∧ part.length = 70 := by
  have hsame : SecretKey.sealKey { Os.plain with write } = SecretKey.sealKey Os.plain := rfl
  rw [hsame]
  refine ⟨_, _, _, SecretKey.sealKey_ends {} [0x70] 1000 (by decide) (by decide)
    (fillRandom_serves Os.plain_serves (by decide) _)
    (fillRandom_serves Os.plain_serves (by decide) _) (generateNonce_serves Os.plain_serves _), ?_⟩
  rw [length_wrappedKeyPart, length_keystreamXor, SecretKey.length_material]
  rfl

/-- The three writers with short writes, and on a disk that fills up. -/
theorem saves_stored_shortWrites :
    (∃ w', Ends (writeFile Os.narrow "file" [1, 2, 3, 4, 5]) World.empty (.ok ()) w' ∧
      w'.files "file" = some [1, 2, 3, 4, 5]) ∧
    (∃ w', Ends (SecretKey.saveToFile Os.narrow {} "file") World.empty (.ok ()) w' ∧
      w'.files "file" = some (SecretKey.keyFileBytes {})) ∧
    (∃ w' salt nonce, Ends (SecretKey.saveToFileEncrypted Os.narrow {} "file" [0x70] 1000)
      World.empty (.ok ()) w' ∧
      w'.files "file" = some (wrappedKeyFile {} [0x70] 1000 salt nonce)) ∧
    (∃ what w', Ends (writeFile Os.fillsUp "file" (List.replicate 32 1)) World.empty
      (.error (.ioError what)) w') ∧
    (∃ what w', Ends (SecretKey.saveToFile Os.fillsUp {} "file") World.empty
      (.error (.ioError what)) w') ∧
    ∃ what w', Ends (SecretKey.saveToFileEncrypted Os.fillsUp {} "file" [0x70] 1000) World.empty
      (.error (.ioError what)) w' := by
  have hnarrow : Os.narrow.family ≠ .windows := by decide
  obtain ⟨hfile, -, hkey, -, hencrypted, -⟩ := saves_stored hnarrow "file"
  obtain ⟨-, hfileError, -, hkeyError, -, hencryptedError⟩ :=
    saves_stored (show Os.fillsUp.family ≠ .windows by decide) "file"
  refine ⟨?_, ?_, ?_, hfileError _ _ ⟨rfl, ?_⟩, hkeyError _ _ ⟨rfl, ?_⟩, ?_⟩
  · obtain ⟨u, hdone⟩ := Os.narrow_completes 5 1
    have hends : ∃ w', Ends (writeFile Os.narrow "file" [1, 2, 3, 4, 5]) World.empty (.ok ()) w' :=
      (writeNewFile_completes hnarrow (writeLoop_carries Os.narrow [1, 2, 3, 4, 5]) World.empty
        "file" _ _ _ rfl hdone).imp
        fun _ h => h.1
    exact hends.imp fun w' hends => ⟨hends, hfile _ _ _ hends⟩
  · obtain ⟨u, hdone⟩ := Os.narrow_completes 32 2
    have hplan : (SecretKey.keyFilePlan {}).Completes Os.narrow.write 1 u :=
      ⟨2, ⟨rfl, 2, rfl, le_rfl⟩, hdone⟩
    have hends : ∃ w', Ends (SecretKey.saveToFile Os.narrow {} "file") World.empty (.ok ()) w' := by
      rw [SecretKey.saveToFile, SecretKey.sizeMarker_eq]
      exact (writeNewFile_completes hnarrow (SecretKey.keyFile_carries Os.narrow {}) World.empty
        "file" _ _ _ rfl hplan).imp
        fun _ h => h.1
    exact hends.imp fun w' hends => ⟨hends, hkey _ _ _ hends⟩
  · obtain ⟨part, tag, w, hsealed, -⟩ := sealKey_writes Os.narrow.write
    obtain ⟨u, hdone⟩ := Os.narrow_completes part.length (w.clock + 1)
    obtain ⟨v, hdone'⟩ := Os.narrow_completes tag.toList.length u
    obtain ⟨w', hends, -⟩ :=
      writeNewFile_completes hnarrow (SecretKey.sealed_carries Os.narrow part tag) w "file"
        "failed to create encrypted key file: "
      "refusing to write encrypted key file through a symlink/reparse point: "
      "failed to write encrypted key file: " rfl ⟨u, hdone, hdone'⟩
    have hsave : Ends (SecretKey.saveToFileEncrypted Os.narrow {} "file" [0x70] 1000) World.empty
        (.ok ()) w' := by
      rw [SecretKey.saveToFileEncrypted_eq]
      exact hsealed.bind hends
    obtain ⟨salt, nonce, -, -, hstored⟩ := hencrypted _ _ _ _ _ hsave
    exact ⟨w', salt, nonce, hsave, hstored⟩
  · obtain ⟨u, hasks⟩ := Os.fillsUp_asks (n := 32) le_rfl 1
    exact ⟨u, 30, hasks, rfl⟩
  · obtain ⟨u, hasks⟩ := Os.fillsUp_asks (n := 32) le_rfl 2
    exact ⟨u, 30, .inr ⟨2, ⟨rfl, 2, rfl, le_rfl⟩, hasks⟩, rfl⟩
  · obtain ⟨part, tag, w, hsealed, hlen⟩ := sealKey_writes Os.fillsUp.write
    obtain ⟨u, hasks⟩ := Os.fillsUp_asks (n := part.length) (by omega) (w.clock + 1)
    exact hencryptedError _ _ _ _ _ _ _ hsealed ⟨rfl, u, 30, .inl hasks, rfl⟩

end Aeslib
