import Aeslib.Os

/-!
The writers: `write_file` of `src/container.cpp` and the part that it shares with `save_to_file` and
`save_to_file_encrypted`. A transfer sends bytes through a descriptor and tells whether they all
went out. `Appends` is what its answer promises on any platform, `Completes` that a platform which
serves carries it out.
-/

namespace Aeslib

open Prog

abbrev Transfer := Nat → Prog World Error Bool

/-- `write(fd, data, size) == size`, without a loop. -/
def writeOnce (os : Os) (data : List Byte) : Transfer := fun fd => do
  let n ← write os fd data
  pure (n == some data.length)

/-- `first && second`. -/
def Transfer.andThen (first second : Transfer) : Transfer := fun fd => do
  if ← first fd then second fd else pure false

/-- Creates the file at `path`, refuses a reparse point on Windows, transfers, and closes. -/
def writeNewFile (os : Os) (path createError reparseError writeError : String)
    (posix windows : Transfer) : Prog World Error Unit := do
  match ← openForWriting os path with
  | none => raise (.ioError (createError ++ path))
  | some fd =>
    if ← os.ifWindows (isReparsePoint os path) (pure false) then
      closeFd fd
      raise (.ioError (reparseError ++ path))
    else
      let ok ← os.ifWindows windows posix fd
      closeFd fd
      raiseIf (ok = false) (.ioError (writeError ++ path))

/-- `write_file`. -/
def writeFile (os : Os) (path : String) (data : List Byte) : Prog World Error Unit :=
  writeNewFile os path "failed to open file for writing: "
    "refusing to write through a symlink/reparse point: "
    "failed to write file: " (fun fd => writeLoop os fd data)
    (fun fd => if data.isEmpty then pure true else writeFileWin os fd data)

/-- Whenever the transfer reports success, it has appended `data`. -/
def Appends (transfer : Transfer) (data : List Byte) : Prop := ∀ fd path content,
  Triple (fun w => w.AtEnd fd path content) (transfer fd)
    fun ok w => ok = true → w.AtEnd fd path (content ++ data)

section Any

variable (os : Os) {fd : Nat} {path : String} {content : List Byte}

theorem openForWriting_triple (path : String) :
    Triple (fun _ => True) (openForWriting os path) fun fd w => ∀ d, fd = some d →
    w.AtEnd d path [] := by
  refine Triple.op fun w a _ h d hd => ?_
  subst hd
  split_ifs at h ⊢ with hopen
  · obtain rfl : w.clock = d := by simpa using h
    exact ⟨by simp [World.tick, World.setFd], by simp [World.tick, World.setFd, World.setFile]⟩
  · simp at h

/-- A write appends what it reports. -/
theorem write_triple (data : List Byte) :
    Triple (fun w => w.AtEnd fd path content) (write os fd data) fun r w => ∀ n, r = some n →
      n ≤ data.length ∧ w.AtEnd fd path (content ++ data.take n) := by
  refine Triple.op fun w a hw h n hn => ?_
  subst hn
  simp only [hw.fd] at h ⊢
  cases hanswer : os.write w.clock data.length with
  | none => simp [hanswer] at h
  | some count =>
      simp only [hanswer] at h ⊢
      obtain rfl : min count data.length = n := by simpa using h
      have hle : min count data.length ≤ data.length := Nat.min_le_right _ _
      refine ⟨hle, ?_, ?_⟩
      · simp [World.tick, World.setFd]
      · simp [World.tick, World.setFd, World.setFile, hw.file]

theorem writeOnce_appends (data : List Byte) : Appends (writeOnce os data) data := by
  intro fd path content
  refine (write_triple os data).bind fun r => Triple.pure fun w hw hok => ?_
  obtain ⟨_, hend⟩ := hw data.length (by simpa using hok)
  rwa [List.take_length] at hend

theorem writeFileWin_appends (data : List Byte) : Appends (fun h => writeFileWin os h data) data := by
  intro fd path content
  refine (write_triple os _).bind fun r => Triple.pure fun w hw hok => ?_
  obtain ⟨hle, hend⟩ := hw data.length (by simpa using hok)
  have hmod : data.length % 2 ^ 32 = data.length := by
    rw [List.length_take] at hle
    have := Nat.mod_le data.length (2 ^ 32)
    omega
  rwa [hmod, List.take_length, List.take_length] at hend

/-- The loop has appended the first `written` bytes before each iteration. -/
theorem writeLoop_appends (data : List Byte) : Appends (fun fd => writeLoop os fd data) data := by
  intro fd path content
  have hstart : Triple (fun w => w.AtEnd fd path (content ++ data.take 0)) (writeLoop os fd data)
      fun ok w => ok = true → w.AtEnd fd path (content ++ data) := by
    refine Triple.loop (b := 0)
      (fun written (w : World) => w.AtEnd fd path (content ++ data.take written)) fun written => ?_
    unfold writeLoopBody
    split_ifs with hlt
    · refine (write_triple os _).bind fun r => ?_
      cases r with
      | none => exact Triple.pure fun w _ => by simp
      | some n =>
          refine Triple.pure fun w hw => ?_
          obtain ⟨_, hend⟩ := hw n rfl
          rwa [List.append_assoc, ← List.take_add] at hend
    · refine Triple.pure fun w hw _ => ?_
      rwa [List.take_of_length_le (by omega)] at hw
  rwa [List.take_zero, List.append_nil] at hstart

theorem Appends.andThen {first second : Transfer} {a b : List Byte} (ha : Appends first a)
    (hb : Appends second b) : Appends (first.andThen second) (a ++ b) := by
  intro fd path content
  refine (ha fd path content).bind fun ok => ?_
  cases ok with
  | false => exact Triple.pure fun w _ h => by simp at h
  | true =>
      intro w r w' hw h
      have hend := hb fd path (content ++ a) (hw rfl) h
      rwa [List.append_assoc] at hend

/-- A save that returns has stored everything. -/
theorem writeNewFile_stores {path createError reparseError writeError : String}
    {posix windows : Transfer} {data : List Byte} (hposix : Appends posix data)
    (hwindows : Appends windows data) :
    Triple (fun _ => True) (writeNewFile os path createError reparseError writeError posix windows)
      fun _ w => w.files path = some data := by
  refine (openForWriting_triple os path).bind fun r => ?_
  cases r with
  | none => exact Triple.raise _
  | some fd =>
      have hreparse : Triple (fun w => ∀ d, some fd = some d → w.AtEnd d path [])
          (os.ifWindows (isReparsePoint os path) (pure false)) fun _ w => w.AtEnd fd path [] := by
        unfold Os.ifWindows
        split_ifs
        · exact Triple.op fun w _ hw _ => ⟨(hw fd rfl).fd, (hw fd rfl).file⟩
        · exact Triple.pure fun w hw => hw fd rfl
      refine hreparse.bind fun isReparse => ?_
      cases isReparse with
      | true => exact (Triple.any (closeFd fd)).bind fun _ => Triple.raise _
      | false =>
          have htransfer : Appends (os.ifWindows windows posix) data := by
            unfold Os.ifWindows
            split_ifs
            · exact hwindows
            · exact hposix
          refine (htransfer fd path []).bind fun ok => ?_
          have hclose : Triple (fun w => ok = true → w.AtEnd fd path ([] ++ data)) (closeFd fd)
              fun _ w => ok = true → w.files path = some data :=
              Triple.op fun w _ hw _ hok => (hw hok).file
          refine hclose.bind fun _ => (Triple.raiseIf _).weaken fun _ w hw => hw.1 ?_
          exact Bool.eq_true_of_not_eq_false hw.2

end Any

/-- The transfer reports success. -/
def Completes (transfer : Transfer) : Prop := ∀ fd path content w, World.AtEnd w fd path content →
  ∃ w', Ends (transfer fd) w (.ok true) w'

section Serves

variable {os : Os} (hos : os.Serves)

include hos

theorem writeOnce_completes (data : List Byte) : Completes (writeOnce os data) := by
  intro fd path content w hw
  obtain ⟨w', hwrite, -⟩ := write_serves hos hw data
  exact ⟨w', by simp [writeOnce, hwrite.bind_iff]⟩

theorem writeFileWin_completes (data : List Byte) (hdata : data.length < 2 ^ 32) :
    Completes fun h => writeFileWin os h data := by
  intro fd path content w hw
  obtain ⟨w', hwrite, -⟩ := write_serves hos hw data
  refine ⟨w', ?_⟩
  change Ends (writeFileWin os fd data) w (.ok true) w'
  rw [writeFileWin, Nat.mod_eq_of_lt hdata, List.take_length, hwrite.bind_iff]
  simp

theorem writeLoop_completes (data : List Byte) : Completes fun fd => writeLoop os fd data := by
  intro fd path content w hw
  have hdone (w : World) : Ends (writeLoopBody os fd data data.length) w (.ok (.inr true)) w := by
    simp [writeLoopBody]
  rcases data.eq_nil_or_concat' with rfl | ⟨init, last, hdata⟩
  · exact ⟨w, (hdone w).loop_done⟩
  · have hpos : 0 < data.length := by simp [hdata]
    obtain ⟨w', hwrite, -⟩ := write_serves hos hw data
    have hfirst : Ends (writeLoopBody os fd data 0) w (.ok (.inl data.length)) w' := by
      rw [writeLoopBody, if_pos hpos, List.drop_zero, hwrite.bind_iff]
      simp
    exact ⟨w', hfirst.loop_next.mpr (hdone w').loop_done⟩

omit hos in
theorem Completes.andThen {first second : Transfer} {a : List Byte} (ha : Appends first a)
    (hfirst : Completes first) (hsecond : Completes second) : Completes (first.andThen second) := by
  intro fd path content w hw
  obtain ⟨w', h'⟩ := hfirst fd path content w hw
  obtain ⟨w'', h''⟩ := hsecond fd path (content ++ a) w' (ha fd path content hw h' rfl)
  exact ⟨w'', (h'.bind_iff).mpr (by simpa using h'')⟩

theorem isReparsePoint_serves (w : World) (path : String) : ∃ w' : World,
    Ends (os.ifWindows (isReparsePoint os path) (pure false)) w (.ok false) w' ∧
    w'.files = w.files ∧ w'.fds = w.fds := by
  unfold Os.ifWindows
  split_ifs
  · exact ⟨w.tick, by simp [isReparsePoint, hos.isReparsePoint], rfl, rfl⟩
  · exact ⟨w, by simp, rfl, rfl⟩

/-- The transfer of the other branch does not matter. -/
theorem writeNewFile_returns (w : World) (path createError reparseError writeError : String)
    {posix windows : Transfer} (htransfer : Completes (os.ifWindows windows posix)) :
    ∃ w', Ends (writeNewFile os path createError reparseError writeError posix windows) w
      (.ok ()) w' := by
  obtain ⟨w₁, hopen, hend⟩ := openForWriting_serves hos w path
  obtain ⟨w₂, hcheck, hfiles, hfds⟩ := isReparsePoint_serves hos w₁ path
  obtain ⟨w₃, hsent⟩ := htransfer w.clock path [] w₂ ⟨hfds ▸ hend.fd, hfiles ▸ hend.file⟩
  refine ⟨(w₃.setFd w.clock none).tick, ?_⟩
  rw [writeNewFile, hopen.bind_iff, hcheck.bind_iff, if_neg (by simp), hsent.bind_iff,
    (closeFd_ends _ w₃).bind_iff]
  exact ends_raiseIf_neg (by simp)

theorem writeNewFile_serves (w : World) (path createError reparseError writeError : String)
    {posix windows : Transfer} (hposix : Completes posix) (hwindows : Completes windows) :
    ∃ w', Ends (writeNewFile os path createError reparseError writeError posix windows) w
      (.ok ()) w' := by
  refine writeNewFile_returns hos w path createError reparseError writeError ?_
  unfold Os.ifWindows
  split_ifs
  · exact hwindows
  · exact hposix

end Serves

/-- The Windows branch of `write_file` passes the length as a `DWORD`, so it carries out only what
fits. -/
theorem writeFileBranch_completes {os : Os} (hos : os.Serves) {data : List Byte}
    (hdata : data.length < 2 ^ 32) :
    Completes fun fd => if data.isEmpty then pure true else writeFileWin os fd data := by
  cases data with
  | nil => exact fun fd path content w _ => ⟨w, by simp⟩
  | cons b data => exact writeFileWin_completes hos (b :: data) hdata

theorem writeFileBranch_appends (os : Os) (data : List Byte) :
    Appends (fun fd => if data.isEmpty then pure true else writeFileWin os fd data) data := by
  cases data with
  | nil => exact fun fd path content => Triple.pure fun w hw _ => by rwa [List.append_nil]
  | cons b data => exact writeFileWin_appends os (b :: data)

/-- Every platform that carries out each request in full stores the data. -/
def StoredByBothBranches (data : List Byte) : Prop :=
  ∀ os : Os, os.Serves → ∀ (w : World) (path : String),
    ∃ w', Ends (writeFile os path data) w (.ok ()) w' ∧ w'.files path = some data

/-- Only the Windows branch has a bound. -/
theorem writeFile_serves {os : Os} (hos : os.Serves) {data : List Byte}
    (hdata : os.family = .windows → data.length < 2 ^ 32) (w : World) (path : String) :
    ∃ w', Ends (writeFile os path data) w (.ok ()) w' ∧ w'.files path = some data := by
  have htransfer :
      Completes (os.ifWindows (fun fd => if data.isEmpty then pure true else writeFileWin os fd data)
      fun fd => writeLoop os fd data) := by
    by_cases hfamily : os.family = .windows
    · rw [Os.ifWindows, if_pos hfamily]
      exact writeFileBranch_completes hos (hdata hfamily)
    · rw [Os.ifWindows, if_neg hfamily]
      exact writeLoop_completes hos data
  obtain ⟨w', hwrite⟩ := writeNewFile_returns hos w path "failed to open file for writing: "
    "refusing to write through a symlink/reparse point: " "failed to write file: " htransfer
  exact ⟨w', hwrite,
    writeNewFile_stores os (writeLoop_appends os data) (writeFileBranch_appends os data) trivial hwrite⟩

theorem storedByBothBranches {data : List Byte} (hdata : data.length < 2 ^ 32) :
    StoredByBothBranches data :=
  fun _ hos w path => writeFile_serves hos (fun _ => hdata) w path

/-- `Os.plain` with the other branch of `write_file`. -/
def Os.plainWindows : Os := { Os.plain with family := .windows }

theorem Os.plainWindows_serves : Os.plainWindows.Serves := { Os.plain_serves with }

/-- The request is carried out in full, and the count falls short of the length. -/
theorem writeFile_throws {data : List Byte} (hdata : 2 ^ 32 ≤ data.length) (w : World) (path : String) :
    ∃ w', Ends (writeFile Os.plainWindows path data) w
      (.error (.ioError ("failed to write file: " ++ path))) w' := by
  have hos := Os.plainWindows_serves
  have hempty : ¬data.isEmpty = true := by
    rw [List.isEmpty_iff_length_eq_zero]
    omega
  have hpart : (data.take (data.length % 2 ^ 32)).length ≠ data.length := by
    have hlt := Nat.mod_lt data.length (show 0 < 2 ^ 32 by decide)
    rw [List.length_take]
    omega
  obtain ⟨w₁, hopen, hend⟩ := openForWriting_serves hos w path
  obtain ⟨w₂, hcheck, hfiles, hfds⟩ := isReparsePoint_serves hos w₁ path
  have hend₂ : w₂.AtEnd w.clock path [] := ⟨hfds ▸ hend.fd, hfiles ▸ hend.file⟩
  obtain ⟨w₃, hwrite, -⟩ := write_serves hos hend₂ (data.take (data.length % 2 ^ 32))
  have hsent : Ends (Os.plainWindows.ifWindows
      (fun fd => if data.isEmpty then pure true else writeFileWin Os.plainWindows fd data)
      (fun fd => writeLoop Os.plainWindows fd data) w.clock) w₂ (.ok false) w₃ := by
    change Ends (if data.isEmpty then pure true else writeFileWin Os.plainWindows w.clock data) w₂
      (.ok false) w₃
    rw [if_neg hempty, writeFileWin, hwrite.bind_iff, ends_pure]
    exact ⟨by simpa using hpart, rfl⟩
  refine ⟨(w₃.setFd w.clock none).tick, ?_⟩
  rw [writeFile, writeNewFile, hopen.bind_iff, hcheck.bind_iff, if_neg (by simp), hsent.bind_iff,
    (closeFd_ends _ w₃).bind_iff]
  exact ends_raiseIf_pos rfl

theorem not_storedByBothBranches {data : List Byte} (hdata : 2 ^ 32 ≤ data.length) :
    ¬StoredByBothBranches data := by
  intro h
  obtain ⟨w', hok, -⟩ := h Os.plainWindows Os.plainWindows_serves World.empty "file"
  obtain ⟨_, hthrow⟩ := writeFile_throws hdata World.empty "file"
  exact absurd (hok.unique hthrow).1 (by simp)

/-- **Both branches of `write_file` store exactly the byte strings below 4 GiB.** -/
theorem storedByBothBranches_iff (data : List Byte) : StoredByBothBranches data ↔ data.length < 2 ^ 32 :=
  ⟨fun h => Nat.lt_of_not_le fun hdata => not_storedByBothBranches hdata h, storedByBothBranches⟩

/-- 4 GiB of zeros. -/
theorem not_storedByBothBranches_fourGiB : ¬StoredByBothBranches (List.replicate (2 ^ 32) 0) :=
  not_storedByBothBranches (by rw [List.length_replicate])

end Aeslib
