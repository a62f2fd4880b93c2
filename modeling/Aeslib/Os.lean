import Aeslib.Key
import Aeslib.LibProg

/-!
What the library asks of its platform. An `Os` answers the system calls; it may answer each call
differently, by the time of the call, within the contract of the call. A `World` is what the calls leave
behind. `Serves` is the platform that carries out every request in full; the environment variable stays
arbitrary there.
-/

namespace Aeslib

open Prog

inductive Arch where
  | x86
  | arm64
  | riscv64
  | other
  deriving DecidableEq

inductive OsFamily where
  | windows
  | linux
  | otherPosix
  deriving DecidableEq

inductive GetrandomAnswer where
  | filled (count : Nat)
  | interrupted
  | failed (strerror : String)
  deriving DecidableEq

/-- Where an opened path ends, by `tellg`. -/
inductive TellgAnswer where
  /-- `-1`. -/
  | failed
  /-- At the length of its content. -/
  | length
  /-- Further on than a vector can be long: a directory may end at `2^63 - 1`. -/
  | tooLarge
  deriving DecidableEq

/-- The answers of a platform; the first argument of each is the time of the call. -/
structure Os where
  family : OsFamily
  arch : Arch
  /-- The raw capability bit: CPUID, HWCAP, `hw.optional.arm.FEAT_AES` or `riscv_hwprobe`. -/
  cpuHasAes : Bool
  /-- `getenv("AESLIB_FORCE_SOFTWARE")`. -/
  getenv : Nat → Option String
  /-- The bytes of the random source. -/
  randomByte : Nat → Nat → Byte
  getrandom : Nat → Nat → GetrandomAnswer
  bcryptGenRandom : Nat → Bool
  openForWriting : Nat → String → Bool
  openForReading : Nat → String → Bool
  isReparsePoint : Nat → String → Bool
  /-- `-1` is `none`. -/
  write : Nat → Nat → Option Nat
  read : Nat → Nat → Option Nat
  tellg : Nat → String → TellgAnswer
  streamRead : Nat → String → Bool
  /-- What `std::filesystem::status` throws: a path may be a loop of symbolic links. -/
  statusError : Nat → String → Option String
  /-- `what()` of a `std::bad_alloc`. -/
  badAllocWhat : String

/-- `#if defined(_WIN32)`. -/
def Os.ifWindows {α : Type} (os : Os) (windows posix : α) : α :=
  if os.family = .windows then windows else posix

structure OpenFile where
  path : String
  offset : Nat

/-- Uses of the primitives that the claims of `DESIGN.md` are about, in the order they happened. -/
inductive Event where
  /-- A block encryption. -/
  | cipher (block : Block)
  /-- The start of a key derivation. -/
  | pbkdf2 (iterations : BitVec 32)
  /-- One HMAC evaluation of a key derivation. -/
  | prf
  deriving DecidableEq

structure World where
  clock : Nat
  files : String → Option (List Byte)
  fds : Nat → Option OpenFile
  trace : List Event

namespace World

def empty : World := { clock := 0, files := fun _ => none, fds := fun _ => none, trace := [] }

def tick (w : World) : World := { w with clock := w.clock + 1 }

def record (w : World) (e : Event) : World := { w with trace := w.trace ++ [e] }

def setFile (w : World) (path : String) (content : List Byte) : World :=
  { w with files := Function.update w.files path (some content) }

def setFd (w : World) (fd : Nat) (file : Option OpenFile) : World :=
  { w with fds := Function.update w.fds fd file }

end World

/-- Leaves a mark in the trace. -/
def record (e : Event) : Prog World Error Unit := op fun w => (.ok (), w.record e)

theorem record_ends (e : Event) (w : World) : Ends (record e) w (.ok ()) (w.record e) :=
  (ends_op _ _ _ _).mpr rfl

/-- `data` copied into a buffer from `offset` on. -/
def storeBytes {n : Nat} (buffer : Vector Byte n) (offset : Nat) (data : List Byte) : Vector Byte n :=
  Vector.ofFn fun i => if offset ≤ i.val then data[i.val - offset]?.getD buffer[i] else buffer[i]

section Stores

variable {n : Nat} (buffer : Vector Byte n)

theorem getElem_storeBytes (offset : Nat) (data : List Byte) {i : Nat} (hi : i < n) :
    (storeBytes buffer offset data)[i] = if offset ≤ i then data[i - offset]?.getD
      buffer[i] else buffer[i] := by
  simp [storeBytes]

theorem storeBytes_nil (offset : Nat) : storeBytes buffer offset [] = buffer := by
  refine Vector.ext fun i hi => ?_
  rw [getElem_storeBytes buffer offset [] hi]
  split_ifs <;> rfl

theorem storeBytes_append (offset : Nat) (a b : List Byte) :
    storeBytes buffer offset (a ++ b) =
      storeBytes (storeBytes buffer offset a) (offset + a.length) b := by
  refine Vector.ext fun i hi => ?_
  simp only [getElem_storeBytes _ _ _ hi]
  by_cases hoff : offset ≤ i
  · by_cases ha : i - offset < a.length
    · rw [if_pos hoff, if_neg (by omega), if_pos hoff, List.getElem?_append_left ha]
    · have hidx : i - offset - a.length = i - (offset + a.length) := by omega
      rw [if_pos hoff, if_pos (by omega), List.getElem?_append_right (by omega), hidx, if_pos hoff,
        List.getElem?_eq_none (l := a) (by omega), Option.getD_none]
  · rw [if_neg hoff, if_neg (by omega), if_neg hoff]

theorem storeBytes_singleton (offset : Nat) (b : Byte) :
    storeBytes buffer offset [b] = buffer.setIfInBounds offset b := by
  refine Vector.ext fun i hi => ?_
  rw [getElem_storeBytes _ _ _ hi, Vector.getElem_setIfInBounds hi]
  by_cases hoff : offset = i
  · subst hoff
    simp
  · rw [if_neg hoff]
    split_ifs with h
    · rw [List.getElem?_eq_none (by rw [List.length_singleton]; omega), Option.getD_none]
    · rfl

theorem storeBytes_cons (offset : Nat) (b : Byte) (data : List Byte) :
    storeBytes buffer offset (b :: data) =
      storeBytes (buffer.setIfInBounds offset b) (offset + 1) data := by
  rw [← storeBytes_singleton, ← List.singleton_append, storeBytes_append, List.length_singleton]

end Stores

/-- The first `count` bytes that the random source has at a time. -/
def Os.randomBytes (os : Os) (time count : Nat) : List Byte :=
  (List.range count).map (os.randomByte time)

/-- One iteration of the Linux loop on `buffer` and `filled`. -/
def getrandomStep {n : Nat} (os : Os) (s : Vector Byte n × Nat) :
    Prog World Error ((Vector Byte n × Nat) ⊕ Vector Byte n) :=
  let (buffer, filled) := s
  if filled < n then
    op fun w =>
      match os.getrandom w.clock (n - filled) with
      | .filled count =>
        let count := min count (n - filled)
        (.ok (.inl (storeBytes buffer filled (os.randomBytes w.clock count), filled + count)), w.tick)
      | .interrupted => (.ok (.inl (buffer, filled)), w.tick)
      | .failed strerror => (.error (.ioError ("getrandom failed: " ++ strerror)), w.tick)
  else pure (.inr buffer)

/-- `rng::fill_random` on a whole buffer. -/
def fillRandom {n : Nat} (os : Os) (buffer : Vector Byte n) : Prog World Error (Vector Byte n) :=
  match os.family with
  | .windows => op fun w =>
    if os.bcryptGenRandom w.clock then (.ok (storeBytes buffer 0 (os.randomBytes w.clock n)), w.tick)
    else (.error (.ioError "BCryptGenRandom failed"), w.tick)
  | .linux => loop (getrandomStep os) (buffer, 0)
  | .otherPosix => op fun w => (.ok (storeBytes buffer 0 (os.randomBytes w.clock n)), w.tick)

/-- Drawing random bytes uses no cipher. -/
theorem fillRandom_trace {n : Nat} {os : Os} {buffer : Vector Byte n} {w w' : World}
    {r : Except Error (Vector Byte n)} (h : Ends (fillRandom os buffer) w r w') :
    w'.trace = w.trace := by
  have hkeeps : Preserves (fun v : World => v.trace = w.trace) (fillRandom os buffer) := by
    unfold fillRandom
    split
    · refine Preserves.op fun v hv => ?_
      split_ifs <;> exact hv
    · refine Preserves.loop (fun s => ?_) _
      obtain ⟨buffer, filled⟩ := s
      simp only [getrandomStep]
      split_ifs
      · refine Preserves.op fun v hv => ?_
        split <;> exact hv
      · exact Preserves.pure _
    · exact Preserves.op fun v hv => hv
  exact hkeeps rfl h

/-- `open` with `O_WRONLY | O_CREAT | O_TRUNC | O_NOFOLLOW`, or `CreateFileW` with `CREATE_ALWAYS`. -/
def openForWriting (os : Os) (path : String) : Prog World Error (Option Nat) := op fun w =>
  if os.openForWriting w.clock path then
    (.ok (some w.clock), ((w.setFile path []).setFd w.clock (some ⟨path, 0⟩)).tick)
  else (.ok none, w.tick)

/-- `open` with `O_RDONLY`, or `CreateFileW` with `OPEN_EXISTING`. -/
def openForReading (os : Os) (path : String) : Prog World Error (Option Nat) := op fun w =>
  if os.openForReading w.clock path ∧ (w.files path).isSome then
    (.ok (some w.clock), (w.setFd w.clock (some ⟨path, 0⟩)).tick)
  else (.ok none, w.tick)

def closeFd (fd : Nat) : Prog World Error Unit := op fun w => (.ok (), (w.setFd fd none).tick)

/-- `write(2)`: at most the bytes asked for go to the file, at the offset of the descriptor. -/
def write (os : Os) (fd : Nat) (data : List Byte) : Prog World Error (Option Nat) := op fun w =>
  match w.fds fd, os.write w.clock data.length with
  | some file, some count =>
    let count := min count data.length
    let content := (w.files file.path).getD []
    let content := content.take file.offset ++ data.take count ++ content.drop (file.offset + count)
    (.ok (some count),
      ((w.setFile file.path content).setFd fd (some ⟨file.path, file.offset + count⟩)).tick)
  | _, _ => (.ok none, w.tick)

/-- `read(2)`: some of the bytes left, none only at the end of the file. -/
def read (os : Os) (fd count : Nat) : Prog World Error (Option (List Byte)) := op fun w =>
  match w.fds fd, os.read w.clock count with
  | some file, some answer =>
    let piece := (((w.files file.path).getD []).drop file.offset).take (min count (max 1 answer))
    (.ok (some piece), (w.setFd fd (some ⟨file.path, file.offset + piece.length⟩)).tick)
  | _, _ => (.ok none, w.tick)

def writeLoopBody (os : Os) (fd : Nat) (data : List Byte) (written : Nat) :
    Prog World Error (Nat ⊕ Bool) :=
  if written < data.length then do
    match ← write os fd (data.drop written) with
    | none => pure (.inr false)
    | some n => pure (.inl (written + n))
  else pure (.inr true)

/-- The loop around `write(2)` of all POSIX writers: whether everything was transferred. -/
def writeLoop (os : Os) (fd : Nat) (data : List Byte) : Prog World Error Bool :=
  loop (writeLoopBody os fd data) 0

/-- `::WriteFile(h, data, size, &written, nullptr) && written == size`; the size is a `DWORD`. -/
def writeFileWin (os : Os) (h : Nat) (data : List Byte) : Prog World Error Bool := do
  let written ← write os h (data.take (data.length % 2 ^ 32))
  pure (written == some data.length)

/-- `GetFileInformationByHandle` succeeds and reports a reparse point. -/
def isReparsePoint (os : Os) (path : String) : Prog World Error Bool := op fun w =>
  (.ok (os.isReparsePoint w.clock path), w.tick)

/-- `read_file` of `container.cpp`, through `std::ifstream`. -/
def readFile (os : Os) (path : String) : Prog World Error (List Byte) := do
  let some fd ← openForReading os path | raise (.ioError ("failed to open file: " ++ path))
  op fun w =>
    let data := (w.files path).getD []
    let w' := (w.setFd fd none).tick
    match os.tellg w.clock path with
    | .failed => (.error (.ioError ("failed to determine file size: " ++ path)), w')
    -- no storage for the vector
    | .tooLarge => (.error .badAlloc, w')
    | .length =>
      if !data.isEmpty && !os.streamRead w.clock path then
        (.error (.ioError ("failed to read file: " ++ path)), w')
      else (.ok data, w')

/-- `tellg` may put the end of the path where no vector has one. -/
def Os.Endless (os : Os) (path : String) : Prop := ∃ time, os.tellg time path = .tooLarge

/-- What a read of a whole file throws. -/
def ReadFileThrows (os : Os) (path : String) (e : Error) : Prop :=
  (∃ what, e = .ioError what) ∨ e = .badAlloc ∧ os.Endless path

/-- A read of a whole file returns its content or throws. -/
theorem readFile_result {os : Os} {path : String} {w w' : World} {r : Except Error (List Byte)}
    (h : Ends (readFile os path) w r w') :
    w'.trace = w.trace ∧
      ((∃ e, r = .error e ∧ ReadFileThrows os path e) ∨ ∃ data, w.files path = some data ∧
        r = .ok data) := by
  rcases ends_bind.mp h with ⟨fd, t, hopen, hrest⟩ | ⟨e, _, hopen⟩
  · have hopen := (ends_op _ _ _ _).mp hopen
    split_ifs at hopen with hcond
    · obtain ⟨data, hdata⟩ := Option.isSome_iff_exists.mp hcond.2
      obtain ⟨rfl, rfl⟩ : some w.clock = fd ∧ (w.setFd w.clock (some ⟨path, 0⟩)).tick = t := by
        simpa using hopen
      have hrest := (ends_op _ _ _ _).mp hrest
      simp only [World.tick, World.setFd, hdata, Option.getD_some] at hrest
      cases htellg : os.tellg (w.clock + 1) path with
      | failed =>
          obtain ⟨rfl, rfl⟩ := Prod.mk.inj (htellg ▸ hrest)
          exact ⟨rfl, .inl ⟨_, rfl, .inl ⟨_, rfl⟩⟩⟩
      | tooLarge =>
          obtain ⟨rfl, rfl⟩ := Prod.mk.inj (htellg ▸ hrest)
          exact ⟨rfl, .inl ⟨_, rfl, .inr ⟨rfl, _, htellg⟩⟩⟩
      | length =>
          rw [htellg] at hrest
          dsimp only at hrest
          split_ifs at hrest <;> obtain ⟨rfl, rfl⟩ := Prod.mk.inj hrest
          · exact ⟨rfl, .inl ⟨_, rfl, .inl ⟨_, rfl⟩⟩⟩
          · exact ⟨rfl, .inr ⟨data, hdata, rfl⟩⟩
    · obtain ⟨rfl, rfl⟩ : none = fd ∧ w.tick = t := by simpa using hopen
      obtain ⟨rfl, rfl⟩ := (ends_raise _ _ _ _).mp hrest
      exact ⟨rfl, .inl ⟨_, rfl, .inl ⟨_, rfl⟩⟩⟩
  · have hopen := (ends_op _ _ _ _).mp hopen
    split_ifs at hopen <;> simp at hopen

structure Os.Serves (os : Os) : Prop where
  getrandom : ∀ time count, os.getrandom time count = .filled count
  bcryptGenRandom : ∀ time, os.bcryptGenRandom time = true
  openForWriting : ∀ time path, os.openForWriting time path = true
  openForReading : ∀ time path, os.openForReading time path = true
  isReparsePoint : ∀ time path, os.isReparsePoint time path = false
  write : ∀ time count, os.write time count = some count
  read : ∀ time count, os.read time count = some count
  tellg : ∀ time path, os.tellg time path = .length
  streamRead : ∀ time path, os.streamRead time path = true
  statusError : ∀ time path, os.statusError time path = none

/-- A Linux machine without AES instructions that carries out every request. -/
def Os.plain : Os where
  family := .linux
  arch := .other
  cpuHasAes := false
  getenv _ := none
  randomByte _ _ := 0
  getrandom _ count := .filled count
  bcryptGenRandom _ := true
  openForWriting _ _ := true
  openForReading _ _ := true
  isReparsePoint _ _ := false
  write _ count := some count
  read _ count := some count
  tellg _ _ := .length
  streamRead _ _ := true
  statusError _ _ := none
  badAllocWhat := "std::bad_alloc"

theorem Os.plain_serves : Os.plain.Serves where
  getrandom _ _ := rfl
  bcryptGenRandom _ := rfl
  openForWriting _ _ := rfl
  openForReading _ _ := rfl
  isReparsePoint _ _ := rfl
  write _ _ := rfl
  read _ _ := rfl
  tellg _ _ := rfl
  streamRead _ _ := rfl
  statusError _ _ := rfl

/-- A buffer filled at a time. -/
def Os.draw (os : Os) (time n : Nat) : Vector Byte n := Vector.ofFn fun i => os.randomByte time i

theorem storeBytes_randomBytes (os : Os) (time : Nat) {n : Nat} (buffer : Vector Byte n) :
    storeBytes buffer 0 (os.randomBytes time n) = os.draw time n := by
  refine Vector.ext fun i hi => ?_
  simp [storeBytes, Os.randomBytes, Os.draw]

/-- The descriptor `fd` stands at the end of the file at `path`, which holds `content`. -/
structure World.AtEnd (w : World) (fd : Nat) (path : String) (content : List Byte) : Prop where
  fd : w.fds fd = some ⟨path, content.length⟩
  file : w.files path = some content

section Serves

variable {os : Os} {w : World} {fd : Nat} {path : String} {content : List Byte}

theorem fillRandom_serves (hos : os.Serves) {n : Nat} (hn : 0 < n) (buffer : Vector Byte n) :
    Ends (fillRandom os buffer) w (.ok (os.draw w.clock n)) w.tick := by
  unfold fillRandom
  split
  · simp [hos.bcryptGenRandom, storeBytes_randomBytes]
  · have hfirst : Ends (getrandomStep os (buffer, 0)) w (.ok (.inl (os.draw w.clock n, n))) w.tick := by
      simp [getrandomStep, hn, hos.getrandom, storeBytes_randomBytes]
    have hlast : Ends (getrandomStep os (os.draw w.clock n, n)) w.tick
        (.ok (.inr (os.draw w.clock n))) w.tick := by
      simp [getrandomStep]
    exact hfirst.loop_next.mpr hlast.loop_done
  · simp [storeBytes_randomBytes]

theorem openForWriting_opens (hopen : os.openForWriting w.clock path = true) :
    ∃ w', Ends (openForWriting os path) w (.ok (some w.clock)) w' ∧ w'.AtEnd w.clock path [] ∧
    w'.clock = w.clock + 1 := by
  refine ⟨((w.setFile path []).setFd w.clock (some ⟨path, 0⟩)).tick, ?_, ?_, rfl⟩
  · rw [openForWriting, ends_op, if_pos hopen]
  · exact ⟨by simp [World.tick, World.setFd], by simp [World.tick, World.setFd, World.setFile]⟩

theorem openForWriting_serves (hos : os.Serves) (w : World) (path : String) :
    ∃ w', Ends (openForWriting os path) w (.ok (some w.clock)) w' ∧ w'.AtEnd w.clock path [] := by
  obtain ⟨w', hopen, hend, -⟩ := openForWriting_opens (hos.openForWriting w.clock path)
  exact ⟨w', hopen, hend⟩

/-- A write appends what its answer says. -/
theorem write_answered (hw : w.AtEnd fd path content) {data : List Byte} {count : Nat}
    (hanswer : os.write w.clock data.length = some count) :
    ∃ w', Ends (write os fd data) w (.ok (some (min count data.length))) w' ∧
      w'.AtEnd fd path (content ++ data.take (min count data.length)) ∧ w'.clock = w.clock + 1 := by
  set sent := data.take (min count data.length) with hsent
  have hlength : sent.length = min count data.length := by
    rw [hsent, List.length_take, Nat.min_assoc, Nat.min_self]
  refine ⟨((w.setFile path (content ++ sent)).setFd fd
    (some ⟨path, (content ++ sent).length⟩)).tick, ?_, ?_, rfl⟩
  · have hrest : content.drop (content.length + min count data.length) = [] :=
      List.drop_eq_nil_of_le (Nat.le_add_right _ _)
    simp [write, hw.fd, hw.file, hanswer, hrest, hlength, ← hsent]
  · exact ⟨by simp [World.tick, World.setFd], by simp [World.tick, World.setFd, World.setFile]⟩

theorem write_failed {data : List Byte} (hanswer : os.write w.clock data.length = none) (fd : Nat) :
    Ends (write os fd data) w (.ok none) w.tick := by
  rw [write, ends_op, hanswer]
  cases w.fds fd <;> rfl

/-- A write that is carried out in full appends. -/
theorem write_serves (hos : os.Serves) (hw : w.AtEnd fd path content) (data : List Byte) :
    ∃ w', Ends (write os fd data) w (.ok (some data.length)) w' ∧
    w'.AtEnd fd path (content ++ data) := by
  obtain ⟨w', hwrite, hend, -⟩ := write_answered hw (hos.write w.clock data.length)
  rw [Nat.min_self, List.take_length] at hend
  rw [Nat.min_self] at hwrite
  exact ⟨w', hwrite, hend⟩

theorem closeFd_ends (fd : Nat) (w : World) : Ends (closeFd fd) w (.ok ()) (w.setFd fd none).tick := by
  simp [closeFd]

/-- A read, with the descriptor at `offset`, takes at least one byte where there is one. -/
theorem read_answered {offset : Nat} (hfd : w.fds fd = some ⟨path, offset⟩)
    (hfile : w.files path = some content) {count answer : Nat}
    (hanswer : os.read w.clock count = some answer) :
    ∃ w', Ends (read os fd count) w
    (.ok (some ((content.drop offset).take (min count (max 1 answer))))) w' ∧
      w'.fds fd = some ⟨path, offset + ((content.drop offset).take (min count (max 1 answer))).length⟩ ∧
      w'.files = w.files ∧ w'.trace = w.trace ∧ w'.clock = w.clock + 1 := by
  set piece := (content.drop offset).take (min count (max 1 answer)) with hpiece
  refine ⟨(w.setFd fd (some ⟨path, offset + piece.length⟩)).tick, ?_, ?_, rfl, rfl, rfl⟩
  · rw [read, ends_op, hfd, hanswer]
    simp only [hfile, Option.getD_some, ← hpiece]
  · simp [World.tick, World.setFd]

theorem read_serves (hos : os.Serves) {offset : Nat} (hfd : w.fds fd = some ⟨path, offset⟩)
    (hfile : w.files path = some content) {count : Nat} (hcount : 0 < count) :
    ∃ w', Ends (read os fd count) w (.ok (some ((content.drop offset).take count))) w' ∧
      w'.fds fd = some ⟨path, offset + ((content.drop offset).take count).length⟩ ∧
      w'.files = w.files ∧ w'.trace = w.trace := by
  obtain ⟨w', hread, hfd', hfiles, htrace, -⟩ := read_answered hfd hfile (hos.read w.clock count)
  rw [Nat.max_eq_right hcount, Nat.min_self] at hread hfd'
  exact ⟨w', hread, hfd', hfiles, htrace⟩

/-- An open file is read from its start. -/
theorem openForReading_opens (hopen : os.openForReading w.clock path = true)
    (hfile : w.files path = some content) :
    ∃ w', Ends (openForReading os path) w (.ok (some w.clock)) w' ∧ w'.fds w.clock = some ⟨path, 0⟩ ∧
      w'.files = w.files ∧ w'.trace = w.trace ∧ w'.clock = w.clock + 1 := by
  refine ⟨(w.setFd w.clock (some ⟨path, 0⟩)).tick, ?_, by simp [World.tick, World.setFd], rfl, rfl, rfl⟩
  rw [openForReading, ends_op, if_pos ⟨hopen, by rw [hfile, Option.isSome_some]⟩]

theorem readFile_serves (hos : os.Serves) (hfile : w.files path = some content) :
    ∃ w', Ends (readFile os path) w (.ok content) w' ∧ w'.files = w.files ∧ w'.trace = w.trace := by
  obtain ⟨w₁, hopen, -, hfiles, htrace, -⟩ :=
    openForReading_opens (hos.openForReading w.clock path) hfile
  refine ⟨(w₁.setFd w.clock none).tick, ?_, hfiles, htrace⟩
  rw [readFile, hopen.bind_iff]
  simp [hfiles, hfile, hos.tellg, hos.streamRead]

end Serves

end Aeslib
