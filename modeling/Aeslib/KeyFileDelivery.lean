import Aeslib.KeyFileExact

/-!
The POSIX reader of the plain key file against short reads. Its loop takes the key material in
whatever pieces it comes, but it asks for the two bytes of the header only once: where they are
delivered one at a time, a good key file is reported as corrupt.
-/

namespace Aeslib

open Prog SecretKey

/-- The platform with every read served in full. -/
def Os.inFull (os : Os) : Os := { os with read := fun _ count => some count }

def Error.SameType : Error → Error → Prop
  | .ioError _, .ioError _ => True
  | .formatError _, .formatError _ => True
  | .limitError _, .limitError _ => True
  | .authenticationError _, .authenticationError _ => True
  | .logicError _, .logicError _ => True
  | .badAlloc, .badAlloc => True
  | .filesystemError _, .filesystemError _ => True
  | .outOfRange, .outOfRange => True
  | _, _ => False

/-- The same key, or an exception of the same type. -/
def SameOutcome : Except Error SecretKey → Except Error SecretKey → Prop
  | .ok key, .ok key' => key = key'
  | .error e, .error e' => e.SameType e'
  | _, _ => False

theorem SameOutcome.refl (r : Except Error SecretKey) : SameOutcome r r := by
  cases r with
  | ok key => exact rfl
  | error e => cases e <;> exact trivial

/-- The reader comes to the same outcome as with every read served in full. -/
def DeliveryIndependent (os : Os) (w : World) (path : String) : Prop :=
  ∃ r r' u u', Ends (loadFromFile os path) w r u ∧ Ends (loadFromFile os.inFull path) w r' u' ∧
    SameOutcome r r'

/-- A header and the bytes that it asks for. -/
def HoldsKey (content : List Byte) : Prop :=
  ∃ (size : KeySize) (rest : List Byte), content = [kKeyFileVersion, size.marker] ++ rest ∧
    size.sizeBytes ≤ rest.length

/-- The file opens and holds a key, and the first read delivers only one byte of its header. -/
def SplitsHeader (os : Os) (w : World) (path : String) : Prop :=
  os.openForReading w.clock path = true ∧ (∃ content, w.files path = some content ∧ HoldsKey content) ∧
    ∃ answer, os.read (w.clock + 1) 2 = some answer ∧ answer < 2

theorem parseKeyFile_ok_iff (path : String) (content : List Byte) :
    (∃ key, parseKeyFile path content = .ok key) ↔ HoldsKey content := by
  constructor
  · rintro ⟨key, hkey⟩
    rcases parseKeyFile_cases path content with ⟨what, herror⟩ | hholds
    · simp [hkey] at herror
    · exact hholds
  · rintro ⟨size, rest, rfl, hle⟩
    exact ⟨_, (parseKeyFile_header path size rest).trans (if_neg (Nat.not_lt.mpr hle))⟩

section Runs

variable {os : Os} (hposix : os.family ≠ .windows) {w : World} {path : String} {content : List Byte}
  {answer : Nat}

/-- No file. -/
theorem loadFromFile_unopened (h : ¬(os.openForReading w.clock path = true ∧ (w.files path).isSome)) :
    Ends (loadFromFile os path) w (.error (.ioError ("failed to open key file: " ++ path))) w.tick := by
  have hrefused : Ends (openForReading os path) w (.ok none) w.tick := by
    rw [openForReading, ends_op, if_neg h]
  exact hrefused.bind ((ends_raise _ _ _ _).mpr ⟨rfl, rfl⟩)

/-- One byte is no header. -/
theorem loadFromFile_splits (hfile : w.files path = some content)
    (hopen : os.openForReading w.clock path = true)
    (hheader : os.read (w.clock + 1) 2 = some answer) (hshort : answer < 2) :
    ∃ w', Ends (loadFromFile os path) w
      (.error (.formatError ("unsupported or corrupt key file: " ++ path))) w' := by
  obtain ⟨w₁, hopened, hfd, hfiles, -, hclock⟩ := openForReading_opens hopen hfile
  rw [← hclock] at hheader
  obtain ⟨w₂, hread, -⟩ := read_answered hfd (hfiles ▸ hfile) hheader
  have hlength : ((content.drop 0).take (min 2 (max 1 answer))).length ≠ 2 := by
    rw [List.length_take]
    omega
  refine ⟨(w₂.setFd w.clock none).tick, hopened.bind (hread.bind ?_)⟩
  simp only [Option.getD_some]
  rw [if_pos (.inl hlength)]
  exact (closeFd_ends _ w₂).bind ((ends_raise _ _ _ _).mpr ⟨rfl, rfl⟩)

include hposix

/-- With the header delivered at once, the rest may come in any pieces. -/
theorem loadFromFile_delivers (hdelivers : os.DeliversPieces) (hfile : w.files path = some content)
    (hopen : os.openForReading w.clock path = true)
    (hheader : os.read (w.clock + 1) 2 = some answer) (hall : 2 ≤ answer) :
    ∃ w', Ends (loadFromFile os path) w (parseKeyFile path content) w' := by
  refine loadFromFile_reads hfile hopen hheader hall fun {v n} _ hfd hfile => ?_
  rw [Os.ifWindows, if_neg hposix]
  exact readKeyPosix_delivers hdelivers n hfd hfile

theorem loadFromFile_inFull (hfile : w.files path = some content)
    (hopen : os.openForReading w.clock path = true) :
    ∃ w', Ends (loadFromFile os.inFull path) w (parseKeyFile path content) w' :=
  loadFromFile_delivers (show os.inFull.family ≠ .windows from hposix) (fun _ _ => rfl) hfile hopen
    rfl le_rfl

theorem not_deliveryIndependent (h : SplitsHeader os w path) : ¬DeliveryIndependent os w path := by
  obtain ⟨hopen, ⟨content, hfile, hholds⟩, answer, hheader, hshort⟩ := h
  rintro ⟨r, r', u, u', hload, hload', hsame⟩
  obtain ⟨v, hsplit⟩ := loadFromFile_splits hfile hopen hheader hshort
  obtain ⟨v', hfull⟩ := loadFromFile_inFull hposix hfile hopen
  obtain ⟨key, hkey⟩ := (parseKeyFile_ok_iff path content).mpr hholds
  obtain ⟨rfl, -⟩ := hload.unique hsplit
  obtain ⟨rfl, -⟩ := hload'.unique hfull
  rw [hkey] at hsame
  exact hsame

theorem deliveryIndependent_of_not_splits (hdelivers : os.DeliversPieces) (h : ¬SplitsHeader os w path) :
    DeliveryIndependent os w path := by
  by_cases hopened : os.openForReading w.clock path = true ∧ (w.files path).isSome
  swap
  · exact ⟨_, _, _, _, loadFromFile_unopened hopened, loadFromFile_unopened hopened, SameOutcome.refl _⟩
  obtain ⟨hopen, hsome⟩ := hopened
  obtain ⟨content, hfile⟩ := Option.isSome_iff_exists.mp hsome
  obtain ⟨answer, hheader⟩ := Option.isSome_iff_exists.mp (hdelivers (w.clock + 1) 2)
  obtain ⟨u', hfull⟩ := loadFromFile_inFull hposix hfile hopen
  obtain hshort | hall := Nat.lt_or_ge answer 2
  · obtain ⟨u, hsplit⟩ := loadFromFile_splits hfile hopen hheader hshort
    refine ⟨_, _, u, u', hsplit, hfull, ?_⟩
    rcases parseKeyFile_cases path content with ⟨what, herror⟩ | hholds
    · rw [herror]
      exact trivial
    · exact absurd ⟨hopen, ⟨content, hfile, hholds⟩, answer, hheader, hshort⟩ h
  · obtain ⟨u, hload⟩ := loadFromFile_delivers hposix hdelivers hfile hopen hheader hall
    exact ⟨_, _, u, u', hload, hfull, SameOutcome.refl _⟩

/-- **The POSIX reader does not depend on the pieces in which the bytes arrive, unless a key file's
header is split.** -/
theorem deliveryIndependent_iff (hdelivers : os.DeliversPieces) (w : World) (path : String) :
    DeliveryIndependent os w path ↔ ¬SplitsHeader os w path :=
  ⟨fun hsame hsplits => not_deliveryIndependent hposix hsplits hsame,
    deliveryIndependent_of_not_splits hposix hdelivers⟩

end Runs

/-- A pipe that delivers the header and then single bytes. -/
def Os.headerFirst : Os := { Os.plain with read := fun _ count => some (if count = 2 then 2 else 1) }

theorem deliveryIndependent_iff_headerFirst :
    DeliveryIndependent Os.headerFirst (World.empty.setFile "key" (keyFileBytes {})) "key" := by
  have hdelivers : Os.headerFirst.DeliversPieces := fun _ _ => rfl
  refine (deliveryIndependent_iff (by decide) hdelivers _ _).mpr ?_
  rintro ⟨-, -, answer, hheader, hshort⟩
  obtain rfl : 2 = answer := Option.some.inj hheader
  exact absurd hshort (lt_irrefl _)

/-- A pipe that delivers single bytes. -/
def Os.bytewise : Os := { Os.plain with read := fun _ _ => some 1 }

/-- A key file that arrives byte by byte is reported as corrupt. -/
theorem not_deliveryIndependent_bytewise :
    Os.bytewise.family ≠ .windows ∧ Os.bytewise.DeliversPieces ∧
      ¬DeliveryIndependent Os.bytewise (World.empty.setFile "key" (keyFileBytes {})) "key" := by
  refine ⟨by decide, fun _ _ => rfl,
    not_deliveryIndependent (by decide) ⟨rfl, ⟨keyFileBytes {}, ?_, ?_⟩, 1, rfl, by decide⟩⟩
  · simp [World.setFile]
  · refine ⟨_, _, rfl, ?_⟩
    rw [length_material]
    exact le_rfl

end Aeslib
