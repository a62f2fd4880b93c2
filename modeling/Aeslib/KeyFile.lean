import Aeslib.WriteFile

/-!
`generate`, `save_to_file` and `load_from_file` of `src/key.cpp`. The plain key file is the version,
the size marker and the key material; it does not hold the rest of the storage.
-/

namespace Aeslib

open Prog

def kKeyFileVersion : Byte := 2

/-- No call of `read(2)` fails, so each delivers at least one byte up to the end of the file. -/
def Os.DeliversPieces (os : Os) : Prop := ∀ time count, (os.read time count).isSome

theorem Os.Serves.deliversPieces {os : Os} (hos : os.Serves) : os.DeliversPieces := fun time count => by
  rw [hos.read, Option.isSome_some]

namespace SecretKey

/-- The whole storage is filled for both sizes. -/
def generate (os : Os) (size : KeySize) : Prog World Error SecretKey := do
  let bytes ← fillRandom os (Vector.replicate kKeySizeBytes 0)
  pure { bytes, size }

def saveToFile (os : Os) (key : SecretKey) (path : String) : Prog World Error Unit :=
  let sizeMarker := BitVec.ofNat 8 key.sizeBytes
  writeNewFile os path "failed to create key file: "
    "refusing to write key file through a symlink/reparse point: " "failed to write key file: "
    (Transfer.andThen (writeOnce os [kKeyFileVersion, sizeMarker]) fun fd =>
      writeLoop os fd key.material)
    (Transfer.andThen (fun h => writeFileWin os h [kKeyFileVersion])
      (Transfer.andThen (fun h => writeFileWin os h [sizeMarker]) fun h =>
        writeFileWin os h key.material))

/-- One iteration of the POSIX reader; `data` is what the storage holds so far. -/
def readKeyBody (os : Os) (fd sizeMarker : Nat) (data : List Byte) :
    Prog World Error (List Byte ⊕ Option (List Byte)) :=
  if data.length < sizeMarker then do
    match ← read os fd (sizeMarker - data.length) with
    | none => pure (.inr none)
    | some piece => if piece.isEmpty then pure (.inr none) else pure (.inl (data ++ piece))
  else pure (.inr (some data))

def readKeyPosix (os : Os) (fd sizeMarker : Nat) : Prog World Error (Option (List Byte)) :=
  loop (readKeyBody os fd sizeMarker) []

/-- `::ReadFile(h, …, size_marker, &read, nullptr) && read == size_marker`. -/
def readKeyWin (os : Os) (h sizeMarker : Nat) : Prog World Error (Option (List Byte)) := do
  match ← read os h sizeMarker with
  | none => pure none
  | some data => pure (if data.length = sizeMarker then some data else none)

def loadFromFile (os : Os) (path : String) : Prog World Error SecretKey := do
  match ← openForReading os path with
  | none => raise (.ioError ("failed to open key file: " ++ path))
  | some fd =>
    let header := (← read os fd 2).getD []
    let version := header[0]?.getD 0
    let sizeMarker := header[1]?.getD 0
    if header.length ≠ 2 ∨ version ≠ kKeyFileVersion ∨ isValidSizeMarker sizeMarker = false then
      closeFd fd
      raise (.formatError ("unsupported or corrupt key file: " ++ path))
    else
      let key : SecretKey := { size := .ofMarker sizeMarker }
      let data ← os.ifWindows (readKeyWin os fd sizeMarker.toNat) (readKeyPosix os fd sizeMarker.toNat)
      closeFd fd
      match data with
      | none => raise (.formatError ("key file truncated: " ++ path))
      | some data => pure { key with bytes := copyToStorage key.bytes data }

/-- The bytes of the key file. -/
def keyFileBytes (key : SecretKey) : List Byte := [kKeyFileVersion, key.size.marker] ++ key.material

theorem sizeMarker_eq (key : SecretKey) : BitVec.ofNat 8 key.sizeBytes = key.size.marker := by
  rw [sizeBytes, KeySize.sizeBytes, BitVec.ofNat_toNat, BitVec.setWidth_eq]

/-- A save that returns has stored exactly the key file, on any platform. -/
theorem saveToFile_stores (os : Os) (key : SecretKey) (path : String) :
    Triple (fun _ => True) (saveToFile os key path) fun _ w =>
    w.files path = some (keyFileBytes key) := by
  have hposix := (writeOnce_appends os [kKeyFileVersion, key.size.marker]).andThen
    (writeLoop_appends os key.material)
  have hwindows := (writeFileWin_appends os [kKeyFileVersion]).andThen
    ((writeFileWin_appends os [key.size.marker]).andThen (writeFileWin_appends os key.material))
  rw [saveToFile, sizeMarker_eq]
  exact writeNewFile_stores os hposix hwindows

theorem saveToFile_serves {os : Os} (hos : os.Serves) (w : World) (key : SecretKey) (path : String) :
    ∃ w', Ends (saveToFile os key path) w (.ok ()) w' ∧ w'.files path = some (keyFileBytes key) := by
  have hle := key.size.sizeBytes_le
  have hlen : key.material.length < 2 ^ 32 := by
    rw [length_material, sizeBytes]
    exact Nat.lt_of_le_of_lt hle (by decide)
  have hposix := (writeOnce_completes hos [kKeyFileVersion, key.size.marker]).andThen
    (writeOnce_appends os _)
    (writeLoop_completes hos key.material)
  have hwindows := (writeFileWin_completes hos [kKeyFileVersion] (by decide)).andThen
    (writeFileWin_appends os _)
    ((writeFileWin_completes hos [key.size.marker] (by simp)).andThen (writeFileWin_appends os _)
      (writeFileWin_completes hos key.material hlen))
  have hsave : ∃ w', Ends (saveToFile os key path) w (.ok ()) w' := by
    rw [saveToFile, sizeMarker_eq]
    exact writeNewFile_serves hos w _ _ _ _ hposix hwindows
  obtain ⟨w', hw'⟩ := hsave
  exact ⟨w', hw', saveToFile_stores os key path trivial hw'⟩

/-- What the reader makes of a file: only the first bytes, as many as the marker says, count. -/
def parseKeyFile (path : String) (content : List Byte) : Except Error SecretKey :=
  let sizeMarker := content[1]?.getD 0
  if content.length < 2 ∨ content[0]?.getD 0 ≠ kKeyFileVersion ∨
    isValidSizeMarker sizeMarker = false then
    .error (.formatError ("unsupported or corrupt key file: " ++ path))
  else if content.length < 2 + sizeMarker.toNat then
    .error (.formatError ("key file truncated: " ++ path))
  else .ok (keyFromBytes (content.drop 2) (.ofMarker sizeMarker))

theorem sizeBytes_ofMarker {sizeMarker : Byte} (h : isValidSizeMarker sizeMarker = true) :
    (KeySize.ofMarker sizeMarker).sizeBytes = sizeMarker.toNat := by
  obtain ⟨size, rfl⟩ := (isValidSizeMarker_iff _).mp h
  rw [KeySize.ofMarker_marker, KeySize.sizeBytes]

theorem toNat_sizeMarker_pos {sizeMarker : Byte} (h : isValidSizeMarker sizeMarker = true) :
    0 < sizeMarker.toNat := by
  obtain ⟨size, rfl⟩ := (isValidSizeMarker_iff _).mp h
  cases size <;> decide

/-- The checks of the header, on the two bytes that the reader has asked for. -/
theorem header_checks (content : List Byte) :
    ((content.take 2).length ≠ 2 ∨ (content.take 2)[0]?.getD 0 ≠ kKeyFileVersion ∨
      isValidSizeMarker ((content.take 2)[1]?.getD 0) = false) ↔
    (content.length < 2 ∨ content[0]?.getD 0 ≠ kKeyFileVersion ∨
      isValidSizeMarker (content[1]?.getD 0) = false) := by
  have hlength : (content.take 2).length ≠ 2 ↔ content.length < 2 := by
    rw [List.length_take]
    omega
  rw [hlength, List.getElem?_take_of_lt (by decide), List.getElem?_take_of_lt (by decide)]

/-- What the reader of `n` bytes gets where `rest` is still ahead. -/
def takeAll (rest : List Byte) (n : Nat) : Option (List Byte) :=
  if n ≤ rest.length then some (rest.take n) else none

section Load

variable {os : Os} {w : World} {path : String} {content : List Byte} {fd offset : Nat}

/-- The loop of the POSIX reader, with `data` read so far and `m` bytes to go. -/
theorem readKeyBody_delivers (hdelivers : os.DeliversPieces) {n m : Nat} {data : List Byte}
    (hleft : data.length + m = n) (hdata : data = (content.drop offset).take data.length)
    (hfd : w.fds fd = some ⟨path, offset + data.length⟩) (hfile : w.files path = some content) :
    ∃ w', Ends (loop (readKeyBody os fd n) data) w (.ok (takeAll (content.drop offset) n)) w' := by
  induction m using Nat.strongRecOn generalizing data w with
  | ind m ih =>
      obtain rfl | hm := Nat.eq_zero_or_pos m
      · obtain rfl : data.length = n := hleft
        have hle : data.length ≤ (content.drop offset).length := by
          have hlength := congrArg List.length hdata
          rw [List.length_take] at hlength
          omega
        refine ⟨w, Ends.loop_done ?_⟩
        rw [readKeyBody, if_neg (lt_irrefl _), takeAll, if_pos hle, ← hdata, ends_pure]
        exact ⟨rfl, rfl⟩
      obtain ⟨answer, hanswer⟩ := Option.isSome_iff_exists.mp (hdelivers w.clock m)
      obtain ⟨w₁, hread, hfd₁, hfiles₁, -⟩ := read_answered hfd hfile hanswer
      set piece := (content.drop (offset + data.length)).take (min m (max 1 answer)) with hpiece
      have hlength : piece.length = min (min m (max 1 answer))
          (content.length - (offset + data.length)) := by
        rw [hpiece, List.length_take, List.length_drop]
      obtain rfl : m = n - data.length := by omega
      by_cases hempty : piece = []
      · -- the end of the file
        have hnone : takeAll (content.drop offset) n = none := by
          rw [hempty, List.length_nil] at hlength
          rw [takeAll, if_neg]
          rw [List.length_drop]
          omega
        refine ⟨w₁, Ends.loop_done ?_⟩
        rw [readKeyBody, if_pos (by omega), hread.bind_iff, hempty, hnone]
        simp
      · have hnext : Ends (readKeyBody os fd n data) w (.ok (.inl (data ++ piece))) w₁ := by
          rw [readKeyBody, if_pos (by omega), hread.bind_iff]
          simp [hempty]
        have hpos : 0 < piece.length := List.length_pos_of_ne_nil hempty
        have hsofar : data ++ piece = (content.drop offset).take (data ++ piece).length := by
          rw [List.length_append, List.take_add, List.drop_drop, ← hdata, hpiece, List.length_take,
            ← List.take_eq_take_min]
        rw [Nat.add_assoc, ← List.length_append] at hfd₁
        obtain ⟨w', hrest⟩ := ih (n - (data ++ piece).length) (by rw [List.length_append]; omega)
          (by rw [List.length_append]; omega) hsofar hfd₁ (hfiles₁ ▸ hfile)
        exact ⟨w', hnext.loop_next.mpr hrest⟩

/-- Short reads do not matter to the POSIX reader. -/
theorem readKeyPosix_delivers (hdelivers : os.DeliversPieces) (n : Nat)
    (hfd : w.fds fd = some ⟨path, offset⟩) (hfile : w.files path = some content) :
    ∃ w', Ends (readKeyPosix os fd n) w (.ok (takeAll (content.drop offset) n)) w' :=
  readKeyBody_delivers hdelivers (Nat.zero_add n) rfl hfd hfile

theorem readKeyWin_serves (hos : os.Serves) {n : Nat} (hn : 0 < n) (hfd : w.fds fd = some ⟨path, offset⟩)
    (hfile : w.files path = some content) :
    ∃ w', Ends (readKeyWin os fd n) w (.ok (takeAll (content.drop offset) n)) w' := by
  obtain ⟨w', hread, -⟩ := read_serves hos hfd hfile hn
  have hlength : ((content.drop offset).take n).length = n ↔ n ≤ (content.drop offset).length := by
    rw [List.length_take]
    omega
  refine ⟨w', ?_⟩
  rw [readKeyWin, hread.bind_iff]
  simp only [hlength, takeAll, ends_pure, and_self]

/-- The outcome for every file, where the header is read at once and the key is read somehow. -/
theorem loadFromFile_reads {answer : Nat} (hfile : w.files path = some content)
    (hopen : os.openForReading w.clock path = true)
    (hheader : os.read (w.clock + 1) 2 = some answer) (hall : 2 ≤ answer)
    (hkey : ∀ {v n}, 0 < n → v.fds w.clock = some ⟨path, 2⟩ → v.files path = some content →
      ∃ v', Ends (os.ifWindows (readKeyWin os w.clock n) (readKeyPosix os w.clock n)) v
        (.ok (takeAll (content.drop 2) n)) v') :
    ∃ w', Ends (loadFromFile os path) w (parseKeyFile path content) w' := by
  obtain ⟨w₁, hopened, hfd, hfiles₁, -, hclock⟩ := openForReading_opens hopen hfile
  rw [← hclock] at hheader
  obtain ⟨w₂, hread, hfd₂, hfiles₂, -⟩ := read_answered hfd (hfiles₁ ▸ hfile) hheader
  have hfile₂ : w₂.files path = some content := by rw [hfiles₂, hfiles₁, hfile]
  have htwo : min 2 (max 1 answer) = 2 := by omega
  rw [htwo, List.drop_zero] at hread hfd₂
  simp only [loadFromFile, parseKeyFile]
  simp only [hopened.bind_iff, hread.bind_iff, Option.getD_some, header_checks]
  by_cases hbad : content.length < 2 ∨ content[0]?.getD 0 ≠ kKeyFileVersion ∨
      isValidSizeMarker (content[1]?.getD 0) = false
  · refine ⟨(w₂.setFd w.clock none).tick, ?_⟩
    rw [if_pos hbad, if_pos hbad]
    exact (closeFd_ends _ w₂).bind ((ends_raise _ _ _ _).mpr ⟨rfl, rfl⟩)
  rw [if_neg hbad, if_neg hbad]
  simp only [not_or, not_lt, Bool.not_eq_false] at hbad
  obtain ⟨hlength, -, hvalid⟩ := hbad
  have hpos := toNat_sizeMarker_pos hvalid
  rw [List.length_take, Nat.min_eq_left hlength, Nat.zero_add] at hfd₂
  rw [List.getElem?_take_of_lt (by decide)]
  obtain ⟨w₃, hread⟩ := hkey hpos hfd₂ hfile₂
  refine ⟨(w₃.setFd w.clock none).tick, hread.bind ((closeFd_ends _ w₃).bind ?_)⟩
  by_cases hshort : content.length < 2 + (content[1]?.getD 0).toNat
  · rw [if_pos hshort, takeAll, if_neg (by rw [List.length_drop]; omega), ends_raise]
    exact ⟨rfl, rfl⟩
  · rw [if_neg hshort, takeAll, if_pos (by rw [List.length_drop]; omega), keyFromBytes,
      sizeBytes_ofMarker hvalid, ends_pure]
    exact ⟨rfl, rfl⟩

theorem loadFromFile_parses (hos : os.Serves) (hfile : w.files path = some content) :
    ∃ w', Ends (loadFromFile os path) w (parseKeyFile path content) w' := by
  refine loadFromFile_reads hfile (hos.openForReading _ _) (hos.read _ _) le_rfl fun {v n} hn hfd
    hfile => ?_
  unfold Os.ifWindows
  split_ifs
  · exact readKeyWin_serves hos hn hfd hfile
  · exact readKeyPosix_delivers hos.deliversPieces n hfd hfile

end Load

/-- The reader behind a good header. -/
theorem parseKeyFile_header (path : String) (size : KeySize) (rest : List Byte) :
    parseKeyFile path ([kKeyFileVersion, size.marker] ++ rest) =
      if rest.length < size.sizeBytes then .error (.formatError ("key file truncated: " ++ path))
      else .ok (keyFromBytes rest size) := by
  have hvalid : isValidSizeMarker size.marker = true := (isValidSizeMarker_iff _).mpr ⟨size, rfl⟩
  have hshort : rest.length + 1 + 1 < 2 + size.marker.toNat ↔ rest.length < size.sizeBytes := by
    rw [KeySize.sizeBytes]
    omega
  simp [parseKeyFile, hvalid, hshort]

/-- The reader on the writer's file. -/
theorem parseKeyFile_keyFileBytes (path : String) (key : SecretKey) :
    parseKeyFile path (keyFileBytes key) = .ok (keyFromBytes key.material key.size) := by
  rw [keyFileBytes, parseKeyFile_header,
    if_neg (by rw [key.length_material, sizeBytes]; exact lt_irrefl _)]

/-- A key file is read back as the key without the unused part of its storage. -/
theorem loadFromFile_serves {os : Os} (hos : os.Serves) {w : World} {path : String} (key : SecretKey)
    (hfile : w.files path = some (keyFileBytes key)) :
    ∃ w', Ends (loadFromFile os path) w (.ok (keyFromBytes key.material key.size)) w' :=
  parseKeyFile_keyFileBytes path key ▸ loadFromFile_parses hos hfile

end SecretKey

end Aeslib
