import Aeslib.KeyFile

/-!
The reader of the plain key file on every file content. It takes the bytes that the size marker asks
for and never looks for the end of the file, so what it accepts is a key file with anything behind
it. The other three formats of the library check the total length.
-/

namespace Aeslib

open Prog SecretKey

/-- A file is refused, or it is a header with enough bytes behind it. -/
theorem parseKeyFile_cases (path : String) (content : List Byte) :
    (∃ what, parseKeyFile path content = .error (.formatError what)) ∨
    ∃ (size : KeySize) (rest : List Byte), content = [kKeyFileVersion, size.marker] ++ rest ∧
      size.sizeBytes ≤ rest.length := by
  by_cases hbad : content.length < 2 ∨ content[0]?.getD 0 ≠ kKeyFileVersion ∨
      isValidSizeMarker (content[1]?.getD 0) = false
  · exact .inl ⟨_, by rw [parseKeyFile, if_pos hbad]⟩
  simp only [not_or, not_lt, not_not, Bool.not_eq_false] at hbad
  obtain ⟨hlength, hversion, hvalid⟩ := hbad
  obtain ⟨version, sizeMarker, rest, rfl⟩ :
    ∃ version sizeMarker rest, content = version :: sizeMarker :: rest := by
    rcases content with _ | ⟨version, _ | ⟨sizeMarker, rest⟩⟩
    · simp at hlength
    · simp at hlength
    · exact ⟨version, sizeMarker, rest, rfl⟩
  obtain rfl : version = kKeyFileVersion := hversion
  obtain ⟨size, hsize⟩ := (isValidSizeMarker_iff _).mp hvalid
  obtain rfl : size.marker = sizeMarker := hsize
  by_cases hshort : rest.length < size.sizeBytes
  · exact .inl ⟨_, (parseKeyFile_header path size rest).trans (if_pos hshort)⟩
  · exact .inr ⟨size, rest, rfl, Nat.not_lt.mp hshort⟩

/-- A header and exactly the bytes that it asks for are the file of the key read from them. -/
theorem keyFileBytes_keyFromBytes {size : KeySize} {rest : List Byte}
    (hrest : rest.length = size.sizeBytes) :
    keyFileBytes (keyFromBytes rest size) = [kKeyFileVersion, size.marker] ++ rest := by
  rw [keyFileBytes, material_keyFromBytes hrest]
  rfl

/-- Every key file begins with its header. -/
theorem keyFileBytes_eq_iff {size : KeySize} {rest : List Byte} (key : SecretKey) :
    [kKeyFileVersion, size.marker] ++ rest = keyFileBytes key ↔ key.size = size ∧
    key.material = rest := by
  constructor
  · intro h
    have hparts : size.marker = key.size.marker ∧ rest = key.material := by simpa [keyFileBytes] using h
    refine ⟨?_, hparts.2.symm⟩
    rw [← KeySize.ofMarker_marker key.size, ← hparts.1, KeySize.ofMarker_marker]
  · rintro ⟨rfl, rfl⟩
    rfl

section Any

variable (os : Os) {path : String} {content : List Byte} {fd offset : Nat}

/-- The descriptor `fd` stands at `offset` in the file at `path`, which holds `content`. -/
structure ReadsAt (fd : Nat) (path : String) (content : List Byte) (offset : Nat) (w : World) :
    Prop where
  fd : w.fds fd = some ⟨path, offset⟩
  file : w.files path = some content

theorem openForReading_triple :
    Triple (fun w => w.files path = some content) (openForReading os path) fun r w =>
      ∀ fd, r = some fd → ReadsAt fd path content 0 w := by
  refine Triple.op fun w a hw h fd hfd => ?_
  subst hfd
  split_ifs at h ⊢ with hopen
  · obtain rfl : w.clock = fd := by simpa using h
    exact ⟨by simp [World.tick, World.setFd], hw⟩
  · simp at h

/-- A read returns what lies ahead, and at most what was asked for. -/
theorem read_triple (count : Nat) :
    Triple (ReadsAt fd path content offset) (read os fd count) fun r w => ∀ piece, r = some piece →
      piece = (content.drop offset).take piece.length ∧ piece.length ≤ count ∧
        ReadsAt fd path content (offset + piece.length) w := by
  refine Triple.op fun w a hw h piece hpiece => ?_
  subst hpiece
  simp only [hw.fd] at h ⊢
  cases hanswer : os.read w.clock count with
  | none => simp [hanswer] at h
  | some answer =>
      simp only [hanswer, hw.file, Option.getD_some] at h ⊢
      have hpiece : (content.drop offset).take (min count (max 1 answer)) = piece := by simpa using h
      refine ⟨?_, ?_, ?_, hw.file⟩
      · rw [← hpiece, List.length_take, ← List.take_eq_take_min]
      · rw [← hpiece, List.length_take]
        omega
      · simp [World.tick, World.setFd, hpiece]

/-- The loop has read the first `data.length` bytes before each iteration. -/
theorem readKeyPosix_triple (n : Nat) :
    Triple (ReadsAt fd path content offset) (readKeyPosix os fd n)
      fun r _ => ∀ data, r = some data → takeAll (content.drop offset) n = some data := by
  have hloop : Triple (fun w => ([] : List Byte) = (content.drop offset).take ([] : List Byte).length ∧
        ([] : List Byte).length ≤ n ∧ ReadsAt fd path content (offset + ([] : List Byte).length) w)
      (readKeyPosix os fd n)
      fun r _ => ∀ data, r = some data → takeAll (content.drop offset) n = some data := by
    refine Triple.loop (fun (data : List Byte) (w : World) => data =
      (content.drop offset).take data.length ∧
      data.length ≤ n ∧ ReadsAt fd path content (offset + data.length) w) fun data => ?_
    unfold readKeyBody
    split_ifs with hlt
    · refine Triple.assume (fun _ h => h.1) fun hdata => ?_
      have hread : Triple (fun w => data = (content.drop offset).take data.length ∧ data.length ≤ n ∧
          ReadsAt fd path content (offset + data.length) w) (read os fd (n - data.length))
            fun r w => ∀ piece, r = some piece →
          piece = (content.drop (offset + data.length)).take piece.length ∧
          piece.length ≤ n - data.length ∧
            ReadsAt fd path content (offset + data.length + piece.length) w :=
        fun w r w' hw h => read_triple os _ hw.2.2 h
      refine hread.bind fun r => ?_
      cases r with
      | none => exact Triple.pure fun w _ => by simp
      | some piece =>
          by_cases hempty : piece.isEmpty
          · simp only [hempty, if_true]
            exact Triple.pure fun w _ => by simp
          · simp only [hempty]
            refine Triple.pure fun w hw => ?_
            obtain ⟨hpiece, hle, hat⟩ := hw piece rfl
            refine ⟨?_, ?_, ?_⟩
            · rw [List.length_append, List.take_add, List.drop_drop, ← hdata, ← hpiece]
            · rw [List.length_append]
              omega
            · rwa [List.length_append, ← Nat.add_assoc]
    · refine Triple.pure fun w hw data' hsome => ?_
      obtain rfl := Option.some.inj hsome
      obtain ⟨hdata, hle, -⟩ := hw
      have hn : data.length = n := by omega
      rw [hn] at hdata
      rw [takeAll, if_pos, ← hdata]
      rw [← hn, hdata, List.length_take]
      omega
  exact fun w r w' hw h => hloop ⟨rfl, Nat.zero_le n, hw⟩ h

theorem readKeyWin_triple (n : Nat) :
    Triple (ReadsAt fd path content offset) (readKeyWin os fd n) fun r _ => ∀ data, r = some data →
      takeAll (content.drop offset) n = some data := by
  refine (read_triple os n).bind fun r => ?_
  cases r with
  | none => exact Triple.pure fun w _ => by simp
  | some piece =>
      refine Triple.pure fun w hw data hsome => ?_
      obtain ⟨hpiece, -, -⟩ := hw piece rfl
      split_ifs at hsome with hn
      obtain rfl := Option.some.inj hsome
      rw [hn] at hpiece
      rw [takeAll, if_pos, ← hpiece]
      rw [← hn, hpiece, List.length_take]
      omega

theorem readKey_triple (n : Nat) :
    Triple (ReadsAt fd path content offset)
    (os.ifWindows (readKeyWin os fd n) (readKeyPosix os fd n)) fun r _ =>
      ∀ data, r = some data → takeAll (content.drop offset) n = some data := by
  unfold Os.ifWindows
  split_ifs
  · exact readKeyWin_triple os n
  · exact readKeyPosix_triple os n

/-- A key that is returned is the one that `parseKeyFile` finds, however the reads were served. -/
theorem loadFromFile_triple :
    Triple (fun w => w.files path = some content) (loadFromFile os path) fun key _ =>
      parseKeyFile path content = .ok key := by
  refine (openForReading_triple os).bind fun r => ?_
  cases r with
  | none => exact Triple.raise _
  | some fd =>
      have hopen : Triple (fun w => ∀ d, some fd = some d → ReadsAt d path content 0 w)
          (read os fd 2) fun r w =>
          ∀ piece, r = some piece → piece = (content.drop 0).take piece.length ∧ piece.length ≤ 2 ∧
            ReadsAt fd path content (0 + piece.length) w :=
            fun w r w' hw h => read_triple os 2 (hw fd rfl) h
      refine hopen.bind fun header => ?_
      by_cases hbad : (header.getD []).length ≠ 2 ∨ (header.getD [])[0]?.getD 0 ≠ kKeyFileVersion ∨
          isValidSizeMarker ((header.getD [])[1]?.getD 0) = false
      · simp only [if_pos hbad]
        exact (Triple.any (closeFd fd)).bind fun _ => Triple.raise _
      simp only [if_neg hbad]
      cases header with
      | none => exact absurd (.inl (by simp)) hbad
      | some piece =>
          simp only [Option.getD_some] at hbad ⊢
          have hlength : piece.length = 2 := not_not.mp fun hne => hbad (.inl hne)
          -- the header is the first two bytes, and the offset stands behind it
          have hheader : Triple (fun w => ∀ p, some piece = some p → p = (content.drop 0).take p.length ∧
                p.length ≤ 2 ∧ ReadsAt fd path content (0 + p.length) w)
              (os.ifWindows (readKeyWin os fd (piece[1]?.getD 0).toNat)
                (readKeyPosix os fd (piece[1]?.getD 0).toNat))
              fun r _ => piece = content.take 2 ∧ ∀ data, r = some data →
                takeAll (content.drop 2) (piece[1]?.getD 0).toNat = some data := by
            intro w r w' hw h
            obtain ⟨hpiece, -, hat⟩ := hw piece rfl
            rw [hlength] at hpiece hat
            exact ⟨hpiece, readKey_triple os _ hat h⟩
          refine hheader.bind fun data => Triple.assume (fun _ h => h) fun ⟨hpiece, hdata⟩ => ?_
          refine (Triple.any (closeFd fd)).bind fun _ => ?_
          cases data with
          | none => exact Triple.raise _
          | some data =>
              refine Triple.pure fun _ _ => ?_
              have hall := hdata data rfl
              rw [hpiece, header_checks] at hbad
              rw [hpiece, List.getElem?_take_of_lt (by decide)] at hall ⊢
              have hvalid : isValidSizeMarker (content[1]?.getD 0) = true :=
                Bool.eq_true_of_not_eq_false fun hfalse => hbad (.inr (.inr hfalse))
              unfold takeAll at hall
              split_ifs at hall with hlen
              rw [List.length_drop] at hlen
              obtain rfl := Option.some.inj hall
              simp only [parseKeyFile]
              rw [if_neg hbad, if_neg (by omega), keyFromBytes, sizeBytes_ofMarker hvalid]

end Any

/-- Wherever the file is read in full, it is loaded if and only if it is the key file of the key
that comes out, and every other file is a `FormatError`. -/
def ParsedExactly (content : List Byte) : Prop :=
  ∀ os : Os, os.Serves → ∀ w path, w.files path = some content →
    ∃ r w', Ends (loadFromFile os path) w r w' ∧
      (∀ key, r = .ok key → content = keyFileBytes key) ∧
      (∀ key, content = keyFileBytes key →
        ∃ loaded, r = .ok loaded ∧ loaded.size = key.size ∧ loaded.material = key.material) ∧
      ((∀ key, content ≠ keyFileBytes key) → ∃ what, r = .error (.formatError what))

/-- A header with more bytes behind it than its size marker says. -/
def HasTrailingBytes (content : List Byte) : Prop :=
  ∃ (size : KeySize) (rest : List Byte), content = [kKeyFileVersion, size.marker] ++ rest ∧
    size.sizeBytes < rest.length

variable {content : List Byte}

theorem parsedExactly_of_not_trailing (h : ¬HasTrailingBytes content) : ParsedExactly content := by
  intro os hos w path hfile
  obtain ⟨w', hload⟩ := loadFromFile_parses hos hfile
  refine ⟨_, w', hload, ?_⟩
  obtain ⟨what, herror⟩ | ⟨size, rest, rfl, hle⟩ := parseKeyFile_cases path content
  · rw [herror]
    refine ⟨fun key h => by simp at h, fun key hkey => ?_, fun _ => ⟨what, rfl⟩⟩
    rw [hkey, parseKeyFile_keyFileBytes] at herror
    simp at herror
  · have hrest : rest.length = size.sizeBytes := by
      by_contra hne
      exact h ⟨size, rest, rfl, by omega⟩
    have hbytes := keyFileBytes_keyFromBytes hrest
    rw [parseKeyFile_header, if_neg (by omega)]
    refine ⟨fun key heq => Except.ok.inj heq ▸ hbytes.symm, fun key hkey => ?_,
      fun hnone => absurd hbytes.symm (hnone _)⟩
    obtain ⟨rfl, rfl⟩ := (keyFileBytes_eq_iff key).mp hkey
    exact ⟨_, rfl, by rw [keyFromBytes], material_keyFromBytes hrest⟩

theorem not_parsedExactly_of_trailing (h : HasTrailingBytes content) : ¬ParsedExactly content := by
  intro hexact
  obtain ⟨size, rest, rfl, hlt⟩ := h
  have hfile : (World.empty.setFile "key" ([kKeyFileVersion, size.marker] ++ rest)).files "key" =
      some ([kKeyFileVersion, size.marker] ++ rest) := by simp [World.setFile]
  obtain ⟨r, w', hrun, hbytes, -⟩ := hexact Os.plain Os.plain_serves _ "key" hfile
  obtain ⟨v', hload⟩ := loadFromFile_parses Os.plain_serves hfile
  rw [parseKeyFile_header, if_neg (by omega)] at hload
  obtain ⟨rfl, -⟩ := hrun.unique hload
  obtain ⟨-, hmaterial⟩ := (keyFileBytes_eq_iff _).mp (hbytes _ rfl)
  rw [← hmaterial, length_material, sizeBytes, keyFromBytes] at hlt
  exact absurd hlt (lt_irrefl _)

variable (content)

/-- **The plain key file is parsed exactly up to trailing bytes.** -/
theorem parsedExactly_iff : ParsedExactly content ↔ ¬HasTrailingBytes content := by
  constructor
  · exact fun h htrailing => not_parsedExactly_of_trailing htrailing h
  · exact parsedExactly_of_not_trailing

/-- The file of an AES-256 key whose size marker has been changed to 16 loads as an AES-128 key. -/
theorem not_parsedExactly_changedMarker : ¬ParsedExactly ((keyFileBytes {}).set 1 16) :=
  not_parsedExactly_of_trailing ⟨.aes128, List.replicate 32 0, by decide, by decide⟩

end Aeslib
