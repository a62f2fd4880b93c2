import Aeslib.Container
import Aeslib.ContainerLaws
import Aeslib.FileEffects

/-!
The container files: `save_container` and `load_container` of `src/container.cpp`,
`save_gcm_container` and `load_gcm_container` of `src/aes_gcm.cpp`.
-/

namespace Aeslib

open Prog

def saveContainer (os : Os) (container : Container) (path : String) : Prog World Error Unit :=
  writeFile os path (serialize container)

def loadContainer (os : Os) (path : String) : Prog World Error Container := do
  let data ← readFile os path
  ofExcept (deserialize data)

def saveGcmContainer (os : Os) (container : GcmContainer) (path : String) : Prog World Error Unit :=
  writeFile os path (serializeGcm container)

def loadGcmContainer (os : Os) (path : String) : Prog World Error GcmContainer := do
  let data ← readFile os path
  ofExcept (deserializeGcm data)

section Loads

variable {os : Os} {w : World}

/-- A reader of a whole file whose parser throws `FormatError` only. -/
theorem readFile_parse_effect {α : Type} {parse : List Byte → Except Error α}
    (hparse : ∀ data e, parse data = .error e → e.kind = .format) (hw : w.Fresh) (path : String) :
    Contract (· = w) (readFile os path >>= fun data => ofExcept (parse data)) (fun _ => w.Unchanged)
      fun e v => ReaderThrows os path [.io, .format] e ∧ w.Unchanged v := by
  have hread : Contract (· = w) (readFile os path) (fun _ => w.Unchanged)
      fun e v => ReaderThrows os path [.io, .format] e ∧ w.Unchanged v :=
    (readFile_effect hw path).weaken (fun _ h => h) (fun _ _ h => h) fun e v h =>
      ⟨.of_readFile List.mem_cons_self h.1, h.2⟩
  refine hread.bind fun data => Contract.ofExcept (fun v _ hv _ => hv) fun v e hv herror => ?_
  exact ⟨.inl (by simp [hparse data e herror]), hv⟩

theorem deserialize_error_kind (data : List Byte) (e : Error) (h : deserialize data = .error e) :
    e.kind = .format := by
  obtain ⟨container, hok, -⟩ | ⟨what, herror⟩ := deserialize_cases data
  · rw [hok] at h
    simp at h
  · obtain rfl := Except.error.inj (herror.symm.trans h)
    rfl

theorem deserializeGcm_error_kind (data : List Byte) (e : Error) (h : deserializeGcm data = .error e) :
    e.kind = .format := by
  obtain ⟨container, hok, -⟩ | ⟨what, herror⟩ := deserializeGcm_cases data
  · rw [hok] at h
    simp at h
  · obtain rfl := Except.error.inj (herror.symm.trans h)
    rfl

theorem loadContainer_effect (hw : w.Fresh) (path : String) :
    Contract (· = w) (loadContainer os path) (fun _ => w.Unchanged)
      fun e v => ReaderThrows os path [.io, .format] e ∧ w.Unchanged v :=
  readFile_parse_effect deserialize_error_kind hw path

theorem loadGcmContainer_effect (hw : w.Fresh) (path : String) :
    Contract (· = w) (loadGcmContainer os path) (fun _ => w.Unchanged)
      fun e v => ReaderThrows os path [.io, .format] e ∧ w.Unchanged v :=
  readFile_parse_effect deserializeGcm_error_kind hw path

/-- A load that returns has parsed the file. -/
theorem readFile_parse_triple {α : Type} (parse : List Byte → Except Error α) (path : String)
    {content : List Byte} :
    Triple (fun w => w.files path = some content)
    (readFile os path >>= fun data => ofExcept (parse data))
      fun a _ => parse content = .ok a := by
  intro w a w' hfile h
  rcases ends_bind.mp h with ⟨data, w₁, hread, hparse⟩ | ⟨_, he, -⟩
  · rcases (readFile_result hread).2 with ⟨what, hio⟩ | ⟨data', hdata', hok⟩
    · simp at hio
    · obtain rfl := Except.ok.inj hok
      obtain rfl := Option.some.inj (hdata'.symm.trans hfile)
      exact ((ends_ofExcept _ _ _ _).mp hparse).1.symm
  · simp at he

theorem readFile_parse_serves {α : Type} (hos : os.Serves) (parse : List Byte → Except Error α)
    {path : String} {content : List Byte} (hfile : w.files path = some content) :
    ∃ w', Ends (readFile os path >>= fun data => ofExcept (parse data)) w (parse content) w' := by
  obtain ⟨w', hread, -⟩ := readFile_serves hos hfile
  exact ⟨w', hread.bind_iff.mpr ((ends_ofExcept _ _ _ _).mpr ⟨rfl, rfl⟩)⟩

end Loads

end Aeslib
