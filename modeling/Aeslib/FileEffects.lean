import Aeslib.KeyFile
import Aeslib.LibContract
import Aeslib.WriteFile

/-!
What the readers and the writers do to the files and the descriptors, on any platform and on every
way out. A descriptor is the time of its opening, so on a `Fresh` world it is a new one. A reader
leaves everything as it was; a writer that has opened its file leaves a prefix of its data there,
all of them exactly if it returns.
-/

namespace Aeslib

open Prog

/-- The classes of `exceptions.hpp`, and the exceptions that are no part of the interface. -/
inductive ErrorKind where
  | io
  | format
  | limit
  | authentication
  | logic
  | badAlloc
  | filesystem
  | outOfRange
  deriving DecidableEq

def Error.kind : Error → ErrorKind
  | .ioError _ => .io
  | .formatError _ => .format
  | .limitError _ => .limit
  | .authenticationError _ => .authentication
  | .logicError _ => .logic
  | .badAlloc => .badAlloc
  | .filesystemError _ => .filesystem
  | .outOfRange => .outOfRange

/-- A reader of a whole file throws one of the `kinds`, or `std::bad_alloc` where its file has no end. -/
def ReaderThrows (os : Os) (path : String) (kinds : List ErrorKind) (e : Error) : Prop :=
  e.kind ∈ kinds ∨ e = .badAlloc ∧ os.Endless path

namespace ReaderThrows

variable {os : Os} {path : String} {kinds kinds' : List ErrorKind} {e : Error}

theorem of_readFile (hio : .io ∈ kinds) (h : ReadFileThrows os path e) :
    ReaderThrows os path kinds e := by
  obtain ⟨what, rfl⟩ | hendless := h
  · exact .inl hio
  · exact .inr hendless

theorem weaken (h : ReaderThrows os path kinds e) (hsub : kinds ⊆ kinds') :
    ReaderThrows os path kinds' e :=
  h.imp_left fun hkind => hsub hkind

end ReaderThrows

namespace World

/-- The files and the descriptors are as they were. -/
structure Unchanged (w v : World) : Prop where
  files : v.files = w.files
  fds : v.fds = w.fds
  clock : w.clock ≤ v.clock

/-- Only the file at `path` is another one. -/
structure Stored (w : World) (path : String) (content : List Byte) (v : World) : Prop where
  files : v.files = Function.update w.files path (some content)
  fds : v.fds = w.fds
  clock : w.clock ≤ v.clock

/-- `fd` has been opened on `path`, and `content` has gone out. -/
structure Writing (w : World) (fd : Nat) (path : String) (content : List Byte) (v : World) : Prop where
  files : v.files = Function.update w.files path (some content)
  fds : v.fds = Function.update w.fds fd (some ⟨path, content.length⟩)
  clock : w.clock ≤ v.clock

/-- `fd` has been opened, and nothing is written. -/
structure Reading (w : World) (fd : Nat) (v : World) : Prop where
  files : v.files = w.files
  fds : Function.update v.fds fd none = Function.update w.fds fd none
  clock : w.clock ≤ v.clock

/-- The descriptors to come are free. -/
def Fresh (w : World) : Prop := ∀ fd ≥ w.clock, w.fds fd = none

theorem fresh_empty : empty.Fresh := fun _ _ => rfl

section Fresh

variable {w v : World} {path : String} {content : List Byte}

theorem Fresh.of_fds (h : w.Fresh) (hfds : v.fds = w.fds) (hclock : w.clock ≤ v.clock) : v.Fresh := by
  intro fd hfd
  rw [hfds]
  exact h fd (hclock.trans hfd)

theorem Unchanged.fresh (hv : w.Unchanged v) (h : w.Fresh) : v.Fresh := h.of_fds hv.fds hv.clock

theorem Stored.fresh (hv : w.Stored path content v) (h : w.Fresh) : v.Fresh := h.of_fds hv.fds hv.clock

theorem Unchanged.refl (w : World) : w.Unchanged w := ⟨rfl, rfl, le_rfl⟩

theorem Unchanged.trans {u : World} (hv : w.Unchanged v) (hu : v.Unchanged u) : w.Unchanged u :=
  ⟨hu.files.trans hv.files, hu.fds.trans hv.fds, hv.clock.trans hu.clock⟩

theorem Unchanged.stored {u : World} (hv : w.Unchanged v) (hu : v.Stored path content u) :
    w.Stored path content u :=
  ⟨by rw [hu.files, hv.files], hu.fds.trans hv.fds, hv.clock.trans hu.clock⟩

end Fresh

end World

/-- On every way out a prefix of `data` has gone out, and all of it exactly if the transfer reports
success. -/
def Sends (transfer : Transfer) (data : List Byte) : Prop := ∀ w fd path content,
  Contract (World.Writing w fd path content) (transfer fd)
    (fun ok v => ∃ n ≤ data.length, (ok = true ↔ n = data.length) ∧
      w.Writing fd path (content ++ data.take n) v)
    fun _ _ => False

section Transfers

variable (os : Os)

theorem write_sends (w : World) (fd : Nat) (path : String) (content data : List Byte) :
    Contract (World.Writing w fd path content) (write os fd data)
      (fun r v => (r = none → w.Writing fd path content v) ∧
        ∀ n, r = some n → n ≤ data.length ∧ w.Writing fd path (content ++ data.take n) v)
      fun _ _ => False := by
  have hfd {v : World} (hv : w.Writing fd path content v) : v.fds fd = some ⟨path, content.length⟩ := by
    rw [hv.fds, Function.update_self]
  have hfile {v : World} (hv : w.Writing fd path content v) : v.files path = some content := by
    rw [hv.files, Function.update_self]
  refine Contract.op (fun v a hv hok => ?_) fun v e hv herror => ?_
  · simp only [hfd hv] at hok ⊢
    cases hanswer : os.write v.clock data.length with
    | none =>
        simp only [hanswer] at hok ⊢
        obtain rfl : none = a := Except.ok.inj hok
        exact ⟨fun _ => ⟨hv.files, hv.fds, Nat.le_succ_of_le hv.clock⟩, by simp⟩
    | some count =>
        simp only [hanswer] at hok ⊢
        obtain rfl : some (min count data.length) = a := Except.ok.inj hok
        refine ⟨by simp, fun n hn => ?_⟩
        obtain rfl := Option.some.inj hn
        have hrest : content.drop (content.length + min count data.length) = [] :=
          List.drop_eq_nil_of_le (Nat.le_add_right _ _)
        refine ⟨Nat.min_le_right _ _, ?_, ?_, Nat.le_succ_of_le hv.clock⟩
        · simp [World.tick, World.setFd, World.setFile, hv.files, hrest]
        · simp [World.tick, World.setFd, World.setFile, hv.fds]
  · simp only [hfd hv] at herror
    split at herror <;> simp at herror

theorem writeOnce_sends {data : List Byte} (hdata : data ≠ []) : Sends (writeOnce os data) data := by
  intro w fd path content
  refine (write_sends os w fd path content data).bind fun r => ?_
  cases r with
  | none =>
      refine Contract.pure fun v hv => ⟨0, Nat.zero_le _, ?_, ?_⟩
      · simpa using Ne.symm (List.length_pos_of_ne_nil hdata).ne'
      · rw [List.take_zero, List.append_nil]
        exact hv.1 rfl
  | some n =>
      refine Contract.pure fun v hv => ?_
      obtain ⟨hle, hend⟩ := hv.2 n rfl
      exact ⟨n, hle, by simp, hend⟩

theorem writeFileWin_sends {data : List Byte} (hdata : data ≠ []) :
    Sends (fun h => writeFileWin os h data) data := by
  intro w fd path content
  have hpos := List.length_pos_of_ne_nil hdata
  refine (write_sends os w fd path content _).bind fun r => ?_
  cases r with
  | none =>
      refine Contract.pure fun v hv => ⟨0, Nat.zero_le _, ?_, ?_⟩
      · simpa using hpos.ne
      · rw [List.take_zero, List.append_nil]
        exact hv.1 rfl
  | some n =>
      refine Contract.pure fun v hv => ?_
      obtain ⟨hle, hend⟩ := hv.2 n rfl
      rw [List.length_take] at hle
      rw [List.take_take, Nat.min_eq_left (by omega)] at hend
      exact ⟨n, by omega, by simp, hend⟩

/-- The first `written` bytes have gone out before each iteration. -/
theorem writeLoop_sends (data : List Byte) : Sends (fun fd => writeLoop os fd data) data := by
  intro w fd path content
  have hloop : Contract (fun v => 0 ≤ data.length ∧ w.Writing fd path (content ++ data.take 0) v)
      (writeLoop os fd data)
        (fun ok v => ∃ n ≤ data.length, (ok = true ↔ n = data.length) ∧
        w.Writing fd path (content ++ data.take n) v)
      fun _ _ => False := by
    refine Contract.loop (fun written v => written ≤ data.length ∧
      w.Writing fd path (content ++ data.take written) v)
      (fun written => ?_) 0
    unfold writeLoopBody
    split_ifs with hlt
    · refine Contract.assume (fun _ h => h.1) fun hle => ?_
      refine ((write_sends os w fd path (content ++ data.take written) (data.drop written)).weaken
        (fun _ h => h.2) (fun _ _ h => h) fun _ _ h => h).bind fun r => ?_
      cases r with
      | none => exact Contract.pure fun v hv => ⟨written, hle, by simp; omega, hv.1 rfl⟩
      | some n =>
          refine Contract.pure fun v hv => ?_
          obtain ⟨hn, hend⟩ := hv.2 n rfl
          rw [List.length_drop] at hn
          rw [List.append_assoc, ← List.take_add] at hend
          exact ⟨by omega, hend⟩
    · exact Contract.pure fun v hv => ⟨written, hv.1, by simp; omega, hv.2⟩
  refine hloop.weaken (fun v hv => ⟨Nat.zero_le _, ?_⟩) (fun _ _ h => h) fun _ _ h => h
  rwa [List.take_zero, List.append_nil]

theorem writeFileBranch_sends (data : List Byte) :
    Sends (fun fd => if data.isEmpty then pure true else writeFileWin os fd data) data := by
  cases data with
  | nil =>
      intro w fd path content
      refine Contract.pure fun v hv => ⟨0, le_rfl, by simp, ?_⟩
      rwa [List.take_zero, List.append_nil]
  | cons b data => exact writeFileWin_sends os (List.cons_ne_nil b data)

theorem Sends.andThen {first second : Transfer} {a b : List Byte} (ha : Sends first a)
    (hb : Sends second b) (hne : b ≠ []) : Sends (first.andThen second) (a ++ b) := by
  intro w fd path content
  have hpos := List.length_pos_of_ne_nil hne
  refine (ha w fd path content).bind fun ok => ?_
  cases ok with
  | false =>
      refine Contract.pure fun v ⟨n, hn, hok, hv⟩ => ⟨n, ?_, ?_, ?_⟩
      · rw [List.length_append]
        omega
      · rw [List.length_append]
        simp only [Bool.false_eq_true, false_iff]
        omega
      · rwa [List.take_append_of_le_length hn]
  | true =>
      refine ((hb w fd path (content ++ a)).weaken (fun v ⟨n, hn, hok, hv⟩ => ?_)
        (fun ok v ⟨n, hn, hok, hv⟩ => ?_)
        fun _ _ h => h)
      · rwa [hok.mp rfl, List.take_length] at hv
      · refine ⟨a.length + n, by rw [List.length_append]; omega, ?_, ?_⟩
        · rw [hok, List.length_append]
          omega
        · rw [List.take_length_add_append, ← List.append_assoc]
          exact hv

theorem Sends.ifWindows {windows posix : Transfer} {data : List Byte} (hposix : Sends posix data)
    (hwindows : Sends windows data) : Sends (os.ifWindows windows posix) data := by
  unfold Os.ifWindows
  split_ifs
  · exact hwindows
  · exact hposix

end Transfers

/-- What a writer that throws leaves: nothing at all before its file is open, then a prefix of its
data, and everything only if there is nothing to write. -/
def SaveFails (w : World) (path : String) (data : List Byte) (e : Error) (v : World) : Prop :=
  e.kind = .io ∧
    (w.Unchanged v ∨ ∃ part, part <+: data ∧ (part = data → data = []) ∧ w.Stored path part v)

section Writers

variable {os : Os} {w : World}

/-- Closing a descriptor that the world did not have gives back its descriptors. -/
theorem World.Writing.close {fd : Nat} {path : String} {content : List Byte} {v : World}
    (hv : w.Writing fd path content v) (hfd : w.fds fd = none) :
    w.Stored path content (v.setFd fd none).tick where
  files := hv.files
  fds := by
    change Function.update v.fds fd none = w.fds
    rw [hv.fds, Function.update_idem, ← hfd, Function.update_eq_self]
  clock := Nat.le_succ_of_le hv.clock

theorem writeNewFile_effect (hw : w.Fresh) (path createError reparseError writeError : String)
    {posix windows : Transfer} {data : List Byte} (hposix : Sends posix data)
    (hwindows : Sends windows data) :
    Contract (· = w) (writeNewFile os path createError reparseError writeError posix windows)
      (fun _ => w.Stored path data) (SaveFails w path data) := by
  have hfd := hw w.clock le_rfl
  have hopen : Contract (· = w) (openForWriting os path) (fun fd v => (fd = none → w.Unchanged v) ∧
      ∀ d, fd = some d → d = w.clock ∧ w.Writing d path [] v) (SaveFails w path data) := by
    refine Contract.op (fun v fd hv hok => ?_) fun v e hv herror => ?_
    · subst hv
      split_ifs at hok ⊢
      · obtain rfl := Except.ok.inj hok
        refine ⟨by simp, fun d hd => ?_⟩
        obtain rfl := Option.some.inj hd
        exact ⟨rfl, rfl, rfl, Nat.le_succ _⟩
      · obtain rfl := Except.ok.inj hok
        exact ⟨fun _ => ⟨rfl, rfl, Nat.le_succ _⟩, by simp⟩
    · split_ifs at herror
  refine hopen.bind fun fd => ?_
  cases fd with
  | none => exact Contract.raise fun v hv => ⟨rfl, .inl (hv.1 rfl)⟩
  | some d =>
      refine Contract.assume (fun v hv => (hv.2 d rfl).1) fun hd => ?_
      subst hd
      have hcheck : Contract (fun v => (some w.clock = none → w.Unchanged v) ∧
            ∀ d, some w.clock = some d → d = w.clock ∧ w.Writing d path [] v)
          (os.ifWindows (isReparsePoint os path) (pure false)) (fun _ => w.Writing w.clock path [])
          (SaveFails w path data) := by
        unfold Os.ifWindows
        split_ifs
        · refine Contract.op (fun v _ hv _ => ?_) fun v e hv herror => by simp at herror
          have hopened := (hv.2 _ rfl).2
          exact ⟨hopened.files, hopened.fds, Nat.le_succ_of_le hopened.clock⟩
        · exact Contract.pure fun v hv => (hv.2 _ rfl).2
      refine hcheck.bind fun isReparse => ?_
      cases isReparse with
      | true =>
          have hclose : Contract (w.Writing w.clock path []) (closeFd w.clock)
              (fun _ => w.Stored path [])
              (SaveFails w path data) :=
              Contract.op (fun v _ hv _ => hv.close hfd) fun v e _ herror => by simp at herror
          refine hclose.bind fun _ => Contract.raise fun v hv => ?_
          exact ⟨rfl, .inr ⟨[], List.nil_prefix, fun h => h.symm, hv⟩⟩
      | false =>
          have htransfer : Contract (w.Writing w.clock path []) (os.ifWindows windows posix w.clock)
              (fun ok v => ∃ n ≤ data.length, (ok = true ↔ n = data.length) ∧
                w.Writing w.clock path (data.take n) v)
              (SaveFails w path data) :=
            ((Sends.ifWindows os hposix hwindows) w w.clock path []).weaken (fun _ h => h)
              (fun _ _ h => h)
              fun _ _ h => h.elim
          refine htransfer.bind fun ok => ?_
          have hclose : Contract (fun v => ∃ n ≤ data.length, (ok = true ↔ n = data.length) ∧
                w.Writing w.clock path (data.take n) v) (closeFd w.clock)
              (fun _ v => ∃ n ≤ data.length, (ok = true ↔ n = data.length) ∧
                w.Stored path (data.take n) v)
              (SaveFails w path data) :=
            Contract.op (fun v _ ⟨n, hn, hok, hv⟩ _ => ⟨n, hn, hok, hv.close hfd⟩)
              fun v e _ herror => by simp at herror
          have hthrow : ∀ v, (∃ n ≤ data.length, (ok = true ↔ n = data.length) ∧
              w.Stored path (data.take n) v) →
              ok = false → SaveFails w path data (.ioError (writeError ++ path)) v := by
            rintro v ⟨n, hn, hok, hv⟩ hfalse
            refine ⟨rfl, .inr ⟨data.take n, List.take_prefix n data, fun hall => ?_, hv⟩⟩
            have hlength := congrArg List.length hall
            rw [List.length_take, Nat.min_eq_left hn, ← hok, hfalse] at hlength
            simp at hlength
          refine hclose.bind fun _ => (Contract.raiseIf hthrow).weaken (fun _ h => h) ?_ fun _ _ h => h
          rintro _ v ⟨⟨n, hn, hok, hv⟩, htrue⟩
          rwa [hok.mp (Bool.eq_true_of_not_eq_false htrue), List.take_length] at hv

theorem writeFile_effect (hw : w.Fresh) (path : String) (data : List Byte) :
    Contract (· = w) (writeFile os path data) (fun _ => w.Stored path data) (SaveFails w path data) :=
  writeNewFile_effect hw path _ _ _ (writeLoop_sends os data) (writeFileBranch_sends os data)

theorem SecretKey.material_ne_nil (key : SecretKey) : key.material ≠ [] := by
  refine List.ne_nil_of_length_pos ?_
  rw [key.length_material, sizeBytes]
  cases key.size <;> decide

theorem SecretKey.saveToFile_effect (hw : w.Fresh) (key : SecretKey) (path : String) :
    Contract (· = w) (key.saveToFile os path) (fun _ => w.Stored path key.keyFileBytes)
      (SaveFails w path key.keyFileBytes) := by
  have hmaterial := key.material_ne_nil
  have hposix := (writeOnce_sends os (List.cons_ne_nil kKeyFileVersion [key.size.marker])).andThen
    (writeLoop_sends os key.material) hmaterial
  have hwindows := (writeFileWin_sends os (List.cons_ne_nil kKeyFileVersion [])).andThen
    ((writeFileWin_sends os (List.cons_ne_nil key.size.marker [])).andThen
      (writeFileWin_sends os hmaterial) hmaterial)
    (List.cons_ne_nil _ _)
  rw [saveToFile, sizeMarker_eq]
  exact writeNewFile_effect hw path _ _ _ hposix hwindows

end Writers

section Readers

variable {os : Os} {w : World}

theorem World.Reading.close {fd : Nat} {v : World} (hv : w.Reading fd v) (hfd : w.fds fd = none) :
    w.Unchanged (v.setFd fd none).tick where
  files := hv.files
  fds := by
    change Function.update v.fds fd none = w.fds
    rw [hv.fds, ← hfd, Function.update_eq_self]
  clock := Nat.le_succ_of_le hv.clock

theorem openForReading_effect (path : String) {exc : Error → World → Prop} :
    Contract (· = w) (openForReading os path) (fun fd v => (fd = none → w.Unchanged v) ∧
      ∀ d, fd = some d → d = w.clock ∧ w.Reading d v) exc := by
  refine Contract.op (fun v fd hv hok => ?_) fun v e hv herror => ?_
  · subst hv
    split_ifs at hok ⊢
    · obtain rfl := Except.ok.inj hok
      refine ⟨by simp, fun d hd => ?_⟩
      obtain rfl := Option.some.inj hd
      exact ⟨rfl, rfl, Function.update_idem .., Nat.le_succ _⟩
    · obtain rfl := Except.ok.inj hok
      exact ⟨fun _ => ⟨rfl, rfl, Nat.le_succ _⟩, by simp⟩
  · split_ifs at herror

theorem read_effect (fd count : Nat) {exc : Error → World → Prop} :
    Contract (w.Reading fd) (read os fd count) (fun _ => w.Reading fd) exc := by
  refine Contract.op (fun v r hv hok => ?_) fun v e hv herror => ?_
  · dsimp only
    split
    · exact ⟨hv.files, (Function.update_idem ..).trans hv.fds, Nat.le_succ_of_le hv.clock⟩
    · exact ⟨hv.files, hv.fds, Nat.le_succ_of_le hv.clock⟩
  · dsimp only at herror
    split at herror
    · simp at herror
    · simp at herror

theorem readKeyPosix_effect (fd n : Nat) {exc : Error → World → Prop} :
    Contract (w.Reading fd) (SecretKey.readKeyPosix os fd n) (fun _ => w.Reading fd) exc := by
  refine Contract.loop (fun _ => w.Reading fd) (fun data => ?_) []
  unfold SecretKey.readKeyBody
  split_ifs
  · refine (read_effect fd _).bind fun r => ?_
    cases r with
    | none => exact Contract.pure fun v hv => hv
    | some piece =>
        dsimp only
        split_ifs
        · exact Contract.pure fun v hv => hv
        · exact Contract.pure fun v hv => hv
  · exact Contract.pure fun v hv => hv

theorem readKeyWin_effect (fd n : Nat) {exc : Error → World → Prop} :
    Contract (w.Reading fd) (SecretKey.readKeyWin os fd n) (fun _ => w.Reading fd) exc := by
  refine (read_effect fd n).bind fun r => ?_
  cases r with
  | none => exact Contract.pure fun v hv => hv
  | some data => exact Contract.pure fun v hv => hv

theorem closeFd_effect {fd : Nat} (hfd : w.fds fd = none) {exc : Error → World → Prop} :
    Contract (w.Reading fd) (closeFd fd) (fun _ => w.Unchanged) exc :=
  Contract.op (fun _ _ hv _ => hv.close hfd) fun _ _ _ herror => by simp at herror

theorem SecretKey.loadFromFile_effect (hw : w.Fresh) (path : String) :
    Contract (· = w) (loadFromFile os path) (fun _ => w.Unchanged)
      fun e v => e.kind ∈ [.io, .format] ∧ w.Unchanged v := by
  have hfd := hw w.clock le_rfl
  refine (openForReading_effect path).bind fun fd => ?_
  cases fd with
  | none => exact Contract.raise fun v hv => ⟨by simp [Error.kind], hv.1 rfl⟩
  | some d =>
      refine Contract.assume (fun v hv => (hv.2 d rfl).1) fun hd => ?_
      subst hd
      have hheader : Contract (fun v => (some w.clock = none → w.Unchanged v) ∧
          ∀ d, some w.clock = some d → d = w.clock ∧ w.Reading d v) (read os w.clock 2)
            (fun _ => w.Reading w.clock)
          fun e v => e.kind ∈ [.io, .format] ∧ w.Unchanged v :=
        (read_effect w.clock 2).weaken (fun v hv => (hv.2 _ rfl).2) (fun _ _ h => h) fun _ _ h => h
      refine hheader.bind fun header => ?_
      dsimp only
      split_ifs
      · exact (closeFd_effect hfd).bind fun _ => Contract.raise fun v hv => ⟨by simp [Error.kind], hv⟩
      · have hkey : ∀ n,
            Contract (w.Reading w.clock)
              (os.ifWindows (readKeyWin os w.clock n) (readKeyPosix os w.clock n))
            (fun _ => w.Reading w.clock) fun e v => e.kind ∈ [.io, .format] ∧ w.Unchanged v := by
          intro n
          unfold Os.ifWindows
          split_ifs
          · exact readKeyWin_effect _ n
          · exact readKeyPosix_effect _ n
        refine (hkey _).bind fun data => (closeFd_effect hfd).bind fun _ => ?_
        cases data with
        | none => exact Contract.raise fun v hv => ⟨by simp [Error.kind], hv⟩
        | some data => exact Contract.pure fun v hv => hv

theorem readFile_effect (hw : w.Fresh) (path : String) :
    Contract (· = w) (readFile os path) (fun _ => w.Unchanged)
      fun e v => ReadFileThrows os path e ∧ w.Unchanged v := by
  have hfd := hw w.clock le_rfl
  refine (openForReading_effect path).bind fun fd => ?_
  cases fd with
  | none => exact Contract.raise fun v hv => ⟨.inl ⟨_, rfl⟩, hv.1 rfl⟩
  | some d =>
      refine Contract.assume (fun v hv => (hv.2 d rfl).1) fun hd => ?_
      subst hd
      refine Contract.op (fun v _ hv hok => ?_) fun v e hv herror => ?_
      all_goals have hclosed := (hv.2 _ rfl).2.close hfd
      · dsimp only at hok ⊢
        split at hok
        · exact hclosed
        · exact hclosed
        · split_ifs <;> exact hclosed
      · dsimp only at herror ⊢
        split at herror
        · exact ⟨.inl ⟨_, (Except.error.inj herror).symm⟩, hclosed⟩
        · next htellg => exact ⟨.inr ⟨(Except.error.inj herror).symm, _, htellg⟩, hclosed⟩
        · split_ifs at herror ⊢
          exact ⟨.inl ⟨_, (Except.error.inj herror).symm⟩, hclosed⟩

end Readers

end Aeslib
