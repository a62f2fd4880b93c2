import Aeslib.KeyObjects

/-!
Page locking of key objects: `lock_memory` and `unlock_memory` of `src/key.cpp`, on a platform whose
calls all succeed. A lock works on whole pages and does not count, so `wipe` unlocks the pages of
every other key in them. The objects are those of the caller and those that the functions of the
library construct for themselves.
-/

namespace Aeslib

/-- Where the storage of the objects lies. -/
structure Layout where
  pageSize : Nat
  address : Nat → Nat
  pageSize_pos : 0 < pageSize

namespace Layout

variable (l : Layout)

/-- The page holds one of the 32 bytes of the object. -/
def Touches (i p : Nat) : Prop := ∃ b : Fin kKeySizeBytes, (l.address i + b.val) / l.pageSize = p

instance (i p : Nat) : Decidable (l.Touches i p) :=
  inferInstanceAs (Decidable (∃ b : Fin kKeySizeBytes, (l.address i + b.val) / l.pageSize = p))

/-- Two objects do not overlap. -/
def Apart (i k : Nat) : Prop :=
  l.address i + kKeySizeBytes ≤ l.address k ∨ l.address k + kKeySizeBytes ≤ l.address i

/-- Two objects have bytes in one page. -/
def Shares (i k : Nat) : Prop := ∃ p, l.Touches i p ∧ l.Touches k p

/-- `mlock`. -/
def lock (i : Nat) (locked : Nat → Bool) : Nat → Bool := fun p => locked p || decide (l.Touches i p)

/-- `munlock`. -/
def unlock (i : Nat) (locked : Nat → Bool) : Nat → Bool := fun p => locked p && !decide (l.Touches i p)

/-- Every page with bytes of an object that holds something is locked. -/
def PinnedBy {α : Type} (held : Nat → Option α) (locked : Nat → Bool) : Prop :=
  ∀ k, held k ≠ none → ∀ p, l.Touches k p → locked p = true

/-- A lock that comes after an unlock of the same object undoes it. -/
theorem lock_unlock (i : Nat) (locked : Nat → Bool) :
    l.lock i (l.unlock i locked) = l.lock i locked := by
  funext p
  by_cases hp : l.Touches i p <;> simp [lock, unlock, hp]

variable {l} {α : Type} {held : Nat → Option α} {locked : Nat → Bool}

theorem PinnedBy.lock (h : l.PinnedBy held locked) (i : Nat) (x : Option α) :
    l.PinnedBy (Function.update held i x) (l.lock i locked) := by
  intro k hk p hp
  by_cases hki : k = i
  · subst hki
    simp [Layout.lock, hp]
  · rw [Function.update_of_ne hki] at hk
    simp [Layout.lock, h k hk p hp]

/-- A lock of another object. -/
theorem PinnedBy.lock_other (h : l.PinnedBy held locked) (i : Nat) :
    l.PinnedBy held (l.lock i locked) := by
  have hlock := h.lock i (held i)
  rwa [Function.update_eq_self] at hlock

theorem PinnedBy.clear (h : l.PinnedBy held locked) (i : Nat) :
    l.PinnedBy (Function.update held i none) locked := by
  intro k hk p hp
  by_cases hki : k = i
  · subst hki
    simp at hk
  · rw [Function.update_of_ne hki] at hk
    exact h k hk p hp

/-- An unlock is harmless if and only if no holder has bytes in the pages. -/
theorem PinnedBy.unlock_iff (h : l.PinnedBy held locked) (i : Nat) :
    l.PinnedBy held (l.unlock i locked) ↔ ∀ k, held k ≠ none → ¬l.Shares i k := by
  constructor
  · rintro hpinned k hk ⟨p, hi, hp⟩
    have hlocked := hpinned k hk p hp
    simp [unlock, hi] at hlocked
  · intro hapart k hk p hp
    have hi : ¬l.Touches i p := fun hi => hapart k hk ⟨p, hi, hp⟩
    simp [unlock, hi, h k hk p hp]

end Layout

/-- `mlock` and `munlock` of one operation on the objects of the caller, in the order of the source. -/
def KeyOp.applyLocks (l : Layout) (locked : Nat → Bool) : KeyOp → Nat → Bool
  | create i _ => l.lock i locked
  | abandon i _ => l.unlock i (l.lock i locked)
  | moveConstruct i j => l.unlock j (l.lock i locked)
  | moveAssign i j => if i = j then locked else l.unlock j (l.lock i (l.unlock i locked))
  | destroy i => l.unlock i locked
  | encrypt _ => locked

/-- A new object does not overlap an object that is alive. -/
def KeyOp.HasRoom (l : Layout) (s : Keys) : KeyOp → Prop
  | create i _ | abandon i _ | moveConstruct i _ => ∀ k, (s.objects k).alive = true → l.Apart i k
  | _ => True

/-- The object that the operation constructs. -/
def KeyOp.newObject : KeyOp → Option Nat
  | create i _ | abandon i _ | moveConstruct i _ => some i
  | _ => none

/-- The key objects inside the library: `wrap_key` of the key-wrapping code, and the two of
`hw_backend_passes_self_test`. -/
inductive LocalKey where
  | wrapKey
  | key128
  | key256

/-- An operation on an object of the caller, or a function of the library on its way constructs or
destroys one of its own. -/
inductive LockOp where
  | key (op : KeyOp)
  | construct (i : Nat) (k : LocalKey)
  | destruct (i : Nat)

structure LockedKeys where
  keys : Keys
  /-- The keys inside the library, by the numbers of their objects. -/
  locals : Nat → Option LocalKey
  /-- The locked pages. -/
  locked : Nat → Bool

namespace LockOp

def Enabled (s : LockedKeys) : LockOp → Prop
  | key op => op.Enabled s.keys
  | construct i _ => (s.keys.objects i).alive = false ∧ s.locals i = none
  | destruct i => s.locals i ≠ none

/-- A new object does not overlap one that is alive. -/
def HasRoom (l : Layout) (s : LockedKeys) : LockOp → Prop
  | key op => op.HasRoom l s.keys ∧ ∀ i ∈ op.newObject, ∀ k, s.locals k ≠ none → l.Apart i k
  | construct i _ => ∀ k, (s.keys.objects k).alive = true ∨ s.locals k ≠ none → l.Apart i k
  | destruct _ => True

def applyLocals (locals : Nat → Option LocalKey) : LockOp → Nat → Option LocalKey
  | key _ => locals
  | construct i k => Function.update locals i (some k)
  | destruct i => Function.update locals i none

def applyLocks (l : Layout) (locked : Nat → Bool) : LockOp → Nat → Bool
  | key op => op.applyLocks l locked
  | construct i _ => l.lock i locked
  | destruct i => l.unlock i locked

end LockOp

namespace LockedKeys

def init : LockedKeys := { keys := Keys.init, locals := fun _ => none, locked := fun _ => false }

def apply (l : Layout) (op : LockOp) (s : LockedKeys) : LockedKeys where
  keys :=
    match op with
    | .key op => op.apply s.keys
    | _ => s.keys
  locals := op.applyLocals s.locals
  locked := op.applyLocks l s.locked

def Step (l : Layout) (s t : LockedKeys) : Prop :=
  ∃ op : LockOp, op.Enabled s ∧ op.HasRoom l s ∧ t = s.apply l op

/-- Every page with bytes of an object that holds material, or of a key inside the library, is locked. -/
def Pinned (l : Layout) (s : LockedKeys) : Prop :=
  l.PinnedBy s.keys.held s.locked ∧ l.PinnedBy s.locals s.locked

/-- What both moves ask for: the source has no bytes in a page of the target, of another holder or
of a key inside the library. -/
def SparesMove (l : Layout) (s : LockedKeys) (i j : Nat) : Prop :=
  (s.keys.held j ≠ none → ¬l.Shares j i) ∧ (∀ k, k ≠ i → k ≠ j → s.keys.held k ≠ none → ¬l.Shares j k) ∧
    ∀ k, s.locals k ≠ none → ¬l.Shares j k

/-- The operation wipes no object that has bytes in a page of an object which holds a key
afterwards. A move assignment locks its target again. -/
def Harmless (l : Layout) (s : LockedKeys) : LockOp → Prop
  | .key (.create _ _) | .key (.encrypt _) | .construct _ _ => True
  | .key (.abandon i _) | .key (.destroy i) =>
    (∀ k, k ≠ i → s.keys.held k ≠ none → ¬l.Shares i k) ∧ ∀ k, s.locals k ≠ none → ¬l.Shares i k
  | .key (.moveConstruct i j) => s.SparesMove l i j
  | .key (.moveAssign i j) => i ≠ j → s.SparesMove l i j
  | .destruct i =>
      (∀ k, s.keys.held k ≠ none → ¬l.Shares i k) ∧ ∀ k, k ≠ i → s.locals k ≠ none → ¬l.Shares i k

section Step

variable {l : Layout} {s : LockedKeys}

theorem forall_update_none {α : Type} {held : Nat → Option α} {i : Nat} {φ : Nat → Prop} :
    (∀ k, Function.update held i none k ≠ none → φ k) ↔ ∀ k, k ≠ i → held k ≠ none → φ k := by
  constructor
  · intro h k hk
    have hφ := h k
    rwa [Function.update_of_ne hk] at hφ
  · intro h k hk
    by_cases hki : k = i
    · subst hki
      simp at hk
    · rw [Function.update_of_ne hki] at hk
      exact h k hki hk

theorem forall_update_some {α : Type} {held : Nat → Option α} {i : Nat} {x : α} {φ : Nat → Prop} :
    (∀ k, Function.update held i (some x) k ≠ none → φ k) ↔ φ i ∧ ∀ k, k ≠ i → held k ≠ none → φ k := by
  constructor
  · intro h
    refine ⟨h i (by simp), fun k hk hheld => h k ?_⟩
    rwa [Function.update_of_ne hk]
  · rintro ⟨hi, hother⟩ k hk
    by_cases hki : k = i
    · rwa [hki]
    · rw [Function.update_of_ne hki] at hk
      exact hother k hki hk

/-- The holders after a move. -/
theorem forall_move_ne_none {held : Nat → Option Nat} {i j : Nat} (hij : i ≠ j) {φ : Nat → Prop} :
    (∀ k, Function.update (Function.update held i (held j)) j none k ≠ none → φ k) ↔
      (held j ≠ none → φ i) ∧ ∀ k, k ≠ i → k ≠ j → held k ≠ none → φ k := by
  rw [forall_update_none]
  constructor
  · intro hall
    refine ⟨fun hj => hall i hij (by rwa [Function.update_self]), fun k hki hkj hk => hall k hkj ?_⟩
    rwa [Function.update_of_ne hki]
  · rintro ⟨hi, hother⟩ k hkj hk
    by_cases hki : k = i
    · subst hki
      rw [Function.update_self] at hk
      exact hi hk
    · rw [Function.update_of_ne hki] at hk
      exact hother k hki hkj hk

/-- What both moves do to the pages. -/
theorem pinned_move_iff (h : s.Pinned l) {i j : Nat} (hij : i ≠ j) :
    l.PinnedBy (Function.update (Function.update s.keys.held i (s.keys.held j)) j none)
        (l.unlock j (l.lock i s.locked)) ∧ l.PinnedBy s.locals (l.unlock j (l.lock i s.locked)) ↔
        s.SparesMove l i j := by
  rw [((Layout.PinnedBy.lock h.1 i (s.keys.held j)).clear j).unlock_iff j,
    (h.2.lock_other i).unlock_iff j, forall_move_ne_none hij, and_assoc]
  rfl

/-- One operation keeps the pages of the keys locked if and only if it is harmless. -/
theorem pinned_apply_iff (h : s.Pinned l) {op : LockOp} (hop : op.Enabled s) :
    (s.apply l op).Pinned l ↔ s.Harmless l op := by
  cases op with
  | construct i k => exact iff_of_true ⟨h.1.lock_other i, h.2.lock i _⟩ trivial
  | destruct i =>
      exact and_congr (h.1.unlock_iff i) (((h.2.clear i).unlock_iff i).trans forall_update_none)
  | key op =>
      cases op with
      | create i key => exact iff_of_true ⟨h.1.lock i _, h.2.lock_other i⟩ trivial
      | abandon i key =>
          exact and_congr (((h.1.lock i none).unlock_iff i).trans forall_update_none)
            ((h.2.lock_other i).unlock_iff i)
      | destroy i =>
          exact and_congr (((h.1.clear i).unlock_iff i).trans forall_update_none)
            (h.2.unlock_iff i)
      | encrypt i => exact iff_of_true h trivial
      | moveConstruct i j =>
          refine pinned_move_iff h ?_
          rintro rfl
          exact absurd (hop.1.symm.trans hop.2) (by decide)
      | moveAssign i j =>
          by_cases hij : i = j
          · have hself : s.apply l (.key (.moveAssign i j)) = s := by
              simp [apply, KeyOp.apply, KeyOp.applyObjects, KeyOp.applyHeld, KeyOp.applyMaterials,
                KeyOp.applyLocks, LockOp.applyLocals, LockOp.applyLocks, hij]
            rw [hself]
            exact iff_of_true h fun hne => absurd hij hne
          · have hmove := pinned_move_iff h hij
            simp only [Pinned, apply, KeyOp.apply, KeyOp.applyHeld, KeyOp.applyLocks, LockOp.applyLocals,
              LockOp.applyLocks, if_neg hij, Layout.lock_unlock, hmove]
            exact ⟨fun hharmless _ => hharmless, fun hharmless => hharmless hij⟩

end Step

/-- A step whose operation is harmless. -/
def HarmlessStep (l : Layout) (s t : LockedKeys) : Prop :=
  ∃ op : LockOp, op.Enabled s ∧ op.HasRoom l s ∧ s.Harmless l op ∧ t = s.apply l op

theorem pinned_of_reaches {l : Layout} {s : LockedKeys} (h : Reaches (HarmlessStep l) init s) :
    s.Pinned l := by
  refine h.invariant (Pinned l) ⟨fun k hk => absurd rfl hk, fun k hk => absurd rfl hk⟩
    fun u v hu hstep => ?_
  obtain ⟨op, henabled, -, hharmless, rfl⟩ := hstep
  exact (pinned_apply_iff hu henabled).mpr hharmless

section Sequences

variable (l : Layout)

def AllEnabled : List LockOp → LockedKeys → Prop
  | [], _ => True
  | op :: ops, s => op.Enabled s ∧ AllEnabled ops (s.apply l op)

def AllHarmless : List LockOp → LockedKeys → Prop
  | [], _ => True
  | op :: ops, s => s.Harmless l op ∧ AllHarmless ops (s.apply l op)

/-- The keys are locked before, between and after the operations. -/
def PinnedThroughout : List LockOp → LockedKeys → Prop
  | [], s => s.Pinned l
  | op :: ops, s => s.Pinned l ∧ PinnedThroughout ops (s.apply l op)

variable {l} {s : LockedKeys}

theorem PinnedThroughout.first {ops : List LockOp} (h : PinnedThroughout l ops s) : s.Pinned l := by
  cases ops with
  | nil => exact h
  | cons op ops => exact h.1

theorem pinnedThroughout_iff (h : s.Pinned l) {ops : List LockOp} (hops : AllEnabled l ops s) :
    PinnedThroughout l ops s ↔ AllHarmless l ops s := by
  induction ops generalizing s with
  | nil => exact iff_of_true h trivial
  | cons op ops ih =>
      have hstep := pinned_apply_iff h hops.1
      constructor
      · rintro ⟨-, hrest⟩
        exact ⟨hstep.mp hrest.first, (ih hrest.first hops.2).mp hrest⟩
      · rintro ⟨hharmless, hrest⟩
        have hpinned := hstep.mpr hharmless
        exact ⟨h, (ih hpinned hops.2).mpr hrest⟩

end Sequences

/-- **Live keys stay locked in every run of harmless operations**, and the first operation that is
not harmless leaves one unlocked. A sequence of operations keeps them locked throughout if and only
if each is harmless. -/
theorem pinned_iff_harmless (l : Layout) :
    (∀ s, Reaches (HarmlessStep l) init s → s.Pinned l) ∧
    (∀ (s : LockedKeys) (op : LockOp), s.Pinned l → op.Enabled s →
      ((s.apply l op).Pinned l ↔ s.Harmless l op)) ∧
    ∀ (s : LockedKeys) (ops : List LockOp), s.Pinned l → AllEnabled l ops s →
      (PinnedThroughout l ops s ↔ AllHarmless l ops s) :=
  ⟨fun _ => pinned_of_reaches, fun _ _ h hop => pinned_apply_iff h hop,
    fun _ _ h hops => pinnedThroughout_iff h hops⟩

/-- The self-test of the first `active_backend`, by the objects of its keys. -/
inductive SelfTest where
  | notRun
  | failsFirst (i : Nat)
  | runs (i j : Nat)

def SelfTest.ops : SelfTest → List LockOp
  | notRun => []
  | failsFirst i => [.construct i .key128, .destruct i]
  | runs i j => [.construct i .key128, .construct j .key256, .destruct j, .destruct i]

def saveToFileEncryptedOps (w : Nat) (test : SelfTest) : List LockOp :=
  .construct w .wrapKey :: test.ops ++ [.destruct w]

/-- `load_from_file_encrypted` into the object `i`: `wrap_key` is destroyed after the result has
been locked. -/
def loadFromFileEncryptedOps (i : Nat) (key : SecretKey) (w : Nat) (test : SelfTest) : List LockOp :=
  .construct w .wrapKey :: test.ops ++ [.key (.create i key), .destruct w]

section Calls

variable {l : Layout} {s : LockedKeys}

theorem forall_local_iff {i : Nat} {k : LocalKey} {φ : Nat → Prop} :
    (∀ n, n ≠ i → (s.apply l (.construct i k)).locals n ≠ none → φ n) ↔
    ∀ n, n ≠ i → s.locals n ≠ none → φ n := by
  refine forall₂_congr fun n hn => ?_
  change (Function.update s.locals i (some k) n ≠ none → φ n) ↔ _
  rw [Function.update_of_ne hn]

/-- A save is harmless if and only if its `wrap_key` has no bytes in a page of another key. -/
theorem allHarmless_save_iff {w : Nat} : AllHarmless l (saveToFileEncryptedOps w .notRun) s ↔
    (∀ k, s.keys.held k ≠ none → ¬l.Shares w k) ∧ ∀ k, k ≠ w → s.locals k ≠ none → ¬l.Shares w k := by
  rw [← forall_local_iff (l := l) (s := s) (k := .wrapKey)]
  exact ⟨fun h => h.2.1, fun h => ⟨trivial, h, trivial⟩⟩

/-- A load also asks that it has none in a page of the result. -/
theorem allHarmless_load_iff {i w : Nat} {key : SecretKey} :
    AllHarmless l (loadFromFileEncryptedOps i key w .notRun) s ↔
      (¬l.Shares w i ∧ ∀ k, k ≠ i → s.keys.held k ≠ none → ¬l.Shares w k) ∧
        ∀ k, k ≠ w → s.locals k ≠ none → ¬l.Shares w k := by
  have hheld : (∀ k, Function.update s.keys.held i (some s.keys.materials.length) k ≠ none →
      ¬l.Shares w k) ↔
      ¬l.Shares w i ∧ ∀ k, k ≠ i → s.keys.held k ≠ none → ¬l.Shares w k := forall_update_some
  rw [← forall_local_iff (l := l) (s := s) (k := .wrapKey), ← hheld]
  exact ⟨fun h => h.2.2.1, fun h => ⟨trivial, trivial, h, trivial⟩⟩

end Calls

/-- Two objects in one page, as neighbouring variables are. -/
def neighbours : Layout where
  pageSize := 4096
  address i := 64 * i
  pageSize_pos := by decide

/-- A key that is moved to its neighbour loses its lock. -/
theorem not_pinned_neighbours :
    ¬∀ (l : Layout) (s : LockedKeys), Reaches (Step l) init s → s.Pinned l := by
  intro hclaim
  obtain ⟨key, hkey, -⟩ := SecretKey.exists_obtained .aes256
  set s := init.apply neighbours (.key (.create 0 key)) with hs
  set t := s.apply neighbours (.key (.moveConstruct 1 0)) with ht
  have hcreate : Step neighbours init s :=
    ⟨.key (.create 0 key), ⟨rfl, hkey⟩,
      ⟨fun k hk => by simp [init, Keys.init] at hk, fun _ _ _ hk => absurd rfl hk⟩, hs⟩
  have hroom : KeyOp.HasRoom neighbours s.keys (.moveConstruct 1 0) := by
    intro k hk
    obtain rfl : k = 0 := by
      by_contra hne
      simp [hs, apply, KeyOp.apply, KeyOp.applyObjects, init, Keys.init, hne] at hk
    exact .inr (by decide)
  have hmove : Step neighbours s t :=
    ⟨.key (.moveConstruct 1 0), ⟨rfl, rfl⟩, ⟨hroom, fun _ _ _ hk => absurd rfl hk⟩, ht⟩
  have hreach : Reaches (Step neighbours) init t := (Relation.ReflTransGen.single hcreate).tail hmove
  have hheld : t.keys.held 1 = some 0 := rfl
  have hlocked := (hclaim neighbours t hreach).1 1 (by rw [hheld]; decide) 0 ⟨0, by decide⟩
  have hunlocked : neighbours.unlock 0 (neighbours.lock 1 (neighbours.lock 0 fun _ => false)) 0 =
      false := by decide
  exact absurd (hlocked.symm.trans hunlocked) (by decide)

end LockedKeys

end Aeslib
