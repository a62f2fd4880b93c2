import Aeslib.KeyPages

/-!
Core dumps of a process with keys on Linux: the `madvise` calls of `lock_memory` and `unlock_memory`
in `src/key.cpp`. A call has an effect only where the storage starts at a page boundary, and a
clearing call takes the mark from the whole page. So the marks cover the keys of a run whose objects
start at page boundaries, and not those of an ordinary variable.
-/

namespace Aeslib

namespace Layout

variable (l : Layout)

/-- The storage starts at a page boundary. -/
def Aligned (i : Nat) : Prop := l.address i % l.pageSize = 0

instance (i : Nat) : Decidable (l.Aligned i) := inferInstanceAs (Decidable (_ = _))

/-- `madvise(..., MADV_DONTDUMP)`, which is `EINVAL` for any other start. -/
def dontDump (i : Nat) (marked : Nat → Bool) : Nat → Bool :=
  if l.Aligned i then l.lock i marked else marked

/-- `madvise(..., MADV_DODUMP)`. -/
def doDump (i : Nat) (marked : Nat → Bool) : Nat → Bool :=
  if l.Aligned i then l.unlock i marked else marked

/-- A marking call leaves a mark on every page of the object: it has an effect, or they are all
marked already. -/
def Covered (i : Nat) (marked : Nat → Bool) : Prop := l.Aligned i ∨ ∀ p, l.Touches i p → marked p = true

variable {l} {marked : Nat → Bool} {held : Nat → Option Nat}

theorem dontDump_doDump (i : Nat) (marked : Nat → Bool) :
    l.dontDump i (l.doDump i marked) = l.dontDump i marked := by
  unfold dontDump doDump
  split_ifs
  · exact l.lock_unlock i marked
  · rfl

theorem covered_iff {i : Nat} :
    l.Covered i marked ↔ ∀ p, l.Touches i p → l.dontDump i marked p = true := by
  unfold Covered dontDump
  split_ifs with h
  · refine iff_of_true (Or.inl h) fun p hp => ?_
    simp [lock, hp]
  · exact or_iff_right h

/-- A marking call takes no mark away. -/
theorem dontDump_of_marked (i : Nat) {p : Nat} (h : marked p = true) : l.dontDump i marked p = true := by
  unfold dontDump
  split_ifs
  · simp [lock, h]
  · exact h

/-- A clearing call sets no mark. -/
theorem marked_of_doDump {i p : Nat} (h : l.doDump i marked p = true) : marked p = true := by
  unfold doDump at h
  split_ifs at h
  · exact (Bool.and_eq_true_iff.mp h).1
  · exact h

theorem PinnedBy.dontDump_iff (h : l.PinnedBy held marked) (i : Nat) (x : Option Nat) :
    l.PinnedBy (Function.update held i x) (l.dontDump i marked) ↔ (x ≠ none → l.Covered i marked) := by
  rw [covered_iff]
  constructor
  · intro hpinned hx
    exact hpinned i (by rwa [Function.update_self])
  · intro hcovered k hk p hp
    by_cases hki : k = i
    · subst hki
      rw [Function.update_self] at hk
      exact hcovered hk p hp
    · rw [Function.update_of_ne hki] at hk
      exact dontDump_of_marked i (h k hk p hp)

/-- A clearing call is harmless if it has no effect or no holder has bytes in the pages. -/
theorem PinnedBy.doDump_iff (h : l.PinnedBy held marked) (i : Nat) :
    l.PinnedBy held (l.doDump i marked) ↔ (l.Aligned i → ∀ k, held k ≠ none → ¬l.Shares i k) := by
  unfold doDump
  split_ifs with hi
  · rw [h.unlock_iff i]
    exact ⟨fun hall _ => hall, fun hall => hall hi⟩
  · exact iff_of_true h fun haligned => absurd haligned hi

end Layout

/-- The `madvise` calls of one operation, in the order of the source. -/
def KeyOp.applyMarks (l : Layout) (marked : Nat → Bool) : KeyOp → Nat → Bool
  | create i _ => l.dontDump i marked
  | abandon i _ => l.doDump i (l.dontDump i marked)
  | moveConstruct i j => l.doDump j (l.dontDump i marked)
  | moveAssign i j => if i = j then marked else l.doDump j (l.dontDump i (l.doDump i marked))
  | destroy i => l.doDump i marked
  | encrypt _ => marked

structure MarkedKeys where
  keys : Keys
  /-- The pages with a do-not-dump mark. -/
  marked : Nat → Bool

namespace MarkedKeys

def init : MarkedKeys := { keys := Keys.init, marked := fun _ => false }

def apply (l : Layout) (op : KeyOp) (s : MarkedKeys) : MarkedKeys where
  keys := op.apply s.keys
  marked := op.applyMarks l s.marked

def Step (l : Layout) (s t : MarkedKeys) : Prop :=
  ∃ op : KeyOp, op.Enabled s.keys ∧ op.HasRoom l s.keys ∧ t = s.apply l op

/-- Every page with bytes of an object that holds material carries the mark. -/
def Excluded (l : Layout) (s : MarkedKeys) : Prop := l.PinnedBy s.keys.held s.marked

/-- What both moves ask for: the target gets its marks, and clearing the pages of the source takes
none from the target or from another holder. -/
def CoversMove (l : Layout) (s : MarkedKeys) (i j : Nat) : Prop :=
  (s.keys.held j ≠ none → l.Covered i s.marked ∧ (l.Aligned j → ¬l.Shares j i)) ∧
    (l.Aligned j → ∀ k, k ≠ i → k ≠ j → s.keys.held k ≠ none → ¬l.Shares j k)

/-- The operation puts material only into an object whose pages get the mark or have it, and wipes
no object at a page boundary that has bytes in a page of an object which holds material afterwards.
-/
def Covers (l : Layout) (s : MarkedKeys) : KeyOp → Prop
  | .create i _ => l.Covered i s.marked
  | .encrypt _ => True
  | .abandon i _ | .destroy i => l.Aligned i → ∀ k, k ≠ i → s.keys.held k ≠ none → ¬l.Shares i k
  | .moveConstruct i j => s.CoversMove l i j
  | .moveAssign i j => i ≠ j → s.CoversMove l i j

section Step

variable {l : Layout} {s : MarkedKeys}

theorem excluded_move_iff (h : s.Excluded l) {i j : Nat} (hij : i ≠ j) :
    l.PinnedBy (Function.update (Function.update s.keys.held i (s.keys.held j)) j none)
      (l.doDump j (l.dontDump i s.marked)) ↔ s.CoversMove l i j := by
  have hclear (hcovered : s.keys.held j ≠ none → l.Covered i s.marked) :
      l.PinnedBy (Function.update (Function.update s.keys.held i (s.keys.held j)) j none)
        (l.doDump j (l.dontDump i s.marked)) ↔
      (l.Aligned j → (s.keys.held j ≠ none → ¬l.Shares j i) ∧
        ∀ k, k ≠ i → k ≠ j → s.keys.held k ≠ none → ¬l.Shares j k) := by
    have hmarked := ((Layout.PinnedBy.dontDump_iff h i (s.keys.held j)).mpr hcovered).clear j
    rw [hmarked.doDump_iff j, LockedKeys.forall_move_ne_none hij]
  constructor
  · intro hpinned
    have hcovered : s.keys.held j ≠ none → l.Covered i s.marked := by
      intro hj
      rw [Layout.covered_iff]
      intro p hp
      refine Layout.marked_of_doDump (hpinned i ?_ p hp)
      rwa [Function.update_of_ne hij, Function.update_self]
    have hapart := (hclear hcovered).mp hpinned
    exact ⟨fun hj => ⟨hcovered hj, fun haligned => (hapart haligned).1 hj⟩,
      fun haligned => (hapart haligned).2⟩
  · rintro ⟨htarget, hother⟩
    exact (hclear fun hj => (htarget hj).1).mpr fun haligned =>
      ⟨fun hj => (htarget hj).2 haligned, hother haligned⟩

/-- One operation keeps the marks on the pages of the holders if and only if it covers them. -/
theorem excluded_apply_iff (h : s.Excluded l) {op : KeyOp} (hop : op.Enabled s.keys) :
    (s.apply l op).Excluded l ↔ s.Covers l op := by
  cases op with
  | create i key =>
      exact (Layout.PinnedBy.dontDump_iff h i _).trans ⟨fun hcovered => hcovered (by simp),
        fun hcovered _ => hcovered⟩
  | abandon i key =>
      have hmarked := (Layout.PinnedBy.dontDump_iff h i none).mpr fun hne => absurd rfl hne
      exact (hmarked.doDump_iff i).trans (imp_congr_right fun _ => LockedKeys.forall_update_none)
  | destroy i =>
      exact ((Layout.PinnedBy.clear h i).doDump_iff i).trans
        (imp_congr_right fun _ => LockedKeys.forall_update_none)
  | encrypt i => exact iff_of_true h trivial
  | moveConstruct i j =>
      refine excluded_move_iff h ?_
      rintro rfl
      exact absurd (hop.1.symm.trans hop.2) (by decide)
  | moveAssign i j =>
      by_cases hij : i = j
      · have hself : s.apply l (.moveAssign i j) = s := by
          simp [apply, KeyOp.apply, KeyOp.applyObjects, KeyOp.applyHeld, KeyOp.applyMaterials,
            KeyOp.applyMarks, hij]
        rw [hself]
        exact iff_of_true h fun hne => absurd hij hne
      · have hmove := excluded_move_iff h hij
        simp only [Excluded, apply, KeyOp.apply, KeyOp.applyHeld, KeyOp.applyMarks, if_neg hij,
          Layout.dontDump_doDump, hmove]
        exact ⟨fun hcovers _ => hcovers, fun hcovers => hcovers hij⟩

end Step

/-- A step whose operation covers the keys. -/
def CoveringStep (l : Layout) (s t : MarkedKeys) : Prop :=
  ∃ op : KeyOp, op.Enabled s.keys ∧ op.HasRoom l s.keys ∧ s.Covers l op ∧ t = s.apply l op

theorem excluded_of_reaches {l : Layout} {s : MarkedKeys} (h : Reaches (CoveringStep l) init s) :
    s.Excluded l := by
  refine h.invariant (Excluded l) (fun k hk => absurd rfl hk) fun u v hu hstep => ?_
  obtain ⟨op, henabled, -, hcovers, rfl⟩ := hstep
  exact (excluded_apply_iff hu henabled).mpr hcovers

/-- **Live keys stay out of core dumps in every run of covering operations**, and the first
operation that does not cover leaves a page of one without its mark. -/
theorem excluded_iff_covers (l : Layout) :
    (∀ s, Reaches (CoveringStep l) init s → s.Excluded l) ∧
    ∀ (s : MarkedKeys) (op : KeyOp), s.Excluded l → op.Enabled s.keys →
      ((s.apply l op).Excluded l ↔ s.Covers l op) :=
  ⟨fun _ => excluded_of_reaches, fun _ _ h hop => excluded_apply_iff h hop⟩

theorem pages_lt {l : Layout} {i k p : Nat} (hk : l.Aligned k)
    (hbefore : l.address i + kKeySizeBytes ≤ l.address k) (hi : l.Touches i p)
    (hp : l.Touches k p) : False := by
  obtain ⟨b, rfl⟩ := hi
  obtain ⟨c, hc⟩ := hp
  obtain ⟨n, hn⟩ := Nat.dvd_of_mod_eq_zero hk
  have hb := b.isLt
  have hlt : (l.address i + b.val) / l.pageSize < n := by
    rw [Nat.div_lt_iff_lt_mul l.pageSize_pos, mul_comm, ← hn]
    omega
  have hle : n ≤ (l.address k + c.val) / l.pageSize := by
    rw [Nat.le_div_iff_mul_le l.pageSize_pos, mul_comm, ← hn]
    exact Nat.le_add_right _ _
  omega

/-- Objects at page boundaries that do not overlap have no page in common. -/
theorem not_shares_of_apart {l : Layout} {i k : Nat} (hi : l.Aligned i) (hk : l.Aligned k)
    (h : l.Apart i k) : ¬l.Shares i k := by
  rintro ⟨p, hip, hkp⟩
  rcases h with h | h
  · exact pages_lt hk h hip hkp
  · exact pages_lt hi h hkp hip

/-- The objects that are alive do not overlap. -/
def Disjoint (l : Layout) (objects : Nat → KeyObject) : Prop :=
  ∀ i k, i ≠ k → (objects i).alive = true → (objects k).alive = true → l.Apart i k

theorem Disjoint.update {l : Layout} {objects : Nat → KeyObject} (h : Disjoint l objects) {i : Nat}
    {o : KeyObject} (hi : o.alive = true → ∀ k, k ≠ i → (objects k).alive = true → l.Apart i k) :
    Disjoint l (Function.update objects i o) := by
  intro a b hab ha hb
  by_cases hai : a = i
  · subst hai
    rw [Function.update_self] at ha
    rw [Function.update_of_ne hab.symm] at hb
    exact hi ha b hab.symm hb
  · rw [Function.update_of_ne hai] at ha
    by_cases hbi : b = i
    · subst hbi
      rw [Function.update_self] at hb
      exact (hi hb a hab ha).symm
    · rw [Function.update_of_ne hbi] at hb
      exact h a b hab ha hb

section Aligned

variable {l : Layout} {s : MarkedKeys} {op : KeyOp}

theorem Disjoint.step (h : Disjoint l s.keys.objects) (henabled : op.Enabled s.keys)
    (hroom : op.HasRoom l s.keys) : Disjoint l (s.apply l op).keys.objects := by
  cases op with
  | create i key => exact h.update fun _ k _ hk => hroom k hk
  | abandon i key => exact h.update fun hdead => absurd hdead Bool.false_ne_true
  | destroy i => exact h.update fun hdead => absurd hdead Bool.false_ne_true
  | encrypt i => exact h.update fun _ k hki hk => h i k hki.symm henabled hk
  | moveConstruct i j =>
      refine (h.update fun _ k _ hk => hroom k hk).update fun _ k hkj hk => ?_
      by_cases hki : k = i
      · subst hki
        exact (hroom j henabled.2).symm
      · rw [Function.update_of_ne hki] at hk
        exact h j k hkj.symm henabled.2 hk
  | moveAssign i j =>
      by_cases hij : i = j
      · simpa only [apply, KeyOp.apply, KeyOp.applyObjects, if_pos hij] using h
      · simp only [apply, KeyOp.apply, KeyOp.applyObjects, if_neg hij]
        refine (h.update fun _ k hki hk => h i k hki.symm henabled.1 hk).update fun _ k hkj hk => ?_
        by_cases hki : k = i
        · subst hki
          exact h j k hkj.symm henabled.2 henabled.1
        · rw [Function.update_of_ne hki] at hk
          exact h j k hkj.symm henabled.2 hk

theorem covers_of_aligned (hinv : s.keys.Inv) (hdisjoint : Disjoint l s.keys.objects)
    (haligned : ∀ i, l.Aligned i) (henabled : op.Enabled s.keys) (hroom : op.HasRoom l s.keys) :
    s.Covers l op := by
  have halive {k : Nat} (hk : s.keys.held k ≠ none) : (s.keys.objects k).alive = true := by
    obtain ⟨m, hm⟩ := Option.ne_none_iff_exists'.mp hk
    exact (hm ▸ hinv.agrees k).1
  have hshares {i k : Nat} (hapart : l.Apart i k) : ¬l.Shares i k :=
    not_shares_of_apart (haligned i) (haligned k) hapart
  cases op with
  | create i key => exact Or.inl (haligned i)
  | encrypt i => trivial
  | abandon i key => exact fun _ k _ hk => hshares (hroom k (halive hk))
  | destroy i => exact fun _ k hki hk => hshares (hdisjoint i k hki.symm henabled (halive hk))
  | moveConstruct i j =>
      refine ⟨fun hj => ⟨Or.inl (haligned i), fun _ => hshares (hroom j (halive hj)).symm⟩,
        fun _ k _ hkj hk => ?_⟩
      exact hshares (hdisjoint j k hkj.symm henabled.2 (halive hk))
  | moveAssign i j =>
      refine fun hij => ⟨fun hj => ⟨Or.inl (haligned i), fun _ => ?_⟩, fun _ k _ hkj hk => ?_⟩
      · exact hshares (hdisjoint j i (Ne.symm hij) henabled.2 henabled.1)
      · exact hshares (hdisjoint j k hkj.symm henabled.2 (halive hk))

/-- Where every object starts at a page boundary, the marks cover the keys in every run. -/
theorem excluded_of_aligned (haligned : ∀ i, l.Aligned i) (h : Reaches (Step l) init s) :
    s.Excluded l := by
  have hall := h.invariant (fun s => s.Excluded l ∧ s.keys.Inv ∧ Disjoint l s.keys.objects)
    ⟨fun k hk => absurd rfl hk, Keys.reachable_inv .refl,
      fun i k _ hi => by simp [init, Keys.init] at hi⟩
    fun u v hu hstep => by
      obtain ⟨hexcluded, hinv, hdisjoint⟩ := hu
      obtain ⟨op, henabled, hroom, rfl⟩ := hstep
      exact ⟨(excluded_apply_iff hexcluded henabled).mpr
        (covers_of_aligned hinv hdisjoint haligned henabled hroom), hinv.step ⟨op, henabled, rfl⟩,
        hdisjoint.step henabled hroom⟩
  exact hall.1

end Aligned

/-- A key in an ordinary variable, 64 bytes into its page. -/
theorem not_excluded_neighbours :
    ¬∀ (l : Layout) (s : MarkedKeys), Reaches (Step l) init s → s.Excluded l := by
  intro hclaim
  obtain ⟨key, hkey, -⟩ := SecretKey.exists_obtained .aes256
  have hcreate : Step LockedKeys.neighbours init (init.apply LockedKeys.neighbours (.create 1 key)) :=
    ⟨.create 1 key, ⟨rfl, hkey⟩, fun k hk => by simp [init, Keys.init] at hk, rfl⟩
  have hmarked := hclaim LockedKeys.neighbours _ (Relation.ReflTransGen.single hcreate) 1 (by
    change Function.update (fun _ => none) 1 (some 0) 1 ≠ none
    simp) 0 ⟨0, by decide⟩
  have hunmarked : LockedKeys.neighbours.dontDump 1 (fun _ => false) 0 = false := by decide
  exact absurd (hmarked.symm.trans hunmarked) (by decide)

end MarkedKeys

end Aeslib
