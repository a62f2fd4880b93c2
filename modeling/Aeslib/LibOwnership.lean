import Mathlib

/-!
Resources with at most one owner. `Exclusive` says that no resource has two; handing a new resource
out, passing one on and giving one up keep it. The tickets of a machine counter are such resources
until it wraps. A `Ledger` is about resources that are numbered as they are handed out. `Reaches` is
a run of a step relation, with the rule that carries an invariant along it.
-/

/-- `t` comes from `s` by any number of steps. -/
def Reaches {σ : Type} (step : σ → σ → Prop) (s t : σ) : Prop := Relation.ReflTransGen step s t

theorem Reaches.invariant {σ : Type} {step : σ → σ → Prop} {s t : σ} (inv : σ → Prop) (hinit : inv s)
    (hstep : ∀ u v, inv u → step u v → inv v) (h : Reaches step s t) : inv t := by
  induction h with
  | refl => exact hinit
  | tail _ hlast ih => exact hstep _ _ ih hlast

variable {α β : Type}

/-- No resource is held in two places. -/
def Exclusive (held : α → Option β) : Prop := ∀ ⦃a a' b⦄, held a = some b → held a' = some b → a = a'

namespace Exclusive

theorem none : Exclusive fun _ : α => (Option.none : Option β) := fun _ _ _ h => by simp at h

variable [DecidableEq α] {held : α → Option β}

/-- Giving up what `a` holds. -/
theorem clear (h : Exclusive held) (a : α) : Exclusive (Function.update held a Option.none) := by
  intro x y b hx hy
  by_cases hxa : x = a
  · subst hxa
    simp at hx
  by_cases hya : y = a
  · subst hya
    simp at hy
  rw [Function.update_of_ne hxa] at hx
  rw [Function.update_of_ne hya] at hy
  exact h hx hy

/-- A resource that nobody holds goes to `a`. -/
theorem give (h : Exclusive held) (a : α) {b : β} (hb : ∀ x, held x ≠ some b) :
    Exclusive (Function.update held a (some b)) := by
  intro x y c hx hy
  by_cases hxa : x = a
  · by_cases hya : y = a
    · rw [hxa, hya]
    · subst hxa
      rw [Function.update_self] at hx
      rw [Function.update_of_ne hya] at hy
      exact absurd (hx ▸ hy) (hb y)
  · rw [Function.update_of_ne hxa] at hx
    by_cases hya : y = a
    · subst hya
      rw [Function.update_self] at hy
      exact absurd (hy ▸ hx) (hb x)
    · rw [Function.update_of_ne hya] at hy
      exact h hx hy

/-- What `b` holds passes to `a`. -/
theorem pass (h : Exclusive held) {a b : α} (hab : a ≠ b) :
    Exclusive (Function.update (Function.update held a (held b)) b Option.none) := by
  rw [Function.update_comm hab]
  cases hb : held b with
  | none => exact (h.clear b).clear a
  | some c =>
      refine (h.clear b).give a fun x hx => ?_
      by_cases hxb : x = b
      · subst hxb
        simp at hx
      · rw [Function.update_of_ne hxb] at hx
        exact hxb (h hx hb)

end Exclusive

/-- The values that a counter of `w` bits hands out in its first `k` steps. -/
def tickets (w k : Nat) : List (BitVec w) := (List.range k).map (BitVec.ofNat w)

theorem tickets_succ (w k : Nat) : tickets w (k + 1) = tickets w k ++ [BitVec.ofNat w k] := by
  rw [tickets, List.range_succ, List.map_append]
  rfl

@[simp] theorem length_tickets (w k : Nat) : (tickets w k).length = k := by simp [tickets]

/-- No value is handed out twice before the counter wraps. -/
theorem nodup_tickets {w k : Nat} (hk : k ≤ 2 ^ w) : (tickets w k).Nodup := by
  refine List.Nodup.map_on (fun a ha b hb hab => ?_) List.nodup_range
  have ha := List.mem_range.mp ha
  have hb := List.mem_range.mp hb
  have hvalue := congrArg BitVec.toNat hab
  rwa [BitVec.toNat_ofNat, BitVec.toNat_ofNat, Nat.mod_eq_of_lt (by omega),
    Nat.mod_eq_of_lt (by omega)] at hvalue

/-- Different tickets below `n` are at most `n`. -/
theorem length_le_of_nodup {w n : Nat} {l : List (BitVec w)} (hnodup : l.Nodup)
    (hlt : ∀ x ∈ l, x.toNat < n) : l.length ≤ n := by
  have hvalues : (l.map BitVec.toNat).Nodup := hnodup.map fun _ _ => BitVec.eq_of_toNat_eq
  have hsubset : (l.map BitVec.toNat).toFinset ⊆ Finset.range n := by
    intro x hx
    obtain ⟨y, hy, rfl⟩ := List.mem_map.mp (List.mem_toFinset.mp hx)
    exact Finset.mem_range.mpr (hlt y hy)
  have hcard := Finset.card_le_card hsubset
  rwa [List.toFinset_card_of_nodup hvalues, Finset.card_range, List.length_map] at hcard

/-- Of the first `n` resources, those that have not been freed have one owner each. -/
structure Ledger (n : Nat) (owned freed : List Nat) : Prop where
  nodup : owned.Nodup
  mem_iff : ∀ k, k ∈ owned ↔ k < n ∧ k ∉ freed
  freed_lt : ∀ k ∈ freed, k < n

namespace Ledger

variable {n : Nat} {owned freed : List Nat}

theorem empty : Ledger 0 [] [] where
  nodup := List.nodup_nil
  mem_iff k := by simp
  freed_lt k hk := absurd hk List.not_mem_nil

theorem hand (h : Ledger n owned freed) : Ledger (n + 1) (n :: owned) freed where
  nodup := List.nodup_cons.mpr ⟨fun hn => absurd ((h.mem_iff n).mp hn).1 (lt_irrefl n), h.nodup⟩
  mem_iff k := by
    rw [List.mem_cons, h.mem_iff]
    constructor
    · rintro (rfl | ⟨hlt, hk⟩)
      · exact ⟨Nat.lt_succ_self k, fun hk => absurd (h.freed_lt k hk) (lt_irrefl k)⟩
      · exact ⟨Nat.lt_succ_of_lt hlt, hk⟩
    · rintro ⟨hlt, hk⟩
      rcases Nat.lt_succ_iff_lt_or_eq.mp hlt with hlt | rfl
      · exact .inr ⟨hlt, hk⟩
      · exact .inl rfl
  freed_lt k hk := Nat.lt_succ_of_lt (h.freed_lt k hk)

theorem free (h : Ledger n owned freed) {a : Nat} (ha : a ∈ owned) :
    Ledger n (owned.erase a) (a :: freed) where
  nodup := h.nodup.erase a
  mem_iff k := by
    rw [h.nodup.mem_erase_iff, h.mem_iff, List.mem_cons, not_or]
    constructor
    · exact fun ⟨hne, hlt, hk⟩ => ⟨hlt, hne, hk⟩
    · exact fun ⟨hlt, hne, hk⟩ => ⟨hne, hlt, hk⟩
  freed_lt k hk := by
    rcases List.mem_cons.mp hk with rfl | hk
    · exact ((h.mem_iff k).mp ha).1
    · exact h.freed_lt k hk

end Ledger
