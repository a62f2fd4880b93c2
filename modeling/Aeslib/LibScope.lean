import Aeslib.LibProgParts

/-!
Local buffers of a function: what each holds while it is alive, and what it held when it was
released. A guarded buffer is wiped on every way out of its scope, by a return or by an exception.
`Safe` says that all released buffers were zero, and that some that are still alive are zero
already; `Wipes` is its weakest precondition over every way out, with one rule for each kind of
step.
-/

/-- The buffers of a function, by their names. -/
structure Scope (ι β : Type) where
  live : ι → Option (List β)
  /-- What was in each buffer when it was released. -/
  released : List (ι × List β)

namespace Scope

variable {ι β : Type} [DecidableEq ι] [Zero β]

def empty : Scope ι β := { live := fun _ => none, released := [] }

def store (s : Scope ι β) (i : ι) (data : List β) : Scope ι β :=
  { s with live := Function.update s.live i (some data) }

/-- Zeros over the whole buffer. -/
def wipe (s : Scope ι β) (i : ι) : Scope ι β :=
  { s with live := Function.update s.live i ((s.live i).map fun data => List.replicate data.length 0) }

/-- The end of the buffer. -/
def release (s : Scope ι β) (i : ι) : Scope ι β where
  live := Function.update s.live i none
  released := s.released ++ (s.live i).toList.map (i, ·)

/-- What the end of its scope does to a buffer. -/
def leave (i : ι) (guarded : Bool) (s : Scope ι β) : Scope ι β :=
  (if guarded then s.wipe i else s).release i

/-- Every released buffer was all zero. -/
def Zeroed (s : Scope ι β) : Prop := ∀ x ∈ s.released, ∀ b ∈ x.2, b = 0

/-- The buffer, if it is alive, is all zero. -/
def Clean (s : Scope ι β) (i : ι) : Prop := ∀ data ∈ s.live i, ∀ b ∈ data, b = 0

/-- Every released buffer was all zero, and the buffers of `J` are now. -/
def Safe (J : Set ι) (s : Scope ι β) : Prop := s.Zeroed ∧ ∀ j ∈ J, s.Clean j

/-- Only buffers of `J` are alive. -/
def Within (J : Set ι) (s : Scope ι β) : Prop := ∀ j ∉ J, s.live j = none

variable {s t : Scope ι β} {i : ι} {J : Set ι}

omit [DecidableEq ι] in
theorem safe_empty (s : Scope ι β) : s.Safe ∅ ↔ s.Zeroed := by
  rw [Safe, Set.forall_mem_empty, and_true]

omit [DecidableEq ι] in
theorem safe_insert : s.Safe (insert i J) ↔ s.Safe J ∧ s.Clean i := by
  rw [Safe, Safe, Set.forall_mem_insert, and_comm (a := s.Clean i), and_assoc]

omit [DecidableEq ι] in
/-- `Safe` depends on the released buffers and on the live ones of `J`. -/
theorem safe_congr (hzeroed : t.Zeroed ↔ s.Zeroed) (hlive : ∀ j ∈ J, t.live j = s.live j) :
    t.Safe J ↔ s.Safe J := by
  refine and_congr hzeroed (forall₂_congr fun j hj => ?_)
  rw [Clean, Clean, hlive j hj]

section Operations

variable {j : ι} (hji : j ≠ i)

include hji

omit [Zero β] in
theorem live_store_of_ne (data : List β) : (s.store i data).live j = s.live j :=
  Function.update_of_ne hji _ _

theorem live_wipe_of_ne : (s.wipe i).live j = s.live j := Function.update_of_ne hji _ _

omit [Zero β] in
theorem live_release_of_ne : (s.release i).live j = s.live j := Function.update_of_ne hji _ _

end Operations

theorem safe_store (hi : i ∉ J) (data : List β) : (s.store i data).Safe J ↔ s.Safe J :=
  safe_congr Iff.rfl fun _ hj => live_store_of_ne (ne_of_mem_of_not_mem hj hi) data

theorem clean_store {data : List β} : (s.store i data).Clean i ↔ ∀ b ∈ data, b = 0 := by
  simp only [Clean, store, Function.update_self, Option.mem_some_iff, forall_eq']

theorem clean_wipe (s : Scope ι β) (i : ι) : (s.wipe i).Clean i := by
  intro data hdata b hb
  simp only [wipe, Function.update_self, Option.mem_def] at hdata
  obtain ⟨old, -, rfl⟩ := Option.map_eq_some_iff.mp hdata
  exact List.eq_of_mem_replicate hb

theorem safe_wipe (hi : i ∉ J) : (s.wipe i).Safe (insert i J) ↔ s.Safe J := by
  rw [safe_insert, and_iff_left (clean_wipe s i)]
  exact safe_congr Iff.rfl fun _ hj => live_wipe_of_ne (ne_of_mem_of_not_mem hj hi)

theorem Safe.wipe (h : s.Safe J) (i : ι) : (s.wipe i).Safe J := by
  refine ⟨h.1, fun j hj => ?_⟩
  by_cases hji : j = i
  · rw [hji]
    exact clean_wipe s i
  · rw [Clean, live_wipe_of_ne hji]
    exact h.2 j hj

theorem zeroed_release : (s.release i).Zeroed ↔ s.Zeroed ∧ s.Clean i := by
  rw [Zeroed, release, List.forall_mem_append]
  refine and_congr_right fun _ => ?_
  simp only [List.forall_mem_map, Option.mem_toList, Clean, Option.mem_def]

theorem safe_release (hi : i ∉ J) : (s.release i).Safe J ↔ s.Safe (insert i J) := by
  rw [safe_insert, Safe, Safe, zeroed_release, and_right_comm]
  refine and_congr_left fun _ => and_congr_right fun _ => forall₂_congr fun j hj => ?_
  rw [Clean, Clean, live_release_of_ne (ne_of_mem_of_not_mem hj hi)]

/-- A guard makes up for what the body leaves in its buffer. -/
theorem safe_leave_guarded (hi : i ∉ J) : (leave i true s).Safe J ↔ s.Safe J := by
  rw [leave, if_pos rfl, safe_release hi, safe_wipe hi]

theorem safe_leave_bare (hi : i ∉ J) : (leave i false s).Safe J ↔ s.Safe (insert i J) := by
  rw [leave, if_neg Bool.false_ne_true, safe_release hi]

omit [Zero β] in
theorem Within.store (h : s.Within J) (i : ι) (data : List β) :
    (s.store i data).Within (insert i J) := by
  intro j hj
  rw [Set.mem_insert_iff, not_or] at hj
  rw [live_store_of_ne hj.1]
  exact h j hj.2

theorem Within.wipe (h : s.Within J) (i : ι) : (s.wipe i).Within J := by
  intro j hj
  by_cases hji : j = i
  · subst hji
    simp only [Scope.wipe, Function.update_self, h j hj, Option.map_none]
  · rw [live_wipe_of_ne hji]
    exact h j hj

omit [Zero β] in
theorem Within.release (h : s.Within (insert i J)) : (s.release i).Within J := by
  intro j hj
  by_cases hji : j = i
  · subst hji
    simp only [Scope.release, Function.update_self]
  · rw [live_release_of_ne hji]
    exact h j fun hmem => hmem.elim hji hj

theorem Within.leave (h : s.Within (insert i J)) (guarded : Bool) : (leave i guarded s).Within J := by
  cases guarded with
  | false => exact h.release
  | true => exact (h.wipe i).release

end Scope

namespace Prog

open Scope

variable {σ ε α γ ι β : Type} [DecidableEq ι] [Zero β]

/-- `secure_wipe` on a local buffer. -/
def secureWipe (i : ι) : Prog (σ × Scope ι β) ε Unit := op fun s => (.ok (), (s.1, s.2.wipe i))

/-- A local buffer, filled at its declaration; `guarded` if a guard or its destructor wipes it. -/
def withBuffer (i : ι) (guarded : Bool) (data : List β) (body : Prog (σ × Scope ι β) ε α) :
    Prog (σ × Scope ι β) ε α := do
  op fun s => (.ok (), (s.1, s.2.store i data))
  ensuring body fun s => (s.1, leave i guarded s.2)

variable {i : ι} {guarded : Bool} {data : List β} {body : Prog (σ × Scope ι β) ε α} {J : Set ι}

theorem secureWipe_ends (i : ι) (w : σ) (k : Scope ι β) :
    Ends (secureWipe i : Prog (σ × Scope ι β) ε Unit) (w, k) (.ok ()) (w, k.wipe i) := op_ends _ (w, k)

theorem ends_withBuffer {s t : σ × Scope ι β} {r : Except ε α} :
    Ends (withBuffer i guarded data body) s r t ↔
      ∃ u : σ × Scope ι β, Ends body (s.1, s.2.store i data) r u ∧ t = (u.1, leave i guarded u.2) := by
  have hstore : Ends
      (op fun s : σ × Scope ι β => ((.ok () : Except ε Unit), (s.1, s.2.store i data))) s (.ok ())
      (s.1, s.2.store i data) := op_ends _ s
  rw [withBuffer, hstore.bind_iff, ends_ensuring]

/-- The buffers have no influence on what the function does. -/
theorem Erases.withBuffer {q : Prog σ ε α} (h : ∀ k, Erases k body q) (k : Scope ι β) :
    Erases k (withBuffer i guarded data body) q := by
  intro s r t
  rw [← h (k.store i data) s r t]
  constructor
  · rintro ⟨k', hk⟩
    obtain ⟨u, hu, heq⟩ := ends_withBuffer.mp hk
    obtain ⟨rfl, -⟩ := Prod.mk.inj heq
    exact ⟨u.2, hu⟩
  · rintro ⟨k', hk⟩
    exact ⟨_, ends_withBuffer.mpr ⟨(t, k'), hk, rfl⟩⟩

/-- No buffer outlives its scope. -/
theorem Preserves.withBuffer (hbody : Preserves (fun s => s.2.Within (insert i J)) body) :
    Preserves (fun s => s.2.Within J) (withBuffer i guarded data body) := by
  intro s r t hs h
  obtain ⟨u, hu, rfl⟩ := ends_withBuffer.mp h
  have hwithin : u.2.Within (insert i J) := hbody (hs.store i data) hu
  exact hwithin.leave guarded

/-- Every way out of the run from `s` leaves the scope safe. -/
def Wipes (J : Set ι) (p : Prog (σ × Scope ι β) ε α) (s : σ × Scope ι β) : Prop :=
  ∀ r t, Ends p s r t → t.2.Safe J

theorem wipes_withBuffer_guarded (hi : i ∉ J) {s : σ × Scope ι β} :
    Wipes J (withBuffer i true data body) s ↔ Wipes J body (s.1, s.2.store i data) := by
  constructor
  · intro h r u hu
    exact (safe_leave_guarded hi).mp (h r _ (ends_withBuffer.mpr ⟨u, hu, rfl⟩))
  · intro h r t ht
    obtain ⟨u, hu, rfl⟩ := ends_withBuffer.mp ht
    exact (safe_leave_guarded hi).mpr (h r u hu)

/-- Without a guard, the body has to wipe the buffer on each of its ways out. -/
theorem wipes_withBuffer_bare (hi : i ∉ J) {s : σ × Scope ι β} :
    Wipes J (withBuffer i false data body) s ↔ Wipes (insert i J) body (s.1, s.2.store i data) := by
  constructor
  · intro h r u hu
    exact (safe_leave_bare hi).mp (h r _ (ends_withBuffer.mpr ⟨u, hu, rfl⟩))
  · intro h r t ht
    obtain ⟨u, hu, rfl⟩ := ends_withBuffer.mp ht
    exact (safe_leave_bare hi).mpr (h r u hu)

omit [DecidableEq ι] in
/-- A call may throw only where the scope is safe already. -/
theorem wipes_lift_bind {p : Prog σ ε γ} {f : γ → Prog (σ × Scope ι β) ε α} {w : σ} {k : Scope ι β} :
    Wipes J (lift p >>= f) (w, k) ↔
      (∀ a w', Ends p w (.ok a) w' → Wipes J (f a) (w', k)) ∧
      (k.Safe J ∨ ∀ e w', ¬Ends p w (.error e) w') := by
  constructor
  · intro h
    refine ⟨fun a w' hp r t hf => h r t ((hp.lift k).bind hf), ?_⟩
    rw [or_iff_not_imp_right]
    intro hthrows
    push Not at hthrows
    obtain ⟨e, w', hp⟩ := hthrows
    exact h _ _ ((hp.lift k).bind_error f)
  · rintro ⟨hnext, hthrows⟩ r t ht
    rcases ends_bind.mp ht with ⟨a, ⟨w', k'⟩, hp, hf⟩ | ⟨e, rfl, hp⟩
    · obtain ⟨hp, rfl⟩ := (ends_lift p _ _ _).mp hp
      exact hnext a w' hp r t hf
    · obtain ⟨hp, hsame⟩ := (ends_lift p _ _ _).mp hp
      rw [hsame]
      exact hthrows.resolve_right fun hnever => hnever e t.1 hp

omit [DecidableEq ι] in
/-- A call in a safe scope. -/
theorem wipes_lift_bind_of_safe {p : Prog σ ε γ} {f : γ → Prog (σ × Scope ι β) ε α} {w : σ}
    {k : Scope ι β} (hk : k.Safe J) :
    Wipes J (lift p >>= f) (w, k) ↔ ∀ a w', Ends p w (.ok a) w' → Wipes J (f a) (w', k) := by
  rw [wipes_lift_bind, and_iff_left (Or.inl hk)]

omit [DecidableEq ι] in
/-- A call whose end is known. -/
theorem wipes_lift_bind_of_ends {p : Prog σ ε γ} {f : γ → Prog (σ × Scope ι β) ε α} {w w' : σ}
    {k : Scope ι β} {a : γ} (hp : Ends p w (.ok a) w') :
    Wipes J (lift p >>= f) (w, k) ↔ Wipes J (f a) (w', k) :=
  forall₂_congr fun _ _ => by rw [(hp.lift k).bind_iff]

omit [DecidableEq ι] in
theorem wipes_lift {p : Prog σ ε α} {s : σ × Scope ι β} (hs : s.2.Safe J) : Wipes J (lift p) s := by
  intro r t ht
  rw [((ends_lift p _ _ _).mp ht).2]
  exact hs

theorem wipes_secureWipe_bind {f : Unit → Prog (σ × Scope ι β) ε α} {w : σ} {k : Scope ι β} :
    Wipes J (secureWipe i >>= f) (w, k) ↔ Wipes J (f ()) (w, k.wipe i) :=
  forall₂_congr fun _ _ => by rw [(secureWipe_ends i w k).bind_iff]

end Prog
