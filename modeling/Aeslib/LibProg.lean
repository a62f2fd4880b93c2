import Mathlib

/-!
Programs with a state, exceptions and loops that may not end. `run` takes a bound on the iterations
of each loop; a larger bound never changes a result (`mono`), so `Ends` can speak of the run without
naming one. The rules read a run off its parts: a bind whose first part is known (`Ends.bind_iff`),
the unfolding of a loop, and a loop that never ends. `Triple` is for runs whose path is not known.
-/

structure Prog (σ ε α : Type) where
  run : Nat → σ → Option (Except ε α × σ)
  mono : ∀ {m n : Nat} {s : σ} {r : Except ε α × σ}, m ≤ n → run m s = some r → run n s = some r

namespace Prog

variable {σ ε α β κ : Type}

/-- An atomic step. -/
def op (f : σ → Except ε α × σ) : Prog σ ε α where
  run _ s := some (f s)
  mono _ h := h

def raise (e : ε) : Prog σ ε α := op fun s => (.error e, s)

def ofExcept (x : Except ε α) : Prog σ ε α := op fun s => (x, s)

protected def bind (p : Prog σ ε α) (f : α → Prog σ ε β) : Prog σ ε β where
  run n s :=
    match p.run n s with
    | none => none
    | some (.ok a, t) => (f a).run n t
    | some (.error e, t) => some (.error e, t)
  mono {m n s r} hmn h := by
    cases hp : p.run m s with
    | none => simp [hp] at h
    | some x =>
        obtain ⟨x | a, t⟩ := x
        · simpa [p.mono hmn hp, hp] using h
        · simp only [hp] at h
          simpa only [p.mono hmn hp] using (f a).mono hmn h

instance : Monad (Prog σ ε) where
  pure a := op fun s => (.ok a, s)
  bind := Prog.bind

theorem run_bind (p : Prog σ ε α) (f : α → Prog σ ε β) (n : Nat) (s : σ) :
    (p >>= f).run n s =
      match p.run n s with
      | none => none
      | some (.ok a, t) => (f a).run n t
      | some (.error e, t) => some (.error e, t) := rfl

theorem eq_of_run {p q : Prog σ ε α} (h : ∀ n s, p.run n s = q.run n s) : p = q := by
  cases p
  cases q
  congr
  funext n s
  exact h n s

theorem bind_bind (p : Prog σ ε α) (f : α → Prog σ ε β) (g : β → Prog σ ε κ) :
    (p >>= f) >>= g = p >>= fun a => f a >>= g := by
  refine eq_of_run fun n s => ?_
  simp only [run_bind]
  rcases p.run n s with _ | ⟨_ | _, _⟩ <;> rfl

theorem pure_bind (a : α) (f : α → Prog σ ε β) : (pure a >>= f) = f a := rfl

/-- `if (b) throw e;`. -/
def raiseIf (b : Prop) [Decidable b] (e : ε) : Prog σ ε Unit := if b then raise e else pure ()

/-- A program on the first part of a larger state. -/
def lift (p : Prog σ ε α) : Prog (σ × κ) ε α where
  run n s := (p.run n s.1).map fun x => (x.1, (x.2, s.2))
  mono {m n s r} hmn h := by
    obtain ⟨x, hx, rfl⟩ := Option.map_eq_some_iff.mp h
    rw [p.mono hmn hx, Option.map_some]

/-- A program with a further piece of state, which is `k` at its start; returns its end value too. -/
def withState (k : κ) (p : Prog (σ × κ) ε α) : Prog σ ε (α × κ) where
  run n s := (p.run n (s, k)).map fun x => (x.1.map (·, x.2.2), x.2.1)
  mono {m n s r} hmn h := by
    obtain ⟨x, hx, rfl⟩ := Option.map_eq_some_iff.mp h
    rw [p.mono hmn hx, Option.map_some]

def loopRun (body : β → Prog σ ε (β ⊕ α)) (fuel : Nat) : Nat → β → σ → Option (Except ε α × σ)
  | 0, _, _ => none
  | n + 1, b, s =>
    match (body b).run fuel s with
    | none => none
    | some (.error e, t) => some (.error e, t)
    | some (.ok (.inl b'), t) => loopRun body fuel n b' t
    | some (.ok (.inr a), t) => some (.ok a, t)

theorem loopRun_mono (body : β → Prog σ ε (β ⊕ α)) {k l m n : Nat} {b : β} {s : σ} {r : Except ε α × σ}
    (hkl : k ≤ l) (hmn : m ≤ n) (h : loopRun body k m b s = some r) : loopRun body l n b s = some r := by
  induction m generalizing n b s with
  | zero => simp [loopRun] at h
  | succ m ih =>
      obtain ⟨n, rfl⟩ : ∃ n', n = n' + 1 := ⟨n - 1, by omega⟩
      rw [loopRun] at h ⊢
      cases hb : (body b).run k s with
      | none => simp [hb] at h
      | some x =>
          rw [hb] at h
          rw [(body b).mono hkl hb]
          obtain ⟨x | (b' | a), t⟩ := x
          · exact h
          · exact ih (by omega) h
          · exact h

/-- `body` is repeated from `b` on until it returns a result. -/
def loop (body : β → Prog σ ε (β ⊕ α)) (b : β) : Prog σ ε α where
  run n s := loopRun body n n b s
  mono hmn h := loopRun_mono body hmn hmn h

/-- The run of `p` from `s` ends with the value or exception `r` in the state `t`. -/
def Ends (p : Prog σ ε α) (s : σ) (r : Except ε α) (t : σ) : Prop := ∃ fuel, p.run fuel s = some (r, t)

theorem Ends.unique {p : Prog σ ε α} {s t t' : σ} {r r' : Except ε α} (h : Ends p s r t)
    (h' : Ends p s r' t') : r = r' ∧ t = t' := by
  obtain ⟨m, hm⟩ := h
  obtain ⟨n, hn⟩ := h'
  have heq := (p.mono (le_max_left m n) hm).symm.trans (p.mono (le_max_right m n) hn)
  simpa using heq

/-- The end of a known run. -/
theorem Ends.iff {p : Prog σ ε α} {s t t' : σ} {r r' : Except ε α} (h : Ends p s r t) :
    Ends p s r' t' ↔ r' = r ∧ t' = t := by
  constructor
  · exact fun h' => h'.unique h
  · rintro ⟨rfl, rfl⟩
    exact h

@[simp] theorem ends_op (f : σ → Except ε α × σ) (s t : σ) (r : Except ε α) :
    Ends (op f) s r t ↔ f s = (r, t) := by
  constructor
  · rintro ⟨_, h⟩
    exact Option.some.inj h
  · exact fun h => ⟨0, congrArg some h⟩

@[simp] theorem ends_pure (a : α) (s t : σ) (r : Except ε α) :
    Ends (pure a : Prog σ ε α) s r t ↔ r = .ok a ∧ t = s :=
  (ends_op _ s t r).trans (by rw [Prod.mk.injEq, eq_comm, eq_comm (a := s)])

@[simp] theorem ends_raise (e : ε) (s t : σ) (r : Except ε α) :
    Ends (raise e : Prog σ ε α) s r t ↔ r = .error e ∧ t = s :=
  (ends_op _ s t r).trans (by rw [Prod.mk.injEq, eq_comm, eq_comm (a := s)])

@[simp] theorem ends_ofExcept (x : Except ε α) (s t : σ) (r : Except ε α) :
    Ends (ofExcept x) s r t ↔ r = x ∧ t = s :=
  (ends_op _ s t r).trans (by rw [Prod.mk.injEq, eq_comm, eq_comm (a := s)])

theorem Ends.bind {p : Prog σ ε α} {f : α → Prog σ ε β} {s t u : σ} {a : α} {r : Except ε β}
    (hp : Ends p s (.ok a) t) (hf : Ends (f a) t r u) : Ends (p >>= f) s r u := by
  obtain ⟨m, hm⟩ := hp
  obtain ⟨n, hn⟩ := hf
  refine ⟨max m n, ?_⟩
  rw [run_bind, p.mono (le_max_left m n) hm]
  exact (f a).mono (le_max_right m n) hn

theorem Ends.bind_error {p : Prog σ ε α} (f : α → Prog σ ε β) {s t : σ} {e : ε}
    (hp : Ends p s (.error e) t) : Ends (p >>= f) s (.error e) t := by
  obtain ⟨m, hm⟩ := hp
  exact ⟨m, by rw [run_bind, hm]⟩

theorem ends_bind {p : Prog σ ε α} {f : α → Prog σ ε β} {s u : σ} {r : Except ε β} :
    Ends (p >>= f) s r u ↔ (∃ a t, Ends p s (.ok a) t ∧ Ends (f a) t r u) ∨
      ∃ e, r = .error e ∧ Ends p s (.error e) u := by
  constructor
  · rintro ⟨n, h⟩
    rw [run_bind] at h
    cases hp : p.run n s with
    | none => simp [hp] at h
    | some x =>
        rw [hp] at h
        obtain ⟨e | a, t⟩ := x
        · obtain ⟨rfl, rfl⟩ : Except.error e = r ∧ t = u := by simpa using h
          exact .inr ⟨e, rfl, n, hp⟩
        · exact .inl ⟨a, t, ⟨n, hp⟩, n, h⟩
  · rintro (⟨a, t, hp, hf⟩ | ⟨e, rfl, hp⟩)
    · exact hp.bind hf
    · exact hp.bind_error f

/-- A bind whose first part ends normally is its second part. -/
theorem Ends.bind_iff {p : Prog σ ε α} {f : α → Prog σ ε β} {s t u : σ} {a : α} {r : Except ε β}
    (hp : Ends p s (.ok a) t) : Ends (p >>= f) s r u ↔ Ends (f a) t r u := by
  rw [ends_bind]
  constructor
  · rintro (⟨b, t', hp', hf⟩ | ⟨e, rfl, hp'⟩)
    · obtain ⟨hb, rfl⟩ := hp'.unique hp
      obtain rfl : b = a := Except.ok.inj hb
      exact hf
    · exact absurd (hp'.unique hp).1 (by simp)
  · exact fun hf => .inl ⟨a, t, hp, hf⟩

/-- A bind whose first part throws does so too. -/
theorem Ends.bind_error_iff {p : Prog σ ε α} {f : α → Prog σ ε β} {s t u : σ} {e : ε} {r : Except ε β}
    (hp : Ends p s (.error e) t) : Ends (p >>= f) s r u ↔ r = .error e ∧ u = t :=
  (hp.bind_error f).iff

theorem ends_raiseIf_pos {b : Prop} [Decidable b] {e : ε} {s : σ} (hb : b) :
    Ends (raiseIf b e : Prog σ ε Unit) s (.error e) s := by
  rw [raiseIf, if_pos hb, ends_raise]
  exact ⟨rfl, rfl⟩

theorem ends_raiseIf_neg {b : Prop} [Decidable b] {e : ε} {s : σ} (hb : ¬b) :
    Ends (raiseIf b e : Prog σ ε Unit) s (.ok ()) s := by
  rw [raiseIf, if_neg hb, ends_pure]
  exact ⟨rfl, rfl⟩

/-- How a conditional exception is thrown. -/
theorem ends_raiseIf_error {b : Prop} [Decidable b] {e e' : ε} {s t : σ} :
    Ends (raiseIf b e : Prog σ ε Unit) s (.error e') t ↔ b ∧ e' = e ∧ t = s := by
  by_cases hb : b
  · rw [(ends_raiseIf_pos hb).iff, Except.error.injEq, and_iff_right hb]
  · rw [(ends_raiseIf_neg hb).iff]
    exact iff_of_false (by simp) fun h => hb h.1

@[simp] theorem ends_lift (p : Prog σ ε α) (s t : σ × κ) (r : Except ε α) :
    Ends (lift p) s r t ↔ Ends p s.1 r t.1 ∧ t.2 = s.2 := by
  constructor
  · rintro ⟨n, h⟩
    obtain ⟨x, hx, hr⟩ := Option.map_eq_some_iff.mp h
    obtain ⟨rfl, rfl⟩ := Prod.mk.inj hr
    exact ⟨⟨n, hx⟩, rfl⟩
  · rintro ⟨⟨n, h⟩, heq⟩
    refine ⟨n, ?_⟩
    change (p.run n s.1).map _ = _
    rw [h, Option.map_some, ← heq]

theorem Ends.lift {p : Prog σ ε α} {s t : σ} {r : Except ε α} (h : Ends p s r t) (k : κ) :
    Ends (lift p) (s, k) r (t, k) := (ends_lift p (s, k) (t, k) r).mpr ⟨h, rfl⟩

theorem Ends.withState {p : Prog (σ × κ) ε α} {s t : σ} {k k' : κ} {a : α}
    (h : Ends p (s, k) (.ok a) (t, k')) : Ends (withState k p) s (.ok (a, k')) t := by
  obtain ⟨n, hn⟩ := h
  refine ⟨n, ?_⟩
  change (p.run n (s, k)).map _ = _
  rw [hn]
  rfl

theorem op_ends (f : σ → Except ε α × σ) (s : σ) : Ends (op f) s (f s).1 (f s).2 :=
  (ends_op f s _ _).mpr rfl

section Loop

variable {body : β → Prog σ ε (β ⊕ α)} {b b' : β} {s t u : σ} {r : Except ε α}

/-- An iteration that goes on. -/
theorem Ends.loop_next (hb : Ends (body b) s (.ok (.inl b')) t) :
    Ends (loop body b) s r u ↔ Ends (loop body b') t r u := by
  obtain ⟨m, hm⟩ := hb
  constructor
  · rintro ⟨n, h⟩
    have hrun : loopRun body (max m n) (n + 1) b s = some (r, u) :=
      loopRun_mono body (le_max_right m n) (Nat.le_succ n) h
    rw [loopRun, (body b).mono (le_max_left m n) hm] at hrun
    exact ⟨max m n, loopRun_mono body le_rfl (le_max_right m n) hrun⟩
  · rintro ⟨n, h⟩
    refine ⟨max m (n + 1), ?_⟩
    change loopRun body (max m (n + 1)) (max m (n + 1)) b s = some (r, u)
    refine loopRun_mono body le_rfl (le_max_right m (n + 1)) ?_
    rw [loopRun, (body b).mono (le_max_left m (n + 1)) hm]
    exact loopRun_mono body (by omega) le_rfl h

/-- The last iteration. -/
theorem Ends.loop_done {a : α} (hb : Ends (body b) s (.ok (.inr a)) t) :
    Ends (loop body b) s (.ok a) t := by
  obtain ⟨m, hm⟩ := hb
  refine ⟨m + 1, ?_⟩
  change loopRun body (m + 1) (m + 1) b s = _
  rw [loopRun, (body b).mono (Nat.le_succ m) hm]

theorem Ends.loop_error {e : ε} (hb : Ends (body b) s (.error e) t) :
    Ends (loop body b) s (.error e) t := by
  obtain ⟨m, hm⟩ := hb
  refine ⟨m + 1, ?_⟩
  change loopRun body (m + 1) (m + 1) b s = _
  rw [loopRun, (body b).mono (Nat.le_succ m) hm]

/-- A loop whose every iteration keeps `inv` and goes on has no end. -/
theorem loop_diverges (inv : β → σ → Prop)
    (hstep : ∀ b s, inv b s → ∃ b' t, Ends (body b) s (.ok (.inl b')) t ∧ inv b' t) (hb : inv b s) :
    ¬Ends (loop body b) s r u := by
  rintro ⟨n, h⟩
  -- `h` bounds the iterations by `n`, and each iteration uses up one
  have hnone : ∀ m b s, inv b s → loopRun body n m b s ≠ some (r, u) := by
    intro m
    induction m with
    | zero => exact fun b s _ => by simp [loopRun]
    | succ m ih =>
        intro b s hb hrun
        obtain ⟨b', t, ⟨k, hk⟩, hb'⟩ := hstep b s hb
        rw [loopRun] at hrun
        cases hn : (body b).run n s with
        | none => simp [hn] at hrun
        | some x =>
            have heq := ((body b).mono (le_max_left n k) hn).symm.trans
              ((body b).mono (le_max_right n k) hk)
            rw [hn, Option.some.inj heq] at hrun
            exact ih b' t hb' hrun
  exact hnone n b s hb h

end Loop

/-- Partial correctness: a run from a state in `pre` that returns `a` in the state `t` has `post a t`. -/
def Triple (pre : σ → Prop) (p : Prog σ ε α) (post : α → σ → Prop) : Prop :=
  ∀ ⦃s a t⦄, pre s → Ends p s (.ok a) t → post a t

section Triple

variable {pre : σ → Prop} {post : α → σ → Prop}

theorem Triple.weaken {post' : α → σ → Prop} {p : Prog σ ε α} (h : Triple pre p post)
    (hpost : ∀ a t, post a t → post' a t) : Triple pre p post' := fun _ _ _ hs hp => hpost _ _ (h hs hp)

theorem Triple.any (p : Prog σ ε α) : Triple pre p fun _ _ => True := fun _ _ _ _ _ => trivial

/-- `a` is a value that `p` returns from some state. -/
def Returned (p : Prog σ ε α) (a : α) : Prop := ∃ s t, Ends p s (.ok a) t

theorem Triple.returned (p : Prog σ ε α) : Triple pre p fun a _ => Returned p a :=
  fun s _ t _ hp => ⟨s, t, hp⟩

/-- What every state of the precondition implies may be assumed. -/
theorem Triple.assume {p : Prog σ ε α} {φ : Prop} (hφ : ∀ s, pre s → φ) (h : φ → Triple pre p post) :
    Triple pre p post := fun s _ _ hs hp => h (hφ s hs) hs hp

theorem Triple.ofExcept (x : Except ε α) : Triple pre (ofExcept x) fun a _ => x = .ok a := by
  intro s a t _ hp
  exact ((ends_ofExcept x s t _).mp hp).1.symm

theorem Triple.op {f : σ → Except ε α × σ} (h : ∀ s a, pre s → (f s).1 = .ok a → post a (f s).2) :
    Triple pre (op f) post := by
  intro s a t hs hp
  rw [ends_op] at hp
  have hpost := h s a hs (by rw [hp])
  rwa [hp] at hpost

theorem Triple.pure {a : α} (h : ∀ s, pre s → post a s) : Triple pre (pure a : Prog σ ε α) post := by
  intro s b t hs hp
  obtain ⟨hb, rfl⟩ := (ends_pure a s t _).mp hp
  obtain rfl := Except.ok.inj hb
  exact h _ hs

theorem Triple.raise (e : ε) : Triple pre (raise e : Prog σ ε α) post := by
  intro s a t _ hp
  exact absurd ((ends_raise e s t _).mp hp).1 (by simp)

theorem Triple.bind {mid : β → σ → Prop} {p : Prog σ ε β} {f : β → Prog σ ε α} (hp : Triple pre p mid)
    (hf : ∀ b, Triple (mid b) (f b) post) : Triple pre (p >>= f) post := by
  intro s a t hs h
  rcases ends_bind.mp h with ⟨b, u, hpb, hfb⟩ | ⟨e, he, _⟩
  · exact hf b (hp hs hpb) hfb
  · exact absurd he (by simp)

theorem Triple.raiseIf {b : Prop} [Decidable b] (e : ε) :
    Triple pre (raiseIf b e) fun _ s => pre s ∧ ¬b := by
  unfold Prog.raiseIf
  split_ifs with hb
  · exact Triple.raise e
  · exact Triple.pure fun _ hs => ⟨hs, hb⟩

/-- A loop keeps the invariant of its body until it returns. -/
theorem Triple.loop {body : β → Prog σ ε (β ⊕ α)} {b : β} (inv : β → σ → Prop)
    (hbody : ∀ b, Triple (inv b) (body b) fun r t => r.elim (inv · t) (post · t)) :
    Triple (inv b) (loop body b) post := by
  rintro s a t hs ⟨n, h⟩
  have hrun : ∀ m b s, inv b s → loopRun body n m b s = some (.ok a, t) → post a t := by
    intro m
    induction m with
    | zero => exact fun b s _ hrun => by simp [loopRun] at hrun
    | succ m ih =>
        intro b s hs hrun
        rw [loopRun] at hrun
        cases hb : (body b).run n s with
        | none => simp [hb] at hrun
        | some x =>
            rw [hb] at hrun
            obtain ⟨e | (b' | a'), u⟩ := x
            · simp at hrun
            · exact ih b' u (hbody b hs ⟨n, hb⟩) hrun
            · obtain ⟨rfl, rfl⟩ : a' = a ∧ u = t := by simpa using hrun
              exact hbody b hs ⟨n, hb⟩
  exact hrun n b s hs h

end Triple

/-- Every end of `p`, by a value or by an exception, keeps `inv`. -/
def Preserves (inv : σ → Prop) (p : Prog σ ε α) : Prop := ∀ ⦃s r t⦄, inv s → Ends p s r t → inv t

section Preserves

variable {inv : σ → Prop}

theorem Preserves.op {f : σ → Except ε α × σ} (h : ∀ s, inv s → inv (f s).2) : Preserves inv (op f) := by
  intro s r t hs hp
  have hpost := h s hs
  rwa [(ends_op f s t r).mp hp] at hpost

theorem Preserves.pure (a : α) : Preserves inv (pure a : Prog σ ε α) := Preserves.op fun _ hs => hs

theorem Preserves.bind {p : Prog σ ε β} {f : β → Prog σ ε α} (hp : Preserves inv p)
    (hf : ∀ b, Preserves inv (f b)) : Preserves inv (p >>= f) := by
  intro s r t hs h
  rcases ends_bind.mp h with ⟨b, u, hpb, hfb⟩ | ⟨e, _, hpe⟩
  · exact hf b (hp hs hpb) hfb
  · exact hp hs hpe

theorem Preserves.loop {body : β → Prog σ ε (β ⊕ α)} (hbody : ∀ b, Preserves inv (body b)) (b : β) :
    Preserves inv (loop body b) := by
  rintro s r t hs ⟨n, h⟩
  have hrun : ∀ m b s, inv s → loopRun body n m b s = some (r, t) → inv t := by
    intro m
    induction m with
    | zero => exact fun b s _ hrun => by simp [loopRun] at hrun
    | succ m ih =>
        intro b s hs hrun
        rw [loopRun] at hrun
        cases hb : (body b).run n s with
        | none => simp [hb] at hrun
        | some x =>
            rw [hb] at hrun
            have hkeep := hbody b hs ⟨n, hb⟩
            obtain ⟨e | (b' | a), u⟩ := x
            · obtain ⟨-, rfl⟩ : Except.error e = r ∧ u = t := by simpa using hrun
              exact hkeep
            · exact ih b' u hkeep hrun
            · obtain ⟨-, rfl⟩ : Except.ok a = r ∧ u = t := by simpa using hrun
              exact hkeep
  exact hrun n b s hs h

end Preserves

end Prog
