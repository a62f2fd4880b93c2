import Aeslib.LibProg

/-!
Programs on a state of two parts. `Erases` says that the second part has no influence on the first,
so that a program which keeps books on the side computes what the one without the books does. `Maps`
is about two programs whose runs are images of each other, and `Frames` about a change of the state
that a program does not see. `tryCatch` handles exceptions, and `ensuring` runs a cleanup on every
way out.
-/

namespace Prog

variable {σ τ ε ε' α β κ : Type}

/-- From any state with the second part `k`, the run of `p` ends as the run of `q` on the first part
does. -/
def Erases (k : κ) (p : Prog (σ × κ) ε α) (q : Prog σ ε α) : Prop :=
  ∀ s r t, (∃ k', Ends p (s, k) r (t, k')) ↔ Ends q s r t

section Erases

variable {k : κ}

/-- `K` is what the first program leaves of the second part. -/
theorem Erases.bind {p : Prog (σ × κ) ε β} {q : Prog σ ε β} {f : β → Prog (σ × κ) ε α}
    {g : β → Prog σ ε α} (K : κ → Prop) (hK : ∀ s a t k', Ends p (s, k) (.ok a) (t, k') → K k')
    (hp : Erases k p q) (hf : ∀ a k', K k' → Erases k' (f a) (g a)) : Erases k (p >>= f) (q >>= g) := by
  intro s r t
  constructor
  · rintro ⟨k', h⟩
    rcases ends_bind.mp h with ⟨a, ⟨u, k₁⟩, hpa, hfa⟩ | ⟨e, rfl, hpe⟩
    · exact ((hp s _ u).mp ⟨k₁, hpa⟩).bind ((hf a k₁ (hK s a u k₁ hpa) u r t).mp ⟨k', hfa⟩)
    · exact ((hp s _ t).mp ⟨k', hpe⟩).bind_error g
  · intro h
    rcases ends_bind.mp h with ⟨a, u, hqa, hga⟩ | ⟨e, rfl, hqe⟩
    · obtain ⟨k₁, hpa⟩ := (hp s _ u).mpr hqa
      obtain ⟨k', hfa⟩ := (hf a k₁ (hK s a u k₁ hpa) u r t).mpr hga
      exact ⟨k', hpa.bind hfa⟩
    · obtain ⟨k', hpe⟩ := (hp s _ t).mpr hqe
      exact ⟨k', hpe.bind_error f⟩

theorem Erases.lift (p : Prog σ ε α) : Erases k (lift p) p := by
  intro s r t
  constructor
  · rintro ⟨k', h⟩
    exact ((ends_lift p _ _ _).mp h).1
  · exact fun h => ⟨k, h.lift k⟩

theorem Erases.lift_bind {p : Prog σ ε β} {f : β → Prog (σ × κ) ε α} {g : β → Prog σ ε α}
    (hf : ∀ a, Erases k (f a) (g a)) : Erases k (Prog.lift p >>= f) (p >>= g) :=
  Erases.bind (· = k) (fun _ _ _ _ h => ((ends_lift p _ _ _).mp h).2) (Erases.lift p) fun a _ hk =>
    hk ▸ hf a

theorem Erases.pure (a : α) : Erases k (pure a : Prog (σ × κ) ε α) (pure a) := by
  intro s r t
  simp

theorem Erases.raiseIf_bind {b : Prop} [Decidable b] (e : ε) {f : Unit → Prog (σ × κ) ε α}
    {g : Unit → Prog σ ε α} (hf : Erases k (f ()) (g ())) :
    Erases k (raiseIf b e >>= f) (raiseIf b e >>= g) := by
  intro s r t
  by_cases hb : b
  · simp only [(ends_raiseIf_pos hb).bind_error_iff, Prod.mk.injEq, exists_and_left, exists_eq, and_true]
  · simp only [(ends_raiseIf_neg hb).bind_iff]
    exact hf s r t

/-- A first part of `p` that leaves the first part of the state alone. -/
theorem Erases.skip {p : Prog (σ × κ) ε β} {a : β} {k₁ : κ} (hp : ∀ s, Ends p (s, k) (.ok a) (s, k₁))
    {g : β → Prog (σ × κ) ε α} {q : Prog σ ε α} (hg : Erases k₁ (g a) q) : Erases k (p >>= g) q := by
  intro s r t
  simp only [(hp s).bind_iff]
  exact hg s r t

end Erases

/-- The run of `q` from the image of a state is the image of the run of `p`. -/
def Maps (g : σ → τ) (p : Prog σ ε α) (q : Prog τ ε α) : Prop :=
  ∀ n s, q.run n (g s) = (p.run n s).map fun x => (x.1, g x.2)

section Maps

variable {g : σ → τ}

theorem Maps.ends {p : Prog σ ε α} {q : Prog τ ε α} (h : Maps g p q) {s : σ} {u : τ} {r : Except ε α} :
    Ends q (g s) r u ↔ ∃ t, Ends p s r t ∧ u = g t := by
  constructor
  · rintro ⟨n, hn⟩
    rw [h n s] at hn
    obtain ⟨⟨r', t⟩, ht, heq⟩ := Option.map_eq_some_iff.mp hn
    obtain ⟨rfl, rfl⟩ := Prod.mk.inj heq
    exact ⟨t, ⟨n, ht⟩, rfl⟩
  · rintro ⟨t, ⟨n, hn⟩, rfl⟩
    exact ⟨n, by rw [h n s, hn, Option.map_some]⟩

theorem Maps.op {f : σ → Except ε α × σ} {f' : τ → Except ε α × τ}
    (h : ∀ s, f' (g s) = ((f s).1, g (f s).2)) :
    Maps g (op f) (op f') := fun _ s => congrArg some (h s)

theorem Maps.pure (a : α) : Maps g (pure a : Prog σ ε α) (pure a) := Maps.op fun _ => rfl

theorem Maps.raiseIf {b : Prop} [Decidable b] (e : ε) : Maps g (raiseIf b e) (raiseIf b e) := by
  unfold Prog.raiseIf
  split_ifs
  · exact Maps.op fun _ => rfl
  · exact Maps.pure ()

theorem Maps.lift (p : Prog σ ε α) : Maps (Prod.fst (β := κ)) (lift p) p := by
  intro n s
  change p.run n s.1 = ((p.run n s.1).map _).map _
  rw [Option.map_map]
  exact Option.map_id.symm ▸ rfl

theorem Maps.lift_map {κ' : Type} (f : κ → κ') (p : Prog σ ε α) :
    Maps (Prod.map id f) (Prog.lift p) (Prog.lift p) := by
  intro n s
  change (p.run n s.1).map _ = ((p.run n s.1).map _).map _
  rw [Option.map_map]
  rfl

theorem Maps.bind {p : Prog σ ε β} {q : Prog τ ε β} {f : β → Prog σ ε α} {f' : β → Prog τ ε α}
    (hp : Maps g p q) (hf : ∀ b, Maps g (f b) (f' b)) : Maps g (p >>= f) (q >>= f') := by
  intro n s
  rw [run_bind, run_bind, hp n s]
  cases p.run n s with
  | none => rfl
  | some x =>
      obtain ⟨e | b, t⟩ := x
      · rfl
      · exact hf b n t

theorem Maps.loop {body : β → Prog σ ε (β ⊕ α)} {body' : β → Prog τ ε (β ⊕ α)}
    (hbody : ∀ b, Maps g (body b) (body' b)) (b : β) : Maps g (loop body b) (loop body' b) := by
  intro n s
  have hrun : ∀ m b s, loopRun body' n m b (g s) = (loopRun body n m b s).map fun x => (x.1, g x.2) := by
    intro m
    induction m with
    | zero => exact fun b s => rfl
    | succ m ih =>
        intro b s
        rw [loopRun, loopRun, hbody b n s]
        cases (body b).run n s with
        | none => rfl
        | some x =>
            obtain ⟨e | (b' | a), t⟩ := x
            · rfl
            · exact ih b' t
            · rfl
  exact hrun n b s

end Maps

/-- The run after the change `g` is the run before it, changed. -/
def Frames (g : σ → σ) (p : Prog σ ε α) : Prop :=
  ∀ n s, p.run n (g s) = (p.run n s).map fun x => (x.1, g x.2)

section Frames

variable {g : σ → σ}

theorem Frames.ends {p : Prog σ ε α} (h : Frames g p) {s u : σ} {r : Except ε α} :
    Ends p (g s) r u ↔ ∃ t, Ends p s r t ∧ u = g t := Maps.ends h

theorem Frames.op {f : σ → Except ε α × σ} (h : ∀ s, f (g s) = ((f s).1, g (f s).2)) :
    Frames g (op f) := Maps.op h

theorem Frames.pure (a : α) : Frames g (pure a : Prog σ ε α) := Maps.pure a

theorem Frames.loop {body : β → Prog σ ε (β ⊕ α)} (hbody : ∀ b, Frames g (body b)) (b : β) :
    Frames g (loop body b) := Maps.loop hbody b

end Frames

/-- A program on a part of the state, with its exceptions wrapped. -/
def focus (get : σ → τ) (put : τ → σ → σ) (wrap : ε → ε') (p : Prog τ ε α) : Prog σ ε' α where
  run n s := (p.run n (get s)).map fun x => (x.1.mapError wrap, put x.2 s)
  mono {m n s r} hmn h := by
    obtain ⟨x, hx, rfl⟩ := Option.map_eq_some_iff.mp h
    rw [p.mono hmn hx, Option.map_some]

theorem ends_focus {get : σ → τ} {put : τ → σ → σ} {wrap : ε → ε'} {p : Prog τ ε α} {s t : σ}
    {r : Except ε' α} :
    Ends (focus get put wrap p) s r t ↔ ∃ r' u, Ends p (get s) r' u ∧ r = r'.mapError wrap ∧
    t = put u s := by
  constructor
  · rintro ⟨n, h⟩
    obtain ⟨⟨r', u⟩, hu, heq⟩ := Option.map_eq_some_iff.mp h
    obtain ⟨rfl, rfl⟩ := Prod.mk.inj heq
    exact ⟨r', u, ⟨n, hu⟩, rfl, rfl⟩
  · rintro ⟨r', u, ⟨n, hn⟩, rfl, rfl⟩
    refine ⟨n, ?_⟩
    change (p.run n (get s)).map _ = _
    rw [hn, Option.map_some]

/-- `try { p } catch (...) { handler }`. -/
def tryCatch (p : Prog σ ε α) (handler : ε → Prog σ ε' α) : Prog σ ε' α where
  run n s :=
    match p.run n s with
    | none => none
    | some (.ok a, t) => some (.ok a, t)
    | some (.error e, t) => (handler e).run n t
  mono {m n s r} hmn h := by
    cases hp : p.run m s with
    | none => simp [hp] at h
    | some x =>
        obtain ⟨e | a, t⟩ := x
        · simp only [hp] at h
          simpa only [p.mono hmn hp] using (handler e).mono hmn h
        · simpa [p.mono hmn hp, hp] using h

theorem ends_tryCatch {p : Prog σ ε α} {handler : ε → Prog σ ε' α} {s u : σ} {r : Except ε' α} :
    Ends (tryCatch p handler) s r u ↔
      (∃ a, r = .ok a ∧ Ends p s (.ok a) u) ∨ ∃ e t, Ends p s (.error e) t ∧ Ends (handler e) t r u := by
  constructor
  · rintro ⟨n, h⟩
    cases hp : p.run n s with
    | none => simp [tryCatch, hp] at h
    | some x =>
        obtain ⟨e | a, t⟩ := x
        · simp only [tryCatch, hp] at h
          exact .inr ⟨e, t, ⟨n, hp⟩, n, h⟩
        · obtain ⟨rfl, rfl⟩ : Except.ok a = r ∧ t = u := by simpa [tryCatch, hp] using h
          exact .inl ⟨a, rfl, n, hp⟩
  · rintro (⟨a, rfl, n, hp⟩ | ⟨e, t, ⟨m, hm⟩, n, hn⟩)
    · exact ⟨n, by simp [tryCatch, hp]⟩
    · refine ⟨max m n, ?_⟩
      simpa only [tryCatch, p.mono (le_max_left m n) hm] using (handler e).mono (le_max_right m n) hn

theorem Preserves.focus {inv : σ → Prop} {get : σ → τ} {put : τ → σ → σ}
    (h : ∀ u s, inv s → inv (put u s)) (wrap : ε → ε') (p : Prog τ ε α) :
    Preserves inv (focus get put wrap p) := by
  intro s r t hs hp
  obtain ⟨_, u, -, -, rfl⟩ := ends_focus.mp hp
  exact h u s hs

theorem Preserves.raiseIf {inv : σ → Prop} {b : Prop} [Decidable b] (e : ε) :
    Preserves inv (raiseIf b e) := by
  unfold Prog.raiseIf
  split_ifs
  · exact Preserves.op fun _ hs => hs
  · exact Preserves.pure ()

/-- `cleanup` runs when `p` returns and when it throws. -/
def ensuring (p : Prog σ ε α) (cleanup : σ → σ) : Prog σ ε α where
  run n s := (p.run n s).map fun x => (x.1, cleanup x.2)
  mono {m n s r} hmn h := by
    obtain ⟨x, hx, rfl⟩ := Option.map_eq_some_iff.mp h
    rw [p.mono hmn hx, Option.map_some]

theorem ends_ensuring {p : Prog σ ε α} {cleanup : σ → σ} {s t : σ} {r : Except ε α} :
    Ends (ensuring p cleanup) s r t ↔ ∃ u, Ends p s r u ∧ t = cleanup u := by
  constructor
  · rintro ⟨n, h⟩
    obtain ⟨⟨r', u⟩, hu, heq⟩ := Option.map_eq_some_iff.mp h
    obtain ⟨rfl, rfl⟩ := Prod.mk.inj heq
    exact ⟨u, ⟨n, hu⟩, rfl⟩
  · rintro ⟨u, ⟨n, hn⟩, rfl⟩
    refine ⟨n, ?_⟩
    change (p.run n s).map _ = _
    rw [hn, Option.map_some]

theorem Preserves.lift (inv : κ → Prop) (p : Prog σ ε α) :
    Preserves (fun s => inv s.2) (lift p : Prog (σ × κ) ε α) := by
  intro s r t hs h
  rw [((ends_lift p s t r).mp h).2]
  exact hs

end Prog
