import Aeslib.LibProgParts

/-!
Contracts: what a program promises on both ways out. `Contract pre p post exc` is about the runs of
`p` from the states of `pre`: one that returns ends in `post`, and one that throws ends in `exc`.
There is a rule for each operation, and a loop keeps the invariant of its body. `Sequence` is a
sequence of programs, each of them started where the one before it has ended, by a value or by an
exception.
-/

namespace Prog

variable {σ ε ε' α β κ : Type}

structure Contract (pre : σ → Prop) (p : Prog σ ε α) (post : α → σ → Prop) (exc : ε → σ → Prop) :
    Prop where
  returns : Triple pre p post
  throws : ∀ ⦃s e t⦄, pre s → Ends p s (.error e) t → exc e t

namespace Contract

variable {pre : σ → Prop} {post : α → σ → Prop} {exc : ε → σ → Prop} {p : Prog σ ε α}

theorem weaken {pre' : σ → Prop} {post' : α → σ → Prop} {exc' : ε → σ → Prop}
    (h : Contract pre p post exc) (hpre : ∀ s, pre' s → pre s) (hpost : ∀ a s, post a s → post' a s)
    (hexc : ∀ e s, exc e s → exc' e s) : Contract pre' p post' exc' where
  returns _ _ _ hs hp := hpost _ _ (h.returns (hpre _ hs) hp)
  throws _ _ _ hs hp := hexc _ _ (h.throws (hpre _ hs) hp)

theorem of_pre {pre' : σ → Prop} (h : Contract pre p post exc) (hpre : ∀ s, pre' s → pre s) :
    Contract pre' p post exc :=
  h.weaken hpre (fun _ _ h => h) fun _ _ h => h

theorem and {post' : α → σ → Prop} {exc' : ε → σ → Prop} (h : Contract pre p post exc)
    (h' : Contract pre p post' exc') :
    Contract pre p (fun a s => post a s ∧ post' a s) fun e s => exc e s ∧ exc' e s where
  returns _ _ _ hs hp := ⟨h.returns hs hp, h'.returns hs hp⟩
  throws _ _ _ hs hp := ⟨h.throws hs hp, h'.throws hs hp⟩

theorem of_triple (h : Triple pre p post) : Contract pre p post fun _ _ => True where
  returns := h
  throws _ _ _ _ _ := trivial

/-- One start at a time. -/
theorem of_states (h : ∀ s, pre s → Contract (· = s) p post exc) : Contract pre p post exc where
  returns s _ _ hs hp := (h s hs).returns rfl hp
  throws s _ _ hs hp := (h s hs).throws rfl hp

/-- What every state of the precondition implies may be assumed. -/
theorem assume {φ : Prop} (hφ : ∀ s, pre s → φ) (h : φ → Contract pre p post exc) :
    Contract pre p post exc where
  returns _ _ _ hs hp := (h (hφ _ hs)).returns hs hp
  throws _ _ _ hs hp := (h (hφ _ hs)).throws hs hp

theorem op {f : σ → Except ε α × σ} (hok : ∀ s a, pre s → (f s).1 = .ok a → post a (f s).2)
    (herror : ∀ s e, pre s → (f s).1 = .error e → exc e (f s).2) : Contract pre (op f) post exc where
  returns := Triple.op hok
  throws := by
    intro s e t hs hp
    rw [ends_op] at hp
    have hexc := herror s e hs (by rw [hp])
    rwa [hp] at hexc

theorem pure {a : α} (h : ∀ s, pre s → post a s) : Contract pre (pure a : Prog σ ε α) post exc where
  returns := Triple.pure h
  throws s e t _ hp := absurd ((ends_pure a s t _).mp hp).1 (by simp)

theorem raise {e : ε} (h : ∀ s, pre s → exc e s) : Contract pre (raise e : Prog σ ε α) post exc where
  returns := Triple.raise e
  throws := by
    intro s e' t hs hp
    obtain ⟨he, rfl⟩ := (ends_raise e s t _).mp hp
    obtain rfl := Except.error.inj he
    exact h _ hs

theorem raiseIf {b : Prop} [Decidable b] {e : ε} (h : ∀ s, pre s → b → exc e s) :
    Contract pre (raiseIf b e) (fun _ s => pre s ∧ ¬b) exc := by
  unfold Prog.raiseIf
  split_ifs with hb
  · exact raise fun s hs => h s hs hb
  · exact pure fun s hs => ⟨hs, hb⟩

theorem ofExcept {x : Except ε α} (hok : ∀ s a, pre s → x = .ok a → post a s)
    (herror : ∀ s e, pre s → x = .error e → exc e s) : Contract pre (ofExcept x) post exc :=
  op hok herror

theorem bind {mid : β → σ → Prop} {q : Prog σ ε β} {f : β → Prog σ ε α} (hq : Contract pre q mid exc)
    (hf : ∀ b, Contract (mid b) (f b) post exc) : Contract pre (q >>= f) post exc where
  returns := hq.returns.bind fun b => (hf b).returns
  throws := by
    intro s e t hs hp
    rcases ends_bind.mp hp with ⟨b, u, hqb, hfb⟩ | ⟨e', he, hqe⟩
    · exact (hf b).throws (hq.returns hs hqb) hfb
    · obtain rfl := Except.error.inj he
      exact hq.throws hs hqe

/-- A loop keeps the invariant of its body until it returns or throws. -/
theorem loop {body : β → Prog σ ε (β ⊕ α)} (inv : β → σ → Prop)
    (hbody : ∀ b, Contract (inv b) (body b) (fun r t => r.elim (inv · t) (post · t)) exc) (b : β) :
    Contract (inv b) (loop body b) post exc where
  returns := Triple.loop inv fun b => (hbody b).returns
  throws := by
    rintro s e t hs ⟨n, h⟩
    have hrun : ∀ m b s, inv b s → loopRun body n m b s = some (.error e, t) → exc e t := by
      intro m
      induction m with
      | zero => exact fun b s _ hrun => by simp [loopRun] at hrun
      | succ m ih =>
          intro b s hs hrun
          rw [loopRun] at hrun
          cases hb : (body b).run n s with
          | none => simp [hb] at hrun
          | some x =>
              rw [hb] at hrun
              obtain ⟨e' | (b' | a), u⟩ := x
              · obtain ⟨rfl, rfl⟩ : e' = e ∧ u = t := by simpa using hrun
                exact (hbody b).throws hs ⟨n, hb⟩
              · exact ih b' u ((hbody b).returns hs ⟨n, hb⟩) hrun
              · simp at hrun
    exact hrun n b s hs h

/-- A program on the first part of a larger state. -/
theorem lift (h : Contract pre p post exc) :
    Contract (fun s : σ × κ => pre s.1) (lift p) (fun a s => post a s.1) fun e s => exc e s.1 where
  returns _ _ _ hs hp := h.returns hs ((ends_lift p _ _ _).mp hp).1
  throws _ _ _ hs hp := h.throws hs ((ends_lift p _ _ _).mp hp).1

/-- The other part of the state is as it was. -/
theorem lift_frame (h : Contract pre p post exc) (R : κ → Prop) :
    Contract (fun s : σ × κ => pre s.1 ∧ R s.2) (Prog.lift p) (fun a s => post a s.1 ∧ R s.2)
      fun e s => exc e s.1 ∧ R s.2 where
  returns s a t hs hp := by
    obtain ⟨hends, hkeep⟩ := (ends_lift p _ _ _).mp hp
    exact ⟨h.returns hs.1 hends, hkeep ▸ hs.2⟩
  throws s e t hs hp := by
    obtain ⟨hends, hkeep⟩ := (ends_lift p _ _ _).mp hp
    exact ⟨h.throws hs.1 hends, hkeep ▸ hs.2⟩

end Contract

theorem ends_withState {k : κ} {p : Prog (σ × κ) ε α} {s t : σ} {r : Except ε (α × κ)} :
    Ends (withState k p) s r t ↔ ∃ r' k', Ends p (s, k) r' (t, k') ∧ r = r'.map (·, k') := by
  constructor
  · rintro ⟨n, h⟩
    obtain ⟨⟨r', t', k'⟩, hr, heq⟩ := Option.map_eq_some_iff.mp h
    obtain ⟨rfl, rfl⟩ := Prod.mk.inj heq
    exact ⟨r', k', ⟨n, hr⟩, rfl⟩
  · rintro ⟨r', k', ⟨n, hn⟩, rfl⟩
    refine ⟨n, ?_⟩
    change (p.run n (s, k)).map _ = _
    rw [hn, Option.map_some]

/-- A program with a further piece of state, whose end value is returned. -/
theorem Contract.withState {pre : σ → Prop} {exc : ε → σ → Prop} {k : κ} {q : Prog (σ × κ) ε α}
    {Q : α → κ → σ → Prop}
    (h : Contract (fun s => pre s.1 ∧ s.2 = k) q (fun a s => Q a s.2 s.1) fun e s => exc e s.1) :
    Contract pre (withState k q) (fun r s => Q r.1 r.2 s) exc where
  returns := by
    intro s x t hs hx
    obtain ⟨r, k', hr, heq⟩ := ends_withState.mp hx
    cases r with
    | error e => simp [Except.map] at heq
    | ok a =>
        obtain rfl : x = (a, k') := by simpa [Except.map] using heq
        exact h.returns ⟨hs, rfl⟩ hr
  throws := by
    intro s e t hs hx
    obtain ⟨r, k', hr, heq⟩ := ends_withState.mp hx
    cases r with
    | ok a => simp [Except.map] at heq
    | error e' =>
        obtain rfl : e = e' := by simpa [Except.map] using heq
        exact h.throws ⟨hs, rfl⟩ hr

/-- A contract, and under the condition `φ` every run from a state of `pre` returns. -/
structure Served (φ : Prop) (pre : σ → Prop) (p : Prog σ ε α) (post : α → σ → Prop)
    (exc : ε → σ → Prop) : Prop extends Contract pre p post exc where
  ends : φ → ∀ s, pre s → ∃ a t, Ends p s (.ok a) t

namespace Served

variable {φ : Prop} {pre : σ → Prop} {post : α → σ → Prop} {exc : ε → σ → Prop} {p : Prog σ ε α}

theorem of_pre {pre' : σ → Prop} (h : Served φ pre p post exc) (hpre : ∀ s, pre' s → pre s) :
    Served φ pre' p post exc where
  toContract := h.toContract.of_pre hpre
  ends hφ s hs := h.ends hφ s (hpre s hs)

/-- What every state of the precondition implies may be assumed. -/
theorem assume {ψ : Prop} (hψ : ∀ s, pre s → ψ) (h : ψ → Served φ pre p post exc) :
    Served φ pre p post exc where
  toContract := Contract.assume hψ fun hs => (h hs).toContract
  ends hφ s hs := (h (hψ s hs)).ends hφ s hs

theorem pure {a : α} (h : ∀ s, pre s → post a s) : Served φ pre (pure a : Prog σ ε α) post exc where
  toContract := Contract.pure h
  ends _ s _ := ⟨a, s, (ends_pure a s s _).mpr ⟨rfl, rfl⟩⟩

theorem bind {mid : β → σ → Prop} {q : Prog σ ε β} {f : β → Prog σ ε α} (hq : Served φ pre q mid exc)
    (hf : ∀ b, Served φ (mid b) (f b) post exc) : Served φ pre (q >>= f) post exc where
  toContract := hq.toContract.bind fun b => (hf b).toContract
  ends hφ s hs := by
    obtain ⟨b, t, hqb⟩ := hq.ends hφ s hs
    obtain ⟨a, u, hfa⟩ := (hf b).ends hφ t (hq.returns hs hqb)
    exact ⟨a, u, hqb.bind hfa⟩

end Served

/-- The programs run one after the other; beside each of them stands how it ends. -/
inductive Sequence {κ : Type} {ρ : κ → Type} (prog : (c : κ) → Prog σ ε (ρ c)) :
    List ((c : κ) × Except ε (ρ c)) → σ → σ → Prop where
  | done (s : σ) : Sequence prog [] s s
  | next {c : κ} {r : Except ε (ρ c)} {rest : List ((c : κ) × Except ε (ρ c))} {s t u : σ} :
      Ends (prog c) s r t → Sequence prog rest t u → Sequence prog (⟨c, r⟩ :: rest) s u

section Sequence

variable {κ : Type} {ρ : κ → Type} {prog : (c : κ) → Prog σ ε (ρ c)}
  {l : List ((c : κ) × Except ε (ρ c))} {s u : σ}

/-- The run around one of its programs. -/
theorem Sequence.split {before after : List ((c : κ) × Except ε (ρ c))} {c : κ} {r : Except ε (ρ c)}
    (h : Sequence prog (before ++ ⟨c, r⟩ :: after) s u) :
    ∃ t t', Sequence prog before s t ∧ Ends (prog c) t r t' ∧ Sequence prog after t' u := by
  induction before generalizing s with
  | nil =>
      cases h with
      | next hends hrest => exact ⟨s, _, .done s, hends, hrest⟩
  | cons x before ih =>
      cases h with
      | next hends hrest =>
          obtain ⟨t, t', hbefore, hmiddle, hafter⟩ := ih hrest
          exact ⟨t, t', .next hends hbefore, hmiddle, hafter⟩

theorem Sequence.ends_of_mem {c : κ} {r : Except ε (ρ c)} (h : Sequence prog l s u) (hmem : ⟨c, r⟩ ∈ l) :
    ∃ t t', Ends (prog c) t r t' := by
  obtain ⟨before, after, rfl⟩ := List.append_of_mem hmem
  obtain ⟨t, t', -, hends, -⟩ := h.split
  exact ⟨t, t', hends⟩

end Sequence

end Prog
