import Aeslib.LibProg

/-!
Loops that ask for what is left until nothing is. A request is answered by a count, which may be
zero, or it fails; the answers depend on the time and on the size of the request and are arbitrary
otherwise. Such a loop completes, or one of its requests fails, or it stalls: from some time on it
is answered by zero only. `Follows` is a program that makes the requests; it has no end exactly if
the requests stall.
-/

namespace Requests

open Prog

/-- The answers to requests, by the time and the size; a failure is `none`. -/
abbrev Answers := Nat → Nat → Option Nat

/-- The requests for `n` units, one at a time from `t` on, have come to the time `u` with `m` units
left. -/
inductive Left (answers : Answers) (t n : Nat) : Nat → Nat → Prop where
  | start : Left answers t n t n
  | next {u m c : Nat} :
      Left answers t n u m → 0 < m → answers u m = some c → Left answers t n (u + 1) (m - c)

/-- From some time on, with units left, every answer is zero. -/
def Stalls (answers : Answers) (t n : Nat) : Prop :=
  ∃ u m, Left answers t n u m ∧ 0 < m ∧ ∀ v ≥ u, answers v m = some 0

section Left

variable {answers : Answers} {t n u m : Nat}

/-- Answers of zero leave everything as it is. -/
theorem Left.wait (h : Left answers t n u m) (hm : 0 < m) {v : Nat} (hv : u ≤ v)
    (hzero : ∀ x, u ≤ x → x < v → answers x m = some 0) : Left answers t n v m := by
  induction v, hv using Nat.le_induction with
  | base => exact h
  | succ v hv ih =>
      have hbefore := ih fun x hx hlt => hzero x hx (hlt.trans (Nat.lt_succ_self v))
      exact hbefore.next hm (hzero v hv (Nat.lt_succ_self v))

/-- Nothing else can happen: the units that are left get fewer, or nothing is served any more. -/
theorem completes_or_fails_or_stalls (answers : Answers) (t n : Nat) :
    (∃ u, Left answers t n u 0) ∨ (∃ u m, Left answers t n u m ∧ 0 < m ∧ answers u m = none) ∨
    Stalls answers t n := by
  have hfrom : ∀ m u, Left answers t n u m →
      (∃ u, Left answers t n u 0) ∨ (∃ u m, Left answers t n u m ∧ 0 < m ∧ answers u m = none) ∨
      Stalls answers t n := by
    intro m
    induction m using Nat.strongRecOn with
    | ind m ih =>
        intro u h
        obtain rfl | hm := Nat.eq_zero_or_pos m
        · exact .inl ⟨u, h⟩
        by_cases hzero : ∀ v ≥ u, answers v m = some 0
        · exact .inr (.inr ⟨u, m, h, hm, hzero⟩)
        -- the first answer that is not zero
        have hexists : ∃ v, u ≤ v ∧ answers v m ≠ some 0 := by simpa using hzero
        classical
        obtain ⟨hv, hanswer⟩ := Nat.find_spec hexists
        have hwait := h.wait hm hv fun x hx hlt => not_not.mp fun hne =>
          Nat.find_min hexists hlt ⟨hx, hne⟩
        cases hserved : answers (Nat.find hexists) m with
        | none => exact .inr (.inl ⟨_, m, hwait, hm, hserved⟩)
        | some c =>
            have hc : c ≠ 0 := fun hc => hanswer (hserved.trans (congrArg some hc))
            exact ih (m - c) (by omega) _ (hwait.next hm hserved)
  exact hfrom n t .start

/-- Answers that are never zero do not stall. -/
theorem not_stalls (h : ∀ u m, 0 < m → answers u m ≠ some 0) : ¬Stalls answers t n := by
  rintro ⟨u, m, -, hm, hzero⟩
  exact h u m hm (hzero u le_rfl)

end Left

/-- A sequence of requests: a single one that has to be served at once, or a loop, and then more. -/
inductive Plan where
  | once (n : Nat)
  | all (n : Nat)
  | andThen (first second : Plan)

namespace Plan

variable (answers : Answers)

/-- From `t` on, everything is served by `u`. -/
def Completes : Plan → Nat → Nat → Prop
  | once n, t, u => u = t + 1 ∧ ∃ c, answers t n = some c ∧ n ≤ c
  | all n, t, u => Left answers t n u 0
  | andThen first second, t, u => ∃ v, first.Completes t v ∧ second.Completes v u

/-- From `t` on, there is a request for `m` units at the time `u`. -/
def Asks : Plan → Nat → Nat → Nat → Prop
  | once n, t, u, m => u = t ∧ m = n
  | all n, t, u, m => Left answers t n u m ∧ 0 < m
  | andThen first second, t, u, m =>
      first.Asks t u m ∨ ∃ v, first.Completes answers t v ∧ second.Asks v u m

/-- A request fails, or one that has to be served at once is served in part. -/
def Fails : Plan → Nat → Prop
  | once n, t => ∀ c, answers t n = some c → c < n
  | all n, t => ∃ u m, Left answers t n u m ∧ 0 < m ∧ answers u m = none
  | andThen first second, t => first.Fails t ∨ ∃ u, first.Completes answers t u ∧ second.Fails u

def Stalls : Plan → Nat → Prop
  | once _, _ => False
  | all n, t => Requests.Stalls answers t n
  | andThen first second, t => first.Stalls t ∨ ∃ u, first.Completes answers t u ∧ second.Stalls u

variable {answers}

theorem completes_or_fails_or_stalls (plan : Plan) (t : Nat) :
    (∃ u, plan.Completes answers t u) ∨ plan.Fails answers t ∨ plan.Stalls answers t := by
  induction plan generalizing t with
  | once n =>
      by_cases hserved : ∃ c, answers t n = some c ∧ n ≤ c
      · exact .inl ⟨t + 1, rfl, hserved⟩
      · exact .inr (.inl fun c hc => Nat.lt_of_not_le fun hle => hserved ⟨c, hc, hle⟩)
  | all n => exact Requests.completes_or_fails_or_stalls answers t n
  | andThen first second ihfirst ihsecond =>
      obtain ⟨u, hfirst⟩ | hfirst | hfirst := ihfirst t
      · obtain ⟨v, hsecond⟩ | hsecond | hsecond := ihsecond u
        · exact .inl ⟨v, u, hfirst, hsecond⟩
        · exact .inr (.inl (.inr ⟨u, hfirst, hsecond⟩))
        · exact .inr (.inr (.inr ⟨u, hfirst, hsecond⟩))
      · exact .inr (.inl (.inl hfirst))
      · exact .inr (.inr (.inl hfirst))

theorem not_stalls (h : ∀ u m, 0 < m → answers u m ≠ some 0) (plan : Plan) (t : Nat) :
    ¬plan.Stalls answers t := by
  induction plan generalizing t with
  | once n => exact id
  | all n => exact Requests.not_stalls h
  | andThen first second ihfirst ihsecond =>
      rintro (hfirst | ⟨u, -, hsecond⟩)
      · exact ihfirst t hfirst
      · exact ihsecond u hsecond

/-- An error that is reported to any of the requests is a failure. -/
theorem Asks.fails {plan : Plan} {t u m : Nat} (h : plan.Asks answers t u m)
    (herror : answers u m = none) : plan.Fails answers t := by
  induction plan generalizing t with
  | once n =>
      obtain ⟨rfl, rfl⟩ := h
      exact fun c hc => absurd (herror.symm.trans hc) (by simp)
  | all n => exact ⟨u, m, h.1, h.2, herror⟩
  | andThen first second ihfirst ihsecond =>
      rcases h with hfirst | ⟨v, hfirst, hsecond⟩
      · exact .inl (ihfirst hfirst)
      · exact .inr ⟨v, hfirst, ihsecond hsecond⟩

end Plan

section Follows

variable {σ ε α β : Type} {answers : Answers} {body : β → Prog σ ε (β ⊕ α)}
  {inv : Nat → Nat → β → σ → Prop}

/-- One iteration of `body` makes one request; `inv u m` holds at the time `u` with `m` units left. -/
def Follows (answers : Answers) (body : β → Prog σ ε (β ⊕ α)) (inv : Nat → Nat → β → σ → Prop) : Prop :=
  ∀ ⦃u m c b s⦄, inv u m b s → 0 < m → answers u m = some c →
    ∃ b' s', Ends (body b) s (.ok (.inl b')) s' ∧ inv (u + 1) (m - c) b' s'

variable {t n u m : Nat} {b : β} {s : σ}

/-- The loop gets to where the requests get. -/
theorem Follows.reaches (hbody : Follows answers body inv) (hs : inv t n b s)
    (h : Left answers t n u m) :
    ∃ b' s', inv u m b' s' ∧ ∀ r v, Ends (loop body b) s r v ↔ Ends (loop body b') s' r v := by
  induction h with
  | start => exact ⟨b, s, hs, fun _ _ => Iff.rfl⟩
  | next _ hm hserved ih =>
      obtain ⟨b', s', hinv, hsame⟩ := ih
      obtain ⟨b'', s'', hstep, hinv'⟩ := hbody hinv hm hserved
      exact ⟨b'', s'', hinv', fun r v => (hsame r v).trans hstep.loop_next⟩

theorem Follows.diverges (hbody : Follows answers body inv) (hs : inv t n b s) (h : Stalls answers t n)
    (r : Except ε α) (v : σ) : ¬Ends (loop body b) s r v := by
  obtain ⟨u, m, hleft, hm, hzero⟩ := h
  obtain ⟨b', s', hinv, hsame⟩ := hbody.reaches hs hleft
  rw [hsame]
  refine loop_diverges (fun b s => ∃ x ≥ u, inv x m b s) ?_ ⟨u, le_rfl, hinv⟩
  rintro b s ⟨x, hx, hinv⟩
  obtain ⟨b', s', hstep, hinv'⟩ := hbody hinv hm (hzero x hx)
  exact ⟨b', s', hstep, x + 1, Nat.le_succ_of_le hx, hinv'⟩

/-- A loop that ends has come to an iteration with nothing left, or with a request that fails. -/
theorem Follows.ends_last {r : Except ε α} {v : σ} (hbody : Follows answers body inv) (hs : inv t n b s)
    (h : Ends (loop body b) s r v) :
    ∃ u m b' s', Left answers t n u m ∧ inv u m b' s' ∧ (m = 0 ∨ 0 < m ∧ answers u m = none) ∧
      Ends (loop body b') s' r v := by
  obtain ⟨u, hleft⟩ | ⟨u, m, hleft, hm, hanswer⟩ | hstalls := completes_or_fails_or_stalls answers t n
  · obtain ⟨b', s', hinv, hsame⟩ := hbody.reaches hs hleft
    exact ⟨u, 0, b', s', hleft, hinv, .inl rfl, (hsame r v).mp h⟩
  · obtain ⟨b', s', hinv, hsame⟩ := hbody.reaches hs hleft
    exact ⟨u, m, b', s', hleft, hinv, .inr ⟨hm, hanswer⟩, (hsame r v).mp h⟩
  · exact absurd h (hbody.diverges hs hstalls r v)

end Follows

end Requests
