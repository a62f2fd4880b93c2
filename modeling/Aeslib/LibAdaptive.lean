import Mathlib

/-!
Adaptive guessing. A strategy chooses each attempt from the answers to the earlier ones. As long as
every attempt fails the answers are those of an oracle that knows no secret, so a secret for which
one of the first `q` attempts succeeds is among the candidates of `q` attempts that can be computed
without it.
-/

namespace Adaptive

variable {Attempt Answer Point : Type*}

/-- The answers to the first `n` attempts. -/
def answers (oracle : Attempt → Answer) (choose : List Answer → Attempt) : Nat → List Answer
  | 0 => []
  | n + 1 => answers oracle choose n ++ [oracle (choose (answers oracle choose n))]

/-- Attempt `n`. -/
def attempt (oracle : Attempt → Answer) (choose : List Answer → Attempt) (n : Nat) : Attempt :=
  choose (answers oracle choose n)

section Strategy

variable {oracle oracle' : Attempt → Answer} {choose : List Answer → Attempt}

theorem answers_succ (n : Nat) :
    answers oracle choose (n + 1) = answers oracle choose n ++ [oracle (attempt oracle choose n)] := rfl

theorem mem_answers {r : Answer} {n : Nat} (h : r ∈ answers oracle choose n) :
    ∃ i < n, r = oracle (attempt oracle choose i) := by
  induction n with
  | zero => exact absurd h List.not_mem_nil
  | succ n ih =>
      rcases List.mem_append.mp h with h | h
      · obtain ⟨i, hi, hr⟩ := ih h
        exact ⟨i, by omega, hr⟩
      · exact ⟨n, by omega, List.mem_singleton.mp h⟩

/-- Two oracles that answer the attempts alike see the same attempts. -/
theorem answers_congr {n : Nat}
    (h : ∀ i < n, oracle (attempt oracle choose i) = oracle' (attempt oracle choose i)) :
    answers oracle choose n = answers oracle' choose n := by
  induction n with
  | zero => rfl
  | succ n ih =>
      have hbefore := ih fun i hi => h i (by omega)
      have hlast := h n (by omega)
      rw [answers_succ, hlast, attempt, hbefore]
      rfl

/-- Up to the first attempt that succeeds, the attempts are those against `refuse`. -/
theorem first_success {refuse : Attempt → Answer} {succeeds : Attempt → Prop}
    (hrefuse : ∀ a, ¬succeeds a → oracle a = refuse a) {i : Nat}
    (hsuccess : succeeds (attempt oracle choose i)) :
    ∃ j ≤ i, succeeds (attempt refuse choose j) := by
  induction i using Nat.strong_induction_on with
  | _ i ih =>
      by_cases hearlier : ∃ j < i, succeeds (attempt oracle choose j)
      · obtain ⟨j, hj, hsuccess⟩ := hearlier
        obtain ⟨k, hk, hfirst⟩ := ih j hj hsuccess
        exact ⟨k, by omega, hfirst⟩
      · have hsame : answers oracle choose i = answers refuse choose i :=
          answers_congr fun j hj => hrefuse _ fun hfails => hearlier ⟨j, hj, hfails⟩
        exact ⟨i, le_rfl, by rwa [attempt, ← hsame]⟩

end Strategy

/-- The candidates of the first `q` attempts against `refuse`. -/
def guesses (refuse : Attempt → Answer) (choose : List Answer → Attempt)
    (candidates : Attempt → Set Point) (q : Nat) :
    Set Point := ⋃ i ∈ Finset.range q, candidates (attempt refuse choose i)

variable {refuse : Attempt → Answer} {choose : List Answer → Attempt} {candidates : Attempt → Set Point}

theorem mem_guesses {oracle : Attempt → Answer} {succeeds : Attempt → Prop} {x : Point} {q : Nat}
    (hrefuse : ∀ a, ¬succeeds a → oracle a = refuse a) (hcandidate : ∀ a, succeeds a → x ∈ candidates a)
    (h : ∃ i < q, succeeds (attempt oracle choose i)) : x ∈ guesses refuse choose candidates q := by
  obtain ⟨i, hi, hsuccess⟩ := h
  obtain ⟨j, hj, hfirst⟩ := first_success hrefuse hsuccess
  exact Set.mem_biUnion (Finset.mem_coe.mpr (Finset.mem_range.mpr (by omega))) (hcandidate _ hfirst)

/-- **The union bound.** -/
theorem encard_guesses_le {b : Nat} (h : ∀ a, (candidates a).encard ≤ b) (q : Nat) :
    (guesses refuse choose candidates q).encard ≤ (q * b : ℕ) := by
  calc (guesses refuse choose candidates q).encard
      ≤ ∑ i ∈ Finset.range q, (candidates (attempt refuse choose i)).encard :=
      Finset.set_encard_biUnion_le _ _
    _ ≤ ∑ _i ∈ Finset.range q, (b : ℕ∞) := Finset.sum_le_sum fun i _ => h _
    _ = (q * b : ℕ) := by rw [Finset.sum_const, Finset.card_range, nsmul_eq_mul, Nat.cast_mul]

end Adaptive
