import Aeslib.LibBytes

/-!
Computations whose control flow and memory addresses are observed. A `Leaky` value comes with the
trace of the branches taken and the indices accessed on the way to it. Two runs are `Alike` if their
traces are the same: this is closed under sequencing and loops as long as nothing that differs
reaches a branch or an index. Two runs `Diverge` if they are seen to do different things after the
same beginning; whatever follows does not hide that.
-/

namespace Leakage

inductive Observation where
  | branch (taken : Bool)
  | access (index : Nat)
  deriving DecidableEq

structure Leaky (α : Type) where
  value : α
  trace : List Observation

instance : Monad Leaky where
  pure a := ⟨a, []⟩
  bind p f := ⟨(f p.value).value, p.trace ++ (f p.value).trace⟩

variable {α β γ δ ι σ τ : Type}

def branch (c : Bool) : Leaky Bool := ⟨c, [.branch c]⟩

/-- A conditional expression, which is compiled to a jump or to a selection between its two values. -/
def conditional (jumps c : Bool) (x y : α) : Leaky α :=
  ⟨if c then x else y, if jumps then [.branch c] else []⟩

def access (i : Nat) : Leaky Unit := ⟨(), [.access i]⟩

/-- `v[i]`. -/
def getAt {size : Nat} [Inhabited α] (v : Vector α size) (i : Nat) : Leaky α := ⟨v[i]!, [.access i]⟩

def getListAt [Inhabited α] (l : List α) (i : Nat) : Leaky α := ⟨l[i]!, [.access i]⟩

/-- `v[i] = x`. -/
def setAt {size : Nat} (v : Vector α size) (i : Nat) (x : α) : Leaky (Vector α size) :=
  ⟨v.setIfInBounds i x, [.access i]⟩

/-- A loop over `indices`; its condition is a branch before each iteration and at the end. -/
def forEach (body : σ → ι → Leaky σ) : List ι → σ → Leaky σ
  | [], s => do
      let _ ← branch false
      pure s
  | i :: indices, s => do
      let _ ← branch true
      let s ← body s i
      forEach body indices s

@[simp] theorem value_pure (a : α) : (pure a : Leaky α).value = a := rfl

@[simp] theorem value_bind (p : Leaky α) (f : α → Leaky β) : (p >>= f).value = (f p.value).value := rfl

@[simp] theorem value_branch (c : Bool) : (branch c).value = c := rfl

@[simp] theorem value_conditional (jumps c : Bool) (x y : α) :
    (conditional jumps c x y).value = if c then x else y := rfl

@[simp] theorem value_access (i : Nat) : (access i).value = () := rfl

@[simp] theorem value_getAt {size : Nat} [Inhabited α] (v : Vector α size) (i : Nat) :
    (getAt v i).value = v[i]! := rfl

@[simp] theorem value_getListAt [Inhabited α] (l : List α) (i : Nat) :
    (getListAt l i).value = l[i]! := rfl

@[simp] theorem value_setAt {size : Nat} (v : Vector α size) (i : Nat) (x : α) :
    (setAt v i x).value = v.setIfInBounds i x :=
  rfl

@[simp] theorem value_if (c : Bool) (p q : Leaky α) :
    (branch c >>= fun b => if b then p else q).value = if c then p.value else q.value := by
  cases c <;> rfl

@[simp] theorem value_forEach (body : σ → ι → Leaky σ) (indices : List ι) (s : σ) :
    (forEach body indices s).value = indices.foldl (fun s i => (body s i).value) s := by
  induction indices generalizing s with
  | nil => rfl
  | cons i indices ih => exact ih (body s i).value

theorem trace_bind (p : Leaky α) (f : α → Leaky β) :
    (p >>= f).trace = p.trace ++ (f p.value).trace := rfl

structure Alike (p : Leaky α) (q : Leaky β) : Prop where
  trace_eq : p.trace = q.trace

theorem alike_pure (a : α) (b : β) : Alike (pure a) (pure b) := ⟨rfl⟩

theorem alike_conditional (c c' : Bool) (x y x' y' : α) :
    Alike (conditional false c x y) (conditional false c' x' y') :=
  ⟨rfl⟩

theorem alike_getAt {m n : Nat} [Inhabited α] [Inhabited β] (v : Vector α m) (v' : Vector β n)
    (i : Nat) :
    Alike (getAt v i) (getAt v' i) := ⟨rfl⟩

theorem alike_getListAt [Inhabited α] [Inhabited β] (l : List α) (l' : List β) (i : Nat) :
    Alike (getListAt l i) (getListAt l' i) := ⟨rfl⟩

theorem alike_setAt {m n : Nat} (v : Vector α m) (v' : Vector β n) (i : Nat) (x : α) (x' : β) :
    Alike (setAt v i x) (setAt v' i x') := ⟨rfl⟩

section Bind

variable {p : Leaky α} {q : Leaky β} {f : α → Leaky γ} {g : β → Leaky δ}

/-- The rule where the values are known. -/
theorem Alike.bind_value (h : Alike p q) (hf : Alike (f p.value) (g q.value)) :
    Alike (p >>= f) (q >>= g) := by
  constructor
  rw [trace_bind, trace_bind, h.trace_eq, hf.trace_eq]

/-- The rule where the values are secret. -/
theorem Alike.bind (h : Alike p q) (hf : ∀ a b, Alike (f a) (g b)) : Alike (p >>= f) (q >>= g) :=
  h.bind_value (hf p.value q.value)

end Bind

/-- A branch on what both runs know. -/
theorem alike_if {c : Bool} {p p' : Leaky α} {q q' : Leaky β} (h : c = true → Alike p q)
    (h' : c = false → Alike p' q') :
    Alike (branch c >>= fun b => if b then p else p') (branch c >>= fun b => if b then q else q') := by
  refine Alike.bind_value ⟨rfl⟩ ?_
  cases c with
  | false => exact h' rfl
  | true => exact h rfl

theorem alike_forEach {body : σ → ι → Leaky σ} {body' : τ → ι → Leaky τ} {indices : List ι}
    (h : ∀ i ∈ indices, ∀ s t, Alike (body s i) (body' t i)) (s : σ) (t : τ) :
    Alike (forEach body indices s) (forEach body' indices t) := by
  induction indices generalizing s t with
  | nil => exact ⟨rfl⟩
  | cons i indices ih =>
      refine Alike.bind_value ⟨rfl⟩ ((h i List.mem_cons_self s t).bind fun s t => ?_)
      exact ih (fun j hj => h j (List.mem_cons_of_mem i hj)) s t

def Diverge (p : Leaky α) (q : Leaky β) : Prop :=
  ∃ common o o' rest rest', p.trace = common ++ o :: rest ∧ q.trace = common ++ o' :: rest' ∧ o ≠ o'

theorem diverge_conditional {c c' : Bool} (h : c ≠ c') (x y x' y' : α) :
    Diverge (conditional true c x y) (conditional true c' x' y') :=
  ⟨[], .branch c, .branch c', [], [], rfl, rfl, fun heq => h (Observation.branch.inj heq)⟩

section Bind

variable {p : Leaky α} {q : Leaky β} {f : α → Leaky γ} {g : β → Leaky δ}

theorem Diverge.not_alike (h : Diverge p q) : ¬Alike p q := by
  obtain ⟨common, o, o', rest, rest', hp, hq, hne⟩ := h
  rintro ⟨heq⟩
  rw [hp, hq] at heq
  exact hne (List.cons.inj (List.append_cancel_left heq)).1

theorem Diverge.bind (h : Diverge p q) : Diverge (p >>= f) (q >>= g) := by
  obtain ⟨common, o, o', rest, rest', hp, hq, hne⟩ := h
  refine ⟨common, o, o', rest ++ (f p.value).trace, rest' ++ (g q.value).trace, ?_, ?_, hne⟩
  · rw [trace_bind, hp, List.append_assoc, List.cons_append]
  · rw [trace_bind, hq, List.append_assoc, List.cons_append]

theorem Alike.bind_diverge (h : Alike p q) (hf : Diverge (f p.value) (g q.value)) :
    Diverge (p >>= f) (q >>= g) := by
  obtain ⟨common, o, o', rest, rest', hp, hq, hne⟩ := hf
  refine ⟨p.trace ++ common, o, o', rest, rest', ?_, ?_, hne⟩
  · rw [trace_bind, hp, List.append_assoc]
  · rw [trace_bind, hq, h.trace_eq, List.append_assoc]

end Bind

/-- A loop whose first iteration is told apart. -/
theorem diverge_forEach {body : σ → ι → Leaky σ} {body' : τ → ι → Leaky τ} {i : ι}
    {indices : List ι} {s : σ} {t : τ} (h : Diverge (body s i) (body' t i)) :
    Diverge (forEach body (i :: indices) s) (forEach body' (i :: indices) t) :=
  Alike.bind_diverge (p := branch true) (q := branch true) ⟨rfl⟩ h.bind

section Fill

open Fill

variable {size : Nat}

theorem fill_add (f : Vector α size → Nat → α) (a m n : Nat) (v : Vector α size) :
    fill f (a + m) n (fill f a m v) = fill f a (m + n) v := by
  rw [fill, fill, fill, ← List.foldl_append, List.range'_append_1]

/-- The entries outside of the range keep their values. -/
theorem fill_of_ge [Inhabited α] (f : Vector α size → Nat → α) (a : Nat) {j n : Nat}
    (v : Vector α size) (hj : a + n ≤ j) : (fill f a n v)[j]! = v[j]! := by
  induction n with
  | zero => rfl
  | succ n ih => rw [fill_succ, getElem!_def,
      Vector.getElem?_setIfInBounds_ne (by omega), ← getElem!_def, ih (by omega)]

/-- Two bodies that agree on the way. -/
theorem fill_congr {f g : Vector α size → Nat → α} (a n : Nat) (v : Vector α size)
    (h : ∀ k < n, f (fill g a k v) (a + k) = g (fill g a k v) (a + k)) :
    fill f a n v = fill g a n v := by
  induction n with
  | zero => rfl
  | succ n ih => rw [fill_succ, fill_succ, ih fun k hk => h k (Nat.lt_succ_of_lt hk),
      h n (Nat.lt_succ_self n)]

/-- A loop that fills the whole array. -/
theorem fill_eq_ofFn [Inhabited α] (g : Nat → α) (v : Vector α size) :
    fill (fun _ i => g i) 0 size v = Vector.ofFn fun i : Fin size => g i := by
  refine Vector.ext fun i hi => ?_
  have hentry := fill_entry (fun _ i => g i) 0 v hi (by omega)
  rw [Nat.zero_add] at hentry
  rwa [Vector.getElem_ofFn, ← getElem!_pos (fill _ 0 size v) i hi]

/-- A loop that updates each entry. -/
theorem fill_update [Inhabited α] (h : α → Nat → α) (v : Vector α size) :
    fill (fun v i => h v[i]! i) 0 size v = Vector.ofFn fun i : Fin size => h v[i.val]! i := by
  rw [← fill_eq_ofFn (fun i => h v[i]! i) v]
  refine fill_congr 0 size v fun k _ => ?_
  simp only [Nat.zero_add]
  rw [fill_of_ge _ 0 v (by omega)]

/-- The loop with its indices counted from the start of the range. -/
theorem foldl_range_eq_fill (f : Vector α size → Nat → α) (a n : Nat) (v : Vector α size) :
    (List.range n).foldl (fun v r => v.setIfInBounds (a + r) (f v (a + r))) v = fill f a n v := by
  rw [fill, List.range'_eq_map_range, List.foldl_map]

/-- A loop over rows of `k` entries. -/
theorem foldl_fill (f : Vector α size → Nat → α) (k m : Nat) (v : Vector α size) :
    (List.range m).foldl (fun v c => fill f (c * k) k v) v = fill f 0 (m * k) v := by
  induction m with
  | zero => rw [Nat.zero_mul]; rfl
  | succ m ih =>
      have hadd := fill_add f 0 (m * k) k v
      rw [Nat.zero_add] at hadd
      rw [List.range_succ, List.foldl_append, List.foldl_cons, List.foldl_nil, ih, hadd, Nat.succ_mul]

end Fill

end Leakage
