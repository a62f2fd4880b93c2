import Aeslib.KeyObjects

/-!
The budget of `AesGcm::encrypt` under threads. A call takes the count with one atomic `fetch_add`,
compares it, and only then draws its nonce; between two steps of a call any steps of other calls may
come, and between the calls on an object its key may move. The counts handed out for one key
material are 0, 1, 2 and so on, each once, so the comparison lets through `2^32` calls.
-/

namespace Aeslib

open Prog

/-- How far a call has come. -/
inductive CallPhase where
  /-- Refused for the size of its plaintext. -/
  | rejected (e : Error)
  | started
  /-- The `fetch_add` has handed out `prior`. -/
  | counted (prior : BitVec 64)
  /-- Refused for the count. -/
  | limited (prior : BitVec 64) (e : Error)
  | cleared (prior : BitVec 64)
  | drawFailed (prior : BitVec 64) (e : Error)
  | drew (prior : BitVec 64) (nonce : Vector Byte kGcmNonceSizeBytes)
  | returned (prior : BitVec 64) (container : GcmContainer)

namespace CallPhase

def prior : CallPhase → Option (BitVec 64)
  | rejected _ | started => none
  | counted p | limited p _ | cleared p | drawFailed p _ | drew p _ | returned p _ => some p

/-- The call has gone on to the draw of its nonce. -/
def draws : CallPhase → Bool
  | cleared _ | drawFailed _ _ | drew _ _ | returned _ _ => true
  | _ => false

def isReturned : CallPhase → Bool
  | returned _ _ => true
  | _ => false

/-- The call uses the key object. -/
def inFlight : CallPhase → Bool
  | started | counted _ | cleared _ | drew _ _ => true
  | _ => false

/-- What the caller sees. -/
def outcome : CallPhase → Option (Except Error GcmContainer)
  | rejected e | limited _ e | drawFailed _ e => some (.error e)
  | returned _ container => some (.ok container)
  | _ => none

/-- The steps of a call after its `fetch_add`; each is a run of the code between two of them. -/
inductive Advance (key : SecretKey) (plaintext aad : List Byte) : CallPhase → CallPhase → Prop
  | pass {prior w} : Ends (checkGcmInvocationCount prior : Prog World Error Unit) w (.ok ()) w →
      Advance key plaintext aad (counted prior) (cleared prior)
  | refuse {prior w e} : Ends (checkGcmInvocationCount prior : Prog World Error Unit) w (.error e) w →
      Advance key plaintext aad (counted prior) (limited prior e)
  | draw {os prior w nonce w'} : Ends (generateNonce os) w (.ok nonce) w' →
      Advance key plaintext aad (cleared prior) (drew prior nonce)
  | drawFails {os prior w e w'} : Ends (generateNonce os) w (.error e) w' →
      Advance key plaintext aad (cleared prior) (drawFailed prior e)
  | finish {os prior nonce w container w'} :
      Ends (AesGcm.encryptUnder os key nonce plaintext aad) w (.ok container) w' →
      Advance key plaintext aad (drew prior nonce) (returned prior container)

end CallPhase

structure Call where
  object : Nat
  plaintext : List Byte
  aad : List Byte
  /-- What the object held when the call counted. -/
  material : Option Nat := none
  phase : CallPhase := .started

/-- The key of the material while its count stands at `prior`. -/
def Material.withCount (x : Material) (prior : BitVec 64) : SecretKey :=
  { bytes := x.bytes, size := x.size, gcmInvocations := prior }

/-- How a call on the material `x` has come to its phase: the parts of `AesGcm::encrypt` that have
run, with their answers. -/
def CallPhase.Explained (x : Material) (plaintext aad : List Byte) : CallPhase → Prop
  | rejected _ | started => False
  | counted _ | cleared _ => True
  | limited p e => ∃ w, Ends (checkGcmInvocationCount p : Prog World Error Unit) w (.error e) w
  | drawFailed _ e => ∃ os w w', Ends (generateNonce os) w (.error e) w'
  | drew _ nonce => ∃ os w w', Ends (generateNonce os) w (.ok nonce) w'
  | returned p container => ∃ os w w' nonce, Ends (generateNonce os) w (.ok nonce) w' ∧
      container = AesGcm.gcmContainer (x.withCount p) nonce plaintext aad

/-- The size check of `AesGcm::encrypt` has been made. -/
def Call.Sized (call : Call) : Prop :=
  match call.phase with
  | .rejected e =>
      ∃ w, Ends (AesGcm.validateBlockCount call.plaintext.length : Prog World Error Unit) w (.error e) w
  | _ => call.plaintext.length ≤ AesGcm.kMaxPlaintextBytes

structure Budget where
  keys : Keys
  /-- All calls made so far. -/
  calls : List Call

def KeyOp.involves (i : Nat) : KeyOp → Prop
  | create j _ | abandon j _ | destroy j | encrypt j => i = j
  | moveConstruct j k | moveAssign j k => i = j ∨ i = k

/-- The operations between calls. -/
def KeyOp.isCall : KeyOp → Bool
  | encrypt _ => true
  | _ => false

namespace Budget

def init : Budget := { keys := Keys.init, calls := [] }

inductive Step : Budget → Budget → Prop
  | keyOp {s : Budget} (op : KeyOp) (henabled : op.Enabled s.keys) (hop : op.isCall = false)
      (hidle : ∀ call ∈ s.calls, call.phase.inFlight = true → ¬op.involves call.object) :
      Step s { s with keys := op.apply s.keys }
  | reject {s : Budget} {i plaintext aad w e} (halive : (s.keys.objects i).alive = true)
      (hsize : Ends (AesGcm.validateBlockCount plaintext.length : Prog World Error Unit) w
        (.error e) w) :
      Step s { s with calls := s.calls ++ [{ object := i, plaintext, aad, phase := .rejected e }] }
  | start {s : Budget} {i plaintext aad w} (halive : (s.keys.objects i).alive = true)
      (hsize : Ends (AesGcm.validateBlockCount plaintext.length : Prog World Error Unit) w (.ok ()) w) :
      Step s { s with calls := s.calls ++ [{ object := i, plaintext, aad }] }
  | count {s : Budget} {before after : List Call} {call : Call}
      (hcalls : s.calls = before ++ call :: after)
      (hphase : call.phase = .started) :
      Step s {
        keys := (KeyOp.encrypt call.object).apply s.keys
        calls := before ++ { call with
          material := s.keys.held call.object
          phase := .counted (consumeGcmInvocation (s.keys.objects call.object).key).1 } :: after }
  | advance {s : Budget} {before after : List Call} {call : Call} {phase : CallPhase}
      (hcalls : s.calls = before ++ call :: after)
      (hadvance : CallPhase.Advance (s.keys.objects call.object).key call.plaintext call.aad
        call.phase phase) :
      Step s { s with calls := before ++ { call with phase } :: after }

/-- The calls that have counted on the material. -/
def onMaterial (s : Budget) (m : Nat) : List Call :=
  s.calls.filter fun call => decide (call.material = some m)

/-- The count that a call was handed on the material. -/
def priorOf (m : Nat) (call : Call) : Option (BitVec 64) :=
  if call.material = some m then call.phase.prior else none

def priors (s : Budget) (m : Nat) : List (BitVec 64) := s.calls.filterMap (priorOf m)

end Budget

/-- The encryptions of a material, none before it is created. -/
def Keys.encryptions (s : Keys) (m : Nat) : Nat :=
  match s.materials[m]? with
  | none => 0
  | some x => x.encryptions

theorem KeyOp.encryptions_apply {op : KeyOp} (hop : op.isCall = false) (s : Keys) (m : Nat) :
    (op.apply s).encryptions m = s.encryptions m := by
  cases op with
  | create i key =>
      simp only [Keys.encryptions, KeyOp.apply, KeyOp.applyMaterials]
      rcases lt_trichotomy m s.materials.length with hlt | rfl | hgt
      · rw [List.getElem?_append_left hlt]
      · simp
      · rw [List.getElem?_eq_none (by simpa using hgt), List.getElem?_eq_none hgt.le]
  | encrypt i => simp [KeyOp.isCall] at hop
  | _ => rfl

theorem Keys.encryptions_encrypt {s : Keys} (h : s.Inv) (i m : Nat) :
    ((KeyOp.encrypt i).apply s).encryptions m =
      s.encryptions m + if s.held i = some m then 1 else 0 := by
  simp only [Keys.encryptions, KeyOp.apply, KeyOp.applyMaterials]
  cases hheld : s.held i with
  | none => simp
  | some m' =>
      by_cases hm : m' = m
      · subst hm
        obtain ⟨-, x, hx, -⟩ := hheld ▸ h.agrees i
        simp [hx]
      · have hne : ¬some m' = some m := fun heq => hm (Option.some.inj heq)
        simp only [List.getElem?_modify_ne _ _ hm, if_neg hne, Nat.add_zero]

/-- The count handed out is the number of encryptions so far. -/
theorem Keys.Inv.prior_eq {s : Keys} (h : s.Inv) {i m : Nat} (hheld : s.held i = some m) :
    (consumeGcmInvocation (s.objects i).key).1 = BitVec.ofNat 64 (s.encryptions m) := by
  obtain ⟨-, x, hx, hin⟩ := hheld ▸ h.agrees i
  rw [Keys.encryptions, hx]
  exact hin.invocations

namespace CallPhase

/-- The comparison has been made where the call has gone on or been refused. -/
def Sound : CallPhase → Prop
  | rejected e => ∃ what, e = .limitError what
  | started | counted _ => True
  | limited p e => kGcmInvocationLimit ≤ p ∧ ∃ what, e = .limitError what
  | cleared p | drawFailed p _ | drew p _ | returned p _ => p < kGcmInvocationLimit

variable {key : SecretKey} {plaintext aad : List Byte} {phase phase' : CallPhase}

theorem Advance.prior_eq (h : Advance key plaintext aad phase phase') : phase'.prior = phase.prior := by
  cases h <;> rfl

theorem Advance.inFlight (h : Advance key plaintext aad phase phase') : phase.inFlight = true := by
  cases h <;> rfl

theorem Advance.sound (h : Advance key plaintext aad phase phase') (hsound : phase.Sound) :
    phase'.Sound := by
  cases h with
  | @pass prior w hcheck =>
      refine BitVec.not_le.mp fun hle => ?_
      exact absurd (hcheck.unique (ends_raiseIf_pos hle)).1 (by simp)
  | @refuse prior w e hcheck =>
      by_cases hle : prior ≥ kGcmInvocationLimit
      · exact ⟨hle, _, Except.error.inj (hcheck.unique (ends_raiseIf_pos hle)).1⟩
      · exact absurd (hcheck.unique (ends_raiseIf_neg hle)).1 (by simp)
  | draw _ => exact hsound
  | drawFails _ => exact hsound
  | finish _ => exact hsound

end CallPhase

namespace Budget

structure Inv (s : Budget) : Prop where
  keys : s.keys.Inv
  priors : ∀ m, (s.priors m).Perm (tickets 64 (s.keys.encryptions m))
  sound : ∀ call ∈ s.calls, call.phase.Sound
  counted : ∀ call ∈ s.calls, call.material ≠ none → call.phase.prior ≠ none
  alive : ∀ call ∈ s.calls, call.phase.inFlight = true → (s.keys.objects call.object).alive = true

section Step

variable {s : Budget}

/-- The calls between which one call stands. -/
theorem priors_split {calls before after : List Call} {call : Call}
    (hcalls : calls = before ++ call :: after) (m : Nat) :
    (calls.filterMap (priorOf m)).Perm
      ((priorOf m call).toList ++ (before ++ after).filterMap (priorOf m)) := by
  rw [hcalls, List.filterMap_append, List.filterMap_append]
  cases hprior : priorOf m call with
  | none => simp [hprior]
  | some p =>
      rw [List.filterMap_cons_some hprior]
      exact List.perm_middle

/-- A call that begins has counted on nothing. -/
theorem Inv.append (h : s.Inv) {call : Call} (hmaterial : call.material = none)
    (hsound : call.phase.Sound) (halive : (s.keys.objects call.object).alive = true) :
    ({ s with calls := s.calls ++ [call] } : Budget).Inv where
  keys := h.keys
  priors m := by
    have hprior : priorOf m call = none := by simp [priorOf, hmaterial]
    simpa [Budget.priors, hprior] using h.priors m
  sound c hc := by
    rcases List.mem_append.mp hc with hold | hnew
    · exact h.sound c hold
    · obtain rfl := List.mem_singleton.mp hnew
      exact hsound
  counted c hc := by
    rcases List.mem_append.mp hc with hold | hnew
    · exact h.counted c hold
    · obtain rfl := List.mem_singleton.mp hnew
      exact fun hne => absurd hmaterial hne
  alive c hc := by
    rcases List.mem_append.mp hc with hold | hnew
    · exact h.alive c hold
    · obtain rfl := List.mem_singleton.mp hnew
      exact fun _ => halive

/-- The other calls are as they were. -/
theorem forall_replaced {calls before after : List Call} {call call' : Call} {φ : Call → Prop}
    (hcalls : calls = before ++ call :: after) (hall : ∀ c ∈ calls, φ c) (hnew : φ call') :
    ∀ c ∈ before ++ call' :: after, φ c := by
  subst hcalls
  intro c hc
  rcases List.mem_append.mp hc with hbefore | hrest
  · exact hall c (List.mem_append_left _ hbefore)
  · rcases List.mem_cons.mp hrest with rfl | hafter
    · exact hnew
    · exact hall c (List.mem_append_right _ (List.mem_cons_of_mem _ hafter))

/-- The `fetch_add` hands out the next ticket of the material that the object holds. -/
theorem Inv.count (h : s.Inv) {before after : List Call} {call : Call}
    (hcalls : s.calls = before ++ call :: after) (hphase : call.phase = .started) :
    ({
      keys := (KeyOp.encrypt call.object).apply s.keys
      calls := before ++ { call with
        material := s.keys.held call.object
        phase := .counted (consumeGcmInvocation (s.keys.objects call.object).key).1 } :: after } :
          Budget).Inv where
  keys := h.keys.encrypt call.object (h.alive call (by simp [hcalls]) (by rw [hphase]; rfl))
  priors m := by
    have hold := priors_split hcalls m
    have hnone : priorOf m call = none := by simp [priorOf, hphase, CallPhase.prior]
    rw [hnone, Option.toList_none, List.nil_append] at hold
    refine (priors_split rfl m).trans ?_
    rw [Keys.encryptions_encrypt h.keys]
    by_cases hheld : s.keys.held call.object = some m
    · have hprior := h.keys.prior_eq hheld
      simp only [priorOf, hheld, if_true, CallPhase.prior, hprior, Option.toList_some, tickets_succ]
      refine (List.Perm.cons _ (hold.symm.trans (h.priors m))).trans ?_
      exact (List.perm_append_singleton _ _).symm
    · simp only [priorOf, hheld, if_false, Option.toList_none, List.nil_append, Nat.add_zero]
      exact hold.symm.trans (h.priors m)
  sound := forall_replaced hcalls h.sound trivial
  counted := forall_replaced hcalls h.counted fun _ => by simp [CallPhase.prior]
  alive := by
    have hobjects (i : Nat) (hi : (s.keys.objects i).alive = true) :
        (((KeyOp.encrypt call.object).apply s.keys).objects i).alive = true := by
      simp only [KeyOp.apply, KeyOp.applyObjects]
      by_cases heq : i = call.object
      · rw [heq, Function.update_self]
      · rwa [Function.update_of_ne heq]
    refine forall_replaced hcalls (fun c hc hflight => hobjects c.object (h.alive c hc hflight))
      fun _ => ?_
    exact hobjects call.object (h.alive call (by simp [hcalls]) (by rw [hphase]; rfl))

theorem Inv.advance (h : s.Inv) {before after : List Call} {call : Call} {phase : CallPhase}
    (hcalls : s.calls = before ++ call :: after) {key : SecretKey} {plaintext aad : List Byte}
    (hadvance : CallPhase.Advance key plaintext aad call.phase phase) :
    ({ s with calls := before ++ { call with phase } :: after } : Budget).Inv where
  keys := h.keys
  priors m := by
    have hsame : priorOf m { call with phase } = priorOf m call := by
      simp only [priorOf, hadvance.prior_eq]
    refine (priors_split rfl m).trans ?_
    rw [hsame]
    exact (priors_split hcalls m).symm.trans (h.priors m)
  sound := forall_replaced hcalls h.sound (hadvance.sound (h.sound call (by simp [hcalls])))
  counted := by
    refine forall_replaced hcalls h.counted fun hmaterial => ?_
    rw [hadvance.prior_eq]
    exact h.counted call (by simp [hcalls]) hmaterial
  alive := forall_replaced hcalls h.alive fun _ => h.alive call (by simp [hcalls]) hadvance.inFlight

/-- The size check refuses with `LimitError`. -/
theorem rejects_limitError {n : Nat} {w : World} {e : Error}
    (h : Ends (AesGcm.validateBlockCount n : Prog World Error Unit) w (.error e) w) :
    ∃ what, e = .limitError what := by
  by_cases hn : n > AesGcm.kMaxPlaintextBytes
  · exact ⟨_, Except.error.inj (h.unique (ends_raiseIf_pos hn)).1⟩
  · exact absurd (h.unique (ends_raiseIf_neg hn)).1 (by simp)

theorem applyObjects_of_not_involves {op : KeyOp} {i : Nat} (h : ¬op.involves i)
    (objects : Nat → KeyObject) : op.applyObjects objects i = objects i := by
  cases op with
  | moveConstruct j k =>
      simp only [KeyOp.involves, not_or] at h
      simp only [KeyOp.applyObjects]
      rw [Function.update_of_ne h.2, Function.update_of_ne h.1]
  | moveAssign j k =>
      simp only [KeyOp.involves, not_or] at h
      simp only [KeyOp.applyObjects]
      split_ifs
      · rfl
      · rw [Function.update_of_ne h.2, Function.update_of_ne h.1]
  | _ => exact Function.update_of_ne h _ _

theorem Inv.step (h : s.Inv) {t : Budget} (hstep : Step s t) : t.Inv := by
  cases hstep with
  | keyOp op henabled hop hidle =>
      refine ⟨h.keys.step ⟨op, henabled, rfl⟩, fun m => ?_, h.sound, h.counted,
        fun call hcall hflight => ?_⟩
      · rw [KeyOp.encryptions_apply hop]
        exact h.priors m
      · have hsame := applyObjects_of_not_involves (hidle call hcall hflight) s.keys.objects
        change (op.applyObjects s.keys.objects call.object).alive = true
        rw [hsame]
        exact h.alive call hcall hflight
  | reject halive hsize => exact h.append rfl (rejects_limitError hsize) halive
  | start halive hsize => exact h.append rfl trivial halive
  | count hcalls hphase => exact h.count hcalls hphase
  | advance hcalls hadvance => exact h.advance hcalls hadvance

end Step

theorem init_inv : init.Inv where
  keys := Keys.init_inv
  priors _ := List.Perm.refl []
  sound _ h := by simp [init] at h
  counted _ h := by simp [init] at h
  alive _ h := by simp [init] at h

theorem reachable_inv {s : Budget} (h : Reaches Step init s) : s.Inv :=
  h.invariant Inv init_inv fun _ _ hinv hstep => hinv.step hstep

/-- Where a call comes from: the checks, draws and encryptions that have brought it to its phase. -/
structure Traced (keys : Keys) (call : Call) : Prop where
  sized : call.Sized
  /-- The object is not moved from under a call. -/
  holds : call.phase.inFlight = true → call.phase.prior ≠ none → call.material = keys.held call.object
  explained : ∀ m, call.material = some m → ∃ x, keys.materials[m]? = some x ∧
    call.phase.Explained x call.plaintext call.aad

section Traced

variable {keys keys' : Keys} {call : Call}

/-- The count of a material does not matter for what was encrypted under it. -/
theorem Explained.of_entry {x y : Material} {plaintext aad : List Byte} {phase : CallPhase}
    (h : phase.Explained x plaintext aad) (hbytes : y.bytes = x.bytes) (hsize : y.size = x.size) :
    phase.Explained y plaintext aad := by
  cases phase with
  | returned p container =>
      obtain ⟨os, w, w', nonce, hnonce, hcontainer⟩ := h
      have hkey : y.withCount p = x.withCount p := by
        rw [Material.withCount, Material.withCount, hbytes, hsize]
      exact ⟨os, w, w', nonce, hnonce, hkey ▸ hcontainer⟩
  | _ => exact h

theorem Traced.of_keys (h : Traced keys call) (hextends : keys.Extends keys')
    (hheld : call.phase.inFlight = true → keys'.held call.object = keys.held call.object) :
    Traced keys' call where
  sized := h.sized
  holds hflight hprior := (h.holds hflight hprior).trans (hheld hflight).symm
  explained m hm := by
    obtain ⟨x, hx, hexplained⟩ := h.explained m hm
    obtain ⟨y, hy, hbytes, hsize, -⟩ := hextends m x hx
    exact ⟨y, hy, Explained.of_entry hexplained hbytes hsize⟩

/-- The key that an object holds, up to the count that it has come to. -/
theorem gcmContainer_withCount {x : Material} {key : SecretKey} (h : x.IsIn key) (prior : BitVec 64)
    (nonce : Vector Byte kGcmNonceSizeBytes) (plaintext aad : List Byte) :
    AesGcm.gcmContainer (x.withCount prior) nonce plaintext aad =
      AesGcm.gcmContainer key nonce plaintext aad := by
  rw [Material.withCount, ← h.bytes, ← h.size]
  rfl

theorem Traced.advance (h : Traced keys call) (hinv : keys.Inv) {phase : CallPhase}
    (hadvance :
      CallPhase.Advance (keys.objects call.object).key call.plaintext call.aad call.phase phase) :
    Traced keys { call with phase } where
  sized := by
    have hsized := h.sized
    rw [Call.Sized] at hsized ⊢
    generalize call.phase = before at hadvance hsized
    cases hadvance <;> exact hsized
  holds _ hprior := h.holds hadvance.inFlight (hadvance.prior_eq ▸ hprior)
  explained m hm := by
    obtain ⟨x, hx, hexplained⟩ := h.explained m hm
    have hholds := h.holds hadvance.inFlight
    refine ⟨x, hx, ?_⟩
    generalize call.phase = before at hadvance hexplained hholds
    cases hadvance with
    | pass _ => trivial
    | @refuse _ w _ hcheck => exact ⟨w, hcheck⟩
    | @draw os _ w _ w' hnonce => exact ⟨os, w, w', hnonce⟩
    | @drawFails os _ w _ w' hnonce => exact ⟨os, w, w', hnonce⟩
    | @finish _ prior nonce v container _ hunder =>
        obtain ⟨os, w, w', hnonce⟩ := hexplained
        -- the object still holds the material
        have hheld : keys.held call.object = some m := (hholds (Option.some_ne_none prior)).symm.trans hm
        obtain ⟨-, y, hy, hin⟩ := hheld ▸ hinv.agrees call.object
        obtain rfl : y = x := Option.some.inj (hy.symm.trans hx)
        refine ⟨os, w, w', nonce, hnonce, ?_⟩
        rw [gcmContainer_withCount hin]
        exact Except.ok.inj
          (hunder.unique (AesGcm.encryptUnder_ends _ v _ nonce call.plaintext call.aad)).1

end Traced

theorem applyHeld_of_not_involves {op : KeyOp} {i : Nat} (h : ¬op.involves i)
    (held : Nat → Option Nat) (count : Nat) : op.applyHeld held count i = held i := by
  cases op with
  | moveConstruct j k =>
      simp only [KeyOp.involves, not_or] at h
      simp only [KeyOp.applyHeld]
      rw [Function.update_of_ne h.2, Function.update_of_ne h.1]
  | moveAssign j k =>
      simp only [KeyOp.involves, not_or] at h
      simp only [KeyOp.applyHeld]
      split_ifs
      · rfl
      · rw [Function.update_of_ne h.2, Function.update_of_ne h.1]
  | encrypt j => rfl
  | _ => exact Function.update_of_ne h _ _

theorem Inv.step_traced {s t : Budget} (h : s.Inv) (htraced : ∀ call ∈ s.calls, Traced s.keys call)
    (hstep : Step s t) : ∀ call ∈ t.calls, Traced t.keys call := by
  cases hstep with
  | keyOp op henabled hop hidle =>
      exact fun call hcall => (htraced call hcall).of_keys (Keys.Step.extends ⟨op, henabled, rfl⟩)
        fun hflight =>
        applyHeld_of_not_involves (hidle call hcall hflight) _ _
  | @reject i plaintext aad w e halive hsize =>
      refine List.forall_mem_append.mpr ⟨htraced, fun call hcall => ?_⟩
      obtain rfl := List.mem_singleton.mp hcall
      exact ⟨⟨w, hsize⟩, fun hflight => absurd hflight (by simp [CallPhase.inFlight]),
        fun m hm => by simp at hm⟩
  | @start i plaintext aad w halive hsize =>
      refine List.forall_mem_append.mpr ⟨htraced, fun call hcall => ?_⟩
      obtain rfl := List.mem_singleton.mp hcall
      refine ⟨?_, fun _ hprior => absurd rfl hprior, fun m hm => by simp at hm⟩
      exact Nat.not_lt.mp fun hlen => absurd (hsize.unique (ends_raiseIf_pos hlen)).1 (by simp)
  | @count before after call hcalls hphase =>
      have henabled : (KeyOp.encrypt call.object).Enabled s.keys :=
        h.alive call (by simp [hcalls]) (by rw [hphase]; rfl)
      have hextends := Keys.Step.extends ⟨.encrypt call.object, henabled, rfl⟩
      refine forall_replaced hcalls (fun c hc => (htraced c hc).of_keys hextends fun _ => rfl)
        ⟨?_, fun _ _ => rfl, fun m hm => ?_⟩
      · have hsized := (htraced call (by simp [hcalls])).sized
        rwa [Call.Sized, hphase] at hsized
      · have hheld : s.keys.held call.object = some m := hm
        obtain ⟨-, x, hx, -⟩ := hheld ▸ h.keys.agrees call.object
        obtain ⟨y, hy, -⟩ := hextends m x hx
        exact ⟨y, hy, trivial⟩
  | @advance before after call phase hcalls hadvance =>
      exact forall_replaced hcalls htraced ((htraced call (by simp [hcalls])).advance h.keys hadvance)

theorem reachable_traced {s : Budget} (h : Reaches Step init s) :
    ∀ call ∈ s.calls, Traced s.keys call := by
  have hboth := h.invariant (fun s => s.Inv ∧ ∀ call ∈ s.calls, Traced s.keys call)
    ⟨init_inv, fun call hcall => by simp [init] at hcall⟩
    fun _ _ hinv hstep => ⟨hinv.1.step hstep, hinv.1.step_traced hinv.2 hstep⟩
  exact hboth.2

/-- A call that has counted and ended is a run of `AesGcm::encrypt` on the key that it counted on. -/
theorem Traced.encrypt_ends {keys : Keys} {call : Call} (h : Traced keys call)
    (hsound : call.phase.Sound) {m : Nat} (hm : call.material = some m)
    {r : Except Error GcmContainer} (hr : call.phase.outcome = some r) :
    ∃ x p os w w', keys.materials[m]? = some x ∧ call.phase.prior = some p ∧
      Ends (AesGcm.encrypt os call.plaintext call.aad) (w, x.withCount p) r (w', x.withCount (p + 1)) ∧
      (call.phase.draws = false → w' = w) := by
  obtain ⟨x, hx, hexplained⟩ := h.explained m hm
  have hsized := h.sized
  rw [Call.Sized] at hsized
  generalize call.phase = phase at hsound hr hexplained hsized
  cases phase with
  | rejected e | started => exact absurd hexplained id
  | counted p | cleared p | drew p nonce => simp [CallPhase.outcome] at hr
  | limited p e =>
      obtain rfl := Option.some.inj hr
      obtain ⟨w, hcheck⟩ := hexplained
      exact ⟨x, p, Os.plain, w, w, hx, rfl,
        AesGcm.encrypt_limited _ w (x.withCount p) _ hsized hcheck, fun _ => rfl⟩
  | drawFailed p e =>
      obtain rfl := Option.some.inj hr
      obtain ⟨os, w, w', hnonce⟩ := hexplained
      exact ⟨x, p, os, w, w', hx, rfl,
        AesGcm.encrypt_undrawn os w (x.withCount p) _ hsized hsound hnonce,
        fun hdraws => by simp [CallPhase.draws] at hdraws⟩
  | returned p container =>
      obtain rfl := Option.some.inj hr
      obtain ⟨os, w, w', nonce, hnonce, rfl⟩ := hexplained
      exact ⟨x, p, os, w, _, hx, rfl, AesGcm.encrypt_ends os w (x.withCount p) _ hsized hsound hnonce,
        fun hdraws => by simp [CallPhase.draws] at hdraws⟩

/-- A call that is refused for its size leaves any key as it was. -/
theorem Traced.encrypt_refuses {keys : Keys} {call : Call} (h : Traced keys call) {e : Error}
    (hphase : call.phase = .rejected e) (os : Os) (w : World) (key : SecretKey) :
    Ends (AesGcm.encrypt os call.plaintext call.aad) (w, key) (.error e) (w, key) := by
  have hsized := h.sized
  rw [Call.Sized, hphase] at hsized
  obtain ⟨v, hsize⟩ := hsized
  obtain ⟨hlen, he, -⟩ := ends_raiseIf_error.mp hsize
  exact AesGcm.encrypt_refuses os w key _ (ends_raiseIf_error.mpr ⟨hlen, he, rfl⟩)

section Reachable

variable {s : Budget}

theorem priors_eq (s : Budget) (m : Nat) : s.priors m = (s.onMaterial m).filterMap (·.phase.prior) := by
  rw [priors, onMaterial, List.filterMap_filter]
  refine List.filterMap_congr fun call _ => ?_
  by_cases hm : call.material = some m <;> simp [priorOf, hm]

theorem Inv.prior_isSome (h : s.Inv) {m : Nat} {call : Call} (hcall : call ∈ s.onMaterial m) :
    (call.phase.prior).isSome = true := by
  obtain ⟨hmem, hm⟩ := List.mem_filter.mp hcall
  refine Option.isSome_iff_ne_none.mpr (h.counted call hmem ?_)
  rw [of_decide_eq_true hm]
  exact Option.some_ne_none m

/-- Exactly the calls that have reached the counter are counted. -/
theorem Inv.length_onMaterial (h : s.Inv) (m : Nat) :
    (s.onMaterial m).length = s.keys.encryptions m := by
  have hlength := (h.priors m).length_eq
  rw [priors_eq, length_tickets, List.length_filterMap_eq_countP, List.countP_eq_length.mpr] at hlength
  · exact hlength
  · exact fun call hcall => h.prior_isSome hcall

theorem Inv.perm_tickets (h : s.Inv) (m : Nat) :
    ((s.onMaterial m).filterMap (·.phase.prior)).Perm (tickets 64 (s.onMaterial m).length) := by
  rw [← priors_eq, h.length_onMaterial]
  exact h.priors m

theorem toNat_kGcmInvocationLimit : kGcmInvocationLimit.toNat = 2 ^ 32 := by decide

/-- A call that goes on to its draw has passed the comparison. -/
theorem Inv.prior_lt (h : s.Inv) {call : Call} (hcall : call ∈ s.calls)
    (hdraws : call.phase.draws = true) :
    ∃ prior, call.phase.prior = some prior ∧ prior.toNat < 2 ^ 32 := by
  have hsound := h.sound call hcall
  cases hphase : call.phase with
  | rejected e | started | counted p | limited p e => simp [hphase, CallPhase.draws] at hdraws
  | cleared p | drawFailed p e | drew p nonce | returned p container =>
      rw [hphase] at hsound
      exact ⟨p, rfl, toNat_kGcmInvocationLimit ▸ BitVec.lt_def.mp hsound⟩

theorem Inv.draws_nodup (h : s.Inv) (hcalls : s.calls.length < 2 ^ 64) (m : Nat) :
    (((s.onMaterial m).filter (·.phase.draws)).filterMap (·.phase.prior)).Nodup := by
  have hle : (s.onMaterial m).length ≤ s.calls.length := List.length_filter_le _ _
  have hnodup := (h.perm_tickets m).nodup_iff.mpr (nodup_tickets (by omega))
  exact hnodup.sublist (List.filter_sublist.filterMap _)

/-- At most as many calls go on to their draw as there are counts below the limit. -/
theorem Inv.length_draws_le (h : s.Inv) (hcalls : s.calls.length < 2 ^ 64) (m : Nat) :
    ((s.onMaterial m).filter (·.phase.draws)).length ≤ 2 ^ 32 := by
  have hle := length_le_of_nodup (h.draws_nodup hcalls m) fun prior hprior => by
    obtain ⟨call, hcall, heq⟩ := List.mem_filterMap.mp hprior
    obtain ⟨hm, hdraws⟩ := List.mem_filter.mp hcall
    obtain ⟨prior', heq', hlt⟩ := h.prior_lt (List.mem_of_mem_filter hm) hdraws
    obtain rfl : prior' = prior := Option.some.inj (heq'.symm.trans heq)
    exact hlt
  rw [List.length_filterMap_eq_countP, List.countP_eq_length.mpr] at hle
  · exact hle
  · exact fun call hcall => h.prior_isSome (List.mem_of_mem_filter hcall)

end Reachable

section Sequential

variable {s : Budget} {i : Nat} {plaintext aad : List Byte} {w : World}

/-- A call that has counted, at the end of the list. -/
def counted (s : Budget) (i : Nat) (plaintext aad : List Byte) (phase : CallPhase) : Budget where
  keys := (KeyOp.encrypt i).apply s.keys
  calls := s.calls ++ [{ object := i, plaintext, aad, material := s.keys.held i, phase }]

theorem key_counted (phase : CallPhase) :
    ((s.counted i plaintext aad phase).keys.objects i).key =
    (consumeGcmInvocation (s.keys.objects i).key).2 := by
  simp only [counted, KeyOp.apply, KeyOp.applyObjects]
  rw [Function.update_self]

theorem reaches_counted (halive : (s.keys.objects i).alive = true)
    (hlen : plaintext.length ≤ AesGcm.kMaxPlaintextBytes) :
    Reaches Step s (s.counted i plaintext aad
      (.counted (consumeGcmInvocation (s.keys.objects i).key).1)) := by
  have hsize : Ends (AesGcm.validateBlockCount plaintext.length : Prog World Error Unit) World.empty
      (.ok ()) World.empty := AesGcm.validateBlockCount_ends hlen _
  have hstart : Step s { s with calls := s.calls ++ [{ object := i, plaintext, aad }] } :=
    .start halive hsize
  have hcount := @Step.count { s with calls := s.calls ++ [{ object := i, plaintext, aad }] } s.calls []
    { object := i, plaintext, aad } rfl rfl
  exact (Relation.ReflTransGen.single hstart).tail hcount

theorem step_counted {phase phase' : CallPhase}
    (h : CallPhase.Advance (consumeGcmInvocation (s.keys.objects i).key).2 plaintext aad phase phase') :
    Step (s.counted i plaintext aad phase) (s.counted i plaintext aad phase') := by
  have hkey : ((s.counted i plaintext aad phase).keys.objects i).key = _ := key_counted phase
  rw [← hkey] at h
  exact @Step.advance (s.counted i plaintext aad phase) s.calls []
    { object := i, plaintext, aad, material := s.keys.held i, phase } phase' rfl h

/-- A call whose nonce is drawn. -/
theorem reaches_returned {os : Os} {nonce : Vector Byte kGcmNonceSizeBytes} {w' : World}
    (halive : (s.keys.objects i).alive = true) (hlen : plaintext.length ≤ AesGcm.kMaxPlaintextBytes)
    (hcount : (s.keys.objects i).key.gcmInvocations < kGcmInvocationLimit)
    (hnonce : Ends (generateNonce os) w (.ok nonce) w') :
    Reaches Step s (s.counted i plaintext aad (.returned (s.keys.objects i).key.gcmInvocations
      (AesGcm.gcmContainer (s.keys.objects i).key nonce plaintext aad))) := by
  have hunder := AesGcm.encryptUnder_ends os w' (consumeGcmInvocation (s.keys.objects i).key).2
    nonce plaintext aad
  have hcounted : Reaches Step s
      (s.counted i plaintext aad (.counted (s.keys.objects i).key.gcmInvocations)) :=
    reaches_counted halive hlen
  have hcleared :=
    hcounted.tail (step_counted (.pass (ends_raiseIf_neg (s := w) (BitVec.not_le.mpr hcount))))
  exact (hcleared.tail (step_counted (.draw hnonce))).tail (step_counted (.finish hunder))

/-- A run of `AesGcm::encrypt` with no other call in between is a run of the interleaved calls. -/
theorem encrypt_reaches {os : Os} {r : Except Error GcmContainer} {w' : World} {key' : SecretKey}
    (halive : (s.keys.objects i).alive = true)
    (h : Ends (AesGcm.encrypt os plaintext aad) (w, (s.keys.objects i).key) r (w', key')) :
    ∃ t call, Reaches Step s t ∧ t.calls = s.calls ++ [call] ∧ call.object = i ∧
    call.phase.outcome = some r ∧
      (t.keys.objects i).key = key' := by
  have hreaches {phase : CallPhase} (hlen : plaintext.length ≤ AesGcm.kMaxPlaintextBytes)
      (hadvance : CallPhase.Advance (consumeGcmInvocation (s.keys.objects i).key).2 plaintext aad
        (.counted (s.keys.objects i).key.gcmInvocations) phase) : Reaches Step s
        (s.counted i plaintext aad phase) :=
    (reaches_counted halive hlen).tail (step_counted hadvance)
  cases AesGcm.encrypt_cases os w _ h with
  | @refused e hsize =>
      have hstep : Step s
          { s with calls := s.calls ++ [{ object := i, plaintext, aad, phase := .rejected e }] } :=
        .reject halive hsize
      exact ⟨_, _, Relation.ReflTransGen.single hstep, rfl, rfl, rfl, rfl⟩
  | limited hlen hcheck => exact ⟨_, _, hreaches hlen (.refuse hcheck), rfl, rfl, rfl, key_counted _⟩
  | undrawn hlen hcount hnonce =>
      have hcleared := hreaches hlen (.pass (ends_raiseIf_neg (s := w) (BitVec.not_le.mpr hcount)))
      exact ⟨_, _, hcleared.tail (step_counted (.drawFails hnonce)), rfl, rfl, rfl, key_counted _⟩
  | returned hlen hcount hnonce =>
      exact ⟨_, _, reaches_returned halive hlen hcount hnonce, rfl, rfl, rfl, key_counted _⟩

end Sequential

/-- **The budget of a key material**, in every reachable state with less than `2^64` calls: at most
`2^32` calls have returned; those that went on to draw a nonce were handed different counts below
`2^32`; a call with a larger count is refused before its draw; and the counts handed out are 0, 1, 2
and so on, one for each call that has passed the size check, whatever object holds the material. The
outcomes are those of `AesGcm::encrypt`: each call that has ended is a run of it on the material
under the count it was handed, or a run that leaves the key alone; and what a run of it does from
here some steps do. -/
theorem gcm_budget {s : Budget} (h : Reaches Step init s) (hcalls : s.calls.length < 2 ^ 64) (m : Nat) :
    ((s.onMaterial m).filter (·.phase.isReturned)).length ≤ 2 ^ 32 ∧
    (((s.onMaterial m).filter (·.phase.draws)).filterMap (·.phase.prior)).Nodup ∧
    (∀ call ∈ s.onMaterial m, call.phase.draws = true →
      ∃ prior, call.phase.prior = some prior ∧ prior.toNat < 2 ^ 32) ∧
    (∀ call ∈ s.onMaterial m, ∀ prior, call.phase.prior = some prior → 2 ^ 32 ≤ prior.toNat →
      call.phase = .counted prior ∨ ∃ what, call.phase = .limited prior (.limitError what)) ∧
    ((s.onMaterial m).filterMap (·.phase.prior)).Perm (tickets 64 (s.onMaterial m).length) ∧
    (∀ i, s.keys.held i = some m →
      (consumeGcmInvocation (s.keys.objects i).key).1 = BitVec.ofNat 64 (s.onMaterial m).length) ∧
    (∀ call ∈ s.onMaterial m, ∀ e, call.phase ≠ .rejected e) ∧
    (∀ call ∈ s.onMaterial m, ∀ r, call.phase.outcome = some r →
      ∃ x p os w w', s.keys.materials[m]? = some x ∧ call.phase.prior = some p ∧
        Ends (AesGcm.encrypt os call.plaintext call.aad) (w, x.withCount p) r (w', x.withCount (p + 1)) ∧
        (call.phase.draws = false → w' = w)) ∧
    (∀ call ∈ s.calls, ∀ e, call.phase = .rejected e →
      ∀ os w key, Ends (AesGcm.encrypt os call.plaintext call.aad) (w, key) (.error e) (w, key)) ∧
    ∀ i plaintext aad os w r w' key', (s.keys.objects i).alive = true →
      Ends (AesGcm.encrypt os plaintext aad) (w, (s.keys.objects i).key) r (w', key') →
      ∃ t call, Reaches Step s t ∧ t.calls = s.calls ++ [call] ∧ call.object = i ∧
        call.phase.outcome = some r ∧ (t.keys.objects i).key = key' := by
  have hinv := reachable_inv h
  have htraced := reachable_traced h
  refine ⟨?_, hinv.draws_nodup hcalls m,
    fun call hcall => hinv.prior_lt (List.mem_of_mem_filter hcall), ?_, hinv.perm_tickets m,
    fun i hi => ?_, fun call hcall e hphase => ?_, fun call hcall r hr => ?_,
    fun call hcall e hphase os w key => (htraced call hcall).encrypt_refuses hphase os w key,
    fun i plaintext aad os w r w' key' halive hends => encrypt_reaches halive hends⟩
  · refine le_trans (List.Sublist.length_le ?_) (hinv.length_draws_le hcalls m)
    refine List.monotone_filter_right _ fun call hreturned => ?_
    cases hphase : call.phase with
    | returned p container => rfl
    | _ => simp [hphase, CallPhase.isReturned] at hreturned
  · intro call hcall prior hprior hle
    have hsound := hinv.sound call (List.mem_of_mem_filter hcall)
    cases hphase : call.phase with
    | rejected e | started => simp [hphase, CallPhase.prior] at hprior
    | counted p =>
        rw [hphase] at hprior
        exact .inl (congrArg CallPhase.counted (Option.some.inj hprior))
    | limited p e =>
        rw [hphase] at hprior hsound
        obtain ⟨-, what, rfl⟩ := hsound
        exact .inr ⟨what, congrArg (CallPhase.limited · _) (Option.some.inj hprior)⟩
    | cleared p | drawFailed p e | drew p nonce | returned p container =>
        obtain ⟨prior', hprior', hlt⟩ :=
          hinv.prior_lt (List.mem_of_mem_filter hcall) (by rw [hphase]; rfl)
        obtain rfl : prior' = prior := Option.some.inj (hprior'.symm.trans hprior)
        omega
  · rw [hinv.length_onMaterial]
    exact hinv.keys.prior_eq hi
  · have hsome := hinv.prior_isSome hcall
    simp [hphase, CallPhase.prior] at hsome
  · obtain ⟨hmem, hm⟩ := List.mem_filter.mp hcall
    exact (htraced call hmem).encrypt_ends (hinv.sound call hmem) (of_decide_eq_true hm) hr

/-- A key is created in the object 0, encrypts there, is moved to the object 1 and encrypts again:
both calls return, under the counts 0 and 1. -/
theorem gcm_budget_movedKey : ∃ s, Reaches Step init s ∧ (s.onMaterial 0).map (·.object) = [0, 1] ∧
    ((s.onMaterial 0).filter (·.phase.isReturned)).length = 2 ∧
    ((s.onMaterial 0).filterMap (·.phase.prior)).Perm [0, 1] ∧
    ∀ call ∈ s.onMaterial 0, ∀ r, call.phase.outcome = some r →
      ∃ x p os w w', s.keys.materials[0]? = some x ∧ call.phase.prior = some p ∧
        Ends (AesGcm.encrypt os call.plaintext call.aad) (w, x.withCount p) r
          (w', x.withCount (p + 1)) := by
  obtain ⟨key, hkey, -⟩ := SecretKey.exists_obtained .aes256
  have hfresh := hkey.gcmInvocations_eq
  have hnonce := generateNonce_serves Os.plain_serves World.empty
  set s₁ : Budget := { init with keys := (KeyOp.create 0 key).apply Keys.init } with hs₁
  set s₂ := s₁.counted 0 [1] [] (.returned (s₁.keys.objects 0).key.gcmInvocations
    (AesGcm.gcmContainer (s₁.keys.objects 0).key _ [1] [])) with hs₂
  set s₃ : Budget := { s₂ with keys := (KeyOp.moveConstruct 1 0).apply s₂.keys } with hs₃
  set s₄ := s₃.counted 1 [2] [3] (.returned (s₃.keys.objects 1).key.gcmInvocations
    (AesGcm.gcmContainer (s₃.keys.objects 1).key _ [2] [3])) with hs₄
  have hcreate : Step init s₁ :=
    .keyOp (.create 0 key) ⟨rfl, hkey⟩ rfl fun call hcall => by simp [init] at hcall
  have hfirst : Reaches Step s₁ s₂ :=
    reaches_returned rfl (by decide)
    (by rw [show (s₁.keys.objects 0).key = key from rfl, hfresh]; decide) hnonce
  have hmove : Step s₂ s₃ := by
    refine .keyOp (.moveConstruct 1 0) ⟨rfl, rfl⟩ rfl fun call hcall hflight => ?_
    obtain rfl := List.mem_singleton.mp hcall
    simp [CallPhase.inFlight] at hflight
  have hcount : (s₃.keys.objects 1).key.gcmInvocations = 1 := by
    rw [show (s₃.keys.objects 1).key = (consumeGcmInvocation key).2 from rfl, consumeGcmInvocation,
      hfresh]
    rfl
  have hsecond : Reaches Step s₃ s₄ := reaches_returned rfl (by decide) (by rw [hcount]; decide) hnonce
  have hreach : Reaches Step init s₄ :=
    (((Relation.ReflTransGen.single hcreate).trans hfirst).tail hmove).trans hsecond
  have hbudget := gcm_budget hreach (show 2 < 2 ^ 64 by decide) 0
  refine ⟨s₄, hreach, rfl, rfl, hbudget.2.2.2.2.1, fun call hcall r hr => ?_⟩
  obtain ⟨x, p, os, w, w', hx, hp, hends, -⟩ := hbudget.2.2.2.2.2.2.2.1 call hcall r hr
  exact ⟨x, p, os, w, w', hx, hp, hends⟩

end Budget

end Aeslib
