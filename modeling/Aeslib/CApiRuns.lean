import Aeslib.CApiContracts
import Aeslib.KeyCustody
import Aeslib.LibOwnership
import Aeslib.SecurityGcm

/-!
Runs of the C interface. Any number of threads call the exported functions in any order, with any
failures below them, and free what they were given; `g_last_error` is `thread_local`. As long as the
callers keep the ownership rules of the header, what is allocated is exactly what they have been
handed and have not freed.
-/

namespace Aeslib.CApi

open Prog

/-- The end of a call that returns. -/
theorem Call.ends {env : Env} (hkeeps : env.KeepsKeys) {call : Call} {s t : CState} {status : Status}
    (h : Ends (call.run env) s (.ok status) t) :
    (status = .ok ∧ (call.Sets env s t ∧ SameKeys s t) ∧ t.lastError = s.lastError) ∨
      (status ≠ .ok ∧ NoneNew s t ∧ call.Records env s t.lastError.text) := by
  have hrecord {message : String} {status status' : Status} {u : CState}
      (h : Ends (setLastError env message >>= fun _ => pure status) u (.ok status') t) :
      status' = status ∧ NoneNew u t ∧ t.lastError.text = message := by
    by_cases hgrants : env.Grants u.lastError message
    · obtain ⟨_, hset⟩ := setLastError_granted hgrants
      obtain ⟨heq, rfl⟩ := (ends_pure _ _ _ _).mp ((hset.bind_iff (f := fun _ => pure status)).mp h)
      exact ⟨Except.ok.inj heq, .of_eq rfl rfl, rfl⟩
    · exact absurd ((setLastError_refused hgrants).bind_error_iff.mp h).1 (by simp)
  unfold Call.run at h
  cases hentry : call.entry env with
  | reject rejected =>
      rw [hentry] at h
      obtain ⟨rfl, hnone, htext⟩ := hrecord h
      exact .inr ⟨by decide, hnone, (records_of_reject hentry).mpr htext⟩
  | attempt body =>
      rw [hentry] at h
      have hbody := entry_contract s hkeeps hentry
      rcases ends_tryCatch.mp h with ⟨_, heq, hok⟩ | ⟨e, u, herror, hhandler⟩
      · obtain rfl := Except.ok.inj heq
        rcases ends_bind.mp hok with ⟨_, u, hu, hpure⟩ | ⟨_, he, _⟩
        · obtain ⟨hok, rfl⟩ := (ends_pure _ _ _ _).mp hpure
          obtain rfl := Except.ok.inj hok
          exact .inl ⟨rfl, hbody.returns rfl hu, entry_keeps env hentry rfl hu⟩
        · exact absurd he (by simp)
      · rcases ends_bind.mp herror with ⟨_, _, _, hpure⟩ | ⟨e', he, hu⟩
        · exact absurd ((ends_pure _ _ _ _).mp hpure).1 (by simp)
        · obtain rfl := Except.error.inj he
          rw [translateException_eq] at hhandler
          obtain ⟨rfl, hnone, htext⟩ := hrecord hhandler
          refine .inr ⟨e.status_ne_ok, (hbody.throws rfl hu).trans hnone, ?_⟩
          exact (records_of_attempt hentry).mpr ⟨e, ⟨u, hu⟩, htext⟩

structure Process where
  state : CState
  /-- `g_last_error` of each thread. -/
  errors : Nat → StdString
  freedKeys : List Nat
  freedBuffers : List Nat

namespace Process

/-- The state as a thread sees it. -/
def enter (p : Process) (thread : Nat) : CState := { p.state with lastError := p.errors thread }

def leave (p : Process) (thread : Nat) (t : CState) : Process :=
  { p with state := t, errors := Function.update p.errors thread t.lastError }

theorem errors_leave (p : Process) (thread : Nat) (t : CState) :
    (p.leave thread t).errors thread = t.lastError :=
  Function.update_self ..

theorem errors_leave_of_ne (p : Process) {thread thread' : Nat} (h : thread' ≠ thread) (t : CState) :
    (p.leave thread' t).errors thread = p.errors thread := Function.update_of_ne (Ne.symm h) ..

/-- `aeslib_last_error_message`. -/
def lastErrorMessage (p : Process) (thread : Nat) : String := (p.errors thread).text

/-- `aeslib_key_free`; `delete` of a null pointer does nothing. -/
def keyFree (p : Process) : Option Nat → Process
  | some key => { p with freedKeys := key :: p.freedKeys }
  | none => p

/-- `aeslib_buffer_free`. -/
def bufferFree (p : Process) : Option Nat → Process
  | some buffer => { p with freedBuffers := buffer :: p.freedBuffers }
  | none => p

def AllocatedKey (p : Process) (key : Nat) : Prop := key < p.state.handles.length ∧ key ∉ p.freedKeys

def AllocatedBuffer (p : Process) (buffer : Nat) : Prop :=
  buffer < p.state.buffers.length ∧ buffer ∉ p.freedBuffers

end Process

/-- What a caller does, and for a call what it finds afterwards. -/
inductive Event where
  | returned (thread : Nat) (env : Env) (call : Call) (status : Status) (after : CState)
  | keyFree (key : Option Nat)
  | bufferFree (buffer : Option Nat)

/-- The handle that a call is given. -/
def Call.handle : Call → Option Nat
  | keySaveToFile key _ | ctrEncrypt key .. | ctrDecrypt key .. | gcmEncrypt key ..
  | gcmDecrypt key .. => key
  | _ => none

/-- The variable in which a call returns a handle. -/
def Call.outKey : Call → Option Nat
  | keyGenerate _ outKey | keyLoadFromFile _ outKey => outKey
  | _ => none

/-- The variable in which a call returns a buffer. -/
def Call.outBuffer : Call → Option Nat
  | ctrEncrypt _ _ _ out _ | ctrDecrypt _ _ _ out _ | gcmEncrypt _ _ _ _ _ out _
  | gcmDecrypt _ _ _ _ _ out _ => out
  | _ => none

namespace Event

/-- The handle that the caller reads from its variable after `AESLIB_OK`. -/
def handedKey : Event → Option Nat
  | returned _ _ call .ok after => call.outKey.map after.memory.keys
  | _ => none

def handedBuffer : Event → Option Nat
  | returned _ _ call .ok after => call.outBuffer.map after.memory.buffers
  | _ => none

inductive Step : Process → Event → Process → Prop
  | returned {p : Process} {thread : Nat} {env : Env} {call : Call} {status : Status} {t : CState}
      (keeps : env.KeepsKeys)
      (run : Ends (call.run env) (p.enter thread) (.ok status) t) :
      Step p (.returned thread env call status t) (p.leave thread t)
  | keyFree (p : Process) (key : Option Nat) : Step p (.keyFree key) (p.keyFree key)
  | bufferFree (p : Process) (buffer : Option Nat) : Step p (.bufferFree buffer) (p.bufferFree buffer)

end Event

/-- The handles that the callers own after the events, the last of which comes first. -/
def ownedKeys : List Event → List Nat
  | [] => []
  | .keyFree (some key) :: events => (ownedKeys events).erase key
  | e :: events => e.handedKey.toList ++ ownedKeys events

def ownedBuffers : List Event → List Nat
  | [] => []
  | .bufferFree (some buffer) :: events => (ownedBuffers events).erase buffer
  | e :: events => e.handedBuffer.toList ++ ownedBuffers events

/-- The ownership rules of the header, after the events: a call is given an owned handle, and only
what is owned is freed. -/
def Event.Obeys (events : List Event) : Event → Prop
  | returned _ _ call _ _ => ∀ key, call.handle = some key → key ∈ ownedKeys events
  | keyFree key => ∀ k, key = some k → k ∈ ownedKeys events
  | bufferFree buffer => ∀ b, buffer = some b → b ∈ ownedBuffers events

/-- The events have led from `p` to `q`, the last of them first. -/
inductive Run (p : Process) : List Event → Process → Prop
  | start : Run p [] p
  | next {events : List Event} {q r : Process} {e : Event} (before : Run p events q)
      (step : e.Step q r) :
      Run p (e :: events) r

/-- All of the events keep the ownership rules. -/
def Obedient : List Event → Prop
  | [] => True
  | e :: events => e.Obeys events ∧ Obedient events

/-- The new entries at the end of a list of `n'` that had `n`. -/
inductive Handed (n : Nat) : Nat → Option Nat → Prop
  | nothing : Handed n n none
  | one : Handed n (n + 1) (some n)

theorem Handed.le {n n' : Nat} {new : Option Nat} (h : Handed n n' new) : n ≤ n' := by
  cases h with
  | nothing => exact le_rfl
  | one => exact Nat.le_succ n

/-- From `s` to `t` a call that returns the handle `key` and the buffer `buffer` has run. -/
structure Grows (s t : CState) (key buffer : Option Nat) : Prop where
  handles : Handed s.handles.length t.handles.length key
  buffers : Handed s.buffers.length t.buffers.length buffer
  keys : SameKeys s t
  isPrefix : s.buffers <+: t.buffers

section Grows

variable {s t : CState}

theorem NoneNew.grows (h : NoneNew s t) : Grows s t none none where
  handles := h.handles ▸ .nothing
  buffers := h.buffers ▸ .nothing
  keys := h.keys
  isPrefix := h.buffers ▸ List.prefix_refl _

/-- A new handle. -/
theorem grows_handle {key : SecretKey} {out : Nat}
    (hmemory : t.memory = s.memory.setKey out s.handles.length)
    (hhandles : t.handles = s.handles ++ [key]) (hbuffers : t.buffers = s.buffers)
    (hkeys : SameKeys s t) :
    Grows s t (some (t.memory.keys out)) none where
  handles := by
    have hout : t.memory.keys out = s.handles.length := by
      rw [hmemory]
      exact Function.update_self ..
    rw [hhandles, List.length_append, hout]
    exact .one
  buffers := hbuffers ▸ .nothing
  keys := hkeys
  isPrefix := hbuffers ▸ List.prefix_refl _

/-- A new buffer. -/
theorem grows_buffer {m : Memory} {bytes : List Byte} {out len : Nat}
    (hmemory : t.memory = m.setOutput out s.buffers.length len bytes)
    (hhandles : t.handles.length = s.handles.length)
    (hbuffers : t.buffers = s.buffers ++ [newBuffer bytes]) (hkeys : SameKeys s t) :
    Grows s t none (some (t.memory.buffers out)) where
  handles := hhandles ▸ .nothing
  buffers := by
    have hout : t.memory.buffers out = s.buffers.length := by
      rw [hmemory]
      exact Function.update_self ..
    rw [hbuffers, List.length_append, hout]
    exact .one
  keys := hkeys
  isPrefix := hbuffers ▸ List.prefix_append _ _

theorem Call.Sets.grows {env : Env} {call : Call} (h : call.Sets env s t) (hkeys : SameKeys s t) :
    Grows s t (call.outKey.map t.memory.keys) (call.outBuffer.map t.memory.buffers) := by
  cases call with
  | keyGenerate keySizeBits outKey =>
      obtain ⟨out, key, w, rfl, -, hmemory, hhandles, hbuffers⟩ := h
      exact grows_handle hmemory hhandles hbuffers hkeys
  | keySaveToFile key path =>
      obtain ⟨-, hhandles, hbuffers⟩ := h
      exact (NoneNew.mk hhandles hkeys hbuffers).grows
  | keyLoadFromFile path outKey =>
      obtain ⟨path', out, key, w, rfl, rfl, -, hmemory, hhandles, hbuffers⟩ := h
      exact grows_handle hmemory hhandles hbuffers hkeys
  | ctrEncrypt key plaintext outNonce outCiphertext outCiphertextLen =>
      obtain ⟨handle, data, nonce, out, len, container, w, -, -, -, rfl, -, -, hmemory, hhandles,
        hbuffers⟩ := h
      exact grows_buffer hmemory (congrArg List.length hhandles) hbuffers hkeys
  | ctrDecrypt key nonce ciphertext outPlaintext outPlaintextLen =>
      obtain ⟨handle, nonce', data, out, len, plaintext, w, -, -, -, rfl, -, -, hmemory, hhandles,
        hbuffers⟩ := h
      exact grows_buffer hmemory (congrArg List.length hhandles) hbuffers hkeys
  | gcmEncrypt key plaintext aad outNonce outTag outCiphertext outCiphertextLen =>
      obtain ⟨handle, data, aadData, nonce, tag, out, len, container, w, key', -, -, -, -, -,
        rfl, -, -, hmemory, hhandles, hbuffers⟩ := h
      exact grows_buffer hmemory (by rw [hhandles, List.length_set]) hbuffers hkeys
  | gcmDecrypt key nonce tag ciphertext aad outPlaintext outPlaintextLen =>
      obtain ⟨handle, nonce', tag', data, aadData, out, len, plaintext, w, -, -, -, -, -, rfl, -, -,
        hmemory, hhandles, hbuffers⟩ := h
      exact grows_buffer hmemory (congrArg List.length hhandles) hbuffers hkeys

end Grows

/-- Nothing fails below the call. -/
structure Env.Unfailing (env : Env) : Prop where
  denies : ∀ a, env.failures.denies a = false
  text : env.failures.text = none
  aad : env.failures.aad = none
  library : env.failures.library = none

theorem allocateOutput_granted {env : Env} (h : env.failures.denies .output = false)
    (bytes : List Byte) (out outLen : Nat) (s : CState) :
    Ends (allocateOutput env bytes out outLen) s (.ok ()) { s with
      buffers := s.buffers ++ [newBuffer bytes]
      memory := s.memory.setOutput out s.buffers.length outLen bytes } := by
  have hallocate : Ends (allocate env .output) s (.ok ()) s := ends_raiseIf_neg (by rw [h]; decide)
  rw [allocateOutput, hallocate.bind_iff, (op_ends _ s).bind_iff, store, (op_ends _ _).bind_iff,
    store, ends_op]
  rfl

/-- No handle and no buffer yet. -/
structure Process.Starts (p : Process) : Prop where
  handles : p.state.handles = []
  buffers : p.state.buffers = []
  freedKeys : p.freedKeys = []
  freedBuffers : p.freedBuffers = []

def unfailing : Env := Env.plain fun _ => false

theorem keepsKeys_unfailing : unfailing.KeepsKeys :=
  fun cut hcut => by simp [unfailing, Env.plain] at hcut

theorem unfailing_unfailing : unfailing.Unfailing := ⟨fun _ => rfl, rfl, rfl, rfl⟩

/-- A process that has not called anything. -/
def Process.initial : Process where
  state := { CState.start unfailing.std (Vector.replicate _ 0) with handles := [] }
  errors _ := { text := "", capacity := unfailing.std.smallCapacity }
  freedKeys := []
  freedBuffers := []

theorem starts_initial : Process.initial.Starts := ⟨rfl, rfl, rfl, rfl⟩

theorem attempt_steps {p : Process} {thread : Nat} {call : Call} {body : Prog CState Exc Unit}
    {t : CState} (hentry : call.entry unfailing = .attempt body)
    (hbody : Ends body (p.enter thread) (.ok ()) t) :
    Event.Step p (.returned thread unfailing call .ok t) (p.leave thread t) := by
  refine .returned keepsKeys_unfailing ?_
  rw [Call.run, hentry]
  exact ends_tryCatch.mpr (.inl ⟨_, rfl, hbody.bind ((ends_pure _ t t _).mpr ⟨rfl, rfl⟩)⟩)

theorem keyGenerate_steps (p : Process) (thread out : Nat) : ∃ t key,
    Event.Step p (.returned thread unfailing (.keyGenerate 128 (some out)) .ok t) (p.leave thread t) ∧
      key.gcmInvocations = 0 ∧ t.handles = p.state.handles ++ [key] ∧
      t.memory.keys out = p.state.handles.length := by
  have hgenerate := generate_serves Os.plain_serves (p.enter thread).world .aes128
  have hallocate (s : CState) : Ends (allocate unfailing .handle) s (.ok ()) s :=
    ends_raiseIf_neg (by decide)
  have hlibrary := library_ends unfailing_unfailing.library hgenerate
  have hbody := hlibrary.bind (f := fun key => makeHandle unfailing key >>=
    fun handle => store (·.setKey out handle)) (by
    rw [makeHandle]
    exact (Ends.bind (hallocate _) (op_ends _ _)).bind (op_ends _ _))
  exact ⟨_, _, attempt_steps rfl hbody, rfl, rfl, Function.update_self ..⟩

section Runs

variable {p q r : Process} {events : List Event}

/-- What one event does to the heap. -/
theorem Event.Step.grows {e : Event} (h : e.Step p q) :
    Grows p.state q.state e.handedKey e.handedBuffer := by
  cases h with
  | @returned thread env call status t keeps run =>
      have hgrows {key buffer : Option Nat} (h : Grows (p.enter thread) t key buffer) :
          Grows p.state t key buffer :=
        ⟨h.handles, h.buffers, h.keys, h.isPrefix⟩
      rcases Call.ends keeps run with ⟨rfl, ⟨hsets, hkeys⟩, -⟩ | ⟨hne, hnone, -⟩
      · exact hgrows (hsets.grows hkeys)
      · have hkey : (Event.returned thread env call status t).handedKey = none := by
          cases status <;> trivial
        have hbuffer : (Event.returned thread env call status t).handedBuffer = none := by
          cases status <;> trivial
        rw [hkey, hbuffer]
        exact hgrows hnone.grows
  | keyFree key => cases key <;> exact (NoneNew.of_eq rfl rfl).grows
  | bufferFree buffer => cases buffer <;> exact (NoneNew.of_eq rfl rfl).grows

theorem ledger_handed {n n' : Nat} {new : Option Nat} {owned freed : List Nat} (h : Ledger n owned freed)
    (hnew : Handed n n' new) : Ledger n' (new.toList ++ owned) freed := by
  cases hnew with
  | nothing => exact h
  | one => exact h.hand

theorem run_ledgers (hp : p.Starts) (h : Run p events q) (hobeys : Obedient events) :
    Ledger q.state.handles.length (ownedKeys events) q.freedKeys ∧
      Ledger q.state.buffers.length (ownedBuffers events) q.freedBuffers := by
  induction h with
  | start =>
      rw [hp.handles, hp.buffers, hp.freedKeys, hp.freedBuffers]
      exact ⟨.empty, .empty⟩
  | next _ step ih =>
      obtain ⟨hkeys, hbuffers⟩ := ih hobeys.2
      have hkeys' := ledger_handed hkeys step.grows.handles
      have hbuffers' := ledger_handed hbuffers step.grows.buffers
      cases step with
      | returned keeps run => exact ⟨hkeys', hbuffers'⟩
      | keyFree key =>
          cases key with
          | none => exact ⟨hkeys', hbuffers'⟩
          | some key => exact ⟨hkeys.free (hobeys.1 key rfl), hbuffers'⟩
      | bufferFree buffer =>
          cases buffer with
          | none => exact ⟨hkeys', hbuffers'⟩
          | some buffer => exact ⟨hkeys', hbuffers.free (hobeys.1 buffer rfl)⟩

/-- **No leak and no double free.** However the threads interleave and whatever fails below the
calls, a handle is allocated exactly while one of the callers owns it, and so is a buffer. -/
theorem run_owned (hp : p.Starts) (h : Run p events q) (hobeys : Obedient events) :
    ((ownedKeys events).Nodup ∧ ∀ key, q.AllocatedKey key ↔ key ∈ ownedKeys events) ∧
      ((ownedBuffers events).Nodup ∧
        ∀ buffer, q.AllocatedBuffer buffer ↔ buffer ∈ ownedBuffers events) := by
  obtain ⟨hkeys, hbuffers⟩ := run_ledgers hp h hobeys
  exact ⟨⟨hkeys.nodup, fun key => (hkeys.mem_iff key).symm⟩, hbuffers.nodup,
    fun buffer => (hbuffers.mem_iff buffer).symm⟩

/-- A handle is generated and freed. -/
theorem run_owned_freed : ∃ events q, Run Process.initial events q ∧ q.state.handles.length = 1 ∧
    ¬q.AllocatedKey 0 := by
  obtain ⟨s, key, hgenerate, -, hhandles, hout⟩ := keyGenerate_steps Process.initial 0 0
  have howned : ownedKeys [.returned 0 unfailing (.keyGenerate 128 (some 0)) .ok s] = [0] := by
    rw [ownedKeys, Event.handedKey, Call.outKey, Option.map_some, hout]
    · rfl
    · simp
  have hrun := Run.next (.next .start hgenerate) (.keyFree _ (some 0))
  have hfreed := (run_owned starts_initial hrun
    ⟨fun k hk => Option.some.inj hk ▸ howned ▸ List.mem_cons_self,
    fun k hk => absurd hk (by simp [Call.handle]), trivial⟩).1.2 0
  refine ⟨_, _, hrun, by rw [Process.keyFree, Process.leave, hhandles]; rfl, fun h => ?_⟩
  have howns := hfreed.mp h
  rw [ownedKeys, howned] at howns
  exact absurd howns (by decide)

/-- A call on the thread has failed. -/
def Event.FailsOn (thread : Nat) : Event → Prop
  | returned thread' _ _ status _ => thread' = thread ∧ status ≠ .ok
  | _ => False

theorem Event.Step.errors {e : Event} (h : e.Step p q) {thread : Nat} (hfails : ¬e.FailsOn thread) :
    q.errors thread = p.errors thread := by
  cases h with
  | @returned thread' env call status t keeps run =>
      by_cases hthread : thread' = thread
      · subst hthread
        rcases Call.ends keeps run with ⟨-, -, hlast⟩ | ⟨hne, -, -⟩
        · rw [p.errors_leave, hlast]
          rfl
        · exact absurd ⟨rfl, hne⟩ hfails
      · exact p.errors_leave_of_ne hthread t
  | keyFree key => cases key <;> rfl
  | bufferFree buffer => cases buffer <;> rfl

/-- **The message of a thread is that of its own last failing call**, whatever other threads do: it
is the message that this call had to record, and the calls that returned `AESLIB_OK` since then have
kept it. -/
theorem run_lastErrorMessage (h : Run p events q) (thread : Nat) :
    (q.errors thread = p.errors thread ∧ ∀ e ∈ events, ¬e.FailsOn thread) ∨
      ∃ later env call status t earlier u,
        events = later ++ .returned thread env call status t :: earlier ∧
        status ≠ .ok ∧ (∀ e ∈ later, ¬e.FailsOn thread) ∧ Run p earlier u ∧
        call.Records env (u.enter thread) (q.lastErrorMessage thread) := by
  induction h with
  | start => exact .inl ⟨rfl, fun e he => absurd he List.not_mem_nil⟩
  | @next events u v e before step ih =>
      by_cases hfails : e.FailsOn thread
      · cases step with
        | @returned thread' env call status t keeps run =>
            obtain ⟨rfl, hne⟩ := hfails
            rcases Call.ends keeps run with ⟨hok, -, -⟩ | ⟨-, -, hrecords⟩
            · exact absurd hok hne
            · refine .inr ⟨[], env, call, status, t, events, u, rfl, hne,
                fun e he => absurd he List.not_mem_nil, before, ?_⟩
              rwa [Process.lastErrorMessage, u.errors_leave]
        | keyFree key => exact hfails.elim
        | bufferFree buffer => exact hfails.elim
      · have herrors := step.errors hfails
        have hlater {later : List Event} (h : ∀ e ∈ later, ¬e.FailsOn thread) :
            ∀ e' ∈ e :: later, ¬e'.FailsOn thread := by
          intro e' he'
          rcases List.mem_cons.mp he' with rfl | he'
          · exact hfails
          · exact h e' he'
        rcases ih with ⟨hsame, hnone⟩ | ⟨later, env, call, status, t, earlier, w, rfl, hne, hnone,
          hrun, hrecords⟩
        · exact .inl ⟨herrors.trans hsame, hlater hnone⟩
        · refine .inr ⟨e :: later, env, call, status, t, earlier, w, rfl, hne, hlater hnone, hrun, ?_⟩
          rwa [Process.lastErrorMessage, herrors]

/-- The message of a rejected call. -/
theorem run_lastErrorMessage_rejected : ∃ events q, Run Process.initial events q ∧
    q.lastErrorMessage 0 = "key and path must not be null" := by
  obtain ⟨capacity, hset⟩ := setLastError_granted (s := Process.initial.enter 0)
    (show unfailing.Grants _ "key and path must not be null" from ⟨fun _ => rfl, fun _ => rfl⟩)
  have hstep : Event.Step Process.initial
      (.returned 0 unfailing (.keySaveToFile none none) .errInvalidArgument _) _ :=
    .returned keepsKeys_unfailing (hset.bind ((ends_pure _ _ _ _).mpr ⟨rfl, rfl⟩))
  have hrun := Run.next .start hstep
  refine ⟨_, _, hrun, ?_⟩
  rcases run_lastErrorMessage hrun 0 with ⟨-, hnone⟩ | ⟨later, _, _, _, _, _, _, hevents, -,
    hnone, -, hrecords⟩
  · exact absurd ⟨rfl, by decide⟩ (hnone _ List.mem_cons_self)
  · cases later with
    | nil =>
        obtain ⟨hevent, -⟩ := List.cons.inj hevents
        obtain ⟨-, rfl, rfl, -⟩ := Event.returned.inj hevent
        exact (records_of_reject rfl).mp hrecords
    | cons e later => simp at hevents

theorem Run.split {later earlier : List Event} {e : Event} (h : Run p (later ++ e :: earlier) q) :
    ∃ u v, Run p earlier u ∧ e.Step u v ∧ Run v later q := by
  induction later generalizing q with
  | nil =>
      cases h with
      | next before step => exact ⟨_, q, before, step, .start⟩
  | cons x later ih =>
      cases h with
      | next before step =>
          obtain ⟨u, v, hearlier, he, hlater⟩ := ih before
          exact ⟨u, v, hearlier, he, .next hlater step⟩

theorem Obedient.of_append {later earlier : List Event} (h : Obedient (later ++ earlier)) :
    Obedient earlier := by
  induction later with
  | nil => exact h
  | cons x later ih => exact ih h.2

theorem Run.grows (h : Run p events q) : p.state.handles.length ≤ q.state.handles.length ∧
    SameKeys p.state q.state ∧
    p.state.buffers <+: q.state.buffers := by
  induction h with
  | start => exact ⟨le_rfl, .of_eq rfl, List.prefix_refl _⟩
  | next _ step ih =>
      obtain ⟨hle, hkeys, hbuffers⟩ := ih
      have hgrows := step.grows
      refine ⟨?_, hkeys.trans hle hgrows.keys, hbuffers.trans hgrows.isPrefix⟩
      exact hle.trans hgrows.handles.le

/-- The caller finds the bytes in `*out` and their number in `*out_len`. -/
structure Finds (t : CState) (out len : Nat) (bytes : List Byte) : Prop where
  buffer : t.buffers[t.memory.buffers out]? = some (newBuffer bytes)
  length : t.memory.lengths len = bytes.length

theorem newBuffer_injective {bytes bytes' : List Byte} (h : newBuffer bytes = newBuffer bytes') :
    bytes = bytes' := by
  cases bytes <;> cases bytes' <;> simp_all [newBuffer, List.map_inj_right]

theorem finds_output {t : CState} {m : Memory} {buffers : List (List (Option Byte))} {out len : Nat}
    {bytes : List Byte} (hmemory : t.memory = m.setOutput out buffers.length len bytes)
    (hbuffers : t.buffers = buffers ++ [newBuffer bytes]) : Finds t out len bytes where
  buffer := by
    have hout : t.memory.buffers out = buffers.length := by
      rw [hmemory]
      exact Function.update_self ..
    rw [hout, hbuffers, List.getElem?_concat_length]
  length := by
    rw [hmemory]
    exact Function.update_self ..

/-- What the caller of an encryption finds. -/
theorem gcmEncrypt_found {u v : Process} {thread handle nonce tag out len : Nat} {env : Env}
    {plaintext aad : InBuffer} {s : CState}
    (h : Event.Step u (.returned thread env
      (.gcmEncrypt (some handle) plaintext aad (some nonce) (some tag) (some out) (some len)) .ok s) v) :
    ∃ data aadData drawn, plaintext.data? = some data ∧ aad.data? = some aadData ∧
      data.length ≤ AesGcm.kMaxPlaintextBytes ∧ s.memory.nonces nonce = drawn ∧
      s.memory.tags tag = (AesGcm.gcmContainer (u.state.key handle) drawn data aadData).tag ∧
      Finds s out len (AesGcm.gcmContainer (u.state.key handle) drawn data aadData).ciphertext := by
  cases h with
  | returned keeps run =>
      obtain ⟨-, ⟨hsets, -⟩, -⟩ | ⟨hne, -⟩ := Call.ends keeps run
      · obtain ⟨_, data, aadData, _, _, _, _, container, w, key, hhandle, hdata, haad, hnonce, htag,
          hout, hlen, hcipher, hmemory, -, hbuffers⟩ := hsets
        obtain rfl := Option.some.inj hhandle
        obtain rfl := Option.some.inj hnonce
        obtain rfl := Option.some.inj htag
        obtain rfl := Option.some.inj hout
        obtain rfl := Option.some.inj hlen
        obtain ⟨-, hlength, drawn, -, hcontainer⟩ := AesGcm.encrypt_triple _ _ _ _ rfl hcipher
        have hkey : (u.enter thread).key handle = u.state.key handle := rfl
        rw [hkey] at hcontainer
        have hnonces : s.memory.nonces nonce = container.nonce := by
          rw [hmemory]
          exact Function.update_self ..
        have htags : s.memory.tags tag = container.tag := by
          rw [hmemory]
          exact Function.update_self ..
        have hfinds := finds_output hmemory hbuffers
        rw [hcontainer] at hnonces htags hfinds
        exact ⟨data, aadData, drawn, hdata, haad, hlength, hnonces, htags, hfinds⟩
      · exact absurd rfl hne

/-- What the caller of a decryption finds. -/
theorem gcmDecrypt_found {u v : Process} {thread handle out len : Nat} {env : Env}
    {nonce : Vector Byte kNonceSizeBytes} {tag : Vector Byte kGcmTagSizeBytes}
    {ciphertext aad : InBuffer} {t : CState}
    (h : Event.Step u (.returned thread env
      (.gcmDecrypt (some handle) (some nonce) (some tag) ciphertext aad (some out) (some len)) .ok t) v) :
    ∃ data, ciphertext.data? = some data ∧
      Finds t out len (keystreamXor (u.state.key handle) 2 nonce data) ∧
      v.state.buffers = t.buffers := by
  cases h with
  | returned keeps run =>
      obtain ⟨-, ⟨hsets, -⟩, -⟩ | ⟨hne, -⟩ := Call.ends keeps run
      · obtain ⟨_, _, _, data, aadData, _, _, plaintext, w, hhandle, hnonce, htag, hdata, -, hout,
          hlen, hcipher, hmemory, -, hbuffers⟩ := hsets
        obtain rfl := Option.some.inj hhandle
        obtain rfl := Option.some.inj hnonce
        obtain rfl := Option.some.inj htag
        obtain rfl := Option.some.inj hout
        obtain rfl := Option.some.inj hlen
        obtain ⟨-, -, rfl⟩ := AesGcm.decrypt_ok hcipher
        exact ⟨data, hdata, finds_output hmemory hbuffers, rfl⟩
      · exact absurd rfl hne

theorem gcmDecrypt_succeeds {u v : Process} {thread handle out len : Nat} {env : Env}
    {nonce : Vector Byte kNonceSizeBytes} {tag : Vector Byte kGcmTagSizeBytes}
    {ciphertext aad : InBuffer} {status : Status} {t : CState}
    (h : Event.Step u (.returned thread env
      (.gcmDecrypt (some handle) (some nonce) (some tag) ciphertext aad (some out) (some len)) status t) v)
    (henv : env.Unfailing) {data aadData : List Byte} (hdata : ciphertext.data? = some data)
    (haad : aad.data? = some aadData) (hlen : data.length ≤ AesGcm.kMaxPlaintextBytes)
    (htag : AesGcm.tagOf (u.state.key handle) nonce aadData data = tag) :
    status = .ok := by
  cases h with
  | returned keeps run =>
      have hdecrypt :=
        AesGcm.decrypt_accepts env.os (u.enter thread).world ((u.enter thread).key handle)
        ⟨nonce, tag, data⟩
        hlen htag
      have hentry : ∃ body,
          (Call.gcmDecrypt (some handle) (some nonce) (some tag) ciphertext aad (some out)
          (some len)).entry env = .attempt body ∧ ∃ s, Ends body (u.enter thread) (.ok ()) s := by
        simp only [Call.entry, aeslibGcmDecrypt, hdata, haad]
        refine ⟨_, rfl, ?_⟩
        apply Exists.intro
        exact (toBytes_copied (.inl henv.text) _).bind
          ((toBytes_copied (.inl henv.aad) _).bind ((op_ends _ _).bind
            ((library_ends henv.library hdecrypt).bind
              (allocateOutput_granted (henv.denies .output) _ _ _ _))))
      obtain ⟨body, hentry, s, hbody⟩ := hentry
      rw [Call.run, hentry] at run
      have hok : Ends (Entry.run env (.attempt body)) (u.enter thread) (.ok .ok) s :=
        ends_tryCatch.mpr (.inl ⟨_, rfl, hbody.bind ((ends_pure _ s s _).mpr ⟨rfl, rfl⟩)⟩)
      exact Except.ok.inj (run.unique hok).1

theorem Finds.unique {t : CState} {out len : Nat} {bytes bytes' : List Byte} (h : Finds t out len bytes)
    (h' : Finds t out len bytes') : bytes = bytes' :=
  newBuffer_injective (Option.some.inj (h.buffer.symm.trans h'.buffer))

/-- **What a handle has encrypted, the same handle decrypts**, on any thread and after any other
calls. If a caller passes the outputs of `aeslib_gcm_encrypt` on to `aeslib_gcm_decrypt`, then with
the same additional data it gets `AESLIB_OK` unless something below fails; and with `AESLIB_OK` it
finds the plaintext, which stays in that buffer from then on. -/
theorem run_gcmRoundTrip (hp : p.Starts) (h : Run p events q) (hobeys : Obedient events)
    {later middle earlier : List Event} {thread thread' handle nonce tag out len out' len' : Nat}
    {env env' : Env} {plaintext aad ciphertext aad' : InBuffer} {status : Status} {s t : CState}
    (hevents : events = later ++
      .returned thread' env' (.gcmDecrypt (some handle) (some (s.memory.nonces nonce))
        (some (s.memory.tags tag)) ciphertext aad' (some out') (some len')) status t ::
      (middle ++ .returned thread env
        (.gcmEncrypt (some handle) plaintext aad (some nonce) (some tag) (some out) (some len)) .ok s ::
      earlier))
    (hciphertext : ∃ data, ciphertext.data? = some data ∧ Finds s out len data) :
    (env'.Unfailing → aad'.data? = aad.data? → status = .ok) ∧
      (status = .ok → ∃ data, plaintext.data? = some data ∧ Finds t out' len' data ∧
        q.state.buffers[t.memory.buffers out']? = some (newBuffer data)) := by
  subst hevents
  obtain ⟨u₂, u₃, hmiddle, hdecrypt, hlater⟩ := h.split
  obtain ⟨u₀, u₁, hearlier, hencrypt, hmiddle⟩ := hmiddle.split
  -- the handle was valid when the encryption was called
  have hvalid : handle < u₀.state.handles.length := by
    have hencrypts := (hobeys.of_append).2.of_append
    obtain ⟨hkeys, -⟩ := run_ledgers hp hearlier hencrypts.2
    exact ((hkeys.mem_iff handle).mp (hencrypts.1 handle rfl)).1
  have hkeys : SameKeys u₀.state u₂.state :=
    hencrypt.grows.keys.trans hencrypt.grows.handles.le hmiddle.grows.2.1
  have hsame : Operation.SameKey (u₀.state.key handle) (u₂.state.key handle) := hkeys handle hvalid
  obtain ⟨data, aadData, drawn, hdata, haadData, hlength, hnonce, htag, hfinds⟩ :=
    gcmEncrypt_found hencrypt
  obtain ⟨given, hgiven, hpassed⟩ := hciphertext
  obtain rfl := hfinds.unique hpassed
  refine ⟨fun henv haad => ?_, ?_⟩
  · refine gcmDecrypt_succeeds hdecrypt henv hgiven (haad.trans haadData) ?_ ?_
    · rwa [AesGcm.gcmContainer, length_keystreamXor]
    · rw [hsame.tagOf, hnonce, htag]
      rfl
  · rintro rfl
    obtain ⟨given', hgiven', hfinds', hbuffers⟩ := gcmDecrypt_found hdecrypt
    obtain rfl := Option.some.inj (hgiven.symm.trans hgiven')
    rw [hnonce, hsame.keystreamXor, AesGcm.gcmContainer, keystreamXor_keystreamXor] at hfinds'
    refine ⟨data, hdata, hfinds', ?_⟩
    obtain ⟨rest, hrest⟩ := hlater.grows.2.2
    obtain ⟨hlt, -⟩ := List.getElem?_eq_some_iff.mp hfinds'.buffer
    rw [← hrest, hbuffers, List.getElem?_append_left hlt]
    exact hfinds'.buffer

end Runs

section OneMessage

theorem gcmEncrypt_steps (p : Process) (thread : Nat)
    (hcount : (p.state.key 0).gcmInvocations < kGcmInvocationLimit) :
    ∃ t, Event.Step p (.returned thread unfailing
      (.gcmEncrypt (some 0) (.bytes [7]) (.null 0) (some 0) (some 0) (some 0) (some 0)) .ok t)
        (p.leave thread t) := by
  have hlen : ([7] : List Byte).length ≤ AesGcm.kMaxPlaintextBytes := by decide
  have hencrypt :=
    AesGcm.encrypt_ends Os.plain (p.enter thread).world ((p.enter thread).key 0) [] hlen hcount
    (generateNonce_serves Os.plain_serves _)
  have hlibrary := libraryOn_ends unfailing_unfailing.library hencrypt
  apply Exists.intro
  exact attempt_steps rfl ((toBytes_copied (.inl unfailing_unfailing.text) _).bind ((toBytes_copied
    (.inl unfailing_unfailing.aad) _).bind (hlibrary.bind ((op_ends _ _).bind ((op_ends _ _).bind
      (allocateOutput_granted (unfailing_unfailing.denies .output) _ 0 0 _))))))

theorem gcmDecrypt_steps {p : Process} (thread : Nat) {nonce : Vector Byte kNonceSizeBytes}
    {tag : Vector Byte kGcmTagSizeBytes} {data : List Byte}
    (hlen : data.length ≤ AesGcm.kMaxPlaintextBytes)
    (htag : AesGcm.tagOf (p.state.key 0) nonce [] data = tag) :
    ∃ t, Event.Step p (.returned thread unfailing
      (.gcmDecrypt (some 0) (some nonce) (some tag) (.bytes data) (.null 0) (some 1) (some 1)) .ok
        t) (p.leave thread t) := by
  have hdecrypt :=
    AesGcm.decrypt_accepts Os.plain (p.enter thread).world ((p.enter thread).key 0)
      ⟨nonce, tag, data⟩ hlen htag
  have hlibrary := library_ends unfailing_unfailing.library hdecrypt
  apply Exists.intro
  exact attempt_steps rfl ((toBytes_copied (.inl unfailing_unfailing.text) _).bind ((toBytes_copied
    (.inl unfailing_unfailing.aad) _).bind ((op_ends _ _).bind (hlibrary.bind
      (allocateOutput_granted (unfailing_unfailing.denies .output) _ 1 1 _)))))

/-- One thread generates a key and encrypts, and another one decrypts. -/
theorem run_gcmRoundTrip_oneByte : ∃ events q t, Run Process.initial events q ∧ Finds t 1 1 [7] := by
  obtain ⟨s₁, key, hgenerate, hcount, hhandles, hout⟩ := keyGenerate_steps Process.initial 0 0
  have hkey : (Process.initial.leave 0 s₁).state.key 0 = key := by
    rw [CState.key, Process.leave, hhandles]
    rfl
  obtain ⟨s₂, hencrypt⟩ := gcmEncrypt_steps (Process.initial.leave 0 s₁) 0 (by rw [hkey, hcount]; decide)
  obtain ⟨data, aadData, drawn, hdata, haad, hlength, hnonce, htag, hfinds⟩ := gcmEncrypt_found hencrypt
  obtain rfl := Option.some.inj haad
  -- the container is passed on to the other thread
  set u := Process.initial.leave 0 s₁
  have hsame : Operation.SameKey (u.state.key 0) ((u.leave 0 s₂).state.key 0) :=
    hencrypt.grows.keys 0
      (by rw [show u.state.handles = _ from hhandles, List.length_append]; exact Nat.succ_pos _)
  have hciphertext :
      (AesGcm.gcmContainer (u.state.key 0) drawn data []).ciphertext.length ≤
        AesGcm.kMaxPlaintextBytes := by
    rwa [AesGcm.gcmContainer, length_keystreamXor]
  have htags : AesGcm.tagOf ((u.leave 0 s₂).state.key 0) (s₂.memory.nonces 0) []
      (AesGcm.gcmContainer (u.state.key 0) drawn data []).ciphertext = s₂.memory.tags 0 := by
    rw [hsame.tagOf, hnonce, htag]
    rfl
  obtain ⟨t, hdecrypt⟩ := gcmDecrypt_steps 1 hciphertext htags
  have howned : 0 ∈ ownedKeys [.returned 0 unfailing (.keyGenerate 128 (some 0)) .ok s₁] := by
    rw [ownedKeys, Event.handedKey, Call.outKey, Option.map_some, hout]
    · exact List.mem_cons_self
    · simp
  have hrun := Run.next (.next (.next .start hgenerate) hencrypt) hdecrypt
  have hok := (run_gcmRoundTrip starts_initial hrun ⟨fun k hk => Option.some.inj hk ▸ howned,
    fun k hk => Option.some.inj hk ▸ howned, fun k hk => absurd hk (by simp [Call.handle]), trivial⟩
    (show _ = [] ++ _ :: ([] ++ _ :: [_]) from rfl) ⟨_, rfl, hfinds⟩).2
  obtain ⟨data', hdata', hfinds', -⟩ := hok rfl
  obtain rfl := Option.some.inj hdata'
  exact ⟨_, _, t, hrun, hfinds'⟩

end OneMessage

end Aeslib.CApi
