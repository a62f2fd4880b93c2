import Aeslib.Gcm
import Aeslib.KeyStorageRoundTrip
import Aeslib.LibRequests

/-!
The Linux loop of `src/csprng.cpp` against an arbitrary row of `getrandom` results. `fillRandomAt`
is the loop on the address of its buffer; its state records each byte that the kernel stores.
`Drawn` is what the random source has handed out so far. The stores of the loop are the drawn bytes,
one after another from the start of the buffer on.
-/

namespace Aeslib

open Prog Requests

/-- The results as counts; an interrupted call brings nothing. -/
def Os.getrandomAnswers (os : Os) : Answers := fun time count =>
  match os.getrandom time count with
  | .filled count => some count
  | .interrupted => some 0
  | .failed _ => none

/-- With `n` bytes asked for from the time `t` on, the source has handed out the bytes by the time
`u`. -/
inductive Drawn (os : Os) (t n : Nat) : Nat → List Byte → Prop where
  | start : Drawn os t n t []
  | filled {u bytes count} : Drawn os t n u bytes → bytes.length < n →
      os.getrandom u (n - bytes.length) = .filled count →
      Drawn os t n (u + 1) (bytes ++ os.randomBytes u (min count (n - bytes.length)))
  | interrupted {u bytes} : Drawn os t n u bytes → bytes.length < n →
      os.getrandom u (n - bytes.length) = .interrupted → Drawn os t n (u + 1) bytes

/-- The bytes come from the random source, all of them. -/
def Os.Supplied (os : Os) (bytes : List Byte) : Prop := ∃ t u, Drawn os t bytes.length u bytes

@[simp] theorem Os.length_randomBytes (os : Os) (time count : Nat) :
    (os.randomBytes time count).length = count := by
  rw [randomBytes, List.length_map, List.length_range]

section Drawn

variable {os : Os} {t n u c : Nat} {bytes : List Byte}

theorem Os.getrandomAnswers_eq_none {os : Os} (h : os.getrandomAnswers u n = none) :
    ∃ strerror, os.getrandom u n = .failed strerror := by
  unfold getrandomAnswers at h
  split at h
  · simp at h
  · simp at h
  · exact ⟨_, ‹_›⟩

theorem Drawn.le (h : Drawn os t n u bytes) : t ≤ u := by
  induction h with
  | start => exact le_rfl
  | filled _ _ _ ih => exact Nat.le_succ_of_le ih
  | interrupted _ _ _ ih => exact Nat.le_succ_of_le ih

theorem Drawn.unique {bytes' : List Byte} (h : Drawn os t n u bytes) (h' : Drawn os t n u bytes') :
    bytes = bytes' := by
  induction h generalizing bytes' with
  | start =>
      cases h' with
      | start => rfl
      | filled hbefore => exact absurd hbefore.le (Nat.not_succ_le_self _)
      | interrupted hbefore => exact absurd hbefore.le (Nat.not_succ_le_self _)
  | filled hbefore _ hresult ih =>
      cases h' with
      | start => exact absurd hbefore.le (Nat.not_succ_le_self _)
      | filled hbefore' _ hresult' =>
          obtain rfl := ih hbefore'
          rw [hresult, GetrandomAnswer.filled.injEq] at hresult'
          rw [hresult']
      | interrupted hbefore' _ hresult' =>
          obtain rfl := ih hbefore'
          simp [hresult] at hresult'
  | interrupted hbefore _ hresult ih =>
      cases h' with
      | start => exact absurd hbefore.le (Nat.not_succ_le_self _)
      | filled hbefore' _ hresult' =>
          obtain rfl := ih hbefore'
          simp [hresult] at hresult'
      | interrupted hbefore' => exact ih hbefore'

/-- The calls that it takes. -/
theorem Drawn.left (h : Drawn os t n u bytes) : Left os.getrandomAnswers t n u (n - bytes.length) := by
  induction h with
  | start => exact .start
  | @filled u bytes count _ hlt hresult ih =>
      have hcount : os.getrandomAnswers u (n - bytes.length) = some count := by
        simp [Os.getrandomAnswers, hresult]
      have hnext := ih.next (Nat.sub_pos_of_lt hlt) hcount
      have hrest : n - bytes.length - count =
          n - (bytes.length + min count (n - bytes.length)) := by omega
      rwa [hrest, ← Os.length_randomBytes os u
        (min count (n - bytes.length)), ← List.length_append] at hnext
  | @interrupted u bytes _ hlt hresult ih =>
      have hcount : os.getrandomAnswers u (n - bytes.length) = some 0 := by
        simp [Os.getrandomAnswers, hresult]
      exact ih.next (Nat.sub_pos_of_lt hlt) hcount

/-- What one more call adds. -/
theorem Drawn.answered (h : Drawn os t n u bytes) (hlt : bytes.length < n)
    (hanswer : os.getrandomAnswers u (n - bytes.length) = some c) :
    ∃ more, Drawn os t n (u + 1) (bytes ++ more) ∧ more.length = min c (n - bytes.length) ∧
      (os.getrandom u (n - bytes.length) = .filled c ∧
        more = os.randomBytes u (min c (n - bytes.length)) ∨
        os.getrandom u (n - bytes.length) = .interrupted ∧ more = []) := by
  cases hresult : os.getrandom u (n - bytes.length) with
  | filled count =>
      obtain rfl : count = c := by simpa [Os.getrandomAnswers, hresult] using hanswer
      exact ⟨_, h.filled hlt hresult, os.length_randomBytes _ _, .inl ⟨rfl, rfl⟩⟩
  | interrupted =>
      obtain rfl : 0 = c := by simpa [Os.getrandomAnswers, hresult] using hanswer
      have hsame := h.interrupted hlt hresult
      rw [← List.append_nil bytes] at hsame
      exact ⟨[], hsame, (Nat.zero_min _).symm, .inr ⟨rfl, rfl⟩⟩
  | failed strerror => simp [Os.getrandomAnswers, hresult] at hanswer

end Drawn

/-- A byte that is stored at an address. -/
abbrev Store := Nat × Byte

def storesAt (address : Nat) (bytes : List Byte) : List Store :=
  (List.range' address bytes.length).zip bytes

theorem storesAt_append (address : Nat) (a b : List Byte) :
    storesAt address (a ++ b) = storesAt address a ++ storesAt (address + a.length) b := by
  rw [storesAt, List.length_append, ← List.range'_append_1, List.zip_append (by rw [List.length_range'])]
  rfl

theorem map_fst_storesAt (address : Nat) (bytes : List Byte) :
    (storesAt address bytes).map Prod.fst = List.range' address bytes.length :=
  List.map_fst_zip (by rw [List.length_range'])

theorem storesAt_within {address : Nat} {bytes : List Byte} {store : Store}
    (h : store ∈ storesAt address bytes) :
    address ≤ store.1 ∧ store.1 < address + bytes.length := by
  have hmem : store.1 ∈ (storesAt address bytes).map Prod.fst := List.mem_map_of_mem h
  rwa [map_fst_storesAt, List.mem_range'_1] at hmem

theorem map_snd_storesAt (address : Nat) (bytes : List Byte) :
    (storesAt address bytes).map Prod.snd = bytes :=
  List.map_snd_zip (by rw [List.length_range'])

/-- One iteration with `filled` bytes in place. -/
def fillRandomStep (os : Os) (buffer size filled : Nat) : Prog (World × List Store) Error (Nat ⊕ Unit) :=
  if filled < size then
    op fun (w, stores) =>
      match os.getrandom w.clock (size - filled) with
      | .filled count =>
        let n := min count (size - filled)
        (.ok (.inl (filled + n)), w.tick,
          stores ++ storesAt (buffer + filled) (os.randomBytes w.clock n))
      | .interrupted => (.ok (.inl filled), w.tick, stores)
      | .failed strerror => (.error (.ioError ("getrandom failed: " ++ strerror)), w.tick, stores)
  else pure (.inr ())

/-- `fill_random` on the `size` bytes from the address `buffer` on. -/
def fillRandomAt (os : Os) (buffer size : Nat) : Prog (World × List Store) Error Unit :=
  loop (fillRandomStep os buffer size) 0

section Address

variable {os : Os} {w : World} {buffer size u m filled : Nat} {s : World × List Store}

/-- The variables of the loop at the time `u` with `m` bytes to go. -/
def FilledAt (os : Os) (w : World) (buffer size u m filled : Nat) (s : World × List Store) : Prop :=
  ∃ bytes, Drawn os w.clock size u bytes ∧ bytes.length = filled ∧ filled + m = size ∧
    s = ({ w with clock := u }, storesAt buffer bytes)

theorem fillRandomStep_follows (os : Os) (w : World) (buffer size : Nat) :
    Follows os.getrandomAnswers (fillRandomStep os buffer size) (FilledAt os w buffer size) := by
  rintro u m c _ _ ⟨bytes, hdrawn, rfl, hleft, rfl⟩ hm hanswer
  obtain rfl : m = size - bytes.length := by omega
  have hlt : bytes.length < size := by omega
  obtain ⟨more, hdrawn', hlength, hcall⟩ := hdrawn.answered hlt hanswer
  refine ⟨(bytes ++ more).length, ({ w with clock := u + 1 }, storesAt buffer (bytes ++ more)), ?_,
    bytes ++ more, hdrawn', rfl, ?_, rfl⟩
  · rw [fillRandomStep, if_pos hlt, ends_op, List.length_append, hlength, storesAt_append]
    rcases hcall with ⟨hresult, rfl⟩ | ⟨hresult, rfl⟩
    · simp only [hresult, World.tick]
    · rw [← hlength]
      simp [hresult, World.tick, storesAt]
  · rw [List.length_append, hlength]
    omega

theorem FilledAt.done (h : FilledAt os w buffer size u 0 filled s) :
    Ends (loop (fillRandomStep os buffer size) filled) s (.ok ()) s := by
  obtain ⟨bytes, -, -, hfilled, -⟩ := h
  refine Ends.loop_done ?_
  rw [fillRandomStep, if_neg (by omega), ends_pure]
  exact ⟨rfl, rfl⟩

theorem FilledAt.fails {strerror : String} (h : FilledAt os w buffer size u m filled s) (hm : 0 < m)
    (hresult : os.getrandom u m = .failed strerror) :
    Ends (loop (fillRandomStep os buffer size) filled) s
    (.error (.ioError ("getrandom failed: " ++ strerror)))
      (s.1.tick, s.2) := by
  obtain ⟨bytes, -, -, hfilled, rfl⟩ := h
  obtain rfl : m = size - filled := by omega
  refine Ends.loop_error ?_
  rw [fillRandomStep, if_pos (by omega), ends_op]
  simp only [hresult]

theorem filledAt_start : FilledAt os w buffer size w.clock size 0 (w, []) :=
  ⟨[], .start, rfl, Nat.zero_add _, rfl⟩

/-- The two ways in which the loop ends. -/
theorem fillRandomAt_ends {r : Except Error Unit} (h : Ends (fillRandomAt os buffer size) (w, []) r s) :
    ∃ u bytes, Drawn os w.clock size u bytes ∧ s.2 = storesAt buffer bytes ∧
      (r = .ok () ∧ bytes.length = size ∧ s.1 = { w with clock := u } ∨
        ∃ strerror, r = .error (.ioError ("getrandom failed: " ++ strerror)) ∧ bytes.length < size) := by
  obtain ⟨u, m, filled, s', -, hfilled, hlast, hrest⟩ :=
    (fillRandomStep_follows os w buffer size).ends_last filledAt_start h
  rcases hlast with rfl | ⟨hm, hanswer⟩
  · obtain ⟨rfl, rfl⟩ := hrest.unique hfilled.done
    obtain ⟨bytes, hdrawn, hlength, hall, rfl⟩ := hfilled
    exact ⟨u, bytes, hdrawn, rfl, .inl ⟨rfl, by omega, rfl⟩⟩
  · obtain ⟨strerror, hresult⟩ := Os.getrandomAnswers_eq_none hanswer
    obtain ⟨rfl, rfl⟩ := hrest.unique (hfilled.fails hm hresult)
    obtain ⟨bytes, hdrawn, hlength, hall, rfl⟩ := hfilled
    exact ⟨u, bytes, hdrawn, rfl, .inr ⟨strerror, rfl, by omega⟩⟩

/-- A reported error is thrown. -/
theorem fillRandomAt_throws {bytes : List Byte} {strerror : String} (h : Drawn os w.clock size u bytes)
    (hlt : bytes.length < size) (hresult : os.getrandom u (size - bytes.length) = .failed strerror) :
    Ends (fillRandomAt os buffer size) (w, []) (.error (.ioError ("getrandom failed: " ++ strerror)))
      ({ w with clock := u + 1 }, storesAt buffer bytes) := by
  obtain ⟨filled, s, hfilled, hsame⟩ :=
    (fillRandomStep_follows os w buffer size).reaches filledAt_start h.left
  have hthrow := (hsame _ _).mpr (hfilled.fails (Nat.sub_pos_of_lt hlt) hresult)
  obtain ⟨bytes', hdrawn', -, -, rfl⟩ := hfilled
  rwa [hdrawn'.unique h] at hthrow

end Address

theorem toList_storeBytes {n : Nat} (buffer : Vector Byte n) {bytes : List Byte} (h : bytes.length = n) :
    (storeBytes buffer 0 bytes).toList = bytes := by
  refine List.ext_getElem (by rw [Vector.length_toList, h]) fun i hi hi' => ?_
  rw [Vector.getElem_toList, getElem_storeBytes buffer 0 bytes (by omega), if_pos (Nat.zero_le i),
    Nat.sub_zero, List.getElem?_eq_getElem hi', Option.getD_some]

section Buffer

variable {os : Os} {w w' : World} {n u m : Nat} {buffer : Vector Byte n} {v : Vector Byte n × Nat}
  {s : World}

/-- The variables of the loop at the time `u` with `m` bytes to go. -/
def Filled (os : Os) (w : World) (buffer : Vector Byte n) (u m : Nat) (v : Vector Byte n × Nat)
    (s : World) : Prop :=
  ∃ bytes, Drawn os w.clock n u bytes ∧ bytes.length + m = n ∧
    v = (storeBytes buffer 0 bytes, bytes.length) ∧
    s = { w with clock := u }

theorem getrandomStep_follows (os : Os) (w : World) (buffer : Vector Byte n) :
    Follows os.getrandomAnswers (getrandomStep os) (Filled os w buffer) := by
  rintro u m c _ _ ⟨bytes, hdrawn, hleft, rfl, rfl⟩ hm hanswer
  obtain rfl : m = n - bytes.length := by omega
  have hlt : bytes.length < n := by omega
  obtain ⟨more, hdrawn', hlength, hcall⟩ := hdrawn.answered hlt hanswer
  refine ⟨(storeBytes buffer 0 (bytes ++ more), (bytes ++ more).length),
    { w with clock := u + 1 }, ?_, bytes ++ more, hdrawn', ?_, rfl, rfl⟩
  · rw [getrandomStep, if_pos hlt, ends_op, List.length_append, hlength, storeBytes_append, Nat.zero_add]
    rcases hcall with ⟨hresult, rfl⟩ | ⟨hresult, rfl⟩
    · simp only [hresult, World.tick]
    · rw [← hlength]
      simp [hresult, World.tick, storeBytes_nil]
  · rw [List.length_append, hlength]
    omega

theorem filled_start : Filled os w buffer w.clock n (buffer, 0) w :=
  ⟨[], .start, Nat.zero_add _, by rw [storeBytes_nil, List.length_nil], rfl⟩

theorem Filled.done (h : Filled os w buffer u 0 v s) :
    Ends (loop (getrandomStep os) v) s (.ok v.1) s := by
  obtain ⟨bytes, -, hall, rfl, -⟩ := h
  refine Ends.loop_done ?_
  rw [getrandomStep, if_neg (by omega), ends_pure]
  exact ⟨rfl, rfl⟩

theorem Filled.fails {strerror : String} (h : Filled os w buffer u m v s) (hm : 0 < m)
    (hresult : os.getrandom u m = .failed strerror) :
    Ends (loop (getrandomStep os) v) s (.error (.ioError ("getrandom failed: " ++ strerror)))
      s.tick := by
  obtain ⟨bytes, -, hall, rfl, rfl⟩ := h
  obtain rfl : m = n - bytes.length := by omega
  refine Ends.loop_error ?_
  rw [getrandomStep, if_pos (by omega), ends_op]
  simp only [hresult]

/-- The two loops, where the calls come to an end. -/
theorem both_end (buffer : Vector Byte n) (address : Nat)
    (hleft : Left os.getrandomAnswers w.clock n u m)
    (hlast : m = 0 ∨ 0 < m ∧ os.getrandomAnswers u m = none) :
    ∃ r stores w', Ends (fillRandomAt os address n) (w, []) r (w', stores) ∧
      Ends (loop (getrandomStep os) (buffer, 0)) w
        (r.map fun _ => storeBytes buffer 0 (stores.map Prod.snd)) w' := by
  obtain ⟨v, s, hfilled, hsame⟩ := (getrandomStep_follows os w buffer).reaches filled_start hleft
  obtain ⟨filled, s', hfilled', hsame'⟩ :=
    (fillRandomStep_follows os w address n).reaches filledAt_start hleft
  have hfilledIn := hfilled
  have hfilledAt := hfilled'
  obtain ⟨bytes, hdrawn, -, rfl, rfl⟩ := hfilledIn
  obtain ⟨bytes', hdrawn', -, -, rfl⟩ := hfilledAt
  obtain rfl := hdrawn.unique hdrawn'
  rcases hlast with rfl | ⟨hm, hanswer⟩
  · refine ⟨.ok (), storesAt address bytes, _, (hsame' _ _).mpr hfilled'.done, ?_⟩
    rw [map_snd_storesAt]
    exact (hsame _ _).mpr hfilled.done
  · obtain ⟨strerror, hresult⟩ := Os.getrandomAnswers_eq_none hanswer
    exact ⟨_, _, _, (hsame' _ _).mpr (hfilled'.fails hm hresult),
      (hsame _ _).mpr (hfilled.fails hm hresult)⟩

/-- The buffer ends up as the stores at any address leave it, or both loops throw. -/
theorem fillRandom_ends_iff (hlinux : os.family = .linux) (buffer : Vector Byte n) (address : Nat)
    {r : Except Error (Vector Byte n)} :
    Ends (fillRandom os buffer) w r w' ↔
    ∃ r' stores, Ends (fillRandomAt os address n) (w, []) r' (w', stores) ∧
      r = r'.map fun _ => storeBytes buffer 0 (stores.map Prod.snd) := by
  rw [fillRandom, hlinux]
  constructor
  · intro h
    obtain ⟨u, m, _, _, hleft, -, hlast, -⟩ :=
      (getrandomStep_follows os w buffer).ends_last filled_start h
    obtain ⟨r', stores, w'', hends', hends⟩ := both_end buffer address hleft hlast
    obtain ⟨rfl, rfl⟩ := h.unique hends
    exact ⟨r', stores, hends', rfl⟩
  · rintro ⟨r', stores, h, rfl⟩
    obtain ⟨u, m, _, _, hleft, -, hlast, -⟩ :=
      (fillRandomStep_follows os w address n).ends_last filledAt_start h
    obtain ⟨r'', stores', w'', hends', hends⟩ := both_end buffer address hleft hlast
    obtain ⟨rfl, hstate⟩ := h.unique hends'
    obtain ⟨rfl, rfl⟩ := Prod.mk.inj hstate
    exact hends

/-- A buffer that is returned holds what the source has handed out since the call. -/
theorem fillRandom_drawn (hlinux : os.family = .linux) {result : Vector Byte n}
    (h : Ends (fillRandom os buffer) w (.ok result) w') : Drawn os w.clock n w'.clock result.toList := by
  obtain ⟨r, stores, hends, hresult⟩ := (fillRandom_ends_iff hlinux buffer 0).mp h
  obtain ⟨u, bytes, hdrawn, hstores, ⟨rfl, hlength, rfl⟩ | ⟨strerror, rfl, -⟩⟩ := fillRandomAt_ends hends
  · obtain rfl : stores = storesAt 0 bytes := hstores
    rw [map_snd_storesAt] at hresult
    rw [Except.ok.inj hresult, toList_storeBytes buffer hlength]
    exact hdrawn
  · cases hresult

theorem Os.supplied_of_returned (hlinux : os.family = .linux) {result : Vector Byte n}
    (h : Returned (fillRandom os buffer) result) : os.Supplied result.toList := by
  obtain ⟨w, w', h⟩ := h
  refine ⟨w.clock, w'.clock, ?_⟩
  rw [Vector.length_toList]
  exact fillRandom_drawn hlinux h

end Buffer

/-- **A random buffer is filled completely, or the call throws.** The kernel's stores lie within the
buffer on every end; on a normal one they are one byte for each address, in order, all of them from
the source. Hence every nonce, every salt and every key is from the source as a whole. -/
theorem random_buffers_filled {os : Os} (hlinux : os.family = .linux) :
    (∀ w w' buffer size stores, Ends (fillRandomAt os buffer size) (w, []) (.ok ()) (w', stores) →
      stores.map Prod.fst = List.range' buffer size ∧
      Drawn os w.clock size w'.clock (stores.map Prod.snd)) ∧
    (∀ w w' buffer size r stores, Ends (fillRandomAt os buffer size) (w, []) r (w', stores) →
      ∀ store ∈ stores, buffer ≤ store.1 ∧ store.1 < buffer + size) ∧
    (∀ w buffer size u bytes strerror, Drawn os w.clock size u bytes → bytes.length < size →
      os.getrandom u (size - bytes.length) = .failed strerror →
      ∃ s, Ends (fillRandomAt os buffer size) (w, [])
        (.error (.ioError ("getrandom failed: " ++ strerror))) s) ∧
    (∀ w w' n (buffer : Vector Byte n) address r, Ends (fillRandom os buffer) w r w' ↔
      ∃ r' stores, Ends (fillRandomAt os address n) (w, []) r' (w', stores) ∧
        r = r'.map fun _ => storeBytes buffer 0 (stores.map Prod.snd)) ∧
    (∀ w w' nonce, Ends (generateNonce os) w (.ok nonce) w' →
      Drawn os w.clock kNonceSizeBytes w'.clock nonce.toList) ∧
    (∀ w w' size key, Ends (SecretKey.generate os size) w (.ok key) w' →
      Drawn os w.clock kKeySizeBytes w'.clock key.bytes.toList) ∧
    (∀ key plaintext container, Returned (Aes256Ctr.encrypt os key plaintext) container →
      os.Supplied container.nonce.toList) ∧
    (∀ plaintext aad container, Returned (AesGcm.encrypt os plaintext aad) container →
      os.Supplied container.nonce.toList) ∧
    ∀ key path passphrase iterations w w',
      Ends (SecretKey.saveToFileEncrypted os key path passphrase iterations) w (.ok ()) w' →
      ∃ salt nonce, os.Supplied salt.toList ∧ os.Supplied nonce.toList ∧
        w'.files path = some (wrappedKeyFile key passphrase iterations salt nonce) := by
  refine ⟨fun w w' buffer size stores h => ?_, fun w w' buffer size r stores h store hstore => ?_,
    fun w buffer size u bytes strerror hdrawn hlt hresult => ⟨_, fillRandomAt_throws hdrawn hlt hresult⟩,
    fun w w' n buffer address r => fillRandom_ends_iff hlinux buffer address,
    fun w w' nonce h => fillRandom_drawn hlinux h, fun w w' size key h => ?_,
    fun key plaintext container h => ?_,
    fun plaintext aad container h => ?_, fun key path passphrase iterations w w' h => ?_⟩
  · obtain ⟨u, bytes, hdrawn, hstores, ⟨-, rfl, rfl⟩ | ⟨strerror, herror, -⟩⟩ := fillRandomAt_ends h
    · obtain rfl : stores = storesAt buffer bytes := hstores
      rw [map_fst_storesAt, map_snd_storesAt]
      exact ⟨rfl, hdrawn⟩
    · simp at herror
  · obtain ⟨u, bytes, -, hstores, hlast⟩ := fillRandomAt_ends h
    obtain rfl : stores = storesAt buffer bytes := hstores
    have hle : bytes.length ≤ size := by
      rcases hlast with ⟨-, hall, -⟩ | ⟨_, -, hlt⟩
      · exact hall.le
      · exact hlt.le
    have hwithin := storesAt_within hstore
    omega
  · rcases ends_bind.mp h with ⟨bytes, w₁, hbytes, hkey⟩ | ⟨_, herror, -⟩
    · obtain ⟨heq, rfl⟩ := (ends_pure _ _ _ _).mp hkey
      rw [Except.ok.inj heq]
      exact fillRandom_drawn hlinux hbytes
    · exact absurd herror (by simp)
  · obtain ⟨w, w', h⟩ := h
    obtain ⟨-, nonce, hnonce, rfl⟩ := Aes256Ctr.encrypt_triple os key plaintext trivial h
    exact Os.supplied_of_returned hlinux hnonce
  · obtain ⟨⟨w, key⟩, s, h⟩ := h
    obtain ⟨-, -, nonce, hnonce, rfl⟩ := AesGcm.encrypt_triple os key plaintext aad rfl h
    exact Os.supplied_of_returned hlinux hnonce
  · obtain ⟨-, -, salt, nonce, hsalt, hnonce, hfile⟩ :=
      saveToFileEncrypted_stores os key path passphrase iterations trivial h
    exact ⟨salt, nonce, Os.supplied_of_returned hlinux hsalt, Os.supplied_of_returned hlinux hnonce,
      hfile⟩

/-- A source that is interrupted at every other call and hands out single bytes. -/
def Os.sparing : Os :=
  { Os.plain with getrandom := fun time _ => if time % 2 = 0 then .interrupted else .filled 1 }

/-- A source that is not there. -/
def Os.sourceless : Os := { Os.plain with getrandom := fun _ _ => .failed "Function not implemented" }

theorem random_buffers_filled_sparing :
    (∃ w stores, Ends (fillRandomAt Os.sparing 100 2) (World.empty, []) (.ok ()) (w, stores) ∧
      stores.map Prod.fst = [100, 101] ∧ Drawn Os.sparing 0 2 4 (stores.map Prod.snd)) ∧
    ∃ s, Ends (fillRandomAt Os.sourceless 100 2) (World.empty, [])
      (.error (.ioError ("getrandom failed: " ++ "Function not implemented"))) s := by
  obtain ⟨hfills, -⟩ := random_buffers_filled (show Os.sparing.family = .linux by decide)
  obtain ⟨-, -, hthrows, -⟩ := random_buffers_filled (show Os.sourceless.family = .linux by decide)
  have hrun : Ends (fillRandomAt Os.sparing 100 2) (World.empty, []) (.ok ())
      ({ World.empty with clock := 4 }, [(100, 0), (101, 0)]) := ⟨6, rfl⟩
  exact ⟨⟨_, _, hrun, hfills _ _ _ _ _ hrun⟩, hthrows World.empty 100 2 0 [] _ .start (by decide) rfl⟩

end Aeslib
