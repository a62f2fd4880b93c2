import Aeslib.CtrLaws
import Aeslib.LibraryRuns

/-!
The cipher inputs of a session: any sequence of encryptions, in both modes and under one key or
several. As long as no nonce is drawn twice, no block is encrypted twice, with one exception: each
GCM message encrypts the zero block for its hash subkey, and so does a CTR message under the zero
nonce.
-/

namespace Aeslib

open Bytes Prog

def zeroBlock : Block := Vector.replicate kBlockSizeBytes 0

def Operation.isCtr : Operation → Bool
  | encryptCtr .. => true
  | _ => false

def Operation.isEncryption : Operation → Bool
  | encryptCtr .. | encryptGcm .. => true
  | _ => false

/-- The nonce of an encryption that has returned. -/
def EndedCall.nonce : EndedCall → Option (Vector Byte kNonceSizeBytes)
  | ⟨.encryptCtr .., .ok container⟩ => some container.nonce
  | ⟨.encryptGcm .., .ok (container, _)⟩ => some container.nonce
  | _ => none

theorem makeCounterBlock_inj {nonce nonce' : Vector Byte kNonceSizeBytes} {counter counter' : BitVec 32}
    (h : makeCounterBlock nonce counter = makeCounterBlock nonce' counter') : nonce = nonce' := by
  have hlists := congrArg Vector.toList h
  rw [makeCounterBlock, makeCounterBlock, Vector.toList_append, Vector.toList_append] at hlists
  exact Vector.toList_inj.mp
    (List.append_inj_left hlists (by rw [Vector.length_toList, Vector.length_toList]))

section Calls

variable {os : Os} {key : SecretKey} {w v : World}

/-- A CTR encryption throws before it uses the cipher, or encrypts its counter blocks. -/
theorem Aes256Ctr.encrypt_inputs {plaintext : List Byte} {r : Except Error Container}
    (h : Ends (Aes256Ctr.encrypt os key plaintext) w r v) : ((∃ e, r = .error e) ∧ v.trace = w.trace) ∨
      ∃ container, r = .ok container ∧ plaintext.length ≤ Aes256Ctr.kMaxPlaintextBytes ∧
        v.trace = w.trace ++ (counterBlocks 0 container.nonce plaintext.length).map .cipher := by
  by_cases hlen : plaintext.length ≤ Aes256Ctr.kMaxPlaintextBytes
  · have hrest := h
    rw [Aes256Ctr.encrypt, (Aes256Ctr.validateBlockCount_ends hlen w).bind_iff] at hrest
    rcases ends_bind.mp hrest with ⟨nonce, w₁, hnonce, -⟩ | ⟨e, he, hnonce⟩
    · obtain ⟨rfl, rfl⟩ := h.unique (Aes256Ctr.encrypt_ends key hlen hnonce)
      refine .inr ⟨_, rfl, hlen, ?_⟩
      rw [World.ciphered, fillRandom_trace hnonce]
    · exact .inl ⟨⟨e, he⟩, fillRandom_trace hnonce⟩
  · obtain ⟨rfl, rfl⟩ := h.unique (Aes256Ctr.encrypt_refuses os w key (by omega))
    exact .inl ⟨⟨_, rfl⟩, rfl⟩

theorem AesGcm.encrypt_inputs {plaintext aad : List Byte} {r : Except Error GcmContainer}
    {key' : SecretKey} (h : Ends (AesGcm.encrypt os plaintext aad) (w, key) r (v, key')) :
    ((∃ e, r = .error e) ∧ v.trace = w.trace) ∨
      ∃ container, r = .ok container ∧ plaintext.length ≤ AesGcm.kMaxPlaintextBytes ∧
        v.trace = w.trace ++
          (counterBlocks 2 container.nonce plaintext.length ++ tagInputs container.nonce).map .cipher := by
  cases encrypt_cases os w key h with
  | refused _ => exact .inl ⟨⟨_, rfl⟩, rfl⟩
  | limited _ _ => exact .inl ⟨⟨_, rfl⟩, rfl⟩
  | undrawn _ _ hnonce => exact .inl ⟨⟨_, rfl⟩, fillRandom_trace hnonce⟩
  | returned hlen _ hnonce =>
      refine .inr ⟨_, rfl, hlen, ?_⟩
      rw [World.ciphered_ciphered, World.ciphered, fillRandom_trace hnonce, gcmContainer]

/-- What the blocks that `p` selects have to be like. -/
structure CallInputs (p : Block → Bool) (x : EndedCall) (blocks : List Block) : Prop where
  /-- A selected block carries the nonce of the call. -/
  nonce : ∀ b ∈ blocks, p b = true → ∃ nonce counter, x.nonce = some nonce ∧
    b = makeCounterBlock nonce counter
  nodup : (blocks.filter p).Nodup

theorem CallInputs.nil (p : Block → Bool) (x : EndedCall) : CallInputs p x [] where
  nonce _ hb := absurd hb List.not_mem_nil
  nodup := List.nodup_nil

theorem counterBlock_of_mem {start : BitVec 32} {nonce : Vector Byte kNonceSizeBytes} {length : Nat}
    {b : Block} (hb : b ∈ counterBlocks start nonce length) :
    ∃ counter, b = makeCounterBlock nonce counter := by
  obtain ⟨k, -, rfl⟩ := List.mem_map.mp hb
  exact ⟨_, rfl⟩

/-- Every input of a CTR encryption carries its nonce. -/
theorem encryptCtr_callInputs {plaintext : List Byte} {r : Except Error Container}
    (h : Ends ((Operation.encryptCtr key plaintext).prog os) w r v) (p : Block → Bool) :
    ∃ blocks : List Block, v.trace = w.trace ++ blocks.map .cipher ∧
    CallInputs p ⟨.encryptCtr key plaintext, r⟩ blocks := by
  rcases Aes256Ctr.encrypt_inputs h with ⟨-, htrace⟩ | ⟨container, rfl, hlen, htrace⟩
  · exact ⟨[], by rw [htrace, List.map_nil, List.append_nil], .nil p _⟩
  · refine ⟨_, htrace, fun b hb _ => ?_, (counterBlocks_nodup container.nonce 0 hlen).filter p⟩
    obtain ⟨counter, hcounter⟩ := counterBlock_of_mem hb
    exact ⟨container.nonce, counter, rfl, hcounter⟩

/-- So does every input of a GCM encryption but the zero block. -/
theorem encryptGcm_callInputs {plaintext aad : List Byte} {r : Except Error (GcmContainer × SecretKey)}
    (h : Ends ((Operation.encryptGcm key plaintext aad).prog os) w r v) : ∃ blocks : List Block,
    v.trace = w.trace ++ blocks.map .cipher ∧
    CallInputs (· ≠ zeroBlock) ⟨.encryptGcm key plaintext aad, r⟩ blocks := by
  obtain ⟨r', key', hends, rfl⟩ := ends_withState.mp h
  rcases AesGcm.encrypt_inputs hends with ⟨-, htrace⟩ | ⟨container, rfl, hlen, htrace⟩
  · exact ⟨[], by rw [htrace, List.map_nil, List.append_nil], .nil _ _⟩
  · have hnodup := List.nodup_append_comm.mp (tagInputs_counterBlocks_nodup container.nonce hlen)
    refine ⟨_, htrace, fun b hb hzero => ?_, hnodup.filter _⟩
    rcases List.mem_append.mp hb with hb | hb
    · obtain ⟨counter, hcounter⟩ := counterBlock_of_mem hb
      exact ⟨container.nonce, counter, rfl, hcounter⟩
    · rcases List.mem_cons.mp hb with rfl | hb
      · simp [zeroBlock] at hzero
      · exact ⟨container.nonce, 1, rfl, List.mem_singleton.mp hb⟩

end Calls

section Session

variable {os : Os} {calls : List EndedCall} {w v : World}

/-- Calls whose selected inputs carry their nonces, one after the other. -/
theorem session_inputs {p : Block → Bool} (h : Calls os calls w v)
    (hstep : ∀ (x : EndedCall) (s t : World), x ∈ calls → Ends (x.1.prog os) s x.2 t →
      ∃ blocks : List Block, t.trace = s.trace ++ blocks.map .cipher ∧ CallInputs p x blocks)
    (hnonces : (calls.filterMap EndedCall.nonce).Nodup) :
    ∃ blocks : List Block, v.trace = w.trace ++ blocks.map .cipher ∧
      (∀ b ∈ blocks, p b = true → ∃ nonce ∈ calls.filterMap EndedCall.nonce, ∃ counter,
        b = makeCounterBlock nonce counter) ∧
      (blocks.filter p).Nodup := by
  induction h with
  | done s => exact ⟨[], by simp, by simp, List.nodup_nil⟩
  | @next c r rest s t u hends _ ih =>
      obtain ⟨first, htrace, hfirst⟩ := hstep ⟨c, r⟩ s t List.mem_cons_self hends
      have htail : (rest.filterMap EndedCall.nonce).Nodup := by
        rw [List.filterMap_cons] at hnonces
        split at hnonces
        · exact hnonces
        · exact hnonces.of_cons
      obtain ⟨later, hlaterTrace, hlater, hlaterNodup⟩ :=
        ih (fun x s t hx => hstep x s t (List.mem_cons_of_mem _ hx)) htail
      refine ⟨first ++ later, ?_, fun b hb hp => ?_, ?_⟩
      · rw [hlaterTrace, htrace, List.map_append, List.append_assoc]
      · rcases List.mem_append.mp hb with hb | hb
        · obtain ⟨nonce, counter, hnonce, hblock⟩ := hfirst.nonce b hb hp
          exact ⟨nonce, List.mem_filterMap.mpr ⟨⟨c, r⟩, List.mem_cons_self, hnonce⟩, counter, hblock⟩
        · obtain ⟨nonce, hnonce, counter, hblock⟩ := hlater b hb hp
          obtain ⟨x, hx, hxnonce⟩ := List.mem_filterMap.mp hnonce
          exact ⟨nonce, List.mem_filterMap.mpr ⟨x, List.mem_cons_of_mem _ hx, hxnonce⟩, counter, hblock⟩
      · rw [List.filter_append]
        refine List.nodup_append.mpr ⟨hfirst.nodup, hlaterNodup, ?_⟩
        rintro a ha b hb rfl
        obtain ⟨ha, hp⟩ := List.mem_filter.mp ha
        obtain ⟨nonce, counter, hnonce, hblock⟩ := hfirst.nonce a ha hp
        obtain ⟨nonce', hnonce', counter', hblock'⟩ := hlater a (List.mem_filter.mp hb).1 hp
        -- the nonce of the first call would come up again
        obtain rfl := makeCounterBlock_inj (hblock.symm.trans hblock')
        rw [List.filterMap_cons_some hnonce] at hnonces
        exact (List.nodup_cons.mp hnonces).1 hnonce'

/-- An encryption of either mode satisfies what a session asks of it. -/
theorem encryption_callInputs {x : EndedCall} (hx : x.1.isEncryption = true)
    (h : Ends (x.1.prog os) w x.2 v) :
    ∃ blocks : List Block, v.trace = w.trace ++ blocks.map .cipher ∧
    CallInputs (· ≠ zeroBlock) x blocks := by
  obtain ⟨c, r⟩ := x
  cases c with
  | encryptCtr key plaintext => exact encryptCtr_callInputs h _
  | encryptGcm key plaintext aad => exact encryptGcm_callInputs h
  | _ => simp [Operation.isEncryption] at hx

theorem ctr_callInputs {x : EndedCall} (hx : x.1.isCtr = true) (h : Ends (x.1.prog os) w x.2 v)
    (p : Block → Bool) :
    ∃ blocks : List Block, v.trace = w.trace ++ blocks.map .cipher ∧ CallInputs p x blocks := by
  obtain ⟨c, r⟩ := x
  cases c with
  | encryptCtr key plaintext => exact encryptCtr_callInputs h p
  | _ => simp [Operation.isCtr] at hx

/-- **A session encrypts no block twice**, as long as no nonce is drawn twice: apart from the zero
block, whatever the modes and the order of the calls; and without exception if all of them are CTR
encryptions. -/
theorem session_inputs_distinct (h : Calls os calls w v)
    (hencryptions : ∀ x ∈ calls, x.1.isEncryption = true)
    (hnonces : (calls.filterMap EndedCall.nonce).Nodup) :
    ∃ blocks : List Block, v.trace = w.trace ++ blocks.map .cipher ∧
      (blocks.filter (· ≠ zeroBlock)).Nodup ∧
      ((∀ x ∈ calls, x.1.isCtr = true) → blocks.Nodup) := by
  obtain ⟨blocks, htrace, -, hnodup⟩ :=
    session_inputs h (fun x s t hx hends => encryption_callInputs (hencryptions x hx) hends) hnonces
  refine ⟨blocks, htrace, hnodup, fun hctr => ?_⟩
  -- the same run once more, with every block selected
  obtain ⟨blocks', htrace', -, hnodup'⟩ :=
    session_inputs (p := fun _ => true) h (fun x s t hx hends => ctr_callInputs (hctr x hx) hends _)
      hnonces
  have hmaps := List.append_cancel_left (htrace'.symm.trans htrace)
  obtain rfl := List.map_injective_iff.mpr (fun a b hab => by injection hab) hmaps
  rwa [List.filter_true] at hnodup'

end Session

/-- A platform whose random bytes tell the time of the draw. -/
def Os.timed : Os := { Os.plain with randomByte := fun time _ => BitVec.ofNat 8 (time + 1) }

theorem Os.timed_serves : Os.timed.Serves := { Os.plain_serves with }

/-- One call of either mode under one key, with the nonces of the times 0 and 2. -/
theorem session_inputs_distinct_bothModes : ∃ r r' v,
    Calls Os.timed [⟨.encryptCtr {} [7], r⟩, ⟨.encryptGcm {} [8] [9], r'⟩] World.empty v ∧
    ∃ blocks : List Block, v.trace = World.empty.trace ++ blocks.map .cipher ∧
      (blocks.filter (· ≠ zeroBlock)).Nodup ∧
      ((∀ x ∈ ([⟨.encryptCtr {} [7], r⟩, ⟨.encryptGcm {} [8] [9], r'⟩] : List EndedCall),
        x.1.isCtr = true) → blocks.Nodup) := by
  have hctr : ([7] : List Byte).length ≤ Aes256Ctr.kMaxPlaintextBytes := by decide
  have hgcm : ([8] : List Byte).length ≤ AesGcm.kMaxPlaintextBytes := by decide
  set w := World.empty.tick.ciphered (counterBlocks 0 (Os.timed.draw 0 kNonceSizeBytes) 1)
  have hfirst : Ends ((Operation.encryptCtr {} [7]).prog Os.timed) World.empty (.ok _) w :=
    Aes256Ctr.encrypt_ends {} hctr (generateNonce_serves Os.timed_serves World.empty)
  have hsecond := AesGcm.encrypt_ends Os.timed w {} [9] hgcm (by decide)
    (generateNonce_serves Os.timed_serves w)
  have hcalls : Calls Os.timed _ World.empty _ :=
    .next hfirst (.next (c := Operation.encryptGcm {} [8] [9])
      (ends_withState.mpr ⟨_, _, hsecond, rfl⟩) (.done _))
  have hnonces : Os.timed.draw 0 kNonceSizeBytes ≠ Os.timed.draw 2 kNonceSizeBytes := by decide
  exact ⟨_, _, _, hcalls, session_inputs_distinct hcalls (by simp [Operation.isEncryption])
    (List.nodup_cons.mpr ⟨fun hmem => hnonces (List.mem_singleton.mp hmem), List.nodup_singleton _⟩)⟩

end Aeslib
