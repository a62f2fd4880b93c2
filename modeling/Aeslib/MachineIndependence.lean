import Aeslib.LibraryRuns

/-!
The dispatch between the backends is invisible. Two platforms that differ in the processor, in its
capability bit and in the environment variable run every operation alike: the same values and
exceptions, the same files, the same blocks in the same order. Only `active_backend` itself tells
them apart.
-/

namespace Aeslib

open Prog SecretKey

/-- The platform on another processor and with another environment. -/
def Os.onMachine (os : Os) (arch : Arch) (cpuHasAes : Bool) (getenv : Nat → Option String) : Os :=
  { os with arch, cpuHasAes, getenv }

/-- A block encryption as one step, in which the platform has no part. -/
theorem encryptBlock_eq_op (os : Os) (key : SecretKey) (block : Block) : encryptBlock os key block =
    op fun w => (.ok (blockCipher key block), w.tick.record (.cipher block)) := by
  refine eq_of_run fun n w => ?_
  obtain ⟨m, hends⟩ := encryptBlock_ends os w key block
  have hsteps : (encryptBlock os key block).run n w = (encryptBlock os key block).run m w := by
    -- every part of it is an atomic step, whose run takes no fuel
    rfl
  rw [hsteps, hends]
  rfl

section Machine

variable (os : Os) (arch : Arch) (cpuHasAes : Bool) (getenv : Nat → Option String)

theorem encryptBlock_onMachine :
    encryptBlock (os.onMachine arch cpuHasAes getenv) = encryptBlock os := by
  funext key block
  rw [encryptBlock_eq_op, encryptBlock_eq_op]

theorem applyKeystreamFrom_onMachine :
    applyKeystreamFrom (os.onMachine arch cpuHasAes getenv) = applyKeystreamFrom os := by
  funext start key nonce input
  have hbody : keystreamBody (os.onMachine arch cpuHasAes getenv) key nonce input =
      keystreamBody os key nonce input := by
    funext s
    rw [keystreamBody, keystreamBody, encryptBlock_onMachine]
  rw [applyKeystreamFrom, applyKeystreamFrom, hbody]

theorem computeTag_onMachine :
    AesGcm.computeTag (os.onMachine arch cpuHasAes getenv) = AesGcm.computeTag os := by
  funext key nonce aad ciphertext
  rw [AesGcm.computeTag, AesGcm.computeTag, encryptBlock_onMachine]

theorem encryptCtr_onMachine :
    Aes256Ctr.encrypt (os.onMachine arch cpuHasAes getenv) = Aes256Ctr.encrypt os := by
  funext key plaintext
  unfold Aes256Ctr.encrypt Aes256Ctr.applyKeystream
  rw [applyKeystreamFrom_onMachine]
  rfl

theorem decryptCtr_onMachine :
    Aes256Ctr.decrypt (os.onMachine arch cpuHasAes getenv) = Aes256Ctr.decrypt os := by
  funext key container
  unfold Aes256Ctr.decrypt Aes256Ctr.applyKeystream
  rw [applyKeystreamFrom_onMachine]

theorem encryptGcm_onMachine :
    AesGcm.encrypt (os.onMachine arch cpuHasAes getenv) = AesGcm.encrypt os := by
  funext plaintext aad
  unfold AesGcm.encrypt AesGcm.applyKeystream
  rw [applyKeystreamFrom_onMachine, computeTag_onMachine]
  rfl

theorem decryptGcm_onMachine :
    AesGcm.decrypt (os.onMachine arch cpuHasAes getenv) = AesGcm.decrypt os := by
  funext key container aad
  unfold AesGcm.decrypt AesGcm.applyKeystream
  rw [applyKeystreamFrom_onMachine, computeTag_onMachine]

theorem saveToFileEncrypted_onMachine :
    saveToFileEncrypted (os.onMachine arch cpuHasAes getenv) = saveToFileEncrypted os := by
  funext key path passphrase iterations
  unfold saveToFileEncrypted
  rw [encryptCtr_onMachine]
  rfl

theorem loadFromFileEncrypted_onMachine :
    loadFromFileEncrypted (os.onMachine arch cpuHasAes getenv) = loadFromFileEncrypted os := by
  funext path passphrase
  unfold loadFromFileEncrypted unwrapKey
  rw [decryptCtr_onMachine]
  rfl

/-- A single call. -/
theorem Operation.prog_onMachine {c : Operation} (hc : c ≠ .activeBackend) :
    c.prog (os.onMachine arch cpuHasAes getenv) = c.prog os := by
  cases c with
  | encryptCtr key plaintext => rw [prog, prog, encryptCtr_onMachine]
  | decryptCtr key container => rw [prog, prog, decryptCtr_onMachine]
  | encryptGcm key plaintext aad => rw [prog, prog, encryptGcm_onMachine]
  | decryptGcm key container aad => rw [prog, prog, decryptGcm_onMachine]
  | saveToFileEncrypted key path passphrase iterations => rw [prog, prog, saveToFileEncrypted_onMachine]
  | loadFromFileEncrypted path passphrase => rw [prog, prog, loadFromFileEncrypted_onMachine]
  | activeBackend => exact absurd rfl hc
  -- the others do not reach the cipher
  | _ => rfl

/-- **No run shows which backend is in use.** A sequence of calls has the same ends, and leaves the
same world, on every processor and under every value of `AESLIB_FORCE_SOFTWARE`. -/
theorem calls_onMachine {calls : List EndedCall} (hcalls : ∀ x ∈ calls, x.1 ≠ .activeBackend)
    (w v : World) : Calls (os.onMachine arch cpuHasAes getenv) calls w v ↔ Calls os calls w v := by
  constructor
  · intro h
    induction h with
    | done s => exact .done s
    | @next c r rest s t u hends _ ih =>
        rw [Operation.prog_onMachine os arch cpuHasAes getenv
          (hcalls ⟨c, r⟩ List.mem_cons_self)] at hends
        exact .next hends (ih fun x hx => hcalls x (List.mem_cons_of_mem _ hx))
  · intro h
    induction h with
    | done s => exact .done s
    | @next c r rest s t u hends _ ih =>
        rw [← Operation.prog_onMachine os arch cpuHasAes getenv
          (hcalls ⟨c, r⟩ List.mem_cons_self)] at hends
        exact .next hends (ih fun x hx => hcalls x (List.mem_cons_of_mem _ hx))

end Machine

/-- An encryption on a machine with AES instructions. -/
theorem calls_onMachine_x86 : ∃ r v,
    Calls (Os.plain.onMachine .x86 true fun _ => none) [⟨.encryptCtr {} [7], r⟩] World.empty v := by
  have hnonce := generateNonce_serves Os.plain_serves World.empty
  have hlen : ([7] : List Byte).length ≤ Aes256Ctr.kMaxPlaintextBytes := by decide
  have hencrypt := Aes256Ctr.encrypt_ends {} hlen hnonce
  have hcalls : Calls Os.plain _ World.empty _ :=
    .next (c := Operation.encryptCtr {} [7]) hencrypt (.done _)
  exact ⟨_, _, (calls_onMachine Os.plain .x86 true (fun _ => none) (by simp) _ _).mpr hcalls⟩

end Aeslib
