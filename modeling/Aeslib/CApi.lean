import Aeslib.Gcm
import Aeslib.KeyFile
import Aeslib.LibProgParts

/-!
The C interface of `src/capi.cpp`. Every allocation that a wrapper makes may be refused, and the C++
call below it may be cut short by any exception. An exported function checks its arguments outside
of its `try` block, so it is either a rejection with a message or an attempt; both record their
message in `g_last_error`, which allocates too.
-/

namespace Aeslib.CApi

open Prog

/-- `aeslib_status`. -/
inductive Status where
  | ok
  | errInvalidArgument
  | errIo
  | errFormat
  | errLimit
  | errAuthentication
  | errUnknown
  deriving DecidableEq, Repr

/-- An exception as `translate_exception` tells them apart. -/
inductive Exc where
  | aeslib (e : Error)
  | badAlloc
  /-- Any other `std::exception`, with its `what()`. -/
  | standard (what : String)
  | nonStandard

/-- The allocations of the wrappers and of the error record. -/
inductive Allocation where
  /-- `std::make_unique<aeslib_key>`. -/
  | handle
  /-- `new uint8_t[]` of `allocate_output`. -/
  | output
  /-- The `std::string` that `set_last_error` is called with. -/
  | message
  /-- The storage of `g_last_error`. -/
  | lastError
  deriving DecidableEq

/-- How the library call below a wrapper is cut short: the exception, and what it leaves of the
world and the key. -/
structure Interruption where
  exc : Exc
  world : World → World
  key : SecretKey → SecretKey

/-- What fails during one call. -/
structure Failures where
  denies : Allocation → Bool
  /-- What `to_bytes` throws for the message, and for the additional data. -/
  text : Option Exc
  aad : Option Exc
  library : Option Interruption

/-- The standard library of the platform, as far as strings and `std::bad_alloc` go. -/
structure StdLibrary where
  /-- The characters that a `std::string` holds without an allocation. -/
  smallCapacity : Nat
  badAllocWhat : String
  /-- The capacity after an assignment that did not fit, from the old one and the size. -/
  newCapacity : Nat → Nat → Nat
  badAlloc_small : badAllocWhat.utf8ByteSize ≤ smallCapacity

structure Env where
  os : Os
  std : StdLibrary
  failures : Failures

structure StdString where
  text : String
  capacity : Nat

/-- The variables that the pointers of a call refer to, by their addresses. -/
structure Memory where
  /-- `aeslib_key_t` variables. -/
  keys : Nat → Nat
  /-- `uint8_t*` variables. -/
  buffers : Nat → Nat
  lengths : Nat → Nat
  nonces : Nat → Vector Byte kNonceSizeBytes
  tags : Nat → Vector Byte kGcmTagSizeBytes

structure CState where
  world : World
  /-- The keys behind the handles, by their numbers. -/
  handles : List SecretKey
  /-- The output buffers; a cell that nothing wrote is `none`. -/
  buffers : List (List (Option Byte))
  lastError : StdString
  memory : Memory

namespace CState

def key (s : CState) (handle : Nat) : SecretKey := s.handles[handle]?.getD {}

def setKey (s : CState) (handle : Nat) (key : SecretKey) : CState :=
  { s with handles := s.handles.set handle key }

end CState

namespace Memory

def setKey (m : Memory) (out handle : Nat) : Memory :=
  { m with keys := Function.update m.keys out handle }

def setBuffer (m : Memory) (out buffer : Nat) : Memory :=
  { m with buffers := Function.update m.buffers out buffer }

def setLength (m : Memory) (out length : Nat) : Memory :=
  { m with lengths := Function.update m.lengths out length }

def setNonce (m : Memory) (out : Nat) (nonce : Vector Byte kNonceSizeBytes) : Memory :=
  { m with nonces := Function.update m.nonces out nonce }

def setTag (m : Memory) (out : Nat) (tag : Vector Byte kGcmTagSizeBytes) : Memory :=
  { m with tags := Function.update m.tags out tag }

end Memory

section

variable (env : Env)

def allocate (a : Allocation) : Prog CState Exc Unit := raiseIf (env.failures.denies a = true) .badAlloc

/-- The conversion of a message to `std::string`. -/
def makeString (message : String) : Prog CState Exc Unit :=
  if message.utf8ByteSize > env.std.smallCapacity then allocate env .message else pure ()

/-- `set_last_error`, with the conversion of its argument. -/
def setLastError (message : String) : Prog CState Exc Unit := do
  makeString env message
  op fun s =>
    if message.utf8ByteSize ≤ s.lastError.capacity then
      (.ok (), { s with lastError := { s.lastError with text := message } })
    else if env.failures.denies .lastError then (.error .badAlloc, s)
    else
      let capacity := env.std.newCapacity s.lastError.capacity message.utf8ByteSize
      (.ok (), { s with lastError := { text := message, capacity } })

def translateException : Exc → Prog CState Exc Status
  | .aeslib (.authenticationError what) => do
    setLastError env what
    pure .errAuthentication
  | .aeslib (.limitError what) => do
    setLastError env what
    pure .errLimit
  | .aeslib (.formatError what) => do
    setLastError env what
    pure .errFormat
  | .aeslib (.ioError what) => do
    setLastError env what
    pure .errIo
  | .aeslib (.logicError what) => do
    setLastError env what
    pure .errUnknown
  | .aeslib .badAlloc => do
    setLastError env env.std.badAllocWhat
    pure .errUnknown
  | .aeslib (.filesystemError what) => do
    setLastError env what
    pure .errUnknown
  -- no exception of the source, see `Error`
  | .aeslib .outOfRange => do
    setLastError env ""
    pure .errUnknown
  | .badAlloc => do
    setLastError env env.std.badAllocWhat
    pure .errUnknown
  | .standard what => do
    setLastError env what
    pure .errUnknown
  | .nonStandard => do
    setLastError env "unknown non-standard-exception failure"
    pure .errUnknown

/-- A pointer with its length: the bytes are there unless it is null. -/
inductive InBuffer where
  | null (len : Nat)
  | bytes (data : List Byte)

/-- The input, unless `p == nullptr && len != 0`. -/
def InBuffer.data? : InBuffer → Option (List Byte)
  | null len => if len = 0 then some [] else none
  | bytes data => some data

/-- `to_bytes`; an empty vector allocates nothing. -/
def toBytes (failure : Option Exc) (data : List Byte) : Prog CState Exc (List Byte) :=
  match failure with
  | some e => if data.isEmpty then pure [] else raise e
  | none => pure data

/-- A library call that uses no key object. -/
def library {α : Type} (p : Prog World Error α) : Prog CState Exc α :=
  match env.failures.library with
  | some cut => op fun s => (.error cut.exc, { s with world := cut.world s.world })
  | none => focus CState.world (fun w s => { s with world := w }) .aeslib p

/-- A library call that changes the key object behind a handle. -/
def libraryOn {α : Type} (handle : Nat) (p : Prog (World × SecretKey) Error α) : Prog CState Exc α :=
  match env.failures.library with
  | some cut => op fun s =>
    (.error cut.exc, { s.setKey handle (cut.key (s.key handle)) with world := cut.world s.world })
  | none =>
    focus (fun s => (s.world, s.key handle)) (fun x s => { s.setKey handle x.2 with world := x.1 })
      .aeslib p

/-- `*key` of a handle. -/
def readHandle (handle : Nat) : Prog CState Exc SecretKey := op fun s => (.ok (s.key handle), s)

/-- `std::make_unique<aeslib_key>(aeslib_key{key})`, with the number of the new handle. -/
def makeHandle (key : SecretKey) : Prog CState Exc Nat := do
  allocate env .handle
  op fun s => (.ok s.handles.length, { s with handles := s.handles ++ [key] })

/-- A store through a pointer of the caller. -/
def store (f : Memory → Memory) : Prog CState Exc Unit :=
  op fun s => (.ok (), { s with memory := f s.memory })

/-- `new uint8_t[bytes.empty() ? 1 : bytes.size()]` with the bytes copied into it. -/
def newBuffer (bytes : List Byte) : List (Option Byte) :=
  if bytes.isEmpty then [none] else bytes.map some

def allocateOutput (bytes : List Byte) (out outLen : Nat) : Prog CState Exc Unit := do
  allocate env .output
  let buffer ← op fun s => (.ok s.buffers.length, { s with buffers := s.buffers ++ [newBuffer bytes] })
  store (·.setBuffer out buffer)
  store (·.setLength outLen bytes.length)

/-- A function after its argument checks: the message of `AESLIB_ERR_INVALID_ARGUMENT`, or the `try`
block. -/
inductive Entry where
  | reject (message : String)
  | attempt (body : Prog CState Exc Unit)

def Entry.run : Entry → Prog CState Exc Status
  | .reject message => do
    setLastError env message
    pure .errInvalidArgument
  | .attempt body =>
    tryCatch (do
      body
      pure .ok) (translateException env)

def aeslibKeyGenerate (keySizeBits : Int) (outKey : Option Nat) : Entry :=
  match outKey with
  | none => .reject "out_key must not be null"
  | some outKey =>
    if keySizeBits ≠ 128 ∧ keySizeBits ≠ 256 then .reject "key_size_bits must be 128 or 256"
    else .attempt do
      let size := if keySizeBits = 128 then KeySize.aes128 else KeySize.aes256
      let key ← library env (SecretKey.generate env.os size)
      let handle ← makeHandle env key
      store (·.setKey outKey handle)

def aeslibKeySaveToFile (key : Option Nat) (path : Option String) : Entry :=
  match key, path with
  | some key, some path => .attempt do
    let key ← readHandle key
    library env (key.saveToFile env.os path)
  | _, _ => .reject "key and path must not be null"

def aeslibKeyLoadFromFile (path : Option String) (outKey : Option Nat) : Entry :=
  match path, outKey with
  | some path, some outKey => .attempt do
    let key ← library env (SecretKey.loadFromFile env.os path)
    let handle ← makeHandle env key
    store (·.setKey outKey handle)
  | _, _ => .reject "path and out_key must not be null"

def aeslibCtrEncrypt (key : Option Nat) (plaintext : InBuffer)
    (outNonce outCiphertext outCiphertextLen : Option Nat) : Entry :=
  match key, plaintext.data?, outNonce, outCiphertext, outCiphertextLen with
  | some key, some plaintext, some outNonce, some outCiphertext, some outCiphertextLen => .attempt do
    let key ← readHandle key
    let plaintext ← toBytes env.failures.text plaintext
    let container ← library env (Aes256Ctr.encrypt env.os key plaintext)
    store (·.setNonce outNonce container.nonce)
    allocateOutput env container.ciphertext outCiphertext outCiphertextLen
  | _, _, _, _, _ => .reject "invalid argument to aeslib_ctr_encrypt"

def aeslibCtrDecrypt (key : Option Nat) (nonce : Option (Vector Byte kNonceSizeBytes))
    (ciphertext : InBuffer) (outPlaintext outPlaintextLen : Option Nat) : Entry :=
  match key, nonce, ciphertext.data?, outPlaintext, outPlaintextLen with
  | some key, some nonce, some ciphertext, some outPlaintext, some outPlaintextLen => .attempt do
    let ciphertext ← toBytes env.failures.text ciphertext
    let key ← readHandle key
    let plaintext ← library env (Aes256Ctr.decrypt env.os key { nonce, ciphertext })
    allocateOutput env plaintext outPlaintext outPlaintextLen
  | _, _, _, _, _ => .reject "invalid argument to aeslib_ctr_decrypt"

def aeslibGcmEncrypt (key : Option Nat) (plaintext aad : InBuffer)
    (outNonce outTag outCiphertext outCiphertextLen : Option Nat) : Entry :=
  match key, plaintext.data?, aad.data?, outNonce, outTag, outCiphertext, outCiphertextLen with
  | some key, some plaintext, some aad, some outNonce, some outTag, some outCiphertext,
      some outCiphertextLen => .attempt do
    let plaintext ← toBytes env.failures.text plaintext
    let aad ← toBytes env.failures.aad aad
    let container ← libraryOn env key (AesGcm.encrypt env.os plaintext aad)
    store (·.setNonce outNonce container.nonce)
    store (·.setTag outTag container.tag)
    allocateOutput env container.ciphertext outCiphertext outCiphertextLen
  | _, _, _, _, _, _, _ => .reject "invalid argument to aeslib_gcm_encrypt"

def aeslibGcmDecrypt (key : Option Nat) (nonce : Option (Vector Byte kNonceSizeBytes))
    (tag : Option (Vector Byte kGcmTagSizeBytes)) (ciphertext aad : InBuffer)
    (outPlaintext outPlaintextLen : Option Nat) : Entry :=
  match key, nonce, tag, ciphertext.data?, aad.data?, outPlaintext, outPlaintextLen with
  | some key, some nonce, some tag, some ciphertext, some aad, some outPlaintext,
      some outPlaintextLen => .attempt do
    let ciphertext ← toBytes env.failures.text ciphertext
    let aad ← toBytes env.failures.aad aad
    let key ← readHandle key
    let plaintext ← library env (AesGcm.decrypt env.os key { nonce, tag, ciphertext } aad)
    allocateOutput env plaintext outPlaintext outPlaintextLen
  | _, _, _, _, _, _, _ => .reject "invalid argument to aeslib_gcm_decrypt"

end

/-- A call of an exported function that returns a status, with its arguments. -/
inductive Call where
  | keyGenerate (keySizeBits : Int) (outKey : Option Nat)
  | keySaveToFile (key : Option Nat) (path : Option String)
  | keyLoadFromFile (path : Option String) (outKey : Option Nat)
  | ctrEncrypt (key : Option Nat) (plaintext : InBuffer)
      (outNonce outCiphertext outCiphertextLen : Option Nat)
  | ctrDecrypt (key : Option Nat) (nonce : Option (Vector Byte kNonceSizeBytes)) (ciphertext : InBuffer)
      (outPlaintext outPlaintextLen : Option Nat)
  | gcmEncrypt (key : Option Nat) (plaintext aad : InBuffer)
      (outNonce outTag outCiphertext outCiphertextLen : Option Nat)
  | gcmDecrypt (key : Option Nat) (nonce : Option (Vector Byte kNonceSizeBytes))
      (tag : Option (Vector Byte kGcmTagSizeBytes)) (ciphertext aad : InBuffer)
      (outPlaintext outPlaintextLen : Option Nat)

namespace Call

def entry (env : Env) : Call → Entry
  | keyGenerate keySizeBits outKey => aeslibKeyGenerate env keySizeBits outKey
  | keySaveToFile key path => aeslibKeySaveToFile env key path
  | keyLoadFromFile path outKey => aeslibKeyLoadFromFile env path outKey
  | ctrEncrypt key plaintext outNonce outCiphertext outCiphertextLen =>
    aeslibCtrEncrypt env key plaintext outNonce outCiphertext outCiphertextLen
  | ctrDecrypt key nonce ciphertext outPlaintext outPlaintextLen =>
    aeslibCtrDecrypt env key nonce ciphertext outPlaintext outPlaintextLen
  | gcmEncrypt key plaintext aad outNonce outTag outCiphertext outCiphertextLen =>
    aeslibGcmEncrypt env key plaintext aad outNonce outTag outCiphertext outCiphertextLen
  | gcmDecrypt key nonce tag ciphertext aad outPlaintext outPlaintextLen =>
    aeslibGcmDecrypt env key nonce tag ciphertext aad outPlaintext outPlaintextLen

def run (env : Env) (call : Call) : Prog CState Exc Status := (call.entry env).run env

end Call

end Aeslib.CApi
