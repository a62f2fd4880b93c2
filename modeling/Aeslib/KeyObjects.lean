import Aeslib.Gcm
import Aeslib.KeyFile
import Aeslib.KeyStorage
import Aeslib.LibOwnership

/-!
The life of key objects: the special members of `SecretKey` in `src/key.cpp`, which copy three
fields by hand and wipe one, on any set of objects. Next to the objects a run keeps a ledger that
the code does not have: which key material was created, how many encryptions each has made, and
which object holds it.
-/

namespace Aeslib

open Prog

namespace SecretKey

/-- What `wipe` stores; its unlocking is in `KeyPages`. -/
def wipe (key : SecretKey) : SecretKey := { key with bytes := Vector.replicate kKeySizeBytes 0 }

/-- `SecretKey(SecretKey&&)`: the new object and what is left of `other`. -/
def moveConstruct (other : SecretKey) : SecretKey × SecretKey :=
  ({ bytes := other.bytes, size := other.size, gcmInvocations := other.gcmInvocations }, other.wipe)

/-- `operator=(SecretKey&&)` between two different objects. -/
def moveAssign (this other : SecretKey) : SecretKey × SecretKey :=
  let this := this.wipe
  let this := { this with bytes := other.bytes }
  let this := { this with size := other.size }
  let this := { this with gcmInvocations := other.gcmInvocations }
  (this, other.wipe)

/-- Both moves hand every member over. -/
theorem moveConstruct_eq (other : SecretKey) : moveConstruct other = (other, other.wipe) := rfl

theorem moveAssign_eq (this other : SecretKey) : moveAssign this other = (other, other.wipe) := rfl

@[simp] theorem bytes_wipe (key : SecretKey) : key.wipe.bytes = Vector.replicate kKeySizeBytes 0 := rfl

/-- A key that comes out of one of the three functions that make one. -/
inductive Obtained : SecretKey → Prop
  | generate {os size w key w'} : Ends (generate os size) w (.ok key) w' → Obtained key
  | loadFromFile {os path w key w'} : Ends (loadFromFile os path) w (.ok key) w' → Obtained key
  | loadFromFileEncrypted {os path passphrase w key w'} :
      Ends (loadFromFileEncrypted os path passphrase) w (.ok key) w' → Obtained key

end SecretKey

structure KeyObject where
  key : SecretKey := {}
  alive : Bool := false

/-- One creation of key material, and the calls that have counted on it. -/
structure Material where
  bytes : Vector Byte kKeySizeBytes
  size : KeySize
  encryptions : Nat := 0

structure Keys where
  objects : Nat → KeyObject
  /-- The number of the material that an object holds. -/
  held : Nat → Option Nat
  /-- The materials created so far, by their numbers. -/
  materials : List Material

def Keys.init : Keys := { objects := fun _ => {}, held := fun _ => none, materials := [] }

inductive KeyOp where
  /-- `generate` or a load returns `key` in the object `i`. -/
  | create (i : Nat) (key : SecretKey)
  /-- One of them throws: its local object `i`, with `key` in it by then, is destroyed. -/
  | abandon (i : Nat) (key : SecretKey)
  | moveConstruct (i j : Nat)
  | moveAssign (i j : Nat)
  | destroy (i : Nat)
  /-- A call of `AesGcm::encrypt` reaches the counter. -/
  | encrypt (i : Nat)

namespace KeyOp

/-- What the language asks for: an object is constructed where none is alive, and used while it is. -/
def Enabled (s : Keys) : KeyOp → Prop
  | create i key => (s.objects i).alive = false ∧ key.Obtained
  | abandon i _ => (s.objects i).alive = false
  | moveConstruct i j => (s.objects i).alive = false ∧ (s.objects j).alive = true
  | moveAssign i j => (s.objects i).alive = true ∧ (s.objects j).alive = true
  | destroy i => (s.objects i).alive = true
  | encrypt i => (s.objects i).alive = true

/-- The objects after the operation. -/
def applyObjects (objects : Nat → KeyObject) : KeyOp → Nat → KeyObject
  | create i key => Function.update objects i { key, alive := true }
  | abandon i key => Function.update objects i { key := key.wipe, alive := false }
  | moveConstruct i j =>
    let (target, source) := SecretKey.moveConstruct (objects j).key
    Function.update (Function.update objects i { key := target, alive := true }) j
      { key := source, alive := true }
  | moveAssign i j =>
    if i = j then objects
    else
      let (target, source) := SecretKey.moveAssign (objects i).key (objects j).key
      Function.update (Function.update objects i { key := target, alive := true }) j
        { key := source, alive := true }
  | destroy i => Function.update objects i { key := (objects i).key.wipe, alive := false }
  | encrypt i => Function.update objects i
      { key := (consumeGcmInvocation (objects i).key).2, alive := true }

/-- Who holds what after the operation, in a ledger of `count` materials. -/
def applyHeld (held : Nat → Option Nat) (count : Nat) : KeyOp → Nat → Option Nat
  | create i _ => Function.update held i (some count)
  | abandon i _ => Function.update held i none
  | moveConstruct i j => Function.update (Function.update held i (held j)) j none
  | moveAssign i j => if i = j then held else Function.update (Function.update held i (held j)) j none
  | destroy i => Function.update held i none
  | encrypt _ => held

def applyMaterials (held : Nat → Option Nat) (materials : List Material) : KeyOp → List Material
  | create _ key => materials ++ [{ bytes := key.bytes, size := key.size }]
  | encrypt i =>
    match held i with
    | none => materials
    | some m => materials.modify m fun x => { x with encryptions := x.encryptions + 1 }
  | _ => materials

def apply (op : KeyOp) (s : Keys) : Keys where
  objects := op.applyObjects s.objects
  held := op.applyHeld s.held s.materials.length
  materials := op.applyMaterials s.held s.materials

end KeyOp

def Keys.Step (s t : Keys) : Prop := ∃ op : KeyOp, op.Enabled s ∧ t = op.apply s

theorem SecretKey.Obtained.gcmInvocations_eq {key : SecretKey} (h : key.Obtained) :
    key.gcmInvocations = 0 := by
  cases h with
  | @generate os size w key w' h =>
      have htriple : Triple (fun _ => True) (SecretKey.generate os size) fun key _ =>
          key.gcmInvocations = 0 :=
        (Triple.any (fillRandom os _)).bind fun bytes => Triple.pure fun _ _ => rfl
      exact htriple trivial h
  | @loadFromFile os path w key w' h =>
      have htriple : Triple (fun _ => True) (SecretKey.loadFromFile os path) fun key _ =>
          key.gcmInvocations = 0 := by
        refine (Triple.any (openForReading os path)).bind fun r => ?_
        cases r with
        | none => exact Triple.raise _
        | some fd =>
            refine (Triple.any (read os fd 2)).bind fun header => ?_
            dsimp only
            split_ifs
            · exact (Triple.any (closeFd fd)).bind fun _ => Triple.raise _
            · refine (Triple.any (os.ifWindows _ _)).bind fun data =>
                (Triple.any (closeFd fd)).bind fun _ => ?_
              cases data with
              | none => exact Triple.raise _
              | some data => exact Triple.pure fun _ _ => rfl
      exact htriple trivial h
  | @loadFromFileEncrypted os path passphrase w key w' h =>
      have htriple : Triple (fun _ => True) (SecretKey.loadFromFileEncrypted os path passphrase)
          fun key _ => key.gcmInvocations = 0 := by
        refine (Triple.any (readFile os path)).bind fun fileData =>
          (Triple.any (ofExcept _)).bind fun sizeMarker => ?_
        refine (Triple.any (ofExcept _)).bind fun fields =>
          (Triple.any (pbkdf2HmacSha256 _ _ _)).bind fun derived => ?_
        refine (Triple.any (ofExcept _)).bind fun part => (Triple.any (raiseIf _ _)).bind fun _ => ?_
        refine (Triple.any (Aes256Ctr.decrypt os _ _)).bind fun decryptedBytes => ?_
        exact (Triple.any (raiseIf _ _)).bind fun _ => Triple.pure fun _ _ => rfl
      exact htriple trivial h

theorem SecretKey.exists_obtained (size : KeySize) :
    ∃ key : SecretKey, key.Obtained ∧ key.size = size := by
  have hfill : Ends (fillRandom Os.plain (Vector.replicate kKeySizeBytes 0)) World.empty
      (.ok (Os.plain.draw 0 kKeySizeBytes)) World.empty.tick :=
      fillRandom_serves Os.plain_serves (by decide) _
  have hgenerate : Ends (SecretKey.generate Os.plain size) World.empty
      (.ok { bytes := Os.plain.draw 0 kKeySizeBytes, size }) World.empty.tick :=
    hfill.bind ((ends_pure _ _ _ _).mpr ⟨rfl, rfl⟩)
  exact ⟨_, .generate hgenerate, rfl⟩

/-- The object has the bytes, the size and the count of the material. -/
structure Material.IsIn (x : Material) (key : SecretKey) : Prop where
  bytes : key.bytes = x.bytes
  size : key.size = x.size
  invocations : key.gcmInvocations = BitVec.ofNat 64 x.encryptions

/-- An object contains what the ledger says about it. -/
def KeyObject.Agrees (materials : List Material) (o : KeyObject) : Option Nat → Prop
  | none => o.key.bytes = Vector.replicate kKeySizeBytes 0
  | some m => o.alive = true ∧ ∃ x, materials[m]? = some x ∧ x.IsIn o.key

structure Keys.Inv (s : Keys) : Prop where
  exclusive : Exclusive s.held
  agrees : ∀ i, (s.objects i).Agrees s.materials (s.held i)

namespace KeyObject

variable {materials : List Material}

theorem Agrees.lt {o : KeyObject} {m : Nat} (h : o.Agrees materials (some m)) :
    m < materials.length := by
  obtain ⟨-, x, hx, -⟩ := h
  exact (List.getElem?_eq_some_iff.mp hx).1

/-- The materials created later do not matter. -/
theorem Agrees.append {o : KeyObject} {held : Option Nat} (h : o.Agrees materials held)
    (more : List Material) : o.Agrees (materials ++ more) held := by
  cases held with
  | none => exact h
  | some m =>
      have hlt := h.lt
      obtain ⟨halive, x, hx, hin⟩ := h
      exact ⟨halive, x, by rwa [List.getElem?_append_left hlt], hin⟩

theorem agrees_wipe (key : SecretKey) (alive : Bool) :
    Agrees materials { key := key.wipe, alive } none :=
  key.bytes_wipe

/-- A handed-over key is at its new place what it was. -/
theorem Agrees.moved {o : KeyObject} {held : Option Nat} (h : o.Agrees materials held) :
    Agrees materials { key := o.key, alive := true } held := by
  cases held with
  | none => exact h
  | some m => exact ⟨rfl, h.2⟩

theorem agrees_update {objects : Nat → KeyObject} {held : Nat → Option Nat} {i : Nat}
    {o : KeyObject} {x : Option Nat} (h : ∀ j, j ≠ i → (objects j).Agrees materials (held j))
    (hi : o.Agrees materials x) (j : Nat) :
    (Function.update objects i o j).Agrees materials (Function.update held i x j) := by
  by_cases hj : j = i
  · subst hj
    rwa [Function.update_self, Function.update_self]
  · rw [Function.update_of_ne hj, Function.update_of_ne hj]
    exact h j hj

end KeyObject

namespace Keys.Inv

open KeyObject KeyOp

variable {s : Keys} (h : s.Inv)

include h

theorem create (i : Nat) {key : SecretKey} (hkey : key.Obtained) :
    ((KeyOp.create i key).apply s).Inv where
  exclusive := by
    refine h.exclusive.give i fun j hj => ?_
    have hlt := (hj ▸ h.agrees j).lt
    exact lt_irrefl _ hlt
  agrees := by
    refine agrees_update (fun j _ => (h.agrees j).append _)
      ⟨rfl, { bytes := key.bytes, size := key.size }, ?_, ?_⟩
    · exact List.getElem?_concat_length
    · exact ⟨rfl, rfl, hkey.gcmInvocations_eq⟩

theorem abandon (i : Nat) (key : SecretKey) : ((KeyOp.abandon i key).apply s).Inv where
  exclusive := h.exclusive.clear i
  agrees := agrees_update (fun j _ => h.agrees j) (agrees_wipe key false)

theorem destroy (i : Nat) : ((KeyOp.destroy i).apply s).Inv where
  exclusive := h.exclusive.clear i
  agrees := agrees_update (fun j _ => h.agrees j) (agrees_wipe _ false)

/-- Both moves, between different objects: the target gets all members, the source is wiped. -/
theorem handOver {i j : Nat} (hij : i ≠ j) :
    ({ s with
      objects := Function.update
        (Function.update s.objects i { key := (s.objects j).key, alive := true }) j
        { key := (s.objects j).key.wipe, alive := true }
      held := Function.update (Function.update s.held i (s.held j)) j none } : Keys).Inv where
  exclusive := h.exclusive.pass hij
  agrees := agrees_update (fun k _ => agrees_update (fun k _ => h.agrees k) (h.agrees j).moved k)
    (agrees_wipe _ true)

theorem moveConstruct {i j : Nat} (hij : i ≠ j) : ((KeyOp.moveConstruct i j).apply s).Inv :=
  h.handOver hij

theorem moveAssign (i j : Nat) : ((KeyOp.moveAssign i j).apply s).Inv := by
  by_cases hij : i = j
  · have hself : (KeyOp.moveAssign i j).apply s = s := by
      simp [KeyOp.apply, applyObjects, applyHeld, applyMaterials, hij]
    rwa [hself]
  · have hother := h.handOver hij
    simp only [KeyOp.apply, applyObjects, applyHeld, applyMaterials, if_neg hij]
    exact hother

/-- Counting touches the material of one object, and no other object holds it. -/
theorem encrypt (i : Nat) (halive : (s.objects i).alive = true) : ((KeyOp.encrypt i).apply s).Inv where
  exclusive := h.exclusive
  agrees := by
    intro j
    have hi := h.agrees i
    simp only [KeyOp.apply, applyObjects, applyHeld, applyMaterials]
    cases hheld : s.held i with
    | none =>
        rw [hheld] at hi
        by_cases hj : j = i
        · subst hj
          rw [Function.update_self, hheld]
          exact hi
        · rw [Function.update_of_ne hj]
          exact h.agrees j
    | some m =>
        rw [hheld] at hi
        obtain ⟨-, x, hx, hin⟩ := hi
        by_cases hj : j = i
        · subst hj
          rw [Function.update_self, hheld]
          refine ⟨rfl, { x with encryptions := x.encryptions + 1 }, by simp [hx], hin.bytes,
            hin.size, ?_⟩
          rw [BitVec.ofNat_add, ← hin.invocations]
          rfl
        · rw [Function.update_of_ne hj]
          have hother := h.agrees j
          cases hheldj : s.held j with
          | none =>
              rw [hheldj] at hother
              exact hother
          | some m' =>
              rw [hheldj] at hother
              obtain ⟨halivej, y, hy, hiny⟩ := hother
              have hne : m ≠ m' := by
                rintro rfl
                exact hj (h.exclusive hheldj hheld)
              exact ⟨halivej, y, (List.getElem?_modify_ne _ _ hne).trans hy, hiny⟩

theorem step {t : Keys} (hstep : s.Step t) : t.Inv := by
  obtain ⟨op, henabled, rfl⟩ := hstep
  cases op with
  | create i key => exact h.create i henabled.2
  | abandon i key => exact h.abandon i key
  | moveConstruct i j =>
      refine h.moveConstruct ?_
      rintro rfl
      exact absurd (henabled.1.symm.trans henabled.2) (by decide)
  | moveAssign i j => exact h.moveAssign i j
  | destroy i => exact h.destroy i
  | encrypt i => exact h.encrypt i henabled

end Keys.Inv

theorem Keys.init_inv : Keys.init.Inv where
  exclusive := Exclusive.none
  agrees _ := rfl

theorem Keys.reachable_inv {s : Keys} (h : Reaches Keys.Step Keys.init s) : s.Inv :=
  h.invariant Keys.Inv Keys.init_inv fun _ _ hinv hstep => hinv.step hstep

/-- The ledger's entry of a material only ever counts up. -/
def Keys.Extends (s t : Keys) : Prop := ∀ (m : Nat) (x : Material), s.materials[m]? = some x →
  ∃ y : Material, t.materials[m]? = some y ∧ y.bytes = x.bytes ∧ y.size = x.size ∧
    x.encryptions ≤ y.encryptions

theorem Keys.Step.extends {s t : Keys} (h : s.Step t) : s.Extends t := by
  obtain ⟨op, -, rfl⟩ := h
  intro m x hx
  cases op with
  | create i key =>
      have hlt := (List.getElem?_eq_some_iff.mp hx).1
      exact ⟨x, (List.getElem?_append_left hlt).trans hx, rfl, rfl, le_rfl⟩
  | encrypt i =>
      simp only [KeyOp.apply, KeyOp.applyMaterials]
      cases s.held i with
      | none => exact ⟨x, hx, rfl, rfl, le_rfl⟩
      | some m' =>
          by_cases hm : m' = m
          · subst hm
            exact ⟨{ x with encryptions := x.encryptions + 1 }, by simp [hx], rfl, rfl, Nat.le_succ _⟩
          · exact ⟨x, (List.getElem?_modify_ne _ _ hm).trans hx, rfl, rfl, le_rfl⟩
  | _ => exact ⟨x, hx, rfl, rfl, le_rfl⟩

theorem Keys.extends_of_reaches {s t : Keys} (h : Reaches Keys.Step s t) : s.Extends t := by
  refine h.invariant s.Extends (fun m x hx => ⟨x, hx, rfl, rfl, le_rfl⟩) fun u v hu hstep m x hx => ?_
  obtain ⟨y, hy, hbytes, hsize, hle⟩ := hu m x hx
  obtain ⟨z, hz, hbytes', hsize', hle'⟩ := hstep.extends m y hy
  exact ⟨z, hz, hbytes'.trans hbytes, hsize'.trans hsize, hle.trans hle'⟩

/-- **Key objects never duplicate, truncate or mislabel material.** In every reachable state a
material has at most one holder; the holder has the bytes and the size of the creation and has
counted every encryption since, so since the last move too; every other object holds zero bytes. The
entries of the ledger stay what they were, up to the encryptions they count. -/
theorem keyObjects_exact {s : Keys} (h : Reaches Keys.Step Keys.init s) :
    Exclusive s.held ∧
    (∀ i m, s.held i = some m → ∃ x : Material, s.materials[m]? = some x ∧
      (s.objects i).key.bytes = x.bytes ∧ (s.objects i).key.size = x.size ∧
      (s.objects i).key.gcmInvocations = BitVec.ofNat 64 x.encryptions) ∧
    (∀ i, s.held i = none → (s.objects i).key.bytes = Vector.replicate 32 0) ∧
    ∀ t, Reaches Keys.Step s t → ∀ (m : Nat) (x : Material), s.materials[m]? = some x →
      ∃ y : Material, t.materials[m]? = some y ∧
        y.bytes = x.bytes ∧ y.size = x.size ∧ x.encryptions ≤ y.encryptions := by
  have hinv := Keys.reachable_inv h
  refine ⟨hinv.exclusive, fun i m hm => ?_, fun i hi => ?_, fun t ht => Keys.extends_of_reaches ht⟩
  · obtain ⟨-, x, hx, hin⟩ := hm ▸ hinv.agrees i
    exact ⟨x, hx, hin.bytes, hin.size, hin.invocations⟩
  · have hagrees := hinv.agrees i
    rwa [hi] at hagrees

/-- A key that is created in the object 0 and moved to the object 1. -/
theorem keyObjects_exact_moved : ∃ s, Reaches Keys.Step Keys.init s ∧ s.held 1 = some 0 ∧
    (s.objects 1).key.size = .aes128 ∧ (s.objects 0).key.bytes = Vector.replicate 32 0 := by
  obtain ⟨key, hkey, hsize⟩ := SecretKey.exists_obtained .aes128
  set s := (KeyOp.create 0 key).apply Keys.init with hs
  set t := (KeyOp.moveConstruct 1 0).apply s with ht
  have hcreate : Keys.init.Step s := ⟨.create 0 key, ⟨rfl, hkey⟩, hs⟩
  have hmove : s.Step t := ⟨.moveConstruct 1 0, ⟨rfl, rfl⟩, ht⟩
  have hreach : Reaches Keys.Step Keys.init t := (Relation.ReflTransGen.single hcreate).tail hmove
  exact ⟨t, hreach, rfl, hsize, (keyObjects_exact hreach).2.2.1 0 rfl⟩

end Aeslib
