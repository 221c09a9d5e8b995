import Mathlib.Algebra.Group.Nat.Defs
import Mathlib.Data.List.Sort
import Mathlib.Logic.Function.Basic
import EntityScene.Program.Edit

/-!
# A ledger of entities and components

What a world with its tables, pools and signals is good for can be said without them. A ledger
lists the handles that are live, has one partial map for each kind, and the kinds in the order in
which they were taken into use. Handlers that are connected hear of a component after it was put
in place or changed, and before it is erased.

- `Ledger`: the handles, the kinds, the values and the connections.
- `Ledger.Event`: one call of a handler, with the ledger as it is then.
- `Ledger.destroy`, `emplace`, `patch`, `take`, ..: the operations, each with its answer, the
  events and the ledger afterwards. A destroyed entity loses its components one kind after the
  other.
- `Op`: the operations by name, with the task that each of them stands for.
- `Ledger.Step`, `Ledger.Run`: what a ledger answers to one operation, and to a list of them.
-/

namespace EntityScene

/-- The live handles, the values that they have, and who is told. -/
structure Ledger (K : Type) [ComponentFamily K] where
  /-- Every handle that was ever issued, the latest first. -/
  issued : List Entity := []
  /-- The handles that are live, by index. -/
  live : List Entity := []
  /-- The kinds in use, in the order of their registration. -/
  kinds : List K := []
  value : (kind : K) → Entity → Option (Value kind) := fun _ _ => none
  /-- What each connection is for, in the order in which they were made. -/
  connections : List (K × LifeEvent) := []

namespace Ledger

/-- A handler is called about an entity, with the ledger as it is then. -/
structure Event (K : Type) [ComponentFamily K] where
  key : ConnectionKey
  kind : K
  event : LifeEvent
  entity : Entity
  ledger : Ledger K

variable {K : Type} [ComponentFamily K]

/-- A ledger in which nothing was entered. -/
def empty : Ledger K := {}

variable [DecidableEq K]

/-! ## Kinds and connections -/

/-- Take a kind into use, behind those that are. -/
def enlist (L : Ledger K) (kind : K) : Ledger K :=
  if kind ∈ L.kinds then L else { L with kinds := L.kinds ++ [kind] }

/-- Enter a connection. -/
def connect (L : Ledger K) (kind : K) (event : LifeEvent) : Ledger K :=
  { L.enlist kind with connections := L.connections ++ [(kind, event)] }

/-- The connections for an event of a kind, in the order in which they were made. -/
def hearers (L : Ledger K) (kind : K) (event : LifeEvent) : List ConnectionKey :=
  (List.range L.connections.length).filter fun key => L.connections[key]? = some (kind, event)

/-- Everybody who is connected hears of an event. -/
def tell (L : Ledger K) (kind : K) (event : LifeEvent) (e : Entity) : List (Event K) :=
  (L.hearers kind event).map fun key => ⟨key, kind, event, e, L⟩

/-! ## Values -/

/-- Enter a value for an entity, or cross it out. -/
def assign (L : Ledger K) (kind : K) (e : Entity) (v : Option (Value kind)) : Ledger K :=
  { L with value := Function.update L.value kind (Function.update (L.value kind) e v) }

@[simp] theorem value_assign_self (L : Ledger K) (kind : K) (e : Entity)
    (v : Option (Value kind)) : (L.assign kind e v).value kind e = v := by
  simp [assign]

theorem value_assign_of_ne_kind (L : Ledger K) {kind other : K} (h : other ≠ kind) (e x : Entity)
    (v : Option (Value kind)) : (L.assign kind e v).value other x = L.value other x := by
  simp [assign, Function.update_of_ne h]

theorem value_assign_of_ne (L : Ledger K) (kind : K) {e x : Entity} (h : x ≠ e)
    (v : Option (Value kind)) : (L.assign kind e v).value kind x = L.value kind x := by
  simp [assign, Function.update_of_ne h]

/-! ## Entities -/

/-- The handle may be issued: no live one has its index, and as long as no index was issued
`2 ^ 32` times it was never issued before. -/
def Admits (L : Ledger K) (e : Entity) : Prop :=
  e.isNull = false ∧ (∀ x ∈ L.live, x.index ≠ e.index) ∧
    ((∀ i, (e :: L.issued).countP (·.index == i) ≤ 2 ^ 32) → e ∉ L.issued)

/-- Enter a new handle. -/
def enter (L : Ledger K) (e : Entity) : Ledger K :=
  { L with
    issued := e :: L.issued
    live := L.live.orderedInsert (·.index ≤ ·.index) e }

/-- Cross out the values that an entity has of the listed kinds, one after the other, and tell
of each of them first. -/
def strip (L : Ledger K) (e : Entity) : List K → List (Event K) × Ledger K
  | [] => ([], L)
  | kind :: kinds =>
    match L.value kind e with
    | none => L.strip e kinds
    | some _ =>
      let (events, L') := (L.assign kind e none).strip e kinds
      (L.tell kind .destroy e ++ events, L')

/-- Destroy an entity: its components by kind, and then its handle. -/
def destroy (L : Ledger K) (e : Entity) : Bool × List (Event K) × Ledger K :=
  if e ∈ L.live then
    let (events, L') := L.strip e L.kinds
    (true, events, { L' with live := L'.live.erase e })
  else (false, [], L)

/-- Destroy the listed entities one after the other, and count them. -/
def destroyAll (L : Ledger K) : List Entity → Nat × List (Event K) × Ledger K
  | [] => (0, [], L)
  | e :: es =>
    let (destroyed, events, L) := L.destroy e
    let (others, events', L) := L.destroyAll es
    (if destroyed then others + 1 else others, events ++ events', L)

/-- Whether an entity is live and has no value of any kind. -/
def isOrphan (L : Ledger K) (e : Entity) : Bool :=
  e ∈ L.live && L.kinds.all fun kind => (L.value kind e).isNone

/-- The live handle with an index. -/
def entityAt? (L : Ledger K) (index : UInt32) : Option Entity :=
  L.live.find? (·.index == index)

/-! ## Components -/

/-- Give an entity a value and tell of it. -/
def construct (L : Ledger K) (kind : K) (e : Entity) (v : Value kind) :
    List (Event K) × Ledger K :=
  let L := (L.enlist kind).assign kind e (some v)
  (L.tell kind .construct e, L)

/-- Give a live entity a value, unless it has one. Answers the value that it has then, and
whether it was made; nothing if making it was abandoned. -/
def emplace (L : Ledger K) (kind : K) (e : Entity) (make : Except Abort (Value kind)) :
    Option ((Option (Value kind) × Bool) × List (Event K) × Ledger K) :=
  if e ∈ L.live then
    match L.value kind e, make with
    | some old, _ => some ((some old, false), [], L.enlist kind)
    | none, .ok v => some ((some v, true), L.construct kind e v)
    | none, .error _ => none
  else some ((none, false), [], L)

/-- Change the value of an entity, if it has one. -/
def patch (L : Ledger K) (kind : K) (e : Entity) (f : Value kind → Value kind) :
    Bool × List (Event K) × Ledger K :=
  match L.value kind e with
  | none => (false, [], L)
  | some v =>
    let L := L.assign kind e (some (f v))
    (true, L.tell kind .update e, L)

/-- Give a live entity a value in place of the one it may have, and answer the value that it has
then. -/
def emplaceOrReplace (L : Ledger K) (kind : K) (e : Entity) (v : Value kind) :
    Option (Value kind) × List (Event K) × Ledger K :=
  if e ∈ L.live then
    match L.value kind e with
    | some _ => (some v, (L.patch kind e fun _ => v).2)
    | none => (some v, L.construct kind e v)
  else (none, [], L)

/-- Tell of the value of an entity, and then cross it out. Answers the value. -/
def take (L : Ledger K) (kind : K) (e : Entity) :
    Option (Value kind) × List (Event K) × Ledger K :=
  match L.value kind e with
  | none => (none, [], L)
  | some v => (some v, L.tell kind .destroy e, L.assign kind e none)

end Ledger

/-! ## Operations -/

/-- What can be done to entities and their components. -/
inductive Op (U σ : Type) [SceneFamily U]
  | create
  | destroy (e : Entity)
  | clear
  | register (kind : Kind U)
  /-- Put a component on an entity unless it has one; it is only made if need be. -/
  | emplace (kind : Kind U) (e : Entity) (make : Except Abort (Value kind))
  | emplaceOrReplace (kind : Kind U) (e : Entity) (v : Value kind)
  | replace (kind : Kind U) (e : Entity) (v : Value kind)
  | patch (kind : Kind U) (e : Entity) (f : Value kind → Value kind)
  | remove (kind : Kind U) (e : Entity)
  | take (kind : Kind U) (e : Entity)
  | get (kind : Kind U) (e : Entity)
  | has (kind : Kind U) (e : Entity)
  | isOrphan (e : Entity)
  | entities
  | entityAt (index : UInt32)
  | connect (kind : Kind U) (event : LifeEvent) (handler : ConnectionKey → Entity → Script U σ)

namespace Op

variable {U σ : Type} [SceneFamily U]

/-- What an operation answers. -/
def Answer : Op U σ → Type
  | create => Entity
  | destroy _ => Bool
  | clear => Nat
  | register _ => ComponentId
  | emplace kind _ _ => Option (Value kind) × Bool
  | emplaceOrReplace kind _ _ => Option (Value kind)
  | replace .. => Bool
  | patch .. => Bool
  | remove .. => Bool
  | take kind _ => Option (Value kind)
  | get kind _ => Option (Value kind)
  | has .. => Bool
  | isOrphan _ => Bool
  | entities => List Entity
  | entityAt _ => Option Entity
  | connect .. => ConnectionKey

variable [DecidableEq U]

/-- The operation as a task. -/
def task : (op : Op U σ) → Task U σ op.Answer
  | create => Task.create
  | destroy e => Task.destroy e
  | clear => Task.clear
  | register kind => Task.register kind
  | emplace kind e make => Task.emplace kind e make
  | emplaceOrReplace kind e v => Task.emplaceOrReplace kind e v
  | replace kind e v => Task.replace kind e v
  | patch kind e f => Task.patch kind e f
  | remove kind e => Task.remove kind e
  | take kind e => Task.take kind e
  | get kind e => do return (← Task.world).get? kind e
  | has kind e => do return (← Task.world).has kind e
  | isOrphan e => do return (← Task.world).isOrphan e
  | entities => do return (← Task.world).handles
  | entityAt index => do return (← Task.world).entityAt? index
  | connect kind event handler => Task.connect kind event handler

/-- The operations one after the other, with all their answers. -/
def serve : List (Op U σ) → Task U σ (List ((op : Op U σ) × op.Answer))
  | [] => return []
  | op :: ops => do
    let a ← op.task
    let answers ← serve ops
    return ⟨op, a⟩ :: answers

end Op

namespace Ledger

variable {U σ : Type} [SceneFamily U] [DecidableEq U]

/-- The ledger answers an operation, after these events, and goes on as another one. -/
def Step (L : Ledger (Kind U)) : (op : Op U σ) → op.Answer → List (Event (Kind U)) →
    Ledger (Kind U) → Prop
  | .create, e, events, L' => L.Admits e ∧ events = [] ∧ L' = L.enter e
  | .destroy e, a, events, L' => (a, events, L') = L.destroy e
  | .clear, a, events, L' => (a, events, L') = L.destroyAll L.live
  | .register kind, a, events, L' =>
    a = (L.enlist kind).kinds.idxOf kind ∧ events = [] ∧ L' = L.enlist kind
  | .emplace kind e make, a, events, L' => some (a, events, L') = L.emplace kind e make
  | .emplaceOrReplace kind e v, a, events, L' => (a, events, L') = L.emplaceOrReplace kind e v
  | .replace kind e v, a, events, L' => (a, events, L') = L.patch kind e fun _ => v
  | .patch kind e f, a, events, L' => (a, events, L') = L.patch kind e f
  | .remove kind e, a, events, L' => a = (L.take kind e).1.isSome ∧ (events, L') = (L.take kind e).2
  | .take kind e, a, events, L' => (a, events, L') = L.take kind e
  | .get kind e, a, events, L' => a = L.value kind e ∧ events = [] ∧ L' = L
  | .has kind e, a, events, L' => a = (L.value kind e).isSome ∧ events = [] ∧ L' = L
  | .isOrphan e, a, events, L' => a = L.isOrphan e ∧ events = [] ∧ L' = L
  | .entities, a, events, L' => a = L.live ∧ events = [] ∧ L' = L
  | .entityAt index, a, events, L' => a = L.entityAt? index ∧ events = [] ∧ L' = L
  | .connect kind event _, a, events, L' =>
    a = L.connections.length ∧ events = [] ∧ L' = L.connect kind event

/-- The ledger answers a list of operations. -/
inductive Run : Ledger (Kind U) → List (Op U σ) → List ((op : Op U σ) × op.Answer) →
    List (Event (Kind U)) → Ledger (Kind U) → Prop
  | nil (L : Ledger (Kind U)) : Run L [] [] [] L
  | cons {L L' L'' : Ledger (Kind U)} {op : Op U σ} {ops : List (Op U σ)} {a : op.Answer}
      {answers : List ((op : Op U σ) × op.Answer)} {events events' : List (Event (Kind U))}
      (h : L.Step op a events L') (hrest : Run L' ops answers events' L'') :
      Run L (op :: ops) (⟨op, a⟩ :: answers) (events ++ events') L''

/-- The ledger has no answer: every index is taken, or every number for a connection to the
signal, or a component is abandoned while it is made. -/
def Refuses (L : Ledger (Kind U)) : Op U σ → Prop
  | .create => L.live.length = 2 ^ 32 - 1
  | .emplace kind e make => L.emplace kind e make = none
  | .connect kind event _ => L.connections.count (kind, event) = 2 ^ 32 - 1
  | _ => False

end Ledger

end EntityScene
