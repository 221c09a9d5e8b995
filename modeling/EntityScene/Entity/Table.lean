import EntityScene.Text
import EntityScene.Abort
import EntityScene.Entity

/-!
# The table of entities

One slot per index ever used. A slot is alive, being destroyed, or free, and
carries the generation of the handle it currently answers to. Released indices
wait on a stack and are used again, latest first, before a new one is opened;
releasing moves the slot to its next generation, so old handles stop matching.

- `SlotState`, `Slot`: the life of one slot.
- `Entity.Table`: the slots, the stack of released indices, the count of live
  entities.
- `allocate`, `beginDestroy`, `release`: the three transitions of a slot.
- `isAlive`, `isDestroying`, `current?`, `toList`: what can be asked.

An entity that is being destroyed counts as alive until it is released.
-/

namespace EntityScene

/-- Where a slot is in its life. -/
inductive SlotState
  | alive
  /-- Still valid, but no longer to be destroyed or extended. -/
  | destroying
  | free
deriving DecidableEq, Repr, Inhabited

/-- The name of a state. -/
def SlotState.describe : SlotState → String
  | .alive => "Alive"
  | .destroying => "Destroying"
  | .free => "Free"

/-- One entry of the table. -/
structure Slot where
  /-- Generation of the handle the slot answers to, or will answer to next. -/
  generation : Generation
  state : SlotState
deriving DecidableEq, Repr, Inhabited

/-- The slot as a record. -/
def Slot.describe (s : Slot) : String :=
  Text.record "Slot" [("generation", s.generation.describe), ("state", s.state.describe)]

namespace Entity

/-- All slots ever opened, and which of them may be used again. -/
structure Table where
  slots : Array Slot := #[]
  /-- Released indices, the latest first. -/
  released : List UInt32 := []
  aliveCount : Nat := 0
deriving DecidableEq, Repr, Inhabited

namespace Table

/-- A table without slots. -/
def empty : Table := {}

/-- The slot that a handle names, if its generation is the current one. -/
def slot? (t : Table) (e : Entity) : Option Slot :=
  t.slots[e.index.toNat]?.filter (·.generation == e.generation)

/-- The state of the slot that a handle names. -/
def state? (t : Table) (e : Entity) : Option SlotState := (t.slot? e).map (·.state)

/-- Whether the handle names an entity, possibly one that is being destroyed. -/
def isAlive (t : Table) (e : Entity) : Bool :=
  (t.state? e).any (· != .free)

/-- Whether the handle names an entity that is being destroyed. -/
def isDestroying (t : Table) (e : Entity) : Bool := t.state? e == some .destroying

/-- The handle that is valid for an index now. -/
def current? (t : Table) (index : UInt32) : Option Entity :=
  (t.slots[index.toNat]?.filter (·.state != .free)).map fun s => ⟨index, s.generation⟩

/-- Number of slots ever opened. -/
def capacity (t : Table) : Nat := t.slots.size

/-- All valid handles, by index. -/
def toList (t : Table) : List Entity :=
  t.slots.toList.zipIdx.filterMap fun (s, i) =>
    if s.state = .free then none else some ⟨.ofNat i, s.generation⟩

/-- Overwrite the slot at an index. -/
def setSlot (t : Table) (index : UInt32) (s : Slot) : Table :=
  { t with slots := t.slots.setIfInBounds index.toNat s }

/-- Issue a handle: for the index released last, with the generation its slot was
left in, else for the next new index with the initial generation. The null index
is never issued; once all others are taken the call is abandoned. -/
def allocate (t : Table) : Except Abort Entity × Table :=
  -- counting comes first, and is checked: a count that overflows leaves the table alone
  if t.aliveCount + 1 < UInt32.size then
    let t := { t with aliveCount := t.aliveCount + 1 }
    match t.released with
    | index :: rest =>
      let generation := (t.slots.getD index.toNat default).generation
      (.ok ⟨index, generation⟩, { t with released := rest }.setSlot index ⟨generation, .alive⟩)
    | [] =>
      if t.slots.size < Entity.nullIndex.toNat then
        (.ok ⟨.ofNat t.slots.size, .initial⟩, { t with slots := t.slots.push ⟨.initial, .alive⟩ })
      else
        (.error .indicesExhausted, t)
  else
    (.error .countOverflow, t)

/-- Start to destroy an entity. Refused unless the handle names an entity that is
not being destroyed yet. -/
def beginDestroy (t : Table) (e : Entity) : Bool × Table :=
  if t.state? e = some .alive then (true, t.setSlot e.index ⟨e.generation, .destroying⟩)
  else (false, t)

/-- Give up an entity: its slot becomes free and moves to the next generation.
Refused unless the handle names an entity. -/
def release (t : Table) (e : Entity) : Bool × Table :=
  if t.isAlive e then
    (true, { t.setSlot e.index ⟨e.generation.next, .free⟩ with
      released := e.index :: t.released
      aliveCount := t.aliveCount - 1 })
  else (false, t)

/-- The table as a record; released indices are listed in the order of release. -/
def describe (t : Table) : String :=
  Text.record "EntityAllocator"
    [("slots", Text.sequence (t.slots.toList.map Slot.describe)),
     ("free_list", Text.sequence (t.released.reverse.map fun i => toString i.toNat)),
     ("alive_count", toString t.aliveCount)]

theorem isDestroying_iff (t : Table) (e : Entity) :
    t.isDestroying e = true ↔ t.state? e = some .destroying := by
  simp [isDestroying]

theorem isAlive_iff (t : Table) (e : Entity) :
    t.isAlive e = true ↔ t.state? e = some .alive ∨ t.state? e = some .destroying := by
  unfold isAlive
  cases h : t.state? e with
  | none => simp
  | some s => cases s <;> simp

/-- An entity that is being destroyed is still alive. -/
theorem isAlive_of_isDestroying {t : Table} {e : Entity} (h : t.isDestroying e = true) :
    t.isAlive e = true :=
  (isAlive_iff t e).2 (.inr ((isDestroying_iff t e).1 h))

end Table

end Entity

end EntityScene
