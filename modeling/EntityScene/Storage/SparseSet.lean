import EntityScene.Text
import EntityScene.Abort
import EntityScene.Entity
import EntityScene.Storage.SlotTable

/-!
# Sparse sets

A sparse set holds one value per entity. Entities and values lie packed, row by
row, in two arrays; a slot table leads from an entity's index to its row. A new
row goes to the end, and a removed one is filled by the last, so the arrays have
no holes and the order of rows is the order of arrival as far as removals leave it.

- `SparseSet`: the slot table and the two packed arrays.
- `slotOf?`, `contains`, `get?`: what there is for a handle. A row belongs to one
  exact handle; one of another generation whose index leads there has none.
- `locate`, `get`: the same, for a call. It is abandoned where it is led to a row
  that an array does not have.
- `emplaceWith`: keeps what is there; a row that another generation of the same
  index left behind is removed before the new row is written.
- `insertOrReplace`, `write`, `remove`, `removeAll`, `clear`: the other edits.
- `rows`: the packed rows, which is what a sparse set looks like from outside.

The null handle can hold nothing: putting a value on it abandons the call. A value
that is not made abandons it too, and leaves the row without one. From there on the
arrays are shifted against each other, and calls can be abandoned halfway: an edit
answers together with the set that it leaves, whatever becomes of it.
-/

namespace EntityScene

/-- The array without the given row, which the last row takes the place of. -/
def swapRemove {β : Type} (rows : Array β) (slot : Nat) : Array β :=
  (rows.swapIfInBounds slot (rows.size - 1)).pop

/-- What stands in a row of an array. -/
def rowAt {β : Type} (rows : Array β) (slot : Nat) : Except Abort β :=
  match rows[slot]? with
  | some row => .ok row
  | none => .error (.rowMissing slot rows.size)

/-- Values by entity, packed. -/
structure SparseSet (α : Type) where
  /-- From the index of an entity to its row. -/
  slots : SlotTable := .empty
  /-- The entity of each row. -/
  entities : Array Entity := #[]
  /-- The value of each row. -/
  values : Array α := #[]

namespace SparseSet

variable {α : Type}

/-- A set without rows. -/
def empty : SparseSet α := {}

instance : Inhabited (SparseSet α) := ⟨empty⟩

/-- Number of rows. -/
def size (s : SparseSet α) : Nat := s.entities.size

/-- Whether there are no rows. -/
def isEmpty (s : SparseSet α) : Bool := s.entities.isEmpty

/-- Number of pages of the slot table. -/
def pageCount (s : SparseSet α) : Nat := s.slots.pageCount

/-- The row of a handle: the row its index leads to, if it is for that very handle. -/
def slotOf? (s : SparseSet α) (e : Entity) : Option Nat :=
  (s.slots.get? e.index).filter fun slot => s.entities[slot]? == some e

/-- Whether the handle has a row. -/
def contains (s : SparseSet α) (e : Entity) : Bool := (s.slotOf? e).isSome

/-- The value in the row of a handle, if there is a row and a value in it. -/
def get? (s : SparseSet α) (e : Entity) : Option α :=
  (s.slotOf? e).bind fun slot => s.values[slot]?

/-- Look for the row of a handle. -/
def locate (s : SparseSet α) (e : Entity) : Except Abort (Option Nat) :=
  match s.slots.get? e.index with
  | none => .ok none
  | some slot => (rowAt s.entities slot).map fun x => if x = e then some slot else none

/-- Look for the value of a handle. -/
def get (s : SparseSet α) (e : Entity) : Except Abort (Option α) :=
  match s.locate e with
  | .error cause => .error cause
  | .ok none => .ok none
  | .ok (some slot) => (rowAt s.values slot).map some

/-- Entities and values row by row. -/
def rows (s : SparseSet α) : List (Entity × α) := s.entities.toList.zip s.values.toList

/-- The set without a row: the last one moves into its place, and the slot table
learns where the moved row is now. -/
def dropRow (s : SparseSet α) (slot : Nat) : SparseSet α :=
  let cleared := match s.entities[slot]? with
    | some e => s.slots.clear e.index
    | none => s.slots
  let entities := swapRemove s.entities slot
  { slots := match entities[slot]? with
      | some moved => cleared.set moved.index slot
      | none => cleared
    entities
    values := swapRemove s.values slot }

/-- Remove a row, and answer its value. The handle is taken out first, and if there is
no value then, it is gone while the slot table still leads to where it was. -/
def removeAt (s : SparseSet α) (slot : Nat) : Except Abort α × SparseSet α :=
  if slot < s.entities.size then
    match s.values[slot]? with
    | some v => (.ok v, s.dropRow slot)
    | none =>
      (.error (.removalMissing slot s.values.size),
        { s with entities := swapRemove s.entities slot })
  else (.error (.removalMissing slot s.entities.size), s)

/-- Remove the row that an index leads to, whatever its generation. -/
def evict (s : SparseSet α) (index : UInt32) : Except Abort Unit × SparseSet α :=
  match s.slots.get? index with
  | none => (.ok (), s)
  | some slot =>
    match rowAt s.entities slot with
    | .error cause => (.error cause, s)
    | .ok _ =>
      let (removed, s) := s.removeAt slot
      (removed.map fun _ => (), s)

/-- The set with a new last row, the value of which is not there yet. -/
def begun (s : SparseSet α) (e : Entity) : SparseSet α :=
  { s with
    slots := s.slots.set e.index s.entities.size
    entities := s.entities.push e }

/-- Give the handle the value that `make` computes, unless it has one. Answers
whether a row was added; `make` is only asked if one is. The entity is entered
before `make` is asked and the value after, and the answer comes with the value that
stands in the row of the entity then. -/
def emplaceWith (s : SparseSet α) (e : Entity) (make : Except Abort α) :
    Except Abort Bool × SparseSet α :=
  if e.isNull then (.error .nullHolder, s)
  else
    match s.locate e with
    | .error cause => (.error cause, s)
    | .ok (some slot) => ((rowAt s.values slot).map fun _ => false, s)
    | .ok none =>
      -- another generation of the index may have left its row behind
      match s.evict e.index with
      | (.error cause, s) => (.error cause, s)
      | (.ok (), s) =>
        match make with
        | .error cause => (.error cause, s.begun e)
        | .ok v =>
          let values := s.values.push v
          ((rowAt values s.entities.size).map fun _ => true, { s.begun e with values })

/-- Give the handle a value, unless it has one. -/
def emplace (s : SparseSet α) (e : Entity) (v : α) : Except Abort Bool × SparseSet α :=
  s.emplaceWith e (.ok v)

/-- The set with the value of a handle changed in place, if it has one. -/
def modify (s : SparseSet α) (e : Entity) (f : α → α) : SparseSet α :=
  match s.slotOf? e with
  | some slot => { s with values := s.values.modify slot f }
  | none => s

/-- Change the value of a handle in place, and answer the one it had before. -/
def write (s : SparseSet α) (e : Entity) (f : α → α) : Except Abort (Option α) × SparseSet α :=
  (s.get e, s.modify e f)

/-- Give the handle a value, and answer the one it had before. -/
def insertOrReplace (s : SparseSet α) (e : Entity) (v : α) :
    Except Abort (Option α) × SparseSet α :=
  match s.get e with
  | .error cause => (.error cause, s)
  | .ok (some old) => (.ok (some old), s.modify e fun _ => v)
  | .ok none =>
    let (added, s) := s.emplace e v
    (added.map fun _ => none, s)

/-- Change every value in place. -/
def mapValues (s : SparseSet α) (f : α → α) : SparseSet α :=
  { s with values := s.values.map f }

/-- Remove the row of a handle, and answer its value. -/
def remove (s : SparseSet α) (e : Entity) : Except Abort (Option α) × SparseSet α :=
  match s.locate e with
  | .error cause => (.error cause, s)
  | .ok none => (.ok none, s)
  | .ok (some slot) =>
    let (old, s) := s.removeAt slot
    (old.map some, s)

/-- Remove the row of a handle, and answer whether there was one. -/
def erase (s : SparseSet α) (e : Entity) : Except Abort Bool × SparseSet α :=
  let (old, s) := s.remove e
  (old.map (·.isSome), s)

/-- Remove the rows of all listed handles, and answer how many there were. -/
def removeAll (s : SparseSet α) : List Entity → Except Abort Nat × SparseSet α
  | [] => (.ok 0, s)
  | e :: es =>
    match s.erase e with
    | (.error cause, s) => (.error cause, s)
    | (.ok found, s) =>
      let (others, s) := s.removeAll es
      (others.map fun n => if found then n + 1 else n, s)

/-- Remove every row. The pages of the slot table stay. -/
def clear (s : SparseSet α) : SparseSet α :=
  { slots := s.entities.foldl (fun t e => t.clear e.index) s.slots, entities := #[], values := #[] }

/-- The set as a record, given the name of what it holds. -/
def describe (s : SparseSet α) (component : String) : String :=
  Text.record "SparseSet"
    [("component", Text.quoted component), ("len", toString s.size),
     ("pages", toString s.pageCount)]

/-! ## Rows and handles -/

theorem slotOf?_eq_some_iff {s : SparseSet α} {e : Entity} {slot : Nat} :
    s.slotOf? e = some slot ↔
      s.slots.get? e.index = some slot ∧ s.entities[slot]? = some e := by
  simp [slotOf?, Option.filter_eq_some_iff]

/-- A handle that has a row finds itself in it. -/
theorem getElem?_of_slotOf? {s : SparseSet α} {e : Entity} {slot : Nat}
    (h : s.slotOf? e = some slot) : s.entities[slot]? = some e :=
  (slotOf?_eq_some_iff.1 h).2

theorem contains_iff (s : SparseSet α) (e : Entity) :
    s.contains e = true ↔ ∃ slot, s.slotOf? e = some slot := by
  simp [contains, Option.isSome_iff_exists]

@[simp] theorem slotOf?_empty (e : Entity) : (empty : SparseSet α).slotOf? e = none := by
  simp [slotOf?, empty]

@[simp] theorem get?_empty (e : Entity) : (empty : SparseSet α).get? e = none := by
  simp [get?]

/-- Nothing is ever put on a null handle. -/
theorem emplaceWith_null (s : SparseSet α) {e : Entity} (make : Except Abort α)
    (h : e.isNull = true) : s.emplaceWith e make = (.error .nullHolder, s) := by
  simp [emplaceWith, h]

end SparseSet

end EntityScene
