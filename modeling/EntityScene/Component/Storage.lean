import EntityScene.Entity
import EntityScene.Storage.SparseSet
import EntityScene.Component.Catalog

/-!
# Storages of any kind

The registry keeps one sparse set per kind in a single array, although their
values have different types. A `Storage` carries its kind along, so whole-entity
operations can do without it and typed ones can ask for it.

- `Storage`: a sparse set together with the kind of its values.
- `Storage.asKind?`: the typed view, present exactly for the kind it carries;
  `asKind?_self` and `asKind?_of_ne` say so.
- `Storage.update`: a typed edit, which leaves a storage of another kind alone.
-/

namespace EntityScene

/-- A sparse set of some kind. -/
structure Storage (K : Type) [ComponentFamily K] where
  /-- The kind of the values. -/
  kind : K
  /-- The values by entity. -/
  set : SparseSet (Value kind)

namespace Storage

variable {K : Type} [ComponentFamily K]

/-- A storage of the given kind without rows. -/
def empty (kind : K) : Storage K := ⟨kind, .empty⟩

/-- Number of rows. -/
def size (s : Storage K) : Nat := s.set.size

/-- Whether there are no rows. -/
def isEmpty (s : Storage K) : Bool := s.set.isEmpty

/-- Whether the handle has a row. -/
def contains (s : Storage K) (e : Entity) : Bool := s.set.contains e

/-- The handles that have rows, in packed order. -/
def entities (s : Storage K) : Array Entity := s.set.entities

/-- Remove the row of a handle, and answer whether there was one. -/
def erase (s : Storage K) (e : Entity) : Except Abort Bool × Storage K :=
  let (found, set) := s.set.erase e
  (found, { s with set })

/-- Remove every row. -/
def clear (s : Storage K) : Storage K := { s with set := s.set.clear }

/-- The name of the kind. -/
def name [KindNames K] (s : Storage K) : String := kindName s.kind

variable [DecidableEq K]

/-- The sparse set, if the storage is of the given kind. -/
def asKind? (s : Storage K) (kind : K) : Option (SparseSet (Value kind)) :=
  if h : s.kind = kind then some (h ▸ s.set) else none

/-- Edit the sparse set, if the storage is of the given kind. -/
def update (s : Storage K) (kind : K) (f : SparseSet (Value kind) → SparseSet (Value kind)) :
    Storage K :=
  if h : s.kind = kind then ⟨kind, f (h ▸ s.set)⟩ else s

/-- A storage of a kind is seen as one. -/
@[simp] theorem asKind?_self (kind : K) (set : SparseSet (Value kind)) :
    (Storage.mk kind set).asKind? kind = some set := by
  simp [asKind?]

/-- A storage of a kind is not seen as one of another kind. -/
theorem asKind?_of_ne {s : Storage K} {kind : K} (h : s.kind ≠ kind) :
    s.asKind? kind = none := by
  simp [asKind?, h]

/-- A typed edit is an edit of the typed view. -/
@[simp] theorem update_self (kind : K) (set : SparseSet (Value kind))
    (f : SparseSet (Value kind) → SparseSet (Value kind)) :
    (Storage.mk kind set).update kind f = ⟨kind, f set⟩ := by
  simp [update]

theorem update_of_ne {s : Storage K} {kind : K} (h : s.kind ≠ kind)
    (f : SparseSet (Value kind) → SparseSet (Value kind)) : s.update kind f = s := by
  simp [update, h]

/-- No edit changes the kind of a storage. -/
theorem kind_update (s : Storage K) (kind : K)
    (f : SparseSet (Value kind) → SparseSet (Value kind)) : (s.update kind f).kind = s.kind := by
  unfold update
  split
  · rename_i h; exact h.symm
  · rfl

end Storage

end EntityScene
