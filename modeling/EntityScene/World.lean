import EntityScene.Text
import EntityScene.Abort
import EntityScene.Entity
import EntityScene.Entity.Table
import EntityScene.Storage.SparseSet
import EntityScene.Component.Catalog
import EntityScene.Component.Storage
import EntityScene.Signal

/-!
# The world of entities and components

A world holds the entities, the catalog of the kinds in use, and for each of these
kinds a *pool*: its storage and its three signals. It decides whether a handle is
valid and which components an entity has.

This module holds what can be asked of a world, and the edits that call no handler.
Calls that publish signals, and so run handlers in the middle, are steps of
`Program.Machine`.

- `Pool`, `World`: the data.
- `isValid`, `isDestroying`, `accepts`: what a handle is good for.
- `register`, `storage?`, `updateStorage`: kinds and their storages.
- `get?`, `edit`, `rows`: components of entities. A handle that is not valid
  reads as having none, whatever the storages hold.
- `connect`, `disconnectAll`, `snapshot`: the signals of a pool.
- `removing`: the pairs of kind and entity whose removal is being announced.
-/

namespace EntityScene

/-- Storage and signals of one kind. -/
structure Pool (K : Type) [ComponentFamily K] where
  storage : Storage K
  signals : Signals := .empty

/-- Entities, their components, and who is told about them. -/
structure World (K : Type) [ComponentFamily K] where
  entities : Entity.Table := .empty
  catalog : Catalog K := .empty
  /-- The pool of each kind in use, by its number in the catalog. -/
  pools : Array (Pool K) := #[]
  /-- Kinds and entities of the removals that are being announced. -/
  removing : List (ComponentId × Entity) := []
  /-- The connections of all signals. -/
  board : Switchboard := .empty

namespace World

variable {K : Type} [ComponentFamily K]

/-- A world without entities and kinds. -/
def empty : World K := {}

instance : Inhabited (World K) := ⟨empty⟩

/-! ## Entities -/

/-- Whether the handle names an entity, possibly one that is being destroyed. -/
def isValid (w : World K) (e : Entity) : Bool := w.entities.isAlive e

/-- Whether the handle names an entity that is being destroyed. -/
def isDestroying (w : World K) (e : Entity) : Bool := w.entities.isDestroying e

/-- Whether the entity may be given components. -/
def accepts (w : World K) (e : Entity) : Bool := w.isValid e && !w.isDestroying e

/-- Number of valid handles. -/
def aliveCount (w : World K) : Nat := w.entities.aliveCount

/-- All valid handles, by index. -/
def handles (w : World K) : List Entity := w.entities.toList

/-- The handle that is valid for an index now. -/
def entityAt? (w : World K) (index : UInt32) : Option Entity := w.entities.current? index

/-- Whether the handle is valid and no storage has a row for it. -/
def isOrphan (w : World K) (e : Entity) : Bool :=
  w.isValid e && w.pools.all fun pool => !pool.storage.contains e

/-- Create an entity without components. -/
def create (w : World K) : Except Abort Entity × World K :=
  let (e, entities) := w.entities.allocate
  (e, { w with entities })

/-- The world as a record. -/
def describe (w : World K) : String :=
  Text.record "Registry"
    [("entity_count", toString w.aliveCount), ("component_types", toString w.catalog.size)]

/-! ## Pools -/

/-- Change the storage of one pool. -/
def updatePool (w : World K) (id : ComponentId) (f : Storage K → Storage K) : World K :=
  { w with pools := w.pools.modify id fun pool => { pool with storage := f pool.storage } }

/-- Whether the storage of a pool has a row for the handle. -/
def holds (w : World K) (id : ComponentId) (e : Entity) : Bool :=
  w.pools[id]?.any fun pool => pool.storage.contains e

/-- The world after the row of a handle was removed from one pool, as far as it got. -/
def erase (w : World K) (id : ComponentId) (e : Entity) : World K :=
  w.updatePool id fun storage => (storage.erase e).2

/-- What the removal of a row from one pool answers. -/
def erasure (w : World K) (id : ComponentId) (e : Entity) : Except Abort Bool :=
  (w.pools[id]?.map fun pool => (pool.storage.erase e).1).getD (.ok false)

/-- The signal of one pool for one kind of event. -/
def signal? (w : World K) (id : ComponentId) (event : LifeEvent) : Option Signal :=
  w.pools[id]?.map fun pool => pool.signals.get event

/-- Exchange the signal of one pool for one kind of event. -/
def setSignal (w : World K) (id : ComponentId) (event : LifeEvent) (signal : Signal) : World K :=
  { w with pools := w.pools.modify id fun pool =>
      { pool with signals := pool.signals.set event signal } }

/-- The connections that a dispatch starting now goes through. -/
def snapshot (w : World K) (id : ComponentId) (event : LifeEvent) :
    List ConnectionKey × World K :=
  match w.signal? id event with
  | none => ([], w)
  | some signal =>
    let (keys, signal) := signal.snapshot w.board
    (keys, w.setSignal id event signal)

/-! ## What handles are good for -/

/-- A handle that is being destroyed is valid. -/
theorem isValid_of_isDestroying {w : World K} {e : Entity} (h : w.isDestroying e = true) :
    w.isValid e = true :=
  Entity.Table.isAlive_of_isDestroying h

theorem accepts_iff (w : World K) (e : Entity) :
    w.accepts e = true ↔ w.isValid e = true ∧ w.isDestroying e = false := by
  simp [accepts]

/-! ## Worlds with the same handles -/

section Handles

variable {w w' : World K}

theorem isValid_congr (h : w'.entities = w.entities) (e : Entity) : w'.isValid e = w.isValid e := by
  rw [isValid, h, isValid]

theorem isDestroying_congr (h : w'.entities = w.entities) (e : Entity) :
    w'.isDestroying e = w.isDestroying e := by
  rw [isDestroying, h, isDestroying]

theorem accepts_congr (h : w'.entities = w.entities) (e : Entity) : w'.accepts e = w.accepts e := by
  rw [accepts, isValid_congr h, isDestroying_congr h, accepts]

theorem aliveCount_congr (h : w'.entities = w.entities) : w'.aliveCount = w.aliveCount := by
  rw [aliveCount, h, aliveCount]

end Handles

/-! ## Kinds -/

variable [DecidableEq K]

/-- The number of a kind, if it is in use. -/
def idOf? (w : World K) (kind : K) : Option ComponentId := w.catalog.idOf? kind

/-- Take a kind into use, with an empty pool, and answer its number. -/
def register (w : World K) (kind : K) : ComponentId × World K :=
  let (id, catalog) := w.catalog.register kind
  let pools := if id = w.pools.size then w.pools.push { storage := .empty kind } else w.pools
  (id, { w with catalog, pools })

/-- Take several kinds into use, one after the other. -/
def registerAll (w : World K) : List K → List ComponentId × World K
  | [] => ([], w)
  | kind :: kinds =>
    let (id, w) := w.register kind
    let (ids, w) := w.registerAll kinds
    (id :: ids, w)

/-- The storage of a kind, if it is in use. -/
def storage? (w : World K) (kind : K) : Option (SparseSet (Value kind)) := do
  let id ← w.idOf? kind
  let pool ← w.pools[id]?
  pool.storage.asKind? kind

/-- Edit the storage of a kind directly, past all signals and checks. Nothing
happens for a kind that is not in use. -/
def updateStorage (w : World K) (kind : K)
    (f : SparseSet (Value kind) → SparseSet (Value kind)) : World K :=
  match w.idOf? kind with
  | some id => w.updatePool id (·.update kind f)
  | none => w

/-! ## Components -/

/-- The component of the given kind that an entity has, if it can be read. -/
def get? (w : World K) (kind : K) (e : Entity) : Option (Value kind) :=
  if w.isValid e then (w.storage? kind).bind (·.get? e) else none

/-- Whether an entity has a component of the given kind. -/
def has (w : World K) (kind : K) (e : Entity) : Bool := (w.get? kind e).isSome

/-- Change a component in place; nothing happens if the entity has none. -/
def edit (w : World K) (kind : K) (e : Entity) (f : Value kind → Value kind) : World K :=
  if w.isValid e then w.updateStorage kind (·.modify e f) else w

/-- All rows of a kind, in packed order. -/
def rows (w : World K) (kind : K) : List (Entity × Value kind) :=
  ((w.storage? kind).map (·.rows)).getD []

/-- Number of rows of a kind. -/
def count (w : World K) (kind : K) : Nat := ((w.storage? kind).map (·.size)).getD 0

/-- Put a component in place, taking its kind into use. An entity that has one
keeps it; the answer says whether one was added. -/
def place (w : World K) (kind : K) (e : Entity) (make : Except Abort (Value kind)) :
    Except Abort Bool × World K :=
  let w := (w.register kind).2
  match w.storage? kind with
  | none => (.ok false, w)
  | some storage =>
    let (added, storage) := storage.emplaceWith e make
    (added, w.updateStorage kind fun _ => storage)

/-- Take a component out of its storage. -/
def pull (w : World K) (kind : K) (e : Entity) :
    Except Abort (Option (Value kind)) × World K :=
  match w.storage? kind with
  | none => (.ok none, w)
  | some storage =>
    let (old, storage) := storage.remove e
    (old, w.updateStorage kind fun _ => storage)

/-! ## Signals -/

/-- Make a connection to the signal of a kind, taking the kind into use. -/
def connect (w : World K) (kind : K) (event : LifeEvent) :
    Except Abort ConnectionKey × World K :=
  let (id, w) := w.register kind
  let (made, signal, board) := ((w.signal? id event).getD .empty).connect w.board
  (made, { w.setSignal id event signal with board })

/-- Cut all connections to the signal of a kind, taking the kind into use. -/
def disconnectAll (w : World K) (kind : K) (event : LifeEvent) : World K :=
  let (id, w) := w.register kind
  let (signal, board) := ((w.signal? id event).getD .empty).disconnectAll w.board
  { w.setSignal id event signal with board }

/-- The signal of a kind, if the kind is in use. -/
def signalOf? (w : World K) (kind : K) (event : LifeEvent) : Option Signal := do
  w.signal? (← w.idOf? kind) event

/-! ## Handles that are not valid -/

/-- A handle that is not valid has no component. -/
theorem get?_of_not_isValid {w : World K} {e : Entity} (kind : K) (h : w.isValid e = false) :
    w.get? kind e = none := by
  simp [get?, h]

end World

end EntityScene
