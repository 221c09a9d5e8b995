import EntityScene.Text

/-!
# Component kinds and their catalog

Components come in *kinds*: each kind has a type of values and a name. A catalog
numbers the kinds that are in use, in the order in which they first came up.

- `ComponentFamily`: what a type of kinds has to say about each kind.
- `Catalog`: the kinds in use. `Catalog.register` is idempotent and hands out
  dense numbers, `Catalog.idOf?` and `Catalog.info?` look a number or a kind up.
-/

namespace EntityScene

/-- A type whose members are kinds of components. -/
class ComponentFamily (K : Type) where
  /-- The values of a kind. -/
  Value : K → Type

export ComponentFamily (Value)

/-- The names under which kinds are shown. -/
class KindNames (K : Type) where
  /-- The full name of a kind. -/
  kindName : K → String

export KindNames (kindName)

/-- The number of a kind in a catalog. -/
abbrev ComponentId := Nat

/-- The number between the parentheses of `ComponentId(..)`. -/
def ComponentId.describe (id : ComponentId) : String := "ComponentId(" ++ toString id ++ ")"

/-- What a catalog knows about a kind. -/
structure ComponentInfo (K : Type) where
  id : ComponentId
  kind : K
deriving DecidableEq, Repr

namespace ComponentInfo

variable {K : Type}

/-- The name of the kind. -/
def name [KindNames K] (info : ComponentInfo K) : String := kindName info.kind

/-- Whether the entry is for the given kind. -/
def isFor [DecidableEq K] (info : ComponentInfo K) (kind : K) : Bool := info.kind == kind

/-- The entry as a record. -/
def describe [KindNames K] (info : ComponentInfo K) : String :=
  Text.record "ComponentInfo" [("id", info.id.describe), ("name", Text.quoted info.name)]

end ComponentInfo

/-- The kinds in use, by number. -/
structure Catalog (K : Type) where
  kinds : Array K := #[]
deriving DecidableEq, Repr

namespace Catalog

variable {K : Type}

/-- A catalog without kinds. -/
def empty : Catalog K := {}

instance : Inhabited (Catalog K) := ⟨empty⟩

/-- Number of kinds in use. -/
def size (c : Catalog K) : Nat := c.kinds.size

/-- Whether no kind is in use. -/
def isEmpty (c : Catalog K) : Bool := c.kinds.isEmpty

/-- The entry with a number. -/
def info? (c : Catalog K) (id : ComponentId) : Option (ComponentInfo K) :=
  c.kinds[id]?.map fun kind => ⟨id, kind⟩

/-- All entries, by number. -/
def toList (c : Catalog K) : List (ComponentInfo K) :=
  c.kinds.toList.zipIdx.map fun (kind, id) => ⟨id, kind⟩

/-- The catalog as a record. -/
def describe [KindNames K] (c : Catalog K) : String :=
  Text.record "ComponentRegistry"
    [("count", toString c.size),
     ("components", Text.sequence (c.toList.map ComponentInfo.describe))]

variable [DecidableEq K]

/-- The number of a kind, if it is in use. -/
def idOf? (c : Catalog K) (kind : K) : Option ComponentId := c.kinds.findIdx? (· == kind)

/-- The number of a kind; a kind that is not in use yet gets the next one. -/
def register (c : Catalog K) (kind : K) : ComponentId × Catalog K :=
  match c.idOf? kind with
  | some id => (id, c)
  | none => (c.kinds.size, { kinds := c.kinds.push kind })

theorem register_of_idOf? {c : Catalog K} {kind : K} {id : ComponentId}
    (h : c.idOf? kind = some id) : c.register kind = (id, c) := by
  simp [register, h]

theorem register_of_idOf?_eq_none {c : Catalog K} {kind : K} (h : c.idOf? kind = none) :
    c.register kind = (c.kinds.size, { kinds := c.kinds.push kind }) := by
  simp [register, h]

/-- A kind stands where its number says. -/
theorem getElem?_of_idOf? {c : Catalog K} {kind : K} {id : ComponentId}
    (h : c.idOf? kind = some id) : c.kinds[id]? = some kind := by
  obtain ⟨hlt, heq, -⟩ := Array.findIdx?_eq_some_iff_getElem.1 h
  rw [Array.getElem?_eq_getElem hlt, eq_of_beq heq]

/-- The number of a kind is that of an entry. -/
theorem lt_size_of_idOf? {c : Catalog K} {kind : K} {id : ComponentId}
    (h : c.idOf? kind = some id) : id < c.size :=
  (Array.findIdx?_eq_some_iff_getElem.1 h).1

/-- After its registration a kind has the number that the registration answered. -/
theorem idOf?_register_self (c : Catalog K) (kind : K) :
    (c.register kind).2.idOf? kind = some (c.register kind).1 := by
  cases h : c.idOf? kind with
  | some id => rw [register_of_idOf? h]; exact h
  | none =>
    rw [register_of_idOf?_eq_none h]
    simp only [idOf?] at h ⊢
    simp [Array.findIdx?_push, h]

/-- A registration changes no number that was handed out before. -/
theorem idOf?_register_of_idOf? {c : Catalog K} {kind other : K} {id : ComponentId}
    (h : c.idOf? other = some id) : (c.register kind).2.idOf? other = some id := by
  cases hk : c.idOf? kind with
  | some n => rw [register_of_idOf? hk]; exact h
  | none =>
    rw [register_of_idOf?_eq_none hk]
    simp only [idOf?] at h ⊢
    simp [Array.findIdx?_push, h]

end Catalog

end EntityScene
