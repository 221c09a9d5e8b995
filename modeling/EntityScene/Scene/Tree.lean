import EntityScene.World
import EntityScene.Scene.Kind

/-!
# The scene tree

The links of all nodes together form the scene tree. What can be asked of it reads
the links that the world holds at the time, and ends also when they are damaged:
links may be stale, one-sided, or go round in circles.

- `node?`, `parentOf?`, `childrenOf`: the links of one node. An entity without
  links reads as a root without children.
- `ancestors`: up the parent links, nearest first, as far as they lead to valid
  handles. `isAncestor`, `depth` and `rootOf` are read off that list.
- `descendants`: down the child links, generation by generation.

No walk lists more entities than are alive; only damaged links come to that.
-/

namespace EntityScene.World

variable {U : Type} [SceneFamily U] [DecidableEq U]

/-- The links of an entity. -/
def node? (w : World (Kind U)) (e : Entity) : Option TreeNode := w.get? .node e

/-- The placement of an entity. -/
def transform? (w : World (Kind U)) (e : Entity) : Option (Transform (geometry U)) :=
  w.get? .transform e

/-- The parent of an entity; none for roots and for entities without links. -/
def parentOf? (w : World (Kind U)) (e : Entity) : Option Entity :=
  ((w.node? e).map (·.parent)).filter (!·.isNull)

/-- The children of an entity, in order. -/
def childrenOf (w : World (Kind U)) (e : Entity) : List Entity :=
  ((w.node? e).map (·.children)).getD []

/-- The parent of an entity, if it is valid. -/
def validParentOf? (w : World (Kind U)) (e : Entity) : Option Entity :=
  (w.parentOf? e).filter w.isValid

/-- Up the valid parent links, for a limited number of steps. -/
def climb (w : World (Kind U)) : Nat → Entity → List Entity
  | 0, _ => []
  | steps + 1, e =>
    match w.validParentOf? e with
    | none => []
    | some parent => parent :: w.climb steps parent

/-- The ancestors of an entity from its parent up. -/
def ancestors (w : World (Kind U)) (e : Entity) : List Entity := w.climb w.aliveCount e

/-- Whether an entity lies on the way up from another. -/
def isAncestor (w : World (Kind U)) (ancestor e : Entity) : Bool :=
  (w.ancestors e).contains ancestor

/-- Number of ancestors. -/
def depth (w : World (Kind U)) (e : Entity) : Nat := (w.ancestors e).length

/-- The last ancestor; the entity itself if it has none. -/
def rootOf (w : World (Kind U)) (e : Entity) : Entity := (w.ancestors e).getLastD e

/-- Everything in a queue, with the children of each entity put at the end of the
queue when its turn comes. At most `room` entities are listed: once more than that
are known, the list is cut. -/
def sweep (w : World (Kind U)) : (room : Nat) → (queue : List Entity) → List Entity
  | _, [] => []
  | 0, _ :: _ => []
  | room + 1, e :: queue =>
    if queue.length > room then e :: queue.take room
    else e :: w.sweep room (queue ++ w.childrenOf e)

/-- The descendants of an entity, its children first. -/
def descendants (w : World (Kind U)) (e : Entity) : List Entity :=
  w.sweep w.aliveCount (w.childrenOf e)

/-- The parent is the one that the links name, unless they name none. -/
theorem parentOf?_eq_some_iff {w : World (Kind U)} {e p : Entity} {node : TreeNode}
    (h : w.node? e = some node) :
    w.parentOf? e = some p ↔ node.parent = p ∧ p.isNull = false := by
  rw [parentOf?, h, Option.map_some, Option.filter_eq_some_iff, Option.some.injEq,
    Bool.not_eq_true']

theorem parentOf?_eq_none_iff {w : World (Kind U)} {e : Entity} {node : TreeNode}
    (h : w.node? e = some node) : w.parentOf? e = none ↔ node.isRoot = true := by
  rw [parentOf?, h, TreeNode.isRoot, Option.map_some, Option.filter_some]
  cases node.parent.isNull <;> simp

/-! ## Handles that are not valid, and bounds -/

theorem node?_of_not_isValid {w : World (Kind U)} {e : Entity} (h : w.isValid e = false) :
    w.node? e = none :=
  get?_of_not_isValid _ h

theorem parentOf?_of_not_isValid {w : World (Kind U)} {e : Entity} (h : w.isValid e = false) :
    w.parentOf? e = none := by
  simp [parentOf?, node?_of_not_isValid h]

theorem childrenOf_of_not_isValid {w : World (Kind U)} {e : Entity}
    (h : w.isValid e = false) : w.childrenOf e = [] := by
  simp [childrenOf, node?_of_not_isValid h]

end EntityScene.World
