import EntityScene.World
import EntityScene.Scene.Kind
import EntityScene.Scene.Tree

/-!
# Propagation of transforms

A pass walks down from a node and finds the way to the world again for every node
that is dirty or lies below a dirty one. That a parent was dirty is handed down on
the way and not stored: a node below keeps its own mark until its turn.

- `Visit`: a node that waits for its turn, with what its parent hands down.
- `World.nextVisit?`: the first waiting node with both links and placement. Nodes
  that lack one of them are passed over, and so is everything below them.
- `World.propagate`: the walk, a node before its children and children in order.
- `World.updateTransform`, `World.updateAllTransforms`: from one node, and from
  every root.

Nobody is told about the new matrices. A pass visits at most as many nodes as are
alive; only damaged links come to that.
-/

namespace EntityScene

/-- A node that waits for its turn in a pass. -/
structure Visit (U : Type) [SceneFamily U] where
  entity : Entity
  /-- From the parent of the node to the world. -/
  parent : (geometry U).Matrix
  /-- Whether the parent was found again. -/
  inherited : Bool

namespace World

variable {U : Type} [SceneFamily U] [DecidableEq U]

/-- The first waiting node that has a placement and links, with both of them and
the nodes that wait behind it. -/
def nextVisit? (w : World (Kind U)) :
    List (Visit U) → Option (Visit U × Transform (geometry U) × TreeNode × List (Visit U))
  | [] => none
  | visit :: rest =>
    match w.transform? visit.entity, w.node? visit.entity with
    | some transform, some node => some (visit, transform, node, rest)
    | _, _ => w.nextVisit? rest

/-- What a visited node hands down to its children. -/
def handDown (visit : Visit U) (transform : Transform (geometry U)) (node : TreeNode) :
    List (Visit U) :=
  let refreshed := transform.refresh visit.parent visit.inherited
  node.children.map fun child =>
    { entity := child, parent := refreshed.localToWorld,
      inherited := visit.inherited || transform.dirty }

/-- Visit the waiting nodes and all below them, for at most `room` nodes. The
children of a node come before whatever waited behind it. -/
def propagate (w : World (Kind U)) : (room : Nat) → List (Visit U) → World (Kind U)
  | 0, _ => w
  | room + 1, waiting =>
    match w.nextVisit? waiting with
    | none => w
    | some (visit, transform, node, rest) =>
      let w := w.edit .transform visit.entity fun t =>
        Transform.refresh t visit.parent visit.inherited
      w.propagate room (handDown visit transform node ++ rest)

/-- Find the matrices of a node and of everything below it again, as if the node had
no parent. Takes placements and links into use. -/
def updateTransform (w : World (Kind U)) (root : Entity) : World (Kind U) :=
  let w := (w.register .transform).2
  let w := (w.register .node).2
  w.propagate w.aliveCount [{ entity := root, parent := (geometry U).identity, inherited := false }]

/-- The roots of the tree that have a placement, in the order of their rows. -/
def placedRoots (w : World (Kind U)) : List Entity :=
  ((w.rows .node).filter fun row => TreeNode.isRoot row.2 && w.has .transform row.1).map (·.1)

/-- Find the matrices below every root again. Answers the number of roots. -/
def updateAllTransforms (w : World (Kind U)) : Nat × World (Kind U) :=
  let roots := w.placedRoots
  (roots.length, roots.foldl updateTransform w)

omit [DecidableEq U] in
/-- The children of a visited node wait, each of them once. -/
@[simp] theorem map_entity_handDown (visit : Visit U) (transform : Transform (geometry U))
    (node : TreeNode) :
    (handDown visit transform node).map (·.entity) = node.children := by
  rw [handDown, List.map_map]
  exact List.map_id _

end World

end EntityScene
