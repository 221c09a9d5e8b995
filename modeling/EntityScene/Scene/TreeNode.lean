import EntityScene.Text
import EntityScene.Entity

/-!
# Links of a node

A node of the scene tree knows its parent and its children by handle. The handles
are looked up, not owned: whether an entity behind one still exists is for the
world to say.

- `TreeNode`: parent and children; a node without parent is a root.
- `insertChild`, `removeChild`, `dropChild`, `setParent`: edits of one side of a
  link. `removeChild` takes the first occurrence out and `dropChild` all of them.
-/

namespace EntityScene

/-- The links of one node. -/
structure TreeNode where
  /-- The parent; null for a root. -/
  parent : Entity := .null
  /-- The children, in order. -/
  children : List Entity := []
deriving DecidableEq, Repr, Inhabited

namespace TreeNode

/-- A node without links. -/
def isolated : TreeNode := {}

/-- Whether the node has no parent. -/
def isRoot (n : TreeNode) : Bool := n.parent.isNull

/-- Whether the node has children. -/
def hasChildren (n : TreeNode) : Bool := !n.children.isEmpty

/-- Insert a child at a position; positions past the end mean the end. -/
def insertChild (n : TreeNode) (position : Nat) (child : Entity) : TreeNode :=
  { n with children := n.children.insertIdx (min position n.children.length) child }

/-- Take the first occurrence of a child out. -/
def removeChild (n : TreeNode) (child : Entity) : TreeNode :=
  { n with children := n.children.erase child }

/-- Take every occurrence of a child out. -/
def dropChild (n : TreeNode) (child : Entity) : TreeNode :=
  { n with children := n.children.filter (· != child) }

/-- Set the parent; null makes the node a root. -/
def setParent (n : TreeNode) (parent : Entity) : TreeNode := { n with parent }

/-- The links as a record. -/
def describe (n : TreeNode) : String :=
  Text.record "Hierarchy"
    [("parent", n.parent.describe),
     ("children", Text.sequence (n.children.map Entity.describe))]

@[simp] theorem parent_insertChild (n : TreeNode) (position : Nat) (child : Entity) :
    (n.insertChild position child).parent = n.parent := rfl

@[simp] theorem children_setParent (n : TreeNode) (parent : Entity) :
    (n.setParent parent).children = n.children := rfl

/-- An inserted child is a child, the others stay. -/
theorem mem_children_insertChild (n : TreeNode) (position : Nat) (child x : Entity) :
    x ∈ (n.insertChild position child).children ↔ x = child ∨ x ∈ n.children :=
  List.mem_insertIdx (Nat.min_le_right ..)

/-- A dropped child is no child any more, the others stay. -/
theorem mem_children_dropChild (n : TreeNode) (child x : Entity) :
    x ∈ (n.dropChild child).children ↔ x ∈ n.children ∧ x ≠ child := by
  simp [dropChild]

end TreeNode

end EntityScene
