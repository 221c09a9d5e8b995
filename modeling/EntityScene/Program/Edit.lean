import EntityScene.Entity
import EntityScene.World
import EntityScene.Scene.Kind
import EntityScene.Scene.Tree
import EntityScene.Scene.Link
import EntityScene.Program.Script

/-!
# Edits made of calls

Some things are done to a scene so often that they are tasks of the library. They
are made of calls, and every call that publishes a signal lets handlers run before
the next one: an edit of the tree checks first, then patches one side of a link,
then the other.

- `replace`, `remove`, `emplaceOrReplace`, `clear`: on components and entities.
- `insertChild`, `appendChild`, `removeChild`, `detach`, `reparent`: on links. They
  answer a refusal of the checks, and then nothing was changed.
- `spawnNode`, `spawnChild`: new nodes.
-/

namespace EntityScene.Task

variable {U σ : Type} [SceneFamily U] [DecidableEq U]

/-! ## Components and entities -/

/-- Replace a component and publish the update. Answers whether there was one. -/
def replace (kind : Kind U) (e : Entity) (v : Value kind) : Task U σ Bool :=
  patch kind e fun _ => v

/-- Remove a component, publishing the removal first. Answers whether this call
removed one. -/
def remove (kind : Kind U) (e : Entity) : Task U σ Bool := do
  return (← take kind e).isSome

/-- Put a component on an entity, in place of the one it may have. -/
def emplaceOrReplace (kind : Kind U) (e : Entity) (v : Value kind) :
    Task U σ (Option (Value kind)) := do
  if (← world).has kind e then
    let _ ← replace kind e v
    return (← world).get? kind e
  else
    return (← emplace kind e (.ok v)).1

/-- Destroy the listed entities one after the other, and count those that this task
destroyed itself. -/
def destroyAll : List Entity → Task U σ Nat
  | [] => return 0
  | e :: es => do
    let destroyed ← destroy e
    let others ← destroyAll es
    return if destroyed then others + 1 else others

/-- Destroy all entities that are alive now. -/
def clear : Task U σ Nat := do
  destroyAll (← world).handles

/-! ## Links -/

/-- Patch the links of an entity. -/
def patchNode (e : Entity) (f : TreeNode → TreeNode) : Task U σ Unit := do
  let _ ← patch .node e f

/-- Link a child under a parent: check, let the parent's side enter the child, then
the child's side the parent. -/
def link (parent child : Entity) (enter : TreeNode → TreeNode) :
    Task U σ (Except EditError Unit) := do
  match (← world).checkLink parent child with
  | .error refusal => return .error refusal
  | .ok () =>
    patchNode parent enter
    patchNode child (·.setParent parent)
    return .ok ()

/-- Put a child at a position among the children of a parent. The child has to be a
root; positions past the end mean the end. -/
def insertChild (parent child : Entity) (position : Nat) : Task U σ (Except EditError Unit) :=
  link parent child (·.insertChild position child)

/-- Put a child behind the children of a parent. -/
def appendChild (parent child : Entity) : Task U σ (Except EditError Unit) :=
  link parent child fun node => node.insertChild node.children.length child

/-- Take a child from a parent, which makes it a root. -/
def removeChild (parent child : Entity) : Task U σ (Except EditError Unit) := do
  match (← world).checkUnlink parent child with
  | .error refusal => return .error refusal
  | .ok () =>
    patchNode parent (·.removeChild child)
    patchNode child (·.setParent .null)
    return .ok ()

/-- Make a node a root, and answer the parent it had. A stale parent is forgotten, as
if there had been none. A parent that is being destroyed loses the child although
it cannot be edited otherwise. -/
def detach (child : Entity) : Task U σ (Except EditError (Option Entity)) := do
  let w ← world
  match w.nodeOf child with
  | .error refusal => return .error refusal
  | .ok node =>
    if node.isRoot then return .ok none
    else if !w.isValid node.parent then
      patchNode child (·.setParent .null)
      return .ok none
    else if w.isDestroying node.parent then
      patchNode node.parent (·.dropChild child)
      patchNode child (·.setParent .null)
      return .ok (some node.parent)
    else
      match ← removeChild node.parent child with
      | .error refusal => return .error refusal
      | .ok () => return .ok (some node.parent)

/-- Move a node behind the children of a new parent. Nothing happens if it is a child
of that parent already. -/
def reparent (child parent : Entity) : Task U σ (Except EditError Unit) := do
  let w ← world
  if w.parentOf? child = some parent then return .ok ()
  else
    match w.checkMove child parent with
    | .error refusal => return .error refusal
    | .ok () =>
      match ← detach child with
      | .error refusal => return .error refusal
      | .ok _ => appendChild parent child

/-! ## New nodes -/

/-- Create a root with the identity placement. -/
def spawnNode : Task U σ Entity := do
  let e ← create
  let _ ← emplace .node e (.ok TreeNode.isolated)
  let _ ← emplace .transform e (.ok Transform.identity)
  return e

/-- Create a node behind the children of a parent. A node that cannot be linked is
destroyed again. -/
def spawnChild (parent : Entity) : Task U σ (Except EditError Entity) := do
  match (← world).nodeOf parent with
  | .error refusal => return .error refusal
  | .ok _ =>
    let child ← spawnNode
    match ← appendChild parent child with
    | .ok () => return .ok child
    | .error refusal =>
      let _ ← destroy child
      return .error refusal

end EntityScene.Task
