import EntityScene.Entity
import EntityScene.World
import EntityScene.Scene.Kind
import EntityScene.Scene.Tree

/-!
# Which links may be made and cut

Before an edit of the tree touches anything, the links it needs are checked against
the world. An edit that is refused says why.

- `EditError`: the reasons, with their texts in `EditError.message`.
- `World.nodeOf`: the links of an entity that may be edited.
- `World.checkLink`, `World.checkUnlink`, `World.checkMove`: whether a child may be
  put under a parent, taken from it, or moved under another. Where several reasons
  apply the first check in the order written decides.
-/

namespace EntityScene

/-- Why an edit of the tree was refused. -/
inductive EditError
  /-- The handle is not valid, or its entity is being destroyed. -/
  | invalidEntity (e : Entity)
  /-- The entity has no links. -/
  | missingNode (e : Entity)
  /-- The child has a parent already. -/
  | alreadyParented (child parent : Entity)
  /-- An entity was to become its own parent. -/
  | selfParent (e : Entity)
  /-- An entity was to become its own ancestor. -/
  | cycle (child parent : Entity)
  /-- The child is not one of the parent's. -/
  | notAChild (parent child : Entity)
deriving DecidableEq, Repr

/-- The text of a refusal. -/
def EditError.message : EditError → String
  | .invalidEntity e => "entity " ++ e.display ++ " is not valid"
  | .missingNode e => "entity " ++ e.display ++ " has no Hierarchy component"
  | .alreadyParented child parent =>
    "entity " ++ child.display ++ " already has parent " ++ parent.display
  | .selfParent e => "entity " ++ e.display ++ " cannot be its own parent"
  | .cycle child parent => "entity " ++ child.display ++ " is an ancestor of " ++ parent.display
  | .notAChild parent child =>
    "entity " ++ child.display ++ " is not a child of " ++ parent.display

namespace EditError

/-- A check that needs the answer of another passes if both do. -/
theorem bind_eq_ok_iff {α β : Type} {x : Except EditError α} {f : α → Except EditError β} {b : β} :
    (x >>= f) = .ok b ↔ ∃ a, x = .ok a ∧ f a = .ok b := by
  cases x with
  | error refusal => exact ⟨fun h => (by cases h), fun ⟨_, h, _⟩ => (by cases h)⟩
  | ok a => exact ⟨fun h => ⟨a, rfl, h⟩, fun ⟨_, ha, h⟩ => Except.ok.inj ha ▸ h⟩

theorem refuse_eq_ok_iff {c : Prop} [Decidable c] {refusal : EditError} :
    (if c then throw refusal else pure ()) = (.ok () : Except EditError Unit) ↔ ¬ c := by
  by_cases h : c
  · simp [h, throw, throwThe, MonadExceptOf.throw]
  · simp [h, pure, Except.pure]

theorem refuse_bind_eq_ok_iff {c : Prop} [Decidable c] {refusal : EditError}
    {rest : Unit → Except EditError Unit} :
    (if c then throw refusal >>= rest else rest ()) = .ok () ↔ ¬ c ∧ rest () = .ok () := by
  by_cases h : c
  · simp [h, throw, throwThe, MonadExceptOf.throw, bind, Except.bind]
  · simp [h]

end EditError

namespace World

variable {U : Type} [SceneFamily U] [DecidableEq U]

/-- The links of an entity that may be edited. -/
def nodeOf (w : World (Kind U)) (e : Entity) : Except EditError TreeNode :=
  if w.accepts e then
    match w.node? e with
    | some node => .ok node
    | none => .error (.missingNode e)
  else .error (.invalidEntity e)

/-- Whether a child may be put under a parent: both have links, the child is a root,
and not the root above the parent. -/
def checkLink (w : World (Kind U)) (parent child : Entity) : Except EditError Unit := do
  if parent = child then throw (.selfParent child)
  let _ ← w.nodeOf parent
  let node ← w.nodeOf child
  if !node.isRoot then throw (.alreadyParented child node.parent)
  if w.isAncestor child parent then throw (.cycle child parent)

/-- Whether a child may be taken from a parent: they are linked on both sides. The
child's side is looked at only if the parent's lists the child. -/
def checkUnlink (w : World (Kind U)) (parent child : Entity) : Except EditError Unit := do
  let node ← w.nodeOf parent
  if child ∉ node.children then throw (.notAChild parent child)
  let below ← w.nodeOf child
  if below.parent ≠ parent then throw (.notAChild parent child)

/-- Whether a child may be moved under a parent that it does not have yet. -/
def checkMove (w : World (Kind U)) (child parent : Entity) : Except EditError Unit := do
  if child = parent then throw (.selfParent child)
  let _ ← w.nodeOf parent
  let _ ← w.nodeOf child
  if w.isAncestor child parent then throw (.cycle child parent)

/-- Links can be edited exactly on a valid entity that has some and is not being
destroyed. -/
theorem nodeOf_eq_ok_iff (w : World (Kind U)) (e : Entity) (node : TreeNode) :
    w.nodeOf e = .ok node ↔ w.accepts e = true ∧ w.node? e = some node := by
  unfold nodeOf
  split
  · rename_i h
    cases w.node? e <;> simp [h]
  · rename_i h
    simp [h]

theorem checkLink_eq_ok_iff (w : World (Kind U)) (parent child : Entity) :
    w.checkLink parent child = .ok () ↔
      parent ≠ child ∧ (∃ above, w.nodeOf parent = .ok above) ∧
        (∃ below, w.nodeOf child = .ok below ∧ below.isRoot = true) ∧
        w.isAncestor child parent = false := by
  unfold checkLink
  simp only [EditError.bind_eq_ok_iff, EditError.refuse_bind_eq_ok_iff, EditError.refuse_eq_ok_iff]
  simp only [Bool.not_eq_true', Bool.not_eq_false, Bool.not_eq_true, exists_and_right, ← and_assoc,
    ne_eq]

theorem checkUnlink_eq_ok_iff (w : World (Kind U)) (parent child : Entity) :
    w.checkUnlink parent child = .ok () ↔
      (∃ above, w.nodeOf parent = .ok above ∧ child ∈ above.children) ∧
        ∃ below, w.nodeOf child = .ok below ∧ below.parent = parent := by
  unfold checkUnlink
  simp only [EditError.bind_eq_ok_iff, EditError.refuse_bind_eq_ok_iff, EditError.refuse_eq_ok_iff]
  simp only [Decidable.not_not, ← and_assoc, exists_and_right, ne_eq]

theorem checkMove_eq_ok_iff (w : World (Kind U)) (child parent : Entity) :
    w.checkMove child parent = .ok () ↔
      child ≠ parent ∧ (∃ above, w.nodeOf parent = .ok above) ∧
        (∃ below, w.nodeOf child = .ok below) ∧ w.isAncestor child parent = false := by
  unfold checkMove
  simp only [EditError.bind_eq_ok_iff, EditError.refuse_bind_eq_ok_iff, EditError.refuse_eq_ok_iff]
  simp only [Bool.not_eq_true, exists_and_right, ne_eq]

end World

end EntityScene
