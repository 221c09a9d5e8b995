import EntityScene.Component.Catalog
import EntityScene.Scene.Transform
import EntityScene.Scene.TreeNode

/-!
# Kinds of components in a scene

A scene gives its entities two kinds of components of its own, the links of the
tree and the placement in space, beside the kinds of whoever uses it.

- `SceneFamily`: what the kinds of the user have to say, and the geometry of the scene.
- `Kind U`: the two kinds of the scene, and the kinds `U` of its user.
-/

namespace EntityScene

/-- The kinds of whoever uses a scene, and the geometry that the scene is placed by. -/
class SceneFamily (U : Type) extends ComponentFamily U where
  geometry : Geometry

export SceneFamily (geometry)

/-- The kinds of components in a scene whose user has the kinds `U`. -/
inductive Kind (U : Type)
  /-- Links of the scene tree. -/
  | node
  /-- Placement relative to the parent. -/
  | transform
  /-- A kind of the user. -/
  | user (kind : U)
deriving DecidableEq, Repr, Inhabited

instance {U : Type} [SceneFamily U] : ComponentFamily (Kind U) where
  Value
    | .node => TreeNode
    | .transform => Transform (geometry U)
    | .user kind => Value kind

end EntityScene
