import EntityScene.Scene.Geometry

/-!
# Placement of a node

A transform places a node relative to its parent by a position, a rotation and
a scale, and remembers the matrix that the last propagation pass found for the way
from the node to the world. It is *dirty* while that matrix has not been found
again since one of its own fields was set.

- `Transform`: the placement, its dirty mark and the remembered matrix.
- `ofParts`, `ofPosition`, `identity`: new transforms, which are dirty.
- `setPosition`, `setRotation`, `setScale`, `shift`, `rotate`, `markDirty`:
  every setter marks the transform dirty, and rotations are normalized.
- `localMatrix`: from the node to its parent.
-/

namespace EntityScene

/-- Where a node is relative to its parent. -/
structure Transform (g : Geometry) where
  position : g.Vec
  /-- The rotation, divided by its length when it was set. -/
  rotation : g.Rotation
  scale : g.Vec
  /-- Whether a field was set since the matrix was last found. -/
  dirty : Bool
  /-- From the node to the world, as the last pass found it. -/
  localToWorld : g.Matrix

namespace Transform

variable {g : Geometry}

/-- Transforms are compared field by field. -/
instance [BEq g.Vec] [BEq g.Rotation] [BEq g.Matrix] : BEq (Transform g) where
  beq t u := t.position == u.position && t.rotation == u.rotation && t.scale == u.scale &&
    t.dirty == u.dirty && t.localToWorld == u.localToWorld

/-- A dirty transform with the given placement. -/
def ofParts (position : g.Vec) (rotation : g.Rotation) (scale : g.Vec) : Transform g :=
  { position, rotation := g.normalize rotation, scale, dirty := true, localToWorld := g.identity }

/-- The transform that places a node where its parent is. -/
def identity : Transform g := ofParts g.zero g.noRotation g.one

/-- A transform that only moves. -/
def ofPosition (position : g.Vec) : Transform g := ofParts position g.noRotation g.one

/-- Set the position. -/
def setPosition (t : Transform g) (position : g.Vec) : Transform g :=
  { t with position, dirty := true }

/-- Set the rotation, divided by its length. -/
def setRotation (t : Transform g) (rotation : g.Rotation) : Transform g :=
  { t with rotation := g.normalize rotation, dirty := true }

/-- Set the scale. -/
def setScale (t : Transform g) (scale : g.Vec) : Transform g := { t with scale, dirty := true }

/-- Move the node within its parent. -/
def shift (t : Transform g) (delta : g.Vec) : Transform g := t.setPosition (t.position + delta)

/-- Apply a rotation on top of the one the node has. -/
def rotate (t : Transform g) (rotation : g.Rotation) : Transform g :=
  t.setRotation (rotation * t.rotation)

/-- Have the next pass find the matrix again. -/
def markDirty (t : Transform g) : Transform g := { t with dirty := true }

/-- From the node to its parent: scale, then rotate, then move. -/
def localMatrix (t : Transform g) : g.Matrix :=
  g.ofScaleRotationPosition t.scale t.rotation t.position

/-- Where the remembered matrix puts the origin of the node. -/
def worldPosition (t : Transform g) : g.Vec := g.translation t.localToWorld

/-- What a pass does to a node below the given matrix: a node that is dirty, or
below a node that was, gets a new matrix and is dirty no more. -/
def refresh (t : Transform g) (parent : g.Matrix) (inherited : Bool) : Transform g :=
  if inherited || t.dirty then { t with localToWorld := parent * t.localMatrix, dirty := false }
  else t

/-- After a pass no visited node is dirty. -/
@[simp] theorem dirty_refresh (t : Transform g) (parent : g.Matrix) (inherited : Bool) :
    (t.refresh parent inherited).dirty = false := by
  unfold refresh
  split
  · rfl
  · rename_i h
    cases hd : t.dirty
    · rfl
    · exact absurd (by simp [hd]) h

/-- A pass leaves the placement of a node alone. -/
@[simp] theorem localMatrix_refresh (t : Transform g) (parent : g.Matrix) (inherited : Bool) :
    (t.refresh parent inherited).localMatrix = t.localMatrix := by
  unfold refresh
  split <;> rfl

/-- A node that is clean below clean nodes is left alone. -/
theorem refresh_of_clean {t : Transform g} (parent : g.Matrix) (h : t.dirty = false) :
    t.refresh parent false = t := by
  simp [refresh, h]

end Transform

end EntityScene
