/-!
# Geometry of a scene

Placements of nodes are made of vectors, rotations and matrices. A scene takes them
from a library and does nothing with them but put the operations of that library
together, so everything that is said about a scene holds over any such library.

- `Geometry`: the types of a library, and the operations that a scene uses.
-/

namespace EntityScene

/-- Vectors, rotations and matrices, as far as placements are made of them. -/
structure Geometry where
  /-- Positions, and scales along the axes. -/
  Vec : Type
  Rotation : Type
  Matrix : Type
  /-- The origin. -/
  zero : Vec
  /-- The scale that leaves everything as it is. -/
  one : Vec
  add : Vec → Vec → Vec
  /-- The rotation that leaves everything as it is. -/
  noRotation : Rotation
  /-- A rotation divided by its length. -/
  normalize : Rotation → Rotation
  /-- The rotation by the second argument and then by the first. -/
  compose : Rotation → Rotation → Rotation
  /-- The matrix that leaves everything as it is. -/
  identity : Matrix
  mul : Matrix → Matrix → Matrix
  /-- The matrix that scales, then rotates, then moves to a position. -/
  ofScaleRotationPosition : Vec → Rotation → Vec → Matrix
  /-- Where a matrix puts the origin. -/
  translation : Matrix → Vec

namespace Geometry

variable {g : Geometry}

instance : Add g.Vec := ⟨g.add⟩

instance : Mul g.Rotation := ⟨g.compose⟩

instance : Mul g.Matrix := ⟨g.mul⟩

end Geometry

end EntityScene
