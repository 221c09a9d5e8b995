import EntityScene.Scene.Geometry

/-!
# Vectors, rotations and matrices

Single-precision vectors, quaternions and 4×4 matrices, as far as the placement of
nodes needs them. Every operation is one rounded operation of the arithmetic and
the order of operations is fixed, because rounding makes it visible.

- `Vec3`, `Vec4`: component-wise sums and products by a scalar.
- `Quat`: rotations; `Quat.normalize` divides by the length, which makes a zero
  quaternion all NaN, and `Quat.mul` applies the right factor first.
- `Mat4`: matrices by columns; `Mat4.mul` and `Mat4.ofScaleRotationPosition`.
- `Geometry.single`: the geometry of a scene that is placed by them.

Equality `==` is that of the arithmetic: the zeros are equal and NaN is not equal
to itself.
-/

namespace EntityScene

/-- Three numbers: a position or a scale. -/
structure Vec3 where
  x : Float32
  y : Float32
  z : Float32
deriving BEq, Inhabited

namespace Vec3

/-- The origin. -/
def zero : Vec3 := ⟨0, 0, 0⟩

/-- The scale that leaves everything as it is. -/
def one : Vec3 := ⟨1, 1, 1⟩

instance : Add Vec3 := ⟨fun a b => ⟨a.x + b.x, a.y + b.y, a.z + b.z⟩⟩

/-- The components in order. -/
def toList (v : Vec3) : List Float32 := [v.x, v.y, v.z]

end Vec3

/-- Four numbers: a column of a matrix. -/
structure Vec4 where
  x : Float32
  y : Float32
  z : Float32
  w : Float32
deriving BEq, Inhabited

namespace Vec4

instance : Add Vec4 := ⟨fun a b => ⟨a.x + b.x, a.y + b.y, a.z + b.z, a.w + b.w⟩⟩

/-- Every component times a number. -/
def scale (v : Vec4) (s : Float32) : Vec4 := ⟨v.x * s, v.y * s, v.z * s, v.w * s⟩

/-- The column without its last component. -/
def toVec3 (v : Vec4) : Vec3 := ⟨v.x, v.y, v.z⟩

/-- The components in order. -/
def toList (v : Vec4) : List Float32 := [v.x, v.y, v.z, v.w]

end Vec4

/-- A quaternion; a rotation if it has unit length. -/
structure Quat where
  x : Float32
  y : Float32
  z : Float32
  w : Float32
deriving BEq, Inhabited

namespace Quat

/-- The rotation that leaves everything as it is. -/
def identity : Quat := ⟨0, 0, 0, 1⟩

/-- The components in order. -/
def toList (q : Quat) : List Float32 := [q.x, q.y, q.z, q.w]

/-- The square of the length. The squares are summed crosswise, `x` with `z` and
`y` with `w`. -/
def lengthSquared (q : Quat) : Float32 := (q.x * q.x + q.z * q.z) + (q.y * q.y + q.w * q.w)

/-- The quaternion divided by its length. -/
def normalize (q : Quat) : Quat :=
  let length := q.lengthSquared.sqrt
  ⟨q.x / length, q.y / length, q.z / length, q.w / length⟩

/-- The product, which rotates by `r` and then by `l`. -/
def mul (l r : Quat) : Quat where
  x := (l.w * r.x + l.x * r.w) + (l.y * r.z - l.z * r.y)
  y := (l.w * r.y - l.x * r.z) + (l.y * r.w + l.z * r.x)
  z := (l.w * r.z + l.x * r.y) + (l.z * r.w - l.y * r.x)
  w := (l.w * r.w - l.x * r.x) + (-(l.y * r.y) - l.z * r.z)

instance : Mul Quat := ⟨mul⟩

end Quat

/-- A 4×4 matrix by its columns. -/
structure Mat4 where
  xAxis : Vec4
  yAxis : Vec4
  zAxis : Vec4
  wAxis : Vec4
deriving BEq, Inhabited

namespace Mat4

/-- The matrix that leaves everything as it is. -/
def identity : Mat4 := ⟨⟨1, 0, 0, 0⟩, ⟨0, 1, 0, 0⟩, ⟨0, 0, 1, 0⟩, ⟨0, 0, 0, 1⟩⟩

/-- The components, column by column. -/
def toList (m : Mat4) : List Float32 :=
  m.xAxis.toList ++ m.yAxis.toList ++ m.zAxis.toList ++ m.wAxis.toList

/-- The image of a column: the columns of the matrix, weighted by its components
and summed from left to right. -/
def apply (m : Mat4) (v : Vec4) : Vec4 :=
  m.xAxis.scale v.x + m.yAxis.scale v.y + m.zAxis.scale v.z + m.wAxis.scale v.w

/-- The product, column by column. -/
def mul (a b : Mat4) : Mat4 :=
  ⟨a.apply b.xAxis, a.apply b.yAxis, a.apply b.zAxis, a.apply b.wAxis⟩

instance : Mul Mat4 := ⟨mul⟩

/-- The matrix that scales, then rotates, then moves to a position. The scale multiplies all
four components of a column. -/
def ofScaleRotationPosition (scale : Vec3) (q : Quat) (position : Vec3) : Mat4 :=
  let x2 := q.x + q.x
  let y2 := q.y + q.y
  let z2 := q.z + q.z
  let xx := q.x * x2
  let xy := q.x * y2
  let xz := q.x * z2
  let yy := q.y * y2
  let yz := q.y * z2
  let zz := q.z * z2
  let wx := q.w * x2
  let wy := q.w * y2
  let wz := q.w * z2
  { xAxis := (Vec4.mk (1 - (yy + zz)) (xy + wz) (xz - wy) 0).scale scale.x
    yAxis := (Vec4.mk (xy - wz) (1 - (xx + zz)) (yz + wx) 0).scale scale.y
    zAxis := (Vec4.mk (xz + wy) (yz - wx) (1 - (xx + yy)) 0).scale scale.z
    wAxis := ⟨position.x, position.y, position.z, 1⟩ }

end Mat4

/-- The geometry in single precision. -/
@[reducible] def Geometry.single : Geometry where
  Vec := Vec3
  Rotation := Quat
  Matrix := Mat4
  zero := .zero
  one := .one
  add := (· + ·)
  noRotation := .identity
  normalize := Quat.normalize
  compose := (· * ·)
  identity := .identity
  mul := (· * ·)
  ofScaleRotationPosition := Mat4.ofScaleRotationPosition
  translation m := m.wAxis.toVec3

end EntityScene
