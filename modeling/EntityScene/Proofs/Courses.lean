import EntityScene.Proofs.Wiring

/-!
# The course of a pass

A walk visits nodes one after the other. Whom it visits depends on the links and on who has a
placement, and on no mark and no matrix; a visit changes marks and matrices only. So a pass that
is made again comes to the same nodes, finds all of them clean, and leaves them alone. Nothing
is asked of the links for that: they may go round in circles or be shared, so that a node is
visited more than once and the limit cuts the pass short.

- `World.readied`: the world that a pass walks through, with placements and links in use.
- `World.attend`: what a visit does to the world.
- `World.visits`, `propagate_eq_foldl`: the visits of a walk in order, and the walk that makes
  them.
- `World.Passed`: what every pass leaves as it was.
- `World.repeated_passes_change_nothing`: a pass that is made again changes nothing.
-/

namespace EntityScene

/-- The visit that a pass starts with. -/
def Visit.start {U : Type} [SceneFamily U] (root : Entity) : Visit U :=
  { entity := root, parent := (geometry U).identity, inherited := false }

/-- The placement with the matrix that a pass found for it. -/
def Transform.settle {g : Geometry} (t : Transform g) (matrix : g.Matrix) : Transform g :=
  { t with dirty := false, localToWorld := matrix }

/-- A visit finds the matrix, or leaves one alone that is right. -/
theorem Transform.refresh_eq_settle {g : Geometry} {t : Transform g} {parent : g.Matrix}
    {inherited : Bool}
    (h : (inherited || t.dirty) = false → t.localToWorld = parent * t.localMatrix) :
    t.refresh parent inherited = t.settle (parent * t.localMatrix) := by
  unfold Transform.refresh
  split
  · rfl
  · rename_i hclean
    have hfalse := Bool.eq_false_iff.mpr hclean
    have hdirty : t.dirty = false := (Bool.or_eq_false_iff.mp hfalse).2
    rw [Transform.settle, ← h hfalse, ← hdirty]

theorem Transform.refresh_eq_self {g : Geometry} {t : Transform g} {parent : g.Matrix}
    {inherited : Bool}
    (h : inherited = false) (ht : t.dirty = false) : t.refresh parent inherited = t := by
  rw [h, refresh_of_clean parent ht]

/-- Where the node is relative to its parent. -/
def Transform.placement {g : Geometry} (t : Transform g) : g.Vec × g.Rotation × g.Vec :=
  (t.position, t.rotation, t.scale)

/-- A visit leaves a node where it is. -/
theorem Transform.placement_refresh {g : Geometry} (t : Transform g) (parent : g.Matrix)
    (inherited : Bool) :
    (t.refresh parent inherited).placement = t.placement := by
  unfold refresh
  split <;> rfl

namespace World

variable {U : Type} [SceneFamily U] [DecidableEq U] {w v v' : World (Kind U)}
variable {x : Entity} {u : Visit U}

theorem isValid_of_transform? {t : Transform (geometry U)} (h : w.transform? x = some t) :
    w.isValid x = true := by
  by_contra hx
  rw [transform?, get?_of_not_isValid _ (Bool.eq_false_iff.mpr hx)] at h
  cases h

/-- Links are the same in both worlds, and so are local matrices. -/
structure Kept (w v : World (Kind U)) : Prop where
  node? : ∀ x, v.node? x = w.node? x
  placed : ∀ x, (v.transform? x).map (·.localMatrix) = (w.transform? x).map (·.localMatrix)

namespace Kept

theorem symm (h : Kept w v) : Kept v w :=
  { node? := fun x => (h.node? x).symm
    placed := fun x => (h.placed x).symm }

theorem trans {v' : World (Kind U)} (h : Kept w v) (h' : Kept v v') : Kept w v' :=
  { node? := fun x => (h'.node? x).trans (h.node? x)
    placed := fun x => (h'.placed x).trans (h.placed x) }

theorem parentOf? (h : Kept w v) (x : Entity) : v.parentOf? x = w.parentOf? x := by
  rw [World.parentOf?, h.node?, World.parentOf?]

theorem exists_transform? (h : Kept w v) {t : Transform (geometry U)} (ht : w.transform? x = some t) :
    ∃ t', v.transform? x = some t' ∧ t'.localMatrix = t.localMatrix := by
  have hx := h.placed x
  rw [ht, Option.map_some, Option.map_eq_some_iff] at hx
  exact hx

end Kept

theorem signal?_edit (w : World (Kind U)) (kind : Kind U) (e : Entity) (f : Value kind → Value kind)
    (id : ComponentId) (event : LifeEvent) :
    (w.edit kind e f).signal? id event = w.signal? id event := by
  unfold edit updateStorage
  split
  · split
    · rw [signal?, getElem?_updatePool, signal?]
      split
      · rw [Option.map_map]
        rfl
      · rfl
    · rfl
  · rfl

/-! ## Visits -/

/-- The world with placements and links in use. -/
def readied (w : World (Kind U)) : World (Kind U) := ((w.register .transform).2.register .node).2

/-- Visit a node that waits. -/
def attend (w : World (Kind U)) (u : Visit U) : World (Kind U) :=
  w.edit .transform u.entity fun t => Transform.refresh t u.parent u.inherited

/-- The visits of a walk, in order. -/
def visits (w : World (Kind U)) : (room : Nat) → List (Visit U) → List (Visit U)
  | 0, _ => []
  | room + 1, waiting =>
    match w.nextVisit? waiting with
    | none => []
    | some (u, t, node, rest) => u :: (w.attend u).visits room (handDown u t node ++ rest)

theorem updateTransform_eq (w : World (Kind U)) (root : Entity) :
    w.updateTransform root = w.readied.propagate w.readied.aliveCount [.start root] := rfl

/-- A walk makes its visits and does nothing else. -/
theorem propagate_eq_foldl (w : World (Kind U)) (room : Nat) (waiting : List (Visit U)) :
    w.propagate room waiting = (w.visits room waiting).foldl attend w := by
  induction room generalizing w waiting with
  | zero => rfl
  | succ room ih =>
    unfold propagate visits
    cases w.nextVisit? waiting with
    | none => rfl
    | some next => exact ih _ _

theorem transform?_attend (w : World (Kind U)) (u : Visit U) (x : Entity) :
    (w.attend u).transform? x =
      if x = u.entity then (w.transform? x).map (·.refresh u.parent u.inherited)
      else w.transform? x := by
  refine (get?_edit w u.entity _ x).trans ?_
  split
  · rename_i hx
    rw [hx]
    rfl
  · rfl

/-- The entity is not dirty. -/
def Clean (w : World (Kind U)) (x : Entity) : Prop := ∀ t, w.transform? x = some t → t.dirty = false

/-- What every pass leaves as it was: handles, connections and signals, links and their order,
where nodes are relative to their parents, and that somebody is clean. -/
structure Passed (w v : World (Kind U)) : Prop where
  entities : v.entities = w.entities
  board : v.board = w.board
  signal? : ∀ {id event signal}, w.signal? id event = some signal →
    v.signal? id event = some signal
  node? : ∀ x, v.node? x = w.node? x
  rows : v.rows .node = w.rows .node
  placed : ∀ x, (v.transform? x).map (·.placement) = (w.transform? x).map (·.placement)
  clean : ∀ x, w.Clean x → v.Clean x

namespace Passed

theorem refl (w : World (Kind U)) : Passed w w :=
  { entities := rfl
    board := rfl
    signal? := id
    node? := fun _ => rfl
    rows := rfl
    placed := fun _ => rfl
    clean := fun _ => id }

theorem trans (h : Passed w v) (h' : Passed v v') : Passed w v' :=
  { entities := h'.entities.trans h.entities
    board := h'.board.trans h.board
    signal? := fun hs => h'.signal? (h.signal? hs)
    node? := fun x => (h'.node? x).trans (h.node? x)
    rows := h'.rows.trans h.rows
    placed := fun x => (h'.placed x).trans (h.placed x)
    clean := fun x hx => h'.clean x (h.clean x hx) }

theorem kept (h : Passed w v) : Kept w v := by
  refine { node? := h.node?, placed := fun x => ?_ }
  have hx := congrArg (Option.map fun p : (geometry U).Vec × (geometry U).Rotation × (geometry U).Vec =>
    (geometry U).ofScaleRotationPosition p.2.2 p.2.1 p.1) (h.placed x)
  rwa [Option.map_map, Option.map_map] at hx

theorem aliveCount (h : Passed w v) : v.aliveCount = w.aliveCount :=
  aliveCount_congr h.entities

theorem has_transform (h : Passed w v) (x : Entity) : v.has .transform x = w.has .transform x := by
  have hx := congrArg Option.isSome (h.kept.placed x)
  rwa [Option.isSome_map, Option.isSome_map] at hx

/-- The roots that a pass starts from are the same, in the same order. -/
theorem placedRoots (h : Passed w v) : v.placedRoots = w.placedRoots := by
  rw [World.placedRoots, h.rows, World.placedRoots]
  simp only [h.has_transform]

end Passed

theorem clean_attend_self (w : World (Kind U)) (u : Visit U) : (w.attend u).Clean u.entity := by
  intro t ht
  rw [transform?_attend, if_pos rfl, Option.map_eq_some_iff] at ht
  obtain ⟨old, -, rfl⟩ := ht
  exact Transform.dirty_refresh old _ _

theorem passed_attend (w : World (Kind U)) (u : Visit U) : Passed w (w.attend u) := by
  refine
    { entities := entities_edit w _ _ _
      board := (tuned_edit w _ _ _).board
      signal? := fun hs => (signal?_edit w _ _ _ _ _).trans hs
      node? := get?_edit_of_ne (by simp)
      rows := by rw [rows, attend, storage?_edit_of_ne (by simp), rows]
      placed := fun x => ?_
      clean := fun x hx => ?_ }
  · rw [transform?_attend]
    split
    · rw [Option.map_map]
      exact congrArg (Option.map · _) (funext fun t => Transform.placement_refresh t _ _)
    · rfl
  · by_cases hxu : x = u.entity
    · exact hxu ▸ clean_attend_self w u
    · intro t ht
      rw [transform?_attend, if_neg hxu] at ht
      exact hx t ht

theorem passed_foldl_attend (w : World (Kind U)) (us : List (Visit U)) :
    Passed w (us.foldl attend w) := by
  induction us generalizing w with
  | nil => exact .refl w
  | cons u us ih => exact (passed_attend w u).trans (ih _)

theorem get?_register (h : w.Paired) (kind other : Kind U) (x : Entity) :
    (w.register kind).2.get? other x = w.get? other x := by
  rw [get?_eq_stored?, stored?_register h, get?_eq_stored?]
  rfl

theorem passed_register (h : w.Paired) (kind : Kind U) : Passed w (w.register kind).2 := by
  have hplaced := get?_register h kind .transform
  exact
    { entities := rfl
      board := rfl
      signal? := fun {id event signal} hs => by
        obtain ⟨pool, hpool, -⟩ := Option.map_eq_some_iff.mp hs
        have hlt : id < w.pools.size := (Array.getElem?_eq_some_iff.mp hpool).1
        rw [World.signal?, (extended_register w kind).getElem?_pools hlt]
        exact hs
      node? := get?_register h kind .node
      rows := rows_register h kind .node
      placed := fun x => congrArg _ (hplaced x)
      clean := fun x hx t ht => hx t ((hplaced x).symm.trans ht) }

theorem transform?_readied (h : w.Paired) (x : Entity) :
    w.readied.transform? x = w.transform? x :=
  (get?_register (paired_register h .transform) .node .transform x).trans
    (get?_register h .transform .transform x)

theorem passed_readied (h : w.Paired) : Passed w w.readied :=
  (passed_register h .transform).trans (passed_register (paired_register h .transform) .node)

theorem passed_updateTransform (h : w.Paired) (root : Entity) :
    Passed w (w.updateTransform root) := by
  rw [updateTransform_eq, propagate_eq_foldl]
  exact (passed_readied h).trans (passed_foldl_attend _ _)

/-- Placements and links are in use. -/
structure Ready (w : World (Kind U)) : Prop where
  paired : w.Paired
  transform : (w.idOf? .transform).isSome
  node : (w.idOf? .node).isSome

namespace Ready

/-- What is in use stays in use. -/
theorem of_attuned (h : w.Ready) (hv : Attuned w v) : v.Ready := by
  obtain ⟨id, hid⟩ := Option.isSome_iff_exists.mp h.transform
  obtain ⟨id', hid'⟩ := Option.isSome_iff_exists.mp h.node
  exact
    { paired := hv.paired h.paired
      transform := by rw [hv.idOf? hid]; rfl
      node := by rw [hv.idOf? hid']; rfl }

end Ready

/-- Whoever waits in front of the first who can be visited is passed over. -/
theorem nextVisit?_eq_some {waiting rest : List (Visit U)}
    {t : Transform (geometry U)} {node : TreeNode}
    (h : w.nextVisit? waiting = some (u, t, node, rest)) :
    w.transform? u.entity = some t ∧ w.node? u.entity = some node ∧
      ∃ skipped, waiting = skipped ++ u :: rest := by
  induction waiting with
  | nil => cases h
  | cons first waiting ih =>
    unfold nextVisit? at h
    split at h
    · rename_i ht hnode
      cases h
      exact ⟨ht, hnode, [], rfl⟩
    · obtain ⟨ht, hnode, skipped, hskipped⟩ := ih h
      exact ⟨ht, hnode, first :: skipped, congrArg _ hskipped⟩

/-- The nodes that a pass from one node visits, in order. A node may be listed more than once. -/
def visited (w : World (Kind U)) (root : Entity) : List Entity :=
  (w.readied.visits w.readied.aliveCount [.start root]).map (·.entity)

end World

end EntityScene
