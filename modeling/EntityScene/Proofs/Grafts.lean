import Mathlib.Logic.Function.Basic
import EntityScene.Proofs.Outcomes
import EntityScene.Proofs.Progeny

/-!
# Edits are exact

In a forest where nothing is being destroyed an edit of the tree is done exactly if the links that
it asks for leave a forest, and it changes the links that it has to change and no others. What an
edit makes of a forest is written down as functions on entities: who has which parent, and who has
which children, in which order. A move is two edits in a row, and what it makes of the forest is
what the second makes of the result of the first.

- `Rewiring`: parents, children, and who is told of a change.
- `World.grafting`, `World.parting`, `World.moving`: what the edits make of a forest.
- `World.Rewired`: the links are as a rewiring says, and all else is as it was.
- `checkLink_iff`, `checkUnlink_iff`, `checkMove_iff`: the checks, in a forest at rest.
- `Machine.Orderly`, `orderly_of_tended`: a forest at rest, which readers watch. Sessions have one.
- `Machine.Rewires`, `performs_graft`, `performs_part`, `performs_move`: the edits that are done.
- `Machine.Settles`, `Machine.edits_are_exact`: when an edit is done, and what it does.
-/

namespace EntityScene

/-- Who has which parent and which children, and the nodes that are told of a change on the way
there. -/
structure Rewiring where
  /-- The parents. -/
  parent : Entity → Option Entity
  /-- The children, in order. -/
  children : Entity → List Entity
  /-- The nodes whose links are changed, one after the other. -/
  told : List Entity

namespace World

variable {U : Type} [SceneFamily U] [DecidableEq U] {w w' w'' : World (Kind U)}
variable {c p q x : Entity}

/-! ## What edits make of a forest -/

/-- A valid entity with links. -/
def IsNode (w : World (Kind U)) (x : Entity) : Prop :=
  w.isValid x = true ∧ (w.node? x).isSome

/-- Nothing is changed. -/
def staying (w : World (Kind U)) : Rewiring :=
  { parent := w.parentOf?
    children := w.childrenOf
    told := [] }

/-- A node enters the list of its new parent at a position, which is the end if it is past it. -/
def grafting (w : World (Kind U)) (p c : Entity) (position : Nat) : Rewiring :=
  { parent := Function.update w.parentOf? c (some p)
    children := Function.update w.childrenOf p
      ((w.childrenOf p).insertIdx (min position (w.childrenOf p).length) c)
    told := [p, c] }

/-- A node becomes a root, and leaves the list it is in. -/
def parting (w : World (Kind U)) (c : Entity) : Rewiring :=
  { parent := Function.update w.parentOf? c none
    children := fun x => (w.childrenOf x).erase c
    told := (w.parentOf? c).elim [] fun p => [p, c] }

/-- A node leaves the list it is in, and is the last in the list of its new parent. -/
def moving (w : World (Kind U)) (c q : Entity) : Rewiring :=
  { parent := Function.update w.parentOf? c (some q)
    children := Function.update (fun x => (w.childrenOf x).erase c) q (w.childrenOf q ++ [c])
    told := (w.parting c).told ++ [q, c] }

@[simp] theorem parent_grafting (w : World (Kind U)) (p c : Entity) (position : Nat) (x : Entity) :
    (w.grafting p c position).parent x = if x = c then some p else w.parentOf? x :=
  Function.update_apply ..

@[simp] theorem children_grafting (w : World (Kind U)) (p c : Entity) (position : Nat) (x : Entity) :
    (w.grafting p c position).children x =
      if x = p then (w.childrenOf p).insertIdx (min position (w.childrenOf p).length) c
      else w.childrenOf x :=
  Function.update_apply ..

@[simp] theorem parent_parting (w : World (Kind U)) (c x : Entity) :
    (w.parting c).parent x = if x = c then none else w.parentOf? x :=
  Function.update_apply ..

theorem told_parting (hp : w.parentOf? c = some p) : (w.parting c).told = [p, c] := by
  rw [parting, hp]
  rfl

theorem told_parting_of_root (hroot : w.parentOf? c = none) : (w.parting c).told = [] := by
  rw [parting, hroot]
  rfl

/-- The links are as the rewiring says, and are those of a forest. Who has links has them still,
and entities and all other components are the same. -/
structure Rewired (w : World (Kind U)) (r : Rewiring) (w' : World (Kind U)) : Prop where
  parentOf? : w'.parentOf? = r.parent
  childrenOf : w'.childrenOf = r.children
  hasLinks : ∀ x, (w'.node? x).isSome = (w.node? x).isSome
  undisturbed : Undisturbed (· ≠ .node) w w'
  forest : w'.Forest

/-- Who is no child of an entity is not in its list. -/
theorem Forest.erase_childrenOf (h : w.Forest) (hp : w.parentOf? c ≠ some x) :
    (w.childrenOf x).erase c = w.childrenOf x :=
  List.erase_of_not_mem fun hc => hp ((h.linked x c).mp hc)

theorem rewired_staying (h : w.Forest) (hwf : w.Wf) : w.Rewired w.staying w :=
  { parentOf? := rfl
    childrenOf := rfl
    hasLinks := fun _ => rfl
    undisturbed := .refl hwf
    forest := h }

/-- Both sides of a new link were changed. The place of the child may be found in the parent's
list. -/
theorem rewired_grafting (h : w.Forest) (hwf : w.Wf) (hcheck : w.checkLink p c = .ok ())
    {place : TreeNode → Nat} {position : Nat}
    (hplace : ∀ node, node.children = w.childrenOf p → place node = position)
    (hw : Relinked w p c (fun node => node.insertChild (place node) c) p w') :
    w.Rewired (w.grafting p c position) w' := by
  obtain ⟨hne, ⟨above, habove⟩, ⟨below, hbelow, -⟩, -⟩ := checkLink_ok hcheck
  have hvalid : w.isValid p = true := isValid_of_node? (by rw [habove]; rfl)
  have hlist : w.childrenOf p = above.children := by rw [World.childrenOf, habove]; rfl
  refine
    { parentOf? := funext fun x => ?_
      childrenOf := funext fun x => ?_
      hasLinks := hw.isSome_node?
      undisturbed := hw.undisturbed
      forest := forest_of_checkLink h hwf hcheck (TreeNode.enters_insertChild c place) hw }
  · rw [hw.parentOf? (fun _ => rfl) (by rw [hbelow]; rfl), hwf.table.isNull_eq_false hvalid,
      parent_grafting]
    rfl
  · rw [hw.childrenOf hne, children_grafting, habove, hlist, ← hplace above hlist.symm]
    rfl

/-- Both sides of a link were cut. -/
theorem rewired_parting (h : w.Forest) (hwf : w.Wf) (hcheck : w.checkUnlink p c = .ok ())
    (hw : Relinked w p c (TreeNode.removeChild · c) .null w') : w.Rewired (w.parting c) w' := by
  have hparent := checkUnlink_ok hwf.table hcheck
  refine
    { parentOf? := funext fun x => ?_
      childrenOf := funext fun x => ?_
      hasLinks := hw.isSome_node?
      undisturbed := hw.undisturbed
      forest := forest_of_checkUnlink h hwf hcheck hw }
  · rw [hw.parentOf? (fun _ => rfl) (isSome_node?_of_parentOf? hparent), parent_parting]
    rfl
  · rw [hw.childrenOf (h.ne_of_parentOf? hparent)]
    show _ = (w.childrenOf x).erase c
    split
    · rename_i hx
      rw [hx, childrenOf]
      cases w.node? p <;> rfl
    · -- no other list has the child
      rename_i hx
      refine (h.erase_childrenOf fun hp => hx ?_).symm
      exact Option.some.inj (hp.symm.trans hparent)

/-- A root is nobody's child, so nothing has to be cut. -/
theorem rewired_parting_of_root (h : w.Forest) (hwf : w.Wf) (hroot : w.parentOf? c = none) :
    w.Rewired (w.parting c) w := by
  refine { rewired_staying h hwf with parentOf? := ?_, childrenOf := funext fun x => ?_ }
  · rw [parting, ← hroot, Function.update_eq_self]
  · refine (h.erase_childrenOf fun hp => ?_).symm
    rw [hroot] at hp
    cases hp

namespace Rewired

theorem loosened (h : w.Rewired (w.parting c) w') : Loosened w w' := by
  refine
    { entities := h.undisturbed.entities
      linked := h.hasLinks
      parentOf? := fun x => ?_ }
  rw [h.parentOf?, parent_parting]
  split
  · exact .inr rfl
  · exact .inl rfl

/-- A node that was taken from its parent and put under another has moved. -/
theorem moving (h : w.Rewired (w.parting c) w') (hforest : w.Forest)
    (hq : w.parentOf? c ≠ some q)
    (h' : w'.Rewired (w'.grafting q c (w'.childrenOf q).length) w'') :
    w.Rewired (w.moving c q) w'' := by
  have hlist : w'.childrenOf q = w.childrenOf q := by
    rw [h.childrenOf]
    exact hforest.erase_childrenOf hq
  refine
    { parentOf? := ?_
      childrenOf := ?_
      hasLinks := fun x => (h'.hasLinks x).trans (h.hasLinks x)
      undisturbed := h.undisturbed.trans h'.undisturbed
      forest := h'.forest }
  · rw [h'.parentOf?, grafting, h.parentOf?]
    exact Function.update_idem ..
  · rw [h'.childrenOf, grafting, Nat.min_self, List.insertIdx_length_self, hlist, h.childrenOf]
    rfl

end Rewired

/-! ## The checks, in a forest at rest -/

section Checks

variable (hquiet : ∀ x, w.isDestroying x = false)

include hquiet

theorem nodeOf_eq_ok_iff_of_quiet (node : TreeNode) :
    w.nodeOf x = .ok node ↔ w.node? x = some node := by
  rw [nodeOf_eq_ok_iff, accepts_iff, hquiet]
  refine ⟨fun h => h.2, fun h => ⟨⟨isValid_of_node? ?_, rfl⟩, h⟩⟩
  rw [h]
  rfl

theorem exists_nodeOf_iff : (∃ node, w.nodeOf x = .ok node) ↔ w.IsNode x := by
  simp only [nodeOf_eq_ok_iff_of_quiet hquiet, IsNode, Option.isSome_iff_exists]
  exact ⟨fun h => ⟨isValid_of_node? (Option.isSome_iff_exists.mpr h), h⟩, fun h => h.2⟩

theorem checkMove_iff : w.checkMove c q = .ok () ↔
    c ≠ q ∧ w.IsNode q ∧ w.IsNode c ∧ w.isAncestor c q = false := by
  rw [checkMove_eq_ok_iff, exists_nodeOf_iff hquiet, exists_nodeOf_iff hquiet]

variable (hforest : w.Forest) (hwf : w.Wf)

include hforest hwf

omit hquiet in
/-- A root is above exactly those whose root it is. -/
theorem isAncestor_iff_rootOf (hroot : w.parentOf? c = none) (hne : p ≠ c) :
    w.isAncestor c p = true ↔ w.rootOf p = c := by
  obtain ⟨path, hpath, -⟩ := hforest.rooted p
  rw [isAncestor, rootOf, ancestors_of_ascent hforest hwf hpath, List.contains_iff_mem]
  constructor
  · intro hc
    obtain ⟨before, after, rfl, hafter⟩ := hpath.exists_suffix hc
    -- nobody is above a root, so it is the last on the way
    obtain rfl := hafter.unique (.root hroot)
    rw [List.getLastD_concat]
  · intro hlast
    rcases List.mem_cons.mp (List.getLastD_mem_cons (l := path) (a := p)) with hp | hmem
    · exact absurd (hp.symm.trans hlast) hne
    · exact hlast ▸ hmem

theorem checkLink_iff : w.checkLink p c = .ok () ↔
    p ≠ c ∧ w.IsNode p ∧ w.IsNode c ∧ w.parentOf? c = none ∧ w.rootOf p ≠ c := by
  rw [checkLink_eq_ok_iff, exists_nodeOf_iff hquiet]
  refine and_congr_right fun hne => and_congr_right fun _ => ?_
  have hchild : (∃ below, w.nodeOf c = .ok below ∧ below.isRoot = true) ↔
      w.IsNode c ∧ w.parentOf? c = none := by
    rw [← exists_nodeOf_iff hquiet, ← exists_and_right]
    refine exists_congr fun below => and_congr_right fun hbelow => ?_
    exact (parentOf?_eq_none_iff ((nodeOf_eq_ok_iff_of_quiet hquiet below).mp hbelow)).symm
  rw [hchild, and_assoc]
  refine and_congr_right fun _ => and_congr_right fun hroot => ?_
  rw [Ne, ← isAncestor_iff_rootOf hforest hwf hroot hne, Bool.not_eq_true]

theorem checkUnlink_iff : w.checkUnlink p c = .ok () ↔
    w.IsNode p ∧ w.IsNode c ∧ w.parentOf? c = some p := by
  constructor
  · intro hcheck
    obtain ⟨⟨above, habove, -⟩, below, hbelow, -⟩ := (checkUnlink_eq_ok_iff w p c).mp hcheck
    exact ⟨(exists_nodeOf_iff hquiet).mp ⟨above, habove⟩,
      (exists_nodeOf_iff hquiet).mp ⟨below, hbelow⟩, checkUnlink_ok hwf.table hcheck⟩
  · rintro ⟨hp, hc, hparent⟩
    obtain ⟨above, habove⟩ := (exists_nodeOf_iff hquiet).mpr hp
    obtain ⟨below, hbelow⟩ := (exists_nodeOf_iff hquiet).mpr hc
    have hlisted := (hforest.linked p c).mpr hparent
    rw [childrenOf, (nodeOf_eq_ok_iff_of_quiet hquiet above).mp habove] at hlisted
    have hnamed := (nodeOf_eq_ok_iff_of_quiet hquiet below).mp hbelow
    exact (checkUnlink_eq_ok_iff w p c).mpr ⟨⟨above, habove, hlisted⟩, below, hbelow,
      ((parentOf?_eq_some_iff hnamed).mp hparent).1⟩

end Checks

end World

namespace Machine

variable {U σ : Type} [SceneFamily U] [DecidableEq U] {m m' m'' : Machine U σ}
variable {c e p q : Entity} {f : TreeNode → TreeNode} {r : Rewiring} {tr tr' : List Dispatch}

/-! ## Forests at rest -/

/-- The links are those of a forest, nothing is being destroyed, and whoever hears of a change of
links leaves the world alone. -/
structure Orderly (m : Machine U σ) : Prop where
  wf : m.world.Wf
  forest : m.world.Forest
  quiet : ∀ x, m.world.isDestroying x = false
  watched : m.Watched

/-- So it is between the requests of a session. -/
theorem orderly_of_tended {planted : Option ConnectionKey} (h : m.Tended planted) : m.Orderly :=
  { wf := h.wf
    forest := h.forest
    quiet := h.rest.destroying
    watched := fun _ _ e => h.wired.hushedFor (fun hc => by cases hc) e }

/-- The links were changed as the rewiring says, and nodes were told of it in this order. -/
structure Rewires (m : Machine U σ) (r : Rewiring) (tr : List Dispatch) (m' : Machine U σ) :
    Prop where
  world : World.Rewired m.world r m'.world
  watched : m'.Watched
  told : ∀ {id}, m.world.idOf? .node = some id → tr = r.told.map (⟨id, .update, ·⟩)

theorem rewires_of {id : ComponentId} (hid : m.world.idOf? .node = some id)
    (hworld : World.Rewired m.world r m'.world) (hwatched : m'.Watched) :
    m.Rewires r (r.told.map (⟨id, .update, ·⟩)) m' :=
  { world := hworld
    watched := hwatched
    told := fun hid' => by rw [Option.some.inj (hid.symm.trans hid')] }

/-- A forest at rest is one afterwards. -/
theorem Rewires.orderly (h : m.Rewires r tr m') (hm : m.Orderly) : m'.Orderly :=
  { wf := h.world.undisturbed.wf
    forest := h.world.forest
    quiet := fun x => (h.world.undisturbed.isDestroying x).trans (hm.quiet x)
    watched := h.watched }

/-! ## Patches -/

theorem performs_revise (h : m.Watched) (hwf : m.world.Wf) {id : ComponentId}
    (hid : m.world.idOf? .node = some id) (hnode : (m.world.node? e).isSome)
    (f : TreeNode → TreeNode) :
    ∃ m', m'.Watched ∧ m.world.Revised .node e f m'.world ∧
      m.Performs (Task.patchNode e f) [⟨id, .update, e⟩] m' () := by
  obtain ⟨host, hperform⟩ := performs_patch hid hnode (h id hid e) f
  exact ⟨_, h.patch id e f host, World.revised_patch hwf hid e f, hperform.bind (.pure _ ())⟩

/-- Both sides of a link are changed, and first the one and then the other is told. -/
theorem performs_rewire {α : Type} (h : m.Orderly) (hne : p ≠ c) {id : ComponentId}
    (hid : m.world.idOf? .node = some id) (hp : (m.world.node? p).isSome)
    (hc : (m.world.node? c).isSome) (f : TreeNode → TreeNode) (q : Entity) (a : α) :
    ∃ m', m'.Watched ∧ World.Relinked m.world p c f q m'.world ∧
      m.Performs (do Task.patchNode p f; Task.patchNode c (·.setParent q); return a)
        [⟨id, .update, p⟩, ⟨id, .update, c⟩] m' a := by
  obtain ⟨m₁, hwatched₁, hrevised₁, hperform₁⟩ := performs_revise h.watched h.wf hid hp f
  -- readers hear of the first patch, so the second finds the child as it was
  have hid₁ := hrevised₁.undisturbed.idOf? hid
  have hc₁ : (m₁.world.node? c).isSome := by
    rw [World.node?, hrevised₁.get?, if_neg hne.symm]
    exact hc
  obtain ⟨m', hwatched, hrevised, hperform⟩ :=
    performs_revise hwatched₁ hrevised₁.undisturbed.wf hid₁ hc₁ (·.setParent q)
  exact ⟨m', hwatched, hrevised₁.relinked hne hrevised,
    hperform₁.bind (hperform.bind (.pure m' a))⟩

/-- Nodes have links that are stored somewhere. -/
theorem exists_idOf?_of_isNode (h : m.world.IsNode c) : ∃ id, m.world.idOf? .node = some id :=
  World.exists_idOf?_of_get? h.2

/-! ## Edits that are done -/

section Done

variable (h : m.Orderly)

include h

/-- **A link is made.** -/
theorem performs_graft (hcheck : m.world.checkLink p c = .ok ()) {place : TreeNode → Nat}
    {position : Nat} (hplace : ∀ node, node.children = m.world.childrenOf p → place node = position) :
    ∃ tr m', m.Rewires (m.world.grafting p c position) tr m' ∧
      m.Performs (Task.link p c fun node => node.insertChild (place node) c) tr m' (.ok ()) := by
  obtain ⟨hne, hp, hc, -⟩ := (World.checkLink_iff h.quiet h.forest h.wf).mp hcheck
  obtain ⟨id, hid⟩ := exists_idOf?_of_isNode hp
  obtain ⟨m', hwatched, hrelinked, hperform⟩ := performs_rewire h hne hid hp.2 hc.2
    (fun node => node.insertChild (place node) c) p (Except.ok ())
  have hrewired := World.rewired_grafting h.forest h.wf hcheck hplace hrelinked
  refine ⟨_, m', rewires_of hid hrewired hwatched, .look ?_⟩
  rw [hcheck]
  exact hperform

/-- **A link is cut.** -/
theorem performs_part (hcheck : m.world.checkUnlink p c = .ok ()) :
    ∃ tr m', m.Rewires (m.world.parting c) tr m' ∧
      m.Performs (Task.removeChild p c) tr m' (.ok ()) := by
  obtain ⟨hp, hc, hparent⟩ := (World.checkUnlink_iff h.quiet h.forest h.wf).mp hcheck
  obtain ⟨id, hid⟩ := exists_idOf?_of_isNode hp
  obtain ⟨m', hwatched, hrelinked, hperform⟩ := performs_rewire h
    (h.forest.ne_of_parentOf? hparent) hid hp.2 hc.2 (·.removeChild c) .null (Except.ok ())
  have hrewired := World.rewired_parting h.forest h.wf hcheck hrelinked
  refine ⟨_, m', rewires_of hid hrewired hwatched, .look ?_⟩
  rw [hcheck, World.told_parting hparent]
  exact hperform

/-- **A node is detached.** In a forest at rest a parent is there and not on its way out. -/
theorem performs_detach (hc : m.world.IsNode c) :
    ∃ tr m', m.Rewires (m.world.parting c) tr m' ∧
      m.Performs (Task.detach c) tr m' (.ok (m.world.parentOf? c)) := by
  obtain ⟨node, hnode⟩ := (World.exists_nodeOf_iff h.quiet).mpr hc
  have hsome := (World.nodeOf_eq_ok_iff_of_quiet h.quiet node).mp hnode
  cases hparent : m.world.parentOf? c with
  | none =>
    obtain ⟨id, hid⟩ := exists_idOf?_of_isNode hc
    have hrewired := World.rewired_parting_of_root h.forest h.wf hparent
    refine ⟨_, m, rewires_of hid hrewired h.watched, .look ?_⟩
    rw [hnode, World.told_parting_of_root hparent]
    show m.Performs (if node.isRoot then _ else _) _ _ _
    rw [(World.parentOf?_eq_none_iff hsome).mp hparent]
    exact .pure m _
  | some p =>
    have hp := h.forest.parents hparent
    -- the parent is valid and stays, so this is a removal from it
    have hcheck : m.world.checkUnlink p c = .ok () :=
      (World.checkUnlink_iff h.quiet h.forest h.wf).mpr ⟨hp, hc, hparent⟩
    obtain ⟨tr, m', hrewires, hperform⟩ := performs_part h hcheck
    refine ⟨tr ++ [], m', by rwa [List.append_nil], .look ?_⟩
    have hroot : node.isRoot = false := by
      rw [Bool.eq_false_iff, Ne, ← World.parentOf?_eq_none_iff hsome, hparent]
      exact Option.some_ne_none p
    obtain ⟨rfl, -⟩ := (World.parentOf?_eq_some_iff hsome).mp hparent
    rw [hnode]
    show m.Performs (if node.isRoot then _ else if !m.world.isValid node.parent then _
      else if m.world.isDestroying node.parent then _ else _) _ _ _
    rw [hroot, hp.1, h.quiet]
    exact hperform.bind (.pure m' _)

/-- **A node is moved.** Once it is detached, what its move was checked against still holds. -/
theorem performs_move (hq : m.world.parentOf? c ≠ some q)
    (hcheck : m.world.checkMove c q = .ok ()) :
    ∃ tr m', m.Rewires (m.world.moving c q) tr m' ∧
      m.Performs (Task.reparent c q) tr m' (.ok ()) := by
  obtain ⟨-, -, hc, -⟩ := (World.checkMove_iff h.quiet).mp hcheck
  obtain ⟨tr₁, m₁, hpart, hdetach⟩ := performs_detach h hc
  have hroot : m₁.world.parentOf? c = none := by
    rw [hpart.world.parentOf?, World.parent_parting, if_pos rfl]
  -- links were only taken away, so the check of the move holds for the link, too
  have hlink := hpart.world.loosened.checkLink hcheck hroot
  have hend : ∀ node : TreeNode, node.children = m₁.world.childrenOf q →
      node.children.length = (m₁.world.childrenOf q).length :=
    fun node hnode => congrArg List.length hnode
  obtain ⟨tr₂, m', hgraft, happend⟩ := performs_graft (hpart.orderly h) hlink hend
  refine ⟨tr₁ ++ tr₂, m', ?_, .look ?_⟩
  · refine
      { world := hpart.world.moving h.forest hq hgraft.world
        watched := hgraft.watched
        told := fun hid => ?_ }
    rw [hpart.told hid, hgraft.told (hpart.world.undisturbed.idOf? hid)]
    exact List.map_append.symm
  · show m.Performs (if m.world.parentOf? c = some q then _ else _) _ _ _
    rw [if_neg hq, hcheck]
    exact hdetach.bind happend

end Done

/-! ## Edits that are done or refused -/

/-- The task comes to its end. Where it is refused nothing has changed. It is done exactly under the
condition, with this answer, and then the links were changed as the rewiring says. -/
structure Settles {α : Type} (m : Machine U σ) (task : Task U σ (Except EditError α))
    (accepted : Prop) (answer : α) (r : Rewiring) : Prop extends AllOrNothing m task where
  accepted_iff : (∃ tr m' a, m.Performs task tr m' (.ok a)) ↔ accepted
  done : ∀ {tr m' a}, m.Performs task tr m' (.ok a) → a = answer ∧ m.Rewires r tr m'

theorem Rewires.on (h : m.Rewires r tr m') (stack : List (Frame U σ)) (control : Control U σ) :
    m.Rewires r tr (m'.on stack control) :=
  { world := h.world
    watched := h.watched.congr (.refl _) rfl rfl
    told := h.told }

theorem settles_of {α : Type} {task : Task U σ (Except EditError α)} {accepted : Prop} {answer : α}
    (hdone : accepted → ∃ tr m', m.Rewires r tr m' ∧ m.Performs task tr m' (.ok answer))
    (hrefused : ¬ accepted → ∃ refusal, m.Performs task [] m (.error refusal)) :
    m.Settles task accepted answer r := by
  by_cases haccepted : accepted
  · obtain ⟨tr, m', hrewires, hperform⟩ := hdone haccepted
    have hdecides : m.Decides task (m.Rewires r tr) := .done hperform hrewires
    refine
      { hdecides.allOrNothing with
        accepted_iff := ⟨fun _ => haccepted, fun _ => ⟨tr, m', answer, hperform⟩⟩
        done := fun hperform' => ?_ }
    obtain rfl := Except.ok.inj (hperform'.answer_unique hperform)
    obtain ⟨rfl, hsame⟩ := hperform'.unique hperform
    exact ⟨rfl, hsame ▸ hrewires.on _ _⟩
  · obtain ⟨refusal, hperform⟩ := hrefused haccepted
    have hdecides : m.Decides task fun _ => False := .refused refusal hperform
    have hnever : ∀ {tr m' a}, ¬ m.Performs task tr m' (.ok a) := fun hperform' => by
      cases hperform'.answer_unique hperform
    exact
      { hdecides.allOrNothing with
        accepted_iff := ⟨fun ⟨_, _, _, h⟩ => absurd h hnever, fun h => absurd h haccepted⟩
        done := fun h => absurd h hnever }

/-- Where a check does not pass it says why. -/
theorem exists_refusal {check : Except EditError Unit} (h : ¬ check = .ok ()) :
    ∃ refusal, check = .error refusal := by
  cases check with
  | error refusal => exact ⟨refusal, rfl⟩
  | ok _ => exact absurd rfl h

section Settles

variable (h : m.Orderly)

include h

theorem settles_link (p c : Entity) {place : TreeNode → Nat} {position : Nat}
    (hplace : ∀ node, node.children = m.world.childrenOf p → place node = position) :
    m.Settles (Task.link p c fun node => node.insertChild (place node) c)
      (p ≠ c ∧ m.world.IsNode p ∧ m.world.IsNode c ∧ m.world.parentOf? c = none ∧
        m.world.rootOf p ≠ c)
      () (m.world.grafting p c position) := by
  rw [← World.checkLink_iff h.quiet h.forest h.wf]
  refine settles_of (fun hcheck => performs_graft h hcheck hplace) fun hcheck => ?_
  obtain ⟨refusal, hrefusal⟩ := exists_refusal hcheck
  exact ⟨refusal, performs_link_refused hrefusal _⟩

theorem settles_removeChild (p c : Entity) :
    m.Settles (Task.removeChild p c)
      (m.world.IsNode p ∧ m.world.IsNode c ∧ m.world.parentOf? c = some p) ()
      (m.world.parting c) := by
  rw [← World.checkUnlink_iff h.quiet h.forest h.wf]
  refine settles_of (fun hcheck => performs_part h hcheck) fun hcheck => ?_
  obtain ⟨refusal, hrefusal⟩ := exists_refusal hcheck
  exact ⟨refusal, performs_removeChild_refused hrefusal⟩

theorem settles_detach (c : Entity) :
    m.Settles (Task.detach c) (m.world.IsNode c) (m.world.parentOf? c) (m.world.parting c) := by
  refine settles_of (fun hc => performs_detach h hc) fun hc => ?_
  cases hnode : m.world.nodeOf c with
  | error refusal => exact ⟨refusal, performs_detach_refused hnode⟩
  | ok node => exact absurd ((World.exists_nodeOf_iff h.quiet).mp ⟨node, hnode⟩) hc

theorem settles_reparent (c q : Entity) :
    m.Settles (Task.reparent c q)
      (m.world.IsNode c ∧ m.world.IsNode q ∧
        (m.world.parentOf? c = some q ∨ c ≠ q ∧ m.world.isAncestor c q = false))
      () (if m.world.parentOf? c = some q then m.world.staying else m.world.moving c q) := by
  by_cases hq : m.world.parentOf? c = some q
  · have hnodes : m.world.IsNode c ∧ m.world.IsNode q :=
      ⟨h.forest.children ((h.forest.linked q c).mpr hq), h.forest.parents hq⟩
    rw [if_pos hq]
    refine settles_of (fun _ => ⟨[], m, ?_, performs_reparent_of_parentOf? hq⟩)
      fun hnot => absurd ⟨hnodes.1, hnodes.2, .inl hq⟩ hnot
    exact ⟨World.rewired_staying h.forest h.wf, h.watched, fun _ => rfl⟩
  · have hcheck : m.world.IsNode c ∧ m.world.IsNode q ∧
        (m.world.parentOf? c = some q ∨ c ≠ q ∧ m.world.isAncestor c q = false) ↔
        m.world.checkMove c q = .ok () := by
      rw [World.checkMove_iff h.quiet]
      simp only [hq, false_or]
      tauto
    rw [if_neg hq, hcheck]
    refine settles_of (fun hcheck => performs_move h hq hcheck) fun hcheck => ?_
    obtain ⟨refusal, hrefusal⟩ := exists_refusal hcheck
    exact ⟨refusal, performs_reparent_refused hq hrefusal⟩

end Settles

/-- **Edits are exact.** In a forest where nothing is being destroyed, an edit of the tree comes to
its end, and where it is refused nothing has changed. A node is put under a parent exactly if both
are nodes, the child is a root and the parent is not in its tree; it is taken from a parent exactly
if that is its parent; it is detached exactly if it is a node; and it is moved exactly if its new
parent is a node that is neither itself nor below it. Then the links are those that the edit makes of
the forest, in this order, and nothing else has changed. A node that is moved to the parent it has is
left where it is. -/
theorem edits_are_exact (m : Machine U σ) (h : m.Orderly) :
    (∀ p c position, m.Settles (Task.insertChild p c position)
        (p ≠ c ∧ m.world.IsNode p ∧ m.world.IsNode c ∧ m.world.parentOf? c = none ∧
          m.world.rootOf p ≠ c)
        () (m.world.grafting p c position)) ∧
      (∀ p c, m.Settles (Task.appendChild p c)
        (p ≠ c ∧ m.world.IsNode p ∧ m.world.IsNode c ∧ m.world.parentOf? c = none ∧
          m.world.rootOf p ≠ c)
        () (m.world.grafting p c (m.world.childrenOf p).length)) ∧
      (∀ p c, m.Settles (Task.removeChild p c)
        (m.world.IsNode p ∧ m.world.IsNode c ∧ m.world.parentOf? c = some p)
        () (m.world.parting c)) ∧
      (∀ c, m.Settles (Task.detach c) (m.world.IsNode c) (m.world.parentOf? c)
        (m.world.parting c)) ∧
      (∀ c q, m.Settles (Task.reparent c q)
        (m.world.IsNode c ∧ m.world.IsNode q ∧
          (m.world.parentOf? c = some q ∨ c ≠ q ∧ m.world.isAncestor c q = false))
        () (if m.world.parentOf? c = some q then m.world.staying else m.world.moving c q)) ∧
      ∀ {c q}, m.world.parentOf? c = some q → m.Performs (Task.reparent c q) [] m (.ok ()) :=
  ⟨fun p c _ => settles_link h p c fun _ _ => rfl,
    fun p c => settles_link h p c fun _ hnode => congrArg List.length hnode,
    settles_removeChild h, settles_detach h, settles_reparent h,
    fun hq => performs_reparent_of_parentOf? hq⟩

/-- The elder child is moved under the younger, and takes its own child along. The root is not put
under that child, which is below it. -/
theorem edits_are_exact_clan :
    clan.Orderly ∧
      (∃ tr m, clan.Performs (Task.reparent ⟨2, .initial⟩ ⟨1, ⟨1⟩⟩) tr m (.ok ()) ∧
        m.world.childrenOf ⟨0, .initial⟩ = [⟨1, ⟨1⟩⟩] ∧
        m.world.childrenOf ⟨1, ⟨1⟩⟩ = [⟨2, .initial⟩] ∧
        m.world.childrenOf ⟨2, .initial⟩ = [⟨3, .initial⟩]) ∧
      ¬ ∃ tr m a, clan.Performs (Task.insertChild ⟨3, .initial⟩ ⟨0, .initial⟩ 0) tr m (.ok a) := by
  have horderly : clan.Orderly := orderly_of_tended (session_tended session_clan)
  obtain ⟨hinsert, -, -, -, hreparent, -⟩ := edits_are_exact clan horderly
  refine ⟨horderly, ?_, fun hdone => ?_⟩
  · have hmove := hreparent ⟨2, .initial⟩ ⟨1, ⟨1⟩⟩
    obtain ⟨tr, m, a, hperform⟩ := hmove.accepted_iff.mpr
      ⟨⟨by decide +kernel, by decide +kernel⟩, ⟨by decide +kernel, by decide +kernel⟩,
        .inr ⟨by decide +kernel, by decide +kernel⟩⟩
    obtain ⟨-, hrewires⟩ := hmove.done hperform
    rw [if_neg (by decide +kernel)] at hrewires
    refine ⟨tr, m, hperform, ?_, ?_, ?_⟩
    · rw [hrewires.world.childrenOf]
      decide +kernel
    · rw [hrewires.world.childrenOf]
      decide +kernel
    · rw [hrewires.world.childrenOf]
      decide +kernel
  · obtain ⟨-, -, -, -, hroot⟩ := (hinsert ⟨3, .initial⟩ ⟨0, .initial⟩ 0).accepted_iff.mp hdone
    exact hroot (by decide +kernel)

end Machine

end EntityScene
