import EntityScene.Proofs.Linking

/-!
# Links that are changed on one side so far

An edit changes the lister's side of a link, lets handlers run, and changes the other side
later. While such edits are pending the links of the world are those of no forest. What is kept
is that they become those of a forest once every pending edit is finished.

- `World.complete`: the world with every pending edit finished.
- `World.Apart`: no two pending edits are at odds.
- `World.Loose`: that world is a forest, and pending edits are apart.
- `Loose.link`, `Loose.cut`, `Loose.orphan`: an edit becomes pending. The check of a new link
  looks at the links as they are, so it sees circles only where nothing is pending.
- `Loose.close`: the innermost edit is finished.
- `Loose.cull`, `Loose.congr`: what is below an entity goes, and links stay.
-/

namespace EntityScene

/-- The lister's side of a link that goes: the child leaves, and the parent of the lister
stays. -/
structure TreeNode.Leaves (c : Entity) (f : TreeNode → TreeNode) : Prop where
  parent : ∀ node, (f node).parent = node.parent
  mem : ∀ node x, node.children.Nodup → (x ∈ (f node).children ↔ x ∈ node.children ∧ x ≠ c)
  nodup : ∀ node, node.children.Nodup → (f node).children.Nodup

theorem TreeNode.leaves_removeChild (c : Entity) : Leaves c (TreeNode.removeChild · c) :=
  { parent := fun _ => rfl
    mem := fun node x hnodup => by rw [removeChild, hnodup.mem_erase_iff, and_comm]
    nodup := fun _ hnodup => hnodup.erase c }

theorem TreeNode.leaves_dropChild (c : Entity) : Leaves c (TreeNode.dropChild · c) :=
  { parent := fun _ => rfl
    mem := fun node x _ => mem_children_dropChild node c x
    nodup := fun _ hnodup => hnodup.filter _ }

namespace World

variable {U : Type} [SceneFamily U] [DecidableEq U] {w w' : World (Kind U)}
variable {pend : List (Entity × Entity)} {p c q e x : Entity} {f : TreeNode → TreeNode}

/-! ## Finished edits -/

/-- The world with every pending edit finished: each of the listed children has got its
parent. -/
def complete (w : World (Kind U)) (pend : List (Entity × Entity)) : World (Kind U) :=
  pend.foldr (fun edit w => w.edit .node edit.1 (TreeNode.setParent · edit.2)) w

theorem undisturbed_complete (h : w.Wf) (pend : List (Entity × Entity)) :
    Undisturbed (· ≠ .node) w (w.complete pend) := by
  induction pend with
  | nil => exact .refl h
  | cons edit pend ih => exact ih.trans (undisturbed_edit ih.wf fun hne => hne rfl)

/-- The links of an entity once a pending edit of it is finished. -/
theorem node?_complete (pend : List (Entity × Entity)) (x : Entity) :
    (w.complete pend).node? x =
      (pend.lookup x).elim (w.node? x) fun q => (w.node? x).map (·.setParent q) := by
  induction pend with
  | nil => rfl
  | cons edit pend ih =>
    have hedit : (w.complete (edit :: pend)).node? x = if x = edit.1
        then ((w.complete pend).node? edit.1).map (·.setParent edit.2)
        else (w.complete pend).node? x := get?_edit _ _ _ x
    rw [hedit]
    rw [List.lookup_cons]
    by_cases hx : x = edit.1
    · rw [if_pos hx, ← hx, beq_self_eq_true]
      refine (congrArg (Option.map _) ih).trans ?_
      cases pend.lookup x with
      | none => rfl
      | some q => exact Option.map_map _ _ _
    · rw [if_neg hx, beq_eq_false_iff_ne.mpr hx]
      exact ih

theorem isSome_node?_complete (pend : List (Entity × Entity)) (x : Entity) :
    ((w.complete pend).node? x).isSome = (w.node? x).isSome := by
  rw [node?_complete]
  cases pend.lookup x with
  | none => rfl
  | some q => exact Option.isSome_map

/-- Pending edits have done with children lists. -/
theorem childrenOf_complete (pend : List (Entity × Entity)) (x : Entity) :
    (w.complete pend).childrenOf x = w.childrenOf x := by
  rw [childrenOf, node?_complete, childrenOf]
  cases pend.lookup x with
  | none => rfl
  | some q =>
    show (((w.node? x).map _).map _).getD [] = _
    rw [Option.map_map]
    rfl

theorem below_complete (pend : List (Entity × Entity)) (e x : Entity) :
    (w.complete pend).Below e x ↔ w.Below e x :=
  below_congr (childrenOf_complete pend) e x

theorem parentOf?_complete (pend : List (Entity × Entity)) (x : Entity) :
    (w.complete pend).parentOf? x = (pend.lookup x).elim (w.parentOf? x) fun q =>
      if (w.node? x).isSome ∧ q.isNull = false then some q else none := by
  rw [parentOf?, node?_complete]
  cases pend.lookup x with
  | none => rfl
  | some q =>
    show (((w.node? x).map _).map _).filter _ = if _ then _ else _
    cases w.node? x with
    | none => simp
    | some node =>
      show (some q).filter _ = _
      cases hq : q.isNull <;> simp [hq]

/-- Edits that are not pending add no parent. -/
theorem parentOf?_complete_of_lookup (hx : pend.lookup x = none) :
    (w.complete pend).parentOf? x = w.parentOf? x := by
  rw [parentOf?_complete, hx]
  rfl

/-- A pending edit that comes after the others. -/
theorem parentOf?_complete_cons (c q x : Entity) :
    (w.complete ((c, q) :: pend)).parentOf? x =
      if x = c then (if (w.node? c).isSome ∧ q.isNull = false then some q else none)
      else (w.complete pend).parentOf? x := by
  rw [parentOf?_complete, parentOf?_complete, List.lookup_cons]
  by_cases hx : x = c
  · rw [if_pos hx, hx, beq_self_eq_true]
    rfl
  · rw [if_neg hx, beq_eq_false_iff_ne.mpr hx]

/-! ## One side of a link -/

/-- A child that leaves is listed no more. -/
theorem mem_childrenOf_leave (hleave : TreeNode.Leaves c f)
    (hnodup : (w.childrenOf p).Nodup) :
    x ∈ (w.edit .node p f).childrenOf p ↔ x ∈ w.childrenOf p ∧ x ≠ c := by
  rw [childrenOf_edit, if_pos rfl, childrenOf]
  rw [childrenOf] at hnodup
  cases hnode : w.node? p with
  | none => simp
  | some node =>
    rw [hnode] at hnodup
    exact hleave.mem node x hnodup

theorem nodup_childrenOf_leave (hleave : TreeNode.Leaves c f)
    (hnodup : (w.childrenOf p).Nodup) : ((w.edit .node p f).childrenOf p).Nodup := by
  rw [childrenOf_edit, if_pos rfl]
  rw [childrenOf] at hnodup
  cases hnode : w.node? p with
  | none => exact List.nodup_nil
  | some node =>
    rw [hnode] at hnodup
    exact hleave.nodup node hnodup

theorem parentOf?_complete_edit (hf : ∀ node, (f node).parent = node.parent)
    (pend : List (Entity × Entity)) (p x : Entity) :
    ((w.edit .node p f).complete pend).parentOf? x = (w.complete pend).parentOf? x := by
  rw [parentOf?_complete, parentOf?_complete, parentOf?_edit hf, isSome_node?_edit]

/-- Rows of links are for valid entities only. -/
def Housed (w : World (Kind U)) : Prop :=
  ∀ x, (w.stored? .node x).isSome → w.isValid x = true

theorem isSome_stored?_edit (c : Entity) (f : TreeNode → TreeNode) (x : Entity) :
    ((w.edit .node c f).stored? .node x).isSome = (w.stored? .node x).isSome := by
  unfold edit
  split
  · rw [stored?_modify]
    split
    · rename_i hx
      rw [Option.isSome_map, hx]
    · rfl
  · rfl

theorem isSome_stored?_complete (pend : List (Entity × Entity)) (x : Entity) :
    ((w.complete pend).stored? .node x).isSome = (w.stored? .node x).isSome := by
  induction pend with
  | nil => rfl
  | cons edit pend ih => exact (isSome_stored?_edit ..).trans ih

theorem housed_complete (h : w.Wf) (pend : List (Entity × Entity)) :
    (w.complete pend).Housed ↔ w.Housed := by
  unfold Housed
  simp only [isSome_stored?_complete, (undisturbed_complete h pend).isValid]

/-- Links are stored where they were stored, for entities that are valid. -/
theorem Housed.congr (h : w.Housed) (hundisturbed : Undisturbed (· ≠ .node) w w')
    (hrows : ∀ x, (w'.stored? .node x).isSome = (w.stored? .node x).isSome) : w'.Housed := by
  intro x hx
  rw [hundisturbed.isValid]
  rw [hrows] at hx
  exact h x hx

/-! ## Loose links -/

/-- No two pending edits are at odds: a child has one of them, or is to become a root by all of
them. -/
def Apart (pend : List (Entity × Entity)) : Prop :=
  pend.Pairwise fun a b => a.1 = b.1 → a.2 = .null ∧ b.2 = .null

/-- The links of every entity are the same. -/
theorem forest_of_nodes (h : w.Forest) (hwf' : w'.Wf) (hnode : ∀ x, w'.node? x = w.node? x)
    (hhoused : w'.Housed) : w'.Forest := by
  refine forest_of_links h hwf' (fun x => ?_) (fun x => ?_) (fun x hx => ?_) hhoused
  · rw [parentOf?, parentOf?, hnode]
  · rw [childrenOf, childrenOf, hnode]
  · rw [hnode]
    exact hx

/-- By one edit a child is to become a root, so by all of them. -/
theorem Apart.eq_null (h : Apart pend) (hq : (c, q) ∈ pend) (hnull : (c, .null) ∈ pend) :
    q = .null := by
  by_contra hne
  have : Std.Symm fun a b : Entity × Entity => a.1 = b.1 → a.2 = .null ∧ b.2 = .null :=
    ⟨fun _ _ hab hsame => (hab hsame.symm).symm⟩
  have hdistinct : (c, q) ≠ (c, Entity.null) := fun heq => hne (Prod.mk.inj heq).2
  exact hne (List.Pairwise.forall h hq hnull hdistinct rfl).1

theorem Apart.cons (h : Apart pend) (hfree : ∀ q, (c, q) ∉ pend) (q : Entity) :
    Apart ((c, q) :: pend) := by
  refine List.pairwise_cons.mpr ⟨fun edit hmem hsame => ?_, h⟩
  have hedit : edit = (c, edit.2) := Prod.ext (Eq.symm hsame) rfl
  exact absurd (hedit ▸ hmem) (hfree edit.2)

theorem Apart.cons_null (h : Apart pend) (hnull : ∀ q, (c, q) ∈ pend → q = .null) :
    Apart ((c, .null) :: pend) := by
  refine List.pairwise_cons.mpr ⟨fun edit hmem hsame => ⟨rfl, ?_⟩, h⟩
  have hedit : edit = (c, edit.2) := Prod.ext (Eq.symm hsame) rfl
  exact hnull edit.2 (hedit ▸ hmem)

/-- Links that are those of a forest once every pending edit is finished. A child that is to
get a parent has none so far. -/
structure Loose (w : World (Kind U)) (pend : List (Entity × Entity)) : Prop where
  forest : (w.complete pend).Forest
  bare : ∀ {c q}, (c, q) ∈ pend → q ≠ .null → w.parentOf? c = none
  apart : Apart pend

theorem lookup_eq_none (h : ∀ q, (c, q) ∉ pend) : pend.lookup c = none :=
  List.lookup_eq_none_iff.mpr fun edit hmem => bne_iff_ne.mpr fun hc => h edit.2 (hc ▸ hmem)

theorem mem_of_lookup (h : pend.lookup c = some q) : (c, q) ∈ pend := by
  obtain ⟨before, after, rfl, -⟩ := List.lookup_eq_some_iff.mp h
  exact List.mem_append_right _ List.mem_cons_self

namespace Loose

theorem housed (h : w.Loose pend) (hwf : w.Wf) : w.Housed :=
  (housed_complete hwf pend).mp h.forest.holders

/-- Where nothing is pending the links are those of a forest. -/
theorem of_forest (h : w.Forest) : w.Loose [] :=
  { forest := h
    bare := fun hmem => absurd hmem List.not_mem_nil
    apart := .nil }

/-- The links of every entity are the same. -/
theorem congr (h : w.Loose pend) (hwf' : w'.Wf)
    (hnode : ∀ x, w'.node? x = w.node? x) (hhoused : w'.Housed) : w'.Loose pend := by
  refine
    { forest := forest_of_nodes h.forest (undisturbed_complete hwf' pend).wf (fun x => ?_)
        ((housed_complete hwf' pend).mpr hhoused)
      bare := fun hmem hq => ?_
      apart := h.apart }
  · rw [node?_complete, node?_complete, hnode]
  · rw [parentOf?, hnode]
    exact h.bare hmem hq

/-- Nothing of the links is touched. -/
theorem of_undisturbed (h : w.Loose pend) (hwf : w.Wf)
    (hworld : Undisturbed (fun _ => True) w w') : w'.Loose pend :=
  h.congr hworld.wf (hworld.get? trivial) <|
    (h.housed hwf).congr (hworld.mono fun _ _ => trivial) fun x => by
      rw [hworld.stored? trivial]

/-! ## Edits that become pending -/

/-- Whoever is met on the way up from an entity has it below. -/
theorem below_of_mem_ascent {path : List Entity} (h : w.Forest) (hpath : w.Ascent x path)
    (hc : c ∈ path) : w.Below c x := by
  induction hpath with
  | root => cases hc
  | @step x p path hp _ ih =>
    have hlisted : x ∈ w.childrenOf p := (h.linked p x).mpr hp
    rcases List.mem_cons.mp hc with rfl | hc
    · exact (Below.refl w c).child hlisted
    · exact (ih hc).child hlisted

/-- A walk up the links as they are gets to an entity above, if nothing is pending between the
two. -/
theorem mem_climb (h : w.Loose pend) (hwf : w.Wf) {path : List Entity}
    (hpath : (w.complete pend).Ascent x path) (hc : c ∈ path)
    (hclear : ∀ y q, (y, q) ∈ pend → w.Below c y → ¬ w.Below y x) {steps : Nat}
    (hsteps : path.length ≤ steps) : c ∈ w.climb steps x := by
  induction hpath generalizing steps with
  | root => cases hc
  | @step x p path hp hrest ih =>
    have hlisted : x ∈ w.childrenOf p := by
      rw [← childrenOf_complete pend]
      exact (h.forest.linked p x).mpr hp
    have hbelow : w.Below c x := (below_complete pend c x).mp <|
      below_of_mem_ascent h.forest (.step hp hrest) hc
    have hfree : pend.lookup x = none :=
      lookup_eq_none fun q hq => hclear x q hq hbelow (.refl w x)
    have hparent : w.validParentOf? x = some p := by
      have hvalid := (h.forest.parents hp).1
      rw [parentOf?_complete_of_lookup hfree] at hp
      rw [(undisturbed_complete hwf pend).isValid] at hvalid
      rw [validParentOf?, hp, Option.filter_some, if_pos hvalid]
    obtain ⟨steps, rfl⟩ : ∃ k, steps = k + 1 := by
      rw [List.length_cons] at hsteps
      exact ⟨steps - 1, by omega⟩
    -- nothing is pending for this child, so the walk takes the same step as the links to come
    rw [climb, hparent]
    rcases List.mem_cons.mp hc with rfl | hc
    · exact List.mem_cons_self
    · refine List.mem_cons_of_mem _ (ih hc (fun y q hq hy hyp => ?_) (Nat.le_of_succ_le_succ hsteps))
      exact hclear y q hq hy (hyp.child hlisted)

/-- The check of a link sees who is above, if nothing is pending in between. -/
theorem not_mem_of_ascent (h : w.Loose pend) (hwf : w.Wf) (hcycle : w.isAncestor c p = false)
    (hclear : ∀ y q, (y, q) ∈ pend → w.Below c y → ¬ w.Below y p) {path : List Entity}
    (hpath : (w.complete pend).Ascent p path) : c ∉ path := by
  intro hc
  have hcomplete := undisturbed_complete hwf pend
  have hlength : path.length ≤ w.aliveCount := by
    have hle := length_le_aliveCount_of_ascent h.forest hcomplete.wf hpath
    rw [aliveCount, hcomplete.entities] at hle
    exact hle
  have hmem := h.mem_climb hwf hpath hc hclear hlength
  rw [isAncestor, ancestors, List.contains_iff_mem.mpr hmem] at hcycle
  cases hcycle

/-- A root enters the children of an entity, and is to get it as a parent. -/
theorem link (h : w.Loose pend) (hwf : w.Wf) (hcheck : w.checkLink p c = .ok ())
    (henter : TreeNode.Enters c f) (hfree : ∀ q, (c, q) ∉ pend)
    (hclear : ∀ y q, (y, q) ∈ pend → w.Below c y → ¬ w.Below y p) :
    (w.edit .node p f).Loose ((c, p) :: pend) := by
  obtain ⟨hne, ⟨above, hp⟩, ⟨below, hc, hroot⟩, hcycle⟩ := checkLink_ok hcheck
  have hedit : Undisturbed (· ≠ .node) w (w.edit .node p f) := undisturbed_edit hwf fun hk => hk rfl
  have hsome : (w.node? p).isSome := by rw [hp]; rfl
  have hnull : p.isNull = false := hwf.table.isNull_eq_false (isValid_of_node? hsome)
  -- the check saw no parent, and no pending edit is to give the child one
  have hbare : w.parentOf? c = none := (parentOf?_eq_none_iff hc).mpr hroot
  have hparent : (w.complete pend).parentOf? c = none :=
    (parentOf?_complete_of_lookup (lookup_eq_none hfree)).trans hbare
  have habove : (w.complete pend).childrenOf p = above.children := by
    rw [childrenOf_complete, childrenOf, hp]
    rfl
  have hfresh : c ∉ above.children := by
    rw [← habove, h.forest.linked, hparent]
    exact (Option.some_ne_none p).symm
  have hchildren : ∀ x, ((w.edit .node p f).complete ((c, p) :: pend)).childrenOf x =
      if x = p then (f above).children else (w.complete pend).childrenOf x := fun x => by
    rw [childrenOf_complete, childrenOf_edit, hp, childrenOf_complete]
    rfl
  refine
    { forest := forest_link (c := c) (p := p) h.forest (undisturbed_complete hedit.wf _).wf hparent
        ((isSome_node?_complete pend p).trans hsome) hne
        (fun path hpath => h.not_mem_of_ascent hwf hcycle hclear hpath) (fun x => ?_)
        (fun x y => ?_) (fun x => ?_) (fun x hx => ?_)
        ((housed_complete hedit.wf _).mpr ((h.housed hwf).congr hedit (isSome_stored?_edit p f)))
      bare := fun {y q} hmem hq => ?_
      apart := h.apart.cons hfree p }
  · rw [parentOf?_complete_cons, isSome_node?_edit, hc, hnull,
      parentOf?_complete_edit henter.parent]
    rfl
  · rw [hchildren]
    by_cases hx : x = p
    · rw [if_pos hx, henter.mem, hx, habove]
      simp
    · rw [if_neg hx]
      simp [hx]
  · rw [hchildren]
    split
    · exact henter.nodup above hfresh (habove ▸ h.forest.nodup p)
    · exact h.forest.nodup x
  · rw [isSome_node?_complete, isSome_node?_edit]
    rw [isSome_node?_complete] at hx
    exact hx
  · rw [parentOf?_edit henter.parent]
    rcases List.mem_cons.mp hmem with heq | hmem
    · rw [(Prod.mk.inj heq).1, hbare]
    · exact h.bare hmem hq

/-- A child that has a parent in the links as they are is to become a root, if anything. -/
theorem null_of_parentOf? (h : w.Loose pend) (hparent : w.parentOf? c = some p)
    (hmem : (c, q) ∈ pend) : q = .null := by
  by_contra hq
  rw [h.bare hmem hq] at hparent
  cases hparent

/-- A child that is to become a root is nobody's child once every pending edit is finished. -/
theorem not_mem_childrenOf (h : w.Loose pend) (hmem : (c, .null) ∈ pend) (x : Entity) :
    c ∉ w.childrenOf x := by
  intro hc
  rw [← childrenOf_complete pend, h.forest.linked, parentOf?_complete] at hc
  cases hq : pend.lookup c with
  | none => exact bne_iff_ne.mp (List.lookup_eq_none_iff.mp hq _ hmem) rfl
  | some q =>
    rw [hq, h.apart.eq_null (mem_of_lookup hq) hmem] at hc
    simp at hc

/-- It is below itself only. -/
theorem eq_of_below (h : w.Loose pend) (hmem : (c, .null) ∈ pend) (hbelow : w.Below e c) :
    c = e := by
  rcases Relation.ReflTransGen.cases_tail hbelow with heq | ⟨x, -, hx⟩
  · exact heq
  · exact absurd hx (h.not_mem_childrenOf hmem x)

theorem nodup_childrenOf (h : w.Loose pend) (x : Entity) : (w.childrenOf x).Nodup := by
  rw [← childrenOf_complete pend]
  exact h.forest.nodup x

/-- A child that has a parent in the links as they are is listed by nobody else. -/
theorem eq_of_mem_childrenOf (h : w.Loose pend) (hparent : w.parentOf? c = some p)
    (hx : c ∈ w.childrenOf x) : x = p := by
  rw [← childrenOf_complete pend, h.forest.linked, parentOf?_complete] at hx
  cases hc : pend.lookup c with
  | none =>
    rw [hc, Option.elim_none, hparent] at hx
    exact (Option.some.inj hx).symm
  | some q =>
    rw [hc, h.null_of_parentOf? hparent (mem_of_lookup hc)] at hx
    simp at hx

/-- A child leaves the children of its parent, and is to become a root. -/
theorem cut (h : w.Loose pend) (hwf : w.Wf) (hparent : w.parentOf? c = some p)
    (hleave : TreeNode.Leaves c f) : (w.edit .node p f).Loose ((c, .null) :: pend) := by
  have hedit : Undisturbed (· ≠ .node) w (w.edit .node p f) := undisturbed_edit hwf fun hk => hk rfl
  refine
    { forest := forest_unlink (c := c) h.forest (undisturbed_complete hedit.wf _).wf (fun x => ?_)
        (fun x y => ?_) (fun x => ?_) (fun x hx => ?_)
        ((housed_complete hedit.wf _).mpr ((h.housed hwf).congr hedit (isSome_stored?_edit p f)))
      bare := fun {y q} hmem hq => ?_
      apart := h.apart.cons_null fun q hq => h.null_of_parentOf? hparent hq }
  · rw [parentOf?_complete_cons, parentOf?_complete_edit hleave.parent]
    simp
  · rw [childrenOf_complete, childrenOf_complete]
    by_cases hx : x = p
    · rw [hx, mem_childrenOf_leave hleave (h.nodup_childrenOf p)]
    · rw [childrenOf_edit, if_neg hx]
      refine (and_iff_left_of_imp fun hy => ?_).symm
      rintro rfl
      exact hx (h.eq_of_mem_childrenOf hparent hy)
  · rw [childrenOf_complete]
    by_cases hx : x = p
    · rw [hx]
      exact nodup_childrenOf_leave hleave (h.nodup_childrenOf p)
    · rw [childrenOf_edit, if_neg hx]
      exact h.nodup_childrenOf x
  · rw [isSome_node?_complete, isSome_node?_edit]
    rw [isSome_node?_complete] at hx
    exact hx
  · rw [parentOf?_edit hleave.parent]
    rcases List.mem_cons.mp hmem with heq | hmem
    · exact absurd (Prod.mk.inj heq).2 hq
    · exact h.bare hmem hq

/-- A child that nobody lists is to become a root. -/
theorem orphan (h : w.Loose pend) (hwf : w.Wf) (hnull : ∀ q, (c, q) ∈ pend → q = .null)
    (hparent : ∀ p, w.parentOf? c = some p → w.node? p = none) : w.Loose ((c, .null) :: pend) := by
  have hroot : (w.complete pend).parentOf? c = none := by
    by_contra hp
    obtain ⟨p, hp⟩ := Option.ne_none_iff_exists'.mp hp
    have hsome := (h.forest.parents hp).2
    rw [isSome_node?_complete] at hsome
    rw [parentOf?_complete] at hp
    cases hc : pend.lookup c with
    | none =>
      rw [hc] at hp
      rw [hparent p hp] at hsome
      cases hsome
    | some q =>
      rw [hc, hnull q (mem_of_lookup hc)] at hp
      simp at hp
  refine
    { forest := forest_of_links h.forest (undisturbed_complete hwf _).wf (fun x => ?_)
        (fun x => ?_) (fun x hx => ?_) ((housed_complete hwf _).mpr (h.housed hwf))
      bare := fun {y q} hmem hq => ?_
      apart := h.apart.cons_null hnull }
  · rw [parentOf?_complete_cons]
    split
    · rename_i hx
      rw [hx, hroot]
      simp
    · rfl
  · rw [childrenOf_complete, childrenOf_complete]
  · rw [isSome_node?_complete] at hx ⊢
    exact hx
  · rcases List.mem_cons.mp hmem with heq | hmem
    · exact absurd (Prod.mk.inj heq).2 hq
    · exact h.bare hmem hq

/-! ## Edits that are finished -/

/-- The innermost edit is finished. -/
theorem close (h : w.Loose ((c, q) :: pend)) (hwf : w.Wf) :
    (w.edit .node c (TreeNode.setParent · q)).Loose pend := by
  have hedit : Undisturbed (· ≠ .node) w (w.edit .node c (TreeNode.setParent · q)) :=
    undisturbed_edit hwf fun hk => hk rfl
  obtain ⟨hothers, hapart⟩ := List.pairwise_cons.mp h.apart
  refine
    { forest := forest_of_nodes h.forest (undisturbed_complete hedit.wf pend).wf (fun x => ?_)
        ((housed_complete hedit.wf _).mpr ((h.housed hwf).congr hedit (isSome_stored?_edit _ _)))
      bare := fun {y q'} hmem hq => ?_
      apart := hapart }
  · rw [node?_complete, node?_complete, List.lookup_cons]
    by_cases hx : x = c
    · subst hx
      rw [beq_self_eq_true]
      have hnode : (w.edit .node x (TreeNode.setParent · q)).node? x =
          (w.node? x).map (·.setParent q) := (get?_edit w _ _ x).trans (if_pos rfl)
      rw [hnode]
      cases hc : pend.lookup x with
      | none => rfl
      | some q' =>
        -- two pending edits of one child both make it a root, so the order does not matter
        obtain ⟨hq, hq'⟩ := hothers _ (mem_of_lookup hc) rfl
        rw [show q = .null from hq, show q' = .null from hq']
        exact Option.map_map _ _ _
    · have hnode : (w.edit .node c (TreeNode.setParent · q)).node? x = w.node? x :=
        (get?_edit w _ _ x).trans (if_neg hx)
      rw [beq_eq_false_iff_ne.mpr hx, hnode]
  · have hy : y ≠ c := by
      rintro rfl
      exact hq (hothers _ hmem rfl).2
    rw [parentOf?, node?, get?_edit, if_neg hy]
    exact h.bare (List.mem_cons_of_mem _ hmem) hq

/-- A pending edit of links that are gone changes nothing. -/
theorem close_of_none (h : w.Loose ((c, q) :: pend)) (hwf : w.Wf) (hnone : w.node? c = none) :
    w.Loose pend := by
  have hedit : Undisturbed (· ≠ .node) w (w.edit .node c (TreeNode.setParent · q)) :=
    undisturbed_edit hwf fun hk => hk rfl
  refine (h.close hwf).congr hwf (fun x => ?_) (h.housed hwf)
  rw [node?, node?, get?_edit]
  split
  · rename_i hx
    rw [hx, show w.get? .node c = none from hnone]
    rfl
  · rfl

/-- What is below an entity that was to become a root is gone. -/
theorem cull (h : w.Loose ((e, .null) :: pend)) (hwf : w.Wf) (hwf' : w'.Wf)
    (hvalid : ∀ x, w'.isValid x = true ↔ w.isValid x = true ∧ ¬ w.Below e x)
    (hnode : ∀ x, ¬ w.Below e x → w'.node? x = w.node? x) (hhoused : w'.Housed) :
    w'.Loose pend := by
  have hcomplete := undisturbed_complete hwf ((e, .null) :: pend)
  have hcomplete' := undisturbed_complete hwf' pend
  have hroot : (w.complete ((e, .null) :: pend)).parentOf? e = none := by
    rw [parentOf?_complete_cons]
    simp
  refine
    { forest := forest_culled h.forest (e := e)
        { wf := hcomplete'.wf
          valid := fun x => by
            rw [hcomplete'.isValid, hcomplete.isValid, below_complete, hvalid]
          node? := fun x hx => ?_
          holders := (housed_complete hwf' pend).mpr hhoused }
      bare := fun {c q} hmem hq => ?_
      apart := (List.pairwise_cons.mp h.apart).2 }
  · rw [below_complete] at hx
    have hne : x ≠ e := by
      rintro rfl
      exact hx (.refl w x)
    rw [unlinkedNode?, hroot, if_neg (Option.some_ne_none x).symm, node?_complete,
      node?_complete, List.lookup_cons, beq_eq_false_iff_ne.mpr hne, hnode x hx]
  · by_cases hc : w.Below e c
    · refine parentOf?_of_not_isValid (Bool.eq_false_iff.mpr fun hv => ?_)
      exact ((hvalid c).mp hv).2 hc
    · rw [parentOf?, hnode c hc]
      exact h.bare (List.mem_cons_of_mem _ hmem) hq

end Loose

end World

end EntityScene
