import EntityScene.Scene.Link
import EntityScene.Proofs.Cascades

/-!
# The tree is a forest

Edits of links keep both sides of every link in step, and nodes that go take their links
along. So the links that a world holds are those of a forest, and there is one lemma for
each kind of edit.

- `World.Ascent`: the way up from an entity to a root.
- `World.Forest`: both sides of a link agree, links are of entities that have links, no
  child is listed twice, and every way up ends.
- `climb_of_ascent`, `ancestors_of_ascent`: a walk up that is cut at the number of the
  living is cut nowhere.
- `forest_of_links`, `forest_link`, `forest_unlink`, `forest_culled`: nothing about links
  changes, a root becomes a child, a child becomes a root, and what is below an entity goes.
-/

namespace EntityScene.World

variable {U : Type} [SceneFamily U] [DecidableEq U] {w w' : World (Kind U)}
variable {e p c x : Entity} {path : List Entity}

/-! ## The way up -/

/-- The way up from an entity along parent links, nearest first, which ends at a root. -/
inductive Ascent (w : World (Kind U)) : Entity → List Entity → Prop
  | root {x : Entity} (h : w.parentOf? x = none) : Ascent w x []
  | step {x p : Entity} {path : List Entity} (h : w.parentOf? x = some p)
      (hp : Ascent w p path) : Ascent w x (p :: path)

namespace Ascent

theorem unique {path' : List Entity} (h : Ascent w x path) (h' : Ascent w x path') :
    path = path' := by
  induction h generalizing path' with
  | root hroot =>
    cases h' with
    | root => rfl
    | step hp => rw [hroot] at hp; cases hp
  | step hp _ ih =>
    cases h' with
    | root hroot => rw [hp] at hroot; cases hroot
    | step hp' hrest =>
      rw [hp] at hp'
      obtain rfl := Option.some.inj hp'
      rw [ih hrest]

/-- The way up from an entity on the way is what is left of it. -/
theorem exists_suffix (h : Ascent w x path) (he : e ∈ path) :
    ∃ before after, path = before ++ e :: after ∧ Ascent w e after := by
  induction h with
  | root => cases he
  | @step x p path _ hrest ih =>
    rcases List.mem_cons.mp he with rfl | he
    · exact ⟨[], path, rfl, hrest⟩
    · obtain ⟨before, after, rfl, hafter⟩ := ih he
      exact ⟨p :: before, after, rfl, hafter⟩

/-- Nobody is met twice on the way up: it would not end. -/
theorem nodup (h : Ascent w x path) : (x :: path).Nodup := by
  induction h with
  | root => simp
  | @step x p path hp hrest ih =>
    refine List.nodup_cons.mpr ⟨fun hx => ?_, ih⟩
    have hway : Ascent w x (p :: path) := .step hp hrest
    obtain ⟨before, after, hpath, hafter⟩ := hway.exists_suffix hx
    have hlength := congrArg List.length (hway.unique hafter)
    rw [hpath, List.length_append, List.length_cons] at hlength
    omega

end Ascent

/-! ## Forests -/

/-- The links of a world are those of a forest. -/
structure Forest (w : World (Kind U)) : Prop where
  /-- Both sides of a link agree. -/
  linked : ∀ p c, c ∈ w.childrenOf p ↔ w.parentOf? c = some p
  /-- Links are stored for valid entities only. -/
  holders : ∀ x, (w.stored? .node x).isSome → w.isValid x = true
  parents : ∀ {c p}, w.parentOf? c = some p → w.isValid p = true ∧ (w.node? p).isSome
  children : ∀ {p c}, c ∈ w.childrenOf p → w.isValid c = true ∧ (w.node? c).isSome
  /-- No child is listed twice. -/
  nodup : ∀ p, (w.childrenOf p).Nodup
  notNull : ∀ {p c}, c ∈ w.childrenOf p → c.isNull = false
  /-- The way up from an entity ends at a root, and meets nobody twice. -/
  rooted : ∀ x, ∃ path, w.Ascent x path ∧ (x :: path).Nodup

theorem isSome_node?_of_parentOf? (h : w.parentOf? c = some p) : (w.node? c).isSome := by
  cases hnode : w.node? c with
  | none =>
    rw [parentOf?, hnode] at h
    cases h
  | some node => rfl

theorem isSome_node?_of_mem (hc : c ∈ w.childrenOf p) : (w.node? p).isSome := by
  cases hnode : w.node? p with
  | none =>
    rw [childrenOf, hnode] at hc
    cases hc
  | some node => rfl

/-- The clauses of a forest that the others follow from. -/
theorem forest_of (hwf : w.Wf) (linked : ∀ p c, c ∈ w.childrenOf p ↔ w.parentOf? c = some p)
    (holders : ∀ x, (w.stored? .node x).isSome → w.isValid x = true)
    (parents : ∀ {c p}, w.parentOf? c = some p → (w.node? p).isSome)
    (nodup : ∀ p, (w.childrenOf p).Nodup) (rooted : ∀ x, ∃ path, w.Ascent x path) : w.Forest := by
  have hchild : ∀ {p c}, c ∈ w.childrenOf p → w.isValid c = true ∧ (w.node? c).isSome := by
    intro p c hc
    have hnode := isSome_node?_of_parentOf? ((linked p c).mp hc)
    exact ⟨isValid_of_node? hnode, hnode⟩
  exact
    { linked := linked
      holders := holders
      parents := fun hp => ⟨isValid_of_node? (parents hp), parents hp⟩
      children := hchild
      nodup := nodup
      notNull := fun hc => hwf.table.isNull_eq_false (hchild hc).1
      rooted := fun x => by
        obtain ⟨path, hpath⟩ := rooted x
        exact ⟨path, hpath, hpath.nodup⟩ }

/-- A world without links is a forest. -/
theorem forest_of_bare (hwf : w.Wf) (h : ∀ x, w.stored? .node x = none) : w.Forest := by
  have hnode : ∀ x, w.node? x = none := fun x => by
    rw [World.node?, get?_eq_stored?, h]
    exact ite_self _
  have hparent : ∀ x, w.parentOf? x = none := fun x => by rw [parentOf?, hnode]; rfl
  have hchildren : ∀ x, w.childrenOf x = [] := fun x => by rw [childrenOf, hnode]; rfl
  refine forest_of hwf (fun p c => ?_) (fun x hx => ?_) (fun {c p} hp => ?_) (fun p => ?_)
    fun x => ⟨[], .root (hparent x)⟩
  · rw [hchildren, hparent]
    simp
  · rw [h] at hx
    cases hx
  · rw [hparent] at hp
    cases hp
  · rw [hchildren]
    exact List.nodup_nil

/-- Links between roots and their children only can be checked entity by entity. -/
theorem forest_of_flat (hwf : w.Wf) (hsettled : w.Settled)
    (hchildren : ∀ p ∈ w.handles, (w.childrenOf p).Nodup ∧
      ∀ c ∈ w.childrenOf p, w.parentOf? c = some p)
    (hparents : ∀ c ∈ w.handles, ∀ p ∈ w.parentOf? c,
      c ∈ w.childrenOf p ∧ w.parentOf? p = none) : w.Forest := by
  have hhandle : ∀ {x}, (w.node? x).isSome → x ∈ w.handles := fun hx =>
    (Entity.Table.mem_toList_iff hwf.table).mpr (isValid_of_node? hx)
  have hparent : ∀ {c p}, w.parentOf? c = some p →
      c ∈ w.childrenOf p ∧ w.parentOf? p = none := fun {c p} hp =>
    hparents c (hhandle (isSome_node?_of_parentOf? hp)) p hp
  refine forest_of hwf
    (fun p c => ⟨fun hc => (hchildren p (hhandle (isSome_node?_of_mem hc))).2 c hc, fun hp => (hparent hp).1⟩)
    (fun x hx => ?_) (fun hp => isSome_node?_of_mem (hparent hp).1) (fun p => ?_) fun x => ?_
  · obtain ⟨node, hnode⟩ := Option.isSome_iff_exists.mp hx
    obtain ⟨id, hrow⟩ := hwf.exists_holds_of_stored? hnode
    exact ((accepts_iff w x).mp (hsettled.accepts hwf hrow)).1
  · by_cases hp : p ∈ w.handles
    · exact (hchildren p hp).1
    · have hnone : w.childrenOf p = [] :=
        List.eq_nil_iff_forall_not_mem.mpr fun c hc => hp (hhandle (isSome_node?_of_mem hc))
      rw [hnone]
      exact List.nodup_nil
  · cases hx : w.parentOf? x with
    | none => exact ⟨[], .root hx⟩
    | some p => exact ⟨[p], .step hx (.root (hparent hx).2)⟩

/-- Parents and children are as they were. -/
theorem forest_of_links (h : w.Forest) (hwf : w'.Wf)
    (hparent : ∀ x, w'.parentOf? x = w.parentOf? x)
    (hchildren : ∀ x, w'.childrenOf x = w.childrenOf x)
    (hnode : ∀ x, (w.node? x).isSome → (w'.node? x).isSome)
    (hholders : ∀ x, (w'.stored? .node x).isSome → w'.isValid x = true) : w'.Forest := by
  have hway : ∀ {x path}, w.Ascent x path → w'.Ascent x path := by
    intro x path hpath
    induction hpath with
    | root hroot => exact .root ((hparent _).trans hroot)
    | step hp _ ih => exact .step ((hparent _).trans hp) ih
  refine forest_of hwf (fun p c => ?_) hholders (fun {c p} hp => ?_) (fun p => ?_) fun x => ?_
  · rw [hchildren, hparent]
    exact h.linked p c
  · rw [hparent] at hp
    exact hnode p (h.parents hp).2
  · rw [hchildren]
    exact h.nodup p
  · obtain ⟨path, hpath, -⟩ := h.rooted x
    exact ⟨path, hway hpath⟩

/-- Links are stored as they were, and nobody who has some is gone. -/
theorem forest_of_stored (h : w.Forest) (hwf : w'.Wf)
    (hstored : ∀ x, w'.stored? .node x = w.stored? .node x)
    (hvalid : ∀ x, (w.stored? .node x).isSome → w'.isValid x = true) : w'.Forest := by
  have hnode : ∀ x, w'.node? x = w.node? x := fun x => by
    rw [World.node?, World.node?, get?_eq_stored?, get?_eq_stored?, hstored]
    cases hx : w.stored? .node x with
    | none => rw [ite_self, ite_self]
    | some node =>
      have hsome : (w.stored? .node x).isSome := by rw [hx]; rfl
      rw [if_pos (hvalid x hsome), if_pos (h.holders x hsome)]
  refine forest_of_links h hwf (fun x => ?_) (fun x => ?_) (fun x hx => ?_) fun x hx => ?_
  · rw [parentOf?, parentOf?, hnode]
  · rw [childrenOf, childrenOf, hnode]
  · rw [hnode]
    exact hx
  · exact hvalid x (hstored x ▸ hx)

/-- An entity is given links that lead nowhere. A row that another generation of its index
left behind is gone. -/
theorem forest_attach (h : w.Forest) (hwf : w'.Wf)
    (hentities : w'.entities = w.entities) (he : w.isValid e = true)
    (hnone : w.stored? .node e = none)
    (hstored : ∀ x, w'.stored? .node x = if x = e then some TreeNode.isolated
      else if x.index = e.index then none else w.stored? .node x) : w'.Forest := by
  have hvalid : ∀ x, w'.isValid x = w.isValid x := isValid_congr hentities
  have hold : w.node? e = none := by rw [World.node?, get?_eq_stored?, hnone, ite_self]
  have hnode : ∀ x, w'.node? x = if x = e then some TreeNode.isolated else w.node? x := by
    intro x
    rw [World.node?, World.node?, get?_eq_stored?, get?_eq_stored?, hvalid, hstored]
    by_cases hx : x = e
    · rw [if_pos hx, if_pos hx, hx, if_pos he]
    · rw [if_neg hx, if_neg hx]
      by_cases hv : w.isValid x = true
      · have hindex : x.index ≠ e.index := fun hi =>
          hx (Entity.Table.eq_of_isAlive he hv hi)
        rw [if_neg hindex]
      · rw [if_neg hv, if_neg hv]
  refine forest_of_links h hwf (fun x => ?_) (fun x => ?_) (fun x hx => ?_) fun x hx => ?_
  · rw [parentOf?, parentOf?, hnode]
    split
    · rename_i hxe
      rw [hxe, hold]
      rfl
    · rfl
  · rw [childrenOf, childrenOf, hnode]
    split
    · rename_i hxe
      rw [hxe, hold]
      rfl
    · rfl
  · rw [hnode]
    split
    · rfl
    · exact hx
  · rw [hvalid]
    rw [hstored] at hx
    split at hx
    · rename_i hxe
      rw [hxe, he]
    · split at hx
      · cases hx
      · exact h.holders x hx

/-! ## Walks up -/

/-- A walk up finds what is on the way, as far as it goes. -/
theorem climb_of_ascent (h : w.Forest) (hpath : w.Ascent x path) (steps : Nat) :
    w.climb steps x = path.take steps := by
  induction steps generalizing x path with
  | zero => rfl
  | succ steps ih =>
    unfold climb validParentOf?
    cases hpath with
    | root hroot =>
      rw [hroot]
      rfl
    | step hp hrest =>
      rw [hp, Option.filter_some, if_pos (h.parents hp).1]
      exact congrArg _ (ih hrest)

/-- There are no more nodes on the way up than are alive. -/
theorem length_le_aliveCount_of_ascent (h : w.Forest) (hwf : w.Wf) (hpath : w.Ascent x path) :
    path.length ≤ w.aliveCount := by
  have hvalid : ∀ y ∈ path, w.isValid y = true := by
    intro y hy
    induction hpath with
    | root => cases hy
    | step hp _ ih =>
      rcases List.mem_cons.mp hy with rfl | hy
      · exact (h.parents hp).1
      · exact ih hy
  exact Entity.Table.length_le_aliveCount hwf.table (List.nodup_cons.mp hpath.nodup).2 hvalid

/-- A walk up is not cut short. -/
theorem ancestors_of_ascent (h : w.Forest) (hwf : w.Wf) (hpath : w.Ascent x path) :
    w.ancestors x = path := by
  rw [ancestors, climb_of_ascent h hpath,
    List.take_of_length_le (length_le_aliveCount_of_ascent h hwf hpath)]

/-! ## Links that are made and cut -/

/-- A way up that does not go through an entity stays when this one gets another parent. -/
theorem ascent_of_not_mem (hparent : ∀ x, x ≠ c → w'.parentOf? x = w.parentOf? x)
    (hpath : w.Ascent x path) (hx : x ≠ c) (hc : c ∉ path) : w'.Ascent x path := by
  induction hpath with
  | root hroot => exact .root ((hparent _ hx).trans hroot)
  | @step x p path hp _ ih =>
    rw [List.mem_cons, not_or] at hc
    obtain ⟨hpc, hrest⟩ := hc
    exact .step ((hparent _ hx).trans hp) (ih (Ne.symm hpc) hrest)

/-- A root becomes a child of an entity that is not below it. -/
theorem forest_link (h : w.Forest) (hwf : w'.Wf) (hroot : w.parentOf? c = none)
    (hp : (w.node? p).isSome) (hne : p ≠ c) (habove : ∀ path, w.Ascent p path → c ∉ path)
    (hparent : ∀ x, w'.parentOf? x = if x = c then some p else w.parentOf? x)
    (hchildren : ∀ x y, y ∈ w'.childrenOf x ↔ (x = p ∧ y = c) ∨ y ∈ w.childrenOf x)
    (hnodup : ∀ x, (w'.childrenOf x).Nodup)
    (hnode : ∀ x, (w.node? x).isSome → (w'.node? x).isSome)
    (hholders : ∀ x, (w'.stored? .node x).isSome → w'.isValid x = true) : w'.Forest := by
  have hother : ∀ x, x ≠ c → w'.parentOf? x = w.parentOf? x := fun x hx => by
    rw [hparent, if_neg hx]
  -- from the parent the way up is the old one, and the child is put in front of it
  have hway : ∃ path, w'.Ascent c path := by
    obtain ⟨path, hpath, -⟩ := h.rooted p
    refine ⟨p :: path, .step ?_ (ascent_of_not_mem hother hpath hne (habove path hpath))⟩
    rw [hparent, if_pos rfl]
  refine forest_of hwf (fun q y => ?_) hholders (fun {y q} hq => ?_) hnodup fun x => ?_
  · rw [hchildren, hparent]
    by_cases hy : y = c
    · subst hy
      rw [if_pos rfl, h.linked, hroot]
      simp [eq_comm]
    · rw [if_neg hy, ← h.linked]
      simp [hy]
  · rw [hparent] at hq
    split at hq
    · obtain rfl := Option.some.inj hq
      exact hnode p hp
    · exact hnode q (h.parents hq).2
  · obtain ⟨path, hpath, -⟩ := h.rooted x
    induction hpath with
    | @root x hx =>
      by_cases hxc : x = c
      · exact hxc ▸ hway
      · exact ⟨[], .root ((hother x hxc).trans hx)⟩
    | @step x q path hq _ ih =>
      have hxc : x ≠ c := by
        rintro rfl
        rw [hroot] at hq
        cases hq
      obtain ⟨path', hpath'⟩ := ih
      exact ⟨q :: path', .step ((hother x hxc).trans hq) hpath'⟩

/-- A child becomes a root. -/
theorem forest_unlink (h : w.Forest) (hwf : w'.Wf)
    (hparent : ∀ x, w'.parentOf? x = if x = c then none else w.parentOf? x)
    (hchildren : ∀ x y, y ∈ w'.childrenOf x ↔ y ∈ w.childrenOf x ∧ y ≠ c)
    (hnodup : ∀ x, (w'.childrenOf x).Nodup)
    (hnode : ∀ x, (w.node? x).isSome → (w'.node? x).isSome)
    (hholders : ∀ x, (w'.stored? .node x).isSome → w'.isValid x = true) : w'.Forest := by
  refine forest_of hwf (fun q y => ?_) hholders (fun {y q} hq => ?_) hnodup fun x => ?_
  · rw [hchildren, hparent, h.linked]
    by_cases hy : y = c
    · simp [hy]
    · simp [hy]
  · rw [hparent] at hq
    split at hq
    · cases hq
    · exact hnode q (h.parents hq).2
  · obtain ⟨path, hpath, -⟩ := h.rooted x
    induction hpath with
    | @root x hx =>
      refine ⟨[], .root ?_⟩
      rw [hparent, hx]
      exact ite_self _
    | @step x q path hq _ ih =>
      by_cases hxc : x = c
      · refine ⟨[], .root ?_⟩
        rw [hparent, if_pos hxc]
      · obtain ⟨path', hpath'⟩ := ih
        refine ⟨q :: path', .step ?_ hpath'⟩
        rw [hparent, if_neg hxc, hq]

/-! ## Cascades -/

theorem parentOf?_unlinkedNode? (w : World (Kind U)) (e x : Entity) :
    ((w.unlinkedNode? e x).map (·.parent)).filter (!·.isNull) = w.parentOf? x := by
  unfold unlinkedNode?
  split
  · rw [Option.map_map]
    rfl
  · rfl

/-- An entity is a child of its parent only. -/
theorem childrenOf_unlinkedNode? (hlinked : ∀ p c, c ∈ w.childrenOf p ↔ w.parentOf? c = some p)
    (e x : Entity) :
    ((w.unlinkedNode? e x).map (·.children)).getD [] = (w.childrenOf x).filter (· != e) := by
  unfold unlinkedNode?
  split
  · rw [Option.map_map, childrenOf]
    cases w.node? x <;> rfl
  · rename_i hx
    show w.childrenOf x = _
    refine (List.filter_eq_self.mpr fun y hy => bne_iff_ne.mpr ?_).symm
    rintro rfl
    exact hx ((hlinked x y).mp hy)

/-- In a forest the children that are below an entity have their parent there, but for the
entity itself. -/
theorem Forest.below_parent (h : w.Forest) (hx : w.Below e x) (hne : x ≠ e)
    (hp : w.parentOf? x = some p) : w.Below e p := by
  rcases Relation.ReflTransGen.cases_tail hx with rfl | ⟨y, hy, hxy⟩
  · exact absurd rfl hne
  · rw [h.linked, hp] at hxy
    exact Option.some.inj hxy ▸ hy

/-- What is below an entity is gone, and its parent has lost it. The links of all others are
as they were. -/
structure Culled (w : World (Kind U)) (e : Entity) (w' : World (Kind U)) : Prop where
  wf : w'.Wf
  valid : ∀ x, w'.isValid x = true ↔ w.isValid x = true ∧ ¬ w.Below e x
  node? : ∀ x, ¬ w.Below e x → w'.node? x = w.unlinkedNode? e x
  holders : ∀ x, (w'.stored? .node x).isSome → w'.isValid x = true

section Culled

variable (h : w.Forest) (hculled : w.Culled e w')

include hculled in
theorem node?_culled (hx : w.Below e x) : w'.node? x = none := by
  refine node?_of_not_isValid (Bool.eq_false_iff.mpr fun hv => ?_)
  exact ((hculled.valid x).mp hv).2 hx

include hculled in
theorem parentOf?_culled (hx : ¬ w.Below e x) : w'.parentOf? x = w.parentOf? x := by
  rw [parentOf?, hculled.node? x hx, parentOf?_unlinkedNode?]

include h hculled in
theorem childrenOf_culled (hx : ¬ w.Below e x) :
    w'.childrenOf x = (w.childrenOf x).filter (· != e) := by
  rw [childrenOf, hculled.node? x hx, childrenOf_unlinkedNode? h.linked]

include h hculled in
/-- What is left has the parent that it had, and that is left too. -/
theorem parentOf?_of_culled (hp : w'.parentOf? x = some p) :
    ¬ w.Below e x ∧ ¬ w.Below e p ∧ w.parentOf? x = some p := by
  have hx : ¬ w.Below e x := by
    intro hx
    rw [parentOf?, node?_culled hculled hx] at hp
    cases hp
  rw [parentOf?_culled hculled hx] at hp
  exact ⟨hx, fun hb => hx (hb.child ((h.linked p x).mpr hp)), hp⟩

include hculled in
theorem isSome_node?_culled (hx : ¬ w.Below e x) (hn : (w.node? x).isSome) :
    (w'.node? x).isSome := by
  rw [hculled.node? x hx, unlinkedNode?]
  split
  · rw [Option.isSome_map]
    exact hn
  · exact hn

include h hculled in
theorem linked_culled (p c : Entity) : c ∈ w'.childrenOf p ↔ w'.parentOf? c = some p := by
  constructor
  · intro hc
    have hp : ¬ w.Below e p := by
      intro hp
      rw [childrenOf, node?_culled hculled hp] at hc
      cases hc
    rw [childrenOf_culled h hculled hp, List.mem_filter, bne_iff_ne] at hc
    have hlink := (h.linked p c).mp hc.1
    rw [parentOf?_culled hculled fun hb => hp (h.below_parent hb hc.2 hlink), hlink]
  · intro hlink
    obtain ⟨hc, hp, hlink⟩ := parentOf?_of_culled h hculled hlink
    rw [childrenOf_culled h hculled hp, List.mem_filter, bne_iff_ne]
    refine ⟨(h.linked p c).mpr hlink, ?_⟩
    rintro rfl
    exact hc (.refl w c)

include h hculled in
/-- The way up is cut short where it enters what is gone. -/
theorem ascent_culled (hpath : w.Ascent x path) : ∃ path', w'.Ascent x path' := by
  induction hpath with
  | @root x hx =>
    refine ⟨[], .root ?_⟩
    by_contra hp
    obtain ⟨p, hp⟩ := Option.ne_none_iff_exists'.mp hp
    rw [(parentOf?_of_culled h hculled hp).2.2] at hx
    cases hx
  | @step x p path hp _ ih =>
    by_cases hx : w.Below e x
    · refine ⟨[], .root ?_⟩
      rw [parentOf?, node?_culled hculled hx]
      rfl
    · obtain ⟨path', hpath'⟩ := ih
      exact ⟨p :: path', .step ((parentOf?_culled hculled hx).trans hp) hpath'⟩

include h hculled in
/-- What is below an entity goes, and the rest is a forest. -/
theorem forest_culled : w'.Forest := by
  refine forest_of hculled.wf (linked_culled h hculled) hculled.holders (fun {c p} hp => ?_)
    (fun p => ?_) fun x => ?_
  · obtain ⟨-, hpb, hlink⟩ := parentOf?_of_culled h hculled hp
    exact isSome_node?_culled hculled hpb (h.parents hlink).2
  · by_cases hp : w.Below e p
    · rw [childrenOf, node?_culled hculled hp]
      exact List.nodup_nil
    · rw [childrenOf_culled h hculled hp]
      exact (h.nodup p).filter _
  · obtain ⟨path, hpath, -⟩ := h.rooted x
    exact ascent_culled h hculled hpath

end Culled

/-- A cascade culls. -/
theorem Fallen.culled {tr : List Dispatch} {id : ComponentId} (h : w.Forest) (hwf : w.Wf)
    (hid : w.idOf? .node = some id) (hfallen : w.Fallen e tr w') : w.Culled e w' := by
  refine
    { wf := hfallen.shed.wf
      valid := hfallen.valid
      node? := hfallen.node?
      holders := fun x hx => ?_ }
  have hid' : w'.idOf? .node = some id := (hfallen.shed.tuned.idOf? _).trans hid
  rw [← hfallen.shed.wf.holds_eq_isSome hid', hfallen.shed.holds] at hx
  have hv := h.holders x (by rw [← hwf.holds_eq_isSome hid, hx.1])
  exact (hfallen.valid x).mpr ⟨hv, fun hb => hx.2 ⟨hb, hv⟩⟩

end EntityScene.World
