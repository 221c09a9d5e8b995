import Mathlib.Data.List.Perm.Basic
import EntityScene.Program.Edit
import EntityScene.Proofs.Tending

/-!
# Edits of the tree keep the forest

The edits that are made of calls check first, and then change one side of a link and the
other. In between the two sides disagree, and only readers see that; after the second they
agree again.

- `World.Relinked`: both sides of a link were changed.
- `World.checkLink_ok`, `World.checkUnlink_ok`: what the checks promise.
- `World.forest_of_checkLink`, `World.forest_of_checkUnlink`: after an edit that was checked
  the links are those of a forest.
- `Machine.yields_link`, `yields_removeChild`, `yields_detach`, `yields_reparent`,
  `yields_spawnNode`, `yields_spawnChild`, `yields_clear`: the edits.
-/

namespace EntityScene

/-- The parent's side of a new link: the child enters, if it is not there yet, and the parent
of the parent stays. -/
structure TreeNode.Enters (c : Entity) (f : TreeNode → TreeNode) : Prop where
  parent : ∀ node, (f node).parent = node.parent
  mem : ∀ node x, x ∈ (f node).children ↔ x = c ∨ x ∈ node.children
  nodup : ∀ node, c ∉ node.children → node.children.Nodup → (f node).children.Nodup

theorem TreeNode.enters_insertChild (c : Entity) (position : TreeNode → Nat) :
    Enters c fun node => node.insertChild (position node) c :=
  { parent := fun _ => rfl
    mem := fun node x => mem_children_insertChild node (position node) c x
    nodup := fun node hc hnodup => by
      have hperm := List.perm_insertIdx c node.children (Nat.min_le_right (position node) _)
      exact hperm.nodup_iff.mpr (List.nodup_cons.mpr ⟨hc, hnodup⟩) }

namespace World

variable {U : Type} [SceneFamily U] [DecidableEq U] {w w' w'' : World (Kind U)}
variable {p c q : Entity} {f : TreeNode → TreeNode}

/-! ## Both sides of a link -/

/-- The links of one entity were changed, and then another entity got another parent. -/
structure Relinked (w : World (Kind U)) (p c : Entity) (f : TreeNode → TreeNode) (q : Entity)
    (w' : World (Kind U)) : Prop where
  undisturbed : Undisturbed (· ≠ .node) w w'
  node? : ∀ x, w'.node? x = if x = c then (w.node? c).map (·.setParent q)
    else if x = p then (w.node? p).map f else w.node? x
  rows : ∀ x, (w'.stored? .node x).isSome = (w.stored? .node x).isSome

theorem Revised.relinked (hne : p ≠ c) (h : Revised w .node p f w')
    (h' : Revised w' .node c (TreeNode.setParent · q) w'') : Relinked w p c f q w'' :=
  { undisturbed := h.undisturbed.trans h'.undisturbed
    node? := fun x => by
      have hc : w'.node? c = w.node? c := (h.get? c).trans (if_neg hne.symm)
      refine (h'.get? x).trans ?_
      split
      · exact congrArg _ hc
      · exact h.get? x
    rows := fun x => (h'.rows x).trans (h.rows x) }

namespace Relinked

theorem isSome_node? (h : Relinked w p c f q w') (x : Entity) :
    (w'.node? x).isSome = (w.node? x).isSome := by
  rw [h.node?]
  split
  · rename_i hx
    rw [Option.isSome_map, hx]
  · split
    · rename_i hx
      rw [Option.isSome_map, hx]
    · rfl

theorem holders (h : Relinked w p c f q w') (hforest : w.Forest) (x : Entity)
    (hx : (w'.stored? .node x).isSome) : w'.isValid x = true := by
  rw [h.undisturbed.isValid]
  rw [h.rows] at hx
  exact hforest.holders x hx

theorem parentOf? (h : Relinked w p c f q w') (hf : ∀ node, (f node).parent = node.parent)
    (hc : (w.node? c).isSome) (x : Entity) :
    w'.parentOf? x = if x = c then (if q.isNull then none else some q) else w.parentOf? x := by
  rw [World.parentOf?, h.node?, World.parentOf?]
  split
  · obtain ⟨node, hnode⟩ := Option.isSome_iff_exists.mp hc
    rw [hnode]
    show (some q).filter (!·.isNull) = _
    cases hq : q.isNull <;> simp [hq]
  · split
    · rename_i hx
      rw [hx, Option.map_map]
      exact congrArg (Option.filter _ <| Option.map · _) (funext hf)
    · rfl

theorem childrenOf (h : Relinked w p c f q w') (hne : p ≠ c) (x : Entity) :
    w'.childrenOf x = if x = p then ((w.node? p).map fun node => (f node).children).getD []
      else w.childrenOf x := by
  rw [World.childrenOf, h.node?, World.childrenOf]
  split
  · rename_i hx
    rw [if_neg (hx ▸ hne.symm), hx, Option.map_map]
    rfl
  · split
    · rw [Option.map_map]
      rfl
    · rfl

end Relinked

/-! ## What the checks promise -/

theorem checkLink_ok (h : w.checkLink p c = .ok ()) :
    p ≠ c ∧ (∃ node, w.node? p = some node) ∧
      (∃ node, w.node? c = some node ∧ node.isRoot = true) ∧ w.isAncestor c p = false := by
  obtain ⟨hne, ⟨above, hp⟩, ⟨below, hc, hroot⟩, hcycle⟩ := (checkLink_eq_ok_iff w p c).mp h
  exact ⟨hne, ⟨above, ((nodeOf_eq_ok_iff _ _ _).mp hp).2⟩,
    ⟨below, ((nodeOf_eq_ok_iff _ _ _).mp hc).2, hroot⟩, hcycle⟩

theorem checkUnlink_ok (hwf : w.entities.Wf) (h : w.checkUnlink p c = .ok ()) :
    w.parentOf? c = some p := by
  obtain ⟨⟨above, hp, -⟩, below, hc, hparent⟩ := (checkUnlink_eq_ok_iff w p c).mp h
  have hsome : (w.node? p).isSome := by rw [((nodeOf_eq_ok_iff _ _ _).mp hp).2]; rfl
  have hnull : p.isNull = false := hwf.isNull_eq_false (isValid_of_node? hsome)
  exact (parentOf?_eq_some_iff ((nodeOf_eq_ok_iff _ _ _).mp hc).2).mpr ⟨hparent, hnull⟩

/-! ## After an edit -/

/-- What is above an entity is found when a link is checked. -/
theorem Forest.not_mem_of_ascent (h : w.Forest) (hwf : w.Wf) (hcycle : w.isAncestor c p = false)
    {path : List Entity} (hpath : w.Ascent p path) : c ∉ path := by
  intro hc
  rw [isAncestor, ancestors_of_ascent h hwf hpath, List.contains_iff_mem.mpr hc] at hcycle
  cases hcycle

theorem forest_of_checkLink (h : w.Forest) (hwf : w.Wf) (hcheck : w.checkLink p c = .ok ())
    (henter : TreeNode.Enters c f) (hw : Relinked w p c f p w') : w'.Forest := by
  obtain ⟨hne, ⟨above, hp⟩, ⟨below, hc, hroot⟩, hcycle⟩ := checkLink_ok hcheck
  have hsome : (w.node? p).isSome := by rw [hp]; rfl
  have hnull : p.isNull = false := hwf.table.isNull_eq_false (isValid_of_node? hsome)
  have hparent : w.parentOf? c = none := (parentOf?_eq_none_iff hc).mpr hroot
  have habove : w.childrenOf p = above.children := by rw [childrenOf, hp]; rfl
  have hfresh : c ∉ w.childrenOf p := by
    rw [h.linked, hparent]
    exact Option.some_ne_none p |>.symm
  have hp' : w'.childrenOf p = (f above).children := by
    rw [hw.childrenOf hne, if_pos rfl, hp]
    rfl
  refine forest_link h hw.undisturbed.wf hparent hsome hne
    (fun path hpath => h.not_mem_of_ascent hwf hcycle hpath) (fun x => ?_) (fun x y => ?_)
    (fun x => ?_) (fun x hx => (hw.isSome_node? x).trans hx) (hw.holders h)
  · rw [hw.parentOf? henter.parent (by rw [hc]; rfl), hnull]
    rfl
  · by_cases hx : x = p
    · rw [hx, hp', henter.mem, habove]
      simp
    · rw [hw.childrenOf hne, if_neg hx]
      simp [hx]
  · by_cases hx : x = p
    · rw [hx, hp']
      rw [habove] at hfresh
      exact henter.nodup above hfresh (habove ▸ h.nodup p)
    · rw [hw.childrenOf hne, if_neg hx]
      exact h.nodup x

/-- Nobody is its own parent in a forest. -/
theorem Forest.ne_of_parentOf? (h : w.Forest) (hp : w.parentOf? c = some p) : p ≠ c := by
  rintro rfl
  obtain ⟨path, hpath, hnodup⟩ := h.rooted p
  cases hpath with
  | root hroot =>
    rw [hp] at hroot
    cases hroot
  | step hp' _ =>
    rw [hp] at hp'
    obtain rfl := Option.some.inj hp'
    exact (List.nodup_cons.mp hnodup).1 List.mem_cons_self

theorem forest_of_checkUnlink (h : w.Forest) (hwf : w.Wf) (hcheck : w.checkUnlink p c = .ok ())
    (hw : Relinked w p c (TreeNode.removeChild · c) .null w') : w'.Forest := by
  have hparent := checkUnlink_ok hwf.table hcheck
  have hne := h.ne_of_parentOf? hparent
  have hp' : w'.childrenOf p = (w.childrenOf p).erase c := by
    rw [hw.childrenOf hne, if_pos rfl, childrenOf]
    cases w.node? p <;> rfl
  refine forest_unlink (c := c) h hw.undisturbed.wf (fun x => ?_) (fun x y => ?_) (fun x => ?_)
    (fun x hx => (hw.isSome_node? x).trans hx) (hw.holders h)
  · exact hw.parentOf? (fun _ => rfl) (isSome_node?_of_parentOf? hparent) x
  · by_cases hx : x = p
    · rw [hx, hp', (h.nodup p).mem_erase_iff, and_comm]
    · rw [hw.childrenOf hne, if_neg hx]
      refine ⟨fun hy => ⟨hy, ?_⟩, fun hy => hy.1⟩
      rintro rfl
      rw [h.linked, hparent] at hy
      exact hx (Option.some.inj hy).symm
  · by_cases hx : x = p
    · rw [hx, hp']
      exact (h.nodup p).erase c
    · rw [hw.childrenOf hne, if_neg hx]
      exact h.nodup x

end World

namespace Machine

variable {U σ : Type} [SceneFamily U] [DecidableEq U] {m m' : Machine U σ}
variable {planted : Option ConnectionKey}

/-! ## The edits -/

theorem Worked.of_revised (h : m.Worked planted) {kind : Kind U} {e : Entity}
    {f : Value kind → Value kind} (hrevised : m.world.Revised kind e f m'.world)
    (hhandlers : m'.handlers = m.handlers) (hclaims : m'.claims = m.claims) :
    m'.Worked planted :=
  { wf := hrevised.undisturbed.wf
    rest := h.rest.congr hrevised.undisturbed.entities hrevised.undisturbed.removing
    wired := h.wired.of_attuned hrevised.attuned hhandlers fun _ _ hset => hclaims ▸ hset
    bare := fun hnone x => by
      by_cases hkind : kind = .node
      · subst hkind
        rw [← Option.not_isSome_iff_eq_none, hrevised.rows, h.bare hnone]
        exact Bool.false_ne_true
      · exact (hrevised.undisturbed.stored? (Ne.symm hkind) x).trans (h.bare hnone x) }

theorem yields_patchNode (h : m.Worked planted) (e : Entity) (f : TreeNode → TreeNode) :
    m.Yields planted (Task.patchNode e f : Task U σ Unit) fun _ m' =>
      m.world.Revised .node e f m'.world ∧ m'.Worked planted := by
  refine (yields_patch h .node e f).bind fun _ m' hpost => ?_
  obtain ⟨hrevised, hhandlers, hclaims⟩ := hpost
  exact .pure ⟨hrevised, h.of_revised hrevised hhandlers hclaims⟩

/-- Both sides of a link are changed. Between the two the links are those of no forest. -/
theorem yields_relink {α : Type} {p c q : Entity} {f : TreeNode → TreeNode} (h : m.Worked planted)
    (hne : p ≠ c) (hforest : ∀ w', World.Relinked m.world p c f q w' → w'.Forest)
    {next : Task U σ α} {post : α → Machine U σ → Prop}
    (hnext : ∀ m' : Machine U σ, m'.Tended planted → m'.Yields planted next post) :
    m.Yields planted (do Task.patchNode p f; Task.patchNode c (·.setParent q); next) post := by
  -- readers hear of the first edit, and they leave the links alone
  refine (yields_patchNode h p f).bind fun _ m' hparent => ?_
  refine (yields_patchNode hparent.2 c (·.setParent q)).bind fun _ m'' hchild => ?_
  have hrelinked := hparent.1.relinked hne hchild.1
  exact hnext m'' { hchild.2 with forest := hforest _ hrelinked }

theorem yields_link (h : m.Tended planted) (p c : Entity) {enter : TreeNode → TreeNode}
    (henter : TreeNode.Enters c enter) :
    m.Yields planted (Task.link p c enter) fun _ m' => m'.Tended planted := by
  refine .look ?_
  cases hcheck : m.world.checkLink p c with
  | error refusal => exact .pure h
  | ok _ =>
    refine yields_relink h.toWorked (World.checkLink_ok hcheck).1 (fun w' hw' => ?_)
      fun m' hm' => .pure hm'
    exact World.forest_of_checkLink h.forest h.wf hcheck henter hw'

theorem yields_insertChild (h : m.Tended planted) (p c : Entity) (position : Nat) :
    m.Yields planted (Task.insertChild p c position) fun _ m' => m'.Tended planted :=
  yields_link h p c (TreeNode.enters_insertChild c fun _ => position)

theorem yields_appendChild (h : m.Tended planted) (p c : Entity) :
    m.Yields planted (Task.appendChild p c) fun _ m' => m'.Tended planted :=
  yields_link h p c (TreeNode.enters_insertChild c fun node => node.children.length)

theorem yields_removeChild (h : m.Tended planted) (p c : Entity) :
    m.Yields planted (Task.removeChild p c) fun _ m' => m'.Tended planted := by
  refine .look ?_
  cases hcheck : m.world.checkUnlink p c with
  | error refusal => exact .pure h
  | ok _ =>
    have hne := h.forest.ne_of_parentOf? (World.checkUnlink_ok h.wf.table hcheck)
    refine yields_relink h.toWorked hne (fun w' hw' => ?_) fun m' hm' => .pure hm'
    exact World.forest_of_checkUnlink h.forest h.wf hcheck hw'

/-- Parents that are stale or on their way out are no parents in a forest at rest. -/
theorem yields_detach (h : m.Tended planted) (c : Entity) :
    m.Yields planted (Task.detach c) fun _ m' => m'.Tended planted := by
  refine .look ?_
  cases hnode : m.world.nodeOf c with
  | error refusal => exact .pure h
  | ok node =>
    obtain ⟨-, hc⟩ := (World.nodeOf_eq_ok_iff _ _ _).mp hnode
    show m.Yields planted (if node.isRoot then _ else _) _
    cases hroot : node.isRoot with
    | true => exact .pure h
    | false =>
      have hparent : m.world.parentOf? c = some node.parent :=
        (World.parentOf?_eq_some_iff hc).mpr ⟨rfl, hroot⟩
      rw [(h.forest.parents hparent).1, h.rest.destroying]
      refine (yields_removeChild h node.parent c).bind fun removed m' hm' => ?_
      cases removed with
      | error refusal => exact .pure hm'
      | ok _ => exact .pure hm'

theorem yields_reparent (h : m.Tended planted) (c p : Entity) :
    m.Yields planted (Task.reparent c p) fun _ m' => m'.Tended planted := by
  refine .look ?_
  show m.Yields planted (if m.world.parentOf? c = some p then _ else _) _
  split
  · exact .pure h
  · cases m.world.checkMove c p with
    | error refusal => exact .pure h
    | ok _ =>
      -- between the two edits the node is a root
      refine (yields_detach h c).bind fun detached m' hm' => ?_
      cases detached with
      | error refusal => exact .pure hm'
      | ok _ => exact yields_appendChild hm' p c

theorem yields_spawnNode (h : m.Tended planted) (hplanted : planted ≠ none) :
    m.Yields planted (Task.spawnNode : Task U σ Entity) fun _ m' => m'.Tended planted := by
  refine (yields_create h).bind fun e m' hm' => ?_
  have hlinks : (Call.emplace .node e (.ok TreeNode.isolated) : Call U).Fair planted :=
    ⟨hplanted, rfl⟩
  have hplacement : (Call.emplace .transform e (.ok Transform.identity) : Call U).Fair planted :=
    trivial
  refine (yields_emplace hm' hlinks).bind fun _ m' hm' => ?_
  exact (yields_emplace hm' hplacement).bind fun _ m' hm' => .pure hm'

theorem yields_spawnChild (h : m.Tended planted) (p : Entity) :
    m.Yields planted (Task.spawnChild p) fun _ m' => m'.Tended planted := by
  refine .look ?_
  cases hnode : m.world.nodeOf p with
  | error refusal => exact .pure h
  | ok node =>
    have hsome : (m.world.node? p).isSome := by
      rw [((World.nodeOf_eq_ok_iff _ _ _).mp hnode).2]
      rfl
    obtain ⟨key, -, -, hkey, -⟩ := h.exists_planted hsome
    refine (yields_spawnNode h (hkey ▸ Option.some_ne_none key)).bind fun c m' hm' => ?_
    refine (yields_appendChild hm' p c).bind fun linked m' hm' => ?_
    cases linked with
    | ok _ => exact .pure hm'
    | error refusal =>
      -- a child that cannot be linked is not kept
      exact (yields_destroy hm' c).bind fun _ m' hm' => .pure hm'

theorem yields_destroyAll (h : m.Tended planted) (es : List Entity) :
    m.Yields planted (Task.destroyAll es : Task U σ Nat) fun _ m' => m'.Tended planted := by
  induction es generalizing m with
  | nil => exact .pure h
  | cons e es ih =>
    refine (yields_destroy h e).bind fun destroyed m' hm' => ?_
    exact (ih hm').bind fun others m' hm' => .pure hm'

theorem yields_clear (h : m.Tended planted) :
    m.Yields planted (Task.clear : Task U σ Nat) fun _ m' => m'.Tended planted :=
  .look (yields_destroyAll h m.world.handles)

/-- A component that is no link is put in place of the one an entity may have. -/
theorem yields_emplaceOrReplace (h : m.Tended planted) {kind : Kind U} (hkind : kind ≠ .node)
    (e : Entity) (v : Value kind) :
    m.Yields planted (Task.emplaceOrReplace kind e v) fun _ m' => m'.Tended planted := by
  refine .look ?_
  show m.Yields planted (if m.world.has kind e then _ else _) _
  split
  · have hpatch : m.Yields planted (Task.patch kind e fun _ => v) fun _ m' => m'.Tended planted :=
      yields_call (c := .patch kind e fun _ => v) h hkind trivial
    exact hpatch.bind fun _ m' hm' => .look (.pure hm')
  · have hfair : (Call.emplace kind e (.ok v)).Fair planted := by
      cases kind with
      | node => exact absurd rfl hkind
      | transform => trivial
      | user kind => trivial
    exact (yields_emplace h hfair).bind fun _ m' hm' => .pure hm'

end Machine

end EntityScene
