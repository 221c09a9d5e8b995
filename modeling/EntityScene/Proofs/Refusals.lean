import EntityScene.Proofs.Absence
import EntityScene.Proofs.Felling
import EntityScene.Proofs.Sparing

/-!
# Refused edits change nothing

An edit of the tree checks first and patches afterwards, so where a check refuses it nothing has
been done. A move is two edits in a row, each with checks of its own: the second could be refused
when the first is done already. It is not, because to detach a node only takes links away. Nobody
gets a parent that was not there, so every way up is a part of what it was, and what the move was
checked against still holds. None of this needs links that agree: they may be one-sided, stale,
or go round in circles.

- `World.Loosened`: some links were taken away, and nothing else of the tree has changed.
- `Loosened.checkLink`: a move that was checked may be finished after that.
- `Machine.Watched`: whoever hears of a change of links leaves the world alone.
- `Machine.Detached`, `Machine.Attached`: what is left of a node's old link, and a link that was made.
- `Machine.AllOrNothing`, `Machine.Decides`: a task is refused and nothing has changed, or it is
  done.
- `decides_link`, `decides_removeChild`, `decides_detach`, `decides_reparent`: so are the edits.
- `Machine.refused_edits_change_nothing`: all of them, and the second half of a move.
-/

namespace EntityScene

variable {U σ : Type} [SceneFamily U] [DecidableEq U]

/-! ## Links that were taken away -/

namespace World

variable {w w' w'' : World (Kind U)} {c e p q : Entity} {f : TreeNode → TreeNode}

/-- Some entities have no parent any more. All other parents are the same, and so is who is there
and who has links. -/
structure Loosened (w w' : World (Kind U)) : Prop where
  entities : w'.entities = w.entities
  linked : ∀ x, (w'.node? x).isSome = (w.node? x).isSome
  parentOf? : ∀ x, w'.parentOf? x = w.parentOf? x ∨ w'.parentOf? x = none

namespace Loosened

theorem refl (w : World (Kind U)) : Loosened w w :=
  { entities := rfl
    linked := fun _ => rfl
    parentOf? := fun _ => .inl rfl }

theorem trans (h : Loosened w w') (h' : Loosened w' w'') : Loosened w w'' :=
  { entities := h'.entities.trans h.entities
    linked := fun x => (h'.linked x).trans (h.linked x)
    parentOf? := fun x => by
      rcases h'.parentOf? x with hx | hx
      · rw [hx]
        exact h.parentOf? x
      · exact .inr hx }

/-- Whose links could be edited has links that can be edited. -/
theorem nodeOf (h : Loosened w w') {node : TreeNode} (hnode : w.nodeOf e = .ok node) :
    ∃ node', w'.nodeOf e = .ok node' := by
  obtain ⟨haccepts, hsome⟩ := (nodeOf_eq_ok_iff w e node).mp hnode
  have hlinked : (w'.node? e).isSome = true := by
    rw [h.linked, hsome]
    rfl
  obtain ⟨node', hsome'⟩ := Option.isSome_iff_exists.mp hlinked
  exact ⟨node', (nodeOf_eq_ok_iff w' e node').mpr
    ⟨(accepts_congr h.entities e).trans haccepts, hsome'⟩⟩

/-- A parent that is valid was the parent before. -/
theorem validParentOf? (h : Loosened w w') (hp : w'.validParentOf? e = some p) :
    w.validParentOf? e = some p := by
  obtain ⟨hparent, hvalid⟩ := Option.filter_eq_some_iff.mp hp
  refine Option.filter_eq_some_iff.mpr ⟨?_, (isValid_congr h.entities p).symm.trans hvalid⟩
  rcases h.parentOf? e with he | he
  · rw [← he, hparent]
  · rw [he] at hparent
    cases hparent

/-- A way up may end earlier than before, but it leads nowhere else. -/
theorem climb_prefix (h : Loosened w w') (steps : Nat) (e : Entity) :
    w'.climb steps e <+: w.climb steps e := by
  induction steps generalizing e with
  | zero => exact List.nil_prefix
  | succ steps ih =>
    rw [climb, climb]
    cases hp : w'.validParentOf? e with
    | none => exact List.nil_prefix
    | some p =>
      rw [h.validParentOf? hp]
      exact List.cons_prefix_cons.mpr ⟨rfl, ih p⟩

theorem isAncestor_eq_false (h : Loosened w w') (hq : w.isAncestor c q = false) :
    w'.isAncestor c q = false := by
  rw [isAncestor, ancestors, List.contains_eq_mem, decide_eq_false_iff_not] at hq ⊢
  rw [aliveCount_congr h.entities]
  exact fun hc => hq ((h.climb_prefix w.aliveCount q).subset hc)

/-- A node that may be moved may be put under its new parent once it is a root. -/
theorem checkLink (h : Loosened w w') (hmove : w.checkMove c q = .ok ())
    (hroot : w'.parentOf? c = none) : w'.checkLink q c = .ok () := by
  obtain ⟨hne, ⟨above, hq⟩, ⟨below, hc⟩, hcycle⟩ := (checkMove_eq_ok_iff w c q).mp hmove
  obtain ⟨below', hc'⟩ := h.nodeOf hc
  have hfree := (parentOf?_eq_none_iff ((nodeOf_eq_ok_iff w' c below').mp hc').2).mp hroot
  exact (checkLink_eq_ok_iff w' q c).mpr
    ⟨hne.symm, h.nodeOf hq, ⟨below', hc', hfree⟩, h.isAncestor_eq_false hcycle⟩

end Loosened

end World

namespace Machine

variable {m m' m₁ : Machine U σ} {c e p q : Entity} {f g : TreeNode → TreeNode}

/-! ## Patches that are watched -/

/-- Whoever hears of a change of links leaves the world alone. -/
def Watched (m : Machine U σ) : Prop :=
  ∀ id, m.world.idOf? .node = some id → ∀ e, m.HushedFor id .update e

theorem watched_of_readers (h : ∀ {id key handler}, m.world.idOf? .node = some id →
    key ∈ m.world.listeners id .update → m.handlers[key]? = some handler → handler.IsReader) :
    m.Watched :=
  fun _ hid e _ hkey => hushed_of_reader (fun _ hhandler => h hid hkey hhandler) e

theorem Watched.congr (h : m.Watched) (hworld : World.Tuned m.world m'.world)
    (hhandlers : m'.handlers = m.handlers) (hclaims : m'.claims = m.claims) : m'.Watched :=
  fun id hid e => (h id ((hworld.idOf? .node).symm.trans hid) e).congr hworld hhandlers hclaims

/-- A change of links does not change who hears of the next. -/
theorem Watched.patch (h : m.Watched) (id : ComponentId) (e : Entity) (f : TreeNode → TreeNode)
    (host : σ) :
    Watched { m with world := ((m.world.edit .node e f).snapshot id .update).2, host } :=
  h.congr ((World.tuned_edit m.world .node e f).trans (World.tuned_snapshot _ id .update)) rfl rfl

/-- The links of one entity were changed, if it has any, and nothing else of the tree. -/
structure Patched (m : Machine U σ) (e : Entity) (f : TreeNode → TreeNode) (m' : Machine U σ) :
    Prop where
  watched : m'.Watched
  entities : m'.world.entities = m.world.entities
  node? : ∀ x, m'.world.node? x = if x = e then (m.world.node? e).map f else m.world.node? x

theorem performs_patchNode (h : m.Watched) (e : Entity) (f : TreeNode → TreeNode) :
    ∃ tr m', m.Patched e f m' ∧ m.Performs (Task.patchNode e f) tr m' () := by
  cases hnode : m.world.node? e with
  | none =>
    refine ⟨[] ++ [], m, ?_, (performs_patch_of_absent hnode f).bind (.pure m ())⟩
    refine { watched := h, entities := rfl, node? := fun x => ?_ }
    split
    · rename_i hx
      rw [hx, hnode]
      rfl
    · rfl
  | some node =>
    have hsome : (m.world.get? .node e).isSome = true := Option.isSome_iff_exists.mpr ⟨node, hnode⟩
    obtain ⟨id, hid⟩ := World.exists_idOf?_of_get? hsome
    obtain ⟨host, hperform⟩ := performs_patch hid hsome (h id hid e) f
    refine ⟨_, _, ?_, hperform.bind (.pure _ ())⟩
    exact
      { watched := h.patch id e f host
        entities := (World.entities_snapshot _ id .update).trans (World.entities_edit ..)
        node? := fun x => by rw [World.node?, World.get?_snapshot, World.get?_edit]; rfl }

section Patched

variable (h : m.Patched e f m')

include h

theorem Patched.node?_self {node : TreeNode} (hnode : m.world.node? e = some node) :
    m'.world.node? e = some (f node) := by
  rw [h.node?, if_pos rfl, hnode]
  rfl

theorem Patched.isSome_node? (x : Entity) :
    (m'.world.node? x).isSome = (m.world.node? x).isSome := by
  rw [h.node?]
  split
  · rename_i hx
    rw [hx, Option.isSome_map]
  · rfl

/-- Children stay where a change leaves the lists alone. -/
theorem Patched.childrenOf (hf : ∀ node, (f node).children = node.children) (x : Entity) :
    m'.world.childrenOf x = m.world.childrenOf x := by
  rw [World.childrenOf, h.node?, World.childrenOf]
  split
  · rename_i hx
    rw [hx, Option.map_map]
    exact congrArg (Option.getD · []) (congrArg (Option.map · _) (funext hf))
  · rfl

end Patched

/-- One side of a link is changed, and then the other. -/
theorem performs_relink {α : Type} (h : m.Watched) (p c : Entity) (f g : TreeNode → TreeNode)
    (a : α) : ∃ tr m₁ m', m.Patched p f m₁ ∧ m₁.Patched c g m' ∧
      m.Performs (do Task.patchNode p f; Task.patchNode c g; return a) tr m' a := by
  obtain ⟨tr₁, m₁, hp, hperform₁⟩ := performs_patchNode h p f
  obtain ⟨tr₂, m', hc, hperform₂⟩ := performs_patchNode hp.watched c g
  exact ⟨_, m₁, m', hp, hc, hperform₁.bind (hperform₂.bind (.pure m' a))⟩

/-- A change that only takes links away. -/
theorem Patched.loosened (h : m.Patched e f m') (hf : TreeNode.Loosens f) :
    World.Loosened m.world m'.world := by
  refine { entities := h.entities, linked := h.isSome_node?, parentOf? := fun x => ?_ }
  · rw [World.parentOf?, h.node?, World.parentOf?]
    split
    · rename_i hx
      subst hx
      cases m.world.node? x with
      | none => exact .inl rfl
      | some node =>
        rw [Option.map_some, Option.map_some, Option.map_some]
        rcases hf.parent node with hparent | hnull
        · rw [hparent]
          exact .inl rfl
        · refine .inr (Option.filter_eq_none_iff.mpr fun q hq => ?_)
          rw [← Option.some.inj hq, hnull]
          exact Bool.false_ne_true
    · exact .inl rfl

/-- A node has become a root, and for that links were only taken away. -/
structure Uprooted (m : Machine U σ) (c : Entity) (m' : Machine U σ) : Prop where
  watched : m'.Watched
  loosened : World.Loosened m.world m'.world
  root : m'.world.parentOf? c = none

theorem Uprooted.refl (h : m.Watched) {node : TreeNode} (hnode : m.world.nodeOf c = .ok node)
    (hroot : node.isRoot = true) : m.Uprooted c m :=
  { watched := h
    loosened := .refl m.world
    root := (World.parentOf?_eq_none_iff ((World.nodeOf_eq_ok_iff _ _ _).mp hnode).2).mpr hroot }

theorem Patched.uprooted (h : m.Patched c (·.setParent .null) m') : m.Uprooted c m' := by
  refine
    { watched := h.watched
      loosened := h.loosened TreeNode.loosens_setParent_null
      root := ?_ }
  rw [World.parentOf?, h.node?, if_pos rfl]
  cases m.world.node? c <;> rfl

/-- A parent that lost a child does not list it in the end. -/
theorem Patched.left {below : TreeNode} (hnode : m.world.node? c = some below)
    (h : m.Patched below.parent f m₁) (h' : m₁.Patched c (·.setParent .null) m')
    (hf : ∀ node, node.children.Nodup → c ∉ (f node).children)
    (hp : m.world.parentOf? c = some p) (hnodup : (m.world.childrenOf p).Nodup) :
    c ∉ m'.world.childrenOf p := by
  obtain ⟨rfl, -⟩ := (World.parentOf?_eq_some_iff hnode).mp hp
  rw [h'.childrenOf fun _ => rfl, World.childrenOf, h.node?, if_pos rfl, Option.map_map]
  rw [World.childrenOf] at hnodup
  cases habove : m.world.node? below.parent with
  | none => exact List.not_mem_nil
  | some above =>
    rw [habove] at hnodup
    exact hf above hnodup

theorem Patched.trans_uprooted (h : m.Patched p f m₁) (hf : TreeNode.Loosens f)
    (h' : m₁.Patched c (·.setParent .null) m') : m.Uprooted c m' :=
  { h'.uprooted with loosened := (h.loosened hf).trans h'.uprooted.loosened }

/-- A node was taken from the parent that it had, and is a root now. -/
structure Detached (m : Machine U σ) (c : Entity) (m' : Machine U σ) : Prop
    extends Uprooted m c m' where
  /-- The parent does not list the node any more, if it listed it no more than once. -/
  left : ∀ p, m.world.parentOf? c = some p → (m.world.childrenOf p).Nodup →
    c ∉ m'.world.childrenOf p

/-- Both sides of a link were changed, which was checked before. -/
structure Attached (m : Machine U σ) (p c : Entity) (enter : TreeNode → TreeNode)
    (m' : Machine U σ) : Prop where
  checked : m.world.checkLink p c = .ok ()
  patched : ∃ m₁, m.Patched p enter m₁ ∧ m₁.Patched c (·.setParent p) m'

/-! ## Tasks that are refused, or done -/

/-- The task comes to its end. Where it is refused nothing was published, and the machine is what it
was, but for what it goes on with. -/
structure AllOrNothing {α : Type} (m : Machine U σ) (task : Task U σ (Except EditError α)) :
    Prop where
  ends : ∃ tr m' a, m.Performs task tr m' a
  refused : ∀ {tr m' refusal}, m.Performs task tr m' (.error refusal) →
    tr = [] ∧ m' = m.on m'.stack m'.control

/-- The task is refused, and nothing has changed, or it is done. -/
inductive Decides {α : Type} (m : Machine U σ) (task : Task U σ (Except EditError α))
    (done : Machine U σ → Prop) : Prop
  | refused (refusal : EditError) (h : m.Performs task [] m (.error refusal))
  | done {tr : List Dispatch} {m' : Machine U σ} {a : α} (h : m.Performs task tr m' (.ok a))
      (hdone : done m')

/-- A task that looks at the world first. -/
theorem Decides.look {α : Type} {f : World (Kind U) → Task U σ (Except EditError α)}
    {done : Machine U σ → Prop} (h : m.Decides (f m.world) done) :
    m.Decides (Task.world >>= f) done := by
  cases h with
  | refused refusal h => exact .refused refusal (.look h)
  | done h hdone => exact .done (.look h) hdone

theorem Decides.allOrNothing {α : Type} {task : Task U σ (Except EditError α)}
    {done : Machine U σ → Prop} (h : m.Decides task done) : m.AllOrNothing task := by
  cases h with
  | refused refusal h =>
    refine { ends := ⟨_, _, _, h⟩, refused := fun h' => ?_ }
    obtain rfl := Except.error.inj (h'.answer_unique h)
    exact h'.unique h
  | done h =>
    refine { ends := ⟨_, _, _, h⟩, refused := fun h' => ?_ }
    cases h'.answer_unique h

/-! ## The edits -/

theorem performs_link (h : m.Watched) (hcheck : m.world.checkLink p c = .ok ())
    (enter : TreeNode → TreeNode) :
    ∃ tr m', m.Attached p c enter m' ∧ m.Performs (Task.link p c enter) tr m' (.ok ()) := by
  obtain ⟨tr, m₁, m', hp, hc, hperform⟩ :=
    performs_relink h p c enter (·.setParent p) (Except.ok ())
  refine ⟨tr, m', ⟨hcheck, m₁, hp, hc⟩, .look ?_⟩
  rw [hcheck]
  exact hperform

theorem decides_link (h : m.Watched) (p c : Entity) (enter : TreeNode → TreeNode) :
    m.Decides (Task.link p c enter) (m.Attached p c enter) := by
  cases hcheck : m.world.checkLink p c with
  | error refusal => exact .refused refusal (performs_link_refused hcheck enter)
  | ok _ =>
    obtain ⟨tr, m', hm', hperform⟩ := performs_link h hcheck enter
    exact .done hperform hm'

theorem performs_removeChild (h : m.Watched) (hcheck : m.world.checkUnlink p c = .ok ()) :
    ∃ tr m', m.Detached c m' ∧ m.Performs (Task.removeChild p c) tr m' (.ok ()) := by
  obtain ⟨-, below, hbelow, rfl⟩ := (World.checkUnlink_eq_ok_iff _ p c).mp hcheck
  have hnode := ((World.nodeOf_eq_ok_iff _ _ _).mp hbelow).2
  obtain ⟨tr, m₁, m', hp, hc, hperform⟩ :=
    performs_relink h below.parent c (·.removeChild c) (·.setParent .null) (Except.ok ())
  refine ⟨tr, m', ⟨hp.trans_uprooted (TreeNode.loosens_removeChild c) hc, ?_⟩, .look ?_⟩
  · exact fun p => Patched.left hnode hp hc fun node hnodup => hnodup.not_mem_erase
  · rw [hcheck]
    exact hperform

theorem decides_removeChild (h : m.Watched) (p c : Entity) :
    m.Decides (Task.removeChild p c) (m.Detached c) := by
  cases hcheck : m.world.checkUnlink p c with
  | error refusal => exact .refused refusal (performs_removeChild_refused hcheck)
  | ok _ =>
    obtain ⟨tr, m', hm', hperform⟩ := performs_removeChild h hcheck
    exact .done hperform hm'

/-- However a node is detached, it is a root in the end, and its parent has lost it. -/
theorem decides_detach (h : m.Watched) (c : Entity) :
    m.Decides (Task.detach c) (m.Detached c) := by
  refine .look ?_
  cases hnode : m.world.nodeOf c with
  | error refusal => exact .refused refusal (.pure m _)
  | ok node =>
    have hsome := ((World.nodeOf_eq_ok_iff _ _ _).mp hnode).2
    show m.Decides (if node.isRoot then _ else if !m.world.isValid node.parent then _
      else if m.world.isDestroying node.parent then _ else _) _
    split
    · rename_i hroot
      have hm : m.Uprooted c m := .refl h hnode hroot
      exact .done (.pure m _) ⟨hm, fun p hp => by rw [hm.root] at hp; cases hp⟩
    split
    · rename_i hstale
      obtain ⟨tr, m', hc, hperform⟩ := performs_patchNode h c (·.setParent .null)
      refine .done (hperform.bind (.pure m' _)) ⟨hc.uprooted, fun p hp _ => ?_⟩
      obtain ⟨rfl, -⟩ := (World.parentOf?_eq_some_iff hsome).mp hp
      rw [hc.childrenOf fun _ => rfl, World.childrenOf_of_not_isValid (by simpa using hstale)]
      exact List.not_mem_nil
    split
    · obtain ⟨tr, m₁, m', hp, hc, hperform⟩ := performs_relink h node.parent c (·.dropChild c)
        (·.setParent .null) (Except.ok (some node.parent))
      refine .done hperform ⟨hp.trans_uprooted (TreeNode.loosens_dropChild c) hc, ?_⟩
      exact fun p => Patched.left hsome hp hc fun above _ hmem =>
        ((TreeNode.mem_children_dropChild above c c).mp hmem).2 rfl
    · cases decides_removeChild h node.parent c with
      | refused refusal hperform => exact .refused refusal (hperform.bind (.pure m _))
      | done hperform hm' => exact .done (hperform.bind (.pure _ _)) hm'

/-- The second half of a move is done if the first is. -/
theorem Uprooted.performs_appendChild (h : m.Uprooted c m₁)
    (hmove : m.world.checkMove c q = .ok ()) :
    ∃ tr m', m₁.Attached q c (fun node => node.insertChild node.children.length c) m' ∧
      m₁.Performs (Task.appendChild q c) tr m' (.ok ()) :=
  performs_link h.watched (h.loosened.checkLink hmove h.root) _

/-- A move that is done has attached the node, unless it was where it should be. -/
theorem decides_reparent (h : m.Watched) (c q : Entity) :
    m.Decides (Task.reparent c q) fun m' => m.world.parentOf? c ≠ some q →
      ∃ m₁, m.Uprooted c m₁ ∧
        m₁.Attached q c (fun node => node.insertChild node.children.length c) m' := by
  refine .look ?_
  show m.Decides (if m.world.parentOf? c = some q then _ else _) _
  split
  · rename_i hparent
    exact .done (.pure m _) fun hne => absurd hparent hne
  cases hmove : m.world.checkMove c q with
  | error refusal => exact .refused refusal (.pure m _)
  | ok _ =>
    cases decides_detach h c with
    | refused refusal hdetach => exact .refused refusal (hdetach.bind (.pure m _))
    | done hdetach hm₁ =>
      obtain ⟨tr, m', hm', happend⟩ := hm₁.performs_appendChild hmove
      exact .done (hdetach.bind happend) fun _ => ⟨_, hm₁.toUprooted, hm'⟩

/-- **Refused edits change nothing.** Whatever the links are, and whoever reads them, an edit of
the tree comes to its end; and if it is refused, nothing was published, and no component, entity
or link has changed. A move that passes its checks and has detached its node is finished. -/
theorem refused_edits_change_nothing (m : Machine U σ) (h : m.Watched) :
    (∀ p c position, m.AllOrNothing (Task.insertChild p c position)) ∧
      (∀ p c, m.AllOrNothing (Task.appendChild p c)) ∧
      (∀ p c, m.AllOrNothing (Task.removeChild p c)) ∧
      (∀ c, m.AllOrNothing (Task.detach c)) ∧
      (∀ c q, m.AllOrNothing (Task.reparent c q)) ∧
      ∀ {c q}, m.world.parentOf? c ≠ some q → m.world.checkMove c q = .ok () →
        ∀ {tr m₁ old}, m.Performs (Task.detach c) tr m₁ (.ok old) →
          ∃ tr' m₂, m₁.Performs (Task.appendChild q c) tr' m₂ (.ok ()) ∧
            m.Performs (Task.reparent c q) (tr ++ tr') m₂ (.ok ()) := by
  refine ⟨fun p c position => (decides_link h p c _).allOrNothing,
    fun p c => (decides_link h p c _).allOrNothing,
    fun p c => (decides_removeChild h p c).allOrNothing,
    fun c => (decides_detach h c).allOrNothing,
    fun c q => (decides_reparent h c q).allOrNothing,
    fun {c q} hparent hmove tr m₁ old hdetach => ?_⟩
  have happend : ∃ tr' m₂, m₁.Performs (Task.appendChild q c) tr' m₂ (.ok ()) := by
    cases decides_detach h c with
    | refused refusal hrefused => cases hdetach.answer_unique hrefused
    | done hdone hm' =>
      obtain rfl := Except.ok.inj (hdetach.answer_unique hdone)
      obtain ⟨-, hsame⟩ := hdetach.unique hdone
      rw [hsame]
      obtain ⟨tr', m₂, -, happend⟩ := hm'.performs_appendChild hmove
      exact ⟨tr', m₂, happend⟩
  obtain ⟨tr', m₂, happend⟩ := happend
  refine ⟨tr', m₂, happend, .look ?_⟩
  show m.Performs (if m.world.parentOf? c = some q then _ else _) _ _ _
  rw [if_neg hparent, hmove]
  exact hdetach.bind happend

end Machine

/-- Three nodes, and then links that no edit leaves behind: the second node is its own parent and
its own child, and the parent of the third does not list it. -/
def tangling : Script Empty Nat :=
  Task.toScript do
    Task.cascade
    let lone ← Task.spawnNode
    let loop ← Task.spawnNode
    let orphan ← Task.spawnNode
    let _ ← Task.edit .node loop fun _ => { parent := loop, children := [loop] }
    let _ ← Task.edit .node orphan fun _ => { parent := lone, children := [] }

/-- The machine with these links, and a reader that counts the changes of links. -/
def tangled : Machine Empty Nat :=
  (((Machine.start 0 tangling).run 60).addHandler .node .update fun _ =>
    .script fun _ => .note (· + 1) .done).2

namespace Machine

theorem watched_tangled : tangled.Watched := by
  refine watched_of_readers fun {id key handler} hid hkey hhandler => ?_
  have hnode : tangled.world.idOf? .node = some 0 := by decide +kernel
  have hlisteners : tangled.world.listeners 0 .update = [1] := by decide +kernel
  have hsize : ((Machine.start 0 tangling).run 60).handlers.size = 1 := by decide +kernel
  have hmade : (((Machine.start 0 tangling).run 60).world.connect .node .update).1 = .ok 1 := by
    decide +kernel
  rw [hnode] at hid
  obtain rfl := Option.some.inj hid
  rw [hlisteners, List.mem_singleton] at hkey
  simp only [hkey, tangled, addHandler, hmade] at hhandler
  rw [← hsize, Array.getElem?_push_size] at hhandler
  obtain rfl := Option.some.inj hhandler
  exact fun _ => .note .done

/-- The second node is detached from itself and put under the first. The third cannot be detached,
so it is not moved, although its move passes its own checks. -/
theorem refused_edits_change_nothing_tangled :
    tangled.Watched ∧
      (∃ tr m, tangled.Performs (Task.reparent ⟨1, .initial⟩ ⟨0, .initial⟩) tr m (.ok ())) ∧
      tangled.world.checkMove ⟨2, .initial⟩ ⟨1, .initial⟩ = .ok () ∧
      ∃ m refusal, m.world = tangled.world ∧
        tangled.Performs (Task.reparent ⟨2, .initial⟩ ⟨1, .initial⟩) [] m (.error refusal) := by
  obtain ⟨-, -, -, hdetach, hreparent, hmove⟩ :=
    refused_edits_change_nothing tangled watched_tangled
  refine ⟨watched_tangled, ?_, by decide +kernel, ?_⟩
  · obtain ⟨tr, m₁, a, hperform⟩ := (hdetach ⟨1, .initial⟩).ends
    have hok : a.isOk = true :=
      hperform.answer_of_run (n := 60) (p := Except.isOk) (by decide +kernel)
    cases a with
    | error refusal => cases hok
    | ok old =>
      obtain ⟨tr', m₂, -, hmoved⟩ := hmove (c := ⟨1, .initial⟩) (q := ⟨0, .initial⟩)
        (by decide +kernel) (by decide +kernel) hperform
      exact ⟨_, m₂, hmoved⟩
  · obtain ⟨tr, m, a, hperform⟩ := (hreparent ⟨2, .initial⟩ ⟨1, .initial⟩).ends
    have herror : (!a.isOk) = true :=
      hperform.answer_of_run (n := 60) (p := fun a => !a.isOk) (by decide +kernel)
    cases a with
    | ok _ => cases herror
    | error refusal =>
      obtain ⟨rfl, hsame⟩ := (hreparent ⟨2, .initial⟩ ⟨1, .initial⟩).refused hperform
      exact ⟨m, refusal, by rw [hsame, on_world], hperform⟩

end Machine

end EntityScene
