import EntityScene.Proofs.Parting

/-!
# Edits within edits

Handlers that hear of an edit make edits themselves, between the two sides of the edit they hear
of. What is under way can be read off the stack: which sides are still to be changed, and which
entities are being destroyed.

- `Script.Editing`: scripts that link, unlink and destroy.
- `pendingEdits`: the edits that wait on a stack.
- `Interleaved`: the frames that edits and destructions leave on a stack.
- `Machine.Upkept`: what holds whenever an edit, a dispatch or a script goes on. The links are
  loose, and the stack says by what.
- `Upkept.of_world`, `Upkept.edit`: kept when links and frames change together.
- `Upkept.runs_destroy`, `Upkept.serves_destroy_bare`, `Upkept.runs_departure`: a destruction up
  to the update of the parent that its cascade makes, and from there on.
-/

namespace EntityScene

variable {U σ : Type} [SceneFamily U] [DecidableEq U]

/-! ## Scripts that edit -/

/-- Scripts that link, unlink and destroy, and may look at the world before they decide. -/
inductive Script.Editing : Script U σ → Prop
  | done : Editing .done
  | inspect {next : World (Kind U) → σ → Script U σ} (h : ∀ w s, (next w s).Editing) :
      Editing (.inspect next)
  | note {f : σ → σ} {next : Script U σ} (h : next.Editing) : Editing (.note f next)
  | link {p c : Entity} {position : TreeNode → Nat}
      {next : Except EditError Unit → Script U σ} (h : ∀ answer, (next answer).Editing) :
      Editing (Task.link p c (fun node => node.insertChild (position node) c) next)
  | removeChild {p c : Entity} {next : Except EditError Unit → Script U σ}
      (h : ∀ answer, (next answer).Editing) : Editing (Task.removeChild p c next)
  | detach {c : Entity} {next : Except EditError (Option Entity) → Script U σ}
      (h : ∀ answer, (next answer).Editing) : Editing (Task.detach c next)
  | destroy {e : Entity} {next : Bool → Script U σ} (h : ∀ b, (next b).Editing) :
      Editing (Task.destroy e next)

namespace Script.Editing

variable {p c : Entity} {next : Except EditError Unit → Script U σ}

theorem insertChild (h : ∀ answer, (next answer).Editing) (p c : Entity) (position : Nat) :
    (Task.insertChild p c position next).Editing :=
  .link h

theorem appendChild (h : ∀ answer, (next answer).Editing) (p c : Entity) :
    (Task.appendChild p c next).Editing :=
  .link h

/-- A node is moved by being detached and then appended. -/
theorem reparent (h : ∀ answer, (next answer).Editing) (c p : Entity) :
    (Task.reparent c p next).Editing := by
  refine .inspect fun w _ => ?_
  show Editing ((if w.parentOf? c = some p then _ else _ : Task U σ _) next)
  split
  · exact h _
  · cases w.checkMove c p with
    | error refusal => exact h _
    | ok _ =>
      refine .detach fun detached => ?_
      cases detached with
      | error refusal => exact h _
      | ok _ => exact appendChild h p c

end Script.Editing

/-- Handlers that edit. -/
def Handler.IsEditor : Handler U σ → Prop
  | .script body => ∀ e, (body e).Editing
  | .cascade _ => False

/-! ## What waits on a stack -/

/-- The edit of links that a script starts with, with the parent that the node gets by it. -/
def Script.pending? : Script U σ → Option (Entity × Entity)
  | .call (.patch .node c f) _ => some (c, (f TreeNode.isolated).parent)
  | _ => none

/-- The edit that a frame goes on with. A node that is taken from its parent before it goes counts
as one that is to become a root. -/
def Frame.pending? : Frame U σ → Option (Entity × Entity)
  | .resume next => (next true).pending?
  | .unlinking _ e => some (e, .null)
  | _ => none

/-- The edits that wait on a stack, the innermost first. -/
def pendingEdits (stack : List (Frame U σ)) : List (Entity × Entity) :=
  stack.filterMap Frame.pending?

/-- A script that edits looks at the world before it changes any side of a link. -/
theorem Script.Editing.pending? {script : Script U σ} (h : script.Editing) :
    script.pending? = none := by
  cases h <;> rfl

theorem pendingEdits_resume {next : Bool → Script U σ} (h : (next true).Editing)
    {stack : List (Frame U σ)} : pendingEdits (.resume next :: stack) = pendingEdits stack :=
  List.filterMap_cons_none h.pending?

/-- The frames that edits and destructions leave on a stack: scripts that were called, among them
those of edits of which one side is changed, dispatches, and destructions whose cascade is about
to start. -/
inductive Interleaved (handlers : Array (Handler U σ)) (claims : Nat) (id : ComponentId) :
    List (Frame U σ) → Prop
  | nil : Interleaved handlers claims id []
  | script {next : Bool → Script U σ} {stack : List (Frame U σ)} (hnext : ∀ b, (next b).Editing)
      (h : Interleaved handlers claims id stack) : Interleaved handlers claims id (.resume next :: stack)
  | half {c q : Entity} {after : Script U σ} {stack : List (Frame U σ)} (hafter : after.Editing)
      (h : Interleaved handlers claims id stack) : Interleaved handlers claims id
        (.resume (fun _ => .call (.patch .node c (TreeNode.setParent · q)) fun _ => after) :: stack)
  | dispatch {e : Entity} {keys : List ConnectionKey} {stack : List (Frame U σ)}
      (hkeys : ∀ k ∈ keys, ∀ handler, handlers[k]? = some handler → handler.IsEditor)
      (h : Interleaved handlers claims id stack) :
      Interleaved handlers claims id (.dispatch id .update e keys :: stack)
  | departure {e : Entity} {stack : List (Frame U σ)} (h : Interleaved handlers claims id stack) :
      Interleaved handlers claims id
        (.unlinking claims e :: .dispatch id .destroy e [] :: .removal id e :: .teardown e id :: stack)

/-- Whoever is being destroyed counts as a node that is to become a root. -/
theorem Interleaved.mem_pendingEdits {handlers : Array (Handler U σ)} {claims : Nat}
    {id : ComponentId} {stack : List (Frame U σ)} {e : Entity}
    (h : Interleaved handlers claims id stack) (he : e ∈ destroyed stack) :
    (e, .null) ∈ pendingEdits stack := by
  induction h with
  | nil => cases he
  | script hnext _ ih =>
    rw [pendingEdits_resume (hnext true)]
    exact ih he
  | half _ _ ih => exact List.mem_cons_of_mem _ (ih he)
  | dispatch _ _ ih => exact ih he
  | @departure x stack _ ih =>
    rcases List.mem_cons.mp (show e ∈ x :: destroyed stack from he) with rfl | he
    · exact List.mem_cons_self
    · exact List.mem_cons_of_mem _ (ih he)

/-- Removals are announced for entities that are being destroyed. -/
theorem Interleaved.mem_destroyed {handlers : Array (Handler U σ)} {claims : Nat}
    {id k : ComponentId} {stack : List (Frame U σ)} {e : Entity}
    (h : Interleaved handlers claims id stack) (he : (k, e) ∈ announced stack) :
    e ∈ destroyed stack := by
  induction h with
  | nil => cases he
  | script _ _ ih => exact ih he
  | half _ _ ih => exact ih he
  | dispatch _ _ ih => exact ih he
  | @departure x stack _ ih =>
    rcases List.mem_cons.mp (show (k, e) ∈ (id, x) :: announced stack from he) with heq | he
    · rw [(Prod.mk.inj heq).2]
      exact List.mem_cons_self
    · exact List.mem_cons_of_mem _ (ih he)

/-- What goes on above a stack: a script that edits, the dispatch of an edit, or an answer. -/
inductive Control.Edits (id : ComponentId) : Control U σ → Prop
  | run {script : Script U σ} (h : script.Editing) : Edits id (.run script)
  | publish (e : Entity) : Edits id (.publish id .update e)
  | reply : Edits id (.reply true)

namespace Machine

variable {m m' : Machine U σ} {key : ConnectionKey} {claims : Nat} {id : ComponentId}
variable {stack stack' : List (Frame U σ)} {p c q e : Entity} {f : TreeNode → TreeNode}

/-- One cascade hears of removals of links and nobody of other removals, and whoever hears of
edits of links is a script that edits. -/
structure Staffed (m : Machine U σ) (key : ConnectionKey) (claims : Nat) (id : ComponentId) : Prop
    extends Solitary m key claims id where
  editors : ∀ k ∈ m.world.listeners id .update, ∀ handler, m.handlers[k]? = some handler →
    handler.IsEditor

omit [DecidableEq U] in
theorem Staffed.congr [DecidableEq U] (h : m.Staffed key claims id)
    (hworld : World.Tuned m.world m'.world) (hhandlers : m'.handlers = m.handlers) :
    m'.Staffed key claims id :=
  { h.toSolitary.congr hworld hhandlers with
    editors := by
      rw [hworld.listeners, hhandlers]
      exact h.editors }

/-- What holds whenever an edit, a dispatch or a script goes on above a stack. -/
structure Upkept (m : Machine U σ) (key : ConnectionKey) (claims : Nat) (id : ComponentId)
    (stack : List (Frame U σ)) : Prop where
  wf : m.world.Wf
  staffed : m.Staffed key claims id
  unclaimed : m.claims[claims]? = some []
  interleaved : Interleaved m.handlers claims id stack
  /-- The links are those of a forest but for the edits that wait. -/
  loose : m.world.Loose (pendingEdits stack)
  destroying : ∀ x, m.world.isDestroying x = true ↔ x ∈ destroyed stack
  distinct : (destroyed stack).Nodup
  removing : m.world.removing = announced stack

namespace Upkept

/-- It does not matter what is on top of the stack. -/
theorem above (h : m.Upkept key claims id stack) (stack' : List (Frame U σ))
    (control : Control U σ) : (m.on stack' control).Upkept key claims id stack :=
  { h with staffed := h.staffed.congr (.refl _) rfl }

/-- Another world with other links, and the frames for them. -/
theorem of_world (h : m.Upkept key claims id stack)
    (hworld : World.Undisturbed (· ≠ .node) m.world m'.world)
    (htuned : World.Tuned m.world m'.world) (hhandlers : m'.handlers = m.handlers)
    (hclaims : m'.claims = m.claims) (hinterleaved : Interleaved m.handlers claims id stack')
    (hdestroyed : destroyed stack' = destroyed stack)
    (hannounced : announced stack' = announced stack)
    (hloose : m'.world.Loose (pendingEdits stack')) : m'.Upkept key claims id stack' :=
  { wf := hworld.wf
    staffed := h.staffed.congr htuned hhandlers
    unclaimed := by rw [hclaims, h.unclaimed]
    interleaved := hhandlers ▸ hinterleaved
    loose := hloose
    destroying := fun x => by rw [hworld.isDestroying, hdestroyed, h.destroying]
    distinct := hdestroyed ▸ h.distinct
    removing := by rw [hworld.removing, hannounced, h.removing] }

/-- A frame comes or goes with which no edit and no destruction goes on. -/
theorem of_stack (h : m.Upkept key claims id stack)
    (hinterleaved : Interleaved m.handlers claims id stack')
    (hpending : pendingEdits stack' = pendingEdits stack)
    (hdestroyed : destroyed stack' = destroyed stack)
    (hannounced : announced stack' = announced stack) : m.Upkept key claims id stack' :=
  h.of_world (.refl h.wf) (.refl _) rfl rfl hinterleaved hdestroyed hannounced
    (hpending ▸ h.loose)

theorem push_script {next : Bool → Script U σ} (h : m.Upkept key claims id stack)
    (hnext : ∀ b, (next b).Editing) : m.Upkept key claims id (.resume next :: stack) :=
  h.of_stack (.script hnext h.interleaved) (pendingEdits_resume (hnext true)) rfl rfl

theorem push_dispatch {keys : List ConnectionKey} (h : m.Upkept key claims id stack)
    (hkeys : ∀ k ∈ keys, ∀ handler, m.handlers[k]? = some handler → handler.IsEditor) (e : Entity) :
    m.Upkept key claims id (.dispatch id .update e keys :: stack) :=
  h.of_stack (.dispatch hkeys h.interleaved) rfl rfl rfl

/-- Nothing of the links is touched. -/
theorem of_undisturbed (h : m.Upkept key claims id stack)
    (hworld : World.Undisturbed (fun _ => True) m.world m'.world)
    (htuned : World.Tuned m.world m'.world) (hhandlers : m'.handlers = m.handlers)
    (hclaims : m'.claims = m.claims) : m'.Upkept key claims id stack :=
  h.of_world (hworld.mono fun _ _ => trivial) htuned hhandlers hclaims h.interleaved rfl rfl
    (h.loose.of_undisturbed h.wf hworld)

/-- The machine in which the links of one entity are changed. -/
theorem edit (h : m.Upkept key claims id stack) (p : Entity) (f : TreeNode → TreeNode)
    (hinterleaved : Interleaved m.handlers claims id stack')
    (hdestroyed : destroyed stack' = destroyed stack)
    (hannounced : announced stack' = announced stack)
    (hloose : (m.world.edit .node p f).Loose (pendingEdits stack')) :
    Upkept { m with world := m.world.edit .node p f } key claims id stack' :=
  h.of_world (World.undisturbed_edit h.wf fun hk => hk rfl) (World.tuned_edit _ _ _ _) rfl rfl
    hinterleaved hdestroyed hannounced hloose

/-! ## Destructions -/

/-- An entity is being destroyed, and is out of its parent's children. -/
theorem depart (h : m.Upkept key claims id stack) (haccepts : m.world.accepts e = true)
    {w w' : World (Kind U)} (hparting : m.world.Parting id e w)
    (hworld : World.Undisturbed (· ≠ .node) w w') (htuned : World.Tuned w w')
    (hloose : w.Loose (pendingEdits stack) → w'.Loose ((e, .null) :: pendingEdits stack))
    (host : σ) : Upkept { m with world := w', host } key claims id
      (.unlinking claims e :: .dispatch id .destroy e [] :: .removal id e :: .teardown e id ::
        stack) := by
  have hfree : e ∉ destroyed stack := by
    rw [← h.destroying, ((World.accepts_iff _ _).mp haccepts).2]
    exact Bool.false_ne_true
  exact
    { wf := hworld.wf
      staffed := h.staffed.congr (hparting.tuned.trans htuned) rfl
      unclaimed := h.unclaimed
      interleaved := .departure h.interleaved
      loose := hloose <|
        h.loose.congr hparting.wf hparting.node? (hparting.housed (h.loose.housed h.wf))
      destroying := fun x => by
        rw [show World.isDestroying _ x = _ from hworld.isDestroying x, hparting.destroying,
          h.destroying]
        exact List.mem_cons.symm
      distinct := List.nodup_cons.mpr ⟨hfree, h.distinct⟩
      removing := by
        rw [show World.removing _ = _ from hworld.removing, hparting.removing, h.removing]
        rfl }

/-- A cascade starts to take its entity from the parent, or there is none to take it from. -/
theorem exists_startCascade (h : m.Upkept key claims id stack)
    (haccepts : m.world.accepts e = true)
    (hnull : ∀ q, (e, q) ∈ pendingEdits stack → q = .null) {w : World (Kind U)}
    (hparting : m.world.Parting id e w) (host : σ) :
    ∃ (m' : Machine U σ) (stack' : List (Frame U σ)) (control : Control U σ),
      m'.Upkept key claims id stack' ∧ control.Edits id ∧
      (on { m with world := w, host } (.dispatch id .destroy e [] :: .removal id e ::
        .teardown e id :: stack) (.invoke key e)).step = some (m'.on stack' control) := by
  have hstaffed : Staffed { m with world := w, host } key claims id :=
    h.staffed.congr hparting.tuned rfl
  have hstep : (on { m with world := w, host } (.dispatch id .destroy e [] :: .removal id e ::
      .teardown e id :: stack) (.invoke key e)).step =
      some ((on { m with world := w, host } (.dispatch id .destroy e [] :: .removal id e ::
        .teardown e id :: stack) (.invoke key e)).startCascade claims e) := by
    show some (invoke _ key e) = _
    rw [invoke, on_handlers, hstaffed.cascade]
  -- handlers hear of the destruction only where a parent is there to lose the entity
  by_cases hparent : ∃ p, w.parentOf? e = some p ∧ (w.node? p).isSome
  · obtain ⟨p, hp, hnode⟩ := hparent
    have hvalid : w.validParentOf? e = some p := by
      rw [World.validParentOf?, hp, Option.filter_some, if_pos (World.isValid_of_node? hnode)]
    refine ⟨_, _, .publish id .update p, h.depart haccepts hparting
      (World.undisturbed_edit hparting.wf fun hk => hk rfl) (World.tuned_edit w _ _ _)
      (fun hloose => hloose.cut hparting.wf hp (TreeNode.leaves_dropChild e)) host,
      .publish p, ?_⟩
    obtain ⟨node, hnode⟩ := Option.isSome_iff_exists.mp hnode
    rw [hstep, startCascade_of_unclaimed (m := { m with world := w, host }) h.unclaimed, hvalid,
      Option.bind_some, patch?, on_world, hstaffed.number,
      show w.get? .node p = some node from hnode]
    rfl
  · have hno : ∀ p, w.parentOf? e = some p → w.node? p = none := by
      intro p hp
      by_contra hnode
      exact hparent ⟨p, hp, Option.isSome_iff_ne_none.mpr hnode⟩
    refine ⟨_, _, .reply true, h.depart haccepts hparting (.refl hparting.wf) (.refl w)
      (fun hloose => hloose.orphan hparting.wf hnull hno) host, .reply, ?_⟩
    rw [hstep, startCascade_of_no_parent (m := { m with world := w, host }) h.unclaimed hno]

/-- The destruction of an entity with links comes to where its cascade starts. -/
theorem runs_destroy (h : m.Upkept key claims id stack) (haccepts : m.world.accepts e = true)
    (hnode : (m.world.node? e).isSome) (hnull : ∀ q, (e, q) ∈ pendingEdits stack → q = .null) :
    ∃ (m' : Machine U σ) (stack' : List (Frame U σ)) (control : Control U σ) (tr : List Dispatch),
      m'.Upkept key claims id stack' ∧ control.Edits id ∧
      (m.on stack (.destroy e)).Runs tr (m'.on stack' control) := by
  have hfresh : (id, e) ∉ m.world.removing := by
    intro hmem
    have hd := (h.destroying e).mpr (h.interleaved.mem_destroyed (h.removing ▸ hmem))
    rw [((World.accepts_iff _ _).mp haccepts).2] at hd
    cases hd
  obtain ⟨w, host, tr, hparting, hrun⟩ :=
    runs_parting h.wf h.staffed.toSolitary haccepts hnode hfresh
  obtain ⟨m', stack', control, hup, hcontrol, hstep⟩ :=
    h.exists_startCascade haccepts hnull hparting host
  exact ⟨m', stack', control, tr, hup, hcontrol, (hrun stack).snoc hstep rfl⟩

/-- An entity without links is destroyed. -/
theorem serves_destroy_bare (h : m.Upkept key claims id stack) (haccepts : m.world.accepts e = true)
    (hnode : m.world.node? e = none) :
    ∃ world host tr, Upkept { m with world, host } key claims id stack ∧
      m.Serves (.destroy e) tr { m with world, host } (.reply true) := by
  obtain ⟨hvalid, hdestroying⟩ := (World.accepts_iff _ _).mp haccepts
  have hnone : m.world.stored? .node e = none := by
    rw [World.node?, World.get?_eq_stored?, if_pos hvalid] at hnode
    exact hnode
  have hhush : ∀ j, m.world.holds j e = true → m.HushedFor j .destroy e := by
    intro j hrow
    refine h.staffed.hushedFor_of_ne ?_ e
    rintro rfl
    rw [h.wf.holds_eq_isSome h.staffed.number, hnone] at hrow
    cases hrow
  obtain ⟨world, host, tr, hpurged, hserve⟩ := serves_destroy h.wf haccepts hhush
  have hstored := hpurged.stored?_of_none h.wf hnone
  have hlinks : ∀ x, world.node? x = m.world.node? x := hpurged.get?_of_none h.wf hvalid hnode
  have hhoused : world.Housed := by
    intro x hx
    rw [hstored] at hx
    refine (hpurged.valid x).mpr ⟨h.loose.housed h.wf x hx, ?_⟩
    rintro rfl
    rw [hnone] at hx
    cases hx
  refine ⟨world, host, tr, ?_, hserve⟩
  exact
    { wf := hpurged.shed.wf
      staffed := h.staffed.congr hpurged.shed.tuned rfl
      unclaimed := h.unclaimed
      interleaved := h.interleaved
      loose := h.loose.congr hpurged.shed.wf hlinks hhoused
      destroying := fun x => by
        rw [hpurged.destroying, h.destroying]
        refine and_iff_left_of_imp fun hx => ?_
        rintro rfl
        rw [← h.destroying, hdestroying] at hx
        cases hx
      distinct := h.distinct
      removing := hpurged.removing.trans h.removing }

/-- Everybody heard that the entity is out of its parent's children, and now it goes with what
is below it. -/
theorem runs_departure (h : m.Upkept key claims id (.unlinking claims e ::
      .dispatch id .destroy e [] :: .removal id e :: .teardown e id :: stack)) :
    ∃ (m' : Machine U σ) (tr : List Dispatch), m'.Upkept key claims id stack ∧
      (m.on (.unlinking claims e :: .dispatch id .destroy e [] :: .removal id e ::
        .teardown e id :: stack) (.reply true)).Runs tr (m'.on stack (.reply true)) := by
  have hdestroying : ∀ x, m.world.isDestroying x = true ↔ x ∈ e :: destroyed stack := h.destroying
  have hremoving : m.world.removing = (id, e) :: announced stack := h.removing
  have hfree : e ∉ destroyed stack := (List.nodup_cons.mp h.distinct).1
  -- whoever is being destroyed further down the stack is unlinked, and so below itself only
  obtain ⟨world, host, sets, tr, hparted, hsets, hrun⟩ :=
    runs_parted h.wf h.staffed.toSolitary h.unclaimed (h.loose.housed h.wf)
      ((hdestroying e).mpr List.mem_cons_self)
      (fun x hx hne => Bool.eq_false_iff.mpr fun hd => hne <|
        h.loose.eq_of_below (h.interleaved.mem_pendingEdits ((h.destroying x).mp hd)) hx)
      fun k x hmem => (h.destroying x).mpr (h.interleaved.mem_destroyed (h.removing ▸ hmem))
  refine ⟨{ m with world, host, claims := sets }, tr, ?_, hrun stack⟩
  exact
    { wf := hparted.wf
      staffed := h.staffed.congr hparted.tuned rfl
      unclaimed := hsets
      interleaved := by
        cases h.interleaved with
        | departure hrest => exact hrest
      loose := h.loose.cull h.wf hparted.wf hparted.valid hparted.node? hparted.housed
      destroying := fun x => by
        rw [hparted.destroying, hdestroying, List.mem_cons]
        constructor
        · rintro ⟨rfl | hx, hne⟩
          · exact absurd rfl hne
          · exact hx
        · intro hx
          refine ⟨.inr hx, ?_⟩
          rintro rfl
          exact hfree hx
      distinct := (List.nodup_cons.mp h.distinct).2
      removing := by
        rw [hparted.removing, hremoving]
        exact List.erase_cons_head _ _ }

end Upkept

end Machine

end EntityScene
