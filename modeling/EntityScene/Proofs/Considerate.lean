import EntityScene.Proofs.Reentry

/-!
# Considerate edits keep a forest

An edit checks its link once, and lets handlers run when one side is changed. Handlers that
edit the same link then are not stopped by any check, since the other side still looks as it
did before. Handlers that leave such links alone may edit and destroy whatever else they like.

- `Machine.Mindful`: a step that leaves the edits alone that are under way.
- `Machine.Considerate`: a run of such steps.
- `Upkept.advances_run`, `Upkept.advances_publish`, `Upkept.advances_reply`: what goes on above a
  stack leads to the next thing that does.
- `Underway.run_of_done`: so something goes on still when the run is over.
- `Machine.considerate_edits_keep_a_forest`: a script that edits ends with a forest.
- `Machine.linked_twice`: a handler that is not considerate, and what it leaves behind.
-/

namespace EntityScene

namespace Machine

variable {U σ : Type} [SceneFamily U] [DecidableEq U] {m m' : Machine U σ}
variable {key : ConnectionKey} {claims : Nat} {id : ComponentId} {e p c q : Entity}
variable {stack stack' : List (Frame U σ)} {control : Control U σ} {f : TreeNode → TreeNode}

/-! ## Considerate runs -/

/-- A step that leaves alone the edits that are under way: a node that still has to be told its
new parent is entered nowhere else, no circle is closed through it, and if it is to get a parent
it is not destroyed. -/
structure Mindful (m m' : Machine U σ) : Prop where
  entered : ∀ {y q p c}, (y, q) ∈ pendingEdits m.stack →
    (m.world.childrenOf p).count c < (m'.world.childrenOf p).count c →
    y ≠ c ∧ ¬ (m.world.Below c y ∧ m.world.Below y p)
  begun : ∀ {y q}, (y, q) ∈ pendingEdits m.stack → q ≠ .null →
    m.world.isDestroying y = false → m'.world.isDestroying y = false

/-- A run in which every step is mindful. -/
def Considerate (m : Machine U σ) : Prop := ∀ k, (m.run k).Mindful (m.run (k + 1))

namespace Considerate

theorem head (h : m.Considerate) (hstep : m.step = some m') : m.Mindful m' := by
  have hfirst := h 0
  rw [run_succ_of_step hstep] at hfirst
  exact hfirst

theorem run (h : m.Considerate) (n : Nat) : (m.run n).Considerate := by
  intro k
  rw [← run_add, ← run_add]
  exact h (n + k)

theorem tail (h : m.Considerate) (hstep : m.step = some m') : m'.Considerate := by
  have hrun := h.run 1
  rw [run_succ_of_step hstep] at hrun
  exact hrun

end Considerate

theorem mindful_self (m : Machine U σ) : m.Mindful m :=
  { entered := fun _ hcount => absurd hcount (Nat.lt_irrefl _)
    begun := fun _ _ hd => hd }

/-- After its last step a machine does nothing that is not considerate. -/
theorem considerate_of_done {n : Nat} (h : ∀ k < n, (m.run k).Mindful (m.run (k + 1)))
    (hdone : (m.run n).step = none) : m.Considerate := by
  intro k
  by_cases hk : k < n
  · exact h k hk
  · obtain ⟨j, rfl⟩ := Nat.exists_eq_add_of_le (Nat.le_of_not_lt hk)
    have hlast : ∀ j, m.run (n + j) = m.run n := fun j => by
      rw [run_add, run_of_step_eq_none hdone]
    rw [Nat.add_assoc, hlast, hlast]
    exact mindful_self _

/-! ## What goes on leads to what goes on -/

/-- An edit, a dispatch or a script goes on above a stack that is kept up. -/
structure Underway (m : Machine U σ) (key : ConnectionKey) (claims : Nat) (id : ComponentId) :
    Prop where
  upkept : m.Upkept key claims id m.stack
  control : m.control.Edits id

/-- A considerate run comes to where something goes on. -/
def Arrives (m : Machine U σ) (key : ConnectionKey) (claims : Nat) (id : ComponentId) : Prop :=
  m.Considerate → ∃ k, (m.run k).Underway key claims id

/-- A considerate run takes a step, and comes to where something goes on. -/
def Advances (m : Machine U σ) (key : ConnectionKey) (claims : Nat) (id : ComponentId) : Prop :=
  m.Considerate → ∃ k, (m.run (k + 1)).Underway key claims id

theorem Arrives.here (h : m.Upkept key claims id stack) (hcontrol : control.Edits id) :
    (m.on stack control).Arrives key claims id := fun _ =>
  ⟨0, h.above stack control, hcontrol⟩

theorem Arrives.runs {tr : List Dispatch} (hrun : m.Runs tr m') (h : m'.Arrives key claims id) :
    m.Arrives key claims id := by
  intro hconsiderate
  obtain ⟨n, rfl, -⟩ := hrun
  obtain ⟨k, hk⟩ := h (hconsiderate.run n)
  exact ⟨n + k, run_add m n k ▸ hk⟩

theorem Advances.step (hstep : m.step = some m')
    (h : m.Mindful m' → m'.Arrives key claims id) : m.Advances key claims id := by
  intro hconsiderate
  obtain ⟨k, hk⟩ := h (hconsiderate.head hstep) (hconsiderate.tail hstep)
  exact ⟨k, by rw [run_succ_of_step hstep]; exact hk⟩

theorem Advances.runs {tr : List Dispatch} (hrun : m.Runs tr m') (hne : m.stack ≠ m'.stack)
    (h : m'.Arrives key claims id) : m.Advances key claims id := by
  intro hconsiderate
  obtain ⟨n, rfl, -⟩ := hrun
  obtain ⟨k, hk⟩ := h (hconsiderate.run n)
  cases n with
  | zero => exact absurd rfl hne
  | succ n =>
    rw [← run_add, Nat.add_right_comm] at hk
    exact ⟨n + k, hk⟩

/-- What the next step leaves alone may be used before it is taken. -/
theorem Arrives.mind (hstep : m.step = some m') (h : m.Mindful m' → m.Arrives key claims id) :
    m.Arrives key claims id :=
  fun hconsiderate => h (hconsiderate.head hstep) hconsiderate

theorem Advances.arrives (h : m.Advances key claims id) : m.Arrives key claims id := by
  intro hconsiderate
  obtain ⟨k, hk⟩ := h hconsiderate
  exact ⟨k + 1, hk⟩

/-- Something goes on after the next step. -/
theorem Advances.next {m₀ : Machine U σ} (h : m.Upkept key claims id stack)
    (hcontrol : control.Edits id) (hstep : m₀.step = some (m.on stack control)) :
    m₀.Advances key claims id :=
  .step hstep fun _ => .here h hcontrol

/-- A script that looks at the world first. -/
theorem Advances.look {α : Type} {task : World (Kind U) → Task U σ α} {next : α → Script U σ}
    (h : (m.on stack (.run (task m.world next))).Arrives key claims id) :
    (m.on stack (.run ((Task.world >>= task) next))).Advances key claims id :=
  .step rfl fun _ => h

/-- A child that is inserted is listed once more. -/
theorem count_insertChild (node : TreeNode) (position : Nat) (c : Entity) :
    node.children.count c < (node.insertChild position c).children.count c := by
  have hperm := List.perm_insertIdx c node.children (Nat.min_le_right position _)
  rw [TreeNode.insertChild, hperm.count_eq, List.count_cons_self]
  exact Nat.lt_succ_self _

namespace Upkept

/-! ## Patches -/

/-- A script that waits for an answer goes on. -/
theorem step_resume (m : Machine U σ) (next : Bool → Script U σ) (stack : List (Frame U σ))
    (b : Bool) : (m.on (.resume next :: stack) (.reply b)).step =
      some (m.on stack (.run (next b))) := rfl

/-- Links that are there are changed, and whoever hears of it is next. -/
theorem step_patch (h : m.Upkept key claims id stack) (hnode : (m.world.node? p).isSome)
    (f : TreeNode → TreeNode) (next : Bool → Script U σ) (stack : List (Frame U σ)) :
    (m.on stack (.run (.call (.patch .node p f) next))).step =
      some (on { m with world := m.world.edit .node p f } (.resume (fun _ => next true) :: stack)
        (.publish id .update p)) := by
  obtain ⟨node, hnode⟩ := Option.isSome_iff_exists.mp hnode
  show some (call _ (.patch .node p f) next) = _
  simp only [call, patch?, on_world, h.staffed.number, show m.world.get? .node p = some node from hnode]
  rfl

/-- Links that are not there are not changed. -/
theorem step_patch_of_none (hnode : m.world.node? p = none)
    (f : TreeNode → TreeNode) (next : Bool → Script U σ) (stack : List (Frame U σ)) :
    (m.on stack (.run (.call (.patch .node p f) next))).step =
      some (m.on stack (.run (next false))) := by
  show some (call _ (.patch .node p f) next) = _
  simp only [call, patch?, on_world, show m.world.get? .node p = none from hnode]
  cases m.world.idOf? .node <;> rfl

/-- The second side of a link is changed, unless the node is gone. -/
theorem advances_close {after : Script U σ} (h : m.Upkept key claims id stack')
    (hafter : after.Editing) (hinterleaved : Interleaved m.handlers claims id stack)
    (hdestroyed : destroyed stack = destroyed stack')
    (hannounced : announced stack = announced stack')
    (hloose : m.world.Loose ((c, q) :: pendingEdits stack)) :
    (m.on stack (.run (.call (.patch .node c (TreeNode.setParent · q)) fun _ => after))).Advances
      key claims id := by
  cases hnode : m.world.node? c with
  | none =>
    have hup : m.Upkept key claims id stack :=
      h.of_world (.refl h.wf) (.refl _) rfl rfl hinterleaved hdestroyed hannounced
        (hloose.close_of_none h.wf hnode)
    exact .step (step_patch_of_none hnode _ _ stack) fun _ => .here hup (.run hafter)
  | some node =>
    have hsome : (m.world.node? c).isSome := by rw [hnode]; rfl
    have hpending : pendingEdits (.resume (fun _ => after) :: stack) = pendingEdits stack :=
      pendingEdits_resume hafter
    have hup := h.edit c (TreeNode.setParent · q) (.script (fun _ => hafter) hinterleaved)
      hdestroyed hannounced (hpending ▸ hloose.close h.wf)
    exact .step (h.step_patch hsome _ _ stack) fun _ => .here hup (.publish c)

/-! ## Edits -/

/-- A child is linked: one side is changed, and the other is pending. -/
theorem advances_link {position : TreeNode → Nat} {next : Except EditError Unit → Script U σ}
    (h : m.Upkept key claims id stack) (hnext : ∀ answer, (next answer).Editing) (p c : Entity) :
    (m.on stack (.run (Task.link p c (fun node => node.insertChild (position node) c) next))).Advances
      key claims id := by
  refine .look ?_
  cases hcheck : m.world.checkLink p c with
  | error refusal => exact .here h (.run (hnext _))
  | ok _ =>
    obtain ⟨-, ⟨above, hp⟩, -, -⟩ := World.checkLink_ok hcheck
    have hsome : (m.world.node? p).isSome := by rw [hp]; rfl
    -- the step that lists the child is the one that has to be mindful of what is pending
    refine Advances.arrives (.step (h.step_patch hsome _ _ stack) fun hmindful => ?_)
    have hcount : (m.world.childrenOf p).count c < ((m.world.edit .node p fun node =>
        node.insertChild (position node) c).childrenOf p).count c := by
      rw [World.childrenOf_edit, if_pos rfl, World.childrenOf, hp]
      exact count_insertChild above (position above) c
    have hloose := h.loose.link h.wf hcheck (TreeNode.enters_insertChild c position)
      (fun q hq => (hmindful.entered hq hcount).1 rfl)
      fun y q hq hy hyp => (hmindful.entered hq hcount).2 ⟨hy, hyp⟩
    exact .here (h.edit p _ (.half (hnext (.ok ())) h.interleaved) rfl rfl hloose) (.publish p)

/-- A child whose parent is gone is made a root. -/
theorem arrives_orphan {after : Script U σ} (h : m.Upkept key claims id stack)
    (hafter : after.Editing) (hparent : m.world.parentOf? c = some p)
    (hp : m.world.node? p = none) :
    (m.on stack (.run (.call (.patch .node c (TreeNode.setParent · .null)) fun _ => after))).Arrives
      key claims id := by
  have hloose := h.loose.orphan h.wf (fun q hq => h.loose.null_of_parentOf? hparent hq)
    fun p' hp' => by
      rw [hparent] at hp'
      exact Option.some.inj hp' ▸ hp
  exact (h.advances_close hafter h.interleaved rfl rfl hloose).arrives

/-- A child is unlinked: one side is changed, and the other is pending. -/
theorem arrives_cut {after : Script U σ} (h : m.Upkept key claims id stack)
    (hafter : after.Editing) (hparent : m.world.parentOf? c = some p)
    (hleave : TreeNode.Leaves c f) :
    (m.on stack (.run (.call (.patch .node p f) fun _ =>
      .call (.patch .node c (TreeNode.setParent · .null)) fun _ => after))).Arrives key claims id := by
  cases hp : m.world.node? p with
  | none =>
    exact Advances.arrives <| .step (step_patch_of_none hp _ _ stack) fun _ =>
      h.arrives_orphan hafter hparent hp
  | some node =>
    have hloose := h.loose.cut h.wf hparent hleave
    exact Advances.arrives <| .step (h.step_patch (by rw [hp]; rfl) _ _ stack) fun _ =>
      .here (h.edit p f (.half hafter h.interleaved) rfl rfl hloose) (.publish p)

theorem advances_removeChild {next : Except EditError Unit → Script U σ}
    (h : m.Upkept key claims id stack) (hnext : ∀ answer, (next answer).Editing) (p c : Entity) :
    (m.on stack (.run (Task.removeChild p c next))).Advances key claims id := by
  refine .look ?_
  cases hcheck : m.world.checkUnlink p c with
  | error refusal => exact .here h (.run (hnext _))
  | ok _ =>
    exact h.arrives_cut (hnext (.ok ())) (World.checkUnlink_ok h.wf.table hcheck)
      (TreeNode.leaves_removeChild c)

/-- A parent that is gone is forgotten, and one that is being destroyed loses the child in spite
of that. -/
theorem advances_detach {next : Except EditError (Option Entity) → Script U σ}
    (h : m.Upkept key claims id stack) (hnext : ∀ answer, (next answer).Editing) (c : Entity) :
    (m.on stack (.run (Task.detach c next))).Advances key claims id := by
  refine .look ?_
  cases hnode : m.world.nodeOf c with
  | error refusal => exact .here h (.run (hnext _))
  | ok node =>
    obtain ⟨-, hc⟩ := (World.nodeOf_eq_ok_iff _ _ _).mp hnode
    show (m.on stack (.run ((if node.isRoot then _ else _ : Task U σ _) next))).Arrives _ _ _
    cases hroot : node.isRoot with
    | true => exact .here h (.run (hnext _))
    | false =>
      have hparent : m.world.parentOf? c = some node.parent :=
        (World.parentOf?_eq_some_iff hc).mpr ⟨rfl, hroot⟩
      cases hvalid : m.world.isValid node.parent with
      | false =>
        exact h.arrives_orphan (hnext (.ok none)) hparent (World.node?_of_not_isValid hvalid)
      | true =>
        cases hdestroying : m.world.isDestroying node.parent with
        | true =>
          exact h.arrives_cut (hnext (.ok (some node.parent))) hparent
            (TreeNode.leaves_dropChild c)
        | false =>
          refine (h.advances_removeChild (fun removed => ?_) node.parent c).arrives
          cases removed with
          | error refusal => exact hnext _
          | ok _ => exact hnext _

/-! ## Destructions -/

/-- Whoever starts to be destroyed is not about to get a parent. -/
theorem null_of_mindful (h : m.Upkept key claims id stack) (haccepts : m.world.accepts e = true)
    (hmindful : (m.on stack (.destroy e)).Mindful
      (tearing { m with world := m.world.beginDestroy e } stack e 0))
    (hmem : (e, q) ∈ pendingEdits stack) : q = .null := by
  by_contra hq
  have hsize : 0 < m.world.pools.size := by
    obtain ⟨set, signals, hpool, -⟩ := h.wf.exists_pool h.staffed.number
    exact Nat.zero_lt_of_lt (Array.getElem?_eq_some_iff.mp hpool).1
  have hsame := hmindful.begun hmem hq ((World.accepts_iff _ _).mp haccepts).2
  rw [tearing_of_lt (m := { m with world := m.world.beginDestroy e }) hsize, on_world,
    (World.isDestroying_beginDestroy haccepts e).mpr (.inl rfl)] at hsame
  cases hsame

theorem advances_destroy {next : Bool → Script U σ} (h : m.Upkept key claims id stack)
    (hnext : ∀ b, (next b).Editing) (e : Entity) :
    (m.on stack (.run (Task.destroy e next))).Advances key claims id := by
  have hup := h.push_script hnext
  have hcall : (m.on stack (.run (Task.destroy e next))).step =
      some (m.on (.resume next :: stack) (.destroy e)) := rfl
  refine .step hcall fun _ => ?_
  cases haccepts : m.world.accepts e with
  | false =>
    have hrefused := Runs.of_step (step_destroy_refused haccepts (.resume next :: stack))
    exact .runs hrefused (Advances.next h (.run (hnext false)) rfl).arrives
  | true =>
    cases hnode : m.world.node? e with
    | none =>
      obtain ⟨world, host, tr, hbare, hserve⟩ := hup.serves_destroy_bare haccepts hnode
      exact .runs (hserve _) (.here hbare .reply)
    | some node =>
      -- nobody who is about to get a parent starts to be destroyed
      refine .mind (step_destroy_of_accepts haccepts _) fun hmindful => ?_
      obtain ⟨m', stack', control, tr, hup', hcontrol, hrun⟩ := hup.runs_destroy haccepts
        (by rw [hnode]; rfl) fun q hq => hup.null_of_mindful haccepts hmindful hq
      exact .runs hrun (.here hup' hcontrol)

/-! ## What goes on above a stack -/

theorem advances_run {script : Script U σ} (h : m.Upkept key claims id stack)
    (hscript : script.Editing) : (m.on stack (.run script)).Advances key claims id := by
  cases hscript with
  | done => exact .next h .reply rfl
  | inspect hnext => exact .next h (.run (hnext m.world m.host)) rfl
  | @note f next hnext =>
    have hnoted : Upkept { m with host := f m.host } key claims id stack :=
      h.of_undisturbed (.refl h.wf) (.refl _) rfl rfl
    exact .next hnoted (.run hnext) rfl
  | link hnext => exact h.advances_link hnext _ _
  | removeChild hnext => exact h.advances_removeChild hnext _ _
  | detach hnext => exact h.advances_detach hnext _
  | destroy hnext => exact h.advances_destroy hnext _

theorem advances_publish (h : m.Upkept key claims id stack) (e : Entity) :
    (m.on stack (.publish id .update e)).Advances key claims id := by
  have hsnap : World.Undisturbed (fun _ => True) m.world (m.world.snapshot id .update).2 :=
    World.undisturbed_snapshot h.wf id .update
  have hup : Upkept { m with world := (m.world.snapshot id .update).2 } key claims id stack :=
    h.of_undisturbed hsnap (World.tuned_snapshot m.world id .update) rfl rfl
  exact .next (hup.push_dispatch h.staffed.editors e) .reply rfl

/-- A dispatch calls the next handler, which is a script that edits. -/
theorem advances_dispatch {keys : List ConnectionKey}
    (h : m.Upkept key claims id (.dispatch id .update e keys :: stack))
    (hkeys : ∀ k ∈ keys, ∀ handler, m.handlers[k]? = some handler → handler.IsEditor)
    (hinterleaved : Interleaved m.handlers claims id stack) :
    (m.on (.dispatch id .update e keys :: stack) (.reply true)).Advances key claims id := by
  have hup : m.Upkept key claims id stack := h.of_stack hinterleaved rfl rfl rfl
  cases keys with
  | nil => exact .next hup .reply rfl
  | cons k keys =>
    have hrest := hup.push_dispatch (fun k' hk' => hkeys k' (List.mem_cons_of_mem _ hk')) e
    refine .step (step_dispatch ..) fun _ => ?_
    split
    · cases hhandler : m.handlers[k]? with
      | none =>
        refine (Advances.next hrest .reply ?_).arrives
        show some (invoke _ k e) = _
        rw [invoke, on_handlers, hhandler]
        rfl
      | some handler =>
        have heditor := hkeys k List.mem_cons_self handler hhandler
        cases handler with
        | cascade claims => exact heditor.elim
        | script body =>
          refine (Advances.next hrest (.run (heditor e)) ?_).arrives
          show some (invoke _ k e) = _
          rw [invoke, on_handlers, hhandler]
          rfl
    · exact .here hrest .reply

/-- An answer goes to whoever waits on top of the stack. -/
theorem advances_reply (h : m.Upkept key claims id stack)
    (hstep : (m.on stack (.reply true)).step ≠ none) :
    (m.on stack (.reply true)).Advances key claims id := by
  cases h.interleaved with
  | nil => exact absurd rfl hstep
  | script hnext hrest =>
    exact .next (h.of_stack hrest (pendingEdits_resume (hnext true)).symm rfl rfl)
      (.run (hnext true)) rfl
  | half hafter hrest =>
    exact .step (step_resume ..) fun _ => (h.advances_close hafter hrest rfl rfl h.loose).arrives
  | dispatch hkeys hrest => exact h.advances_dispatch hkeys hrest
  | departure hrest =>
    -- from here on the destruction is one run, since only the cascade hears of it
    obtain ⟨m', tr, hup, hrun⟩ := h.runs_departure
    refine .runs hrun (fun hsame => ?_) (.here hup .reply)
    have hlength := congrArg List.length hsame
    simp only [Machine.on, List.length_cons] at hlength
    omega

end Upkept

/-- What goes on goes on, until nothing waits for it. -/
theorem Underway.advances (h : m.Underway key claims id) (hstep : m.step ≠ none) :
    m.Advances key claims id := by
  have hup := h.upkept
  obtain ⟨world, host, handlers, claimed, stack, control⟩ := m
  cases h.control with
  | run hscript => exact hup.advances_run hscript
  | publish e => exact hup.advances_publish e
  | reply => exact hup.advances_reply hstep

/-- A considerate run ends where something goes on. -/
theorem Underway.run_of_done (h : m.Underway key claims id) (hconsiderate : m.Considerate) {n : Nat}
    (hdone : (m.run n).step = none) : (m.run n).Underway key claims id := by
  induction n using Nat.strong_induction_on generalizing m with
  | _ n ih =>
    by_cases hstep : m.step = none
    · rw [run_of_step_eq_none hstep]
      exact h
    · -- the induction is on the steps that are left, and every advance takes some
      obtain ⟨k, hk⟩ := h.advances hstep hconsiderate
      by_cases hle : k + 1 ≤ n
      · obtain ⟨j, rfl⟩ := Nat.exists_eq_add_of_le hle
        rw [run_add] at hdone ⊢
        exact ih j (by omega) hk (hconsiderate.run (k + 1)) hdone
      · -- the run was over before something went on again, so this is its end
        obtain ⟨j, hj⟩ := Nat.exists_eq_add_of_le (Nat.le_of_not_le hle)
        rw [hj, run_add, run_of_step_eq_none hdone] at hk
        exact hk

/-! ## Between two calls -/

/-- Between two calls: nothing is going on, and the links are those of a forest. -/
structure Calm (m : Machine U σ) (key : ConnectionKey) (claims : Nat) (id : ComponentId) :
    Prop where
  wf : m.world.Wf
  staffed : m.Staffed key claims id
  unclaimed : m.claims[claims]? = some []
  rest : m.world.AtRest
  forest : m.world.Forest

theorem Calm.underway {script : Script U σ} (h : m.Calm key claims id) (hscript : script.Editing) :
    (m.on [] (.run script)).Underway key claims id := by
  have hup : m.Upkept key claims id [] :=
    { wf := h.wf
      staffed := h.staffed
      unclaimed := h.unclaimed
      interleaved := .nil
      loose := .of_forest h.forest
      destroying := fun x => by
        rw [h.rest.destroying]
        simp [destroyed]
      distinct := .nil
      removing := h.rest.removing }
  exact { upkept := hup.above [] (.run script), control := .run hscript }

/-- Where nothing waits and nothing can be done any more, no edit is pending. -/
theorem Underway.calm (h : m.Underway key claims id) (hdone : m.step = none) :
    m.control = .reply true ∧ m.Calm key claims id := by
  obtain ⟨hstack, hcontrol⟩ := (step_eq_none_iff m).mp hdone
  -- with an empty stack the links are loose by nothing
  have hup := h.upkept
  rw [hstack] at hup
  refine ⟨?_, ?_⟩
  · have hedits := h.control
    rcases hcontrol with ⟨b, hb⟩ | ⟨cause, hb⟩
    · rw [hb] at hedits ⊢
      cases hedits with
      | reply => rfl
    · rw [hb] at hedits
      cases hedits
  · exact
      { wf := hup.wf
        staffed := hup.staffed
        unclaimed := hup.unclaimed
        rest :=
          { destroying := fun x => by
              rw [Bool.eq_false_iff, Ne, hup.destroying]
              exact List.not_mem_nil
            removing := hup.removing }
        forest := hup.loose.forest }

/-- **Considerate edits keep a forest.** Handlers of updates of links may link, unlink, move and
destroy as they like, and hear of that in turn. If every step leaves alone the edits that are
under way, a script of edits that comes to its end leaves the links of a forest, and nothing
goes on any more. -/
theorem considerate_edits_keep_a_forest {script : Script U σ} {n : Nat}
    (h : m.Calm key claims id) (hscript : script.Editing)
    (hmindful : ∀ k < n, ((m.on [] (.run script)).run k).Mindful
      ((m.on [] (.run script)).run (k + 1)))
    (hdone : ((m.on [] (.run script)).run n).step = none) :
    ((m.on [] (.run script)).run n).control = .reply true ∧
      ((m.on [] (.run script)).run n).Calm key claims id := by
  have hconsiderate := considerate_of_done hmindful hdone
  exact ((h.underway hscript).run_of_done hconsiderate hdone).calm hdone

/-- A step that is seen to be mindful: a node that enters a list has no children, and is not
about to be told a parent. -/
def isMindful (m m' : Machine U σ) : Bool :=
  (pendingEdits m.stack).all fun edit =>
    (m'.world.handles.all fun p => (m'.world.childrenOf p).all fun c =>
      decide ((m'.world.childrenOf p).count c ≤ (m.world.childrenOf p).count c) ||
        decide (edit.1 ≠ c ∧ m.world.childrenOf c = [])) &&
    (decide (edit.2 = .null) || m.world.isDestroying edit.1 || !m'.world.isDestroying edit.1)

theorem mindful_of_isMindful (hwf : m'.world.Wf) (h : m.isMindful m' = true) : m.Mindful m' := by
  have hall := List.all_eq_true.mp h
  refine { entered := fun {y q p c} hmem hcount => ?_, begun := fun {y q} hmem hq hd => ?_ }
  · obtain ⟨hlists, -⟩ := Bool.and_eq_true_iff.mp (hall _ hmem)
    have hc : c ∈ m'.world.childrenOf p := List.count_pos_iff.mp (Nat.zero_lt_of_lt hcount)
    have hp : p ∈ m'.world.handles :=
      (Entity.Table.mem_toList_iff hwf.table).mpr
        (World.isValid_of_node? (World.isSome_node?_of_mem hc))
    rcases Bool.or_eq_true_iff.mp (List.all_eq_true.mp (List.all_eq_true.mp hlists p hp) c hc)
      with hle | hfree
    · exact absurd hcount (Nat.not_lt_of_le (of_decide_eq_true hle))
    · obtain ⟨hne, hleaf⟩ := of_decide_eq_true hfree
      exact ⟨hne, fun hbelow => hne (hbelow.1.eq_of_childless hleaf)⟩
  · obtain ⟨-, hcalm⟩ := Bool.and_eq_true_iff.mp (hall _ hmem)
    simpa [hq, hd] using hcalm

end Machine

/-- Four nodes without links to each other, and somebody who hears of updates of links. -/
def gathering : Script Empty Unit :=
  Task.toScript do
    Task.cascade
    let _ ← Task.spawnNode
    let _ ← Task.spawnNode
    let _ ← Task.spawnNode
    let _ ← Task.spawnNode
    let _ ← Task.connect .node .update fun _ _ => .done

/-- The world of these nodes. -/
def gathered : World (Kind Empty) := ((Machine.start () gathering).run 46).world

/-- Whoever hears that the links of the first node are updated runs an errand. -/
def attended (errand : Task Empty Unit Unit) : Machine Empty Unit :=
  { world := gathered
    host := ()
    handlers := #[.cascade 0,
      .script fun e => if e = ⟨0, .initial⟩ then errand.toScript else .done]
    claims := #[[]] }

/-- The second node is put under the first. -/
def linking : Script Empty Unit :=
  Task.toScript do
    let _ ← Task.appendChild ⟨0, .initial⟩ ⟨1, .initial⟩

/-- The fourth node is put under the third, and goes along with it. -/
def discarding : Task Empty Unit Unit := do
  let _ ← Task.appendChild ⟨2, .initial⟩ ⟨3, .initial⟩
  let _ ← Task.destroy ⟨2, .initial⟩

/-- The second node is put under the third. -/
def fostering : Task Empty Unit Unit := do
  let _ ← Task.appendChild ⟨2, .initial⟩ ⟨1, .initial⟩

namespace Machine

theorem wf_gathered : gathered.Wf := (sound_run () gathering (n := 46) (by decide +kernel)).wf

theorem settled_gathered : gathered.Settled :=
  (sound_run () gathering (n := 46) (by decide +kernel)).settled (by decide +kernel)

theorem forest_gathered : gathered.Forest :=
  World.forest_of_flat wf_gathered settled_gathered (by decide +kernel) (by decide +kernel)

theorem staffed_attended {errand : Task Empty Unit Unit} (h : errand.toScript.Editing) :
    (attended errand).Staffed 0 0 0 := by
  have hupdate : gathered.listeners 0 .update = [1] := by decide +kernel
  have hdestroy : ∀ j < 2, gathered.listeners j .destroy = if j = 0 then [0] else [] := by
    decide +kernel
  have hpools : gathered.pools.size = 2 := by decide +kernel
  have hactive : gathered.board.isActive 0 = true := by decide +kernel
  refine
    { number := show gathered.idOf? .node = some 0 by decide +kernel
      cascade := rfl
      listeners := fun j => ?_
      active := hactive
      editors := fun k hk handler hhandler => ?_ }
  · show gathered.listeners j .destroy = _
    by_cases hj : j < 2
    · exact hdestroy j hj
    · rw [World.listeners_of_size_le (hpools ▸ Nat.le_of_not_lt hj), if_neg]
      rintro rfl
      exact hj (by decide)
  · rw [show (attended errand).world.listeners 0 .update = _ from hupdate] at hk
    obtain rfl := List.mem_singleton.mp hk
    obtain rfl := Option.some.inj hhandler
    intro e
    show Script.Editing (if e = ⟨0, .initial⟩ then errand.toScript else .done)
    split
    · exact h
    · exact .done

theorem calm_attended {errand : Task Empty Unit Unit} (h : errand.toScript.Editing) :
    (attended errand).Calm 0 0 0 :=
  { wf := wf_gathered
    staffed := staffed_attended h
    unclaimed := rfl
    rest := { destroying := settled_gathered.destroying, removing := settled_gathered.removing }
    forest := forest_gathered }

theorem editing_linking : linking.Editing := .appendChild (fun _ => .done) _ _

/-- Whatever the handler does in the middle of the edit, the second node is the first one's in
the end. -/
theorem considerate_edits_keep_a_forest_discarding :
    (((attended discarding).on [] (.run linking)).run 63).Calm 0 0 0 ∧
      (((attended discarding).on [] (.run linking)).run 63).world.childrenOf ⟨0, .initial⟩ =
        [⟨1, .initial⟩] ∧
      (((attended discarding).on [] (.run linking)).run 63).world.parentOf? ⟨1, .initial⟩ =
        some ⟨0, .initial⟩ ∧
      (((attended discarding).on [] (.run linking)).run 63).world.isValid ⟨3, .initial⟩ = false := by
  have hcalm : (attended discarding).Calm 0 0 0 :=
    calm_attended (.appendChild (fun _ => .destroy fun _ => .done) _ _)
  have hord : ((attended discarding).on [] (.run linking)).Ordinary 63 := by decide +kernel
  have hheeds : ∀ k < 63, (((attended discarding).on [] (.run linking)).run k).isMindful
      (((attended discarding).on [] (.run linking)).run (k + 1)) = true := by decide +kernel
  have hstart := sound_nil hcalm.wf hcalm.rest.removing hcalm.rest.destroying
    (fun id x hx => ((World.accepts_iff _ x).mp (settled_gathered.accepts hcalm.wf hx)).1) linking
  have hwf : ∀ k ≤ 63, (((attended discarding).on [] (.run linking)).run k).world.Wf :=
    fun k hk => (sound_run_from hstart fun i hi => hord i (by omega)).wf
  obtain ⟨-, hend⟩ := considerate_edits_keep_a_forest (n := 63) hcalm editing_linking
    (fun k hk => mindful_of_isMindful (hwf (k + 1) hk) (hheeds k hk))
    (Option.isNone_iff_eq_none.mp (by decide +kernel))
  exact ⟨hend, by decide +kernel, by decide +kernel, by decide +kernel⟩

/-- The handler links the second node while it is being linked: nobody has told it a parent by
then. In the end two nodes list it. -/
theorem linked_twice :
    (attended fostering).Calm 0 0 0 ∧ linking.Editing ∧
      (((attended fostering).on [] (.run linking)).run 31).isIdle = true ∧
      (((attended fostering).on [] (.run linking)).run 31).step = none ∧
      (((attended fostering).on [] (.run linking)).run 31).world.childrenOf ⟨0, .initial⟩ =
        [⟨1, .initial⟩] ∧
      (((attended fostering).on [] (.run linking)).run 31).world.childrenOf ⟨2, .initial⟩ =
        [⟨1, .initial⟩] ∧
      (((attended fostering).on [] (.run linking)).run 31).world.parentOf? ⟨1, .initial⟩ =
        some ⟨0, .initial⟩ :=
  ⟨calm_attended (.appendChild (fun _ => .done) _ _), editing_linking, by decide +kernel,
    Option.isNone_iff_eq_none.mp (by decide +kernel), by decide +kernel, by decide +kernel,
    by decide +kernel⟩

end Machine

end EntityScene
