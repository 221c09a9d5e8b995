import EntityScene.Program.Edit
import EntityScene.Proofs.Departures
import EntityScene.Proofs.Unwinding

/-!
# What scripts are made of

Whether every call of a script is of a certain sort can be told without a run: a script is a
tree of calls, and those that it connects as handlers are part of it. A machine whose scripts
make only such calls makes only such calls, however they interleave.

- `Script.Within`: all calls of a script, and of the handlers that it connects, fit.
- `Task.Within`: so do those of a task; with a rule for each way to compose tasks, and one for
  each edit of the library.
- `Machine.Within`, `within_of_step`: a machine that runs such scripts keeps to them.
- `wf_of_move`, `wf_of_fall`: no move and no fall damages the world.
-/

namespace EntityScene

variable {U σ : Type} [SceneFamily U]

/-- Whatever its calls answer, the script makes calls that fit, and so do the handlers that it
connects. -/
inductive Script.Within (fits : Call U → Prop) : Script U σ → Prop
  | done : Within fits .done
  | abort (cause : Abort) : Within fits (.abort cause)
  | inspect {next : World (Kind U) → σ → Script U σ} (h : ∀ w host, Within fits (next w host)) :
      Within fits (.inspect next)
  | note {f : σ → σ} {next : Script U σ} (h : Within fits next) : Within fits (.note f next)
  | call {c : Call U} {next : c.Reply → Script U σ} (hc : fits c) (h : ∀ r, Within fits (next r)) :
      Within fits (.call c next)
  | connect {kind : Kind U} {event : LifeEvent} {handler : ConnectionKey → Entity → Script U σ}
      {next : ConnectionKey → Script U σ} (hhandler : ∀ key e, Within fits (handler key e))
      (h : ∀ key, Within fits (next key)) : Within fits (.connect kind event handler next)
  | cascade {next : Script U σ} (h : Within fits next) : Within fits (.cascade next)
  | attempt {body : Script U σ} {next : Option Abort → Script U σ} (hbody : Within fits body)
      (h : ∀ cause, Within fits (next cause)) : Within fits (.attempt body next)
  | blocked {connection : ConnectionKey} {body next : Script U σ} (hbody : Within fits body)
      (h : Within fits next) : Within fits (.blocked connection body next)

/-- The task makes calls that fit before it goes on. -/
def Task.Within {α : Type} (task : Task U σ α) (fits : Call U → Prop) : Prop :=
  ∀ next : α → Script U σ, (∀ a, (next a).Within fits) → (task next).Within fits

variable {fits : Call U → Prop}

/-- Who only reads makes no calls. -/
theorem Script.ReadOnly.within {script : Script U σ} (h : script.ReadOnly) :
    script.Within fits := by
  induction h with
  | done => exact .done
  | inspect _ ih => exact .inspect ih
  | note _ ih => exact .note ih

namespace Task

variable {α β : Type}

theorem Within.toScript {task : Task U σ α} (h : task.Within fits) : task.toScript.Within fits :=
  h _ fun _ => .done

theorem Within.pure (a : α) : (pure a : Task U σ α).Within fits := fun _ h => h a

theorem Within.bind {task : Task U σ α} {f : α → Task U σ β} (ht : task.Within fits)
    (hf : ∀ a, (f a).Within fits) : (task >>= f).Within fits :=
  fun next h => ht _ fun a => hf a next h

theorem Within.call {c : Call U} (hc : fits c) : (call c : Task U σ c.Reply).Within fits :=
  fun _ h => .call hc h

theorem Within.look {f : World (Kind U) → Task U σ α} (hf : ∀ w, (f w).Within fits) :
    (world >>= f : Task U σ α).Within fits :=
  fun next h => .inspect fun w _ => hf w next h

theorem Within.patchNode {e : Entity} {f : TreeNode → TreeNode} (hc : fits (.patch .node e f)) :
    (patchNode e f : Task U σ Unit).Within fits :=
  .bind (.call hc) fun _ => .pure ()

/-! ## The edits of the library -/

theorem within_destroyAll (hc : ∀ e, fits (.destroy e)) (es : List Entity) :
    (destroyAll es : Task U σ Nat).Within fits := by
  induction es with
  | nil => exact .pure _
  | cons e es ih => exact .bind (.call (hc e)) fun _ => .bind ih fun _ => .pure _

variable [DecidableEq U]

theorem within_emplaceOrReplace {kind : Kind U} {e : Entity} {v : Value kind}
    (hpatch : fits (.patch kind e fun _ => v)) (hemplace : fits (.emplace kind e (.ok v))) :
    (emplaceOrReplace kind e v : Task U σ _).Within fits := by
  refine .look fun w => ?_
  show Task.Within (if w.has kind e then _ else _) fits
  split
  · exact .bind (.call hpatch) fun _ => .look fun _ => .pure _
  · exact .bind (.call hemplace) fun _ => .pure _

section Links

variable (hpatch : ∀ e f, fits (.patch .node e f))

include hpatch

theorem within_link (parent child : Entity) (enter : TreeNode → TreeNode) :
    (link parent child enter : Task U σ _).Within fits := by
  refine .look fun w => ?_
  cases w.checkLink parent child with
  | error refusal => exact .pure _
  | ok _ =>
    refine .bind (.patchNode (hpatch _ _)) fun _ => ?_
    exact .bind (.patchNode (hpatch _ _)) fun _ => .pure _

theorem within_removeChild (parent child : Entity) :
    (removeChild parent child : Task U σ _).Within fits := by
  refine .look fun w => ?_
  cases w.checkUnlink parent child with
  | error refusal => exact .pure _
  | ok _ =>
    refine .bind (.patchNode (hpatch _ _)) fun _ => ?_
    exact .bind (.patchNode (hpatch _ _)) fun _ => .pure _

theorem within_detach (child : Entity) : (detach child : Task U σ _).Within fits := by
  refine .look fun w => ?_
  cases w.nodeOf child with
  | error refusal => exact .pure _
  | ok node =>
    show Task.Within (if node.isRoot then _ else _) fits
    split
    · exact .pure _
    · split
      · exact .bind (.patchNode (hpatch _ _)) fun _ => .pure _
      · split
        · refine .bind (.patchNode (hpatch _ _)) fun _ => ?_
          exact .bind (.patchNode (hpatch _ _)) fun _ => .pure _
        · refine .bind (within_removeChild hpatch node.parent child) fun removed => ?_
          cases removed with
          | error refusal => exact .pure _
          | ok _ => exact .pure _

theorem within_reparent (child parent : Entity) :
    (reparent child parent : Task U σ _).Within fits := by
  refine .look fun w => ?_
  show Task.Within (if w.parentOf? child = some parent then _ else _) fits
  split
  · exact .pure _
  · cases w.checkMove child parent with
    | error refusal => exact .pure _
    | ok _ =>
      refine .bind (within_detach hpatch child) fun detached => ?_
      cases detached with
      | error refusal => exact .pure _
      | ok _ => exact within_link hpatch parent child _

end Links

omit [DecidableEq U] in
theorem within_spawnNode (hcreate : fits .create)
    (hnode : ∀ e, fits (.emplace .node e (.ok TreeNode.isolated)))
    (htransform : ∀ e, fits (.emplace .transform e (.ok Transform.identity))) :
    (spawnNode : Task U σ Entity).Within fits := by
  refine .bind (.call hcreate) fun e => ?_
  exact .bind (.call (hnode e)) fun _ => .bind (.call (htransform e)) fun _ => .pure _

theorem within_spawnChild (hpatch : ∀ e f, fits (.patch .node e f)) (hdestroy : ∀ e, fits (.destroy e))
    (hspawn : (spawnNode : Task U σ Entity).Within fits) (parent : Entity) :
    (spawnChild parent : Task U σ _).Within fits := by
  refine .look fun w => ?_
  cases w.nodeOf parent with
  | error refusal => exact .pure _
  | ok node =>
    refine .bind hspawn fun child => ?_
    refine .bind (within_link hpatch parent child _) fun linked => ?_
    cases linked with
    | ok _ => exact .pure _
    | error refusal => exact .bind (.call (hdestroy child)) fun _ => .pure _

end Task

/-! ## Machines -/

/-- The script of a control makes calls that fit. -/
def Control.Within (fits : Call U → Prop) : Control U σ → Prop
  | .run script => script.Within fits
  | _ => True

/-- The scripts that a frame goes on with make calls that fit. -/
def Frame.Within (fits : Call U → Prop) : Frame U σ → Prop
  | .resume next => ∀ b, (next b).Within fits
  | .taking _ _ next => ∀ v, (next v).Within fits
  | .attempt next => ∀ cause, (next cause).Within fits
  | .blocked _ next => next.Within fits
  | _ => True

/-- The scripts of a handler make calls that fit. -/
def Handler.Within (fits : Call U → Prop) : Handler U σ → Prop
  | .script body => ∀ e, (body e).Within fits
  | .cascade _ => True

namespace Machine

/-- Whatever the machine runs, waits for or has connected makes calls that fit. -/
structure Within (fits : Call U → Prop) (m : Machine U σ) : Prop where
  handlers : ∀ handler ∈ m.handlers, handler.Within fits
  stack : ∀ frame ∈ m.stack, frame.Within fits
  control : m.control.Within fits

namespace Within

variable {m m' : Machine U σ}

/-- The same handlers, and another frame on the stack. -/
theorem await (h : m.Within fits) {frame : Frame U σ} (hhandlers : m'.handlers = m.handlers)
    (hstack : m'.stack = frame :: m.stack) (hframe : frame.Within fits)
    (hcontrol : m'.control.Within fits) : m'.Within fits :=
  { handlers := hhandlers ▸ h.handlers
    stack := fun f hf => by
      rw [hstack] at hf
      rcases List.mem_cons.mp hf with rfl | hf
      · exact hframe
      · exact h.stack f hf
    control := hcontrol }

/-- The same handlers, and the same stack. -/
theorem proceed (h : m.Within fits) (hhandlers : m'.handlers = m.handlers)
    (hstack : m'.stack = m.stack) (hcontrol : m'.control.Within fits) : m'.Within fits :=
  { handlers := hhandlers ▸ h.handlers
    stack := hstack ▸ h.stack
    control := hcontrol }

end Within

variable [DecidableEq U] {m m' : Machine U σ}

theorem within_patch? (h : m.Within fits) {kind : Kind U} {e : Entity}
    {f : Value kind → Value kind} {frame : Frame U σ} (hpatch : m.patch? kind e f frame = some m')
    (hframe : frame.Within fits) : m'.Within fits := by
  obtain ⟨id, v, -, -, rfl⟩ := patch?_eq_some hpatch
  exact h.await rfl rfl hframe trivial

theorem within_call (h : m.Within fits) {c : Call U} {next : c.Reply → Script U σ}
    (hnext : ∀ r, (next r).Within fits) : (m.call c next).Within fits := by
  cases c with
  | create =>
    simp only [call]
    split
    · exact h.proceed rfl rfl (hnext _)
    · exact h.proceed rfl rfl trivial
  | destroy e => exact h.await rfl rfl hnext trivial
  | emplace kind e make =>
    simp only [call]
    split
    · split
      · exact h.proceed rfl rfl trivial
      · exact h.proceed rfl rfl (hnext _)
      · exact h.await rfl rfl (fun _ => .inspect fun _ _ => hnext _) trivial
    · exact h.proceed rfl rfl (hnext _)
  | patch kind e f =>
    cases hpatch : m.patch? kind e f (.resume fun _ => next true) with
    | none =>
      simp only [call, hpatch, Option.getD_none]
      exact h.proceed rfl rfl (hnext _)
    | some m' =>
      simp only [call, hpatch, Option.getD_some]
      exact within_patch? h hpatch fun _ => hnext _
  | take kind e =>
    simp only [call]
    split
    · exact h.await rfl rfl hnext trivial
    · exact h.proceed rfl rfl (hnext _)
  | fetchEdit e kinds f =>
    simp only [call]
    split
    · exact h.proceed rfl rfl (hnext _)
    · exact h.proceed rfl rfl trivial
  | block connection =>
    rcases call_block_cases m connection next with hblock | hblock
    · rw [hblock]
      exact h.proceed rfl rfl (hnext _)
    · rw [hblock]
      exact h.proceed rfl rfl trivial
  | _ => exact h.proceed rfl rfl (hnext _)

omit [DecidableEq U] in
theorem within_push (h : m.Within fits) (handler : Handler U σ) (hhandler : handler.Within fits)
    (world : World (Kind U)) :
    Within fits { m with world, handlers := m.handlers.push handler } :=
  { h with
    handlers := fun g hg => by
      rcases Array.mem_push.mp hg with hg | rfl
      · exact h.handlers g hg
      · exact hhandler }

theorem within_runScript (h : m.Within fits) {script : Script U σ}
    (hscript : script.Within fits) : (m.runScript script).Within fits := by
  cases hscript with
  | done => exact h.proceed rfl rfl trivial
  | abort cause => exact h.proceed rfl rfl trivial
  | inspect hnext => exact h.proceed rfl rfl (hnext _ _)
  | note hnext => exact h.proceed rfl rfl hnext
  | call _ hnext => exact within_call h hnext
  | @connect kind event handler next hhandler hnext =>
    rcases runScript_connect_cases m kind event handler next with
      ⟨key, -, hmade⟩ | ⟨cause, -, hmade⟩
    · rw [hmade]
      have hpushed := within_push h (.script (handler key)) (hhandler key)
        (m.world.connect kind event).2
      exact hpushed.proceed rfl rfl (hnext key)
    · rw [hmade]
      exact h.proceed rfl rfl trivial
  | @cascade next hnext =>
    have hready : m.withClaims.Within fits := h.proceed rfl rfl h.control
    rcases runScript_cascade_cases m next with ⟨key, -, hmade⟩ | ⟨cause, -, hmade⟩
    · rw [hmade]
      have hpushed := within_push hready (.cascade m.claims.size) trivial
        (m.withClaims.world.connect .node .destroy).2
      exact hpushed.proceed rfl rfl hnext
    · rw [hmade]
      exact hready.proceed rfl rfl trivial
  | attempt hbody hnext => exact h.await rfl rfl hnext hbody
  | @blocked connection body next hbody hnext =>
    rcases runScript_blocked_cases m connection body next with hblock | hblock
    · rw [hblock]
      exact h.await rfl rfl hnext hbody
    · rw [hblock]
      exact h.proceed rfl rfl trivial

theorem within_startCascade (h : m.Within fits) (claims : Nat) (e : Entity) :
    (m.startCascade claims e).Within fits := by
  unfold startCascade
  split
  · exact h.proceed rfl rfl trivial
  · cases hpatch : (m.world.validParentOf? e).bind fun parent =>
        m.patch? .node parent (fun node => TreeNode.dropChild node e) (.unlinking claims e) with
    | none =>
      simp only [hpatch, Option.getD_none]
      exact h.await rfl rfl trivial trivial
    | some m' =>
      obtain ⟨parent, -, hpatch'⟩ := Option.bind_eq_some_iff.mp hpatch
      simp only [hpatch, Option.getD_some]
      exact within_patch? h hpatch' trivial

theorem within_invoke (h : m.Within fits) (key : ConnectionKey) (e : Entity) :
    (m.invoke key e).Within fits := by
  unfold invoke
  split
  · rename_i body hbody
    exact h.proceed rfl rfl (h.handlers _ (Array.mem_of_getElem? hbody) e)
  · exact within_startCascade h _ e
  · exact h.proceed rfl rfl trivial

omit [DecidableEq U] in
theorem within_tearDown (h : m.Within fits) (e : Entity) (id : ComponentId) :
    (m.tearDown e id).Within fits := by
  unfold tearDown
  split
  · exact h.await rfl rfl trivial trivial
  · exact h.proceed rfl rfl trivial

theorem within_cascadeOn (h : m.Within fits) (claims : Nat) (past ahead : List Entity) :
    (m.cascadeOn claims past ahead).Within fits := by
  cases ahead with
  | nil => exact h.proceed rfl rfl trivial
  | cons e ahead => exact h.await rfl rfl trivial trivial

theorem within_resume (h : m.Within fits) {frame : Frame U σ} (hframe : frame.Within fits)
    (b : Bool) : (m.resume frame b).Within fits := by
  cases frame with
  | dispatch id event e keys =>
    cases keys with
    | nil => exact h.proceed rfl rfl trivial
    | cons key keys =>
      refine h.await rfl rfl trivial ?_
      show Control.Within fits (if m.world.board.isActive key then .invoke key e else .reply true)
      split <;> trivial
  | removal id e => exact h.proceed rfl rfl trivial
  | teardown e id =>
    rcases resume_teardown_cases m e id b with ⟨-, hresume⟩ | ⟨cause, -, -, hresume⟩
    · have herased : Within fits { m with world := if b then m.world.erase id e else m.world } :=
        h.proceed rfl rfl h.control
      rw [hresume]
      exact within_tearDown herased e (id + 1)
    · rw [hresume]
      exact h.proceed rfl rfl trivial
  | resume next => exact h.proceed rfl rfl (hframe b)
  | taking kind e next =>
    rcases resume_taking_cases m e next b with ⟨old, hresume⟩ | ⟨cause, -, -, hresume⟩
    · rw [hresume]
      exact h.proceed rfl rfl (hframe old)
    · rw [hresume]
      exact h.proceed rfl rfl trivial
  | attempt next => exact h.proceed rfl rfl (hframe _)
  | blocked guard next => exact h.proceed rfl rfl hframe
  | unlinking claims e =>
    have hclaimed : Within fits (m.claim claims (e :: m.world.descendants e)).2 :=
      h.proceed rfl rfl h.control
    exact within_cascadeOn hclaimed claims [] _
  | cascade claims past ahead => exact within_cascadeOn h claims past ahead

omit [DecidableEq U] in
theorem within_abandon (h : m.Within fits) {frame : Frame U σ} (hframe : frame.Within fits)
    (cause : Abort) : (m.abandon frame cause).Within fits := by
  cases frame with
  | attempt next => exact h.proceed rfl rfl (hframe _)
  | blocked guard next => exact h.proceed rfl rfl h.control
  | cascade claims past ahead => exact h.proceed rfl rfl h.control
  | _ => exact h

/-- A machine keeps to the calls that its scripts are made of. -/
theorem within_of_step (h : m.Within fits) (hstep : m.step = some m') : m'.Within fits := by
  have htail : ∀ {frame stack}, m.stack = frame :: stack →
      frame.Within fits ∧ { m with stack }.Within fits := fun {frame stack} hstack =>
    ⟨h.stack frame (hstack ▸ List.mem_cons_self),
      { h with stack := fun f hf => h.stack f (hstack ▸ List.mem_cons_of_mem frame hf) }⟩
  cases stepped_of_step hstep with
  | run script hcall =>
    have hscript := h.control
    rw [hcall] at hscript
    exact within_runScript h hscript
  | publish id event e hcall => exact h.await rfl rfl trivial trivial
  | invoke key e hcall => exact within_invoke h key e
  | destroy e hcall =>
    simp only [destroy]
    split
    · have hbegun : Within fits { m with world := m.world.beginDestroy e } :=
        h.proceed rfl rfl h.control
      exact within_tearDown hbegun e 0
    · exact h.proceed rfl rfl trivial
  | announce id e hcall =>
    simp only [announce]
    split
    · exact h.proceed rfl rfl trivial
    · exact h.await rfl rfl trivial trivial
  | reply b frame stack hcall hstack => exact within_resume (htail hstack).2 (htail hstack).1 b
  | unwind cause frame stack hcall hstack =>
    exact within_abandon (htail hstack).2 (htail hstack).1 cause

omit [DecidableEq U] in
/-- The next call of a machine fits. -/
theorem Within.call (h : m.Within fits) {c : Call U} {next : c.Reply → Script U σ}
    (hcall : m.control = .run (.call c next)) : fits c := by
  have hscript := h.control
  rw [hcall] at hscript
  cases hscript with
  | call hc _ => exact hc

/-! ## Worlds in order -/

omit [DecidableEq U] in
theorem wf_of_tornDown {w : World (Kind U)} {e : Entity} {id : ComponentId}
    {rest : List (Frame U σ)} (hwf : w.Wf) (h : TornDown w e id rest m') : m'.world.Wf := by
  cases h with
  | next _ world => exact world ▸ hwf
  | last _ world => exact world ▸ World.wf_release hwf e

/-- No move damages the world. -/
theorem wf_of_move (hwf : m.world.Wf) (h : Move m m') : m'.world.Wf := by
  cases h with
  | quiet _ _ _ _ _ _ _ world => exact world.wf
  | created e table next _ allocate world =>
    exact world ▸ { hwf with table := Entity.Table.wf_allocate hwf.table allocate }
  | placed _ _ _ _ _ _ _ _ _ world => exact world.wf
  | asked _ _ _ _ _ _ world => exact world ▸ hwf
  | begun e _ _ torn => exact wf_of_tornDown (World.wf_beginDestroy hwf e) torn
  | refused _ _ _ _ world => exact world ▸ hwf
  | announced _ _ _ _ _ world => exact world ▸ { hwf with }
  | finished _ _ _ _ _ world => exact world ▸ { hwf with }
  | teardown id e b _ _ _ torn =>
    refine wf_of_tornDown ?_ torn
    split
    · exact World.wf_erase hwf id e
    · exact hwf
  | taken kind e b _ _ _ _ world =>
    rw [world]
    split
    · cases hid : m.world.idOf? kind with
      | none =>
        rw [World.pull, World.storage?_eq_none hid]
        exact hwf
      | some id =>
        rw [World.pull_eq hwf hid]
        exact World.wf_erase hwf id e
    · exact hwf

/-- No fall damages the world. -/
theorem wf_of_fall (hwf : m.world.Wf) (h : Fall m m') : m'.world.Wf := by
  cases h with
  | raised _ _ world => exact world.wf
  | exhausted _ _ _ _ world => exact world ▸ hwf
  | left _ _ _ _ world => exact world.wf

theorem wf_of_step (hwf : m.world.Wf) (htame : m.isTame = true) (hstep : m.step = some m') :
    m'.world.Wf := by
  rcases move_or_fall_of_step hwf htame hstep with hmove | hfall
  · exact wf_of_move hwf hmove
  · exact wf_of_fall hwf hfall

end Machine

end EntityScene
