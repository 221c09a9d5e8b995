import EntityScene.Proofs.Departures
import EntityScene.Proofs.Frames
import EntityScene.Proofs.Windows

/-!
# Who comes and who goes

Handles are issued where a script asks for one, and given up where a destruction has come to its
last pool. Nothing else that happens to a scene changes a handle, also where storages are edited
directly and where calls are abandoned.

- `World.entities_place`, `entities_fetchEdit`, `entities_updateAllTransforms`, ..: the edits of
  a world leave its handles alone.
- `Machine.issued?`: the handle that the next step issues.
- `destructions`: the destructions under way, with what waits for each of them.
- `Machine.Turnover`, `turnover_of_step`: what a step does to handles and destructions.
- `Turnover.accepted_cases`, `.released_cases`: what a step does that accepts a destruction, or gives
  an entity up.
-/

namespace EntityScene

namespace World

section Kinds

variable {K : Type} [ComponentFamily K] [DecidableEq K]

theorem entities_pull (w : World K) (kind : K) (e : Entity) :
    (w.pull kind e).2.entities = w.entities := by
  unfold pull
  split
  · rfl
  · exact entities_updateStorage

theorem entities_fetchEdit (w : World K) (e : Entity) (kinds : List K)
    (f : (kind : K) → Value kind → Value kind) :
    (w.fetchEdit e kinds f).2.entities = w.entities := by
  have hfold : ∀ (ps : List (K × ComponentId)) (w : World K),
      (ps.foldl (fun w p => w.editPooled p.1 p.2 e (f p.1)) w).entities = w.entities := by
    intro ps
    induction ps with
    | nil => exact fun w => rfl
    | cons p ps ih => exact fun w => ih _
  unfold fetchEdit
  simp only
  split
  · split
    · exact (hfold _ _).trans (extended_registerAll w kinds).entities
    · exact (extended_registerAll w kinds).entities
  · exact (extended_registerAll w kinds).entities

omit [DecidableEq K] in
/-- Who can be destroyed may be given components. -/
theorem accepts_of_state? {w : World K} {e : Entity} (h : w.entities.state? e = some .alive) :
    w.accepts e = true := by
  refine (accepts_iff w e).mpr ⟨(Entity.Table.isAlive_iff _ e).mpr (.inl h), ?_⟩
  rw [isDestroying, Entity.Table.isDestroying, h]
  rfl

end Kinds

section Passes

variable {U : Type} [SceneFamily U] [DecidableEq U]

theorem entities_propagate (w : World (Kind U)) (room : Nat) (waiting : List (Visit U)) :
    (w.propagate room waiting).entities = w.entities := by
  induction room generalizing w waiting with
  | zero => rfl
  | succ room ih =>
    unfold propagate
    split
    · rfl
    · exact (ih _ _).trans (entities_edit w _ _ _)

theorem entities_updateTransform (w : World (Kind U)) (root : Entity) :
    (w.updateTransform root).entities = w.entities :=
  entities_propagate _ _ _

theorem entities_updateAllTransforms (w : World (Kind U)) :
    w.updateAllTransforms.2.entities = w.entities := by
  have hfold : ∀ (roots : List Entity) (w : World (Kind U)),
      (roots.foldl updateTransform w).entities = w.entities := by
    intro roots
    induction roots with
    | nil => exact fun w => rfl
    | cons root roots ih => exact fun w => (ih _).trans (entities_updateTransform w root)
  exact hfold _ w

end Passes

end World

variable {U σ : Type} [SceneFamily U]

/-! ## Destructions under way -/

/-- The destructions under way on a stack, the innermost first: who is destroyed, and what waits
for that. -/
def destructions : List (Frame U σ) → List (Entity × List (Frame U σ))
  | [] => []
  | .teardown e _ :: stack => (e, stack) :: destructions stack
  | _ :: stack => destructions stack

theorem destructions_cons_of_ne {frame : Frame U σ} (h : ∀ e id, frame ≠ .teardown e id)
    (stack : List (Frame U σ)) : destructions (frame :: stack) = destructions stack := by
  cases frame with
  | teardown e id => exact absurd rfl (h e id)
  | _ => rfl

/-- What waits for a destruction lies below it. -/
theorem suffix_of_mem_destructions {stack rest : List (Frame U σ)} {e : Entity}
    (h : (e, rest) ∈ destructions stack) : ∃ id, .teardown e id :: rest <:+ stack := by
  induction stack with
  | nil => cases h
  | cons frame stack ih =>
    have hbelow : (e, rest) ∈ destructions stack → ∃ id, .teardown e id :: rest <:+ frame :: stack :=
      fun h => by
        obtain ⟨id, hsuf⟩ := ih h
        exact ⟨id, hsuf.trans (List.suffix_cons frame stack)⟩
    cases frame with
    | teardown x id =>
      rcases List.mem_cons.mp h with heq | h
      · obtain ⟨rfl, rfl⟩ := Prod.mk.inj heq
        exact ⟨id, List.suffix_rfl⟩
      · exact hbelow h
    | _ => exact hbelow h

theorem mem_destroyed_of_mem_destructions {stack rest : List (Frame U σ)} {e : Entity}
    (h : (e, rest) ∈ destructions stack) : e ∈ destroyed stack := by
  obtain ⟨id, hsuf⟩ := suffix_of_mem_destructions h
  exact List.mem_filterMap.mpr ⟨.teardown e id, hsuf.subset List.mem_cons_self, rfl⟩

/-- What waits for a destruction is less than what is on the stack. -/
theorem length_lt_of_mem_destructions {stack rest : List (Frame U σ)} {e : Entity}
    (h : (e, rest) ∈ destructions stack) : rest.length < stack.length := by
  obtain ⟨id, hsuf⟩ := suffix_of_mem_destructions h
  exact hsuf.length_le

namespace Machine

/-- The handle that the next step issues. -/
def issued? (m : Machine U σ) : Option Entity :=
  match m.control with
  | .run (.call .create _) => m.world.entities.allocate.1.toOption
  | _ => none

variable {m m' : Machine U σ}

theorem issued?_eq_some {e : Entity} (h : m.issued? = some e) :
    ∃ next table, m.control = .run (.call .create next) ∧
      m.world.entities.allocate = (.ok e, table) := by
  unfold issued? at h
  split at h
  · rename_i next hcall
    refine ⟨next, m.world.entities.allocate.2, hcall, Prod.ext ?_ rfl⟩
    cases hcreated : m.world.entities.allocate.1 with
    | ok x =>
      rw [hcreated] at h
      exact congrArg Except.ok (Option.some.inj h)
    | error cause =>
      rw [hcreated] at h
      cases h
  · cases h

/-- What a step does to the handles, and to the destructions under way. -/
inductive Turnover (m m' : Machine U σ) : Prop
  /-- Nothing. -/
  | kept (issued : m.issued? = none) (accepted : m.accepted? = none)
      (released : m.released? = none) (entities : m'.world.entities = m.world.entities)
      (under : destructions m'.stack = destructions m.stack)
  /-- No handle changes, but a destruction is abandoned. -/
  | abandoned (e : Entity) (cause : Abort) (issued : m.issued? = none)
      (accepted : m.accepted? = none) (released : m.released? = none)
      (entities : m'.world.entities = m.world.entities)
      (under : destructions m.stack = (e, m'.stack) :: destructions m'.stack)
      (answer : m'.control = .unwind cause)
  /-- A handle is issued. -/
  | issued (e : Entity) (next : Entity → Script U σ) (call : m.control = .run (.call .create next))
      (issued : m.issued? = some e) (accepted : m.accepted? = none)
      (released : m.released? = none) (stack : m'.stack = m.stack) (answer : m'.control = .run (next e))
      (entities : m.world.entities.allocate = (.ok e, m'.world.entities))
  /-- A destruction is accepted, and waits for the first pool. -/
  | accepted (e : Entity) (issued : m.issued? = none) (accepted : m.accepted? = some e)
      (released : m.released? = none)
      (entities : m'.world.entities = (m.world.entities.beginDestroy e).2)
      (under : destructions m'.stack = (e, m.stack) :: destructions m.stack)
  /-- An entity is given up, after the last pool. -/
  | released (e : Entity) (issued : m.issued? = none) (accepted : m.accepted? = none)
      (released : m.released? = some e)
      (entities : m'.world.entities = (m.world.entities.release e).2)
      (under : destructions m.stack = (e, m'.stack) :: destructions m'.stack)
      (answer : m'.control = .reply true)
  /-- A destruction is accepted where there are no pools, and the entity is given up. -/
  | both (e : Entity) (issued : m.issued? = none) (accepted : m.accepted? = some e)
      (released : m.released? = some e)
      (entities : m'.world.entities = ((m.world.entities.beginDestroy e).2.release e).2)
      (stack : m'.stack = m.stack) (answer : m'.control = .reply true)

/-- A destruction that was under way is so after a step, or its call is over: its entity was
given up, or the calls in progress are being left. -/
theorem Turnover.mem_destructions (ht : Turnover m m') {e : Entity} {rest : List (Frame U σ)}
    (h : (e, rest) ∈ destructions m.stack) :
    (e, rest) ∈ destructions m'.stack ∨
      m'.stack = rest ∧ (m.released? = some e ∨ ∃ cause, m'.control = .unwind cause) := by
  cases ht with
  | kept issued accepted released entities under => exact .inl (under ▸ h)
  | abandoned x cause issued accepted released entities under answer =>
    rw [under] at h
    rcases List.mem_cons.mp h with heq | h
    · obtain ⟨rfl, rfl⟩ := Prod.mk.inj heq
      exact .inr ⟨rfl, .inr ⟨cause, answer⟩⟩
    · exact .inl h
  | issued x next call issued accepted released stack answer entities => exact .inl (stack ▸ h)
  | accepted x issued accepted released entities under =>
    exact .inl (under ▸ List.mem_cons_of_mem _ h)
  | released x issued accepted released entities under answer =>
    rw [under] at h
    rcases List.mem_cons.mp h with heq | h
    · obtain ⟨rfl, rfl⟩ := Prod.mk.inj heq
      exact .inr ⟨rfl, .inl released⟩
    · exact .inl h
  | both x issued accepted released entities stack answer => exact .inl (stack ▸ h)

/-- A destruction that is accepted waits for the first pool, or gives its entity up at once. -/
theorem Turnover.accepted_cases (ht : Turnover m m') {e : Entity} (h : m.accepted? = some e) :
    (m.released? = none ∧ m'.world.entities = (m.world.entities.beginDestroy e).2 ∧
        destructions m'.stack = (e, m.stack) :: destructions m.stack) ∨
      (m.released? = some e ∧
        m'.world.entities = ((m.world.entities.beginDestroy e).2.release e).2 ∧
        m'.stack = m.stack ∧ m'.control = .reply true) := by
  cases ht with
  | accepted x issued accepted released entities under =>
    obtain rfl := Option.some.inj (accepted.symm.trans h)
    exact .inl ⟨released, entities, under⟩
  | both x issued accepted released entities stack answer =>
    obtain rfl := Option.some.inj (accepted.symm.trans h)
    exact .inr ⟨released, entities, stack, answer⟩
  | kept _ accepted _ _ _ => cases accepted.symm.trans h
  | abandoned _ _ _ accepted _ _ _ _ => cases accepted.symm.trans h
  | issued _ _ _ _ accepted _ _ _ _ => cases accepted.symm.trans h
  | released _ _ accepted _ _ _ _ => cases accepted.symm.trans h

/-- An entity is given up by a destruction that was under way, or by one that is accepted just
then. -/
theorem Turnover.released_cases (ht : Turnover m m') {e : Entity} (h : m.released? = some e) :
    m'.control = .reply true ∧
      ((m'.world.entities = (m.world.entities.release e).2 ∧
          destructions m.stack = (e, m'.stack) :: destructions m'.stack) ∨
        (m.accepted? = some e ∧
          m'.world.entities = ((m.world.entities.beginDestroy e).2.release e).2 ∧
          m'.stack = m.stack)) := by
  cases ht with
  | released x issued accepted released entities under answer =>
    obtain rfl := Option.some.inj (released.symm.trans h)
    exact ⟨answer, .inl ⟨entities, under⟩⟩
  | both x issued accepted released entities stack answer =>
    obtain rfl := Option.some.inj (released.symm.trans h)
    exact ⟨answer, .inr ⟨accepted, entities, stack⟩⟩
  | kept _ _ released _ _ => cases released.symm.trans h
  | abandoned _ _ _ _ released _ _ _ => cases released.symm.trans h
  | issued _ _ _ _ _ released _ _ _ => cases released.symm.trans h
  | accepted _ _ _ released _ _ => cases released.symm.trans h

/-- A destruction that is accepted is under way after the step, unless there is no pool to wait
for. -/
theorem Turnover.mem_destructions_of_accepted (ht : Turnover m m') {e : Entity}
    (haccepted : m.accepted? = some e) :
    (e, m.stack) ∈ destructions m'.stack ∨ m'.stack = m.stack ∧ m.released? = some e := by
  rcases ht.accepted_cases haccepted with ⟨-, -, hunder⟩ | ⟨hreleased, -, hstack, -⟩
  · exact .inl (hunder ▸ List.mem_cons_self)
  · exact .inr ⟨hstack, hreleased⟩

/-- A script that asks for no handle changes none. -/
theorem Turnover.of_run {script : Script U σ} (hcall : m.control = .run script)
    (hcreate : ∀ next, script ≠ .call .create next)
    (entities : m'.world.entities = m.world.entities)
    (under : destructions m'.stack = destructions m.stack) : Turnover m m' := by
  refine .kept ?_ (by simp [accepted?, hcall]) (by simp [released?, hcall]) entities
    under
  unfold issued?
  split
  · rename_i next hc
    rw [hcall, Control.run.injEq] at hc
    exact absurd hc (hcreate next)
  · rfl

variable [DecidableEq U]

theorem turnover_create (hwf : m.world.entities.Wf) {next : Entity → Script U σ}
    (hcall : m.control = .run (.call .create next)) : Turnover m (m.call .create next) := by
  obtain ⟨created, t', halloc⟩ : ∃ created t', m.world.entities.allocate = (created, t') := ⟨_, _, rfl⟩
  have hissued : m.issued? = created.toOption := by simp only [issued?, hcall, halloc]
  have haccepted : m.accepted? = none := by simp [accepted?, hcall]
  have hreleased : m.released? = none := by simp [released?, hcall]
  simp only [call, World.create, halloc]
  cases created with
  | ok e => exact .issued e next hcall hissued haccepted hreleased rfl rfl halloc
  | error cause =>
    obtain ⟨rfl, -⟩ := Entity.Table.allocate_error hwf halloc
    exact .kept hissued haccepted hreleased rfl rfl

/-- A patch changes no handle. -/
theorem entities_patch? {kind : Kind U} {e : Entity} {f : Value kind → Value kind}
    {frame : Frame U σ} (h : m.patch? kind e f frame = some m') :
    m'.world.entities = m.world.entities ∧ m'.stack = frame :: m.stack := by
  obtain ⟨id, v, -, -, rfl⟩ := patch?_eq_some h
  exact ⟨World.entities_edit _ _ _ _, rfl⟩

theorem turnover_call (hwf : m.world.entities.Wf) {c : Call U} {next : c.Reply → Script U σ}
    (hcall : m.control = .run (.call c next)) : Turnover m (m.call c next) := by
  cases c with
  | create => exact turnover_create hwf hcall
  | emplace kind e make =>
    have hplace := World.entities_place m.world kind e make
    refine .of_run hcall (fun _ hc => by cases hc) ?_ ?_
    · simp only [call]
      split
      · split <;> exact hplace
      · rfl
    · simp only [call]
      split
      · split <;> rfl
      · rfl
  | edit kind e f =>
    exact .of_run hcall (fun _ hc => by cases hc) (World.entities_edit _ _ _ _) rfl
  | patch kind e f =>
    refine .of_run hcall (fun _ hc => by cases hc) ?_ ?_
    · cases hp : m.patch? kind e f (.resume fun _ => next true) with
      | none =>
        simp only [call, hp]
        rfl
      | some m' =>
        simp only [call, hp]
        exact (entities_patch? hp).1
    · cases hp : m.patch? kind e f (.resume fun _ => next true) with
      | none =>
        simp only [call, hp]
        rfl
      | some m' =>
        simp only [call, hp, Option.getD_some, (entities_patch? hp).2]
        rfl
  | take kind e =>
    refine .of_run hcall (fun _ hc => by cases hc) ?_ ?_
    · simp only [call]
      split <;> rfl
    · simp only [call]
      split <;> rfl
  | fetchEdit e kinds f =>
    have hfetch := World.entities_fetchEdit m.world e kinds f
    refine .of_run hcall (fun _ hc => by cases hc) ?_ ?_
    · simp only [call]
      split <;> exact hfetch
    · simp only [call]
      split <;> rfl
  | alterStorage kind f =>
    exact .of_run hcall (fun _ hc => by cases hc) World.entities_updateStorage rfl
  | updateTransform root =>
    exact .of_run hcall (fun _ hc => by cases hc) (World.entities_updateTransform _ _) rfl
  | updateAllTransforms =>
    exact .of_run hcall (fun _ hc => by cases hc) (World.entities_updateAllTransforms _) rfl
  | block connection =>
    have hover := over_block m connection next
    exact .of_run hcall (fun _ hc => by cases hc) (by rw [hover.world])
      (congrArg destructions hover.stack)
  | _ => exact .of_run hcall (fun _ hc => by cases hc) rfl rfl

theorem turnover_runScript (hwf : m.world.entities.Wf) {script : Script U σ}
    (hcall : m.control = .run script) : Turnover m (m.runScript script) := by
  cases script with
  | call c next => exact turnover_call hwf hcall
  | connect kind event handler next =>
    have hover := over_connect m kind event handler next
    exact .of_run hcall (fun _ hc => by cases hc) (by rw [hover.world]; rfl)
      (congrArg destructions hover.stack)
  | cascade next =>
    have hover := over_cascade m next
    exact .of_run hcall (fun _ hc => by cases hc) (by rw [hover.world]; rfl)
      (congrArg destructions hover.stack)
  | blocked connection body next =>
    rcases runScript_blocked_cases m connection body next with h | h
    · exact .of_run hcall (fun _ hc => by cases hc) (by rw [h]; rfl) (by rw [h]; rfl)
    · exact .of_run hcall (fun _ hc => by cases hc) (by rw [h]; rfl) (by rw [h]; rfl)
  | _ => exact .of_run hcall (fun _ hc => by cases hc) rfl rfl

/-- A handler changes no handle before its script goes on. -/
theorem entities_invoke (m : Machine U σ) (key : ConnectionKey) (e : Entity) :
    (m.invoke key e).world.entities = m.world.entities ∧
      destructions (m.invoke key e).stack = destructions m.stack := by
  unfold invoke
  split
  · exact ⟨rfl, rfl⟩
  · rename_i claims _
    unfold startCascade
    split
    · exact ⟨rfl, rfl⟩
    · cases hp : (m.world.validParentOf? e).bind fun parent =>
          m.patch? .node parent (fun node => TreeNode.dropChild node e) (.unlinking claims e) with
      | none =>
        simp only [hp]
        exact ⟨rfl, rfl⟩
      | some m' =>
        obtain ⟨parent, -, hpatch⟩ := Option.bind_eq_some_iff.mp hp
        obtain ⟨hentities, hstack⟩ := entities_patch? hpatch
        simp only [hp, Option.getD_some, hstack]
        exact ⟨hentities, rfl⟩
  · exact ⟨rfl, rfl⟩

omit [DecidableEq U] in
/-- A destruction is accepted, or changes nothing. -/
theorem turnover_destroy {e : Entity} (hcall : m.control = .destroy e) :
    Turnover m (m.destroy e) := by
  have hissued : m.issued? = none := by simp only [issued?, hcall]
  by_cases halive : m.world.entities.state? e = some .alive
  · have haccepts := World.accepts_of_state? halive
    have haccepted : m.accepted? = some e := by simp only [accepted?, hcall, haccepts, if_true]
    cases tornDown_destroy m halive with
    | next pool world stack control =>
      refine .accepted e hissued haccepted ?_ (by rw [world]) (by rw [stack]; rfl)
      simp only [released?, hcall, haccepts, true_and]
      exact if_neg (Nat.ne_of_gt pool)
    | last pool world stack control =>
      refine .both e hissued haccepted ?_ (by rw [world]) stack control
      simp only [released?, hcall, haccepts, true_and]
      exact if_pos (Nat.le_zero.mp pool)
  · have haccepts : ¬ m.world.accepts e = true := fun ha =>
      halive (World.state?_of_accepts ha)
    rw [destroy_of_ne m halive]
    refine .kept hissued ?_ ?_ rfl rfl
    · simp only [accepted?, hcall, if_neg haccepts]
    · simp only [released?, hcall, haccepts]
      rfl

/-- A cascade that goes on changes no handle. -/
theorem entities_cascadeOn (m : Machine U σ) (claims : Nat) (past ahead : List Entity) :
    (m.cascadeOn claims past ahead).world = m.world ∧
      destructions (m.cascadeOn claims past ahead).stack = destructions m.stack := by
  cases ahead <;> exact ⟨rfl, rfl⟩

/-- An answer that is not for a destruction changes no handle. -/
theorem entities_resume {frame : Frame U σ} (hframe : ∀ e id, frame ≠ .teardown e id) (b : Bool) :
    (m.resume frame b).world.entities = m.world.entities ∧
      destructions (m.resume frame b).stack = destructions m.stack := by
  cases frame with
  | dispatch id event e keys => cases keys <;> exact ⟨rfl, rfl⟩
  | teardown e id => exact absurd rfl (hframe e id)
  | taking kind e next =>
    have hover := over_taking m e next b
    refine ⟨?_, congrArg destructions hover.stack⟩
    rw [hover.world]
    cases b with
    | true => exact World.entities_pull _ _ _
    | false => rfl
  | unlinking claims e =>
    obtain ⟨hworld, hunder⟩ := entities_cascadeOn (m.claim claims (e :: m.world.descendants e)).2
      claims [] (m.claim claims (e :: m.world.descendants e)).1
    exact ⟨congrArg World.entities hworld, hunder⟩
  | cascade claims past ahead =>
    obtain ⟨hworld, hunder⟩ := entities_cascadeOn m claims past ahead
    exact ⟨congrArg World.entities hworld, hunder⟩
  | _ => exact ⟨rfl, rfl⟩

/-- A destruction goes on with the next pool, or gives its entity up. -/
theorem turnover_teardown {e : Entity} {id : ComponentId} {b : Bool} {stack : List (Frame U σ)}
    (hcall : m.control = .reply b) (hstack : m.stack = .teardown e id :: stack) :
    Turnover m ({ m with stack }.resume (.teardown e id) b) := by
  have hissued : m.issued? = none := by simp only [issued?, hcall]
  have haccepted : m.accepted? = none := by simp only [accepted?, hcall]
  have hunder : destructions m.stack = (e, stack) :: destructions stack := by rw [hstack]; rfl
  rcases resume_teardown_cases { m with stack } e id b with
    ⟨hok, hresume⟩ | ⟨cause, rfl, herasure, hresume⟩
  · rw [hresume]
    -- the row that the pool may have is taken away first
    obtain ⟨w, hw⟩ : ∃ w, w = if b then m.world.erase id e else m.world := ⟨_, rfl⟩
    have hentities : w.entities = m.world.entities := by
      rw [hw]
      split <;> rfl
    have hsize : w.pools.size = m.world.pools.size := by
      rw [hw]
      split
      · exact World.size_pools_erase _ _ _
      · rfl
    have hgoes : ¬ (b = true ∧ (m.world.erasure id e).isOk = false) := fun hno => by
      rw [show (m.world.erasure id e).isOk = true from hok hno.1] at hno
      exact Bool.false_ne_true hno.2.symm
    have hreleased : m.released? = if id + 1 < m.world.pools.size then none else some e := by
      simp only [released?, hcall, hstack, hgoes, or_false]
    show Turnover m ({ m with stack, world := if b then _ else _ }.tearDown e (id + 1))
    rw [← hw]
    cases tornDown_tearDown { m with stack, world := w } e (id + 1) with
    | next pool world stack control =>
      refine .kept hissued haccepted ?_ (by rw [world]; exact hentities) ?_
      · rw [hreleased, if_pos (hsize ▸ pool)]
      · rw [stack, hunder]
        rfl
    | last pool world stack control =>
      refine .released e hissued haccepted ?_ ?_ ?_ control
      · rw [hreleased, if_neg (Nat.not_lt.mpr (hsize ▸ pool))]
      · rw [world]
        exact congrArg (fun t => (t.release e).2) hentities
      · rw [stack, hunder]
  · rw [hresume]
    refine .abandoned e cause hissued haccepted ?_ rfl hunder rfl
    simp only [released?, hcall, hstack]
    rw [show m.world.erasure id e = .error cause from herasure]
    exact if_pos (.inr ⟨trivial, rfl⟩)

omit [DecidableEq U] in
/-- Nobody is given up where calls are abandoned. -/
theorem entities_abandon (frame : Frame U σ) (cause : Abort) :
    (m.abandon frame cause).world.entities = m.world.entities := by
  cases frame <;> rfl

/-- What a step does to the handles. -/
theorem turnover_of_step (hwf : m.world.entities.Wf) (h : m.step = some m') : Turnover m m' := by
  cases stepped_of_step h with
  | run script hcall => exact turnover_runScript hwf hcall
  | publish id event e hcall =>
    exact Turnover.kept (by simp only [issued?, hcall]) (by simp only [accepted?, hcall])
      (by simp only [released?, hcall]) (World.entities_snapshot _ _ _) rfl
  | invoke key e hcall =>
    obtain ⟨hentities, hunder⟩ := entities_invoke m key e
    exact Turnover.kept (by simp only [issued?, hcall]) (by simp only [accepted?, hcall])
      (by simp only [released?, hcall]) hentities hunder
  | destroy e hcall => exact turnover_destroy hcall
  | announce id e hcall =>
    refine Turnover.kept (by simp only [issued?, hcall]) (by simp only [accepted?, hcall])
      (by simp only [released?, hcall]) ?_ ?_
    · unfold announce
      split <;> rfl
    · unfold announce
      split <;> rfl
  | reply b frame stack hcall hstack =>
    by_cases hframe : ∃ e id, frame = .teardown e id
    · obtain ⟨e, id, rfl⟩ := hframe
      exact turnover_teardown hcall hstack
    · have hother : ∀ e id, frame ≠ .teardown e id := fun e id hc => hframe ⟨e, id, hc⟩
      obtain ⟨hentities, hunder⟩ := entities_resume (m := { m with stack }) hother b
      refine .kept (by simp only [issued?, hcall]) (by simp only [accepted?, hcall]) ?_ hentities ?_
      · cases frame with
        | teardown e id => exact absurd rfl (hother e id)
        | _ => simp only [released?, hcall, hstack]
      · rw [hunder, hstack, destructions_cons_of_ne hother]
  | unwind cause frame stack hcall hstack =>
    have hissued : m.issued? = none := by simp only [issued?, hcall]
    have haccepted : m.accepted? = none := by simp only [accepted?, hcall]
    have hreleased : m.released? = none := by simp only [released?, hcall]
    by_cases hframe : ∃ e id, frame = .teardown e id
    · obtain ⟨e, id, rfl⟩ := hframe
      exact .abandoned e cause hissued haccepted hreleased rfl (by rw [hstack]; rfl) hcall
    · have hother : ∀ e id, frame ≠ .teardown e id := fun e id hc => hframe ⟨e, id, hc⟩
      refine .kept hissued haccepted hreleased (entities_abandon frame cause) ?_
      rw [stack_abandon, hstack, destructions_cons_of_ne hother]

end Machine

end EntityScene
