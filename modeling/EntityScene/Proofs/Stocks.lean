import EntityScene.Proofs.Hookups

/-!
# Kinds and pools stay in step

A world numbers the kinds in use in its catalog, and keeps a pool for each of them in an array of
its own. That the pool with the number of a kind is the pool of that kind is checked by nobody, and
holds because the two only ever grow together: whatever else is done to a world, its catalog and the
kinds of its pools stay as they are. That is so on every run, also where storages are edited
directly and where calls are abandoned in the middle of an edit.

- `World.stock`: the kinds of the pools, in order.
- `World.InStep`: the pools are those of the catalog, and no kind has two numbers.
- `inStep_register`, `inStep_updatePool`, `inStep_setSignal`: the edits that all others are made of.
- `inStep_of_step`, `inStep_run`: so it is throughout every run.
-/

namespace EntityScene

namespace World

variable {K : Type} [ComponentFamily K] {w w' : World K} {kind : K} {id : ComponentId}

/-- The kinds of the pools, in order. -/
def stock (w : World K) : Array K := w.pools.map (·.storage.kind)

/-- The pools are those of the kinds in use, in the order of their numbers. -/
structure InStep (w : World K) : Prop where
  catalog : w.catalog.Wf
  stock : w.stock = w.catalog.kinds

theorem inStep_empty : (empty : World K).InStep :=
  { catalog := fun i j kind hi => by simp [empty, Catalog.empty] at hi
    stock := by simp [World.stock, empty, Catalog.empty] }

/-- What leaves the catalog and the kinds of the pools alone keeps them in step. -/
theorem InStep.congr (h : w.InStep) (hcatalog : w'.catalog = w.catalog)
    (hstock : w'.stock = w.stock) : w'.InStep :=
  { catalog := hcatalog ▸ h.catalog
    stock := by rw [hstock, hcatalog, h.stock] }

theorem InStep.paired (h : w.InStep) : w.Paired := by
  rw [Paired, Catalog.size, ← h.stock, World.stock, Array.size_map]

/-- A pool has the kind that is entered under its number. -/
theorem InStep.kind_pool (h : w.InStep) {pool : Pool K} (hpool : w.pools[id]? = some pool) :
    w.catalog.kinds[id]? = some pool.storage.kind := by
  rw [← h.stock, World.stock, Array.getElem?_map, hpool, Option.map_some]

/-! ## The edits that all others are made of -/

theorem inStep_updatePool (h : w.InStep) {f : Storage K → Storage K}
    (hf : ∀ storage, (f storage).kind = storage.kind) : (w.updatePool id f).InStep := by
  refine h.congr rfl (Array.ext_getElem? fun j => ?_)
  rw [stock, stock, Array.getElem?_map, Array.getElem?_map, getElem?_updatePool]
  split
  · rw [Option.map_map]
    exact Option.map_congr fun pool _ => hf pool.storage
  · rfl

theorem inStep_setSignal (h : w.InStep) (event : LifeEvent) (signal : Signal) :
    (w.setSignal id event signal).InStep := by
  refine h.congr rfl (Array.ext_getElem? fun j => ?_)
  rw [stock, stock, Array.getElem?_map, Array.getElem?_map, getElem?_setSignal]
  split
  · rw [Option.map_map]
    rfl
  · rfl

variable [DecidableEq K]

theorem InStep.idOf?_pool (h : w.InStep) {pool : Pool K} (hpool : w.pools[id]? = some pool) :
    w.idOf? pool.storage.kind = some id :=
  h.catalog.idOf?_iff.mpr (h.kind_pool hpool)

theorem inStep_register (h : w.InStep) (kind : K) : (w.register kind).2.InStep := by
  rcases register_cases h.paired kind with ⟨id, -, hr⟩ | ⟨hid, hr⟩
  · rw [hr]
    exact h
  · have hcatalog := Catalog.wf_register h.catalog kind
    rw [Catalog.register_of_idOf?_eq_none hid] at hcatalog
    rw [hr]
    refine ⟨hcatalog, ?_⟩
    show (w.pools.push _).map _ = w.catalog.kinds.push kind
    rw [Array.map_push, ← h.stock]
    rfl

/-! ## All edits of a world -/

theorem inStep_registerAll (h : w.InStep) (kinds : List K) : (w.registerAll kinds).2.InStep := by
  induction kinds generalizing w with
  | nil => exact h
  | cons kind kinds ih => exact ih (inStep_register h kind)

theorem inStep_updateStorage (h : w.InStep) (kind : K)
    (f : SparseSet (Value kind) → SparseSet (Value kind)) : (w.updateStorage kind f).InStep := by
  unfold updateStorage
  split
  · exact inStep_updatePool h fun storage => Storage.kind_update storage kind f
  · exact h

theorem inStep_edit (h : w.InStep) (kind : K) (e : Entity) (f : Value kind → Value kind) :
    (w.edit kind e f).InStep := by
  unfold edit
  split
  · exact inStep_updateStorage h kind _
  · exact h

theorem inStep_place (h : w.InStep) (kind : K) (e : Entity) (make : Except Abort (Value kind)) :
    (w.place kind e make).2.InStep := by
  have hreg := inStep_register h kind
  unfold place
  simp only
  split
  · exact hreg
  · exact inStep_updateStorage hreg kind _

theorem inStep_pull (h : w.InStep) (kind : K) (e : Entity) : (w.pull kind e).2.InStep := by
  unfold pull
  split
  · exact h
  · exact inStep_updateStorage h kind _

theorem inStep_foldl_editPooled (h : w.InStep) (ps : List (K × ComponentId)) (e : Entity)
    (f : (kind : K) → Value kind → Value kind) :
    (ps.foldl (fun w p => w.editPooled p.1 p.2 e (f p.1)) w).InStep := by
  induction ps generalizing w with
  | nil => exact h
  | cons p ps ih => exact ih (inStep_updatePool h fun storage => Storage.kind_update storage p.1 _)

theorem inStep_fetchEdit (h : w.InStep) (e : Entity) (kinds : List K)
    (f : (kind : K) → Value kind → Value kind) : (w.fetchEdit e kinds f).2.InStep := by
  have hreg := inStep_registerAll h kinds
  unfold fetchEdit
  simp only
  split
  · split
    · exact inStep_foldl_editPooled hreg _ e f
    · exact hreg
  · exact hreg

omit [DecidableEq K] in
theorem inStep_snapshot (h : w.InStep) (id : ComponentId) (event : LifeEvent) :
    (w.snapshot id event).2.InStep := by
  unfold snapshot
  split
  · exact h
  · exact inStep_setSignal h event _

theorem inStep_connect (h : w.InStep) (kind : K) (event : LifeEvent) :
    (w.connect kind event).2.InStep :=
  (inStep_setSignal (inStep_register h kind) event _).congr rfl rfl

theorem inStep_disconnectAll (h : w.InStep) (kind : K) (event : LifeEvent) :
    (w.disconnectAll kind event).InStep :=
  (inStep_setSignal (inStep_register h kind) event _).congr rfl rfl

end World

section Passes

namespace World

variable {U : Type} [SceneFamily U] [DecidableEq U] {w : World (Kind U)}

theorem inStep_propagate (h : w.InStep) (room : Nat) (waiting : List (Visit U)) :
    (w.propagate room waiting).InStep := by
  induction room generalizing w waiting with
  | zero => exact h
  | succ room ih =>
    unfold propagate
    split
    · exact h
    · exact ih (inStep_edit h _ _ _) _

theorem inStep_updateTransform (h : w.InStep) (root : Entity) : (w.updateTransform root).InStep :=
  inStep_propagate (inStep_register (inStep_register h .transform) .node) _ _

theorem inStep_updateAllTransforms (h : w.InStep) : w.updateAllTransforms.2.InStep := by
  show (w.placedRoots.foldl updateTransform w).InStep
  induction w.placedRoots generalizing w with
  | nil => exact h
  | cons root roots ih => exact ih (inStep_updateTransform h root)

end World

end Passes

/-! ## Every run -/

namespace Machine

variable {U σ : Type} [SceneFamily U] [DecidableEq U] {m m' : Machine U σ}

theorem inStep_call (h : m.world.InStep) (c : Call U) (next : c.Reply → Script U σ) :
    (m.call c next).world.InStep := by
  cases c with
  | create =>
    simp only [call]
    split <;> exact h.congr rfl rfl
  | register kind => exact World.inStep_register h kind
  | emplace kind e make =>
    have hplace := World.inStep_place h kind e make
    simp only [call]
    split
    · split <;> exact hplace
    · exact h
  | edit kind e f => exact World.inStep_edit h kind e f
  | patch kind e f =>
    cases hp : m.patch? kind e f (.resume fun _ => next true) with
    | none =>
      simp only [call, hp, Option.getD_none]
      exact h
    | some m' =>
      obtain ⟨id, v, -, -, rfl⟩ := patch?_eq_some hp
      simp only [call, hp, Option.getD_some]
      exact World.inStep_edit h kind e f
  | take kind e =>
    simp only [call]
    split <;> exact h
  | fetchEdit e kinds f =>
    have hfetch := World.inStep_fetchEdit h e kinds f
    simp only [call]
    split <;> exact hfetch
  | alterStorage kind f => exact World.inStep_updateStorage h kind f
  | disconnectAll kind event => exact World.inStep_disconnectAll h kind event
  | updateTransform root => exact World.inStep_updateTransform h root
  | updateAllTransforms => exact World.inStep_updateAllTransforms h
  | block key =>
    rw [(over_block m key next).world]
    exact h.congr rfl rfl
  | _ => exact h.congr rfl rfl

theorem inStep_runScript (h : m.world.InStep) (script : Script U σ) :
    (m.runScript script).world.InStep := by
  cases script with
  | call c next => exact inStep_call h c next
  | connect kind event handler next =>
    have hconnect := World.inStep_connect h kind event
    rw [(over_connect m kind event handler next).world]
    exact hconnect
  | cascade next =>
    have hconnect := World.inStep_connect
      (World.inStep_register (World.inStep_register h .node) .transform) .node .destroy
    rw [(over_cascade m next).world]
    exact hconnect
  | blocked connection body next =>
    rw [world_runScript_blocked]
    exact h.congr rfl rfl
  | _ => exact h

theorem inStep_invoke (h : m.world.InStep) (key : ConnectionKey) (e : Entity) :
    (m.invoke key e).world.InStep := by
  unfold invoke
  split
  · exact h
  · rename_i claims _
    unfold startCascade
    split
    · exact h
    · cases hp : (m.world.validParentOf? e).bind fun parent =>
          m.patch? .node parent (fun node => TreeNode.dropChild node e) (.unlinking claims e) with
      | none =>
        simp only [hp, Option.getD_none]
        exact h
      | some m' =>
        obtain ⟨parent, -, hpatch⟩ := Option.bind_eq_some_iff.mp hp
        obtain ⟨id, v, -, -, rfl⟩ := patch?_eq_some hpatch
        simp only [hp, Option.getD_some]
        exact World.inStep_edit h .node parent _
  · exact h

omit [DecidableEq U] in
theorem inStep_tearDown (h : m.world.InStep) (e : Entity) (id : ComponentId) :
    (m.tearDown e id).world.InStep := by
  unfold tearDown
  split
  · exact h
  · exact h.congr rfl rfl

theorem inStep_resume (h : m.world.InStep) (frame : Frame U σ) (b : Bool) :
    (m.resume frame b).world.InStep := by
  cases frame with
  | dispatch id event e keys => cases keys <;> exact h
  | removal id e => exact h.congr rfl rfl
  | teardown e id =>
    have herased : (m.world.erase id e).InStep := World.inStep_updatePool h fun _ => rfl
    have hleft : (if b then m.world.erase id e else m.world).InStep := by
      split
      · exact herased
      · exact h
    rcases resume_teardown_cases m e id b with ⟨-, hnext⟩ | ⟨cause, -, -, hnext⟩
    · rw [hnext]
      exact inStep_tearDown (m := { m with world := _ }) hleft e (id + 1)
    · rw [hnext]
      exact herased
  | taking kind e next =>
    rw [(over_taking m e next b).world]
    split
    · exact World.inStep_pull h kind e
    · exact h
  | blocked guard next => exact h.congr rfl rfl
  | unlinking claims e =>
    simp only [resume, cascadeOn]
    cases (m.claim claims (e :: m.world.descendants e)).1 <;> exact h
  | cascade claims past ahead => cases ahead <;> exact h
  | _ => exact h

/-- No step brings the pools out of step, whatever it does. -/
theorem inStep_of_step (h : m.world.InStep) (hstep : m.step = some m') : m'.world.InStep := by
  cases stepped_of_step hstep with
  | run script hcall => exact inStep_runScript h script
  | publish id event e hcall => exact World.inStep_snapshot h id event
  | invoke key e hcall => exact inStep_invoke h key e
  | destroy e hcall =>
    have hbegun : World.InStep { m.world with entities := (m.world.entities.beginDestroy e).2 } :=
      h.congr rfl rfl
    simp only [destroy]
    split
    · exact inStep_tearDown (m := { m with
        world := { m.world with entities := (m.world.entities.beginDestroy e).2 } }) hbegun e 0
    · exact hbegun
  | announce id e hcall =>
    simp only [announce]
    split
    · exact h
    · exact h.congr rfl rfl
  | reply b frame stack hcall hstack => exact inStep_resume (m := { m with stack }) h frame b
  | unwind cause frame stack hcall hstack =>
    cases frame with
    | blocked guard next => exact h.congr rfl rfl
    | _ => exact h

theorem inStep_run (host : σ) (script : Script U σ) (n : Nat) :
    ((start host script).run n).world.InStep := by
  induction n with
  | zero => exact World.inStep_empty
  | succ n ih =>
    rcases run_succ_cases (start host script) n with heq | hstep
    · rw [heq]
      exact ih
    · exact inStep_of_step ih hstep

end Machine

end EntityScene
