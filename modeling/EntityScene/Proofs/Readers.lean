import EntityScene.Proofs.Moves

/-!
# Dispatches that only readers hear

A handler that only reads leaves the machine as it was, but for its host. A dispatch with
no other handlers therefore comes to its end and changes nothing, except that its signal
forgets connections that were cut.

- `Script.ReadOnly`: scripts that look at the world and note what they see.
- `World.listeners`, `World.Tuned`: who hears a dispatch, and worlds with the same
  listeners and kinds.
- `Machine.Hushed`: the handler of a connection leaves the world alone, for one entity.
- `serves_publish`, `serves_announce`: dispatches that are hushed.
- `runs_patch`, `performs_patch`: patches that only readers hear of.
-/

namespace EntityScene

/-- Scripts that only read, and note what they read. -/
inductive Script.ReadOnly {U σ : Type} [SceneFamily U] : Script U σ → Prop
  | done : ReadOnly .done
  | inspect {next : World (Kind U) → σ → Script U σ} (h : ∀ w s, (next w s).ReadOnly) :
      ReadOnly (.inspect next)
  | note {f : σ → σ} {next : Script U σ} (h : next.ReadOnly) : ReadOnly (.note f next)

/-! ## Worlds with the same listeners -/

namespace World

section Listeners

variable {K : Type} [ComponentFamily K] {w w' w'' : World K}

/-- The connections that a dispatch goes through. -/
def listeners (w : World K) (id : ComponentId) (event : LifeEvent) : List ConnectionKey :=
  (w.snapshot id event).1

/-- The connections in the list of a signal, also those that were cut. -/
def slots (w : World K) (id : ComponentId) (event : LifeEvent) : List ConnectionKey :=
  ((w.pools[id]?.map (·.signals)).map fun signals => (signals.get event).slots).getD []

/-- The number of the next connection to a signal. -/
def number (w : World K) (id : ComponentId) (event : LifeEvent) : UInt32 :=
  ((w.pools[id]?.map (·.signals)).map fun signals => (signals.get event).nextId).getD 0

/-- Two worlds with the same kinds and connections, and the same listeners everywhere. -/
structure Tuned (w w' : World K) : Prop where
  catalog : w'.catalog = w.catalog
  board : w'.board = w.board
  size_pools : w'.pools.size = w.pools.size
  listeners : ∀ id event, w'.listeners id event = w.listeners id event
  slots : ∀ id event, w'.slots id event ⊆ w.slots id event
  number : ∀ id event, w'.number id event = w.number id event

theorem Tuned.refl (w : World K) : Tuned w w :=
  { catalog := rfl
    board := rfl
    size_pools := rfl
    listeners := fun _ _ => rfl
    slots := fun _ _ => List.Subset.refl _
    number := fun _ _ => rfl }

theorem Tuned.trans (h : Tuned w w') (h' : Tuned w' w'') : Tuned w w'' :=
  { catalog := h'.catalog.trans h.catalog
    board := h'.board.trans h.board
    size_pools := h'.size_pools.trans h.size_pools
    listeners := fun id event => (h'.listeners id event).trans (h.listeners id event)
    slots := fun id event => List.Subset.trans (h'.slots id event) (h.slots id event)
    number := fun id event => (h'.number id event).trans (h.number id event) }

theorem Tuned.idOf? [DecidableEq K] (h : Tuned w w') (kind : K) :
    w'.idOf? kind = w.idOf? kind := by
  rw [World.idOf?, h.catalog, World.idOf?]

/-- The listeners are the connections of the signal that were not cut. -/
theorem listeners_eq (w : World K) (id : ComponentId) (event : LifeEvent) :
    w.listeners id event = (w.slots id event).filter w.board.isConnected := by
  unfold listeners snapshot signal? slots
  cases w.pools[id]? <;> rfl

/-- Nobody hears of a kind that is not in use. -/
theorem listeners_of_size_le {id : ComponentId} (h : w.pools.size ≤ id) (event : LifeEvent) :
    w.listeners id event = [] := by
  rw [listeners_eq, slots, Array.getElem?_eq_none h]
  rfl

theorem number_of_size_le {id : ComponentId} (h : w.pools.size ≤ id) (event : LifeEvent) :
    w.number id event = 0 := by
  rw [number, Array.getElem?_eq_none h]
  rfl

theorem slots_setSignal {id : ComponentId} (hid : id < w.pools.size) (event : LifeEvent)
    (signal : Signal) (j : ComponentId) (other : LifeEvent) :
    (w.setSignal id event signal).slots j other =
      if j = id ∧ other = event then signal.slots else w.slots j other := by
  rw [slots, slots, getElem?_setSignal]
  by_cases hj : j = id
  · subst hj
    rw [if_pos rfl, Array.getElem?_eq_getElem hid]
    by_cases hevent : other = event
    · simp [hevent]
    · simp [hevent, Signals.get_set_other _ _ hevent]
  · rw [if_neg fun heq => hj heq.symm, if_neg fun hc => hj hc.1]

theorem number_setSignal {id : ComponentId} (hid : id < w.pools.size) (event : LifeEvent)
    (signal : Signal) (j : ComponentId) (other : LifeEvent) :
    (w.setSignal id event signal).number j other =
      if j = id ∧ other = event then signal.nextId else w.number j other := by
  rw [number, number, getElem?_setSignal]
  by_cases hj : j = id
  · subst hj
    rw [if_pos rfl, Array.getElem?_eq_getElem hid]
    by_cases hevent : other = event
    · simp [hevent]
    · simp [hevent, Signals.get_set_other _ _ hevent]
  · rw [if_neg fun heq => hj heq.symm, if_neg fun hc => hj hc.1]

/-- Signals that are the same have the same listeners. -/
theorem tuned_of_signals (hcatalog : w'.catalog = w.catalog) (hboard : w'.board = w.board)
    (hsize : w'.pools.size = w.pools.size)
    (hsignals : ∀ id : ComponentId,
      w'.pools[id]?.map (·.signals) = w.pools[id]?.map (·.signals)) : Tuned w w' :=
  { catalog := hcatalog
    board := hboard
    size_pools := hsize
    listeners := fun id event => by
      rw [listeners_eq, listeners_eq, World.slots, World.slots, hsignals, hboard]
    slots := fun id event => by
      rw [World.slots, World.slots, hsignals]
      exact List.Subset.refl _
    number := fun id event => by rw [World.number, World.number, hsignals] }

/-- Handles and removals are nobody's signals. -/
theorem tuned_with (w : World K) (entities : Entity.Table)
    (removing : List (ComponentId × Entity)) : Tuned w { w with entities, removing } :=
  tuned_of_signals rfl rfl rfl fun _ => rfl

theorem tuned_updatePool (w : World K) (id : ComponentId) (f : Storage K → Storage K) :
    Tuned w (w.updatePool id f) := by
  refine tuned_of_signals rfl rfl (by simp [updatePool]) fun j => ?_
  rw [getElem?_updatePool]
  split
  · rw [Option.map_map]
    rfl
  · rfl

theorem tuned_erase (w : World K) (id : ComponentId) (e : Entity) : Tuned w (w.erase id e) :=
  tuned_updatePool w id _

theorem tuned_edit [DecidableEq K] (w : World K) (kind : K) (e : Entity)
    (f : Value kind → Value kind) : Tuned w (w.edit kind e f) := by
  unfold edit
  split
  · unfold updateStorage
    split
    · exact tuned_updatePool w _ _
    · exact .refl w
  · exact .refl w

/-- A signal that forgets connections that were cut has the same listeners. -/
theorem tuned_snapshot (w : World K) (id : ComponentId) (event : LifeEvent) :
    Tuned w (w.snapshot id event).2 := by
  unfold snapshot
  cases hs : w.signal? id event with
  | none => exact .refl w
  | some signal =>
    have hid : id < w.pools.size := by
      obtain ⟨pool, hpool, -⟩ := Option.map_eq_some_iff.mp hs
      exact (Array.getElem?_eq_some_iff.mp hpool).1
    have hslots : signal.slots = w.slots id event := by
      rw [slots, Option.map_map]
      obtain ⟨pool, hpool, rfl⟩ := Option.map_eq_some_iff.mp hs
      rw [hpool]
      rfl
    have hnumber : signal.nextId = w.number id event := by
      rw [number, Option.map_map]
      obtain ⟨pool, hpool, rfl⟩ := Option.map_eq_some_iff.mp hs
      rw [hpool]
      rfl
    refine
      { catalog := rfl
        board := rfl
        size_pools := by simp [setSignal, Signal.snapshot]
        listeners := fun j other => ?_
        slots := fun j other => ?_
        number := fun j other => ?_ }
    · rw [listeners_eq, listeners_eq]
      simp only [Signal.snapshot]
      rw [slots_setSignal hid]
      split
      · rename_i hc
        rw [hc.1, hc.2, ← hslots]
        simp [Signal.prune, setSignal]
      · rfl
    · simp only [Signal.snapshot]
      rw [slots_setSignal hid]
      split
      · rename_i hc
        rw [hc.1, hc.2, ← hslots]
        exact List.filter_subset_self _
      · exact List.Subset.refl _
    · simp only [Signal.snapshot]
      rw [number_setSignal hid]
      split
      · rename_i hc
        rw [hc.1, hc.2]
        exact hnumber
      · rfl

end Listeners

end World

/-! ## Handlers that leave the world alone -/

namespace Machine

variable {U σ : Type} [SceneFamily U] [DecidableEq U] {m m' : Machine U σ}

/-- The handler of a connection leaves the world alone when it is called for an entity. -/
def Hushed (m : Machine U σ) (key : ConnectionKey) (e : Entity) : Prop :=
  match m.handlers[key]? with
  | some (.script body) => (body e).ReadOnly
  | some (.cascade claims) => e ∈ m.claims.getD claims []
  | none => True

/-- Everybody who hears a dispatch leaves the world alone. -/
def HushedFor (m : Machine U σ) (id : ComponentId) (event : LifeEvent) (e : Entity) : Prop :=
  ∀ key ∈ m.world.listeners id event, m.Hushed key e

omit [DecidableEq U] in
theorem HushedFor.congr {id : ComponentId} {event : LifeEvent} {e : Entity}
    (hworld : World.Tuned m.world m'.world) (hhandlers : m'.handlers = m.handlers)
    (hclaims : m'.claims = m.claims) (h : m.HushedFor id event e) :
    m'.HushedFor id event e := by
  intro key hkey
  rw [hworld.listeners] at hkey
  have hkey := h key hkey
  rw [Hushed] at hkey ⊢
  rw [hhandlers, hclaims]
  exact hkey

/-- A script that only reads comes to its end, and only the host has changed. -/
theorem serves_readOnly {script : Script U σ} (h : script.ReadOnly) (m : Machine U σ) :
    ∃ host, m.Serves (.run script) [] { m with host } (.reply true) := by
  induction h generalizing m with
  | done => exact ⟨m.host, fun stack => .of_step rfl⟩
  | inspect hnext ih =>
    obtain ⟨host, hrun⟩ := ih m.world m.host m
    exact ⟨host, fun stack => .head rfl rfl (hrun stack)⟩
  | @note f next hnext ih =>
    obtain ⟨host, hrun⟩ := ih { m with host := f m.host }
    exact ⟨host, fun stack => .head rfl rfl (hrun stack)⟩

/-- A handler that leaves the world alone comes to its end. -/
theorem serves_invoke {key : ConnectionKey} {e : Entity} (h : m.Hushed key e) :
    ∃ host, m.Serves (.invoke key e) [] { m with host } (.reply true) := by
  have hstep : ∀ stack, (m.on stack (.invoke key e)).step =
      some ((m.on stack (.invoke key e)).invoke key e) := fun stack => rfl
  unfold Hushed at h
  cases hkey : m.handlers[key]? with
  | none =>
    refine ⟨m.host, fun stack => .of_step ?_⟩
    rw [hstep, invoke, show (m.on stack (.invoke key e)).handlers[key]? = none from hkey]
    rfl
  | some handler =>
    rw [hkey] at h
    cases handler with
    | script body =>
      obtain ⟨host, hrun⟩ := serves_readOnly h m
      refine ⟨host, fun stack => .head ?_ rfl (hrun stack)⟩
      rw [hstep, invoke, show (m.on stack (.invoke key e)).handlers[key]? = _ from hkey]
      rfl
    | cascade claims =>
      refine ⟨m.host, fun stack => .of_step ?_⟩
      have hclaimed : e ∈ (m.on stack (.invoke key e)).claims.getD claims [] := h
      rw [hstep, invoke, show (m.on stack (.invoke key e)).handlers[key]? = _ from hkey]
      show some (startCascade _ claims e) = _
      rw [startCascade, if_pos hclaimed]
      rfl

/-- A dispatch calls the next handler, unless it was cut or blocked before its turn. -/
theorem step_dispatch (m : Machine U σ) (id : ComponentId) (event : LifeEvent) (e : Entity)
    (key : ConnectionKey) (rest : List ConnectionKey) (stack : List (Frame U σ)) :
    (m.on (.dispatch id event e (key :: rest) :: stack) (.reply true)).step =
      some (m.on (.dispatch id event e rest :: stack)
        (if m.world.board.isActive key then .invoke key e else .reply true)) := rfl

/-- A dispatch goes through handlers that leave the world alone. -/
theorem runs_dispatch {e : Entity} {keys : List ConnectionKey} (h : ∀ key ∈ keys, m.Hushed key e)
    (id : ComponentId) (event : LifeEvent) (rest : List ConnectionKey) :
    ∃ host, ∀ stack, (m.on (.dispatch id event e (keys ++ rest) :: stack) (.reply true)).Runs []
      (on { m with host } (.dispatch id event e rest :: stack) (.reply true)) := by
  induction keys generalizing m with
  | nil => exact ⟨m.host, fun stack => .refl _⟩
  | cons key keys ih =>
    have hkeys := fun k hk => h k (List.mem_cons_of_mem _ hk)
    by_cases hactive : m.world.board.isActive key = true
    · obtain ⟨host, hinvoke⟩ := serves_invoke (h key List.mem_cons_self)
      obtain ⟨host', hrun⟩ := ih (m := { m with host }) hkeys
      refine ⟨host', fun stack => .head (step_dispatch ..) rfl ?_⟩
      rw [if_pos hactive]
      exact (hinvoke _).trans (hrun stack)
    · obtain ⟨host, hrun⟩ := ih hkeys
      refine ⟨host, fun stack => .head (step_dispatch ..) rfl ?_⟩
      rw [if_neg hactive]
      exact hrun stack

/-- A dispatch that only readers hear changes the host, and forgets connections that were
cut. -/
theorem serves_publish {id : ComponentId} {event : LifeEvent} {e : Entity}
    (h : m.HushedFor id event e) :
    ∃ host, m.Serves (.publish id event e) [⟨id, event, e⟩]
      { m with world := (m.world.snapshot id event).2, host } (.reply true) := by
  obtain ⟨host, hrun⟩ := runs_dispatch (m := { m with world := (m.world.snapshot id event).2 }) h
    id event []
  rw [List.append_nil] at hrun
  refine ⟨host, fun stack => ?_⟩
  exact (Runs.of_step rfl).trans ((hrun stack).snoc rfl rfl)

/-! ## Removals that only readers hear -/

/-- Removals that were asked for in vain. -/
theorem serves_announce_refused {id : ComponentId} {e : Entity}
    (h : (id, e) ∈ m.world.removing ∨ m.world.holds id e = false) :
    m.Serves (.announce id e) [] m (.reply false) := by
  refine fun stack => .of_step ?_
  show some (announce _ id e) = _
  rw [announce, on_world, if_pos h]
  rfl

/-- The world while a removal is being announced. -/
def whileAnnouncing (m : Machine U σ) (id : ComponentId) (e : Entity) : Machine U σ :=
  { m with world := { m.world with removing := (id, e) :: m.world.removing } }

/-- The world after the announcement of a removal. -/
def afterAnnouncing (m : Machine U σ) (id : ComponentId) (e : Entity) : Machine U σ :=
  { m with world := { m.world with removing := m.world.removing.erase (id, e) } }

/-- An announcement comes to its end when its dispatch does. -/
theorem serves_announce_of_publish {id : ComponentId} {e : Entity} {tr : List Dispatch}
    (hfresh : (id, e) ∉ m.world.removing) (hrow : m.world.holds id e = true)
    (h : (m.whileAnnouncing id e).Serves (.publish id .destroy e) tr m' (.reply true)) :
    m.Serves (.announce id e) tr (m'.afterAnnouncing id e) (.reply true) := by
  intro stack
  have hcond : ¬ ((id, e) ∈ m.world.removing ∨ m.world.holds id e = false) := by
    rintro (hr | hno)
    · exact hfresh hr
    · rw [hrow] at hno
      cases hno
  have hstep : (m.on stack (.announce id e)).step =
      some ((m.whileAnnouncing id e).on (.removal id e :: stack) (.publish id .destroy e)) := by
    show some (Machine.announce _ id e) = _
    rw [announce, on_world, if_neg hcond]
    rfl
  have hend : (m'.on (.removal id e :: stack) (.reply true)).Runs []
      ((m'.afterAnnouncing id e).on stack (.reply true)) := .of_step rfl
  have hrun := (h (.removal id e :: stack)).trans hend
  rw [List.append_nil] at hrun
  exact .head hstep rfl hrun

/-- An announcement that only readers hear leaves the world as it was. -/
theorem serves_announce (hwf : m.world.Wf) {id : ComponentId} {e : Entity}
    (hhush : m.HushedFor id .destroy e) (hfresh : (id, e) ∉ m.world.removing)
    (hrow : m.world.holds id e = true) :
    ∃ world host, World.Undisturbed (fun _ => True) m.world world ∧ World.Tuned m.world world ∧
      m.Serves (.announce id e) [⟨id, .destroy, e⟩] { m with world, host } (.reply true) := by
  have hwf' : (m.whileAnnouncing id e).world.Wf := { hwf with }
  have hsnap : World.Undisturbed (fun _ => True) (m.whileAnnouncing id e).world
      ((m.whileAnnouncing id e).world.snapshot id .destroy).2 :=
    World.undisturbed_snapshot hwf' id .destroy
  have htuned := World.tuned_snapshot (m.whileAnnouncing id e).world id .destroy
  have hhush' : (m.whileAnnouncing id e).HushedFor id .destroy e :=
    hhush.congr (World.tuned_with _ _ _) rfl rfl
  obtain ⟨host, hserve⟩ := serves_publish hhush'
  generalize ((m.whileAnnouncing id e).world.snapshot id .destroy).2 = w at hsnap htuned hserve
  refine ⟨{ w with removing := w.removing.erase (id, e) }, host, ?_, ?_,
    serves_announce_of_publish hfresh hrow hserve⟩
  · exact
      { wf := { hsnap.wf with }
        entities := hsnap.entities
        removing := by
          show w.removing.erase (id, e) = m.world.removing
          rw [hsnap.removing]
          exact List.erase_cons_head _ _
        holds := hsnap.holds
        idOf? := hsnap.idOf?
        size_pools := hsnap.size_pools
        stored? := hsnap.stored? }
  · exact ((World.tuned_with _ _ _).trans htuned).trans (World.tuned_with _ _ _)

/-! ## Patches that only readers hear -/

/-- A patch changes its component, and then its dispatch comes to its end. -/
theorem runs_patch {kind : Kind U} {id : ComponentId} {e : Entity}
    (hid : m.world.idOf? kind = some id) (hsome : (m.world.get? kind e).isSome)
    (hhush : m.HushedFor id .update e) (f : Value kind → Value kind) :
    ∃ host, ∀ frame stack control, ∃ m', (m.on stack control).patch? kind e f frame = some m' ∧
      m'.Runs [⟨id, .update, e⟩]
        (on { m with world := ((m.world.edit kind e f).snapshot id .update).2, host }
          (frame :: stack) (.reply true)) := by
  have hquiet : HushedFor { m with world := m.world.edit kind e f } id .update e :=
    hhush.congr (World.tuned_edit _ _ _ _) rfl rfl
  obtain ⟨host, hserve⟩ := serves_publish hquiet
  refine ⟨host, fun frame stack control => ⟨_, ?_, hserve (frame :: stack)⟩⟩
  obtain ⟨v, hv⟩ := Option.isSome_iff_exists.mp hsome
  unfold patch?
  rw [on_world, hid, hv]
  rfl

/-- A script that patches a component is answered when the dispatch has come to its end. -/
theorem performs_patch {kind : Kind U} {id : ComponentId} {e : Entity}
    (hid : m.world.idOf? kind = some id) (hsome : (m.world.get? kind e).isSome)
    (hhush : m.HushedFor id .update e) (f : Value kind → Value kind) :
    ∃ host, m.Performs (Task.patch kind e f) [⟨id, .update, e⟩]
      { m with world := ((m.world.edit kind e f).snapshot id .update).2, host } true := by
  obtain ⟨host, hpatch⟩ := runs_patch hid hsome hhush f
  refine ⟨host, fun stack next => ?_⟩
  obtain ⟨m', hm', hrun⟩ := hpatch (.resume fun _ => next true) stack
    (.run (.call (.patch kind e f) next))
  have hstep : (m.on stack (.run (.call (.patch kind e f) next))).step = some m' := by
    show some (Option.getD (patch? _ kind e f (.resume fun _ => next true)) _) = _
    rw [hm']
    rfl
  exact .head hstep rfl (hrun.snoc rfl rfl)

end Machine

end EntityScene
