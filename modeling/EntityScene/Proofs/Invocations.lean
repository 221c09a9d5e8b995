import EntityScene.Proofs.Departures
import EntityScene.Proofs.Wiring

/-!
# What handlers see

A handler is called in the middle of a dispatch, and it reads the world as it is then. Where all
handlers only read and none of them was cut or blocked, a dispatch calls the handlers of its
signal in order, all of them see the same world, and it leaves no trace but on the host.

- `Invocation`, `Machine.invocations`: the calls of handlers in a run, with the worlds they see.
- `Machine.Invokes`, `Machine.Carries`, `Machine.Achieves`: one machine runs to another, a control
  to a control and a task to an answer, with these calls on the way.
- `Machine.Heeded`: handlers only read, and no connection is cut or blocked.
- `carries_publish`, `carries_announce`, `invokes_tearing`, ..: dispatches, removals and the pools of
  a destruction step by step, with the world at each call.
-/

namespace EntityScene

variable {U σ : Type} [SceneFamily U]

/-- The call of a handler: the connection, the dispatch, and the world as the handler sees it. -/
structure Invocation (K : Type) [ComponentFamily K] where
  key : ConnectionKey
  id : ComponentId
  event : LifeEvent
  entity : Entity
  world : World K

/-- Putting a signal where it is changes nothing. -/
theorem Signals.set_get (s : Signals) (event : LifeEvent) : s.set event (s.get event) = s := by
  cases event <;> rfl

namespace Machine

/-- The call of a handler with which the next step starts. -/
def invoked (m : Machine U σ) : List (Invocation (Kind U)) :=
  match m.control, m.stack with
  | .invoke key e, .dispatch id event _ _ :: _ => [⟨key, id, event, e, m.world⟩]
  | _, _ => []

variable [DecidableEq U]

/-- The calls of handlers with which the first `n` steps start. -/
def invocations (m : Machine U σ) (n : Nat) : List (Invocation (Kind U)) :=
  (List.range n).flatMap fun k => (m.run k).invoked

/-- The machine runs to another one, and calls these handlers on the way. -/
def Invokes (m : Machine U σ) (calls : List (Invocation (Kind U))) (m' : Machine U σ) : Prop :=
  ∃ n, m.run n = m' ∧ m.invocations n = calls

/-- Whatever waits on the stack, a control leads to another, and the stack is the same. -/
def Carries (m : Machine U σ) (control : Control U σ) (calls : List (Invocation (Kind U)))
    (m' : Machine U σ) (control' : Control U σ) : Prop :=
  ∀ stack, (m.on stack control).Invokes calls (m'.on stack control')

/-- Whatever the script goes on with, a task leads to an answer. -/
def Achieves {α : Type} (m : Machine U σ) (task : Task U σ α) (calls : List (Invocation (Kind U)))
    (m' : Machine U σ) (a : α) : Prop :=
  ∀ stack next, (m.on stack (.run (task next))).Invokes calls (m'.on stack (.run (next a)))

section Runs

variable {m m' m'' : Machine U σ} {calls calls' : List (Invocation (Kind U))}

theorem invocations_succ (m : Machine U σ) (n : Nat) :
    m.invocations (n + 1) = m.invocations n ++ (m.run n).invoked := by
  simp [invocations, List.range_succ]

theorem invocations_add (m : Machine U σ) (n k : Nat) :
    m.invocations (n + k) = m.invocations n ++ (m.run n).invocations k := by
  induction k with
  | zero => simp [invocations]
  | succ k ih =>
    rw [← Nat.add_assoc, invocations_succ, invocations_succ, ih, run_add, List.append_assoc]

namespace Invokes

theorem refl (m : Machine U σ) : m.Invokes [] m := ⟨0, rfl, rfl⟩

theorem trans (h : m.Invokes calls m') (h' : m'.Invokes calls' m'') :
    m.Invokes (calls ++ calls') m'' := by
  obtain ⟨n, rfl, rfl⟩ := h
  obtain ⟨k, rfl, rfl⟩ := h'
  exact ⟨n + k, run_add m n k, invocations_add m n k⟩

theorem of_step (h : m.step = some m') : m.Invokes m.invoked m' := by
  refine ⟨1, run_succ_of_step h 0, ?_⟩
  rw [invocations_succ]
  rfl

/-- A step that calls no handler, before a run. -/
theorem head (h : m.step = some m') (hinvoked : m.invoked = []) (h' : m'.Invokes calls m'') :
    m.Invokes calls m'' := by
  have hstep := of_step h
  rw [hinvoked] at hstep
  exact hstep.trans h'

/-- A step that calls no handler, after a run. -/
theorem snoc (h : m.Invokes calls m') (h' : m'.step = some m'') (hinvoked : m'.invoked = []) :
    m.Invokes calls m'' := by
  have hrun := h.trans (of_step h')
  rw [hinvoked, List.append_nil] at hrun
  exact hrun

end Invokes

end Runs

/-! ## Dispatches -/

section Dispatches

variable {m m' : Machine U σ} {id : ComponentId} {event : LifeEvent} {e : Entity}

/-- All handlers only read, and nobody cut or blocked a connection. -/
structure Heeded (m : Machine U σ) : Prop where
  size : m.handlers.size = m.world.board.connections.size
  readers : ∀ handler ∈ m.handlers, handler.IsReader
  active : ∀ k < m.handlers.size, m.world.board.isActive k = true
  known : ∀ {j : ComponentId} {event : LifeEvent} {k : ConnectionKey},
    k ∈ m.world.slots j event → k < m.handlers.size

omit [DecidableEq U] in
theorem Heeded.congr (h : m.Heeded) (hhandlers : m'.handlers = m.handlers)
    (hboard : m'.world.board = m.world.board)
    (hslots : ∀ j event, m'.world.slots j event ⊆ m.world.slots j event) : m'.Heeded :=
  { size := by rw [hhandlers, hboard, h.size]
    readers := hhandlers ▸ h.readers
    active := hhandlers.symm ▸ hboard.symm ▸ h.active
    known := fun hk => hhandlers.symm ▸ h.known (hslots _ _ hk) }

omit [DecidableEq U] in
/-- A connection that is active was not cut. -/
theorem Heeded.isConnected (h : m.Heeded) {k : ConnectionKey}
    (hk : k ∈ m.world.slots id event) : m.world.board.isConnected k = true := by
  have hactive := h.active k (h.known hk)
  rw [Switchboard.isActive, Option.any_eq_true] at hactive
  obtain ⟨c, hc, hcactive⟩ := hactive
  rw [Switchboard.isConnected, hc]
  exact (Bool.and_eq_true_iff.mp hcactive).1

omit [DecidableEq U] in
/-- Who is connected to a signal hears it. -/
theorem Heeded.listeners_eq_slots (h : m.Heeded) (id : ComponentId) (event : LifeEvent) :
    m.world.listeners id event = m.world.slots id event := by
  rw [World.listeners_eq]
  exact List.filter_eq_self.mpr fun k hk => h.isConnected hk

omit [DecidableEq U] in
/-- A signal has nothing to forget. -/
theorem Heeded.snapshot_eq (h : m.Heeded) (id : ComponentId) (event : LifeEvent) :
    m.world.snapshot id event = (m.world.listeners id event, m.world) := by
  refine Prod.ext rfl ?_
  unfold World.snapshot
  cases hs : m.world.signal? id event with
  | none => rfl
  | some signal =>
    obtain ⟨pool, hpool, rfl⟩ := Option.map_eq_some_iff.mp hs
    have hslots : (pool.signals.get event).slots = m.world.slots id event := by
      rw [World.slots, hpool]
      rfl
    have hkept : (pool.signals.get event).prune m.world.board = pool.signals.get event := by
      rw [Signal.prune, hslots, List.filter_eq_self.mpr fun k hk => h.isConnected hk, ← hslots]
    show m.world.setSignal id event ((pool.signals.get event).prune m.world.board) = m.world
    rw [hkept, World.setSignal]
    have hpools : m.world.pools.modify id (fun p =>
        { p with signals := p.signals.set event (pool.signals.get event) }) = m.world.pools := by
      refine Array.ext_getElem? fun j => ?_
      rw [Array.getElem?_modify]
      split
      · rename_i hj
        rw [← hj, hpool, Option.map_some, Signals.set_get]
      · rfl
    rw [hpools]

/-- A script that only reads calls no handler. -/
theorem carries_readOnly {script : Script U σ} (h : script.ReadOnly) (m : Machine U σ) :
    ∃ host, m.Carries (.run script) [] { m with host } (.reply true) := by
  induction h generalizing m with
  | done => exact ⟨m.host, fun stack => .of_step rfl⟩
  | inspect hnext ih =>
    obtain ⟨host, hrun⟩ := ih m.world m.host m
    exact ⟨host, fun stack => .head rfl rfl (hrun stack)⟩
  | @note f next hnext ih =>
    obtain ⟨host, hrun⟩ := ih { m with host := f m.host }
    exact ⟨host, fun stack => .head rfl rfl (hrun stack)⟩

/-- A dispatch calls the handlers that it has left, and all of them see the same world. -/
theorem invokes_dispatch (h : m.Heeded) (id : ComponentId) (event : LifeEvent) {keys : List ConnectionKey}
    (hkeys : ∀ k ∈ keys, k < m.handlers.size) :
    ∃ host, ∀ stack, (m.on (.dispatch id event e keys :: stack) (.reply true)).Invokes
      (keys.map fun key => ⟨key, id, event, e, m.world⟩)
      (on { m with host } (.dispatch id event e [] :: stack) (.reply true)) := by
  induction keys generalizing m with
  | nil => exact ⟨m.host, fun stack => .refl _⟩
  | cons key keys ih =>
    have hkey := hkeys key List.mem_cons_self
    have hreader := h.readers _ (Array.getElem_mem hkey)
    cases hhandler : m.handlers[key] with
    | cascade claims =>
      rw [hhandler] at hreader
      exact hreader.elim
    | script body =>
      rw [hhandler] at hreader
      obtain ⟨host, hbody⟩ := carries_readOnly (hreader e) m
      obtain ⟨host', hrest⟩ := ih (m := { m with host }) (h.congr rfl rfl fun _ _ => List.Subset.refl _)
        fun k hk => hkeys k (List.mem_cons_of_mem key hk)
      refine ⟨host', fun stack => .head (step_dispatch ..) rfl ?_⟩
      rw [if_pos (h.active key hkey)]
      have hinvoke : (m.on (.dispatch id event e keys :: stack) (.invoke key e)).step =
          some (m.on (.dispatch id event e keys :: stack) (.run (body e))) := by
        show some (invoke _ key e) = _
        rw [invoke, show (m.on _ (.invoke key e)).handlers[key]? = some (.script body) from
          (Array.getElem?_eq_getElem hkey).trans (congrArg some hhandler)]
        rfl
      exact (Invokes.of_step hinvoke).trans ((hbody _).trans (hrest stack))

/-- Everybody who listens is called, and nothing changes but the host. -/
theorem carries_publish (h : m.Heeded) (id : ComponentId) (event : LifeEvent) (e : Entity) :
    ∃ host, m.Carries (.publish id event e)
      ((m.world.listeners id event).map fun key => ⟨key, id, event, e, m.world⟩)
      { m with host } (.reply true) := by
  have hkeys : ∀ k ∈ m.world.listeners id event, k < m.handlers.size := fun k hk =>
    h.known (h.listeners_eq_slots id event ▸ hk)
  obtain ⟨host, hrun⟩ := invokes_dispatch (e := e) h id event hkeys
  refine ⟨host, fun stack => .head ?_ rfl ((hrun stack).snoc rfl rfl)⟩
  show some (publish _ id event e) = _
  simp only [publish, on_world, h.snapshot_eq]
  rfl

/-! ## Removals -/

/-- The world while a removal is being announced. -/
abbrev announcing (m : Machine U σ) (id : ComponentId) (e : Entity) : World (Kind U) :=
  { m.world with removing := (id, e) :: m.world.removing }

/-- Everybody who listens is called before a component is removed. -/
theorem carries_announce (h : m.Heeded) (hfresh : (id, e) ∉ m.world.removing)
    (hrow : m.world.holds id e = true) :
    ∃ host, m.Carries (.announce id e)
      ((m.world.listeners id .destroy).map fun key => ⟨key, id, .destroy, e, m.announcing id e⟩)
      { m with host } (.reply true) := by
  have hheeded : (m.whileAnnouncing id e).Heeded :=
    h.congr rfl rfl fun _ _ => List.Subset.refl _
  have hlisteners : (m.whileAnnouncing id e).world.listeners id .destroy =
      m.world.listeners id .destroy := (World.tuned_with _ _ _).listeners _ _
  obtain ⟨host, hpublish⟩ := carries_publish hheeded id .destroy e
  rw [hlisteners] at hpublish
  have hcond : ¬ ((id, e) ∈ m.world.removing ∨ m.world.holds id e = false) := by
    rw [hrow, or_iff_left (by decide)]
    exact hfresh
  refine ⟨host, fun stack => ?_⟩
  have hstep : (m.on stack (.announce id e)).step =
      some ((m.whileAnnouncing id e).on (.removal id e :: stack) (.publish id .destroy e)) := by
    show some (announce _ id e) = _
    rw [announce, on_world, if_neg hcond]
    rfl
  have hlast : (on { m.whileAnnouncing id e with host } (.removal id e :: stack)
      (.reply true)).step = some (on { m with host } stack (.reply true)) := by
    show some (resume _ (.removal id e) true) = _
    simp only [resume, on_world, whileAnnouncing, List.erase_cons_head]
    rfl
  exact .head hstep rfl ((hpublish _).snoc hlast rfl)

theorem carries_announce_refused (h : (id, e) ∈ m.world.removing ∨ m.world.holds id e = false) :
    m.Carries (.announce id e) [] m (.reply false) := by
  refine fun stack => .of_step ?_
  show some (announce _ id e) = _
  rw [announce, on_world, if_pos h]
  rfl

/-- A component of an entity that is being destroyed is announced and erased. -/
theorem invokes_tearing (hwf : m.world.Wf) (h : m.Heeded) (hid : id < m.world.pools.size)
    (hfresh : (id, e) ∉ m.world.removing) (hrow : m.world.holds id e = true) :
    ∃ host, ∀ stack, (m.tearing stack e id).Invokes
      ((m.world.listeners id .destroy).map fun key => ⟨key, id, .destroy, e, m.announcing id e⟩)
      (tearing { m with world := m.world.erase id e, host } stack e (id + 1)) := by
  obtain ⟨host, hannounce⟩ := carries_announce h hfresh hrow
  refine ⟨host, fun stack => ?_⟩
  rw [tearing_of_lt hid]
  exact (hannounce (.teardown e id :: stack)).snoc
    (step_tearing (m := { m with host }) hwf stack e id true) rfl

/-- A pool without a component of the entity is passed over. -/
theorem invokes_tearing_bare (hid : id < m.world.pools.size) (hrow : m.world.holds id e = false)
    (stack : List (Frame U σ)) :
    (m.tearing stack e id).Invokes [] (m.tearing stack e (id + 1)) := by
  rw [tearing_of_lt hid]
  exact (carries_announce_refused (.inr hrow) (.teardown e id :: stack)).snoc rfl rfl

/-- Nobody hears of it if what is gone is to be destroyed. -/
theorem carries_destroy_refused (h : m.world.accepts e = false) :
    m.Carries (.destroy e) [] m (.reply false) :=
  fun stack => .of_step (step_destroy_refused h stack)

end Dispatches

/-! ## Calls -/

section Calls

variable {m m' : Machine U σ} {kind : Kind U} {id : ComponentId} {e : Entity}
variable {calls : List (Invocation (Kind U))}

/-- A task that takes one step to its answer calls nobody. -/
theorem Achieves.of_step {α : Type} {task : Task U σ α} {a : α}
    (h : ∀ stack next, (m.on stack (.run (task next))).step = some (m'.on stack (.run (next a)))) :
    m.Achieves task [] m' a :=
  fun stack next => .of_step (h stack next)

theorem Achieves.pure {α : Type} (m : Machine U σ) (a : α) :
    m.Achieves (pure a : Task U σ α) [] m a :=
  fun _ _ => .refl _

theorem Achieves.bind {α β : Type} {task : Task U σ α} {f : α → Task U σ β} {a : α} {b : β}
    {m'' : Machine U σ} {calls' : List (Invocation (Kind U))} (h : m.Achieves task calls m' a)
    (hf : m'.Achieves (f a) calls' m'' b) : m.Achieves (task >>= f) (calls ++ calls') m'' b :=
  fun stack next => (h stack fun a => f a next).trans (hf stack next)

/-- Who looks at the world calls nobody. -/
theorem Achieves.look {α : Type} {f : World (Kind U) → Task U σ α} {a : α}
    (h : m.Achieves (f m.world) calls m' a) : m.Achieves (Task.world >>= f) calls m' a :=
  fun stack next => .head rfl rfl (h stack next)

theorem achieves_destroy {b : Bool} (h : m.Carries (.destroy e) calls m' (.reply b)) :
    m.Achieves (Task.destroy e) calls m' b :=
  fun stack next => .head rfl rfl ((h (.resume next :: stack)).snoc rfl rfl)

/-- A component is announced and then taken. -/
theorem achieves_take (h : m.Heeded) (hwf : m.world.Wf) (hid : m.world.idOf? kind = some id)
    (hvalid : m.world.isValid e = true) (hfresh : (id, e) ∉ m.world.removing)
    (hrow : m.world.holds id e = true) :
    ∃ host, m.Achieves (Task.take kind e)
      ((m.world.listeners id .destroy).map fun key => ⟨key, id, .destroy, e, m.announcing id e⟩)
      { m with world := m.world.erase id e, host } (m.world.stored? kind e) := by
  obtain ⟨host, hannounce⟩ := carries_announce h hfresh hrow
  refine ⟨host, fun stack next => .head (step_take hid hvalid stack next) rfl
    ((hannounce _).snoc ?_ rfl)⟩
  show some (resume _ (.taking kind e next) true) = _
  simp only [resume, if_true, on_world, World.pull_eq hwf hid]
  rfl

theorem achieves_take_none (hwf : m.world.Wf) (hnone : m.world.stored? kind e = none) :
    m.Achieves (Task.take kind e) [] m none := by
  cases hid : m.world.idOf? kind with
  | none =>
    refine .of_step fun stack next => ?_
    show some (call _ (.take kind e) next) = _
    simp only [call, on_world, hid]
    rfl
  | some id =>
    cases hvalid : m.world.isValid e with
    | false =>
      refine .of_step fun stack next => ?_
      show some (call _ (.take kind e) next) = _
      simp only [call, on_world, hid, hvalid]
      rfl
    | true =>
      have hrow : m.world.holds id e = false := by
        rw [hwf.holds_eq_isSome hid, hnone]
        rfl
      exact fun stack next => .head (step_take hid hvalid stack next) rfl
        ((carries_announce_refused (.inr hrow) _).snoc rfl rfl)

/-- A component is changed, and then everybody who listens is called. -/
theorem achieves_patch (h : m.Heeded) (hid : m.world.idOf? kind = some id)
    (hsome : (m.world.get? kind e).isSome) (f : Value kind → Value kind) :
    ∃ host, m.Achieves (Task.patch kind e f)
      (((m.world.edit kind e f).listeners id .update).map fun key =>
        ⟨key, id, .update, e, m.world.edit kind e f⟩)
      { m with world := m.world.edit kind e f, host } true := by
  have htuned := World.tuned_edit m.world kind e f
  have hheeded : Heeded { m with world := m.world.edit kind e f } :=
    h.congr rfl htuned.board htuned.slots
  obtain ⟨host, hpublish⟩ := carries_publish hheeded id .update e
  obtain ⟨v, hv⟩ := Option.isSome_iff_exists.mp hsome
  refine ⟨host, fun stack next => ?_⟩
  have hstep : (m.on stack (.run (.call (.patch kind e f) next))).step =
      some (on { m with world := m.world.edit kind e f } (.resume (fun _ => next true) :: stack)
        (.publish id .update e)) := by
    show some (call _ (.patch kind e f) next) = _
    simp only [call, patch?, on_world, hid, hv, Option.getD_some]
    rfl
  exact .head hstep rfl ((hpublish _).snoc rfl rfl)

theorem achieves_patch_none (hnone : m.world.get? kind e = none) (f : Value kind → Value kind) :
    m.Achieves (Task.patch kind e f) [] m false := by
  refine .of_step fun stack next => ?_
  show some (call _ (.patch kind e f) next) = _
  cases hid : m.world.idOf? kind with
  | none =>
    simp only [call, patch?, on_world, hid]
    rfl
  | some id =>
    simp only [call, patch?, on_world, hid, hnone]
    rfl

/-- A component is put in place, and then everybody who listens is called. -/
theorem achieves_emplace (h : m.Heeded) (hwf : m.world.Wf) (ha : m.world.accepts e = true)
    {make : Except Abort (Value kind)} (hnew : (m.world.place kind e make).1 = .ok true)
    (hid : (m.world.place kind e make).2.idOf? kind = some id) :
    ∃ host, m.Achieves (Task.emplace kind e make)
      (((m.world.place kind e make).2.listeners id .construct).map fun key =>
        ⟨key, id, .construct, e, (m.world.place kind e make).2⟩)
      { m with world := (m.world.place kind e make).2, host }
      ((m.world.place kind e make).2.get? kind e, true) := by
  have hattuned := World.attuned_place hwf.paired kind e make
  generalize hplace : m.world.place kind e make = placed at hnew hid hattuned
  obtain ⟨added, world⟩ := placed
  obtain rfl : added = .ok true := hnew
  have hheeded : Heeded { m with world } := h.congr rfl hattuned.board hattuned.slots
  obtain ⟨host, hpublish⟩ := carries_publish hheeded id .construct e
  refine ⟨host, fun stack next => ?_⟩
  have hstep : (m.on stack (.run (.call (.emplace kind e make) next))).step =
      some (on { m with world } (.resume (fun _ => .inspect fun w _ => next (w.get? kind e, true)) ::
        stack) (.publish id .construct e)) := by
    show some (call _ (.emplace kind e make) next) = _
    simp only [call, on_world, if_pos ha, hplace, hid, Option.getD_some]
    rfl
  have hlast := (hpublish (.resume (fun _ => .inspect fun w _ => next (w.get? kind e, true)) ::
    stack)).snoc rfl rfl
  exact .head hstep rfl (hlast.snoc rfl rfl)

end Calls

end Machine

end EntityScene
