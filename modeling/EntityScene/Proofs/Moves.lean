import EntityScene.Proofs.Edits
import EntityScene.Proofs.Runs

/-!
# What one step can do

A machine has many steps, but few of them touch handles, rows or the removals under
way. `Machine.Move` sorts the steps of ordinary runs by what they do to these, and
`move_of_step` says that there are no others. Invariants of runs are proved by cases
on moves, and never look at the machine itself.

- `Frame.isPlain`: a frame that neither removes a component nor announces a removal.
- `Control.IsCalm`: a control that does not go on with a removal or a placement.
- `Machine.Over`: what a call that can be abandoned leaves, whether it is or not.
- `Machine.TornDown`: what becomes of an entity that goes on being destroyed.
- `Machine.Stepped`, `Machine.stepped_of_step`: what the control asks for is done.
- `Machine.Move`, `Machine.move_of_step`: the moves.
-/

namespace EntityScene

variable {U σ : Type} [SceneFamily U]

/-- Whether a frame waits for something other than a removal. -/
def Frame.isPlain : Frame U σ → Bool
  | .removal .. | .teardown .. | .taking .. => false
  | _ => true

/-- A control that starts no dispatch but that of an update, for a valid handle with the
component. -/
def Control.IsCalm (w : World (Kind U)) : Control U σ → Prop
  | .publish id event e => event = .update ∧ w.isValid e = true ∧ w.holds id e = true
  | .announce _ _ => False
  | .unwind _ => False
  | _ => True

/-- A control that asks for something other than a removal or a new entity. -/
def Control.isRequest : Control U σ → Bool
  | .reply _ | .announce .. | .unwind _ | .run (.call .create _) => false
  | _ => true

namespace Machine

variable [DecidableEq U] {m m' : Machine U σ}

/-- An entity goes on being destroyed with a pool, or is given up after the last. -/
inductive TornDown (w : World (Kind U)) (e : Entity) (id : ComponentId)
    (rest : List (Frame U σ)) (m' : Machine U σ) : Prop
  /-- The component in the pool is asked for. -/
  | next (pool : id < w.pools.size) (world : m'.world = w)
      (stack : m'.stack = .teardown e id :: rest) (control : m'.control = .announce id e)
  /-- There is no such pool. -/
  | last (pool : w.pools.size ≤ id)
      (world : m'.world = { w with entities := (w.entities.release e).2 })
      (stack : m'.stack = rest) (control : m'.control = .reply true)

/-- What a step does to handles, rows, removals and the stack. -/
inductive Move (m m' : Machine U σ) : Prop
  /-- No row is moved, and only plain frames come and go. -/
  | quiet (old new rest : List (Frame U σ))
      (before : m.stack = old ++ rest) (after : m'.stack = new ++ rest)
      (plain : ∀ f ∈ old ++ new, f.isPlain = true)
      (request : m.control.isRequest = true ∨ (∃ b, m.control = .reply b) ∧ old ≠ [])
      (world : World.Undisturbed (fun _ => False) m.world m'.world)
      (control : m'.control.IsCalm m'.world)
  /-- An entity is created. -/
  | created (e : Entity) (table : Entity.Table) (next : Entity → Script U σ)
      (call : m.control = .run (.call .create next))
      (allocate : m.world.entities.allocate = (.ok e, table))
      (world : m'.world = { m.world with entities := table })
      (stack : m'.stack = m.stack) (control : m'.control = .run (next e))
  /-- A component is put on an entity. -/
  | placed (kind : Kind U) (id : ComponentId) (e : Entity) (v : Value kind)
      (make : Except Abort (Value kind)) (next : Option (Value kind) × Bool → Script U σ)
      (frame : Frame U σ) (call : m.control = .run (.call (.emplace kind e make) next))
      (accepts : m.world.accepts e = true)
      (world : World.Placed m.world kind id e v m'.world)
      (plain : frame.isPlain = true) (stack : m'.stack = frame :: m.stack)
      (control : m'.control = .publish id .construct e)
  /-- A component is asked for, to be taken. -/
  | asked (kind : Kind U) (id : ComponentId) (e : Entity)
      (next : Option (Value kind) → Script U σ)
      (call : m.control = .run (.call (.take kind e) next))
      (number : m.world.idOf? kind = some id)
      (world : m'.world = m.world) (stack : m'.stack = .taking kind e next :: m.stack)
      (control : m'.control = .announce id e)
  /-- An entity starts to be destroyed. -/
  | begun (e : Entity) (call : m.control = .destroy e)
      (alive : m.world.entities.state? e = some .alive)
      (torn : TornDown { m.world with entities := (m.world.entities.beginDestroy e).2 } e 0
        m.stack m')
  /-- A removal is refused. -/
  | refused (id : ComponentId) (e : Entity) (call : m.control = .announce id e)
      (reason : (id, e) ∈ m.world.removing ∨ m.world.holds id e = false)
      (world : m'.world = m.world) (stack : m'.stack = m.stack)
      (control : m'.control = .reply false)
  /-- A removal is announced. -/
  | announced (id : ComponentId) (e : Entity) (call : m.control = .announce id e)
      (fresh : (id, e) ∉ m.world.removing) (row : m.world.holds id e = true)
      (world : m'.world = { m.world with removing := (id, e) :: m.world.removing })
      (stack : m'.stack = .removal id e :: m.stack)
      (control : m'.control = .publish id .destroy e)
  /-- The announcement of a removal comes to its end. -/
  | finished (id : ComponentId) (e : Entity) (b : Bool) (call : m.control = .reply b)
      (before : m.stack = .removal id e :: m'.stack)
      (world : m'.world = { m.world with removing := m.world.removing.erase (id, e) })
      (control : m'.control = .reply true)
  /-- An entity that is being destroyed loses a component, or had none to lose. -/
  | teardown (id : ComponentId) (e : Entity) (b : Bool) (rest : List (Frame U σ))
      (call : m.control = .reply b) (before : m.stack = .teardown e id :: rest)
      (torn : TornDown (if b then m.world.erase id e else m.world) e (id + 1) rest m')
  /-- A component is taken, or there was none to take. -/
  | taken (kind : Kind U) (e : Entity) (b : Bool) (next : Option (Value kind) → Script U σ)
      (script : Script U σ) (call : m.control = .reply b)
      (before : m.stack = .taking kind e next :: m'.stack)
      (world : m'.world = if b then (m.world.pull kind e).2 else m.world)
      (control : m'.control = .run script)

/-! ## Quiet moves -/

/-- A quiet move that leaves the stack alone. -/
theorem Move.stay (stack : m'.stack = m.stack) (request : m.control.isRequest = true)
    (world : World.Undisturbed (fun _ => False) m.world m'.world)
    (control : m'.control.IsCalm m'.world) : Move m m' :=
  .quiet [] [] m.stack rfl stack (fun _ hf => by cases hf) (.inl request) world control

/-- A quiet move that lets a plain frame wait. -/
theorem Move.push (frame : Frame U σ) (plain : frame.isPlain = true)
    (stack : m'.stack = frame :: m.stack) (request : m.control.isRequest = true)
    (world : World.Undisturbed (fun _ => False) m.world m'.world)
    (control : m'.control.IsCalm m'.world) : Move m m' :=
  .quiet [] [frame] m.stack rfl stack (by simpa using plain) (.inl request) world control

/-- A quiet move that takes a plain frame from the stack. -/
theorem Move.pop {b : Bool} {frame : Frame U σ} (call : m.control = .reply b)
    (plain : frame.isPlain = true) (stack : m.stack = frame :: m'.stack)
    (world : World.Undisturbed (fun _ => False) m.world m'.world)
    (control : m'.control.IsCalm m'.world) : Move m m' :=
  .quiet [frame] [] m'.stack stack rfl (by simpa using plain)
    (.inr ⟨⟨b, call⟩, List.cons_ne_nil _ _⟩) world control

/-! ## Calls that may be abandoned -/

/-- A guard is taken for a script, or the count of guards has no room for it. -/
theorem call_block_cases (m : Machine U σ) (key : ConnectionKey) (next : GuardKey → Script U σ) :
    m.call (.block key) next =
        { m with world := { m.world with board := (m.world.board.block key).2 } }.proceed
          (next m.world.board.guards.size) ∨
      m.call (.block key) next = m.giveUp .countOverflow := by
  rcases m.world.board.block_cases key with hblock | hblock
  · refine .inl ?_
    simp only [call, hblock]
    rfl
  · refine .inr ?_
    simp only [call, hblock]
    rfl

/-- A scope takes its guard, or the count of guards has no room for it. -/
theorem runScript_blocked_cases (m : Machine U σ) (key : ConnectionKey) (body next : Script U σ) :
    m.runScript (.blocked key body next) =
        { m with world := { m.world with board := (m.world.board.block key).2 } }.await
          (.blocked m.world.board.guards.size next) (.run body) ∨
      m.runScript (.blocked key body next) = m.giveUp .countOverflow := by
  rcases m.world.board.block_cases key with hblock | hblock
  · refine .inl ?_
    simp only [runScript, hblock]
  · refine .inr ?_
    simp only [runScript, hblock]

/-- A destruction goes on with the next pool, unless the removal is abandoned. -/
theorem resume_teardown_cases (m : Machine U σ) (e : Entity) (id : ComponentId)
    (b : Bool) :
    (b = true → (m.world.erasure id e).isOk = true) ∧
        m.resume (.teardown e id) b =
          { m with world := if b then m.world.erase id e else m.world }.tearDown e (id + 1) ∨
      ∃ cause, b = true ∧ m.world.erasure id e = .error cause ∧
        m.resume (.teardown e id) b = { m with world := m.world.erase id e }.giveUp cause := by
  cases b with
  | true =>
    cases herasure : m.world.erasure id e with
    | ok found =>
      refine .inl ⟨fun _ => rfl, ?_⟩
      simp only [resume, if_true, herasure]
    | error cause =>
      refine .inr ⟨cause, rfl, rfl, ?_⟩
      simp only [resume, if_true, herasure]
  | false => exact .inl ⟨fun hb => (Bool.false_ne_true hb).elim, rfl⟩

/-- Whoever takes a component goes on, unless the removal is abandoned. -/
theorem resume_taking_cases (m : Machine U σ) {kind : Kind U} (e : Entity)
    (next : Option (Value kind) → Script U σ) (b : Bool) :
    (∃ old, m.resume (.taking kind e next) b =
        { m with world := if b then (m.world.pull kind e).2 else m.world }.proceed (next old)) ∨
      ∃ cause, b = true ∧ (m.world.pull kind e).1 = .error cause ∧
        m.resume (.taking kind e next) b =
          { m with world := (m.world.pull kind e).2 }.giveUp cause := by
  cases b with
  | true =>
    cases hpull : (m.world.pull kind e).1 with
    | ok old =>
      refine .inl ⟨old, ?_⟩
      simp only [resume, if_true, hpull, proceedBy_ok]
    | error cause =>
      refine .inr ⟨cause, rfl, rfl, ?_⟩
      simp only [resume, if_true, hpull, proceedBy_error]
  | false => exact .inl ⟨none, rfl⟩

/-! ## Steps by control -/

omit [DecidableEq U] in
theorem tornDown_tearDown (m : Machine U σ) (e : Entity) (id : ComponentId) :
    TornDown m.world e id m.stack (m.tearDown e id) := by
  unfold tearDown
  split
  · rename_i h
    exact .next h rfl rfl rfl
  · rename_i h
    exact .last (Nat.not_lt.mp h) rfl rfl rfl

/-- A patch finds its component, changes it and publishes the update. -/
theorem patch?_eq_some {kind : Kind U} {e : Entity} {f : Value kind → Value kind}
    {frame : Frame U σ} (h : m.patch? kind e f frame = some m') :
    ∃ id v, m.world.idOf? kind = some id ∧ m.world.get? kind e = some v ∧
      m' = { m with world := m.world.edit kind e f }.await frame (.publish id .update e) := by
  unfold patch? at h
  split at h
  · rename_i id v hid hv
    cases h
    exact ⟨id, v, hid, hv, rfl⟩
  · cases h

/-- A component that cannot be patched is not there. -/
theorem get?_of_patch?_eq_none {kind : Kind U} {e : Entity} {f : Value kind → Value kind}
    {frame : Frame U σ} (h : m.patch? kind e f frame = none) : m.world.get? kind e = none := by
  cases hid : m.world.idOf? kind with
  | none =>
    rw [World.get?_eq_stored?, World.stored?_of_idOf?_eq_none hid]
    exact ite_self _
  | some id =>
    cases hv : m.world.get? kind e with
    | none => rfl
    | some v =>
      rw [patch?, hid, hv] at h
      cases h

/-- The component that an entity has is a row of a valid handle. -/
theorem holds_of_get? {w : World (Kind U)} (hwf : w.Wf) {kind : Kind U} {id : ComponentId}
    {e : Entity} {v : Value kind} (hid : w.idOf? kind = some id)
    (hv : w.get? kind e = some v) : w.isValid e = true ∧ w.holds id e = true := by
  rw [World.get?_eq_stored?] at hv
  split at hv
  · rename_i hvalid
    refine ⟨hvalid, ?_⟩
    rw [hwf.holds_eq_isSome hid, hv]
    rfl
  · cases hv

theorem move_patch? (hwf : m.world.Wf) (request : m.control.isRequest = true)
    {kind : Kind U} {e : Entity} {f : Value kind → Value kind} {frame : Frame U σ}
    (plain : frame.isPlain = true)
    (h : m.patch? kind e f frame = some m') : Move m m' := by
  obtain ⟨id, v, hid, hv, rfl⟩ := patch?_eq_some h
  have hedit : World.Undisturbed (fun _ => False) m.world (m.world.edit kind e f) :=
    World.undisturbed_edit hwf fun hf => hf
  refine .push frame plain rfl request hedit ⟨rfl, ?_⟩
  show (m.world.edit kind e f).isValid e = true ∧ (m.world.edit kind e f).holds id e = true
  rw [hedit.isValid, hedit.holds]
  exact holds_of_get? hwf hid hv

/-- The step that creates an entity. -/
theorem move_create {next : Entity → Script U σ} (hcall : m.control = .run (.call .create next))
    (hm' : ∀ cause, (m.call .create next).control ≠ .unwind cause) :
    Move m (m.call .create next) := by
  obtain ⟨created, table, hr⟩ : ∃ created table, m.world.entities.allocate = (created, table) :=
    ⟨_, _, rfl⟩
  cases created with
  | ok e =>
    simp only [call, World.create, hr]
    exact .created e table next hcall hr rfl rfl rfl
  | error cause =>
    simp only [call, World.create, hr] at hm'
    exact absurd rfl (hm' cause)

/-- A component is put on an entity, unless it has one or is not to have any. -/
theorem move_emplace (hwf : m.world.Wf) {kind : Kind U} {e : Entity}
    {make : Except Abort (Value kind)} {next : Option (Value kind) × Bool → Script U σ}
    (hcall : m.control = .run (.call (.emplace kind e make) next))
    (hreq : m.control.isRequest = true)
    (hm' : ∀ cause, (m.call (.emplace kind e make) next).control ≠ .unwind cause) :
    Move m (m.call (.emplace kind e make) next) := by
  by_cases ha : m.world.accepts e = true
  · simp only [call, if_pos ha] at hm' ⊢
    rcases World.place_cases hwf kind e make with
      ⟨cause, herr, -⟩ | ⟨hold, -⟩ | ⟨v, id, -, -, hnew, hplaced⟩
    · rw [herr] at hm'
      exact absurd rfl (hm' cause)
    · rw [hold]
      exact .stay rfl hreq (World.undisturbed_register hwf kind) trivial
    · rw [hnew]
      refine .placed kind id e v make next _ hcall ha hplaced rfl rfl ?_
      show Control.publish (((m.world.place kind e make).2.idOf? kind).getD 0) .construct e = _
      rw [hplaced.idOf?_self]
      rfl
  · simp only [call, if_neg ha]
    exact .stay rfl hreq (.refl hwf) trivial

/-- The steps that make another call. -/
theorem move_call (hwf : m.world.Wf) {c : Call U} {next : c.Reply → Script U σ}
    (hcall : m.control = .run (.call c next)) (hreq : m.control.isRequest = true)
    (hm : m.control.isOrdinary = true) (hm' : ∀ cause, (m.call c next).control ≠ .unwind cause) :
    Move m (m.call c next) := by
  have hboard : ∀ board, World.Undisturbed (fun _ => False) m.world { m.world with board } :=
    World.undisturbed_board hwf
  cases c with
  | create =>
    rw [hcall] at hreq
    cases hreq
  | destroy e => exact .push _ rfl rfl hreq (.refl hwf) trivial
  | register kind =>
    exact .stay rfl hreq (World.undisturbed_register hwf kind) trivial
  | emplace kind e make => exact move_emplace hwf hcall hreq hm'
  | edit kind e f =>
    exact .stay rfl hreq (World.undisturbed_edit hwf fun hf => hf) trivial
  | patch kind e f =>
    cases hp : m.patch? kind e f (.resume fun _ => next true) with
    | none =>
      simp only [call, hp, Option.getD_none]
      exact .stay rfl hreq (.refl hwf) trivial
    | some m' =>
      simp only [call, hp, Option.getD_some]
      exact move_patch? hwf hreq rfl hp
  | take kind e =>
    simp only [call]
    split
    · rename_i id hid _
      exact .asked kind id e next hcall hid rfl rfl rfl
    · exact .stay rfl hreq (.refl hwf) trivial
  | fetchEdit e kinds f =>
    have hfetch : World.Undisturbed (fun _ => False) m.world (m.world.fetchEdit e kinds f).2 :=
      World.undisturbed_fetchEdit hwf e kinds f fun _ _ hf => hf
    simp only [call] at hm' ⊢
    generalize m.world.fetchEdit e kinds f = r at hm' hfetch ⊢
    obtain ⟨fetched, world⟩ := r
    cases fetched with
    | ok components => exact .stay rfl hreq hfetch trivial
    | error cause => exact absurd rfl (hm' cause)
  | alterStorage kind f =>
    rw [hcall] at hm
    cases hm
  | disconnect connection => exact .stay rfl hreq (hboard _) trivial
  | block connection =>
    rcases call_block_cases m connection next with hblock | hblock
    · rw [hblock]
      exact .stay rfl hreq (hboard _) trivial
    · rw [hblock] at hm'
      exact absurd rfl (hm' _)
  | release guard => exact .stay rfl hreq (hboard _) trivial
  | disconnectAll kind event =>
    exact .stay rfl hreq (World.undisturbed_disconnectAll hwf kind event) trivial
  | updateTransform root =>
    exact .stay rfl hreq (World.undisturbed_updateTransform hwf (fun hf => hf) root) trivial
  | updateAllTransforms =>
    exact .stay rfl hreq (World.undisturbed_updateAllTransforms hwf fun hf => hf) trivial

/-- A handler is connected, or the signal has no number for it. -/
theorem addHandler_cases (m : Machine U σ) (kind : Kind U) (event : LifeEvent)
    (handler : ConnectionKey → Handler U σ) :
    (∃ key, (m.world.connect kind event).1 = .ok key ∧
      m.addHandler kind event handler =
        (.ok key, { m with
          world := (m.world.connect kind event).2
          handlers := m.handlers.push (handler key) })) ∨
      ∃ cause, (m.world.connect kind event).1 = .error cause ∧
        m.addHandler kind event handler =
          (.error cause, { m with world := (m.world.connect kind event).2 }) := by
  cases hmade : (m.world.connect kind event).1 with
  | ok key =>
    refine .inl ⟨key, rfl, ?_⟩
    simp only [addHandler, hmade]
  | error cause =>
    refine .inr ⟨cause, rfl, ?_⟩
    simp only [addHandler, hmade]

/-- A script connects a handler, or is abandoned for want of a number. -/
theorem runScript_connect_cases (m : Machine U σ) (kind : Kind U) (event : LifeEvent)
    (handler : ConnectionKey → Entity → Script U σ) (next : ConnectionKey → Script U σ) :
    (∃ key, (m.world.connect kind event).1 = .ok key ∧
      m.runScript (.connect kind event handler next) =
        { m with
          world := (m.world.connect kind event).2
          handlers := m.handlers.push (.script (handler key)) }.proceed (next key)) ∨
      ∃ cause, (m.world.connect kind event).1 = .error cause ∧
        m.runScript (.connect kind event handler next) =
          { m with world := (m.world.connect kind event).2 }.giveUp cause := by
  rcases m.addHandler_cases kind event fun key => .script (handler key) with
    ⟨key, hkey, hmade⟩ | ⟨cause, hcause, hmade⟩
  · refine .inl ⟨key, hkey, ?_⟩
    simp only [runScript, hmade, proceedBy_ok]
  · refine .inr ⟨cause, hcause, ?_⟩
    simp only [runScript, hmade, proceedBy_error]

/-- A script connects a cascade, or is abandoned for want of a number. -/
theorem runScript_cascade_cases (m : Machine U σ) (next : Script U σ) :
    (∃ key, (m.withClaims.world.connect .node .destroy).1 = .ok key ∧
      m.runScript (.cascade next) =
        { m.withClaims with
          world := (m.withClaims.world.connect .node .destroy).2
          handlers := m.handlers.push (.cascade m.claims.size) }.proceed next) ∨
      ∃ cause, (m.withClaims.world.connect .node .destroy).1 = .error cause ∧
        m.runScript (.cascade next) =
          { m.withClaims with
            world := (m.withClaims.world.connect .node .destroy).2 }.giveUp cause := by
  rcases m.withClaims.addHandler_cases .node .destroy fun _ => .cascade m.claims.size with
    ⟨key, hkey, hmade⟩ | ⟨cause, hcause, hmade⟩
  · refine .inl ⟨key, hkey, ?_⟩
    simp only [runScript, addCascade, hmade, proceedBy_ok]
    rfl
  · refine .inr ⟨cause, hcause, ?_⟩
    simp only [runScript, addCascade, hmade, proceedBy_error]

/-- A call is over: it has left this world, and a script goes on, or the calls in progress are to
be left. -/
structure Over (m m' : Machine U σ) (w : World (Kind U)) : Prop where
  world : m'.world = w
  stack : m'.stack = m.stack
  claims : m'.claims = m.claims
  control : (∃ script, m'.control = .run script) ∨ ∃ cause, m'.control = .unwind cause

theorem over_block (m : Machine U σ) (key : ConnectionKey) (next : GuardKey → Script U σ) :
    Over m (m.call (.block key) next)
      { m.world with board := (m.world.board.block key).2 } := by
  rcases m.world.board.block_cases key with hblock | hblock
  · simp only [call, hblock]
    exact ⟨rfl, rfl, rfl, .inl ⟨_, rfl⟩⟩
  · simp only [call, hblock]
    exact ⟨rfl, rfl, rfl, .inr ⟨_, rfl⟩⟩

theorem over_connect (m : Machine U σ) (kind : Kind U) (event : LifeEvent)
    (handler : ConnectionKey → Entity → Script U σ) (next : ConnectionKey → Script U σ) :
    Over m (m.runScript (.connect kind event handler next)) (m.world.connect kind event).2 := by
  rcases runScript_connect_cases m kind event handler next with
    ⟨key, -, hmade⟩ | ⟨cause, -, hmade⟩
  · rw [hmade]
    exact ⟨rfl, rfl, rfl, .inl ⟨_, rfl⟩⟩
  · rw [hmade]
    exact ⟨rfl, rfl, rfl, .inr ⟨_, rfl⟩⟩

theorem over_cascade (m : Machine U σ) (next : Script U σ) :
    Over m.withClaims (m.runScript (.cascade next))
      (m.withClaims.world.connect .node .destroy).2 := by
  rcases runScript_cascade_cases m next with ⟨key, -, hmade⟩ | ⟨cause, -, hmade⟩
  · rw [hmade]
    exact ⟨rfl, rfl, rfl, .inl ⟨_, rfl⟩⟩
  · rw [hmade]
    exact ⟨rfl, rfl, rfl, .inr ⟨_, rfl⟩⟩

theorem over_taking (m : Machine U σ) {kind : Kind U} (e : Entity)
    (next : Option (Value kind) → Script U σ) (b : Bool) :
    Over m (m.resume (.taking kind e next) b)
      (if b then (m.world.pull kind e).2 else m.world) := by
  rcases resume_taking_cases m e next b with ⟨old, hnext⟩ | ⟨cause, rfl, -, hnext⟩
  · rw [hnext]
    exact ⟨rfl, rfl, rfl, .inl ⟨_, rfl⟩⟩
  · rw [hnext]
    exact ⟨rfl, rfl, rfl, .inr ⟨_, rfl⟩⟩

/-- A scope that takes no guard leaves the board alone. -/
theorem world_runScript_blocked (m : Machine U σ) (key : ConnectionKey)
    (body next : Script U σ) :
    (m.runScript (.blocked key body next)).world =
      { m.world with board := (m.world.board.block key).2 } := by
  rcases m.world.board.block_cases key with hblock | hblock
  · simp only [runScript, hblock]
    rfl
  · simp only [runScript, hblock]
    rfl

theorem undisturbed_withClaims (hwf : m.world.Wf) (kept : Kind U → Prop) :
    World.Undisturbed kept m.world m.withClaims.world := by
  have hnode : World.Undisturbed kept m.world (m.world.register .node).2 :=
    World.undisturbed_register hwf .node
  exact hnode.trans (World.undisturbed_register hnode.wf .transform)

/-- Whether a handler is connected or not, no row is moved. -/
theorem undisturbed_runScript_connect (hwf : m.world.Wf) (kept : Kind U → Prop) (kind : Kind U)
    (event : LifeEvent) (handler : ConnectionKey → Entity → Script U σ)
    (next : ConnectionKey → Script U σ) :
    World.Undisturbed kept m.world (m.runScript (.connect kind event handler next)).world := by
  rw [(over_connect m kind event handler next).world]
  exact World.undisturbed_connect hwf kind event

theorem undisturbed_runScript_cascade (hwf : m.world.Wf) (kept : Kind U → Prop)
    (next : Script U σ) :
    World.Undisturbed kept m.world (m.runScript (.cascade next)).world := by
  have hclaims := undisturbed_withClaims hwf kept
  rw [(over_cascade m next).world]
  exact hclaims.trans (World.undisturbed_connect hclaims.wf .node .destroy)

/-- The steps that go on with a script. -/
theorem move_runScript (hwf : m.world.Wf) {script : Script U σ}
    (hcall : m.control = .run script) (hm : m.control.isOrdinary = true)
    (hm' : ∀ cause, (m.runScript script).control ≠ .unwind cause) :
    Move m (m.runScript script) := by
  cases script with
  | done => exact .stay rfl (by rw [hcall]; rfl) (.refl hwf) trivial
  | abort cause => exact absurd rfl (hm' cause)
  | inspect next => exact .stay rfl (by rw [hcall]; rfl) (.refl hwf) trivial
  | note f next => exact .stay rfl (by rw [hcall]; rfl) (.refl hwf) trivial
  | call c next =>
    cases c with
    | create => exact move_create hcall hm'
    | _ => exact move_call hwf hcall (by rw [hcall]; rfl) hm hm'
  | connect kind event handler next =>
    rcases runScript_connect_cases m kind event handler next with
      ⟨key, -, hmade⟩ | ⟨cause, -, hmade⟩
    · rw [hmade]
      exact .stay rfl (by rw [hcall]; rfl) (World.undisturbed_connect hwf kind event) trivial
    · rw [hmade] at hm'
      exact absurd rfl (hm' cause)
  | cascade next =>
    have hclaims := undisturbed_withClaims hwf fun _ => False
    rcases runScript_cascade_cases m next with ⟨key, -, hmade⟩ | ⟨cause, -, hmade⟩
    · rw [hmade]
      exact .stay rfl (by rw [hcall]; rfl)
        (hclaims.trans (World.undisturbed_connect hclaims.wf .node .destroy)) trivial
    · rw [hmade] at hm'
      exact absurd rfl (hm' cause)
  | attempt body next => exact .push _ rfl rfl (by rw [hcall]; rfl) (.refl hwf) trivial
  | blocked connection body next =>
    rcases runScript_blocked_cases m connection body next with hblock | hblock
    · rw [hblock]
      exact .push _ rfl rfl (by rw [hcall]; rfl) (World.undisturbed_board hwf _) trivial
    · rw [hblock] at hm'
      exact absurd rfl (hm' _)

/-- The steps that call a handler. -/
theorem move_invoke (hwf : m.world.Wf) {connection : ConnectionKey} {e : Entity}
    (hcall : m.control = .invoke connection e) : Move m (m.invoke connection e) := by
  have hreq : m.control.isRequest = true := by rw [hcall]; rfl
  unfold invoke
  split
  · exact .stay rfl hreq (.refl hwf) trivial
  · rename_i claims _
    unfold startCascade
    split
    · exact .stay rfl hreq (.refl hwf) trivial
    · cases hp : (m.world.validParentOf? e).bind fun parent =>
          m.patch? .node parent (fun node => TreeNode.dropChild node e) (.unlinking claims e) with
      | none =>
        simp only [hp, Option.getD_none]
        exact .push _ rfl rfl hreq (.refl hwf) trivial
      | some m' =>
        obtain ⟨parent, -, hpatch⟩ := Option.bind_eq_some_iff.mp hp
        simp only [hp, Option.getD_some]
        exact move_patch? hwf hreq rfl hpatch
  · exact .stay rfl hreq (.refl hwf) trivial

omit [DecidableEq U] in
/-- A destruction that is accepted begins with the first pool. -/
theorem tornDown_destroy (m : Machine U σ) {e : Entity}
    (alive : m.world.entities.state? e = some .alive) :
    TornDown { m.world with entities := (m.world.entities.beginDestroy e).2 } e 0 m.stack
      (m.destroy e) := by
  have hfst := Entity.Table.beginDestroy_fst.mpr alive
  generalize hbegun : { m with world :=
    { m.world with entities := (m.world.entities.beginDestroy e).2 } } = begun
  have hstep : m.destroy e = begun.tearDown e 0 := by
    simp only [destroy, hfst, if_true, hbegun]
  have htorn := tornDown_tearDown begun e 0
  rw [← hstep, ← hbegun] at htorn
  exact htorn

omit [DecidableEq U] in
/-- A destruction that is refused changes nothing. -/
theorem destroy_of_ne (m : Machine U σ) {e : Entity}
    (h : m.world.entities.state? e ≠ some .alive) : m.destroy e = m.answer false := by
  simp only [destroy, Entity.Table.beginDestroy_of_ne h]
  rfl

theorem move_destroy (hwf : m.world.Wf) {e : Entity} (hcall : m.control = .destroy e) :
    Move m (m.destroy e) := by
  by_cases h : m.world.entities.state? e = some .alive
  · exact .begun e hcall h (tornDown_destroy m h)
  · rw [destroy_of_ne m h]
    exact .stay rfl (by rw [hcall]; rfl) (.refl hwf) trivial

theorem move_announce {id : ComponentId} {e : Entity} (hcall : m.control = .announce id e) :
    Move m (m.announce id e) := by
  unfold announce
  split
  · rename_i h
    exact .refused id e hcall h rfl rfl rfl
  · rename_i h
    obtain ⟨hfresh, hrow⟩ := not_or.mp h
    exact .announced id e hcall hfresh (by simpa using hrow) rfl rfl rfl

/-- A cascade gives a node its turn, or comes to its end. -/
theorem move_cascadeOn (hwf : m.world.Wf) {b : Bool} {frame : Frame U σ}
    {stack : List (Frame U σ)} (hcall : m.control = .reply b) (hstack : m.stack = frame :: stack)
    (plain : frame.isPlain = true) (m₀ : Machine U σ) (hworld : m₀.world = m.world)
    (hrest : m₀.stack = stack) (claims : Nat) (past ahead : List Entity) :
    Move m (m₀.cascadeOn claims past ahead) := by
  have hcalm : World.Undisturbed (fun _ => False) m.world m₀.world := by
    rw [hworld]
    exact .refl hwf
  cases ahead with
  | nil =>
    refine .pop hcall plain ?_ hcalm trivial
    rw [hstack]
    exact congrArg _ hrest.symm
  | cons e ahead =>
    refine .quiet [frame] [_] stack hstack (congrArg _ hrest) ?_
      (.inr ⟨⟨b, hcall⟩, List.cons_ne_nil _ _⟩) hcalm trivial
    simpa [Frame.isPlain] using plain

/-- In a world in order a component is removed, and the destruction goes on. -/
theorem resume_teardown (hwf : m.world.Wf) (e : Entity) (id : ComponentId) (b : Bool) :
    m.resume (.teardown e id) b =
      { m with world := if b then m.world.erase id e else m.world }.tearDown e (id + 1) := by
  rcases resume_teardown_cases m e id b with ⟨-, hnext⟩ | ⟨cause, -, herasure, -⟩
  · exact hnext
  · rw [World.erasure_eq hwf] at herasure
    cases herasure

/-- In a world in order a component is taken, and whoever wants it goes on. -/
theorem resume_taking (hwf : m.world.Wf) {kind : Kind U} (e : Entity)
    (next : Option (Value kind) → Script U σ) (b : Bool) :
    ∃ old, m.resume (.taking kind e next) b =
      { m with world := if b then (m.world.pull kind e).2 else m.world }.proceed (next old) := by
  rcases resume_taking_cases m e next b with hnext | ⟨cause, -, hpull, -⟩
  · exact hnext
  · cases hid : m.world.idOf? kind with
    | none =>
      rw [World.pull, World.storage?_eq_none hid] at hpull
      cases hpull
    | some id =>
      rw [World.pull_eq hwf hid] at hpull
      cases hpull

/-- The steps of the frame that an answer is for. -/
theorem move_resume (hwf : m.world.Wf) {b : Bool} {frame : Frame U σ}
    {stack : List (Frame U σ)} (hcall : m.control = .reply b) (hstack : m.stack = frame :: stack) :
    Move m ({ m with stack }.resume frame b) := by
  cases frame with
  | dispatch id event e rest =>
    cases rest with
    | nil => exact .pop hcall rfl hstack (.refl hwf) trivial
    | cons key rest =>
      refine .quiet [_] [.dispatch id event e rest] stack hstack rfl
        (by simp [Frame.isPlain]) (.inr ⟨⟨b, hcall⟩, List.cons_ne_nil _ _⟩) (.refl hwf) ?_
      show Control.IsCalm _ (if _ then _ else _)
      split
      · trivial
      · trivial
  | removal id e => exact .finished id e b hcall hstack rfl rfl
  | teardown e id =>
    rw [resume_teardown (m := { m with stack }) hwf]
    refine .teardown id e b stack hcall hstack ?_
    exact tornDown_tearDown { m with
      stack, world := if b then m.world.erase id e else m.world } e (id + 1)
  | resume next => exact .pop hcall rfl hstack (.refl hwf) trivial
  | taking kind e next =>
    obtain ⟨old, hresume⟩ := resume_taking (m := { m with stack }) hwf e next b
    rw [hresume]
    exact .taken kind e b next _ hcall hstack rfl rfl
  | attempt next => exact .pop hcall rfl hstack (.refl hwf) trivial
  | blocked guard next =>
    exact .pop hcall rfl hstack (World.undisturbed_board hwf _) trivial
  | unlinking claims e =>
    exact move_cascadeOn hwf hcall hstack rfl
      (Machine.claim { m with stack } claims (e :: m.world.descendants e)).2 rfl rfl claims [] _
  | cascade claims past ahead =>
    exact move_cascadeOn hwf hcall hstack rfl { m with stack } rfl rfl claims past ahead

/-- An answer is for the frame on top of the stack. -/
theorem step_of_reply {b : Bool} {frame : Frame U σ} {stack : List (Frame U σ)}
    (hcall : m.control = .reply b) (hstack : m.stack = frame :: stack) :
    m.step = some ({ m with stack }.resume frame b) := by
  unfold step
  rw [hcall, hstack]

/-- A step does what the control asks for, and takes the frame on top away to answer or leave it. -/
inductive Stepped (m : Machine U σ) : Machine U σ → Prop
  | run (script : Script U σ) (call : m.control = .run script) : Stepped m (m.runScript script)
  | publish (id : ComponentId) (event : LifeEvent) (e : Entity)
      (call : m.control = .publish id event e) : Stepped m (m.publish id event e)
  | invoke (key : ConnectionKey) (e : Entity) (call : m.control = .invoke key e) :
      Stepped m (m.invoke key e)
  | destroy (e : Entity) (call : m.control = .destroy e) : Stepped m (m.destroy e)
  | announce (id : ComponentId) (e : Entity) (call : m.control = .announce id e) :
      Stepped m (m.announce id e)
  | reply (b : Bool) (frame : Frame U σ) (stack : List (Frame U σ)) (call : m.control = .reply b)
      (before : m.stack = frame :: stack) : Stepped m ({ m with stack }.resume frame b)
  | unwind (cause : Abort) (frame : Frame U σ) (stack : List (Frame U σ))
      (call : m.control = .unwind cause) (before : m.stack = frame :: stack) :
      Stepped m ({ m with stack }.abandon frame cause)

theorem stepped_of_step (h : m.step = some m') : Stepped m m' := by
  unfold step at h
  split at h
  · obtain rfl := Option.some.inj h
    exact .run _ (by assumption)
  · obtain rfl := Option.some.inj h
    exact .publish _ _ _ (by assumption)
  · obtain rfl := Option.some.inj h
    exact .invoke _ _ (by assumption)
  · obtain rfl := Option.some.inj h
    exact .destroy _ (by assumption)
  · obtain rfl := Option.some.inj h
    exact .announce _ _ (by assumption)
  · split at h
    · cases h
    · obtain rfl := Option.some.inj h
      exact .reply _ _ _ (by assumption) (by assumption)
  · split at h
    · cases h
    · obtain rfl := Option.some.inj h
      exact .unwind _ _ _ (by assumption) (by assumption)

/-- Every step that neither goes on with a script nor leaves the calls in progress is a
move. -/
theorem move_of_step_of_ne (hwf : m.world.Wf) (hrun : ∀ script, m.control ≠ .run script)
    (hunwind : ∀ cause, m.control ≠ .unwind cause) (h : m.step = some m') : Move m m' := by
  cases stepped_of_step h with
  | run script hcall => exact absurd hcall (hrun script)
  | publish id event e hcall =>
    exact .push (.dispatch id event e (m.world.snapshot id event).1) rfl rfl
      (by rw [hcall]; rfl) (World.undisturbed_snapshot hwf id event) trivial
  | invoke connection e hcall => exact move_invoke hwf hcall
  | destroy e hcall => exact move_destroy hwf hcall
  | announce id e hcall => exact move_announce hcall
  | reply b frame stack hcall hstack => exact move_resume hwf hcall hstack
  | unwind cause frame stack hcall hstack => exact absurd hcall (hunwind cause)

/-- Every step of an ordinary run is a move. -/
theorem move_of_step (hwf : m.world.Wf) (hm : m.control.isOrdinary = true)
    (hm' : m'.control.isOrdinary = true) (h : m.step = some m') : Move m m' := by
  by_cases hrun : ∃ script, m.control = .run script
  · obtain ⟨script, hcall⟩ := hrun
    simp only [step, hcall, Option.some.injEq] at h
    subst h
    refine move_runScript hwf hcall hm fun cause hc => ?_
    rw [hc] at hm'
    cases hm'
  · refine move_of_step_of_ne hwf (not_exists.mp hrun) (fun cause hcall => ?_) h
    rw [hcall] at hm
    cases hm

end Machine

end EntityScene
