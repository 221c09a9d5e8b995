import EntityScene.Abort
import EntityScene.Entity
import EntityScene.Entity.Table
import EntityScene.Component.Catalog
import EntityScene.Signal
import EntityScene.World
import EntityScene.World.Fetch
import EntityScene.Scene.Kind
import EntityScene.Scene.Tree
import EntityScene.Scene.Pass
import EntityScene.Program.Script

/-!
# Running scripts

Calls that publish a signal run the connected handlers before they return, and the
handlers make calls themselves, so calls nest to any depth. The machine keeps what
is waiting on a stack of frames and takes one small step at a time; a run that
never ends is simply one without a last step.

- `Control`: what the machine does next. That a dispatch starts, that a handler is
  called and that a destruction or a removal is asked for are controls of their
  own, so the history of a run can be read off its states.
- `Frame`: what waits for the control on top of it to answer or to be abandoned.
- `Machine`: the world, the host, the handlers, and the two.
- `Machine.step`: one step; `none` when nothing is left to do.
- `Machine.run`: a number of steps.

## Cascades

`Script.cascade` connects a handler to the destruction of links. A *cascade* takes
the destroyed node out of its parent's children, claims the node and its
descendants, and destroys what it claimed in that order, claiming at each turn the
children that were linked in the meantime. Claims are shared by all cascades of one
such handler: a node that a cascade has claimed starts none of its own. They are
given back when the cascade ends, also when it is abandoned.

## Abandoned calls

An abandoned call leaves everything as it is at that point. Only guards of
`Script.blocked` and the claims of cascades are given back on the way out.
-/

namespace EntityScene

/-- Whom a signal calls. -/
inductive Handler (U σ : Type) [SceneFamily U]
  /-- A script for the entity that the event is about. -/
  | script (body : Entity → Script U σ)
  /-- A cascade that shares the given set of claims. -/
  | cascade (claims : Nat)

/-- What a machine does next. -/
inductive Control (U σ : Type) [SceneFamily U]
  /-- Go on with a script. -/
  | run (script : Script U σ)
  /-- Start a dispatch. -/
  | publish (id : ComponentId) (event : LifeEvent) (e : Entity)
  /-- Call the handler of a connection. -/
  | invoke (connection : ConnectionKey) (e : Entity)
  /-- Start to destroy an entity. -/
  | destroy (e : Entity)
  /-- Announce that a component is about to be removed. -/
  | announce (id : ComponentId) (e : Entity)
  /-- Answer whoever waits. -/
  | reply (answer : Bool)
  /-- Leave the calls in progress. -/
  | unwind (cause : Abort)

/-- What waits on the stack. -/
inductive Frame (U σ : Type) [SceneFamily U]
  /-- A dispatch, with the connections that have not had their turn. -/
  | dispatch (id : ComponentId) (event : LifeEvent) (e : Entity) (rest : List ConnectionKey)
  /-- A removal that is being announced. -/
  | removal (id : ComponentId) (e : Entity)
  /-- An entity that is being destroyed, waiting for the given pool. -/
  | teardown (e : Entity) (id : ComponentId)
  /-- A script that waits for an answer. -/
  | resume (next : Bool → Script U σ)
  /-- A script that waits for a component to be taken. -/
  | taking (kind : Kind U) (e : Entity) (next : Option (Value kind) → Script U σ)
  /-- A script that catches what is abandoned above it. -/
  | attempt (next : Option Abort → Script U σ)
  /-- A script that holds a connection back by a guard. -/
  | blocked (guard : GuardKey) (next : Script U σ)
  /-- A cascade that waits for its node to be taken out of the parent's children. -/
  | unlinking (claims : Nat) (e : Entity)
  /-- A cascade, with the claimed nodes that had their turn and those that had not. -/
  | cascade (claims : Nat) (past ahead : List Entity)

/-- A world in the middle of whatever is done to it. -/
structure Machine (U σ : Type) [SceneFamily U] where
  world : World (Kind U) := .empty
  /-- The state of the host. -/
  host : σ
  /-- The handler of each connection. -/
  handlers : Array (Handler U σ) := #[]
  /-- The sets of claims, one for each use of `Script.cascade`. -/
  claims : Array (List Entity) := #[]
  stack : List (Frame U σ) := []
  control : Control U σ := .reply true

/-- Claim the listed nodes, as far as they are not claimed yet. Answers the new
claims in order, and the set. -/
def claimAll (set : List Entity) : List Entity → List Entity × List Entity
  | [] => ([], set)
  | e :: es =>
    if e ∈ set then claimAll set es
    else
      let (fresh, set) := claimAll (e :: set) es
      (e :: fresh, set)

namespace Machine

variable {U σ : Type} [SceneFamily U] [DecidableEq U]

/-! ## Building blocks -/

/-- Let a frame wait for the given control. -/
def await (m : Machine U σ) (frame : Frame U σ) (control : Control U σ) : Machine U σ :=
  { m with stack := frame :: m.stack, control }

/-- Go on with a script. -/
def proceed (m : Machine U σ) (script : Script U σ) : Machine U σ :=
  { m with control := .run script }

/-- Leave the calls in progress. -/
def giveUp (m : Machine U σ) (cause : Abort) : Machine U σ := { m with control := .unwind cause }

/-- Go on with a script by what a call answered, unless it was abandoned. -/
def proceedBy {α : Type} (m : Machine U σ) (answered : Except Abort α) (next : α → Script U σ) :
    Machine U σ :=
  match answered with
  | .ok a => m.proceed (next a)
  | .error cause => m.giveUp cause

/-- Answer whoever waits. -/
def answer (m : Machine U σ) (b : Bool) : Machine U σ := { m with control := .reply b }

/-- Change a component and publish the update, with a frame waiting for the end of
the dispatch; none if the entity has no such component. -/
def patch? (m : Machine U σ) (kind : Kind U) (e : Entity) (f : Value kind → Value kind)
    (frame : Frame U σ) : Option (Machine U σ) :=
  match m.world.idOf? kind, m.world.get? kind e with
  | some id, some _ =>
    some ({ m with world := m.world.edit kind e f }.await frame (.publish id .update e))
  | _, _ => none

/-- Go on destroying an entity with the given pool: announce the removal, or give
the entity up if there is no such pool. -/
def tearDown (m : Machine U σ) (e : Entity) (id : ComponentId) : Machine U σ :=
  if id < m.world.pools.size then m.await (.teardown e id) (.announce id e)
  else
    let w := m.world
    { m with world := { w with entities := (w.entities.release e).2 } }.answer true

/-- Give claims back. -/
def disclaim (m : Machine U σ) (claims : Nat) (es : List Entity) : Machine U σ :=
  { m with claims := m.claims.modify claims (·.filter (· ∉ es)) }

/-- Claim the listed nodes, and answer the new claims. -/
def claim (m : Machine U σ) (claims : Nat) (es : List Entity) : List Entity × Machine U σ :=
  let (fresh, set) := claimAll (m.claims.getD claims []) es
  (fresh, { m with claims := m.claims.setIfInBounds claims set })

/-- Give the next claimed node its turn: claim its children and destroy it. After the
last one the claims are given back. -/
def cascadeOn (m : Machine U σ) (claims : Nat) (past : List Entity) :
    List Entity → Machine U σ
  | [] => (m.disclaim claims past).answer true
  | e :: ahead =>
    -- its links are still there, with the children linked since it was claimed
    let (fresh, m) := m.claim claims (m.world.childrenOf e)
    m.await (.cascade claims (past ++ [e]) (ahead ++ fresh)) (.destroy e)

/-- Start a cascade, unless its node is claimed: take the node out of the children of
its parent, if the parent is valid. -/
def startCascade (m : Machine U σ) (claims : Nat) (e : Entity) : Machine U σ :=
  if e ∈ m.claims.getD claims [] then m.answer true
  else
    let waiting := Frame.unlinking claims e
    ((m.world.validParentOf? e).bind fun parent =>
      m.patch? .node parent (fun node => TreeNode.dropChild node e) waiting).getD
      (m.await waiting (.reply true))

/-! ## Steps of the controls -/

/-- Start a dispatch: take the connections of the signal as they are now. -/
def publish (m : Machine U σ) (id : ComponentId) (event : LifeEvent) (e : Entity) :
    Machine U σ :=
  let (keys, world) := m.world.snapshot id event
  { m with world }.await (.dispatch id event e keys) (.reply true)

/-- Call the handler of a connection. -/
def invoke (m : Machine U σ) (connection : ConnectionKey) (e : Entity) : Machine U σ :=
  match m.handlers[connection]? with
  | some (.script body) => m.proceed (body e)
  | some (.cascade claims) => m.startCascade claims e
  | none => m.answer true

/-- Start to destroy an entity. Refused unless the handle names an entity that is not
being destroyed yet. -/
def destroy (m : Machine U σ) (e : Entity) : Machine U σ :=
  let (accepted, entities) := m.world.entities.beginDestroy e
  let m := { m with world := { m.world with entities } }
  if accepted then m.tearDown e 0 else m.answer false

/-- Announce a removal. Refused if the entity has no such component, or if the same
removal is being announced already. -/
def announce (m : Machine U σ) (id : ComponentId) (e : Entity) : Machine U σ :=
  if (id, e) ∈ m.world.removing ∨ m.world.holds id e = false then m.answer false
  else
    let w := m.world
    { m with world := { w with removing := (id, e) :: w.removing } }.await
      (.removal id e) (.publish id .destroy e)

/-- Make a call for a script. -/
def call (m : Machine U σ) : (c : Call U) → (c.Reply → Script U σ) → Machine U σ
  | .create, next =>
    let (created, world) := m.world.create
    let m := { m with world }
    match created with
    | .ok e => m.proceed (next e)
    | .error cause => { m with control := .unwind cause }
  | .destroy e, next => m.await (.resume next) (.destroy e)
  | .register kind, next =>
    let (id, world) := m.world.register kind
    { m with world }.proceed (next id)
  | .emplace kind e make, next =>
    if m.world.accepts e then
      let (placed, world) := m.world.place kind e make
      let m := { m with world }
      match placed with
      | .error cause => { m with control := .unwind cause }
      | .ok false => m.proceed (next (m.world.get? kind e, false))
      | .ok true =>
        -- a handler may take the component away again, so it is read when all have run
        m.await (.resume fun _ => .inspect fun w _ => next (w.get? kind e, true))
          (.publish ((m.world.idOf? kind).getD 0) .construct e)
    else m.proceed (next (none, false))
  | .edit kind e f, next =>
    let m := { m with world := m.world.edit kind e f }
    m.proceed (next (m.world.get? kind e))
  | .patch kind e f, next =>
    (m.patch? kind e f (.resume fun _ => next true)).getD (m.proceed (next false))
  | .take kind e, next =>
    match m.world.idOf? kind, m.world.isValid e with
    | some id, true => m.await (.taking kind e next) (.announce id e)
    | _, _ => m.proceed (next none)
  | .fetchEdit e kinds f, next =>
    let (fetched, world) := m.world.fetchEdit e kinds f
    let m := { m with world }
    match fetched with
    | .ok components => m.proceed (next components)
    | .error cause => { m with control := .unwind cause }
  | .alterStorage kind f, next => { m with world := m.world.updateStorage kind f }.proceed (next ())
  | .disconnect connection, next =>
    let w := m.world
    { m with world := { w with board := w.board.disconnect connection } }.proceed (next ())
  | .block connection, next =>
    let w := m.world
    let (taken, board) := w.board.block connection
    { m with world := { w with board } }.proceedBy taken next
  | .release guard, next =>
    let w := m.world
    let (released, board) := w.board.release guard
    { m with world := { w with board } }.proceed (next released)
  | .disconnectAll kind event, next =>
    { m with world := m.world.disconnectAll kind event }.proceed (next ())
  | .updateTransform root, next =>
    { m with world := m.world.updateTransform root }.proceed (next ())
  | .updateAllTransforms, next =>
    let (roots, world) := m.world.updateAllTransforms
    { m with world }.proceed (next roots)

/-- Connect a handler to a signal, under the key that the world hands out. -/
def addHandler (m : Machine U σ) (kind : Kind U) (event : LifeEvent)
    (handler : ConnectionKey → Handler U σ) : Except Abort ConnectionKey × Machine U σ :=
  let (made, world) := m.world.connect kind event
  match made with
  | .ok key => (.ok key, { m with world, handlers := m.handlers.push (handler key) })
  | .error cause => (.error cause, { m with world })

/-- Take links and placements into use, and begin a set of claims. -/
def withClaims (m : Machine U σ) : Machine U σ :=
  let w := (m.world.register .node).2
  { m with world := (w.register .transform).2, claims := m.claims.push [] }

/-- Connect a cascade with a set of claims of its own. -/
def addCascade (m : Machine U σ) : Except Abort ConnectionKey × Machine U σ :=
  m.withClaims.addHandler .node .destroy fun _ => .cascade m.claims.size

/-- Go on with a script. -/
def runScript (m : Machine U σ) : Script U σ → Machine U σ
  | .done => m.answer true
  | .abort cause => { m with control := .unwind cause }
  | .inspect next => m.proceed (next m.world m.host)
  | .note f next => { m with host := f m.host }.proceed next
  | .call c next => m.call c next
  | .connect kind event handler next =>
    let (made, m) := m.addHandler kind event fun key => .script (handler key)
    m.proceedBy made next
  | .cascade next =>
    let (made, m) := m.addCascade
    m.proceedBy made fun _ => next
  | .attempt body next => m.await (.attempt next) (.run body)
  | .blocked connection body next =>
    let w := m.world
    let (taken, board) := w.board.block connection
    let m := { m with world := { w with board } }
    match taken with
    | .ok guard => m.await (.blocked guard next) (.run body)
    | .error cause => m.giveUp cause

/-! ## Steps of the frames -/

/-- Release a guard. -/
def releaseGuard (m : Machine U σ) (guard : GuardKey) : Machine U σ :=
  let w := m.world
  { m with world := { w with board := (w.board.release guard).2 } }

/-- What a frame, taken from the stack, does with an answer. -/
def resume (m : Machine U σ) (frame : Frame U σ) (b : Bool) : Machine U σ :=
  match frame with
  | .dispatch _ _ _ [] => m.answer true
  | .dispatch id event e (key :: rest) =>
    -- a handler that was cut or blocked before its turn is passed over
    m.await (.dispatch id event e rest)
      (if m.world.board.isActive key then .invoke key e else .reply true)
  | .removal id e =>
    let w := m.world
    { m with world := { w with removing := w.removing.erase (id, e) } }.answer true
  | .teardown e id =>
    -- handlers may have taken kinds into use, so the number of pools is asked again
    if b then
      let w := m.world
      let m := { m with world := w.erase id e }
      match w.erasure id e with
      | .ok _ => m.tearDown e (id + 1)
      | .error cause => m.giveUp cause
    else m.tearDown e (id + 1)
  | .resume next => m.proceed (next b)
  | .taking kind e next =>
    if b then
      let (old, world) := m.world.pull kind e
      { m with world }.proceedBy old next
    else m.proceed (next none)
  | .attempt next => m.proceed (next none)
  | .blocked guard next => (m.releaseGuard guard).proceed next
  | .unlinking claims e =>
    let (fresh, m) := m.claim claims (e :: m.world.descendants e)
    m.cascadeOn claims [] fresh
  | .cascade claims past ahead => m.cascadeOn claims past ahead

/-- What a frame, taken from the stack, does when the calls above it are abandoned. -/
def abandon (m : Machine U σ) (frame : Frame U σ) (cause : Abort) : Machine U σ :=
  match frame with
  | .attempt next => m.proceed (next (some cause))
  | .blocked guard _ => m.releaseGuard guard
  | .cascade claims past ahead => m.disclaim claims (past ++ ahead)
  | _ => m

/-! ## Steps and runs -/

/-- One step. A machine without frames that answers, or is abandoned, is done. -/
def step (m : Machine U σ) : Option (Machine U σ) :=
  match m.control with
  | .run script => some (m.runScript script)
  | .publish id event e => some (m.publish id event e)
  | .invoke connection e => some (m.invoke connection e)
  | .destroy e => some (m.destroy e)
  | .announce id e => some (m.announce id e)
  | .reply b =>
    match m.stack with
    | [] => none
    | frame :: stack => some ({ m with stack }.resume frame b)
  | .unwind cause =>
    match m.stack with
    | [] => none
    | frame :: stack => some ({ m with stack }.abandon frame cause)

/-- At most the given number of steps. -/
def run (m : Machine U σ) : Nat → Machine U σ
  | 0 => m
  | n + 1 =>
    match m.step with
    | none => m
    | some m => m.run n

section ProceedBy

variable {α : Type} (m : Machine U σ) (answered : Except Abort α) (next : α → Script U σ)

omit [DecidableEq U]

@[simp] theorem proceedBy_ok (a : α) : m.proceedBy (.ok a) next = m.proceed (next a) := rfl

@[simp] theorem proceedBy_error (cause : Abort) :
    m.proceedBy (.error cause) next = m.giveUp cause := rfl

end ProceedBy

/-- The cause for which a machine that is done was abandoned. -/
def abandoned? (m : Machine U σ) : Option Abort :=
  match m.control with
  | .unwind cause => some cause
  | _ => none

/-- A machine takes no step exactly when nothing waits and there is an answer, or a
cause, for nobody. -/
theorem step_eq_none_iff (m : Machine U σ) :
    m.step = none ↔
      m.stack = [] ∧ ((∃ b, m.control = .reply b) ∨ ∃ cause, m.control = .unwind cause) := by
  unfold step
  cases m.control with
  | reply b => cases m.stack <;> simp
  | unwind cause => cases m.stack <;> simp
  | _ => simp

end Machine

end EntityScene
