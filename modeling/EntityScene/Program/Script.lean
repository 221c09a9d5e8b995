import EntityScene.Abort
import EntityScene.Entity
import EntityScene.Storage.SparseSet
import EntityScene.Component.Catalog
import EntityScene.Signal
import EntityScene.World
import EntityScene.World.Fetch
import EntityScene.Scene.Kind

/-!
# Scripts

A script is what somebody does to a scene: a sequence of calls, each chosen in the
light of the answers so far. Handlers are scripts too, run for one entity in the
middle of a call that publishes a signal, so a script may be interrupted at any
call by scripts that make calls themselves.

Beside the world a script can see the state `σ` of its *host*, the surroundings it
shares with all other scripts.

- `Call`: the calls on a world, and `Call.Reply`, what each of them answers.
- `Script`: a finite tree of calls. Connecting, catching an abandoned call, and
  holding a connection back for a while have constructors of their own, since they
  carry scripts.
- `Task`: a script that goes on with a value; tasks compose by `do`.
-/

namespace EntityScene

/-- The calls on a scene whose user has the kinds `U`. -/
inductive Call (U : Type) [SceneFamily U]
  /-- Create an entity. -/
  | create
  /-- Destroy an entity with all its components. -/
  | destroy (e : Entity)
  /-- Take a kind into use. -/
  | register (kind : Kind U)
  /-- Put a component on an entity, unless it has one. -/
  | emplace (kind : Kind U) (e : Entity) (make : Except Abort (Value kind))
  /-- Change a component, telling nobody. -/
  | edit (kind : Kind U) (e : Entity) (f : Value kind → Value kind)
  /-- Change a component, then publish the update. -/
  | patch (kind : Kind U) (e : Entity) (f : Value kind → Value kind)
  /-- Publish the removal of a component, then take it away. -/
  | take (kind : Kind U) (e : Entity)
  /-- Change components of several kinds, telling nobody. -/
  | fetchEdit (e : Entity) (kinds : List (Kind U)) (f : (kind : Kind U) → Value kind → Value kind)
  /-- Change a storage, past all signals and checks. -/
  | alterStorage (kind : Kind U) (f : SparseSet (Value kind) → SparseSet (Value kind))
  /-- Cut a connection. -/
  | disconnect (connection : ConnectionKey)
  /-- Hold a connection back until a guard is released. -/
  | block (connection : ConnectionKey)
  /-- Release a guard. -/
  | release (guard : GuardKey)
  /-- Cut all connections to a signal. -/
  | disconnectAll (kind : Kind U) (event : LifeEvent)
  /-- Propagate transforms from one node. -/
  | updateTransform (root : Entity)
  /-- Propagate transforms from every root. -/
  | updateAllTransforms

/-- What a call answers. -/
def Call.Reply {U : Type} [SceneFamily U] : Call U → Type
  | .create => Entity
  | .destroy _ => Bool
  | .register _ => ComponentId
  | .emplace kind _ _ => Option (Value kind) × Bool
  | .edit kind _ _ => Option (Value kind)
  | .patch .. => Bool
  | .take kind _ => Option (Value kind)
  | .fetchEdit .. => List (Option (Component (Kind U)))
  | .alterStorage .. => Unit
  | .disconnect _ => Unit
  | .block _ => GuardKey
  | .release _ => Bool
  | .disconnectAll .. => Unit
  | .updateTransform _ => Unit
  | .updateAllTransforms => Nat

/-- What somebody does to a scene, with a host of state `σ` around it. -/
inductive Script (U σ : Type) [SceneFamily U]
  /-- Nothing more. -/
  | done
  /-- Abandon the calls in progress. -/
  | abort (cause : Abort)
  /-- Look at the world and at the host. -/
  | inspect (next : World (Kind U) → σ → Script U σ)
  /-- Change the state of the host. -/
  | note (f : σ → σ) (next : Script U σ)
  /-- Make a call. -/
  | call (c : Call U) (next : c.Reply → Script U σ)
  /-- Connect a handler, which may know its own connection, to a signal. -/
  | connect (kind : Kind U) (event : LifeEvent)
      (handler : ConnectionKey → Entity → Script U σ) (next : ConnectionKey → Script U σ)
  /-- Have destroyed nodes take everything below them along. -/
  | cascade (next : Script U σ)
  /-- Run a script, and go on with the cause if it is abandoned. -/
  | attempt (body : Script U σ) (next : Option Abort → Script U σ)
  /-- Run a script while a connection is held back. -/
  | blocked (connection : ConnectionKey) (body : Script U σ) (next : Script U σ)

/-- A script that goes on with a value of type `α`. -/
def Task (U σ : Type) [SceneFamily U] (α : Type) : Type :=
  (α → Script U σ) → Script U σ

namespace Task

variable {U σ : Type} [SceneFamily U]

instance : Monad (Task U σ) where
  pure a := fun next => next a
  bind task f := fun next => task fun a => f a next

instance {α : Type} : Inhabited (Task U σ α) := ⟨fun _ => .done⟩

/-- The task as a script of its own. -/
def toScript {α : Type} (task : Task U σ α) : Script U σ := task fun _ => .done

/-- The world as it is now. -/
def world : Task U σ (World (Kind U)) := fun next => .inspect fun w _ => next w

/-- The state of the host as it is now. -/
def host : Task U σ σ := fun next => .inspect fun _ s => next s

/-- Change the state of the host. -/
def note (f : σ → σ) : Task U σ Unit := fun next => .note f (next ())

/-- Abandon the calls in progress. -/
def abort {α : Type} (cause : Abort) : Task U σ α := fun _ => .abort cause

/-- Make a call. -/
def call (c : Call U) : Task U σ c.Reply := fun next => .call c next

/-- Create an entity. -/
def create : Task U σ Entity := call .create

/-- Destroy an entity. Answers whether this call destroyed it. -/
def destroy (e : Entity) : Task U σ Bool := call (.destroy e)

/-- Take a kind into use, and answer its number. -/
def register (kind : Kind U) : Task U σ ComponentId := call (.register kind)

/-- Put a component on an entity, unless it has one. Answers the component that the
entity has when all handlers have run, and whether `make` was asked for one. -/
def emplace (kind : Kind U) (e : Entity) (make : Except Abort (Value kind)) :
    Task U σ (Option (Value kind) × Bool) :=
  call (.emplace kind e make)

/-- Change a component, telling nobody, and answer it. -/
def edit (kind : Kind U) (e : Entity) (f : Value kind → Value kind) :
    Task U σ (Option (Value kind)) :=
  call (.edit kind e f)

/-- Change a component, then publish the update. Answers whether there was one. -/
def patch (kind : Kind U) (e : Entity) (f : Value kind → Value kind) : Task U σ Bool :=
  call (.patch kind e f)

/-- Publish the removal of a component, then take it away. Answers the component if
this call removed one. -/
def take (kind : Kind U) (e : Entity) : Task U σ (Option (Value kind)) := call (.take kind e)

/-- Change components of several kinds, telling nobody, and answer them. -/
def fetchEdit (e : Entity) (kinds : List (Kind U)) (f : (kind : Kind U) → Value kind → Value kind) :
    Task U σ (List (Option (Component (Kind U)))) :=
  call (.fetchEdit e kinds f)

/-- Change a storage, past all signals and checks. -/
def alterStorage (kind : Kind U) (f : SparseSet (Value kind) → SparseSet (Value kind)) :
    Task U σ Unit :=
  call (.alterStorage kind f)

/-- Cut a connection. -/
def disconnect (connection : ConnectionKey) : Task U σ Unit := call (.disconnect connection)

/-- Hold a connection back until the answered guard is released. -/
def block (connection : ConnectionKey) : Task U σ GuardKey := call (.block connection)

/-- Release a guard. Answers whether there was one to release. -/
def release (guard : GuardKey) : Task U σ Bool := call (.release guard)

/-- Cut all connections to a signal. -/
def disconnectAll (kind : Kind U) (event : LifeEvent) : Task U σ Unit :=
  call (.disconnectAll kind event)

/-- Propagate transforms from one node. -/
def updateTransform (root : Entity) : Task U σ Unit := call (.updateTransform root)

/-- Propagate transforms from every root, and answer their number. -/
def updateAllTransforms : Task U σ Nat := call .updateAllTransforms

/-- Connect a handler to a signal. -/
def connect (kind : Kind U) (event : LifeEvent)
    (handler : ConnectionKey → Entity → Script U σ) : Task U σ ConnectionKey :=
  fun next => .connect kind event handler next

/-- Have destroyed nodes take everything below them along. -/
def cascade : Task U σ Unit := fun next => .cascade (next ())

/-- Run a task, and answer the cause if it is abandoned. -/
def attempt (body : Task U σ Unit) : Task U σ (Option Abort) :=
  fun next => .attempt body.toScript next

/-- Run a task while a connection is held back. -/
def blocked (connection : ConnectionKey) (body : Task U σ Unit) : Task U σ Unit :=
  fun next => .blocked connection body.toScript (next ())

@[simp] theorem pure_apply {α : Type} (a : α) (next : α → Script U σ) :
    (pure a : Task U σ α) next = next a := rfl

@[simp] theorem bind_apply {α β : Type} (task : Task U σ α) (f : α → Task U σ β)
    (next : β → Script U σ) : (task >>= f) next = task fun a => f a next := rfl

end Task

end EntityScene
