import EntityScene.Text
import EntityScene.Abort

/-!
# Signals and their connections

A *signal* reports one kind of event in the life of a component: that it was
constructed, updated, or is about to be destroyed. Handlers are *connected* to a
signal, in an order that is kept, and each connection can be cut for good or
blocked for a while. A connection outlives its place in the list of the signal:
whoever made it can still ask about it, and guards may still block it.

The state of all connections is therefore kept in one place, the `Switchboard`,
under keys that are never used twice, and a signal is a list of such keys.

- `Connection`: number within its signal, whether connected, how often blocked.
- `Switchboard`: `disconnect`, `block` and `release` act on one connection; a
  guard is released once, however often its release is asked for.
- `Signal`: `connect`, `disconnectAll`, and `snapshot`, the handlers that one
  dispatch has to go through.
- `Signals`: one signal per kind of event.

Connections that were cut leave the list only when it is next connected to or
dispatched. `Signal.handlerCount` counts the connected ones, so nobody can tell.

The numbers of connections and the counts of guards are 32-bit words. Counting is
checked: a call that would count past the end is abandoned, and nothing was connected
or held back by it.
-/

namespace EntityScene

/-- The events in the life of a component. -/
inductive LifeEvent
  /-- A component was put on an entity. -/
  | construct
  /-- A component was replaced or patched. -/
  | update
  /-- A component is about to leave an entity, and can still be read. -/
  | destroy
deriving DecidableEq, Repr, Inhabited

/-- The key of a connection on the switchboard. -/
abbrev ConnectionKey := Nat

/-- The key of a guard on the switchboard. -/
abbrev GuardKey := Nat

/-- The state of one connection. -/
structure Connection where
  /-- Number of the connection within its signal. -/
  id : UInt32
  connected : Bool := true
  /-- Number of guards that hold it back. -/
  blocks : UInt32 := 0
deriving DecidableEq, Repr, Inhabited

namespace Connection

/-- Whether a handler would be called now. -/
def isActive (c : Connection) : Bool := c.connected && c.blocks == 0

/-- Whether at least one guard holds the connection back. -/
def isBlocked (c : Connection) : Bool := 0 < c.blocks

/-- Whether the guards can be counted after one more is taken. -/
def hasRoom (c : Connection) : Bool := c.blocks.toNat + 1 < UInt32.size

/-- The number between the parentheses of `ConnectionId(..)`. -/
def describeId (c : Connection) : String := "ConnectionId(" ++ toString c.id ++ ")"

/-- The connection as a record. -/
def describe (c : Connection) : String :=
  Text.record "Connection"
    [("id", c.describeId), ("connected", Text.truth c.connected), ("blocks", toString c.blocks)]

/-- A guard on the connection as a record. -/
def describeGuard (c : Connection) : String :=
  Text.record "ScopedBlock" [("connection", c.describeId)]

end Connection

/-- All connections ever made and all guards ever taken. -/
structure Switchboard where
  connections : Array Connection := #[]
  /-- The connection that a guard holds back, until the guard is released. -/
  guards : Array (Option ConnectionKey) := #[]
deriving DecidableEq, Repr, Inhabited

namespace Switchboard

/-- A switchboard without connections. -/
def empty : Switchboard := {}

/-- The connection with a key. -/
def connection? (b : Switchboard) (key : ConnectionKey) : Option Connection := b.connections[key]?

/-- Whether the connection is still connected. -/
def isConnected (b : Switchboard) (key : ConnectionKey) : Bool :=
  (b.connection? key).any (·.connected)

/-- Whether the handler of the connection would be called now. -/
def isActive (b : Switchboard) (key : ConnectionKey) : Bool :=
  (b.connection? key).any (·.isActive)

/-- Change the state of one connection. -/
def modify (b : Switchboard) (key : ConnectionKey) (f : Connection → Connection) : Switchboard :=
  { b with connections := b.connections.modify key f }

/-- Make a new connection with the given number within its signal. -/
def openConnection (b : Switchboard) (id : UInt32) : ConnectionKey × Switchboard :=
  (b.connections.size, { b with connections := b.connections.push { id } })

/-- Cut a connection for good. -/
def disconnect (b : Switchboard) (key : ConnectionKey) : Switchboard :=
  b.modify key fun c => { c with connected := false }

/-- Hold a connection back until the new guard is released. A guard on a connection that
was never made holds nothing back. -/
def block (b : Switchboard) (key : ConnectionKey) : Except Abort GuardKey × Switchboard :=
  match b.connection? key with
  | none => (.ok b.guards.size, { b with guards := b.guards.push none })
  | some c =>
    if c.hasRoom then
      (.ok b.guards.size,
        { b.modify key (fun c => { c with blocks := c.blocks + 1 }) with
          guards := b.guards.push (some key) })
    else (.error .countOverflow, b)

/-- The connection that a guard holds back; none once the guard was released. -/
def held? (b : Switchboard) (guard : GuardKey) : Option ConnectionKey := (b.guards[guard]?).join

/-- Release a guard. Answers whether there was one to release. -/
def release (b : Switchboard) (guard : GuardKey) : Bool × Switchboard :=
  match b.held? guard with
  | none => (false, b)
  | some key =>
    (true, { b.modify key (fun c => { c with blocks := c.blocks - 1 }) with
      guards := b.guards.setIfInBounds guard none })

/-- A guard is taken, or the count of guards has no room for it. -/
theorem block_cases (b : Switchboard) (key : ConnectionKey) :
    (b.block key).1 = .ok b.guards.size ∨ b.block key = (.error .countOverflow, b) := by
  unfold block
  split
  · exact .inl rfl
  · split
    · exact .inl rfl
    · exact .inr rfl

theorem connection?_modify_self (b : Switchboard) (key : ConnectionKey)
    (f : Connection → Connection) :
    (b.modify key f).connection? key = (b.connection? key).map f := by
  simp [connection?, modify, Array.getElem?_modify]

theorem connection?_modify_other (b : Switchboard) {key other : ConnectionKey}
    (f : Connection → Connection) (h : other ≠ key) :
    (b.modify key f).connection? other = b.connection? other := by
  have hne : key ≠ other := fun e => h e.symm
  simp [connection?, modify, Array.getElem?_modify, hne]

end Switchboard

/-- The connections of one signal, in the order in which they were made. -/
structure Signal where
  /-- Keys of the connections, possibly with some that were cut meanwhile. -/
  slots : List ConnectionKey := []
  /-- The number of the next connection. -/
  nextId : UInt32 := 0
deriving DecidableEq, Repr, Inhabited

namespace Signal

/-- A signal without connections. -/
def empty : Signal := {}

/-- Number of connected handlers. -/
def handlerCount (s : Signal) (b : Switchboard) : Nat := s.slots.countP b.isConnected

/-- Whether no handler is connected. -/
def isEmpty (s : Signal) (b : Switchboard) : Bool := s.handlerCount b == 0

/-- Drop the connections that were cut. -/
def prune (s : Signal) (b : Switchboard) : Signal :=
  { s with slots := s.slots.filter b.isConnected }

/-- Make a connection, the last in order. Its number has not been used before, and
there is one for the next. -/
def connect (s : Signal) (b : Switchboard) : Except Abort ConnectionKey × Signal × Switchboard :=
  let s := s.prune b
  if s.nextId.toNat + 1 < UInt32.size then
    let (key, b) := b.openConnection s.nextId
    (.ok key, { slots := s.slots ++ [key], nextId := s.nextId + 1 }, b)
  else (.error .countOverflow, s, b)

/-- Cut every connection of the signal. -/
def disconnectAll (s : Signal) (b : Switchboard) : Signal × Switchboard :=
  ({ s with slots := [] }, s.slots.foldl (·.disconnect ·) b)

/-- The connections that a dispatch starting now goes through. -/
def snapshot (s : Signal) (b : Switchboard) : List ConnectionKey × Signal :=
  let s := s.prune b
  (s.slots, s)

/-- The signal as a record. -/
def describe (s : Signal) (b : Switchboard) : String :=
  Text.record "Signal" [("handlers", toString (s.handlerCount b))]

/-- A connection is made, or there is no number for it. -/
theorem connect_cases (s : Signal) (b : Switchboard) :
    (s.nextId.toNat + 1 < UInt32.size ∧
      s.connect b = (.ok b.connections.size,
        { slots := (s.prune b).slots ++ [b.connections.size], nextId := s.nextId + 1 },
        (b.openConnection s.nextId).2)) ∨
      (UInt32.size ≤ s.nextId.toNat + 1 ∧ s.connect b = (.error .countOverflow, s.prune b, b)) := by
  unfold connect
  simp only
  split
  · rename_i hroom
    exact .inl ⟨hroom, rfl⟩
  · rename_i hroom
    exact .inr ⟨Nat.not_lt.mp hroom, rfl⟩

@[simp] theorem handlerCount_empty (b : Switchboard) : empty.handlerCount b = 0 := rfl

/-- Dropping the connections that were cut is not noticed by counting. -/
theorem handlerCount_prune (s : Signal) (b : Switchboard) :
    (s.prune b).handlerCount b = s.handlerCount b := by
  simp [handlerCount, prune, List.countP_filter]

/-- A dispatch goes through exactly the connected handlers, in order. -/
theorem snapshot_eq_filter (s : Signal) (b : Switchboard) :
    (s.snapshot b).1 = s.slots.filter b.isConnected := rfl

end Signal

/-- The three signals of one kind of component. -/
structure Signals where
  construct : Signal := .empty
  update : Signal := .empty
  destroy : Signal := .empty
deriving DecidableEq, Repr, Inhabited

namespace Signals

/-- Signals without connections. -/
def empty : Signals := {}

/-- The signal of one kind of event. -/
def get (s : Signals) : LifeEvent → Signal
  | .construct => s.construct
  | .update => s.update
  | .destroy => s.destroy

/-- Exchange the signal of one kind of event. -/
def set (s : Signals) (event : LifeEvent) (signal : Signal) : Signals :=
  match event with
  | .construct => { s with construct := signal }
  | .update => { s with update := signal }
  | .destroy => { s with destroy := signal }

/-- The three signals as a record. -/
def describe (s : Signals) (b : Switchboard) : String :=
  Text.record "Signals"
    [("construct", s.construct.describe b), ("update", s.update.describe b),
     ("destroy", s.destroy.describe b)]

@[simp] theorem get_set_self (s : Signals) (event : LifeEvent) (signal : Signal) :
    (s.set event signal).get event = signal := by
  cases event <;> rfl

theorem get_set_other (s : Signals) {event other : LifeEvent} (signal : Signal)
    (h : other ≠ event) : (s.set event signal).get other = s.get other := by
  cases event <;> cases other <;> first | rfl | exact absurd rfl h

end Signals

end EntityScene
