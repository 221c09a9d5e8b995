import EntityScene.Proofs.Wiring
import EntityScene.Proofs.Frames

/-!
# Connections over a whole run

Connections are made and cut, signals forget those that were cut, and storages may be edited
directly in the middle of all this. Through every run whoever hears a signal is who was ever
connected to it and not cut since, in the order in which the connections were made.

- `World.Relayed`: what becomes of the listeners of all signals when connections are made and cut.
- `relayed_connect`, `relayed_disconnectAll`, `relayed_of_board`: the edits of connections.
- `Machine.hookup?`, `Machine.connections`: the connection that the next step makes, and those
  that were made for a signal so far.
- `Machine.Hooking`, `hooking_of_step`: what a step does to connections.
- `Machine.Hooked`, `hooked_run`: so it is throughout every run.
-/

namespace EntityScene

namespace Switchboard

variable {b : Switchboard} {key k : ConnectionKey}

/-- Blocking is not cutting. -/
theorem isConnected_modify (f : Connection → Connection) (hf : ∀ c, (f c).connected = c.connected) :
    (b.modify key f).isConnected k = b.isConnected k := by
  unfold isConnected
  by_cases hk : k = key
  · rw [hk, connection?_modify_self, Option.any_map]
    exact congrArg (Option.any · _) (funext hf)
  · rw [connection?_modify_other _ _ hk]

theorem isConnected_disconnect :
    (b.disconnect key).isConnected k = true ↔ b.isConnected k = true ∧ k ≠ key := by
  unfold isConnected disconnect
  by_cases hk : k = key
  · rw [hk, connection?_modify_self, Option.any_map]
    simp
  · rw [connection?_modify_other _ _ hk]
    simp [hk]

theorem isConnected_foldl_disconnect {keys : List ConnectionKey} :
    (keys.foldl (·.disconnect ·) b).isConnected k = true ↔ b.isConnected k = true ∧ k ∉ keys := by
  induction keys generalizing b with
  | nil => simp
  | cons key keys ih =>
    rw [List.foldl_cons, ih, isConnected_disconnect, List.mem_cons, not_or, and_assoc]

/-- Whoever would be called now was not cut. -/
theorem isConnected_of_isActive (h : b.isActive key = true) : b.isConnected key = true := by
  obtain ⟨c, hc, hactive⟩ := (Option.any_eq_true _ _).mp h
  exact (Option.any_eq_true _ _).mpr ⟨c, hc, (Bool.and_eq_true_iff.mp hactive).1⟩

theorem isConnected_block : (b.block key).2.isConnected k = b.isConnected k := by
  unfold block
  split
  · rfl
  · split
    · exact isConnected_modify _ fun _ => rfl
    · rfl

theorem isConnected_release (guard : GuardKey) :
    (b.release guard).2.isConnected k = b.isConnected k := by
  unfold release
  split
  · rfl
  · exact isConnected_modify _ fun _ => rfl

end Switchboard

namespace World

section Relayed

variable {K : Type} [ComponentFamily K] {w w' w'' : World K}
variable {new : ComponentId → LifeEvent → List ConnectionKey}

/-- New connections come behind those that are there, and whoever was cut hears nothing any
more. -/
structure Relayed (new : ComponentId → LifeEvent → List ConnectionKey) (w w' : World K) :
    Prop where
  paired : w'.Paired
  size : w.board.connections.size ≤ w'.board.connections.size
  cut : ∀ key < w.board.connections.size,
    w'.board.isConnected key = true → w.board.isConnected key = true
  slots : ∀ id event, w'.slots id event ⊆ w.slots id event ++ new id event
  listeners : ∀ id event, w'.listeners id event =
    (w.listeners id event ++ new id event).filter w'.board.isConnected

/-- Whoever hears a signal was not cut. -/
theorem filter_listeners (w : World K) (id : ComponentId) (event : LifeEvent) :
    (w.listeners id event).filter w.board.isConnected = w.listeners id event := by
  rw [listeners_eq, List.filter_filter]
  simp only [Bool.and_self]

/-- The state of connections changes, but none that was cut is back. -/
theorem relayed_of_board (h : w.Paired) {b : Switchboard}
    (hsize : b.connections.size = w.board.connections.size)
    (hcut : ∀ key, b.isConnected key = true → w.board.isConnected key = true) :
    Relayed (fun _ _ => []) w { w with board := b } := by
  refine
    { paired := h
      size := Nat.le_of_eq hsize.symm
      cut := fun key _ => hcut key
      slots := fun id event => List.subset_append_left _ _
      listeners := fun id event => ?_ }
  rw [List.append_nil, listeners_eq, listeners_eq, List.filter_filter]
  refine List.filter_congr fun key _ => ?_
  cases hkey : b.isConnected key with
  | true => rw [hcut key hkey, Bool.and_self]
  | false => exact (Bool.false_and _).symm

variable [DecidableEq K]

theorem Attuned.relayed (ha : Attuned w w') (h : w.Paired) : Relayed (fun _ _ => []) w w' := by
  refine
    { paired := ha.paired h
      size := Nat.le_of_eq (congrArg (·.connections.size) ha.board).symm
      cut := fun key _ hkey => by rw [ha.board] at hkey; exact hkey
      slots := fun id event => List.subset_append_of_subset_left _ (ha.slots id event)
      listeners := fun id event => ?_ }
  rw [ha.listeners, List.append_nil, ha.board, filter_listeners]

/-- Kinds may be taken into use before connections are made. -/
theorem Relayed.after (ha : Attuned w w') (h : Relayed new w' w'') : Relayed new w w'' :=
  { paired := h.paired
    size := ha.board ▸ h.size
    cut := ha.board ▸ h.cut
    slots := fun id event key hkey => by
      rcases List.mem_append.mp (h.slots id event hkey) with hold | hnew
      · exact List.mem_append_left _ (ha.slots id event hold)
      · exact List.mem_append_right _ hnew
    listeners := fun id event => by rw [h.listeners, ha.listeners] }

omit [DecidableEq K] in
theorem paired_setSignal (h : w.Paired) (id : ComponentId) (event : LifeEvent) (signal : Signal) :
    (w.setSignal id event signal).Paired := by
  rw [Paired, setSignal, Array.size_modify]
  exact h

section Connect

variable {kind : K} {event : LifeEvent} {made : ConnectionKey}

theorem isConnected_connect_of_lt (hmade : (w.connect kind event).1 = .ok made)
    {key : ConnectionKey} (hkey : key < w.board.connections.size) :
    (w.connect kind event).2.board.isConnected key = w.board.isConnected key := by
  obtain ⟨number, hboard⟩ := connections_connect hmade
  rw [hboard]
  change ((w.board.connections.push _)[key]?).any _ = _
  rw [Array.getElem?_push_lt hkey, ← Array.getElem?_eq_getElem hkey]
  rfl

/-- A new connection has the next key. -/
theorem key_of_connect {key : ConnectionKey}
    (h : (w.connect kind event).1.toOption = some key) : key = w.board.connections.size := by
  cases hmade : (w.connect kind event).1 with
  | ok made =>
    rw [hmade] at h
    exact Option.some.inj h ▸ (connect_ok hmade).1
  | error cause =>
    rw [hmade] at h
    cases h

theorem size_connect (hmade : (w.connect kind event).1 = .ok made) :
    (w.connect kind event).2.board.connections.size = w.board.connections.size + 1 := by
  obtain ⟨number, hboard⟩ := connections_connect hmade
  rw [hboard]
  exact Array.size_push _

/-- A new connection is the last of its signal. -/
theorem relayed_connect (h : w.Paired) (hmade : (w.connect kind event).1 = .ok made)
    (hlt : ∀ id event, ∀ key ∈ w.slots id event, key < w.board.connections.size) :
    Relayed (fun id event' => if id = (w.register kind).1 ∧ event' = event then
      [w.board.connections.size] else []) w (w.connect kind event).2 := by
  refine
    { paired := ?_
      size := by rw [size_connect hmade]; exact Nat.le_succ _
      cut := fun key hkey hc => by rw [isConnected_connect_of_lt hmade hkey] at hc; exact hc
      slots := fun id event' key hkey => ?_
      listeners := fun id event' => ?_ }
  · obtain ⟨-, signal, -, -, hworld⟩ := connect_ok hmade
    rw [hworld]
    exact paired_setSignal (paired_register h kind) _ event _
  · rw [slots_connect h hmade] at hkey
    split at hkey
    · rename_i hsignal
      rw [if_pos hsignal]
      rcases List.mem_append.mp hkey with hold | hnew
      · exact List.mem_append_left _ (List.mem_filter.mp hold).1
      · exact List.mem_append_right _ hnew
    · exact List.mem_append_left _ hkey
  · rw [listeners_eq, listeners_eq, slots_connect h hmade]
    split
    · rfl
    · rw [List.append_nil, List.filter_filter]
      refine List.filter_congr fun key hkey => ?_
      rw [isConnected_connect_of_lt hmade (hlt id event' key hkey), Bool.and_self]

end Connect

/-- Nobody hears a signal whose connections were all cut. -/
theorem relayed_disconnectAll (h : w.Paired) (kind : K) (event : LifeEvent) :
    Relayed (fun _ _ => []) w (w.disconnectAll kind event) := by
  have hboard := board_disconnectAll h kind event
  have hcut : ∀ key, (w.disconnectAll kind event).board.isConnected key = true →
      w.board.isConnected key = true ∧ key ∉ w.slots (w.register kind).1 event := fun key hkey => by
    rw [hboard] at hkey
    exact Switchboard.isConnected_foldl_disconnect.mp hkey
  refine
    { paired := paired_setSignal (paired_register h kind) _ event _
      size := by rw [hboard, Switchboard.size_foldl_disconnect]
      cut := fun key _ hkey => (hcut key hkey).1
      slots := fun id event' key hkey => by
        rw [slots_disconnectAll h] at hkey
        split at hkey
        · cases hkey
        · exact List.mem_append_left _ hkey
      listeners := fun id event' => ?_ }
  rw [List.append_nil, listeners_eq, listeners_eq, slots_disconnectAll h, List.filter_filter]
  split
  · rename_i hsignal
    refine (List.filter_eq_nil_iff.mpr fun key hkey => ?_).symm
    rw [Bool.and_eq_true, not_and]
    intro hc
    rw [hsignal.1, hsignal.2] at hkey
    exact absurd hkey (hcut key hc).2
  · refine List.filter_congr fun key _ => ?_
    cases hkey : (w.disconnectAll kind event).board.isConnected key with
    | true => rw [(hcut key hkey).1, Bool.and_self]
    | false => exact (Bool.false_and _).symm

end Relayed

end World

/-- Whether a call is about the state of a connection. -/
def Call.rewires {U : Type} [SceneFamily U] : Call U → Bool
  | .disconnect _ | .block _ | .release _ | .disconnectAll .. => true
  | _ => false

namespace Machine

variable {U σ : Type} [SceneFamily U] [DecidableEq U] {m m' : Machine U σ}
variable {made : ComponentId → LifeEvent → List ConnectionKey}

/-! ## Connections that are made -/

/-- A connection that is made to a signal, and who is called by it. -/
structure Hookup (U σ : Type) [SceneFamily U] where
  id : ComponentId
  event : LifeEvent
  key : ConnectionKey
  handler : Handler U σ

/-- The connection that the next step makes, unless the signal has no number for it. -/
def hookup? (m : Machine U σ) : Option (Hookup U σ) :=
  match m.control with
  | .run (.connect kind event handler _) =>
    (m.world.connect kind event).1.toOption.map fun key =>
      { id := (m.world.register kind).1, event, key, handler := .script (handler key) }
  | .run (.cascade _) =>
    (m.withClaims.world.connect .node .destroy).1.toOption.map fun key =>
      { id := (m.world.register .node).1, event := .destroy, key
        handler := .cascade m.claims.size }
  | _ => none

/-- The connection of a hookup, for the signal that it is made to. -/
def Hookup.joins (c : Hookup U σ) (id : ComponentId) (event : LifeEvent) : List ConnectionKey :=
  if id = c.id ∧ event = c.event then [c.key] else []

/-- The connections that the first `n` steps make to a signal, in order. -/
def connections (m : Machine U σ) (n : Nat) (id : ComponentId) (event : LifeEvent) :
    List ConnectionKey :=
  (List.range n).flatMap fun k => (m.run k).hookup?.toList.flatMap (·.joins id event)

theorem connections_succ (m : Machine U σ) (n : Nat) (id : ComponentId) (event : LifeEvent) :
    m.connections (n + 1) id event = m.connections n id event ++
      (m.run n).hookup?.toList.flatMap (·.joins id event) := by
  simp [connections, List.range_succ]

/-- What a step does to connections. -/
inductive Hooking (m m' : Machine U σ) : Prop
  /-- No connection is made. -/
  | kept (none : m.hookup? = none) (handlers : m'.handlers = m.handlers)
      (size : m'.world.board.connections.size = m.world.board.connections.size)
      (relayed : World.Relayed (fun _ _ => []) m.world m'.world)
  /-- A connection is made, and its handler is put where its key says. -/
  | made (c : Hookup U σ) (some : m.hookup? = some c)
      (key : c.key = m.world.board.connections.size)
      (handlers : m'.handlers = m.handlers.push c.handler)
      (size : m'.world.board.connections.size = m.world.board.connections.size + 1)
      (relayed : World.Relayed c.joins m.world m'.world)

/-- Connections are left alone. -/
theorem Hooking.of_attuned (hpaired : m.world.Paired) (hnone : m.hookup? = none)
    (hhandlers : m'.handlers = m.handlers) (ha : World.Attuned m.world m'.world) : Hooking m m' :=
  .kept hnone hhandlers (congrArg (·.connections.size) ha.board) (ha.relayed hpaired)

/-- The states of connections change, but nobody is connected again. -/
theorem Hooking.of_board (hpaired : m.world.Paired) (hnone : m.hookup? = none)
    (hhandlers : m'.handlers = m.handlers) {b : Switchboard}
    (hworld : m'.world = { m.world with board := b })
    (hsize : b.connections.size = m.world.board.connections.size)
    (hcut : ∀ key, b.isConnected key = true → m.world.board.isConnected key = true) :
    Hooking m m' := by
  refine .kept hnone hhandlers ?_ ?_
  · rw [hworld]
    exact hsize
  · rw [hworld]
    exact World.relayed_of_board hpaired hsize hcut

theorem hookup?_of_call {c : Call U} {next : c.Reply → Script U σ}
    (hcall : m.control = .run (.call c next)) : m.hookup? = none := by
  simp only [hookup?, hcall]

/-- A call that is not about connections leaves them alone. -/
theorem attuned_call (hpaired : m.world.Paired) {c : Call U} (next : c.Reply → Script U σ)
    (h : c.rewires = false) :
    (m.call c next).handlers = m.handlers ∧ World.Attuned m.world (m.call c next).world := by
  cases c with
  | create =>
    simp only [call]
    split
    · exact ⟨rfl, (World.tuned_with _ _ _).attuned⟩
    · exact ⟨rfl, (World.tuned_with _ _ _).attuned⟩
  | destroy e => exact ⟨rfl, .refl _⟩
  | register kind => exact ⟨rfl, World.attuned_register hpaired kind⟩
  | emplace kind e make =>
    have hplace := World.attuned_place hpaired kind e make
    simp only [call]
    split
    · split <;> exact ⟨rfl, hplace⟩
    · exact ⟨rfl, .refl _⟩
  | edit kind e f => exact ⟨rfl, World.attuned_edit _ _ _ _⟩
  | patch kind e f =>
    cases hp : m.patch? kind e f (.resume fun _ => next true) with
    | none =>
      simp only [call, hp, Option.getD_none]
      exact ⟨rfl, .refl _⟩
    | some m' =>
      obtain ⟨id, v, -, -, rfl⟩ := patch?_eq_some hp
      simp only [call, hp, Option.getD_some]
      exact ⟨rfl, World.attuned_edit _ _ _ _⟩
  | take kind e =>
    simp only [call]
    split
    · exact ⟨rfl, .refl _⟩
    · exact ⟨rfl, .refl _⟩
  | fetchEdit e kinds f =>
    have hfetch := World.attuned_fetchEdit hpaired e kinds f
    simp only [call]
    split <;> exact ⟨rfl, hfetch⟩
  | alterStorage kind f => exact ⟨rfl, World.attuned_updateStorage _ _ _⟩
  | updateTransform root => exact ⟨rfl, World.attuned_updateTransform hpaired root⟩
  | updateAllTransforms => exact ⟨rfl, World.attuned_updateAllTransforms hpaired⟩
  | _ => cases h

theorem hooking_call (hpaired : m.world.Paired) {c : Call U} {next : c.Reply → Script U σ}
    (hcall : m.control = .run (.call c next)) : Hooking m (m.call c next) := by
  have hnone := hookup?_of_call hcall
  cases h : c.rewires with
  | false =>
    obtain ⟨hhandlers, ha⟩ := attuned_call hpaired next h
    exact .of_attuned hpaired hnone hhandlers ha
  | true =>
    cases c with
    | disconnect key =>
      exact .of_board hpaired hnone rfl rfl (Array.size_modify ..) fun k hk =>
        (Switchboard.isConnected_disconnect.mp hk).1
    | block key =>
      rcases call_block_cases m key next with hblock | hblock
      · rw [hblock]
        exact .of_board hpaired hnone rfl rfl (Switchboard.size_block _ key) fun k hk =>
          Switchboard.isConnected_block ▸ hk
      · rw [hblock]
        exact .of_attuned hpaired hnone rfl (.refl _)
    | release guard =>
      exact .of_board hpaired hnone rfl rfl (Switchboard.size_release _ guard) fun k hk =>
        Switchboard.isConnected_release guard ▸ hk
    | disconnectAll kind event =>
      refine .kept hnone rfl ?_ (World.relayed_disconnectAll hpaired kind event)
      show (m.world.disconnectAll kind event).board.connections.size = _
      rw [World.board_disconnectAll hpaired, Switchboard.size_foldl_disconnect]
    | _ => cases h

/-- A kind that is in use keeps its number. -/
theorem register_fst_of_idOf? {w : World (Kind U)} {kind : Kind U} {id : ComponentId}
    (hid : w.idOf? kind = some id) : (w.register kind).1 = id :=
  congrArg Prod.fst (Catalog.register_of_idOf? hid)

/-- A cascade is connected behind whoever hears of the destruction of links, after links and
placements are taken into use. -/
theorem hooking_cascade (hm : m.world.Paired)
    (hlt : ∀ id event, ∀ key ∈ m.world.slots id event, key < m.world.board.connections.size)
    {next : Script U σ} (hcall : m.control = .run (.cascade next)) :
    Hooking m (m.runScript (.cascade next)) := by
  have hattuned := attuned_withClaims hm
  have hpaired := hattuned.paired hm
  rcases runScript_cascade_cases m next with ⟨key, hmade, hrun⟩ | ⟨cause, hmade, hrun⟩
  · have hid : m.withClaims.world.idOf? .node = some (m.world.register .node).1 :=
      World.idOf?_register_of_idOf? (World.idOf?_register_self m.world .node)
    have hrelayed := (World.relayed_connect hpaired hmade
      fun id event key hkey => hlt id event key (hattuned.slots id event hkey)).after hattuned
    rw [register_fst_of_idOf? hid] at hrelayed
    obtain ⟨rfl, -⟩ := World.connect_ok hmade
    rw [hrun]
    exact .made
      { id := (m.world.register .node).1, event := .destroy, key := m.world.board.connections.size
        handler := .cascade m.claims.size }
      (by simp only [hookup?, hcall, hmade]; rfl) rfl rfl (World.size_connect hmade) hrelayed
  · rw [hrun]
    exact .of_attuned hm (by simp only [hookup?, hcall, hmade]; rfl) rfl
      (hattuned.trans (World.attuned_connect hpaired hmade))

theorem hooking_runScript (hpaired : m.world.Paired)
    (hlt : ∀ id event, ∀ key ∈ m.world.slots id event, key < m.world.board.connections.size)
    {script : Script U σ} (hcall : m.control = .run script) :
    Hooking m (m.runScript script) := by
  cases script with
  | call c next => exact hooking_call hpaired hcall
  | connect kind event handler next =>
    rcases runScript_connect_cases m kind event handler next with
      ⟨key, hmade, hrun⟩ | ⟨cause, hmade, hrun⟩
    · obtain ⟨rfl, -⟩ := World.connect_ok hmade
      rw [hrun]
      exact .made
        { id := (m.world.register kind).1, event, key := m.world.board.connections.size
          handler := .script (handler m.world.board.connections.size) }
        (by simp only [hookup?, hcall, hmade]; rfl) rfl rfl (World.size_connect hmade)
        (World.relayed_connect hpaired hmade hlt)
    · rw [hrun]
      exact .of_attuned hpaired (by simp only [hookup?, hcall, hmade]; rfl) rfl
        (World.attuned_connect hpaired hmade)
  | cascade next => exact hooking_cascade hpaired hlt hcall
  | blocked connection body next =>
    have hnone : m.hookup? = none := by simp only [hookup?, hcall]
    rcases runScript_blocked_cases m connection body next with hblock | hblock
    · rw [hblock]
      exact .of_board hpaired hnone rfl rfl (Switchboard.size_block _ connection) fun k hk =>
        Switchboard.isConnected_block ▸ hk
    · rw [hblock]
      exact .of_attuned hpaired hnone rfl (.refl _)
  | _ => exact .of_attuned hpaired (by simp only [hookup?, hcall]) rfl (.refl _)

/-- A handler that is called may patch links, and leaves connections alone. -/
theorem attuned_invoke (m : Machine U σ) (key : ConnectionKey) (e : Entity) :
    (m.invoke key e).handlers = m.handlers ∧ World.Attuned m.world (m.invoke key e).world := by
  unfold invoke
  split
  · exact ⟨rfl, .refl _⟩
  · rename_i claims _
    unfold startCascade
    split
    · exact ⟨rfl, .refl _⟩
    · cases hp : (m.world.validParentOf? e).bind fun parent =>
          m.patch? .node parent (fun node => TreeNode.dropChild node e) (.unlinking claims e) with
      | none =>
        simp only [hp, Option.getD_none]
        exact ⟨rfl, .refl _⟩
      | some m' =>
        obtain ⟨parent, -, hpatch⟩ := Option.bind_eq_some_iff.mp hp
        obtain ⟨id, v, -, -, rfl⟩ := patch?_eq_some hpatch
        simp only [hp, Option.getD_some]
        exact ⟨rfl, World.attuned_edit _ _ _ _⟩
  · exact ⟨rfl, .refl _⟩

omit [DecidableEq U] in
theorem tuned_tearDown (m : Machine U σ) (e : Entity) (id : ComponentId) :
    (m.tearDown e id).handlers = m.handlers ∧ World.Tuned m.world (m.tearDown e id).world := by
  unfold tearDown
  split
  · exact ⟨rfl, .refl _⟩
  · exact ⟨rfl, World.tuned_with _ _ _⟩

/-- A frame that is answered leaves connections alone, unless it holds one back. -/
theorem attuned_resume {frame : Frame U σ} (hframe : ∀ guard next, frame ≠ .blocked guard next)
    (b : Bool) :
    (m.resume frame b).handlers = m.handlers ∧ World.Attuned m.world (m.resume frame b).world := by
  cases frame with
  | blocked guard next => exact absurd rfl (hframe guard next)
  | dispatch id event e keys => cases keys <;> exact ⟨rfl, .refl _⟩
  | removal id e => exact ⟨rfl, (World.tuned_with _ _ _).attuned⟩
  | teardown e id =>
    rcases resume_teardown_cases m e id b with ⟨-, hresume⟩ | ⟨cause, -, -, hresume⟩
    · rw [hresume]
      cases b with
      | true =>
        obtain ⟨hhandlers, htuned⟩ :=
          tuned_tearDown { m with world := m.world.erase id e } e (id + 1)
        exact ⟨hhandlers, ((World.tuned_erase _ _ _).trans htuned).attuned⟩
      | false =>
        obtain ⟨hhandlers, htuned⟩ := tuned_tearDown m e (id + 1)
        exact ⟨hhandlers, htuned.attuned⟩
    · rw [hresume]
      exact ⟨rfl, (World.tuned_erase _ _ _).attuned⟩
  | taking kind e next =>
    rcases resume_taking_cases m e next b with ⟨old, hresume⟩ | ⟨cause, -, -, hresume⟩
    · rw [hresume]
      cases b with
      | true => exact ⟨rfl, World.attuned_pull _ _ _⟩
      | false => exact ⟨rfl, .refl _⟩
    · rw [hresume]
      exact ⟨rfl, World.attuned_pull _ _ _⟩
  | unlinking claims e =>
    simp only [resume, cascadeOn]
    cases (m.claim claims (e :: m.world.descendants e)).1 <;> exact ⟨rfl, .refl _⟩
  | cascade claims past ahead => cases ahead <;> exact ⟨rfl, .refl _⟩
  | _ => exact ⟨rfl, .refl _⟩

/-- What a step does to connections. -/
theorem hooking_of_step (hpaired : m.world.Paired)
    (hlt : ∀ id event, ∀ key ∈ m.world.slots id event, key < m.world.board.connections.size)
    (h : m.step = some m') : Hooking m m' := by
  cases stepped_of_step h with
  | run script hcall => exact hooking_runScript hpaired hlt hcall
  | publish id event e hcall =>
    exact .of_attuned hpaired (by simp only [hookup?, hcall]) rfl (World.tuned_snapshot _ _ _).attuned
  | invoke key e hcall =>
    obtain ⟨hhandlers, ha⟩ := attuned_invoke m key e
    exact .of_attuned hpaired (by simp only [hookup?, hcall]) hhandlers ha
  | destroy e hcall =>
    have hbegun : World.Tuned m.world { m.world with entities := (m.world.entities.beginDestroy e).2 } :=
      World.tuned_with _ _ _
    simp only [destroy]
    split
    · obtain ⟨hhandlers, htuned⟩ := tuned_tearDown
        { m with world := { m.world with entities := (m.world.entities.beginDestroy e).2 } } e 0
      exact .of_attuned hpaired (by simp only [hookup?, hcall]) hhandlers (hbegun.trans htuned).attuned
    · exact .of_attuned hpaired (by simp only [hookup?, hcall]) rfl hbegun.attuned
  | announce id e hcall =>
    unfold announce
    split
    · exact .of_attuned hpaired (by simp only [hookup?, hcall]) rfl (.refl _)
    · exact .of_attuned hpaired (by simp only [hookup?, hcall]) rfl (World.tuned_with _ _ _).attuned
  | reply b frame stack hcall hstack =>
    by_cases hframe : ∃ guard next, frame = .blocked guard next
    · obtain ⟨guard, next, rfl⟩ := hframe
      exact .of_board hpaired (by simp only [hookup?, hcall]) rfl rfl
        (Switchboard.size_release _ guard) fun k hk => Switchboard.isConnected_release guard ▸ hk
    · obtain ⟨hhandlers, ha⟩ := attuned_resume (m := { m with stack })
        (fun guard next hc => hframe ⟨guard, next, hc⟩) b
      exact .of_attuned hpaired (by simp only [hookup?, hcall]) hhandlers ha
  | unwind cause frame stack hcall hstack =>
    have hnone : m.hookup? = none := by simp only [hookup?, hcall]
    cases frame with
    | blocked guard next =>
      exact .of_board hpaired hnone rfl rfl (Switchboard.size_release _ guard) fun k hk =>
        Switchboard.isConnected_release guard ▸ hk
    | _ => exact .of_attuned hpaired hnone rfl (.refl _)

/-! ## Whole runs -/

/-- The listeners of every signal are the connections made to it that were not cut, and handlers
are where their keys say. -/
structure Hooked (m : Machine U σ) (made : ComponentId → LifeEvent → List ConnectionKey) : Prop where
  paired : m.world.Paired
  handlers : m.handlers.size = m.world.board.connections.size
  slots : ∀ id event, m.world.slots id event ⊆ made id event
  listeners : ∀ id event,
    m.world.listeners id event = (made id event).filter m.world.board.isConnected
  lt : ∀ {id event key}, key ∈ made id event → key < m.world.board.connections.size
  sorted : ∀ id event, (made id event).Pairwise (· < ·)

omit [DecidableEq U] in
theorem hooked_start (host : σ) (script : Script U σ) :
    (start host script).Hooked fun _ _ => [] :=
  { paired := rfl
    handlers := rfl
    slots := fun _ _ _ hkey => by cases hkey
    listeners := fun _ _ => rfl
    lt := fun hkey => by cases hkey
    sorted := fun _ _ => .nil }

omit [DecidableEq U] in
/-- Whoever is new comes last. -/
theorem Hooked.relayed (h : m.Hooked made) {new : ComponentId → LifeEvent → List ConnectionKey}
    (hrelayed : World.Relayed new m.world m'.world)
    (hhandlers : m'.handlers.size = m'.world.board.connections.size)
    (hnew : ∀ id event, ∀ key ∈ new id event, m.world.board.connections.size ≤ key ∧
      key < m'.world.board.connections.size)
    (hsorted : ∀ id event, (new id event).Pairwise (· < ·)) :
    m'.Hooked fun id event => made id event ++ new id event := by
  refine
    { paired := hrelayed.paired
      handlers := hhandlers
      slots := fun id event key hkey => ?_
      listeners := fun id event => ?_
      lt := fun {id event key} hkey => ?_
      sorted := fun id event => ?_ }
  · rcases List.mem_append.mp (hrelayed.slots id event hkey) with hold | hnew
    · exact List.mem_append_left _ (h.slots id event hold)
    · exact List.mem_append_right _ hnew
  · rw [hrelayed.listeners, h.listeners, List.filter_append, List.filter_append, List.filter_filter]
    congr 1
    refine List.filter_congr fun key hkey => ?_
    cases hc : m'.world.board.isConnected key with
    | true => rw [hrelayed.cut key (h.lt hkey) hc, Bool.and_self]
    | false => exact Bool.false_and _
  · rcases List.mem_append.mp hkey with hold | hkey
    · exact Nat.lt_of_lt_of_le (h.lt hold) hrelayed.size
    · exact (hnew id event key hkey).2
  · refine List.pairwise_append.mpr ⟨h.sorted id event, hsorted id event, fun k hk k' hk' => ?_⟩
    exact Nat.lt_of_lt_of_le (h.lt hk) (hnew id event k' hk').1

/-- The listeners of every signal are those connections after the next step too. -/
theorem Hooked.hooking (h : m.Hooked made) (hstep : Hooking m m') :
    m'.Hooked fun id event => made id event ++ m.hookup?.toList.flatMap (·.joins id event) := by
  cases hstep with
  | kept none handlers size relayed =>
    rw [none]
    refine h.relayed relayed ?_ (fun _ _ _ hkey => by cases hkey) fun _ _ => .nil
    rw [handlers, size, h.handlers]
  | made c some key handlers size relayed =>
    simp only [some, Option.toList_some, List.flatMap_cons, List.flatMap_nil, List.append_nil]
    refine h.relayed relayed ?_ (fun id event k hk => ?_) fun id event => ?_
    · rw [handlers, size, Array.size_push, h.handlers]
    · unfold Hookup.joins at hk
      split at hk
      · rw [List.mem_singleton.mp hk, key, size]
        exact ⟨Nat.le_refl _, Nat.lt_succ_self _⟩
      · cases hk
    · unfold Hookup.joins
      split
      · exact List.pairwise_singleton _ _
      · exact .nil

/-- A run that has come to its end makes no connection. -/
theorem Hooked.hooking_run {n : Nat} (h : (m.run n).Hooked made) :
    Hooking (m.run n) (m.run (n + 1)) := by
  cases hstep : (m.run n).step with
  | some m' =>
    rw [run_succ_of_run_step hstep]
    exact hooking_of_step h.paired (fun id event key hkey => h.lt (h.slots id event hkey)) hstep
  | none =>
    have hrun : m.run (n + 1) = m.run n := by rw [run_succ, hstep, Option.getD_none]
    have hnone : (m.run n).hookup? = none := by
      obtain ⟨-, ⟨b, hcall⟩ | ⟨cause, hcall⟩⟩ := (step_eq_none_iff _).mp hstep
      · simp only [hookup?, hcall]
      · simp only [hookup?, hcall]
    rw [hrun]
    exact .of_attuned h.paired hnone rfl (.refl _)

/-- Throughout every run the listeners of a signal are the connections made to it so far that
were not cut. -/
theorem hooked_run (host : σ) (script : Script U σ) (n : Nat) :
    ((start host script).run n).Hooked ((start host script).connections n) := by
  induction n with
  | zero => exact hooked_start host script
  | succ n ih =>
    have hnext := ih.hooking ih.hooking_run
    simp only [← connections_succ] at hnext
    exact hnext

theorem key_of_hookup? {c : Hookup U σ} (h : m.hookup? = some c) :
    c.key = m.world.board.connections.size := by
  unfold hookup? at h
  split at h
  · obtain ⟨key, hkey, rfl⟩ := Option.map_eq_some_iff.mp h
    exact World.key_of_connect hkey
  · obtain ⟨key, hkey, rfl⟩ := Option.map_eq_some_iff.mp h
    have hboard : m.withClaims.world.board = m.world.board := rfl
    rw [← hboard]
    exact World.key_of_connect hkey
  · cases h

/-- A connection that was made is among those that were made. -/
theorem mem_connections {k n : Nat} {c : Hookup U σ} (hc : (m.run k).hookup? = some c) (hk : k < n) :
    c.key ∈ m.connections n c.id c.event := by
  refine List.mem_flatMap.mpr ⟨k, List.mem_range.mpr hk, ?_⟩
  rw [hc]
  simp [Hookup.joins]

section Later

variable {i j : Nat} {key : ConnectionKey}

/-- There are never fewer connections than before. -/
theorem size_run_le (host : σ) (script : Script U σ) (h : i ≤ j) :
    ((start host script).run i).world.board.connections.size ≤
      ((start host script).run j).world.board.connections.size := by
  induction h with
  | refl => exact Nat.le_refl _
  | @step j _ ih =>
    refine Nat.le_trans ih ?_
    cases (hooked_run host script j).hooking_run with
    | kept none handlers size relayed => exact relayed.size
    | made c some key handlers size relayed => exact relayed.size

/-- Whoever is connected now was not cut before. -/
theorem isConnected_run_of_le (host : σ) (script : Script U σ) (h : i ≤ j)
    (hkey : key < ((start host script).run i).world.board.connections.size)
    (hconnected : ((start host script).run j).world.board.isConnected key = true) :
    ((start host script).run i).world.board.isConnected key = true := by
  induction h with
  | refl => exact hconnected
  | @step j hij ih =>
    have hlt := Nat.lt_of_lt_of_le hkey (size_run_le host script hij)
    refine ih ?_
    cases (hooked_run host script j).hooking_run with
    | kept none handlers size relayed => exact relayed.cut key hlt hconnected
    | made c some key' handlers size relayed => exact relayed.cut key hlt hconnected

/-- The handler of a connection stays the one that it was made for. -/
theorem handlers_run {host : σ} {script : Script U σ} {c : Hookup U σ}
    (hc : ((start host script).run i).hookup? = some c) (h : i < j) :
    ((start host script).run j).handlers[c.key]? = some c.handler := by
  induction h with
  | refl =>
    have hnow := hooked_run host script i
    cases hnow.hooking_run with
    | kept none handlers size relayed =>
      rw [none] at hc
      cases hc
    | made c' some key handlers size relayed =>
      obtain rfl := Option.some.inj (some.symm.trans hc)
      rw [handlers, key, ← hnow.handlers]
      exact Array.getElem?_push_size
  | @step j _ ih =>
    cases (hooked_run host script j).hooking_run with
    | kept none handlers size relayed => rw [handlers, ih]
    | made c' some key handlers size relayed =>
      obtain ⟨hlt, -⟩ := Array.getElem?_eq_some_iff.mp ih
      rw [handlers, Array.getElem?_push_lt hlt, ← Array.getElem?_eq_getElem hlt, ih]

end Later

end Machine

end EntityScene
