import EntityScene.Proofs.Felling

/-!
# Who is connected to what

Handlers are connected and cut, blocked and released while a cascade is connected. As long
as nobody lays hands on the connection of the cascade, it stays the one that it was, and
all others stay readers.

- `World.Attuned`: worlds with the same connections, maybe with more kinds in use.
- `attuned_register`, `attuned_updateStorage`, `attuned_fetchEdit`, ..: the edits that leave
  connections alone.
- `Machine.Wired`: at most one cascade, whose connection no guard holds, and readers.
- `Switchboard.GuardsCounted`: a connection is held back as often as there are guards on it.
- `wired_connect`, `wired_disconnect`, `wired_block`, `wired_release`,
  `wired_disconnectAll`, `wired_cascade`: the steps that work on connections.
-/

namespace EntityScene

namespace Switchboard

/-- Cutting connections changes the state of these, and of no others. -/
theorem connection?_foldl_disconnect {keys : List ConnectionKey} {key : ConnectionKey}
    (hkey : key ∉ keys) (b : Switchboard) :
    (keys.foldl (·.disconnect ·) b).connection? key = b.connection? key := by
  induction keys generalizing b with
  | nil => rfl
  | cons k keys ih =>
    rw [List.mem_cons, not_or] at hkey
    exact (ih hkey.2 (b.disconnect k)).trans (connection?_modify_other _ _ hkey.1)

theorem size_foldl_disconnect (keys : List ConnectionKey) (b : Switchboard) :
    (keys.foldl (·.disconnect ·) b).connections.size = b.connections.size := by
  induction keys generalizing b with
  | nil => rfl
  | cons k keys ih => exact (ih (b.disconnect k)).trans (by simp [disconnect, modify])

theorem size_release (b : Switchboard) (guard : GuardKey) :
    (b.release guard).2.connections.size = b.connections.size := by
  unfold release
  split
  · rfl
  · simp [modify]

/-- Connections are as many as before, whether a guard is taken or not. -/
theorem size_block (b : Switchboard) (key : ConnectionKey) :
    (b.block key).2.connections.size = b.connections.size := by
  unfold block
  split
  · rfl
  · split
    · simp [modify]
    · rfl

theorem connection?_block_other (b : Switchboard) {key k : ConnectionKey} (h : k ≠ key) :
    (b.block key).2.connection? k = b.connection? k := by
  unfold block
  split
  · rfl
  · split
    · exact connection?_modify_other b _ h
    · rfl

/-! ### Guards are counted -/

/-- Guards are on connections that were made, and a connection is held back as often as
there are guards on it. -/
structure GuardsCounted (b : Switchboard) : Prop where
  made : ∀ key, some key ∈ b.guards → key < b.connections.size
  blocks : ∀ key c, b.connection? key = some c → c.blocks.toNat = b.guards.count (some key)

theorem guardsCounted_empty : GuardsCounted .empty :=
  { made := fun key h => absurd h (Array.not_mem_empty _)
    blocks := fun key c h => by simp [connection?, empty] at h }

namespace GuardsCounted

variable {b : Switchboard} {key : ConnectionKey} {guard : GuardKey}

/-- Nobody looks at a count when a connection is cut. -/
theorem disconnect (h : b.GuardsCounted) (key : ConnectionKey) : (b.disconnect key).GuardsCounted :=
  { made := fun k hk => by
      rw [Switchboard.disconnect, modify, Array.size_modify]
      exact h.made k hk
    blocks := fun k c hc => by
      rw [Switchboard.disconnect] at hc
      by_cases hk : k = key
      · rw [hk, connection?_modify_self, Option.map_eq_some_iff] at hc
        obtain ⟨old, hold, rfl⟩ := hc
        rw [hk]
        exact h.blocks key old hold
      · rw [connection?_modify_other _ _ hk] at hc
        exact h.blocks k c hc }

theorem foldl_disconnect (h : b.GuardsCounted) (keys : List ConnectionKey) :
    (keys.foldl (·.disconnect ·) b).GuardsCounted := by
  induction keys generalizing b with
  | nil => exact h
  | cons key keys ih => exact ih (h.disconnect key)

/-- No guard is on a new connection. -/
theorem openConnection (h : b.GuardsCounted) (number : UInt32) :
    (b.openConnection number).2.GuardsCounted := by
  refine
    { made := fun k hk => ?_
      blocks := fun k c hc => ?_ }
  · show k < (b.connections.push _).size
    rw [Array.size_push]
    exact Nat.lt_succ_of_lt (h.made k hk)
  · change (b.connections.push _)[k]? = some c at hc
    rw [Array.getElem?_push] at hc
    split at hc
    · rename_i hk
      obtain rfl := Option.some.inj hc
      refine (Array.count_eq_zero.mpr fun hmem => ?_).symm
      exact Nat.ne_of_lt (h.made k hmem) hk
    · exact h.blocks k c hc

/-- A guard that is taken is counted: there is room for it. -/
theorem block (h : b.GuardsCounted) (key : ConnectionKey) : (b.block key).2.GuardsCounted := by
  unfold Switchboard.block
  cases hc : b.connection? key with
  | none =>
    exact
      { made := fun k hk => h.made k (by simpa using hk)
        blocks := fun k c hk => by
          rw [h.blocks k c hk, Array.count_push]
          rfl }
  | some c =>
    simp only
    split
    · rename_i hroom
      refine
        { made := fun k hk => ?_
          blocks := fun k c' hk => ?_ }
      · change k < (b.connections.modify key _).size
        rw [Array.size_modify]
        rcases Array.mem_push.mp hk with hk | hk
        · exact h.made k hk
        · obtain rfl := Option.some.inj hk
          exact (Array.getElem?_eq_some_iff.mp hc).1
      · change (b.modify key _).connection? k = some c' at hk
        rw [Array.count_push]
        by_cases hkey : k = key
        · rw [hkey, connection?_modify_self, hc] at hk
          obtain rfl := Option.some.inj hk
          rw [hkey, ← h.blocks key c hc, if_pos (beq_self_eq_true _)]
          show (c.blocks + 1).toNat = _
          rw [UInt32.toNat_add]
          exact Nat.mod_eq_of_lt (of_decide_eq_true hroom)
        · rw [connection?_modify_other _ _ hkey] at hk
          rw [h.blocks k c' hk, if_neg (by simpa using Ne.symm hkey), Nat.add_zero]
    · exact h

/-- A guard on a connection that is not held back is not there. -/
theorem held?_ne_of_isActive (h : b.GuardsCounted) (hactive : b.isActive key = true)
    (guard : GuardKey) : b.held? guard ≠ some key := by
  intro hheld
  obtain ⟨c, hc, hon⟩ := (Option.any_eq_true _ _).mp hactive
  rw [Connection.isActive, Bool.and_eq_true, beq_iff_eq] at hon
  have hzero := h.blocks key c hc
  rw [hon.2] at hzero
  have hmem : some key ∈ b.guards := Array.mem_of_getElem? (Option.join_eq_some_iff.mp hheld)
  exact Array.count_eq_zero.mp hzero.symm hmem

/-- A guard that is given back was counted. -/
theorem release (h : b.GuardsCounted) (guard : GuardKey) : (b.release guard).2.GuardsCounted := by
  unfold Switchboard.release
  cases hheld : b.held? guard with
  | none => exact h
  | some key =>
    obtain ⟨hlt, hentry⟩ := Array.getElem?_eq_some_iff.mp (Option.join_eq_some_iff.mp hheld)
    have hset : b.guards.setIfInBounds guard none = b.guards.set guard none hlt := by
      rw [Array.setIfInBounds, dif_pos hlt]
    refine
      { made := fun k hk => ?_
        blocks := fun k c hk => ?_ }
    · change k < (b.connections.modify key _).size
      rw [Array.size_modify]
      rcases Array.mem_or_eq_of_mem_setIfInBounds hk with hk | hk
      · exact h.made k hk
      · cases hk
    · change (b.modify key _).connection? k = some c at hk
      change c.blocks.toNat = (b.guards.setIfInBounds guard none).count (some k)
      rw [hset, Array.count_set, hentry]
      by_cases hkey : k = key
      · rw [hkey, connection?_modify_self, Option.map_eq_some_iff] at hk
        obtain ⟨old, hold, rfl⟩ := hk
        have hpos : 0 < b.guards.count (some key) :=
          Array.count_pos_iff.mpr (Array.mem_of_getElem hentry)
        rw [hkey, ← h.blocks key old hold] at *
        have hle : (1 : UInt32) ≤ old.blocks := UInt32.le_iff_toNat_le.mpr hpos
        rw [UInt32.toNat_sub_of_le _ _ hle]
        simp
      · rw [connection?_modify_other _ _ hkey] at hk
        rw [h.blocks k c hk]
        simp [Ne.symm hkey]

end GuardsCounted

/-- A guard that is released gives nothing back to a connection that is not held back. -/
theorem connection?_release {b : Switchboard} {key : ConnectionKey} (hcounted : b.GuardsCounted)
    (h : b.isActive key = true) (guard : GuardKey) :
    (b.release guard).2.connection? key = b.connection? key := by
  unfold release
  cases hheld : b.held? guard with
  | none => rfl
  | some k =>
    refine connection?_modify_other _ _ fun hk => ?_
    exact hcounted.held?_ne_of_isActive h guard (hk ▸ hheld)

end Switchboard

namespace World

section Attuned

variable {K : Type} [ComponentFamily K] [DecidableEq K] {w w' w'' : World K}

/-- The same connections and listeners in two worlds, the second of which may have more kinds
in use. -/
structure Attuned (w w' : World K) : Prop where
  paired : w.Paired → w'.Paired
  idOf? : ∀ {kind : K} {id : ComponentId}, w.idOf? kind = some id → w'.idOf? kind = some id
  board : w'.board = w.board
  listeners : ∀ id event, w'.listeners id event = w.listeners id event
  slots : ∀ id event, w'.slots id event ⊆ w.slots id event
  number : ∀ id event, w'.number id event = w.number id event

namespace Attuned

theorem refl (w : World K) : Attuned w w :=
  { paired := id
    idOf? := id
    board := rfl
    listeners := fun _ _ => rfl
    slots := fun _ _ => List.Subset.refl _
    number := fun _ _ => rfl }

theorem trans (h : Attuned w w') (h' : Attuned w' w'') : Attuned w w'' :=
  { paired := fun hpaired => h'.paired (h.paired hpaired)
    idOf? := fun hid => h'.idOf? (h.idOf? hid)
    board := h'.board.trans h.board
    listeners := fun id event => (h'.listeners id event).trans (h.listeners id event)
    slots := fun id event => List.Subset.trans (h'.slots id event) (h.slots id event)
    number := fun id event => (h'.number id event).trans (h.number id event) }

end Attuned

theorem Tuned.attuned (h : Tuned w w') : Attuned w w' :=
  { paired := fun hpaired => by rw [Paired, h.size_pools, h.catalog, hpaired]
    idOf? := fun hid => (h.idOf? _).trans hid
    board := h.board
    listeners := h.listeners
    slots := h.slots
    number := h.number }

/-- A kind that is taken into use has nobody connected to it. -/
theorem slots_register (h : w.Paired) (kind : K) (j : ComponentId) (event : LifeEvent) :
    (w.register kind).2.slots j event = w.slots j event := by
  rcases register_cases h kind with ⟨id, -, hr⟩ | ⟨-, hr⟩
  · rw [hr]
  · rw [hr]
    simp only [slots, Array.getElem?_push]
    split
    · rename_i hj
      rw [Array.getElem?_eq_none (Nat.le_of_eq hj.symm)]
      cases event <;> rfl
    · rfl

theorem number_register (h : w.Paired) (kind : K) (j : ComponentId) (event : LifeEvent) :
    (w.register kind).2.number j event = w.number j event := by
  rcases register_cases h kind with ⟨id, -, hr⟩ | ⟨-, hr⟩
  · rw [hr]
  · rw [hr]
    simp only [number, Array.getElem?_push]
    split
    · rename_i hj
      rw [Array.getElem?_eq_none (Nat.le_of_eq hj.symm)]
      cases event <;> rfl
    · rfl

theorem board_register (w : World K) (kind : K) : (w.register kind).2.board = w.board := rfl

theorem paired_register (h : w.Paired) (kind : K) : (w.register kind).2.Paired := by
  rcases register_cases h kind with ⟨id, -, hr⟩ | ⟨-, hr⟩
  · rw [hr]
    exact h
  · rw [hr, Paired, Array.size_push, h]
    exact (Array.size_push _).symm

theorem attuned_register (h : w.Paired) (kind : K) : Attuned w (w.register kind).2 :=
  { paired := fun _ => paired_register h kind
    idOf? := idOf?_register_of_idOf?
    board := rfl
    listeners := fun j event => by
      rw [listeners_eq, listeners_eq, slots_register h, board_register]
    slots := fun j event => by
      rw [slots_register h]
      exact List.Subset.refl _
    number := number_register h kind }

theorem attuned_registerAll (h : w.Paired) (kinds : List K) : Attuned w (w.registerAll kinds).2 := by
  induction kinds generalizing w with
  | nil => exact .refl w
  | cons kind kinds ih => exact (attuned_register h kind).trans (ih (paired_register h kind))

theorem attuned_updateStorage (w : World K) (kind : K)
    (f : SparseSet (Value kind) → SparseSet (Value kind)) : Attuned w (w.updateStorage kind f) := by
  unfold updateStorage
  split
  · exact (tuned_updatePool w _ _).attuned
  · exact .refl w

theorem attuned_edit (w : World K) (kind : K) (e : Entity) (f : Value kind → Value kind) :
    Attuned w (w.edit kind e f) :=
  (tuned_edit w kind e f).attuned

theorem attuned_place (h : w.Paired) (kind : K) (e : Entity) (make : Except Abort (Value kind)) :
    Attuned w (w.place kind e make).2 := by
  have hreg := attuned_register h kind
  unfold place
  simp only
  split
  · exact hreg
  · exact hreg.trans (attuned_updateStorage _ _ _)

theorem attuned_pull (w : World K) (kind : K) (e : Entity) : Attuned w (w.pull kind e).2 := by
  unfold pull
  split
  · exact .refl w
  · exact attuned_updateStorage _ _ _

theorem attuned_fetchEdit (h : w.Paired) (e : Entity) (kinds : List K)
    (f : (kind : K) → Value kind → Value kind) : Attuned w (w.fetchEdit e kinds f).2 := by
  have hreg := attuned_registerAll h kinds
  have hfold : ∀ (ps : List (K × ComponentId)) (w : World K),
      Attuned w (ps.foldl (fun w p => w.editPooled p.1 p.2 e (f p.1)) w) := by
    intro ps
    induction ps with
    | nil => exact fun w => .refl w
    | cons p ps ih => exact fun w => (tuned_updatePool w _ _).attuned.trans (ih _)
  unfold fetchEdit
  simp only
  split
  · split
    · exact hreg.trans (hfold _ _)
    · exact hreg
  · exact hreg

/-! ### Connections that are made and cut -/

omit [DecidableEq K] in
theorem slots_eq_signal (w : World K) (id : ComponentId) (event : LifeEvent) :
    ((w.signal? id event).getD .empty).slots = w.slots id event := by
  unfold signal? slots
  cases w.pools[id]? <;> rfl

omit [DecidableEq K] in
theorem nextId_eq_number (w : World K) (id : ComponentId) (event : LifeEvent) :
    ((w.signal? id event).getD .empty).nextId = w.number id event := by
  unfold signal? number
  cases w.pools[id]? <;> rfl

theorem lt_size_register (h : w.Paired) (kind : K) :
    (w.register kind).1 < (w.register kind).2.pools.size := by
  rw [paired_register h kind]
  exact Catalog.lt_size_of_idOf? (idOf?_register_self w kind)

section Connect

variable {kind : K} {event : LifeEvent} {key : ConnectionKey}

/-- Whoever asks in vain for a connection leaves those there are as they were. -/
theorem attuned_connect {cause : Abort} (h : w.Paired)
    (hmade : (w.connect kind event).1 = .error cause) : Attuned w (w.connect kind event).2 := by
  rw [(connect_error hmade).2]
  exact (attuned_register h kind).trans (tuned_snapshot _ _ _).attuned

/-- A new connection comes behind those of its signal that were not cut. -/
theorem slots_connect (h : w.Paired) (hmade : (w.connect kind event).1 = .ok key)
    (j : ComponentId) (other : LifeEvent) :
    (w.connect kind event).2.slots j other =
      if j = (w.register kind).1 ∧ other = event then
        (w.slots j other).filter w.board.isConnected ++ [w.board.connections.size]
      else w.slots j other := by
  obtain ⟨-, signal, hsignal, -, hworld⟩ := connect_ok hmade
  rw [hworld]
  refine (slots_setSignal (lt_size_register h kind) event _ j other).trans ?_
  rw [slots_register h]
  split
  · rename_i hc
    rw [hc.1, hc.2, ← slots_register h kind, ← slots_eq_signal, hsignal]
    rfl
  · rfl

/-- The number of a new connection counts. -/
theorem number_connect (h : w.Paired) (hmade : (w.connect kind event).1 = .ok key)
    (j : ComponentId) (other : LifeEvent) :
    ((w.connect kind event).2.number j other).toNat =
      if j = (w.register kind).1 ∧ other = event then (w.number j other).toNat + 1
      else (w.number j other).toNat := by
  obtain ⟨-, signal, hsignal, hroom, hworld⟩ := connect_ok hmade
  rw [hworld]
  refine (congrArg UInt32.toNat
    (number_setSignal (lt_size_register h kind) event _ j other)).trans ?_
  rw [number_register h]
  split
  · rename_i hc
    rw [hc.1, hc.2, ← number_register h kind, ← nextId_eq_number, hsignal, UInt32.toNat_add]
    exact Nat.mod_eq_of_lt hroom
  · rfl

/-- A connection is not made if all numbers were given. -/
theorem number_of_connect_error {cause : Abort} (h : w.Paired)
    (hmade : (w.connect kind event).1 = .error cause) :
    (w.number (w.register kind).1 event).toNat + 1 = UInt32.size := by
  have hfull := (connect_error hmade).1
  rw [nextId_eq_number, number_register h] at hfull
  exact Nat.le_antisymm (UInt32.toNat_lt_size _) hfull

theorem connections_connect (hmade : (w.connect kind event).1 = .ok key) :
    ∃ number, (w.connect kind event).2.board = (w.board.openConnection number).2 := by
  obtain ⟨-, signal, -, -, hworld⟩ := connect_ok hmade
  exact ⟨signal.nextId, by rw [hworld]⟩

/-- Whoever is in a list after a connection was made was in it before, or is new. -/
theorem mem_slots_connect (h : w.Paired) (hmade : (w.connect kind event).1 = .ok key)
    {other : LifeEvent} {j : ComponentId} {k : ConnectionKey}
    (hk : k ∈ (w.connect kind event).2.slots j other) :
    k ∈ w.slots j other ∨ k = w.board.connections.size := by
  rw [slots_connect h hmade] at hk
  split at hk
  · rcases List.mem_append.mp hk with hold | hnew
    · exact .inl (List.mem_filter.mp hold).1
    · exact .inr (List.mem_singleton.mp hnew)
  · exact .inl hk

/-- A new connection is active. -/
theorem isActive_connect (hmade : (w.connect kind event).1 = .ok key) :
    (w.connect kind event).2.board.isActive w.board.connections.size = true := by
  obtain ⟨number, hboard⟩ := connections_connect hmade
  rw [hboard]
  change ((w.board.connections.push _)[w.board.connections.size]?).any _ = true
  rw [Array.getElem?_push, if_pos rfl]
  rfl

end Connect

theorem slots_disconnectAll (h : w.Paired) (kind : K) (event : LifeEvent) (j : ComponentId)
    (other : LifeEvent) :
    (w.disconnectAll kind event).slots j other =
      if j = (w.register kind).1 ∧ other = event then [] else w.slots j other := by
  refine (slots_setSignal (lt_size_register h kind) event _ j other).trans ?_
  rw [slots_register h]

theorem board_disconnectAll (h : w.Paired) (kind : K) (event : LifeEvent) :
    (w.disconnectAll kind event).board =
      (w.slots (w.register kind).1 event).foldl (·.disconnect ·) w.board := by
  rw [← slots_register h kind, ← slots_eq_signal]
  rfl

end Attuned

section Passes

variable {U : Type} [SceneFamily U] [DecidableEq U] {w : World (Kind U)}

theorem attuned_propagate (w : World (Kind U)) (room : Nat) (waiting : List (Visit U)) :
    Attuned w (w.propagate room waiting) := by
  induction room generalizing w waiting with
  | zero => exact .refl w
  | succ room ih =>
    unfold propagate
    split
    · exact .refl w
    · exact (attuned_edit w _ _ _).trans (ih _ _)

theorem attuned_updateTransform (h : w.Paired) (root : Entity) :
    Attuned w (w.updateTransform root) := by
  have hplacement := attuned_register h (.transform : Kind U)
  have hlinks := attuned_register (paired_register h (.transform : Kind U)) .node
  exact (hplacement.trans hlinks).trans (attuned_propagate _ _ _)

theorem attuned_foldl_updateTransform (h : w.Paired) (roots : List Entity) :
    Attuned w (roots.foldl updateTransform w) := by
  induction roots generalizing w with
  | nil => exact .refl w
  | cons root roots ih =>
    have hnext := attuned_updateTransform h root
    exact hnext.trans (ih (hnext.paired h))

theorem attuned_updateAllTransforms (h : w.Paired) : Attuned w w.updateAllTransforms.2 :=
  attuned_foldl_updateTransform h w.placedRoots

end Passes

end World

/-! ## One cascade among readers -/

namespace Machine

variable {U σ : Type} [SceneFamily U] [DecidableEq U] {m m' : Machine U σ}
variable {planted : Option ConnectionKey} {key k : ConnectionKey} {claims : Nat}
variable {id : ComponentId}

omit [DecidableEq U] in
/-- A connection that is active is no less in the list of a signal than among its
listeners. -/
theorem count_listeners {w : World (Kind U)} (h : w.board.isActive key = true)
    (j : ComponentId) (event : LifeEvent) :
    (w.listeners j event).count key = (w.slots j event).count key := by
  have hconnected : w.board.isConnected key = true := by
    obtain ⟨c, hc, hactive⟩ := (Option.any_eq_true _ _).mp h
    rw [Connection.isActive, Bool.and_eq_true] at hactive
    exact (Option.any_eq_true _ _).mpr ⟨c, hc, hactive.1⟩
  rw [World.listeners_eq, List.count_filter hconnected]

/-- A key that nobody knew is connected once, to the signal that was asked for. -/
theorem count_listeners_connect {w : World (Kind U)} (hwf : w.Wf) {kind : Kind U}
    {event : LifeEvent} (hmade : (w.connect kind event).1 = .ok k)
    (hfresh : ∀ j other, w.board.connections.size ∉ w.slots j other)
    (j : ComponentId) (other : LifeEvent) :
    ((w.connect kind event).2.listeners j other).count w.board.connections.size =
      if j = (w.register kind).1 ∧ other = event then 1 else 0 := by
  rw [count_listeners (World.isActive_connect hmade), World.slots_connect hwf.paired hmade]
  split
  · have hcut : w.board.connections.size ∉ (w.slots j other).filter w.board.isConnected :=
      fun hk => hfresh j other (List.mem_filter.mp hk).1
    rw [List.count_append, List.count_eq_zero.mpr hcut, List.count_singleton_self]
  · exact List.count_eq_zero.mpr (hfresh j other)

/-- The cascade is connected as it was, if its own connection was left alone. -/
theorem Planted.rewired (h : m.Planted key claims id) (hid : m'.world.idOf? .node = some id)
    (hcascade : m'.handlers[key]? = some (.cascade claims))
    (hreaders : ∀ {k handler}, k ≠ key → m'.handlers[k]? = some handler → handler.IsReader)
    (hslots : ∀ j event, (m'.world.slots j event).count key = (m.world.slots j event).count key)
    (hboard : m'.world.board.connection? key = m.world.board.connection? key) :
    m'.Planted key claims id := by
  have hactive : m'.world.board.isActive key = true := by
    rw [Switchboard.isActive, hboard]
    exact h.active
  have hcount : ∀ j event, (m'.world.listeners j event).count key =
      (m.world.listeners j event).count key := fun j event => by
    rw [count_listeners hactive, count_listeners h.active, hslots]
  exact
    { number := hid
      cascade := hcascade
      readers := hreaders
      once := (hcount id .destroy).trans h.once
      elsewhere := fun {j event} hkey => by
        rw [← List.count_pos_iff, hcount, List.count_pos_iff] at hkey
        exact h.elsewhere hkey
      active := hactive }

theorem Planted.of_attuned (h : m.Planted key claims id) (hworld : World.Attuned m.world m'.world)
    (hhandlers : m'.handlers = m.handlers) : m'.Planted key claims id :=
  { number := hworld.idOf? h.number
    cascade := by rw [hhandlers, h.cascade]
    readers := fun hk hhandler => h.readers hk (hhandlers ▸ hhandler)
    once := by rw [hworld.listeners, h.once]
    elsewhere := fun hkey => h.elsewhere (hworld.listeners _ _ ▸ hkey)
    active := by rw [hworld.board, h.active] }

/-- At most one cascade is connected, under the given key, and it has claimed nothing. All
other handlers only read. -/
structure Wired (m : Machine U σ) (planted : Option ConnectionKey) : Prop where
  size : m.handlers.size = m.world.board.connections.size
  known : ∀ {j : ComponentId} {event : LifeEvent} {k : ConnectionKey},
    k ∈ m.world.slots j event → k < m.handlers.size
  readers : ∀ {k : ConnectionKey} {handler : Handler U σ}, planted ≠ some k →
    m.handlers[k]? = some handler → handler.IsReader
  cascade : ∀ {key : ConnectionKey}, planted = some key →
    ∃ claims id, m.Planted key claims id ∧ m.claims[claims]? = some []
  counted : m.world.board.GuardsCounted

namespace Wired

/-- Only readers hear of anything but the destruction of links. -/
theorem hushedFor (h : m.Wired planted) {j : ComponentId} {event : LifeEvent}
    (hne : event = .destroy → m.world.idOf? .node ≠ some j ∨ planted = none) (e : Entity) :
    m.HushedFor j event e := by
  cases hplanted : planted with
  | none =>
    intro k _
    refine hushed_of_reader (fun handler hhandler => h.readers ?_ hhandler) e
    rw [hplanted]
    exact Option.some_ne_none k |>.symm
  | some key =>
    obtain ⟨claims, id, hcascade, -⟩ := h.cascade hplanted
    refine hcascade.hushedFor_of_ne ?_ e
    rintro ⟨rfl, hevent⟩
    rcases hne hevent with hnode | hnone
    · exact hnode hcascade.number
    · rw [hplanted] at hnone
      cases hnone

theorem of_attuned (h : m.Wired planted) (hworld : World.Attuned m.world m'.world)
    (hhandlers : m'.handlers = m.handlers)
    (hclaims : ∀ {key claims id}, planted = some key → m.Planted key claims id →
      m.claims[claims]? = some [] → m'.claims[claims]? = some []) : m'.Wired planted :=
  { size := by rw [hhandlers, h.size, hworld.board]
    known := fun hk => hhandlers ▸ h.known (hworld.slots _ _ hk)
    readers := fun hk hhandler => h.readers hk (hhandlers ▸ hhandler)
    cascade := fun hkey => by
      obtain ⟨claims, id, hplanted, hset⟩ := h.cascade hkey
      exact ⟨claims, id, hplanted.of_attuned hworld hhandlers, hclaims hkey hplanted hset⟩
    counted := hworld.board ▸ h.counted }

/-- The connections change, but not that of the cascade. -/
theorem of_board (h : m.Wired planted) {board : Switchboard} (hcounted : board.GuardsCounted)
    (hsize : board.connections.size = m.world.board.connections.size)
    (hkey : ∀ {key}, planted = some key → board.connection? key = m.world.board.connection? key) :
    Wired { m with world := { m.world with board } } planted :=
  { size := by rw [h.size, ← hsize]
    known := fun hk => h.known hk
    readers := h.readers
    cascade := fun hplanted => by
      obtain ⟨claims, id, hcascade, hset⟩ := h.cascade hplanted
      refine ⟨claims, id, ?_, hset⟩
      exact hcascade.rewired hcascade.number hcascade.cascade hcascade.readers (fun _ _ => rfl)
        (hkey hplanted)
    counted := hcounted }

end Wired

theorem wired_disconnect (h : m.Wired planted) (hk : planted ≠ some k) :
    Wired { m with world := { m.world with board := m.world.board.disconnect k } } planted := by
  refine h.of_board (h.counted.disconnect k)
    (by simp [Switchboard.disconnect, Switchboard.modify]) fun {key} hkey => ?_
  exact Switchboard.connection?_modify_other _ _ fun heq => hk (heq ▸ hkey)

theorem wired_block (h : m.Wired planted) (hk : planted ≠ some k) :
    Wired { m with world := { m.world with board := (m.world.board.block k).2 } } planted := by
  refine h.of_board (h.counted.block k) (Switchboard.size_block _ k) fun {key} hkey => ?_
  exact Switchboard.connection?_block_other _ fun heq => hk (heq ▸ hkey)

theorem wired_release (h : m.Wired planted) (guard : GuardKey) :
    Wired { m with world := { m.world with board := (m.world.board.release guard).2 } }
      planted := by
  refine h.of_board (h.counted.release guard) (Switchboard.size_release _ _) fun {key} hkey => ?_
  obtain ⟨claims, id, hplanted, -⟩ := h.cascade hkey
  exact Switchboard.connection?_release h.counted hplanted.active guard

/-- All connections to a signal are cut, but not to that which the cascade is connected to. -/
theorem wired_disconnectAll (hwf : m.world.Wf) (h : m.Wired planted) {kind : Kind U}
    {event : LifeEvent} (hother : planted = none ∨ ¬ (kind = .node ∧ event = .destroy)) :
    Wired { m with world := m.world.disconnectAll kind event } planted := by
  have hboard := World.board_disconnectAll hwf.paired kind event
  have hsize :=
    Switchboard.size_foldl_disconnect (m.world.slots (m.world.register kind).1 event) m.world.board
  have hslots := World.slots_disconnectAll hwf.paired kind event
  -- the list that is cut is not the one that the cascade is in
  have hfree : ∀ {key}, planted = some key →
      key ∉ m.world.slots (m.world.register kind).1 event := by
    intro key hkey hmem
    obtain ⟨claims, id, hplanted, -⟩ := h.cascade hkey
    rw [← List.count_pos_iff, ← count_listeners hplanted.active, List.count_pos_iff] at hmem
    obtain ⟨hid, hevent⟩ := hplanted.elsewhere hmem
    rcases hother with hnone | hother
    · rw [hnone] at hkey
      cases hkey
    · refine hother ⟨?_, hevent⟩
      have hself := World.idOf?_register_self m.world kind
      rw [hid] at hself
      exact World.eq_of_idOf? hself (World.idOf?_register_of_idOf? hplanted.number)
  refine
    { size := by rw [h.size, ← hsize, ← hboard]
      known := fun {j other k} hk => ?_
      readers := h.readers
      cascade := fun {key} hkey => ?_
      counted := ?_ }
  · rw [hslots] at hk
    split at hk
    · cases hk
    · exact h.known hk
  · obtain ⟨claims, id, hplanted, hset⟩ := h.cascade hkey
    refine ⟨claims, id, ?_, hset⟩
    refine hplanted.rewired (World.idOf?_register_of_idOf? hplanted.number) hplanted.cascade
      hplanted.readers (fun j other => ?_) ?_
    · rw [hslots]
      split
      · rename_i hc
        rw [hc.1, hc.2, List.count_eq_zero.mpr (hfree hkey)]
        rfl
      · rfl
    · rw [hboard]
      exact Switchboard.connection?_foldl_disconnect (hfree hkey) _
  · rw [hboard]
    exact h.counted.foldl_disconnect _

/-- Connections that are known stay as they are when another one is made. -/
theorem connection?_connect {w : World (Kind U)} {kind : Kind U} {event : LifeEvent}
    (hmade : (w.connect kind event).1 = .ok k) (hkey : key < w.board.connections.size) :
    (w.connect kind event).2.board.connection? key = w.board.connection? key := by
  obtain ⟨number, hboard⟩ := World.connections_connect hmade
  rw [hboard]
  change (w.board.connections.push _)[key]? = _
  rw [Array.getElem?_push, if_neg (Nat.ne_of_lt hkey)]
  rfl

/-- A connection is made to a handler that only reads. -/
theorem wired_connect (hwf : m.world.Wf) (h : m.Wired planted) {kind : Kind U}
    {event : LifeEvent} (hmade : (m.world.connect kind event).1 = .ok k) (handler : Handler U σ)
    (hreader : handler.IsReader) :
    Wired { m with world := (m.world.connect kind event).2, handlers := m.handlers.push handler }
      planted := by
  have hslots := World.slots_connect hwf.paired hmade
  obtain ⟨number, hboard⟩ := World.connections_connect hmade
  have hlt : ∀ {key}, planted = some key → key < m.handlers.size := by
    intro key hkey
    obtain ⟨claims, id, hplanted, -⟩ := h.cascade hkey
    exact (Array.getElem?_eq_some_iff.mp hplanted.cascade).1
  have hreaders : ∀ {k : ConnectionKey} {body : Handler U σ}, planted ≠ some k →
      (m.handlers.push handler)[k]? = some body → body.IsReader := by
    intro k body hk hbody
    rw [Array.getElem?_push] at hbody
    split at hbody
    · obtain rfl := Option.some.inj hbody
      exact hreader
    · exact h.readers hk hbody
  refine
    { size := ?_
      known := fun {j other k} hk => ?_
      readers := hreaders
      cascade := fun {key} hkey => ?_
      counted := hboard ▸ h.counted.openConnection number }
  · show (m.handlers.push handler).size = (m.world.connect kind event).2.board.connections.size
    rw [hboard, Array.size_push, h.size]
    exact (Array.size_push _).symm
  · show k < (m.handlers.push handler).size
    rw [Array.size_push]
    rcases World.mem_slots_connect hwf.paired hmade hk with hk | hk
    · exact Nat.lt_succ_of_lt (h.known hk)
    · rw [hk, ← h.size]
      exact Nat.lt_succ_self _
  · obtain ⟨claims, id, hplanted, hset⟩ := h.cascade hkey
    have hold := hlt hkey
    refine ⟨claims, id, ?_, hset⟩
    refine hplanted.rewired (World.idOf?_register_of_idOf? hplanted.number) ?_
      (fun {k body} hk hbody => hreaders (fun heq => hk ?_) hbody) (fun j other => ?_)
      (connection?_connect hmade (h.size ▸ hold))
    · rw [Array.getElem?_push, if_neg (Nat.ne_of_lt hold)]
      exact hplanted.cascade
    · rw [hkey] at heq
      exact (Option.some.inj heq).symm
    · rw [show World.slots (m.world.connect kind event).2 j other = _ from hslots j other]
      split
      · have hnew : [m.world.board.connections.size].count key = 0 := by
          rw [List.count_eq_zero, List.mem_singleton, ← h.size]
          exact Nat.ne_of_lt hold
        rw [List.count_append, ← World.listeners_eq, count_listeners hplanted.active, hnew]
        rfl
      · rfl

/-- Kinds are taken into use for a cascade. -/
theorem attuned_withClaims (h : m.world.Paired) : World.Attuned m.world m.withClaims.world := by
  have hnode := World.attuned_register h (.node : Kind U)
  exact hnode.trans (World.attuned_register (hnode.paired h) .transform)

/-- A cascade is connected where there was none. -/
theorem wired_cascade (hwf : m.world.Wf) (h : m.Wired none)
    (hmade : (m.withClaims.world.connect .node .destroy).1 = .ok k) :
    Wired { m.withClaims with
      world := (m.withClaims.world.connect .node .destroy).2
      handlers := m.handlers.push (.cascade m.claims.size) } (some m.handlers.size) := by
  have hwf₂ : m.withClaims.world.Wf := (undisturbed_withClaims hwf fun _ => True).wf
  have hattuned := attuned_withClaims hwf.paired
  have hsize : m.withClaims.world.board.connections.size = m.handlers.size := by
    rw [hattuned.board, h.size]
  have hreaders : ∀ {k : ConnectionKey} {body : Handler U σ}, k ≠ m.handlers.size →
      (m.handlers.push (.cascade m.claims.size))[k]? = some body → body.IsReader := by
    intro k body hk hbody
    rw [Array.getElem?_push, if_neg hk] at hbody
    exact h.readers (Option.some_ne_none k).symm hbody
  -- nobody knew the key of the new connection
  have hfresh : ∀ j event,
      m.withClaims.world.board.connections.size ∉ m.withClaims.world.slots j event := by
    intro j event hk
    have hknown := h.known (hattuned.slots j event hk)
    rw [hsize] at hknown
    exact Nat.lt_irrefl _ hknown
  have hcount := count_listeners_connect hwf₂ hmade hfresh
  have hactive := World.isActive_connect hmade
  obtain ⟨number, hboard⟩ := World.connections_connect hmade
  rw [hsize] at hcount hactive
  refine
    { size := ?_
      known := fun {j event k} hk => ?_
      readers := fun {k body} hk hbody => hreaders (fun heq => hk (by rw [heq])) hbody
      cascade := fun {key} hkey => ?_
      counted := ?_ }
  · show (m.handlers.push _).size =
      (m.withClaims.world.connect .node .destroy).2.board.connections.size
    rw [hboard, Array.size_push, ← hsize]
    exact (Array.size_push _).symm
  · show k < (m.handlers.push _).size
    rw [Array.size_push]
    rcases World.mem_slots_connect hwf₂.paired hmade hk with hk | hk
    · exact Nat.lt_succ_of_lt (h.known (hattuned.slots j event hk))
    · rw [hk, hsize]
      exact Nat.lt_succ_self _
  · obtain rfl := Option.some.inj hkey
    refine ⟨m.claims.size, (m.withClaims.world.register .node).1, ?_, by simp [withClaims]⟩
    exact
      { number := World.idOf?_register_self m.withClaims.world .node
        cascade := by simp
        readers := hreaders
        once := (hcount _ _).trans (if_pos ⟨rfl, rfl⟩)
        elsewhere := fun {j event} hk => by
          have hpos := List.count_pos_iff.mpr hk
          by_contra hc
          have hzero := (hcount j event).trans (if_neg hc)
          exact absurd hzero (Nat.ne_of_gt hpos)
        active := hactive }
  · show Switchboard.GuardsCounted (m.withClaims.world.connect .node .destroy).2.board
    rw [hboard, hattuned.board]
    exact h.counted.openConnection number

end Machine

end EntityScene
