import Mathlib.Algebra.Group.Nat.Defs
import EntityScene.Proofs.Hookups

/-!
# Guards and the connections that they hold back

A connection counts how often it is held back, and a guard is what somebody holds for each of
these times: a script that asked for it, until it is given back, or a scope, until it is over.
That a scope is left gives its guard back as well as that it comes to its end.

- `Machine.blocking?`, `Machine.returning?`, `Machine.held`: the guards that are taken and given
  back by a step, and those that are held after some steps.
- `Switchboard.Guarded`: the counts of a switchboard are those of the guards that are held.
- `Machine.Boarding`, `boarding_of_step`: what a step does to counts and guards.
- `Machine.guarded_run`: throughout every run.
-/

namespace EntityScene

namespace Switchboard

variable {b b' : Switchboard} {key k : ConnectionKey} {guard : GuardKey}

/-! ## Edits of a switchboard -/

/-- How often a connection is held back. -/
def blocks (b : Switchboard) (key : ConnectionKey) : Nat :=
  ((b.connection? key).map (·.blocks.toNat)).getD 0

theorem blocks_eq {c : Connection} (h : b.connection? key = some c) :
    b.blocks key = c.blocks.toNat := by
  rw [blocks, h]
  rfl

/-- A guard can be released if it was handed out and not released yet. -/
theorem lt_of_held? (h : b.held? guard = some key) : guard < b.guards.size := by
  unfold held? at h
  by_contra hno
  rw [Array.getElem?_eq_none (Nat.not_lt.mp hno)] at h
  cases h

/-- Edits that leave the counts and the guards alone, and may add connections that nobody holds
back. -/
structure Unguarded (b b' : Switchboard) : Prop where
  guards : b'.guards = b.guards
  size : b.connections.size ≤ b'.connections.size
  blocks : ∀ key, b'.blocks key = b.blocks key

theorem Unguarded.refl (b : Switchboard) : Unguarded b b :=
  { guards := rfl
    size := Nat.le_refl _
    blocks := fun _ => rfl }

theorem Unguarded.trans {b'' : Switchboard} (h : Unguarded b b') (h' : Unguarded b' b'') :
    Unguarded b b'' :=
  { guards := h'.guards.trans h.guards
    size := Nat.le_trans h.size h'.size
    blocks := fun key => (h'.blocks key).trans (h.blocks key) }

theorem blocks_modify (b : Switchboard) (key : ConnectionKey) (f : Connection → Connection)
    (k : ConnectionKey) : (b.modify key f).blocks k =
      if k = key then ((b.connection? key).map fun c => (f c).blocks.toNat).getD 0
      else b.blocks k := by
  by_cases hk : k = key
  · rw [if_pos hk, hk, blocks, connection?_modify_self, Option.map_map]
    rfl
  · rw [if_neg hk, blocks, connection?_modify_other _ _ hk, blocks]

theorem unguarded_disconnect (b : Switchboard) (key : ConnectionKey) :
    Unguarded b (b.disconnect key) :=
  { guards := rfl
    size := Nat.le_of_eq (Array.size_modify ..).symm
    blocks := fun k => by
      rw [disconnect, blocks_modify]
      split
      · rename_i hk
        rw [hk]
        rfl
      · rfl }

theorem unguarded_foldl_disconnect (keys : List ConnectionKey) (b : Switchboard) :
    Unguarded b (keys.foldl (·.disconnect ·) b) := by
  induction keys generalizing b with
  | nil => exact .refl b
  | cons key keys ih => exact (unguarded_disconnect b key).trans (ih _)

/-- A new connection is not held back. -/
theorem unguarded_push {number : UInt32} (hguards : b'.guards = b.guards)
    (hconnections : b'.connections = b.connections.push { id := number }) : Unguarded b b' := by
  refine
    { guards := hguards
      size := by rw [hconnections, Array.size_push]; exact Nat.le_succ _
      blocks := fun k => ?_ }
  rw [blocks, blocks, connection?, connection?, hconnections, Array.getElem?_push]
  split
  · rename_i hk
    rw [hk, Array.getElem?_eq_none (Nat.le_refl _)]
    rfl
  · rfl

/-- A guard on a connection that there is, if one more can be counted. -/
theorem block_ok {c : Connection} (hc : b.connection? key = some c)
    (hok : (b.block key).1 = .ok b.guards.size) :
    c.blocks.toNat + 1 < UInt32.size ∧
      (b.block key).2 = { b.modify key (fun c => { c with blocks := c.blocks + 1 }) with
        guards := b.guards.push (some key) } := by
  unfold block at hok ⊢
  simp only [hc] at hok ⊢
  split at hok
  · rename_i hroom
    rw [if_pos hroom]
    exact ⟨of_decide_eq_true hroom, rfl⟩
  · cases hok

/-- A guard is taken as long as its connection can count one more. -/
theorem block_cases_blocks (b : Switchboard) (key : ConnectionKey) :
    (b.blocks key < 2 ^ 32 - 1 ∧ (b.block key).1 = .ok b.guards.size) ∨
      (b.blocks key = 2 ^ 32 - 1 ∧ b.block key = (.error .countOverflow, b)) := by
  cases hc : b.connection? key with
  | none =>
    refine .inl ⟨?_, ?_⟩
    · rw [blocks, hc]
      decide
    · rw [block, hc]
  | some c =>
    have hword : c.blocks.toNat < 2 ^ 32 := c.blocks.toNat_lt
    by_cases hroom : c.blocks.toNat + 1 < UInt32.size
    · have hyes : c.hasRoom = true := decide_eq_true hroom
      refine .inl ⟨?_, ?_⟩
      · rw [blocks_eq hc]
        exact Nat.lt_sub_of_add_lt hroom
      · simp only [block, hc, hyes, if_true]
    · have hno : c.hasRoom = false := decide_eq_false hroom
      refine .inr ⟨?_, ?_⟩
      · rw [blocks_eq hc]
        exact Nat.le_antisymm (Nat.le_sub_one_of_lt hword) (Nat.sub_le_of_le_add (Nat.not_lt.mp hroom))
      · simp only [block, hc, hno, Bool.false_eq_true, if_false]

theorem size_guards_block (hkey : key < b.connections.size)
    (hok : (b.block key).1 = .ok b.guards.size) :
    (b.block key).2.guards.size = b.guards.size + 1 := by
  obtain ⟨c, hc⟩ : ∃ c, b.connection? key = some c := ⟨_, Array.getElem?_eq_getElem hkey⟩
  rw [(block_ok hc hok).2]
  exact Array.size_push _

theorem blocks_block (hkey : key < b.connections.size)
    (hok : (b.block key).1 = .ok b.guards.size) (k : ConnectionKey) :
    (b.block key).2.blocks k = b.blocks k + if k = key then 1 else 0 := by
  obtain ⟨c, hc⟩ : ∃ c, b.connection? key = some c := ⟨_, Array.getElem?_eq_getElem hkey⟩
  obtain ⟨hroom, hblock⟩ := block_ok hc hok
  rw [hblock]
  change (b.modify key _).blocks k = _
  rw [blocks_modify]
  split
  · rename_i hk
    rw [hk, hc, blocks_eq hc]
    exact (UInt32.toNat_add c.blocks 1).trans (Nat.mod_eq_of_lt hroom)
  · rfl

theorem held?_block (hkey : key < b.connections.size)
    (hok : (b.block key).1 = .ok b.guards.size) (guard : GuardKey) :
    (b.block key).2.held? guard = if guard = b.guards.size then some key else b.held? guard := by
  obtain ⟨c, hc⟩ : ∃ c, b.connection? key = some c := ⟨_, Array.getElem?_eq_getElem hkey⟩
  rw [(block_ok hc hok).2]
  change ((b.guards.push (some key))[guard]?).join = _
  rw [Array.getElem?_push]
  split
  · rfl
  · rfl

/-- A count of guards is one less when one of them is given back. -/
theorem blocks_release (h : b.held? guard = some key) (hpos : 0 < b.blocks key)
    (k : ConnectionKey) :
    (b.release guard).2.blocks k = if k = key then b.blocks k - 1 else b.blocks k := by
  unfold release
  rw [h]
  change (b.modify key _).blocks k = _
  rw [blocks_modify]
  split
  · rename_i hk
    rw [hk]
    cases hc : b.connection? key with
    | none => rw [blocks, hc]; rfl
    | some c =>
      rw [blocks_eq hc] at hpos ⊢
      exact UInt32.toNat_sub_of_le _ _ hpos
  · rfl

theorem held?_release (b : Switchboard) (guard g : GuardKey) :
    (b.release guard).2.held? g = if g = guard then none else b.held? g := by
  unfold release
  split
  · rename_i hnone
    split
    · rename_i hg
      rw [hg, hnone]
    · rfl
  · change ((b.guards.setIfInBounds guard none)[g]?).join = _
    rw [Array.getElem?_setIfInBounds]
    by_cases hg : guard = g
    · rw [if_pos hg, if_pos hg.symm]
      split <;> rfl
    · rw [if_neg hg, if_neg (Ne.symm hg)]
      rfl

/-! ## Counts and guards agree -/

variable {taken : List (GuardKey × ConnectionKey)}

/-- The guards that are not released are those that were taken, and a connection is held back as
often as there are guards on it. -/
structure Guarded (b : Switchboard) (taken : List (GuardKey × ConnectionKey)) : Prop where
  held : ∀ guard key, b.held? guard = some key ↔ (guard, key) ∈ taken
  nodup : (taken.map (·.1)).Nodup
  lt : ∀ p ∈ taken, p.2 < b.connections.size
  blocks : ∀ key, b.blocks key = taken.countP (·.2 == key)

theorem guarded_empty : Guarded .empty [] :=
  { held := fun guard key => by simp [held?, empty]
    nodup := List.nodup_nil
    lt := fun p hp => by cases hp
    blocks := fun key => by simp [Switchboard.blocks, connection?, empty] }

theorem Guarded.unguarded (h : Guarded b taken) (hedit : Unguarded b b') : Guarded b' taken :=
  { held := fun guard key => by
      rw [held?, hedit.guards]
      exact h.held guard key
    nodup := h.nodup
    lt := fun p hp => Nat.lt_of_lt_of_le (h.lt p hp) hedit.size
    blocks := fun key => (hedit.blocks key).trans (h.blocks key) }

/-- A guard that is taken is new. -/
theorem Guarded.block (h : Guarded b taken) (hkey : key < b.connections.size)
    (hok : (b.block key).1 = .ok b.guards.size) :
    Guarded (b.block key).2 (taken ++ [(b.guards.size, key)]) := by
  have hfresh : ∀ p ∈ taken, p.1 < b.guards.size := fun p hp =>
    lt_of_held? ((h.held p.1 p.2).mpr hp)
  refine
    { held := fun guard k => ?_
      nodup := ?_
      lt := fun p hp => ?_
      blocks := fun k => ?_ }
  · rw [held?_block hkey hok, List.mem_append, List.mem_singleton, Prod.mk.injEq, ← h.held]
    split
    · rename_i hguard
      constructor
      · rintro ⟨⟩
        exact .inr ⟨hguard, rfl⟩
      · rintro (hold | ⟨-, rfl⟩)
        · exact absurd hguard (Nat.ne_of_lt (lt_of_held? hold))
        · rfl
    · rename_i hguard
      exact ⟨.inl, fun hmem => hmem.resolve_right fun heq => hguard heq.1⟩
  · rw [List.map_append, List.nodup_append']
    refine ⟨h.nodup, List.nodup_singleton _, fun guard hguard hnew => ?_⟩
    obtain ⟨p, hp, rfl⟩ := List.mem_map.mp hguard
    exact Nat.ne_of_lt (hfresh p hp) (List.mem_singleton.mp hnew)
  · rw [size_block]
    rcases List.mem_append.mp hp with hp | hp
    · exact h.lt p hp
    · rw [List.mem_singleton.mp hp]
      exact hkey
  · rw [blocks_block hkey hok, h.blocks, List.countP_append, List.countP_singleton]
    by_cases hk : k = key
    · rw [if_pos hk, if_pos (by simpa using hk.symm)]
    · rw [if_neg hk, if_neg (by simpa using Ne.symm hk)]

/-- The guards on a connection are one less when one of them is given back. -/
theorem countP_filter_ne (hnodup : (taken.map (·.1)).Nodup) (hmem : (guard, key) ∈ taken)
    (k : ConnectionKey) :
    (taken.filter (·.1 ≠ guard)).countP (·.2 == k) =
      if k = key then taken.countP (·.2 == k) - 1 else taken.countP (·.2 == k) := by
  induction taken with
  | nil => cases hmem
  | cons p taken ih =>
    obtain ⟨hp, hnodup⟩ := List.nodup_cons.mp hnodup
    rcases List.mem_cons.mp hmem with rfl | hmem
    · have hrest : taken.filter (·.1 ≠ guard) = taken :=
        List.filter_eq_self.mpr fun q hq => decide_eq_true fun heq =>
          hp (List.mem_map.mpr ⟨q, hq, heq⟩)
      rw [List.filter_cons_of_neg (by simp), hrest, List.countP_cons]
      by_cases hk : k = key
      · simp [hk]
      · simp [hk, Ne.symm hk]
    · have hne : p.1 ≠ guard := fun heq => hp (List.mem_map.mpr ⟨_, hmem, heq.symm⟩)
      rw [List.filter_cons_of_pos (by simpa using hne), List.countP_cons, List.countP_cons,
        ih hnodup hmem]
      by_cases hk : k = key
      · have hpos : 0 < taken.countP (·.2 == k) :=
          List.countP_pos_iff.mpr ⟨_, hmem, by simpa using hk.symm⟩
        rw [if_pos hk, if_pos hk]
        omega
      · rw [if_neg hk, if_neg hk]

/-- A guard that is given back is held no more. -/
theorem Guarded.release (h : Guarded b taken) (guard : GuardKey) :
    Guarded (b.release guard).2 (taken.filter (·.1 ≠ guard)) := by
  refine
    { held := fun g k => ?_
      nodup := h.nodup.sublist (List.filter_sublist.map _)
      lt := fun p hp => ?_
      blocks := fun k => ?_ }
  · rw [held?_release, List.mem_filter, ← h.held]
    by_cases hg : g = guard
    · simp [hg]
    · simp [hg]
  · rw [size_release]
    exact h.lt p (List.mem_filter.mp hp).1
  · cases hheld : b.held? guard with
    | none =>
      -- nobody holds the guard
      have hkeep : taken.filter (·.1 ≠ guard) = taken := by
        refine List.filter_eq_self.mpr fun p hp => decide_eq_true fun heq => ?_
        have hp' := (h.held p.1 p.2).mpr hp
        rw [heq, hheld] at hp'
        cases hp'
      have hsame : (b.release guard).2 = b := by rw [Switchboard.release, hheld]
      rw [hkeep, hsame, h.blocks]
    | some key =>
      have hmem := (h.held guard key).mp hheld
      have hpos : 0 < b.blocks key := by
        rw [h.blocks]
        exact List.countP_pos_iff.mpr ⟨_, hmem, beq_self_eq_true key⟩
      rw [blocks_release hheld hpos, countP_filter_ne h.nodup hmem, h.blocks]

end Switchboard

/-- A connection that is made is not held back, and where none is made the switchboard stays. -/
theorem World.unguarded_connect {K : Type} [ComponentFamily K] [DecidableEq K] (w : World K)
    (kind : K) (event : LifeEvent) :
    Switchboard.Unguarded w.board (w.connect kind event).2.board := by
  cases hmade : (w.connect kind event).1 with
  | ok key =>
    obtain ⟨number, hboard⟩ := World.connections_connect hmade
    rw [hboard]
    exact Switchboard.unguarded_push rfl rfl
  | error cause =>
    rw [(World.connect_error hmade).2, (World.tuned_snapshot _ _ _).board]
    exact .refl _

namespace Machine

variable {U σ : Type} [SceneFamily U] {m m' : Machine U σ} {n : Nat}

/-! ## Guards over a run -/

/-- The connection on which the next step takes a guard, for a script or for a scope. A step
that cannot count one more takes none. -/
def blocking? (m : Machine U σ) : Option ConnectionKey :=
  match m.control with
  | .run (.call (.block key) _) | .run (.blocked key _ _) =>
    (m.world.board.block key).1.toOption.map fun _ => key
  | _ => none

/-- The guard that the next step gives back: a script does so, or the scope that holds it comes to
its end or is left. -/
def returning? (m : Machine U σ) : Option GuardKey :=
  match m.control, m.stack with
  | .run (.call (.release guard) _), _ => some guard
  | .reply _, .blocked guard _ :: _ | .unwind _, .blocked guard _ :: _ => some guard
  | _, _ => none

variable [DecidableEq U]

/-- The guards that are held after some steps, each with the connection that it is on. -/
def held (m : Machine U σ) : Nat → List (GuardKey × ConnectionKey)
  | 0 => []
  | n + 1 =>
    (m.held n).filter (fun p => (m.run n).returning? ≠ some p.1) ++
      (m.run n).blocking?.toList.map ((m.run n).world.board.guards.size, ·)

/-- What a step does to the guards on a switchboard. -/
inductive Boarding (m m' : Machine U σ) : Prop
  /-- No guard is taken or given back. -/
  | kept (blocking : m.blocking? = none) (returning : m.returning? = none)
      (board : Switchboard.Unguarded m.world.board m'.world.board)
  /-- A guard is taken. -/
  | blocked (key : ConnectionKey) (blocking : m.blocking? = some key)
      (returning : m.returning? = none)
      (taken : (m.world.board.block key).1 = .ok m.world.board.guards.size)
      (board : m'.world.board = (m.world.board.block key).2)
  /-- A guard is given back. -/
  | released (guard : GuardKey) (blocking : m.blocking? = none)
      (returning : m.returning? = some guard)
      (board : m'.world.board = (m.world.board.release guard).2)

omit [DecidableEq U] in
theorem Boarding.of_board (blocking : m.blocking? = none) (returning : m.returning? = none)
    (board : m'.world.board = m.world.board) : Boarding m m' :=
  .kept blocking returning (board ▸ .refl _)

omit [DecidableEq U] in
/-- A guard that is asked for is taken, or the count of guards has no room for it. -/
theorem Boarding.of_block (key : ConnectionKey)
    (blocking : m.blocking? = (m.world.board.block key).1.toOption.map fun _ => key)
    (returning : m.returning? = none)
    (board : m'.world.board = (m.world.board.block key).2) : Boarding m m' := by
  rcases m.world.board.block_cases key with htaken | hfull
  · exact .blocked key (by rw [blocking, htaken]; rfl) returning htaken board
  · exact .of_board (by rw [blocking, hfull]; rfl) returning (by rw [board, hfull])

theorem boarding_call (hpaired : m.world.Paired) {c : Call U} {next : c.Reply → Script U σ}
    (hcall : m.control = .run (.call c next)) : Boarding m (m.call c next) := by
  cases h : c.rewires with
  | false =>
    obtain ⟨-, ha⟩ := attuned_call hpaired next h
    refine .of_board ?_ ?_ ha.board
    · cases c with
      | block key => cases h
      | _ => simp only [blocking?, hcall]
    · cases c with
      | release guard => cases h
      | _ => simp only [returning?, hcall]
  | true =>
    cases c with
    | disconnect key =>
      exact .kept (by simp only [blocking?, hcall]) (by simp only [returning?, hcall])
        (Switchboard.unguarded_disconnect _ key)
    | block key =>
      exact .of_block _ (by simp only [blocking?, hcall]) (by simp only [returning?, hcall])
        (congrArg World.board (over_block m key next).world)
    | release guard =>
      exact .released guard (by simp only [blocking?, hcall]) (by simp only [returning?, hcall]) rfl
    | disconnectAll kind event =>
      refine .kept (by simp only [blocking?, hcall]) (by simp only [returning?, hcall]) ?_
      show Switchboard.Unguarded _ (m.world.disconnectAll kind event).board
      rw [World.board_disconnectAll hpaired]
      exact Switchboard.unguarded_foldl_disconnect _ _
    | _ => cases h

theorem boarding_runScript (hpaired : m.world.Paired) {script : Script U σ}
    (hcall : m.control = .run script) : Boarding m (m.runScript script) := by
  cases script with
  | call c next => exact boarding_call hpaired hcall
  | connect kind event handler next =>
    refine .kept (by simp only [blocking?, hcall]) (by simp only [returning?, hcall]) ?_
    rw [(over_connect m kind event handler next).world]
    exact World.unguarded_connect m.world kind event
  | cascade next =>
    refine .kept (by simp only [blocking?, hcall]) (by simp only [returning?, hcall]) ?_
    have hclaims : m.withClaims.world.board = m.world.board := rfl
    rw [(over_cascade m next).world, ← hclaims]
    exact World.unguarded_connect m.withClaims.world .node .destroy
  | blocked key body next =>
    exact .of_block key (by simp only [blocking?, hcall]) (by simp only [returning?, hcall])
      (congrArg World.board (world_runScript_blocked ..))
  | _ =>
    exact .of_board (by simp only [blocking?, hcall]) (by simp only [returning?, hcall]) rfl

omit [DecidableEq U] in
/-- A frame on top that holds no guard gives none back. -/
theorem returning?_of_ne {frame : Frame U σ} {rest : List (Frame U σ)}
    (hstack : m.stack = frame :: rest) (hframe : ∀ guard next, frame ≠ .blocked guard next)
    (hrun : ∀ script, m.control ≠ .run script) : m.returning? = none := by
  unfold returning?
  split
  · exact absurd (by assumption) (hrun _)
  · rename_i hs
    rw [hstack] at hs
    exact absurd (List.cons.inj hs).1 (hframe _ _)
  · rename_i hs
    rw [hstack] at hs
    exact absurd (List.cons.inj hs).1 (hframe _ _)
  · rfl

/-- What every step does to the guards on the switchboard. -/
theorem boarding_of_step (hpaired : m.world.Paired) (h : m.step = some m') : Boarding m m' := by
  cases stepped_of_step h with
  | run script hcall => exact boarding_runScript hpaired hcall
  | publish id event e hcall =>
    exact .of_board (by simp only [blocking?, hcall]) (by simp only [returning?, hcall])
      (World.tuned_snapshot _ _ _).board
  | invoke key e hcall =>
    exact .of_board (by simp only [blocking?, hcall]) (by simp only [returning?, hcall])
      (attuned_invoke m key e).2.board
  | destroy e hcall =>
    refine .of_board (by simp only [blocking?, hcall]) (by simp only [returning?, hcall]) ?_
    simp only [destroy]
    split
    · exact (tuned_tearDown { m with
        world := { m.world with entities := (m.world.entities.beginDestroy e).2 } } e 0).2.board
    · rfl
  | announce id e hcall =>
    refine .of_board (by simp only [blocking?, hcall]) (by simp only [returning?, hcall]) ?_
    unfold announce
    split <;> rfl
  | reply b frame rest hcall hstack =>
    have hblocking : m.blocking? = none := by simp only [blocking?, hcall]
    by_cases hframe : ∃ guard next, frame = .blocked guard next
    · obtain ⟨guard, next, rfl⟩ := hframe
      exact .released guard hblocking (by simp only [returning?, hcall, hstack]) rfl
    · have hother : ∀ guard next, frame ≠ .blocked guard next :=
        fun guard next hc => hframe ⟨guard, next, hc⟩
      exact .of_board hblocking
        (returning?_of_ne hstack hother fun script hc => by rw [hcall] at hc; cases hc)
        (attuned_resume (m := { m with stack := rest }) hother b).2.board
  | unwind cause frame rest hcall hstack =>
    have hblocking : m.blocking? = none := by simp only [blocking?, hcall]
    by_cases hframe : ∃ guard next, frame = .blocked guard next
    · obtain ⟨guard, next, rfl⟩ := hframe
      exact .released guard hblocking (by simp only [returning?, hcall, hstack]) rfl
    · have hother : ∀ guard next, frame ≠ .blocked guard next :=
        fun guard next hc => hframe ⟨guard, next, hc⟩
      refine .of_board hblocking
        (returning?_of_ne hstack hother fun script hc => by rw [hcall] at hc; cases hc) ?_
      cases frame with
      | blocked guard next => exact absurd rfl (hother guard next)
      | _ => rfl

/-- A machine that is done takes no guard and gives none back. -/
theorem held_succ_of_done (h : (m.run n).step = none) : m.held (n + 1) = m.held n := by
  obtain ⟨hnil, hdone⟩ := (step_eq_none_iff _).mp h
  have hblocking : (m.run n).blocking? = none := by
    rcases hdone with ⟨b, hc⟩ | ⟨cause, hc⟩
    · simp only [blocking?, hc]
    · simp only [blocking?, hc]
  have hreturning : (m.run n).returning? = none := by
    rcases hdone with ⟨b, hc⟩ | ⟨cause, hc⟩
    · simp only [returning?, hc, hnil]
    · simp only [returning?, hc, hnil]
  simp [held, hblocking, hreturning]

/-- The first `n` steps hold back connections that there are. -/
def Minding (m : Machine U σ) (n : Nat) : Prop :=
  ∀ k < n, ∀ key, (m.run k).blocking? = some key → key < (m.run k).world.board.connections.size

/-- Throughout every run a connection is held back as often as there are guards on it. -/
theorem guarded_run (host : σ) (script : Script U σ) (h : (start host script).Minding n) :
    ((start host script).run n).world.board.Guarded ((start host script).held n) := by
  induction n with
  | zero => exact Switchboard.guarded_empty
  | succ n ih =>
    have hguarded := ih fun k hk => h k (Nat.lt_succ_of_lt hk)
    cases hstep : ((start host script).run n).step with
    | none =>
      rw [held_succ_of_done hstep, run_succ, hstep]
      exact hguarded
    | some m' =>
      rw [run_succ_of_run_step hstep]
      cases boarding_of_step (hooked_run host script n).paired hstep with
      | kept blocking returning board =>
        simpa [held, blocking, returning] using hguarded.unguarded board
      | blocked key blocking returning taken board =>
        rw [board]
        simpa [held, blocking, returning] using
          hguarded.block (h n (Nat.lt_succ_self n) key blocking) taken
      | released guard blocking returning board =>
        rw [board]
        simpa [held, blocking, returning, eq_comm] using hguarded.release guard

/-- Whoever holds a guard is a scope that goes on, or a script that asked for it. -/
theorem holder_of_mem_held {p : GuardKey × ConnectionKey} (h : p ∈ m.held n) :
    (∃ next, .blocked p.1 next ∈ (m.run n).stack) ∨
      ∃ k < n, (∃ next, (m.run k).control = .run (.call (.block p.2) next)) ∧
        (m.run k).world.board.guards.size = p.1 := by
  induction n with
  | zero => cases h
  | succ n ih =>
    rcases List.mem_append.mp h with hold | hnew
    · obtain ⟨hold, hkept⟩ := List.mem_filter.mp hold
      rcases ih hold with ⟨next, hframe⟩ | ⟨k, hk, hcall⟩
      · -- a scope that is over has given its guard back
        refine .inl ⟨next, ?_⟩
        rcases run_succ_cases m n with heq | hstep
        · rw [heq]
          exact hframe
        · rcases (turn_of_step hstep).suffix_or_told with
            hsuf | ⟨frame, rest, hstack, hsuf, htold⟩
          · exact hsuf.subset hframe
          · rw [hstack] at hframe
            rcases List.mem_cons.mp hframe with rfl | hframe
            · refine absurd ?_ (of_decide_eq_true hkept)
              rcases htold with ⟨b, hc, -⟩ | ⟨cause, hc, -⟩
              · simp only [returning?, hc, hstack]
              · simp only [returning?, hc, hstack]
            · exact hsuf.subset hframe
      · exact .inr ⟨k, Nat.lt_succ_of_lt hk, hcall⟩
    · obtain ⟨key, hkey, rfl⟩ := List.mem_map.mp hnew
      have hblocking := Option.mem_toList.mp hkey
      unfold blocking? at hblocking
      split at hblocking
      · rename_i hcall
        obtain ⟨guard, -, rfl⟩ := Option.map_eq_some_iff.mp hblocking
        exact .inr ⟨n, Nat.lt_succ_self n, ⟨_, hcall⟩, rfl⟩
      · rename_i connection body next hcall
        obtain ⟨guard, htaken, rfl⟩ := Option.map_eq_some_iff.mp hblocking
        refine .inl ⟨next, ?_⟩
        have hstep : (m.run n).step =
            some ((m.run n).runScript (.blocked connection body next)) := by
          rw [step, hcall]
        rw [run_succ_of_run_step hstep]
        rcases (m.run n).world.board.block_cases connection with hblock | hblock
        · simp only [runScript, hblock]
          exact List.mem_cons_self
        · rw [hblock] at htaken
          cases htaken
      · cases hblocking

end Machine

end EntityScene
