import EntityScene.Proofs.Numbering
import EntityScene.Proofs.Turnover

/-!
# Every pool is reached

The pools are addressed by number: by dispatches, announcements and destructions that wait on the
stack while handlers take more kinds into use, and by a destruction that counts its way through all
of them. No number is ever out of range, since a number that waits was in range when it was put
there and pools do not go away. And the count of a destruction ends where the pools end at that
time, so it has been to every pool, also to those that came after it began.

- `Machine.InRange`: whoever has the turn, and whoever waits, names a pool that is there.
- `inRange_of_step`, `inRange_run`: so it is throughout every run.
- `Machine.stations`: the pools that a destruction goes to, in order.
- `EnRoute`, `EnRoute.of_step`, `stations_of_answered`: a destruction on its way through the pools.
- `kinds_and_pools_stay_in_step`: numbers, pools and storages on every run.
-/

namespace EntityScene

/-! ## Worlds that grow -/

namespace Catalog

variable {K : Type} [DecidableEq K]

theorem size_le_register (c : Catalog K) (kind : K) : c.size ≤ (c.register kind).2.size := by
  cases hid : c.idOf? kind with
  | some id => rw [register_of_idOf? hid]
  | none =>
    rw [register_of_idOf?_eq_none hid, size, size, Array.size_push]
    exact Nat.le_succ _

theorem size_le_registerEach (c : Catalog K) (kinds : List K) :
    c.size ≤ (c.registerEach kinds).size := by
  induction kinds generalizing c with
  | nil => exact Nat.le_refl _
  | cons kind kinds ih => exact Nat.le_trans (size_le_register c kind) (ih _)

end Catalog

variable {U σ : Type} [SceneFamily U] [DecidableEq U]

/-- No pool goes away, and no number that was handed out. -/
structure World.Onward (w w' : World (Kind U)) : Prop where
  size : w.pools.size ≤ w'.pools.size
  idOf? : ∀ {kind : Kind U} {id : ComponentId}, w.idOf? kind = some id → w'.idOf? kind = some id

namespace Machine

variable {m m' : Machine U σ}

/-- The world of a machine only grows. -/
theorem onward_of_step (h : m.world.InStep) (hstep : m.step = some m') :
    m.world.Onward m'.world := by
  have hcatalog := catalog_of_step hstep
  constructor
  · rw [h.paired, (inStep_of_step h hstep).paired, hcatalog]
    exact Catalog.size_le_registerEach _ _
  · intro kind id hid
    rw [World.idOf?, hcatalog]
    exact Catalog.idOf?_registerEach hid _

end Machine

/-! ## Numbers that are in range -/

omit [DecidableEq U] in
/-- What has the turn names a pool that is there, if it names any. -/
def Control.InRange (w : World (Kind U)) : Control U σ → Prop
  | .publish id _ _ | .announce id _ => id < w.pools.size
  | _ => True

/-- What waits names a pool that is there, if it names any. -/
def Frame.InRange (w : World (Kind U)) : Frame U σ → Prop
  | .dispatch id _ _ _ | .removal id _ | .teardown _ id => id < w.pools.size
  | .taking kind _ _ => ∃ id, w.idOf? kind = some id
  | _ => True

theorem Frame.InRange.mono {w w' : World (Kind U)} (hw : w.Onward w') {frame : Frame U σ}
    (h : frame.InRange w) : frame.InRange w' := by
  cases frame with
  | dispatch id event e keys => exact Nat.lt_of_lt_of_le h hw.size
  | removal id e => exact Nat.lt_of_lt_of_le h hw.size
  | teardown e id => exact Nat.lt_of_lt_of_le h hw.size
  | taking kind e next =>
    obtain ⟨id, hid⟩ := h
    exact ⟨id, hw.idOf? hid⟩
  | _ => trivial

namespace Machine

variable {m m' : Machine U σ}

/-- Whoever has the turn, and whoever waits, names a pool that is there. -/
structure InRange (m : Machine U σ) : Prop where
  control : m.control.InRange m.world
  stack : ∀ frame ∈ m.stack, frame.InRange m.world

/-- What comes onto the stack, and what is done next, names a pool that is there. -/
def Aims (m m' : Machine U σ) : Prop :=
  ∃ new, m'.stack = new ++ m.stack ∧ (∀ frame ∈ new, frame.InRange m'.world) ∧
    m'.control.InRange m'.world

theorem Aims.stay (stack : m'.stack = m.stack) (control : m'.control.InRange m'.world) :
    Aims m m' :=
  ⟨[], stack, fun _ hf => (List.not_mem_nil hf).elim, control⟩

theorem Aims.push (frame : Frame U σ) (stack : m'.stack = frame :: m.stack)
    (hframe : frame.InRange m'.world) (control : m'.control.InRange m'.world) : Aims m m' :=
  ⟨[frame], stack, fun f hf => by rw [List.mem_singleton.mp hf]; exact hframe, control⟩

/-- A call that is over names no pool. -/
theorem Aims.of_over {w : World (Kind U)} (h : Over m m' w) : Aims m m' := by
  refine .stay h.stack ?_
  rcases h.control with ⟨script, hc⟩ | ⟨cause, hc⟩
  · rw [hc]
    trivial
  · rw [hc]
    trivial

theorem Aims.inRange (h : Aims m m') (hstack : ∀ frame ∈ m.stack, frame.InRange m'.world) :
    m'.InRange := by
  obtain ⟨new, heq, hnew, hcontrol⟩ := h
  refine ⟨hcontrol, fun frame hframe => ?_⟩
  rw [heq] at hframe
  rcases List.mem_append.mp hframe with hf | hf
  · exact hnew frame hf
  · exact hstack frame hf

/-- A patch is published under the number of its kind. -/
theorem aims_patch? (h : m.world.InStep) {kind : Kind U} {e : Entity}
    {f : Value kind → Value kind} {frame : Frame U σ} (hp : m.patch? kind e f frame = some m')
    (hframe : ∀ w, frame.InRange w) : Aims m m' := by
  obtain ⟨id, v, hid, -, rfl⟩ := patch?_eq_some hp
  have hedited : (m.world.edit kind e f).idOf? kind = some id := by
    rw [(World.tuned_edit m.world kind e f).idOf?]
    exact hid
  exact .push frame rfl (hframe _) ((World.inStep_edit h kind e f).lt_size hedited)

theorem aims_call (h : m.world.InStep) (c : Call U) (next : c.Reply → Script U σ) :
    Aims m (m.call c next) := by
  cases c with
  | create =>
    simp only [call]
    split
    · exact .stay rfl trivial
    · exact .stay rfl trivial
  | destroy e => exact .push (.resume next) rfl trivial trivial
  | emplace kind e make =>
    simp only [call]
    split
    · split
      · exact .stay rfl trivial
      · exact .stay rfl trivial
      · have hid := World.idOf?_register_self m.world kind
        rw [World.idOf?, ← World.catalog_place m.world kind e make] at hid
        refine .push (.resume _) rfl trivial ?_
        show (World.idOf? _ kind).getD 0 < _
        rw [World.idOf?, hid]
        exact (World.inStep_place h kind e make).lt_size hid
    · exact .stay rfl trivial
  | patch kind e f =>
    cases hp : m.patch? kind e f (.resume fun _ => next true) with
    | none =>
      simp only [call, hp, Option.getD_none]
      exact .stay rfl trivial
    | some m' =>
      simp only [call, hp, Option.getD_some]
      exact aims_patch? h hp fun _ => trivial
  | take kind e =>
    simp only [call]
    split
    · rename_i id hid _
      exact .push (.taking kind e next) rfl ⟨id, hid⟩ (h.lt_size hid)
    · exact .stay rfl trivial
  | fetchEdit e kinds f =>
    simp only [call]
    split
    · exact .stay rfl trivial
    · exact .stay rfl trivial
  | block key => exact .of_over (m.over_block key next)
  | _ => exact .stay rfl trivial

theorem aims_runScript (h : m.world.InStep) (script : Script U σ) : Aims m (m.runScript script) := by
  cases script with
  | call c next => exact aims_call h c next
  | attempt body next => exact .push (.attempt next) rfl trivial trivial
  | blocked connection body next =>
    rcases m.runScript_blocked_cases connection body next with hnext | hnext
    · rw [hnext]
      exact .push (.blocked _ next) rfl trivial trivial
    · rw [hnext]
      exact .stay rfl trivial
  | connect kind event handler next => exact .of_over (m.over_connect kind event handler next)
  | cascade next => exact .of_over (m := m.withClaims) (m.over_cascade next)
  | _ => exact .stay rfl trivial

theorem aims_invoke (h : m.world.InStep) (key : ConnectionKey) (e : Entity) :
    Aims m (m.invoke key e) := by
  unfold invoke
  split
  · exact .stay rfl trivial
  · rename_i claims _
    unfold startCascade
    split
    · exact .stay rfl trivial
    · cases hp : (m.world.validParentOf? e).bind fun parent =>
          m.patch? .node parent (fun node => TreeNode.dropChild node e) (.unlinking claims e) with
      | none =>
        simp only [hp, Option.getD_none]
        exact .push (.unlinking claims e) rfl trivial trivial
      | some m' =>
        obtain ⟨parent, -, hpatch⟩ := Option.bind_eq_some_iff.mp hp
        simp only [hp, Option.getD_some]
        exact aims_patch? h hpatch fun _ => trivial
  · exact .stay rfl trivial

/-- A destruction asks whether there is such a pool before it goes there. -/
theorem aims_tearDown (m : Machine U σ) (e : Entity) (id : ComponentId) :
    Aims m (m.tearDown e id) := by
  unfold tearDown
  split
  · rename_i hlt
    exact .push (.teardown e id) rfl hlt hlt
  · exact .stay rfl trivial

theorem aims_resume {frame : Frame U σ} (hframe : frame.InRange m.world) (b : Bool) :
    Aims m (m.resume frame b) := by
  cases frame with
  | dispatch id event e keys =>
    cases keys with
    | nil => exact .stay rfl trivial
    | cons key keys =>
      refine .push (.dispatch id event e keys) rfl hframe ?_
      simp only [resume, await]
      split <;> trivial
  | teardown e id =>
    rcases m.resume_teardown_cases e id b with ⟨-, hnext⟩ | ⟨cause, -, -, hnext⟩
    · rw [hnext]
      exact aims_tearDown { m with world := if b then m.world.erase id e else m.world } e (id + 1)
    · rw [hnext]
      exact .stay rfl trivial
  | taking kind e next => exact .of_over (m.over_taking e next b)
  | unlinking claims e =>
    simp only [resume, cascadeOn]
    cases (m.claim claims (e :: m.world.descendants e)).1 with
    | nil => exact .stay rfl trivial
    | cons x ahead => exact .push (.cascade claims _ _) rfl trivial trivial
  | cascade claims past ahead =>
    cases ahead with
    | nil => exact .stay rfl trivial
    | cons x ahead => exact .push (.cascade claims _ _) rfl trivial trivial
  | _ => exact .stay rfl trivial

/-- No step names a pool that is not there. -/
theorem inRange_of_step (h : m.InRange) (hw : m.world.InStep) (hstep : m.step = some m') :
    m'.InRange := by
  have hgrown := onward_of_step hw hstep
  have hkept : ∀ frame ∈ m.stack, frame.InRange m'.world :=
    fun frame hframe => (h.stack frame hframe).mono hgrown
  cases stepped_of_step hstep with
  | run script call => exact (aims_runScript hw script).inRange hkept
  | publish id event e call =>
    have hid := h.control
    rw [call] at hid
    have haims : Aims m (m.publish id event e) :=
      .push (.dispatch id event e _) rfl (Nat.lt_of_lt_of_le hid hgrown.size) trivial
    exact haims.inRange hkept
  | invoke key e call => exact (aims_invoke hw key e).inRange hkept
  | destroy e call =>
    have haims : Aims m (m.destroy e) := by
      simp only [destroy]
      split
      · exact aims_tearDown _ e 0
      · exact .stay rfl trivial
    exact haims.inRange hkept
  | announce id e call =>
    have hid := h.control
    rw [call] at hid
    have haims : Aims m (m.announce id e) := by
      unfold announce
      split
      · exact .stay rfl trivial
      · exact .push (.removal id e) rfl hid hid
    exact haims.inRange hkept
  | reply b frame stack call before =>
    rw [before] at hkept
    have hframe := h.stack frame (before ▸ List.mem_cons_self)
    exact (aims_resume (m := { m with stack }) hframe b).inRange fun f hf =>
      hkept f (List.mem_cons_of_mem _ hf)
  | unwind cause frame stack call before =>
    rw [before] at hkept
    refine ⟨?_, fun f hf => ?_⟩
    · cases frame with
      | attempt next => trivial
      | _ =>
        show m.control.InRange _
        rw [call]
        trivial
    · rw [stack_abandon] at hf
      exact hkept f (List.mem_cons_of_mem _ hf)

theorem inRange_run (host : σ) (script : Script U σ) (n : Nat) :
    ((start host script).run n).InRange := by
  induction n with
  | zero => exact ⟨trivial, fun _ hf => (List.not_mem_nil hf).elim⟩
  | succ n ih =>
    rcases run_succ_cases (start host script) n with heq | hstep
    · rw [heq]
      exact ih
    · exact inRange_of_step ih (inStep_run host script n) hstep

/-! ## The way of a destruction -/

/-- The pool that the next step goes to for an entity, if it does so at the given depth. -/
def station (m : Machine U σ) (e : Entity) (depth : Nat) : List ComponentId :=
  match m.control with
  | .announce id x => if x = e ∧ m.stack.length = depth then [id] else []
  | _ => []

/-- The pools that a destruction, which is asked for at the first step, goes to before the second:
it asks for announcements right above whatever waits for its end. -/
def stations (m : Machine U σ) (e : Entity) (i j : Nat) : List ComponentId :=
  (List.range' (i + 1) (j - (i + 1))).flatMap fun k =>
    (m.run k).station e ((m.run i).stack.length + 1)

theorem stations_succ (m : Machine U σ) (e : Entity) {i j : Nat} (hij : i < j) :
    m.stations e i (j + 1) =
      m.stations e i j ++ (m.run j).station e ((m.run i).stack.length + 1) := by
  obtain ⟨d, rfl⟩ := Nat.exists_eq_add_of_le (Nat.succ_le_of_lt hij)
  have hnow : i + 1 + d + 1 - (i + 1) = d + 1 := by omega
  have hbefore : i + 1 + d - (i + 1) = d := by omega
  rw [stations, stations, hnow, hbefore, List.range'_1_concat, List.flatMap_append,
    List.flatMap_singleton]

/-- A destruction above the given stack has been to the pools in the list. -/
inductive EnRoute (e : Entity) (base : List (Frame U σ)) (past : List ComponentId)
    (m : Machine U σ) : Prop
  /-- It goes to the next pool. -/
  | calling (id : ComponentId) (stack : m.stack = .teardown e id :: base)
      (control : m.control = .announce id e) (past : past = List.range id)
  /-- The announcement there is under way. -/
  | staying (id : ComponentId) (stack : .removal id e :: .teardown e id :: base <:+ m.stack)
      (past : past = List.range (id + 1))
  /-- It hears how that went. -/
  | leaving (id : ComponentId) (stack : m.stack = .teardown e id :: base)
      (control : (∃ b, m.control = .reply b) ∨ ∃ cause, m.control = .unwind cause)
      (past : past = List.range (id + 1))

/-- A destruction above the given stack is over: it has been to all pools, or was left. -/
inductive Arrived (base : List (Frame U σ)) (past : List ComponentId) (m : Machine U σ) : Prop
  | answered (stack : m.stack = base) (control : m.control = .reply true)
      (past : past = List.range m.world.pools.size)
  | left (cause : Abort) (stack : m.stack = base) (control : m.control = .unwind cause)

variable {e : Entity} {base : List (Frame U σ)} {past : List ComponentId}

omit [DecidableEq U] in
/-- A destruction that has been to the pools before one of them goes there, or is over. -/
theorem enRoute_of_tornDown {w : World (Kind U)} {id : ComponentId}
    (torn : TornDown w e id base m) (hid : id ≤ w.pools.size) :
    EnRoute e base (List.range id) m ∨ Arrived base (List.range id) m := by
  cases torn with
  | next pool world stack control => exact .inl (.calling id stack control rfl)
  | last pool world stack control =>
    refine .inr (.answered stack control ?_)
    rw [world, Nat.le_antisymm hid pool]

omit [DecidableEq U] in
/-- The destruction waits above the stack. -/
theorem EnRoute.stack_ne (h : EnRoute e base past m) : m.stack ≠ base := by
  intro hstack
  have hlen := congrArg List.length hstack
  cases h with
  | calling id stack control past =>
    rw [stack, List.length_cons] at hlen
    omega
  | staying id stack past =>
    have hle := stack.length_le
    simp only [List.length_cons] at hle
    omega
  | leaving id stack control past =>
    rw [stack, List.length_cons] at hlen
    omega

omit [DecidableEq U] in
/-- Nobody else goes to a pool while the announcement lies on the stack. -/
theorem station_of_suffix {id : ComponentId} {f : Frame U σ}
    (h : .removal id e :: f :: base <:+ m.stack) : m.station e (base.length + 1) = [] := by
  have hlen := h.length_le
  simp only [List.length_cons] at hlen
  unfold station
  split
  · exact if_neg fun hc => by omega
  · rfl

/-- Step by step a destruction goes from pool to pool, until it is over. -/
theorem EnRoute.of_step (h : EnRoute e base past m) (hin : m.InRange) (hstep : m.step = some m') :
    EnRoute e base (past ++ m.station e (base.length + 1)) m' ∨
      Arrived base (past ++ m.station e (base.length + 1)) m' := by
  cases h with
  | calling id stack control past =>
    have hstation : m.station e (base.length + 1) = [id] := by
      simp [station, control, stack]
    rw [hstation, past, ← List.range_succ]
    simp only [step, control, Option.some.injEq] at hstep
    subst hstep
    unfold announce
    split
    · exact .inl (.leaving id stack (.inl ⟨false, rfl⟩) rfl)
    · exact .inl (.staying id (by rw [← stack]; exact List.suffix_rfl) rfl)
  | staying id stack past =>
    rw [station_of_suffix stack, List.append_nil, past]
    by_cases hkept : .removal id e :: .teardown e id :: base <:+ m'.stack
    · exact .inl (.staying id hkept rfl)
    · -- the announcement that goes tells the destruction
      obtain ⟨hstack, ⟨b, hcall, rfl⟩ | ⟨cause, hcall, rfl⟩⟩ := told_of_gone hstep stack hkept
      · exact .inl (.leaving id rfl (.inl ⟨true, rfl⟩) rfl)
      · exact .inl (.leaving id rfl (.inr ⟨cause, hcall⟩) rfl)
  | leaving id stack control past =>
    have hlt : id < m.world.pools.size := hin.stack (.teardown e id) (stack ▸ List.mem_cons_self)
    rcases control with ⟨b, hcall⟩ | ⟨cause, hcall⟩
    · have hstation : m.station e (base.length + 1) = [] := by simp [station, hcall]
      rw [hstation, List.append_nil, past]
      rw [step_of_reply hcall stack] at hstep
      obtain rfl := Option.some.inj hstep
      rcases resume_teardown_cases { m with stack := base } e id b with
        ⟨-, hnext⟩ | ⟨cause, -, -, hnext⟩
      · have hsize : id + 1 ≤ (if b then m.world.erase id e else m.world).pools.size := by
          cases b with
          | true =>
            rw [if_pos rfl, World.size_pools_erase]
            exact hlt
          | false => exact hlt
        rw [hnext]
        exact enRoute_of_tornDown (tornDown_tearDown
          { m with stack := base, world := if b then m.world.erase id e else m.world } e (id + 1))
          hsize
      · -- a row that is not there cannot be taken out
        rw [hnext]
        exact .inr (.left cause rfl rfl)
    · simp only [step, hcall, stack, Option.some.injEq] at hstep
      subst hstep
      exact .inr (.left cause rfl rfl)

/-- A destruction that is accepted sets out. -/
theorem enRoute_of_accepted (haccepted : m.accepted? = some e) (hstep : m.step = some m') :
    EnRoute e m.stack [] m' ∨ Arrived m.stack [] m' := by
  obtain ⟨hcall, haccepts⟩ := accepted?_eq_some haccepted
  simp only [step, hcall, Option.some.injEq] at hstep
  subst hstep
  exact enRoute_of_tornDown (tornDown_destroy m (World.state?_of_accepts haccepts)) (Nat.zero_le _)

omit [DecidableEq U] in
theorem Arrived.stack_eq (h : Arrived base past m) : m.stack = base := by
  cases h with
  | answered stack control past => exact stack
  | left cause stack control => exact stack

/-- What is asked for and not answered yet has something waiting for it, so there is another step. -/
theorem Answered.exists_step {i j k : Nat} {b : Bool} (h : m.Answered i j b) (hik : i < k)
    (hkj : k < j) : ∃ m', (m.run k).step = some m' := by
  have habove := h.during k hik hkj
  cases hstep : (m.run k).step with
  | some m' => exact ⟨m', rfl⟩
  | none =>
    rw [((step_eq_none_iff _).mp hstep).1] at habove
    exact absurd habove (Nat.not_lt_zero _)

/-- Up to its answer a destruction that was accepted is on its way. -/
theorem enRoute_or_arrived (hin : ∀ k, (m.run k).InRange) {i j : Nat} {b : Bool}
    (haccepted : (m.run i).accepted? = some e) (hanswered : m.Answered i j b) {k : Nat}
    (hik : i < k) (hkj : k ≤ j) :
    EnRoute e (m.run i).stack (m.stations e i k) (m.run k) ∨
      Arrived (m.run i).stack (m.stations e i k) (m.run k) := by
  induction k, hik using Nat.le_induction with
  | base =>
    have hstep : (m.run i).step = some ((m.run i).destroy e) := by
      simp only [step, (accepted?_eq_some haccepted).1]
    have hnone : m.stations e i (i + 1) = [] := by simp [stations]
    rw [run_succ_of_run_step hstep, hnone]
    exact enRoute_of_accepted haccepted hstep
  | succ k hik ih =>
    obtain ⟨m', hstep⟩ := hanswered.exists_step hik hkj
    rcases ih (Nat.le_of_lt hkj) with hroute | harrived
    · rw [stations_succ m e hik, run_succ_of_run_step hstep]
      exact hroute.of_step (hin k) hstep
    · -- nothing lies above the stack any more, but the answer is still to come
      have habove := hanswered.during k hik hkj
      rw [harrived.stack_eq] at habove
      exact absurd habove (Nat.lt_irrefl _)

/-- A destruction that is answered has been to all pools that there are at that time, one after
the other and once to each. -/
theorem stations_of_answered (hin : ∀ k, (m.run k).InRange) {i j : Nat} {b : Bool}
    (haccepted : (m.run i).accepted? = some e) (hanswered : m.Answered i j b) :
    b = true ∧ m.stations e i j = List.range (m.run j).world.pools.size := by
  rcases enRoute_or_arrived hin haccepted hanswered hanswered.lt (Nat.le_refl j) with
    hroute | harrived
  · exact absurd hanswered.stack hroute.stack_ne
  · cases harrived with
    | answered stack control past =>
      rw [hanswered.control, Control.reply.injEq] at control
      exact ⟨control, past⟩
    | left cause stack control =>
      rw [hanswered.control] at control
      cases control

/-- Whoever registers a kind is told the number that the kind has from then on. -/
theorem number_of_register {kind : Kind U} {next : ComponentId → Script U σ} {k n : Nat}
    (hkn : k < n) (hcall : (m.run k).control = .run (.call (.register kind) next)) :
    ∃ id, (m.run (k + 1)).control = .run (next id) ∧ (m.run n).world.idOf? kind = some id := by
  have hstep : (m.run k).step = some ((m.run k).call (.register kind) next) := by
    simp only [step, hcall]
    rfl
  have hnext := run_succ_of_run_step hstep
  refine ⟨((m.run k).world.register kind).1, by rw [hnext]; rfl, idOf?_of_le m hkn ?_⟩
  rw [hnext]
  exact World.idOf?_register_self (m.run k).world kind

/-! ## Every run -/

/-- On every run the kinds in use are numbered in the order of their first uses, and a kind keeps
its number, which is the one that its registrations answer. Each number has the pool of its kind.
Whoever has the turn or waits names a pool that is there, and so does whoever takes kinds into use
to go to their pools. A destruction that comes to its end has been to all pools that there are by
then. -/
theorem kinds_and_pools_stay_in_step (host : σ) (script : Script U σ) (n : Nat) :
    ((start host script).run n).world.Numbered ((start host script).uses n) ∧
      (∀ k ≤ n, ∀ kind id, ((start host script).run k).world.idOf? kind = some id →
        ((start host script).run n).world.idOf? kind = some id) ∧
      (∀ k < n, ∀ kind next,
        ((start host script).run k).control = .run (.call (.register kind) next) →
        ∃ id, ((start host script).run (k + 1)).control = .run (next id) ∧
          ((start host script).run n).world.idOf? kind = some id) ∧
      ((start host script).run n).InRange ∧
      (∀ kinds, ∀ p ∈ kinds.zip (((start host script).run n).world.registerAll kinds).1,
        ∃ pool set, (((start host script).run n).world.registerAll kinds).2.pools[p.2]? = some pool ∧
          pool.storage.asKind? p.1 = some set) ∧
      ∀ i e b, ((start host script).run i).accepted? = some e → (start host script).Answered i n b →
        b = true ∧ (start host script).stations e i n =
          List.range ((start host script).run n).world.pools.size := by
  refine ⟨numbered_run host script n, fun k hkn kind id => idOf?_of_le _ hkn,
    fun k hkn kind next => number_of_register hkn, inRange_run host script n,
    fun kinds p hp => ?_, fun i e b => stations_of_answered (inRange_run host script)⟩
  have hready := World.inStep_registerAll (inStep_run host script n) kinds
  obtain ⟨set, signals, hpool⟩ := hready.exists_pool (World.idOf?_registerAll hp)
  exact ⟨_, set, hpool, Storage.asKind?_self p.1 set⟩

end Machine

/-- While the first entity is destroyed a handler takes another kind into use. -/
def latecomer : Script Empty Unit :=
  Task.toScript do
    let _ ← Task.connect .node .destroy fun _ _ => Task.toScript do
      let _ ← Task.register .transform
    let e ← Task.create
    let _ ← Task.emplace .node e (.ok TreeNode.isolated)
    let _ ← Task.destroy e

/-- There is one pool when the destruction begins. It goes to the second as well, which comes while
it is at the first. -/
theorem Machine.kinds_and_pools_stay_in_step_latecomer :
    (start () latecomer).uses 20 = [.node, .node, .transform] ∧
      ((start () latecomer).run 20).world.catalog.kinds = #[.node, .transform] ∧
      ((start () latecomer).run 8).accepted? = some ⟨0, .initial⟩ ∧
      ((start () latecomer).run 8).world.pools.size = 1 ∧
      (start () latecomer).Answered 8 20 true ∧
      (start () latecomer).stations ⟨0, .initial⟩ 8 20 = [0, 1] := by
  have haccepted : ((start () latecomer).run 8).accepted? = some ⟨0, .initial⟩ := by decide +kernel
  have hduring : ∀ k < 20, 8 < k → ((start () latecomer).run 8).stack.length <
      ((start () latecomer).run k).stack.length := by decide +kernel
  have hanswered : (start () latecomer).Answered 8 20 true :=
    { lt := by decide
      during := fun k hk hk' => hduring k hk' hk
      stack := by with_unfolding_all rfl
      control := by with_unfolding_all rfl }
  obtain ⟨-, -, -, -, -, hstations⟩ := kinds_and_pools_stay_in_step () latecomer 20
  refine ⟨by decide +kernel, by decide +kernel, haccepted, by decide +kernel, hanswered, ?_⟩
  rw [(hstations 8 _ true haccepted hanswered).2]
  decide +kernel

end EntityScene
