import EntityScene.Proofs.Nesting

/-!
# Steps of runs in which calls are abandoned

A call that is abandoned leaves the world as it is, and the frames that wait go one after
the other without an answer. So the steps of such a run are the moves of an ordinary one,
and three more that move nothing.

- `Machine.Tame`: no storage is edited directly, and no component is abandoned while it is
  made.
- `Machine.Fall`: what a step does where calls are abandoned.
- `move_or_fall_of_step`: a tame step is a move or a fall.
-/

namespace EntityScene

namespace World

variable {K : Type} [ComponentFamily K] [DecidableEq K] {w : World K}

/-- A component that is there is not made, so it cannot be abandoned either. -/
theorem place_of_stored? (h : w.Wf) {kind : K} {e : Entity} (make : Except Abort (Value kind))
    (hnull : e.isNull = false) (hs : (w.stored? kind e).isSome = true) :
    w.place kind e make = (.ok false, (w.register kind).2) := by
  have hreg : Undisturbed (fun _ => True) w (w.register kind).2 := undisturbed_register h kind
  have hid := idOf?_register_self w kind
  generalize hw₁ : (w.register kind).2 = w₁ at hreg hid ⊢
  generalize (w.register kind).1 = id at hid
  obtain ⟨set, signals, hpool, hset⟩ := hreg.wf.exists_pool hid
  have hstorage := storage?_of_pool hid hpool
  have hcontains : set.contains e = true := by
    rw [hset.contains_eq_isSome, ← stored?_of_pool hid hpool, hreg.stored? trivial, hs]
  simp only [place, hw₁, hstorage]
  rw [SparseSet.emplaceWith_of_contains hset _ hnull hcontains,
    updateStorage_storage? hreg.wf hstorage]

end World

namespace Machine

variable {U σ : Type} [SceneFamily U] [DecidableEq U] {m m' : Machine U σ}

/-- The next step edits no storage directly, and abandons no component while making it. -/
def isTame (m : Machine U σ) : Bool :=
  match m.control with
  | .run (.call (.alterStorage _ _) _) => false
  | .run (.call (.emplace kind e (.error _)) _) => !m.world.accepts e || m.world.has kind e
  | _ => true

/-- The first `n` steps are tame. -/
def Tame (m : Machine U σ) (n : Nat) : Prop := ∀ k < n, (m.run k).isTame = true

instance (m : Machine U σ) (n : Nat) : Decidable (m.Tame n) :=
  inferInstanceAs (Decidable (∀ k < n, (m.run k).isTame = true))

theorem Tame.mono {k n : Nat} (h : m.Tame n) (hk : k ≤ n) : m.Tame k :=
  fun i hi => h i (Nat.lt_of_lt_of_le hi hk)

/-- What a step does where calls are abandoned: nothing is moved. -/
inductive Fall (m m' : Machine U σ) : Prop
  /-- The calls in progress are to be left. -/
  | raised (cause : Abort) (request : m.control.isRequest = true)
      (world : World.Undisturbed (fun _ => False) m.world m'.world)
      (stack : m'.stack = m.stack) (control : m'.control = .unwind cause)
  /-- No entity can be created any more. -/
  | exhausted (cause : Abort) (next : Entity → Script U σ)
      (call : m.control = .run (.call .create next))
      (released : m.world.entities.released = []) (world : m'.world = m.world)
      (stack : m'.stack = m.stack) (control : m'.control = .unwind cause)
  /-- The frame on top is left, and may go on with the cause. -/
  | left (cause : Abort) (frame : Frame U σ) (call : m.control = .unwind cause)
      (before : m.stack = frame :: m'.stack)
      (world : World.Undisturbed (fun _ => False) m.world m'.world)
      (control : m'.control = .unwind cause ∨
        frame.isPlain = true ∧ ∃ script, m'.control = .run script)

theorem fall_abandon (hwf : m.world.Wf) {cause : Abort} {frame : Frame U σ}
    {stack : List (Frame U σ)} (hcall : m.control = .unwind cause)
    (hstack : m.stack = frame :: stack) : Fall m ({ m with stack }.abandon frame cause) := by
  cases frame with
  | attempt next => exact .left cause _ hcall hstack (.refl hwf) (.inr ⟨rfl, _, rfl⟩)
  | blocked guard next =>
    exact .left cause _ hcall hstack (World.undisturbed_board hwf _) (.inl hcall)
  | _ => exact .left cause _ hcall hstack (.refl hwf) (.inl hcall)

/-- A tame step that leaves no calls is ordinary. -/
theorem isOrdinary_of_isTame (hm : m.isTame = true) (h : ∀ cause, m.control ≠ .unwind cause) :
    m.control.isOrdinary = true := by
  unfold isTame at hm
  unfold Control.isOrdinary
  split
  · exact absurd (by assumption) (h _)
  · rename_i hc
    rw [hc] at hm
    cases hm
  · rfl

/-- A tame placement is not abandoned. -/
theorem place_ne_error (hwf : m.world.Wf) {kind : Kind U} {e : Entity}
    {make : Except Abort (Value kind)} {next : Option (Value kind) × Bool → Script U σ}
    (hcall : m.control = .run (.call (.emplace kind e make) next)) (hm : m.isTame = true)
    (ha : m.world.accepts e = true) (cause : Abort) :
    (m.world.place kind e make).1 ≠ .error cause := by
  intro herr
  have hvalid := ((World.accepts_iff m.world e).mp ha).1
  have hnull : e.isNull = false := hwf.table.isNull_eq_false hvalid
  rcases World.place_cases hwf kind e make with
    ⟨cause', -, hnull' | ⟨cause'', rfl⟩⟩ | ⟨hold, -⟩ | ⟨v, id, -, -, hnew, -⟩
  · rw [hnull] at hnull'
    cases hnull'
  · -- a component that is there is not made
    simp only [isTame, hcall, ha, Bool.not_true, Bool.false_or] at hm
    rw [World.has, World.get?_of_isValid hvalid] at hm
    rw [World.place_of_stored? hwf _ hnull hm] at herr
    cases herr
  · rw [hold] at herr
    cases herr
  · rw [hnew] at herr
    cases herr

/-- Of the tame calls, the creation of an entity and a fetch may be abandoned. -/
theorem fall_call (hwf : m.world.Wf) {c : Call U} {next : c.Reply → Script U σ}
    (hcall : m.control = .run (.call c next)) (hm : m.isTame = true) {cause : Abort}
    (h : (m.call c next).control = .unwind cause) : Fall m (m.call c next) := by
  cases c with
  | create =>
    obtain ⟨created, table, hr⟩ : ∃ created table, m.world.entities.allocate = (created, table) :=
      ⟨_, _, rfl⟩
    cases created with
    | ok e =>
      simp only [call, World.create, hr] at h
      cases h
    | error cause =>
      obtain ⟨rfl, -, hreleased⟩ := Entity.Table.allocate_error hwf.table hr
      simp only [call, World.create, hr]
      exact .exhausted cause next hcall hreleased rfl rfl rfl
  | emplace kind e make =>
    by_cases ha : m.world.accepts e = true
    · simp only [call, if_pos ha] at h
      split at h
      · exact absurd (by assumption) (place_ne_error hwf hcall hm ha _)
      · cases h
      · cases h
    · simp only [call, if_neg ha] at h
      cases h
  | patch kind e f =>
    cases hp : m.patch? kind e f (.resume fun _ => next true) with
    | none =>
      simp only [call, hp, Option.getD_none] at h
      cases h
    | some m' =>
      obtain ⟨id, v, -, -, rfl⟩ := patch?_eq_some hp
      simp only [call, hp, Option.getD_some] at h
      cases h
  | take kind e =>
    simp only [call] at h
    split at h
    · cases h
    · cases h
  | fetchEdit e kinds f =>
    have hfetch : World.Undisturbed (fun _ => False) m.world (m.world.fetchEdit e kinds f).2 :=
      World.undisturbed_fetchEdit hwf e kinds f fun _ _ hf => hf
    simp only [call] at h ⊢
    generalize m.world.fetchEdit e kinds f = r at h hfetch ⊢
    obtain ⟨fetched, world⟩ := r
    cases fetched with
    | ok components => cases h
    | error cause => exact .raised cause (by rw [hcall]; rfl) hfetch rfl rfl
  | block connection =>
    rcases call_block_cases m connection next with hblock | hblock
    · rw [hblock] at h
      cases h
    · rw [hblock]
      exact .raised _ (by rw [hcall]; rfl) (.refl hwf) rfl rfl
  | _ => cases h

/-- A script that is gone on with makes a move, or abandons the calls in progress. -/
theorem move_or_fall_runScript (hwf : m.world.Wf) {script : Script U σ}
    (hcall : m.control = .run script) (hm : m.isTame = true) :
    Move m (m.runScript script) ∨ Fall m (m.runScript script) := by
  by_cases hunwind : ∃ cause, (m.runScript script).control = .unwind cause
  · obtain ⟨cause, hunwind⟩ := hunwind
    refine .inr ?_
    cases script with
    | abort cause => exact .raised cause (by rw [hcall]; rfl) (.refl hwf) rfl rfl
    | call c next => exact fall_call hwf hcall hm hunwind
    | connect kind event handler next =>
      rcases runScript_connect_cases m kind event handler next with
        ⟨key, -, hmade⟩ | ⟨cause, -, hmade⟩
      · rw [hmade] at hunwind
        cases hunwind
      · rw [hmade]
        exact .raised cause (by rw [hcall]; rfl) (World.undisturbed_connect hwf kind event) rfl rfl
    | cascade next =>
      have hclaims := undisturbed_withClaims hwf fun _ => False
      rcases runScript_cascade_cases m next with ⟨key, -, hmade⟩ | ⟨cause, -, hmade⟩
      · rw [hmade] at hunwind
        cases hunwind
      · rw [hmade]
        exact .raised cause (by rw [hcall]; rfl)
          (hclaims.trans (World.undisturbed_connect hclaims.wf .node .destroy)) rfl rfl
    | blocked connection body next =>
      rcases runScript_blocked_cases m connection body next with hblock | hblock
      · rw [hblock] at hunwind
        cases hunwind
      · rw [hblock]
        exact .raised _ (by rw [hcall]; rfl) (.refl hwf) rfl rfl
    | _ => cases hunwind
  · have hord := isOrdinary_of_isTame hm fun cause hc => by rw [hcall] at hc; cases hc
    exact .inl (move_runScript hwf hcall hord (not_exists.mp hunwind))

/-- Every tame step is a move or a fall. -/
theorem move_or_fall_of_step (hwf : m.world.Wf) (hm : m.isTame = true) (h : m.step = some m') :
    Move m m' ∨ Fall m m' := by
  cases stepped_of_step h with
  | run script hcall => exact move_or_fall_runScript hwf hcall hm
  | unwind cause frame stack hcall hstack => exact .inr (fall_abandon hwf hcall hstack)
  | _ => exact .inl (move_of_step_of_ne hwf (by simp [*]) (by simp [*]) h)

/-- A step of an ordinary run is tame: a component that is abandoned while it is made is
abandoned to the end. -/
theorem isTame_of_isOrdinary (hwf : m.world.Wf) (hm : m.control.isOrdinary = true)
    (h : m.step = some m') (hm' : m'.control.isOrdinary = true) : m.isTame = true := by
  unfold isTame
  split
  · rename_i hc
    rw [hc] at hm
    cases hm
  · rename_i kind e cause next hc
    by_contra hno
    simp only [Bool.or_eq_true, Bool.not_eq_true', not_or, Bool.not_eq_true,
      Bool.not_eq_false] at hno
    obtain ⟨ha, hhas⟩ := hno
    have hvalid := ((World.accepts_iff m.world e).mp ha).1
    simp only [step, hc, runScript, call, if_pos ha, Option.some.injEq] at h
    subst h
    rcases World.place_cases hwf kind e (.error cause) with
      ⟨cause', herr, -⟩ | ⟨-, hstored⟩ | ⟨v, id, hmake, -⟩
    · rw [herr] at hm'
      cases hm'
    · rw [World.has, World.get?_of_isValid hvalid, hstored] at hhas
      cases hhas
    · cases hmake
  · rfl

/-- An ordinary run is tame. -/
theorem Ordinary.tame {host : σ} {script : Script U σ} {n : Nat}
    (h : (start host script).Ordinary n) : (start host script).Tame n := by
  intro k hk
  have hsound := sound_run host script (n := k) fun i hi => h i (by omega)
  cases hstep : ((start host script).run k).step with
  | none =>
    rcases ((step_eq_none_iff _).mp hstep).2 with ⟨b, hc⟩ | ⟨cause, hc⟩
    · rw [isTame, hc]
    · rw [isTame, hc]
  | some m' =>
    have hnext := h (k + 1) (by omega)
    rw [run_succ_of_run_step hstep] at hnext
    exact isTame_of_isOrdinary hsound.wf (h k (by omega)) hstep hnext

end Machine

/-! ## Stacks while calls are left -/

section Layers

variable {U σ : Type} [SceneFamily U] [DecidableEq U]

/-- Stacks with a control, also while calls are left: then a frame that takes a component
may be on top without being told. -/
inductive Layered (w : World (Kind U)) : List (Frame U σ) → Control U σ → Prop
  | shaped {stack : List (Frame U σ)} {control : Control U σ} (h : Shape w stack control) :
      Layered w stack control
  | leaving {f : Frame U σ} {rest : List (Frame U σ)} {id : ComponentId} {e : Entity}
      (cause : Abort) (hf : f.Removes w id e) (hrest : Wellstacked w rest) :
      Layered w (f :: rest) (.unwind cause)

/-- As long as no call is left the shape is that of an ordinary run. -/
theorem Layered.shape {w : World (Kind U)} {stack : List (Frame U σ)} {control : Control U σ}
    (h : Layered w stack control) (hc : ∀ cause, control ≠ .unwind cause) :
    Shape w stack control := by
  cases h with
  | shaped h => exact h
  | leaving cause hf hrest => exact absurd rfl (hc cause)

/-- Below a frame that is left no frame asks, and the frame that takes the component lies
below its announcement. -/
theorem Layered.leave {w w' : World (Kind U)} {f : Frame U σ} {rest : List (Frame U σ)}
    {cause : Abort} (hids : ∀ {kind id}, w.idOf? kind = some id → w'.idOf? kind = some id)
    (h : Layered w (f :: rest) (.unwind cause)) {control : Control U σ}
    (hcontrol : control = .unwind cause ∨ f.isPlain = true ∧ ∃ script, control = .run script) :
    Layered w' rest control := by
  have hsettled : Wellstacked w' rest → Layered w' rest control := fun hrest =>
    .shaped <| .settled hrest fun id e hc => by
      rcases hcontrol with hu | ⟨-, script, hr⟩
      · rw [hc] at hu
        cases hu
      · rw [hc] at hr
        cases hr
  cases h with
  | leaving cause hf hrest => exact hsettled (hrest.mono hids)
  | shaped h =>
    have hstack := h.wellstacked (fun b hc => by cases hc) fun id e hc => by cases hc
    cases hstack with
    | plain hf hrest => exact hsettled (hrest.mono hids)
    | removal hf hrest =>
      rcases hcontrol with hu | ⟨hplain, -⟩
      · rw [hu]
        exact .leaving cause (hf.mono hids) (hrest.mono hids)
      · cases hplain

end Layers

namespace Machine

variable {U σ : Type} [SceneFamily U] [DecidableEq U] {m m' : Machine U σ}

theorem shape_tornDown {w : World (Kind U)} {e : Entity} {id : ComponentId}
    {rest : List (Frame U σ)} (hrest : Wellstacked w rest) (torn : TornDown w e id rest m') :
    Shape m'.world m'.stack m'.control := by
  cases torn with
  | next pool world stack control =>
    rw [world, stack, control]
    exact .asking ⟨rfl, rfl⟩ hrest
  | last pool world stack control =>
    rw [world, stack, control]
    exact .settled (Wellstacked.mono (w := w) (fun hid => hid) hrest) fun _ _ hc => by cases hc

/-- The shape of the stack is kept by every move. -/
theorem shape_move (hwf : m.world.Wf) (h : Shape m.world m.stack m.control) (hm : Move m m') :
    Shape m'.world m'.stack m'.control := by
  have hrequest : m.control.isRequest = true → Wellstacked m.world m.stack :=
    h.wellstacked_of_isRequest
  cases hm with
  | quiet old new rest before after plain request world control =>
    have hold : ∀ f ∈ old, f.isPlain = true := fun f hf => plain f (List.mem_append_left _ hf)
    have hnew : ∀ f ∈ new, f.isPlain = true := fun f hf => plain f (List.mem_append_right _ hf)
    have hstack := h.wellstacked_of_quiet before hold request
    rw [after]
    refine .settled (((before ▸ hstack).of_append_plain hold).mono world.idOf?
      |>.append_plain hnew) fun id e hc => ?_
    rw [hc] at control
    exact control
  | created e table next call allocate world stack control =>
    have hstack := h.wellstacked (fun b hc => by rw [call] at hc; cases hc)
      fun id e hc => by rw [call] at hc; cases hc
    rw [world, stack, control]
    exact .settled (Wellstacked.mono (w := m.world) (fun hid => hid) hstack)
      fun _ _ hc => by cases hc
  | placed kind id e v make next frame call accepts world plain stack control =>
    have hstack := hrequest (by rw [call]; rfl)
    rw [stack, control]
    exact .settled (.plain plain (hstack.mono world.idOf?)) fun _ _ hc => by cases hc
  | asked kind id e next call number world stack control =>
    have hstack := hrequest (by rw [call]; rfl)
    rw [world, stack, control]
    exact .asking ⟨rfl, number⟩ hstack
  | begun e call alive torn =>
    have hstack := hrequest (by rw [call]; rfl)
    refine shape_tornDown ?_ torn
    exact Wellstacked.mono (w := m.world) (fun hid => hid) hstack
  | refused id e call reason world stack control =>
    rw [call] at h
    obtain ⟨f, rest, hstack, hf, hrest⟩ := h.of_announce
    rw [world, stack, control, hstack]
    exact .told false hf hrest
  | announced id e call fresh row world stack control =>
    rw [call] at h
    obtain ⟨f, rest, hstack, hf, hrest⟩ := h.of_announce
    rw [world, stack, control, hstack]
    exact .settled (.removal (hf.mono fun hid => hid)
      (Wellstacked.mono (w := m.world) (fun hid => hid) hrest)) fun _ _ hc => by cases hc
  | finished id e b call before world control =>
    rw [call, before] at h
    obtain ⟨f, rest, hstack, hf, hrest⟩ := h.removes_of_removal
    rw [world, control, hstack]
    exact .told true (hf.mono fun hid => hid)
      (Wellstacked.mono (w := m.world) (fun hid => hid) hrest)
  | teardown id e b rest call before torn =>
    rw [call, before] at h
    refine shape_tornDown (h.wellstacked_of_teardown.mono fun hid => ?_) torn
    split <;> exact hid
  | taken kind e b next script call before world control =>
    rw [call, before] at h
    obtain ⟨id, hid, hrest⟩ := h.idOf?_of_taking
    rw [world, control]
    refine .settled (hrest.mono fun hid' => ?_) fun _ _ hc => by cases hc
    split
    · rw [World.pull_eq hwf hid]
      exact hid'
    · exact hid'

theorem Move.not_unwind (hm : Move m m') (cause : Abort) : m.control ≠ .unwind cause := by
  intro hc
  cases hm with
  | quiet old new rest before after plain request world control =>
    rcases request with hreq | ⟨⟨b, hb⟩, -⟩
    · rw [hc] at hreq
      cases hreq
    · rw [hc] at hb
      cases hb
  | created e table next call allocate world stack control => rw [hc] at call; cases call
  | placed kind id e v make next frame call accepts world plain stack control =>
    rw [hc] at call; cases call
  | asked kind id e next call number world stack control => rw [hc] at call; cases call
  | begun e call alive torn => rw [hc] at call; cases call
  | refused id e call reason world stack control => rw [hc] at call; cases call
  | announced id e call fresh row world stack control => rw [hc] at call; cases call
  | finished id e b call before world control => rw [hc] at call; cases call
  | teardown id e b rest call before torn => rw [hc] at call; cases call
  | taken kind e b next script call before world control => rw [hc] at call; cases call

/-- Where calls are abandoned they are being left before or after. -/
theorem Fall.unwinds (hf : Fall m m') :
    ∃ cause, m.control = .unwind cause ∨ m'.control = .unwind cause := by
  cases hf with
  | raised cause request world stack control => exact ⟨cause, .inr control⟩
  | exhausted cause next call released world stack control => exact ⟨cause, .inr control⟩
  | left cause frame call before world control => exact ⟨cause, .inl call⟩

/-- The layers of the stack are kept by every move. -/
theorem layered_move (hwf : m.world.Wf) (h : Layered m.world m.stack m.control)
    (hm : Move m m') : Layered m'.world m'.stack m'.control :=
  .shaped (shape_move hwf (h.shape hm.not_unwind) hm)

/-- The layers of the stack are kept where calls are abandoned. -/
theorem layered_fall (h : Layered m.world m.stack m.control) (hf : Fall m m') :
    Layered m'.world m'.stack m'.control := by
  cases hf with
  | raised cause request world stack control =>
    have hshape := h.shape fun cause hc => by rw [hc] at request; cases request
    have hstack := hshape.wellstacked_of_isRequest request
    rw [stack, control]
    exact .shaped (.settled (hstack.mono world.idOf?) fun _ _ hc => by cases hc)
  | exhausted cause next call released world stack control =>
    have hshape := h.shape fun cause hc => by rw [hc] at call; cases call
    have hstack := hshape.wellstacked (fun b hc => by rw [call] at hc; cases hc)
      fun id e hc => by rw [call] at hc; cases hc
    rw [world, stack, control]
    exact .shaped (.settled (Wellstacked.mono (w := m.world) (fun hid => hid) hstack)
      fun _ _ hc => by cases hc)
  | left cause frame call before world control =>
    rw [call, before] at h
    exact Layered.leave world.idOf? h control

end Machine

end EntityScene
