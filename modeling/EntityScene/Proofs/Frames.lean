import EntityScene.Proofs.Nesting

/-!
# The frames of a stack

A step puts frames on top of the stack, or takes the frame on top away to answer it or to
leave it. What lies below is as it was, so a frame stays until it is on top and told.

- `Machine.Turn`, `turn_of_step`: what a step does to the stack, and to the claims.
- `Turn.suffix_or_told`, `told_of_gone`: a frame that goes is told.
- `Attended`: a handler is called by the dispatch on top, and the dispatch of a destruction
  lies on the announcement that it is for.
- `attended_run`: so it is throughout every run.
-/

namespace EntityScene

variable {U σ : Type} [SceneFamily U]

/-- A control that asks for something, other than a dispatch. -/
def Control.isAsking : Control U σ → Bool
  | .run _ | .invoke .. | .destroy _ | .announce .. => true
  | _ => false

/-- A frame that neither is a dispatch nor waits to start a cascade. -/
def Frame.isIncidental : Frame U σ → Bool
  | .dispatch .. | .unlinking .. => false
  | _ => true

/-- A control that a call does not end with: handlers are called by dispatches, and the
dispatches of destructions are started by announcements. -/
def Control.isIncidental : Control U σ → Bool
  | .invoke .. | .publish _ .destroy _ => false
  | _ => true

/-! ## Dispatches and announcements -/

/-- A frame that does not come lies where it lay. -/
theorem suffix_of_not_mem {f : Frame U σ} {new rest tail : List (Frame U σ)} (hf : f ∉ new)
    (h : f :: tail <:+ new ++ rest) : f :: tail <:+ rest := by
  induction new with
  | nil => exact h
  | cons g new ih =>
    rcases List.suffix_cons_iff.mp h with heq | hsuf
    · exact absurd ((List.cons.inj heq).1 ▸ List.mem_cons_self) hf
    · exact ih (fun hmem => hf (List.mem_cons_of_mem _ hmem)) hsuf

/-- A handler is called by the dispatch on top, and the dispatch of a destruction lies on the
announcement that it is for. -/
structure Attended (stack : List (Frame U σ)) (control : Control U σ) : Prop where
  announced : ∀ {id e keys rest}, .dispatch id .destroy e keys :: rest <:+ stack →
    ∃ below, rest = .removal id e :: below
  publish : ∀ {id e}, control = .publish id .destroy e → ∃ below, stack = .removal id e :: below
  invoke : ∀ {key e}, control = .invoke key e →
    ∃ id event keys rest, stack = .dispatch id event e keys :: rest

namespace Attended

variable {stack rest : List (Frame U σ)} {control control' : Control U σ}

theorem of_suffix (h : Attended stack control) (hsuf : rest <:+ stack)
    (hcontrol : control'.isIncidental = true) : Attended rest control' :=
  { announced := fun htop => h.announced (htop.trans hsuf)
    publish := fun hc => by rw [hc] at hcontrol; cases hcontrol
    invoke := fun hc => by rw [hc] at hcontrol; cases hcontrol }

theorem append {new : List (Frame U σ)} (h : Attended rest control)
    (hnew : ∀ f ∈ new, f.isIncidental = true) (hcontrol : control'.isIncidental = true) :
    Attended (new ++ rest) control' :=
  { announced := fun htop =>
      h.announced (suffix_of_not_mem (fun hmem => by cases hnew _ hmem) htop)
    publish := fun hc => by rw [hc] at hcontrol; cases hcontrol
    invoke := fun hc => by rw [hc] at hcontrol; cases hcontrol }

end Attended

namespace Machine

variable [DecidableEq U] {m m' : Machine U σ}

/-- What a step does to the stack, and to the claims. -/
inductive Turn (m m' : Machine U σ) : Prop
  /-- Something is asked for, possibly with frames that wait for it. -/
  | asks (new : List (Frame U σ)) (control : m.control.isAsking = true)
      (stack : m'.stack = new ++ m.stack) (frames : ∀ f ∈ new, f.isIncidental = true)
      (next : m'.control.isIncidental = true)
      (claims : ∀ c, m'.claims.getD c [] = m.claims.getD c [])
  /-- A removal is announced. -/
  | announces (id : ComponentId) (e : Entity) (call : m.control = .announce id e)
      (stack : m'.stack = .removal id e :: m.stack) (control : m'.control = .publish id .destroy e)
      (claims : m'.claims = m.claims)
  /-- A dispatch is started. -/
  | publishes (id : ComponentId) (event : LifeEvent) (e : Entity) (keys : List ConnectionKey)
      (call : m.control = .publish id event e)
      (stack : m'.stack = .dispatch id event e keys :: m.stack) (control : m'.control = .reply true)
      (claims : m'.claims = m.claims)
  /-- A cascade is about to start. -/
  | uproots (key : ConnectionKey) (c : Nat) (e : Entity) (call : m.control = .invoke key e)
      (stack : m'.stack = .unlinking c e :: m.stack) (next : m'.control.isIncidental = true)
      (claims : m'.claims = m.claims)
  /-- The frame on top is answered. -/
  | answers (b : Bool) (frame : Frame U σ) (rest : List (Frame U σ)) (call : m.control = .reply b)
      (before : m.stack = frame :: rest) (after : m' = { m with stack := rest }.resume frame b)
  /-- The frame on top is left. -/
  | leaves (cause : Abort) (frame : Frame U σ) (rest : List (Frame U σ))
      (call : m.control = .unwind cause) (before : m.stack = frame :: rest)
      (after : m' = { m with stack := rest }.abandon frame cause)

/-- Something is asked for without a frame that waits. -/
theorem Turn.stay (control : m.control.isAsking = true) (stack : m'.stack = m.stack)
    (next : m'.control.isIncidental = true) (claims : m'.claims = m.claims) : Turn m m' :=
  .asks [] control stack (fun _ hf => by cases hf) next fun c => by rw [claims]

/-- Something is asked for with a frame that waits. -/
theorem Turn.push (frame : Frame U σ) (control : m.control.isAsking = true)
    (stack : m'.stack = frame :: m.stack) (hframe : frame.isIncidental = true)
    (next : m'.control.isIncidental = true) (claims : m'.claims = m.claims) : Turn m m' :=
  .asks [frame] control stack (by simpa using hframe) next fun c => by rw [claims]

omit [DecidableEq U] in
/-- A call that is over asks for nothing that a frame waits for. -/
theorem Over.isIncidental {w : World (Kind U)} (h : Over m m' w) :
    m'.control.isIncidental = true := by
  rcases h.control with ⟨script, hc⟩ | ⟨cause, hc⟩
  · rw [hc]
    rfl
  · rw [hc]
    rfl

theorem Turn.of_over {w : World (Kind U)} (control : m.control.isAsking = true)
    (h : Over m m' w) : Turn m m' :=
  .stay control h.stack h.isIncidental h.claims

theorem turn_call {c : Call U} {next : c.Reply → Script U σ}
    (hcall : m.control = .run (.call c next)) : Turn m (m.call c next) := by
  have hask : m.control.isAsking = true := by rw [hcall]; rfl
  cases c with
  | create =>
    simp only [call]
    split
    · exact .stay hask rfl rfl rfl
    · exact .stay hask rfl rfl rfl
  | destroy e => exact .push (.resume next) hask rfl rfl rfl rfl
  | emplace kind e make =>
    simp only [call]
    split
    · split
      · exact .stay hask rfl rfl rfl
      · exact .stay hask rfl rfl rfl
      · exact .push (.resume _) hask rfl rfl rfl rfl
    · exact .stay hask rfl rfl rfl
  | patch kind e f =>
    cases hp : m.patch? kind e f (.resume fun _ => next true) with
    | none =>
      simp only [call, hp, Option.getD_none]
      exact .stay hask rfl rfl rfl
    | some m' =>
      obtain ⟨id, v, -, -, rfl⟩ := patch?_eq_some hp
      simp only [call, hp, Option.getD_some]
      exact .push (.resume _) hask rfl rfl rfl rfl
  | take kind e =>
    simp only [call]
    split
    · exact .push (.taking kind e next) hask rfl rfl rfl rfl
    · exact .stay hask rfl rfl rfl
  | fetchEdit e kinds f =>
    simp only [call]
    split
    · exact .stay hask rfl rfl rfl
    · exact .stay hask rfl rfl rfl
  | block connection =>
    exact .of_over hask (over_block m connection next)
  | _ => exact .stay hask rfl rfl rfl

/-- A set of claims that is new is empty. -/
theorem getD_push_nil (claims : Array (List Entity)) (c : Nat) :
    (claims.push []).getD c [] = claims.getD c [] := by
  rw [Array.getD_eq_getD_getElem?, Array.getD_eq_getD_getElem?, Array.getElem?_push]
  split
  · rename_i hc
    rw [hc, Array.getElem?_eq_none (Nat.le_refl _)]
    rfl
  · rfl

theorem turn_runScript {script : Script U σ} (hcall : m.control = .run script) :
    Turn m (m.runScript script) := by
  have hask : m.control.isAsking = true := by rw [hcall]; rfl
  cases script with
  | call c next => exact turn_call hcall
  | connect kind event handler next =>
    exact .of_over hask (over_connect m kind event handler next)
  | cascade next =>
    have hover := over_cascade m next
    refine .asks [] hask hover.stack (fun _ hf => by cases hf) hover.isIncidental fun c => ?_
    rw [hover.claims]
    exact getD_push_nil m.claims c
  | attempt body next => exact .push (.attempt next) hask rfl rfl rfl rfl
  | blocked connection body next =>
    rcases runScript_blocked_cases m connection body next with h | h
    · rw [h]
      exact .push (.blocked _ next) hask rfl rfl rfl rfl
    · rw [h]
      exact .stay hask rfl rfl rfl
  | _ => exact .stay hask rfl rfl rfl

theorem turn_invoke {key : ConnectionKey} {e : Entity} (hcall : m.control = .invoke key e) :
    Turn m (m.invoke key e) := by
  have hask : m.control.isAsking = true := by rw [hcall]; rfl
  unfold invoke
  split
  · exact .stay hask rfl rfl rfl
  · rename_i claims _
    unfold startCascade
    split
    · exact .stay hask rfl rfl rfl
    · cases hp : (m.world.validParentOf? e).bind fun parent =>
          m.patch? .node parent (fun node => TreeNode.dropChild node e) (.unlinking claims e) with
      | none =>
        simp only [hp, Option.getD_none]
        exact .uproots key claims e hcall rfl rfl rfl
      | some m' =>
        obtain ⟨parent, -, hpatch⟩ := Option.bind_eq_some_iff.mp hp
        obtain ⟨id, v, -, -, rfl⟩ := patch?_eq_some hpatch
        simp only [hp, Option.getD_some]
        exact .uproots key claims e hcall rfl rfl rfl
  · exact .stay hask rfl rfl rfl

theorem turn_destroy {e : Entity} (hcall : m.control = .destroy e) : Turn m (m.destroy e) := by
  have hask : m.control.isAsking = true := by rw [hcall]; rfl
  simp only [destroy]
  split
  · unfold tearDown
    split
    · exact .push (.teardown e 0) hask rfl rfl rfl rfl
    · exact .stay hask rfl rfl rfl
  · exact .stay hask rfl rfl rfl

/-- Frames that are no dispatches were put on the stack, and no handler is called. -/
def Grown (m m' : Machine U σ) : Prop :=
  ∃ new, m'.stack = new ++ m.stack ∧ (∀ f ∈ new, f.isIncidental = true) ∧
    m'.control.isIncidental = true

omit [DecidableEq U] in
theorem Grown.suffix (h : Grown m m') : m.stack <:+ m'.stack := by
  obtain ⟨new, hstack, -⟩ := h
  rw [hstack]
  exact List.suffix_append new m.stack

omit [DecidableEq U] in
theorem Grown.stay (stack : m'.stack = m.stack) (control : m'.control.isIncidental = true) :
    Grown m m' :=
  ⟨[], stack, fun _ hf => (List.not_mem_nil hf).elim, control⟩

omit [DecidableEq U] in
theorem Grown.push {frame : Frame U σ} (hframe : frame.isIncidental = true)
    (stack : m'.stack = frame :: m.stack) (control : m'.control.isIncidental = true) :
    Grown m m' :=
  ⟨[frame], stack, by simpa using hframe, control⟩

theorem grown_cascadeOn (m : Machine U σ) (claims : Nat) (past ahead : List Entity) :
    Grown m (m.cascadeOn claims past ahead) := by
  cases ahead with
  | nil => exact .stay rfl rfl
  | cons e ahead => exact .push rfl rfl rfl

omit [DecidableEq U] in
theorem grown_tearDown (m : Machine U σ) (e : Entity) (id : ComponentId) :
    Grown m (m.tearDown e id) := by
  unfold tearDown
  split
  · exact .push rfl rfl rfl
  · exact .stay rfl rfl

/-- A frame that is answered may wait again, for something else. -/
theorem grown_resume {frame : Frame U σ}
    (hframe : ∀ id event e keys, frame ≠ .dispatch id event e keys) (b : Bool) :
    Grown m (m.resume frame b) := by
  cases frame with
  | dispatch id event e keys => exact absurd rfl (hframe id event e keys)
  | teardown e id =>
    rcases resume_teardown_cases m e id b with ⟨-, h⟩ | ⟨cause, -, -, h⟩
    · rw [h]
      exact grown_tearDown { m with world := if b then m.world.erase id e else m.world } e (id + 1)
    · rw [h]
      exact .stay rfl rfl
  | taking kind e next =>
    have hover := over_taking m e next b
    exact .stay hover.stack hover.isIncidental
  | unlinking claims e =>
    exact grown_cascadeOn (m.claim claims (e :: m.world.descendants e)).2 claims [] _
  | cascade claims past ahead => exact grown_cascadeOn m claims past ahead
  | _ => exact .stay rfl rfl

/-- What lies below a frame that is answered stays. -/
theorem suffix_resume (frame : Frame U σ) (b : Bool) : m.stack <:+ (m.resume frame b).stack := by
  cases frame with
  | dispatch id event e keys =>
    cases keys with
    | nil => exact List.suffix_rfl
    | cons key keys => exact List.suffix_cons _ _
  | _ => exact (grown_resume (fun _ _ _ _ hc => by cases hc) b).suffix

omit [DecidableEq U] in
/-- What lies below a frame that is left is the stack after that. -/
theorem stack_abandon (frame : Frame U σ) (cause : Abort) :
    (m.abandon frame cause).stack = m.stack := by
  cases frame <;> rfl

/-- Every step turns the stack. -/
theorem turn_of_step (h : m.step = some m') : Turn m m' := by
  cases stepped_of_step h with
  | run script hcall => exact turn_runScript hcall
  | publish id event e hcall =>
    exact .publishes id event e (m.world.snapshot id event).1 hcall rfl rfl rfl
  | invoke key e hcall => exact turn_invoke hcall
  | destroy e hcall => exact turn_destroy hcall
  | announce id e hcall =>
    unfold announce
    split
    · exact .stay (by rw [hcall]; rfl) rfl rfl rfl
    · exact .announces id e hcall rfl rfl rfl
  | reply b frame rest hcall hstack => exact .answers b frame rest hcall hstack rfl
  | unwind cause frame rest hcall hstack => exact .leaves cause frame rest hcall hstack rfl

/-- What lies below the frame on top stays, and the frame on top goes only when it is told. -/
theorem Turn.suffix_or_told (h : Turn m m') :
    m.stack <:+ m'.stack ∨ ∃ frame rest, m.stack = frame :: rest ∧ rest <:+ m'.stack ∧
      ((∃ b, m.control = .reply b ∧ m' = { m with stack := rest }.resume frame b) ∨
        ∃ cause, m.control = .unwind cause ∧
          m' = { m with stack := rest }.abandon frame cause) := by
  cases h with
  | asks new control stack frames next claims =>
    rw [stack]
    exact .inl (List.suffix_append new m.stack)
  | announces id e call stack control claims =>
    rw [stack]
    exact .inl (List.suffix_cons _ _)
  | publishes id event e keys call stack control claims =>
    rw [stack]
    exact .inl (List.suffix_cons _ _)
  | uproots key c e call stack next claims =>
    rw [stack]
    exact .inl (List.suffix_cons _ _)
  | answers b frame rest call before after =>
    exact .inr ⟨frame, rest, before, after ▸ suffix_resume (m := { m with stack := rest }) frame b,
       .inl ⟨b, call, after⟩⟩
  | leaves cause frame rest call before after =>
    exact .inr ⟨frame, rest, before, after ▸ (stack_abandon frame cause).symm ▸ List.suffix_rfl,
       .inr ⟨cause, call, after⟩⟩

/-- A frame that is gone was on top and was told. -/
theorem told_of_gone (h : m.step = some m') {f : Frame U σ} {rest : List (Frame U σ)}
    (hbefore : f :: rest <:+ m.stack) (hgone : ¬ f :: rest <:+ m'.stack) :
    m.stack = f :: rest ∧
      ((∃ b, m.control = .reply b ∧ m' = { m with stack := rest }.resume f b) ∨
        ∃ cause, m.control = .unwind cause ∧ m' = { m with stack := rest }.abandon f cause) := by
  rcases (turn_of_step h).suffix_or_told with hsuf | ⟨g, below, hstack, hbelow, htold⟩
  · exact absurd (hbefore.trans hsuf) hgone
  · rw [hstack] at hbefore
    rcases List.suffix_cons_iff.mp hbefore with heq | hsuf
    · obtain ⟨rfl, rfl⟩ := List.cons.inj heq
      exact ⟨hstack, htold⟩
    · exact absurd (hsuf.trans hbelow) hgone

/-- A dispatch goes on with the next connection, or is over. -/
theorem attended_resume {id : ComponentId} {event : LifeEvent} {e : Entity}
    {keys : List ConnectionKey} {rest : List (Frame U σ)} {control : Control U σ}
    (h : Attended (.dispatch id event e keys :: rest) control) (b : Bool) :
    Attended (({ m with stack := rest }.resume (.dispatch id event e keys) b).stack)
      ({ m with stack := rest }.resume (.dispatch id event e keys) b).control := by
  cases keys with
  | nil => exact h.of_suffix (List.suffix_cons _ rest) rfl
  | cons key keys =>
    refine
      { announced := fun htop => ?_
        publish := fun hc => ?_
        invoke := fun hc => ?_ }
    · rcases List.suffix_cons_iff.mp htop with heq | hsuf
      · obtain ⟨hframe, rfl⟩ := List.cons.inj heq
        cases hframe
        exact h.announced List.suffix_rfl
      · exact h.announced (hsuf.trans (List.suffix_cons _ rest))
    · simp only [resume, await] at hc
      split at hc <;> cases hc
    · simp only [resume, await] at hc ⊢
      split at hc
      · cases hc
        exact ⟨_, _, _, _, rfl⟩
      · cases hc

/-- So it is after every step. -/
theorem attended_turn (h : Attended m.stack m.control) (ht : Turn m m') :
    Attended m'.stack m'.control := by
  cases ht with
  | asks new control stack frames next claims =>
    rw [stack]
    exact h.append frames next
  | announces id e call stack control claims =>
    rw [stack, control]
    refine
      { announced := fun htop => ?_
        publish := fun hc => ?_
        invoke := fun hc => by cases hc }
    · rcases List.suffix_cons_iff.mp htop with heq | hsuf
      · cases (List.cons.inj heq).1
      · exact h.announced hsuf
    · cases hc
      exact ⟨_, rfl⟩
  | publishes id event e keys call stack control claims =>
    rw [stack, control]
    refine
      { announced := fun htop => ?_
        publish := fun hc => by cases hc
        invoke := fun hc => by cases hc }
    rcases List.suffix_cons_iff.mp htop with heq | hsuf
    · obtain ⟨hframe, rfl⟩ := List.cons.inj heq
      cases hframe
      exact h.publish call
    · exact h.announced hsuf
  | uproots key c e call stack next claims =>
    rw [stack]
    refine
      { announced := fun htop => ?_
        publish := fun hc => by rw [hc] at next; cases next
        invoke := fun hc => by rw [hc] at next; cases next }
    rcases List.suffix_cons_iff.mp htop with heq | hsuf
    · cases (List.cons.inj heq).1
    · exact h.announced hsuf
  | answers b frame rest call before after =>
    rw [before] at h
    rw [after]
    -- only a dispatch puts its own frame back, and that is the frame a handler looks for
    by_cases hframe : ∃ id event e keys, frame = .dispatch id event e keys
    · obtain ⟨id, event, e, keys, rfl⟩ := hframe
      exact attended_resume h b
    · have hother : ∀ id event e keys, frame ≠ .dispatch id event e keys :=
        fun id event e keys hc => hframe ⟨id, event, e, keys, hc⟩
      obtain ⟨new, hstack, hnew, hcontrol⟩ :=
        grown_resume (m := { m with stack := rest }) hother b
      rw [hstack]
      exact (h.of_suffix (List.suffix_cons frame rest) hcontrol).append hnew hcontrol
  | leaves cause frame rest call before after =>
    rw [before] at h
    rw [after, stack_abandon]
    refine h.of_suffix (List.suffix_cons frame rest) ?_
    cases frame with
    | attempt next => rfl
    | _ =>
      show Control.isIncidental m.control = true
      rw [call]
      rfl

omit [DecidableEq U] in
theorem attended_start (host : σ) (script : Script U σ) :
    Attended (start host script).stack (start host script).control :=
  { announced := fun htop => by cases List.suffix_nil.mp htop
    publish := fun hc => by cases hc
    invoke := fun hc => by cases hc }

/-- So it is throughout every run. -/
theorem attended_run (host : σ) (script : Script U σ) (n : Nat) :
    Attended ((start host script).run n).stack ((start host script).run n).control := by
  induction n with
  | zero => exact attended_start host script
  | succ n ih =>
    rcases run_succ_cases (start host script) n with heq | hstep
    · rw [heq]
      exact ih
    · exact attended_turn ih (turn_of_step hstep)

end Machine

end EntityScene
