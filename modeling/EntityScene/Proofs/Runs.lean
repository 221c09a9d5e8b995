import Mathlib.Data.List.Basic
import EntityScene.Linear
import EntityScene.Program.Machine

/-!
# Runs and their histories

What happened in a run can be read off its states: a dispatch starts where the control
asks for one, and a released index is used again where the control makes an entity
while such an index waits.

- `Machine.start`: a world without anything in it, and a script to run.
- `Machine.run_succ`: a run is continued at its end.
- `Machine.history`: the dispatches that the first steps of a run start, in order.
- `Machine.reissues`: how often the first steps of a run use an index again.
- `Machine.Ordinary`: nothing is abandoned and no storage is edited directly.
- `Machine.Lasts`, `Machine.Answered`: from a call to its answer.
- `Machine.Runs`, `Machine.Serves`, `Machine.Performs`, `Machine.Abandons`: one machine runs
  to another, and starts these dispatches on the way; the same whatever waits below.
- `Performs.answer_unique`, `Performs.unique`: what a task answers and does is determined.
-/

namespace EntityScene

/-- A dispatch: the kind of component by number, the event, and the entity. -/
structure Dispatch where
  id : ComponentId
  event : LifeEvent
  entity : Entity
deriving DecidableEq, Repr

/-- A control that neither leaves the calls in progress nor edits a storage directly. -/
def Control.isOrdinary {U σ : Type} [SceneFamily U] : Control U σ → Bool
  | .unwind _ => false
  | .run (.call (.alterStorage _ _) _) => false
  | _ => true

/-- A script that comes to its end after some answers of a task, and is left after all others. -/
def Task.probe {U σ α : Type} [SceneFamily U] (task : Task U σ α) (p : α → Bool) : Script U σ :=
  task fun a => if p a then .done else .abort .repeatedKind

namespace Machine

variable {U σ : Type} [SceneFamily U]

/-- A machine that is about to run a script in an empty world. -/
def start (host : σ) (script : Script U σ) : Machine U σ :=
  { host, control := .run script }

/-- The dispatch that the next step starts. -/
def started (m : Machine U σ) : List Dispatch :=
  match m.control with
  | .publish id event e => [⟨id, event, e⟩]
  | _ => []

/-- The released index that the next step uses again. -/
def reissued? (m : Machine U σ) : Option UInt32 :=
  match m.control with
  | .run (.call .create _) => m.world.entities.released.head?
  | _ => none

variable [DecidableEq U]

/-- The dispatches that the first `n` steps start. -/
def history (m : Machine U σ) (n : Nat) : List Dispatch :=
  (List.range n).flatMap fun k => (m.run k).started

/-- How often the first `n` steps use an index again. -/
def reissues (m : Machine U σ) (n : Nat) (index : UInt32) : Nat :=
  (List.range n).countP fun k => (m.run k).reissued? == some index

/-- The first `n` steps abandon nothing and edit no storage directly, and neither does
the step after them. -/
def Ordinary (m : Machine U σ) (n : Nat) : Prop :=
  ∀ k < n + 1, (m.run k).control.isOrdinary = true

instance (m : Machine U σ) (n : Nat) : Decidable (m.Ordinary n) :=
  inferInstanceAs (Decidable (∀ k < n + 1, (m.run k).control.isOrdinary = true))

@[simp] theorem run_zero (m : Machine U σ) : m.run 0 = m := rfl

theorem run_of_step_eq_none {m : Machine U σ} (h : m.step = none) (n : Nat) : m.run n = m := by
  cases n with
  | zero => rfl
  | succ n => simp [run, h]

theorem run_succ_of_step {m m' : Machine U σ} (h : m.step = some m') (n : Nat) :
    m.run (n + 1) = m'.run n := by
  simp [run, h]

/-- A long run is two short ones. -/
theorem run_add (m : Machine U σ) (n k : Nat) : m.run (n + k) = (m.run n).run k := by
  induction n generalizing m with
  | zero => rw [Nat.zero_add, run_zero]
  | succ n ih =>
    cases h : m.step with
    | none => rw [run_of_step_eq_none h, run_of_step_eq_none h, run_of_step_eq_none h]
    | some m' => rw [Nat.add_right_comm, run_succ_of_step h, run_succ_of_step h, ih]

/-- A run is continued by a step of its last machine. -/
theorem run_succ (m : Machine U σ) (n : Nat) :
    m.run (n + 1) = ((m.run n).step).getD (m.run n) := by
  rw [run_add]
  cases h : (m.run n).step with
  | none => exact run_of_step_eq_none h 1
  | some m' => exact run_succ_of_step h 0

theorem run_succ_of_run_step {m m' : Machine U σ} {n : Nat} (h : (m.run n).step = some m') :
    m.run (n + 1) = m' := by
  rw [run_succ, h, Option.getD_some]

/-- A run has come to its end, or takes another step. -/
theorem run_succ_cases (m : Machine U σ) (n : Nat) :
    m.run (n + 1) = m.run n ∨ (m.run n).step = some (m.run (n + 1)) := by
  rw [run_succ]
  cases (m.run n).step with
  | none => exact .inl rfl
  | some m' => exact .inr rfl

theorem history_succ (m : Machine U σ) (n : Nat) :
    m.history (n + 1) = m.history n ++ (m.run n).started := by
  simp [history, List.range_succ]

theorem history_add (m : Machine U σ) (n k : Nat) :
    m.history (n + k) = m.history n ++ (m.run n).history k := by
  induction k with
  | zero => simp [history]
  | succ k ih => rw [← Nat.add_assoc, history_succ, history_succ, ih, run_add, List.append_assoc]

theorem reissues_succ (m : Machine U σ) (n : Nat) (index : UInt32) :
    m.reissues (n + 1) index =
      m.reissues n index + if (m.run n).reissued? = some index then 1 else 0 := by
  simp [reissues, List.range_succ, List.countP_append, List.countP_singleton]

/-- A longer run does not use an index again less often. -/
theorem reissues_mono (m : Machine U σ) {k n : Nat} (h : k ≤ n) (index : UInt32) :
    m.reissues k index ≤ m.reissues n index := by
  induction h with
  | refl => exact Nat.le_refl _
  | step _ ih =>
    rw [reissues_succ]
    exact Nat.le_trans ih (Nat.le_add_right _ _)

/-- A step uses at most one index again. -/
theorem reissues_le (m : Machine U σ) (n : Nat) (index : UInt32) : m.reissues n index ≤ n := by
  calc m.reissues n index ≤ (List.range n).length := List.countP_le_length
    _ = n := List.length_range

theorem Ordinary.of_succ {m : Machine U σ} {n : Nat} (h : m.Ordinary (n + 1)) : m.Ordinary n :=
  fun k hk => h k (Nat.lt_succ_of_lt hk)

theorem Ordinary.mono {m : Machine U σ} {k n : Nat} (h : m.Ordinary n) (hk : k ≤ n) :
    m.Ordinary k :=
  fun i hi => h i (Nat.lt_of_lt_of_le hi (Nat.succ_le_succ hk))

theorem Ordinary.last {m : Machine U σ} {n : Nat} (h : m.Ordinary n) :
    (m.run n).control.isOrdinary = true :=
  h n (Nat.lt_succ_self n)

/-! ## From a call to its answer -/

/-- What is asked for at the first step goes on at the second: something was put on the stack for
it, and is still there. -/
def Lasts (m : Machine U σ) (i j : Nat) : Prop :=
  i < j ∧ ∀ k ≤ j, i < k → (m.run i).stack.length < (m.run k).stack.length

instance (m : Machine U σ) (i j : Nat) : Decidable (m.Lasts i j) :=
  inferInstanceAs (Decidable (_ ∧ ∀ k ≤ j, _))

/-- What is asked for at the first step goes on until the second, and is answered there. -/
structure Answered (m : Machine U σ) (i j : Nat) (b : Bool) : Prop where
  lt : i < j
  during : ∀ k, i < k → k < j → (m.run i).stack.length < (m.run k).stack.length
  stack : (m.run j).stack = (m.run i).stack
  control : (m.run j).control = .reply b

/-- A call that was asked for and is answered is left at no step, if that is so in between. -/
theorem Answered.calm {m : Machine U σ} {i j : Nat} {b : Bool} (h : m.Answered i j b)
    (hcall : ∀ cause, (m.run i).control ≠ .unwind cause)
    (hquiet : ∀ k, i < k → k < j → ∀ cause, (m.run k).control ≠ .unwind cause) {k : Nat}
    (hik : i ≤ k) (hkj : k ≤ j) (cause : Abort) : (m.run k).control ≠ .unwind cause := by
  rcases Nat.lt_or_eq_of_le hik with hik | rfl
  · rcases Nat.lt_or_eq_of_le hkj with hkj | rfl
    · exact hquiet k hik hkj cause
    · rw [h.control]
      exact fun hc => by cases hc
  · exact hcall cause

theorem Lasts.mono {m : Machine U σ} {i j k : Nat} (h : m.Lasts i k) (hij : i < j) (hjk : j ≤ k) :
    m.Lasts i j :=
  ⟨hij, fun l hl hil => h.2 l (Nat.le_trans hl hjk) hil⟩

theorem Lasts.length_lt {m : Machine U σ} {i j : Nat} (h : m.Lasts i j) :
    (m.run i).stack.length < (m.run j).stack.length :=
  h.2 j (Nat.le_refl j) h.1

theorem Lasts.succ {m : Machine U σ} {i j : Nat} (h : m.Lasts i j)
    (hlt : (m.run i).stack.length < (m.run (j + 1)).stack.length) : m.Lasts i (j + 1) :=
  ⟨Nat.lt_succ_of_lt h.1, fun k hk hik =>
    (Nat.le_succ_iff.mp hk).elim (fun hkj => h.2 k hkj hik) fun heq => heq ▸ hlt⟩

/-- Nothing is left to do, and nothing was abandoned. -/
def isAnswered (m : Machine U σ) : Bool := m.step.isNone && m.abandoned?.isNone

/-! ## From one machine to another -/

/-- The machine runs to another one, and starts these dispatches on the way. -/
def Runs (m : Machine U σ) (dispatches : List Dispatch) (m' : Machine U σ) : Prop :=
  ∃ n, m.run n = m' ∧ m.history n = dispatches

namespace Runs

variable {m m' m'' : Machine U σ} {tr tr' : List Dispatch}

theorem refl (m : Machine U σ) : m.Runs [] m := ⟨0, rfl, rfl⟩

theorem trans (h : m.Runs tr m') (h' : m'.Runs tr' m'') : m.Runs (tr ++ tr') m'' := by
  obtain ⟨n, rfl, rfl⟩ := h
  obtain ⟨k, rfl, rfl⟩ := h'
  exact ⟨n + k, run_add m n k, history_add m n k⟩

theorem of_step (h : m.step = some m') : m.Runs m.started m' := by
  refine ⟨1, run_succ_of_step h 0, ?_⟩
  rw [history_succ]
  rfl

/-- A step that starts no dispatch, before a run. -/
theorem head (h : m.step = some m') (hstarted : m.started = []) (h' : m'.Runs tr m'') :
    m.Runs tr m'' := by
  have hstep := of_step h
  rw [hstarted] at hstep
  exact hstep.trans h'

/-- A step that starts no dispatch, after a run. -/
theorem snoc (h : m.Runs tr m') (h' : m'.step = some m'') (hstarted : m'.started = []) :
    m.Runs tr m'' := by
  have hrun := h.trans (of_step h')
  rw [hstarted, List.append_nil] at hrun
  exact hrun

/-- A machine that is done starts no dispatch any more. -/
theorem nil_of_done (h : m.Runs tr m') (hdone : m.step = none) : tr = [] := by
  obtain ⟨n, -, rfl⟩ := h
  have hstarted : m.started = [] := by
    obtain ⟨-, ⟨b, hcontrol⟩ | ⟨cause, hcontrol⟩⟩ := (step_eq_none_iff m).mp hdone
    · rw [started, hcontrol]
    · rw [started, hcontrol]
  induction n with
  | zero => rfl
  | succ n ih => rw [history_succ, ih, run_of_step_eq_none hdone, hstarted, List.nil_append]

/-- A run has one end. -/
theorem eq_of_done (h : m.Runs tr m') (h' : m.Runs tr' m'') (hdone : m'.step = none)
    (hdone' : m''.step = none) : m' = m'' := by
  obtain ⟨n, rfl, -⟩ := h
  obtain ⟨k, rfl, -⟩ := h'
  calc m.run n = m.run (n + k) := by rw [run_add, run_of_step_eq_none hdone]
    _ = m.run (k + n) := by rw [Nat.add_comm]
    _ = m.run k := by rw [run_add, run_of_step_eq_none hdone']

/-- A run to its end starts the same dispatches every time. -/
theorem trace_eq_of_done (h : m.Runs tr m') (h' : m.Runs tr' m'') (hdone : m'.step = none)
    (hdone' : m''.step = none) : tr = tr' := by
  obtain ⟨n, rfl, rfl⟩ := h
  obtain ⟨k, rfl, rfl⟩ := h'
  have hlong : m.history (n + k) = m.history (k + n) := by rw [Nat.add_comm]
  rw [history_add, history_add, nil_of_done ⟨k, rfl, rfl⟩ hdone, nil_of_done ⟨n, rfl, rfl⟩ hdone']
    at hlong
  simpa using hlong

end Runs

/-- The machine with something else to do, and with something else that waits for it. -/
def on (m : Machine U σ) (stack : List (Frame U σ)) (control : Control U σ) : Machine U σ :=
  { m with stack, control }

omit [DecidableEq U] in
@[simp] theorem on_world (m : Machine U σ) (stack : List (Frame U σ)) (control : Control U σ) :
    (m.on stack control).world = m.world := rfl

omit [DecidableEq U] in
@[simp] theorem on_handlers (m : Machine U σ) (stack : List (Frame U σ))
    (control : Control U σ) : (m.on stack control).handlers = m.handlers := rfl

omit [DecidableEq U] in
@[simp] theorem on_claims (m : Machine U σ) (stack : List (Frame U σ)) (control : Control U σ) :
    (m.on stack control).claims = m.claims := rfl

/-- Whatever waits on the stack, a control leads to another, and the stack is the same. -/
def Serves (m : Machine U σ) (control : Control U σ) (dispatches : List Dispatch)
    (m' : Machine U σ) (control' : Control U σ) : Prop :=
  ∀ stack, (m.on stack control).Runs dispatches (m'.on stack control')

/-- Whatever the script goes on with, a task leads to an answer. -/
def Performs {α : Type} (m : Machine U σ) (task : Task U σ α) (dispatches : List Dispatch)
    (m' : Machine U σ) (a : α) : Prop :=
  ∀ stack next, (m.on stack (.run (task next))).Runs dispatches (m'.on stack (.run (next a)))

namespace Performs

variable {α β : Type} {m m' m'' : Machine U σ} {task : Task U σ α} {tr tr' : List Dispatch}

/-- A call that is answered by the next step. -/
theorem of_step {a : α} (h : ∀ stack next, (m.on stack (.run (task next))).step =
    some (m'.on stack (.run (next a)))) : m.Performs task [] m' a :=
  fun stack next => Runs.of_step (h stack next)

theorem pure (m : Machine U σ) (a : α) : m.Performs (Pure.pure a : Task U σ α) [] m a :=
  fun _ _ => .refl _

/-- One task and then the next. -/
theorem bind {f : α → Task U σ β} {a : α} {b : β} (h : m.Performs task tr m' a)
    (h' : m'.Performs (f a) tr' m'' b) : m.Performs (task >>= f) (tr ++ tr') m'' b :=
  fun stack next => (h stack fun a => f a next).trans (h' stack next)

/-- A task that looks at the world first. -/
theorem look {f : World (Kind U) → Task U σ α} {a : α} (h : m.Performs (f m.world) tr m' a) :
    m.Performs (Task.world >>= f) tr m' a :=
  fun stack next => .head rfl rfl (h stack next)

end Performs

namespace Performs

variable {α β : Type} {m m₁ m₂ : Machine U σ} {task : Task U σ α} {tr tr₁ tr₂ : List Dispatch}

theorem runs_probe {a : α} {p : α → Bool} (h : m.Performs task tr m₁ a) (hp : p a = true) :
    (m.on [] (.run (task.probe p))).Runs tr (m₁.on [] (.reply true)) := by
  have hrun := h [] fun a => if p a then .done else .abort .repeatedKind
  rw [if_pos hp] at hrun
  exact hrun.snoc rfl rfl

theorem runs_probe_left {a : α} {p : α → Bool} (h : m.Performs task tr m₁ a) (hp : ¬ p a = true) :
    (m.on [] (.run (task.probe p))).Runs tr (m₁.on [] (.unwind .repeatedKind)) := by
  have hrun := h [] fun a => if p a then .done else .abort .repeatedKind
  rw [if_neg hp] at hrun
  exact hrun.snoc rfl rfl

/-- What a task answers can be read off one run. -/
theorem answer_of_run {a : α} {p : α → Bool} (h : m.Performs task tr m₁ a) {n : Nat}
    (hanswered : ((m.on [] (.run (task.probe p))).run n).isAnswered = true) : p a = true := by
  obtain ⟨hstep, hkept⟩ := Bool.and_eq_true_iff.mp hanswered
  by_contra hp
  have hend := (h.runs_probe_left hp).eq_of_done ⟨n, rfl, rfl⟩ rfl
    (Option.isNone_iff_eq_none.mp hstep)
  rw [← hend] at hkept
  cases hkept

/-- A task has one answer. -/
theorem answer_unique {a b : α} (h₁ : m.Performs task tr₁ m₁ a) (h₂ : m.Performs task tr₂ m₂ b) :
    a = b := by
  classical
  by_contra hne
  have hend := (h₁.runs_probe (p := fun c => decide (c = a)) (decide_eq_true rfl)).eq_of_done
    (h₂.runs_probe_left fun hb => hne (of_decide_eq_true hb).symm) rfl rfl
  cases congrArg Machine.control hend

/-- A task starts the same dispatches every time, and leads to the same machine. -/
theorem unique {a : α} (h₁ : m.Performs task tr₁ m₁ a) (h₂ : m.Performs task tr₂ m₂ a) :
    tr₁ = tr₂ ∧ m₁ = m₂.on m₁.stack m₁.control := by
  have hend₁ := h₁.runs_probe (p := fun _ => true) rfl
  have hend₂ := h₂.runs_probe (p := fun _ => true) rfl
  have hsame := congrArg (fun m : Machine U σ => m.on m₁.stack m₁.control)
    (hend₁.eq_of_done hend₂ rfl rfl)
  exact ⟨hend₁.trace_eq_of_done hend₂ rfl rfl, hsame⟩

end Performs

end Machine

/-! ## A run with a recycled index -/

/-- A scene whose user has no kinds of components. -/
instance : SceneFamily Empty where
  Value kind := nomatch kind
  geometry := .single

/-- The links of an entity are taken, and while that is announced a handler destroys the
entity, uses its index for another one and gives this one links. -/
def recycling : Script Empty Unit :=
  Task.toScript do
    let _ ← Task.connect .node .destroy fun _ e => Task.toScript do
      let _ ← Task.destroy e
      let other ← Task.create
      let _ ← Task.emplace .node other (.ok TreeNode.isolated)
    let e ← Task.create
    let _ ← Task.emplace .node e (.ok TreeNode.isolated)
    let _ ← Task.take .node e

end EntityScene
