import EntityScene.Proofs.Hookups

/-!
# Whose turn it is

A dispatch goes through the connections that its signal had when it started, one after the other,
however handlers connect, cut, block and release in the meantime, and whatever dispatches they
start themselves. When the turn of a connection comes it is called, unless it was cut or is
blocked at that point.

- `Machine.turn?`, `Machine.callee?`: whose turn it is in a dispatch, and who is called by it.
- `Dispatching`, `Dispatching.succ`: how far a dispatch has come.
- `callee?_succ_iff`: who is called is who has its turn, and neither was cut nor is blocked.
- `dispatches_take_turns`: what this says about all dispatches of all runs.
-/

namespace EntityScene

namespace Machine

variable {U σ : Type} [SceneFamily U] [DecidableEq U] {m m' : Machine U σ}
variable {id : ComponentId} {event : LifeEvent} {e : Entity} {k j n : Nat} {key : ConnectionKey}
variable {order : List ConnectionKey}

/-- The connection whose turn it is in the dispatch on top. -/
def next? (m : Machine U σ) : Option ConnectionKey :=
  match m.control, m.stack with
  | .reply _, .dispatch _ _ _ (key :: _) :: _ => some key
  | _, _ => none

/-- The connection whose handler is called by the next step. -/
def invoked? (m : Machine U σ) : Option ConnectionKey :=
  match m.control with
  | .invoke key _ => some key
  | _ => none

/-- What started at the first step goes on at the second, with nothing on top of it. -/
def OnTop (m : Machine U σ) (k j : Nat) : Prop :=
  m.Lasts k j ∧ (m.run j).stack.length = (m.run k).stack.length + 1

instance (m : Machine U σ) (k j : Nat) : Decidable (m.OnTop k j) :=
  inferInstanceAs (Decidable (_ ∧ _))

/-- The connection that has its turn at a step, in the dispatch that started at another. -/
def turn? (m : Machine U σ) (k j : Nat) : Option ConnectionKey :=
  if m.OnTop k j then (m.run j).next? else none

/-- The connection that is called at a step, by the dispatch that started at another. -/
def callee? (m : Machine U σ) (k j : Nat) : Option ConnectionKey :=
  if m.OnTop k j then (m.run j).invoked? else none

/-- Who had its turn before a step. -/
def turns (m : Machine U σ) (k n : Nat) : List ConnectionKey :=
  (List.range n).filterMap (m.turn? k)

/-- Who was called before a step. -/
def callees (m : Machine U σ) (k n : Nat) : List ConnectionKey :=
  (List.range n).filterMap (m.callee? k)

theorem turns_succ (m : Machine U σ) (k n : Nat) :
    m.turns k (n + 1) = m.turns k n ++ (m.turn? k n).toList := by
  rw [turns, List.range_succ, List.filterMap_append]
  cases h : m.turn? k n <;> simp [turns, h]

theorem callees_succ (m : Machine U σ) (k n : Nat) :
    m.callees k (n + 1) = m.callees k n ++ (m.callee? k n).toList := by
  rw [callees, List.range_succ, List.filterMap_append]
  cases h : m.callee? k n <;> simp [callees, h]

theorem turn?_of_not_onTop (h : ¬ m.OnTop k j) : m.turn? k j = none := if_neg h

/-- Nobody has a turn before the dispatch has started. -/
theorem turns_eq_nil (h : n ≤ k + 1) : m.turns k n = [] := by
  rw [turns, List.filterMap_eq_nil_iff]
  intro j hj
  refine turn?_of_not_onTop fun htop => ?_
  have hkj := htop.1.1
  have hjn := List.mem_range.mp hj
  omega

/-! ## How far a dispatch has come -/

/-- The dispatch that started at a step goes on at another, and those that are waiting come behind
those that had their turn. -/
structure Dispatching (m : Machine U σ) (k j : Nat) (id : ComponentId) (event : LifeEvent)
    (e : Entity) (order : List ConnectionKey) : Prop where
  lasts : m.Lasts k j
  frame : ∃ above rest, (m.run j).stack = above ++ .dispatch id event e rest :: (m.run k).stack ∧
    m.turns k j ++ rest = order

/-- The frame of a dispatch stays where it is, with all that lies below. -/
theorem Dispatching.of_stack (new : List (Frame U σ)) (rest : List ConnectionKey)
    (hlasts : m.Lasts k j)
    (hstack : (m.run (j + 1)).stack = new ++ .dispatch id event e rest :: (m.run k).stack)
    (hturns : m.turns k (j + 1) ++ rest = order) : m.Dispatching k (j + 1) id event e order := by
  refine ⟨hlasts.succ ?_, new, rest, hstack, hturns⟩
  rw [hstack, List.length_append, List.length_cons]
  omega

/-- A machine with something on its stack takes another step. -/
theorem Lasts.step (h : m.Lasts k j) : (m.run j).step = some (m.run (j + 1)) := by
  cases hstep : (m.run j).step with
  | some m' => rw [run_succ_of_run_step hstep]
  | none =>
    obtain ⟨hnil, -⟩ := (step_eq_none_iff _).mp hstep
    have hlength := h.length_lt
    rw [hnil] at hlength
    exact absurd hlength (Nat.not_lt_zero _)

/-- What started on a stack is over when there is nothing else on the stack. -/
theorem not_lasts_of_stack (hstack : (m.run j).stack = (m.run k).stack) : ¬ m.Lasts k j :=
  fun hlasts => absurd hlasts.length_lt (hstack ▸ Nat.lt_irrefl _)

/-- A dispatch starts with the listeners of its signal. -/
theorem dispatching_start (hk : (m.run k).control = .publish id event e) :
    m.Dispatching k (k + 1) id event e ((m.run k).world.listeners id event) := by
  have hstep : (m.run k).step = some ((m.run k).publish id event e) := by simp only [step, hk]
  have hnext := run_succ_of_run_step hstep
  refine
    { lasts := ⟨Nat.lt_succ_self k, fun i hi hki => ?_⟩
      frame := ⟨[], (m.run k).world.listeners id event, ?_, ?_⟩ }
  · obtain rfl : i = k + 1 := Nat.le_antisymm hi hki
    rw [hnext]
    exact Nat.lt_succ_self _
  · rw [hnext]
    rfl
  · rw [turns_eq_nil (Nat.le_refl _), List.nil_append]

/-- What lies below the frame on top stays. -/
theorem suffix_of_step (h : m.step = some m') {frame : Frame U σ} {rest : List (Frame U σ)}
    (hstack : m.stack = frame :: rest) : rest <:+ m'.stack := by
  rcases (turn_of_step h).suffix_or_told with hsuf | ⟨frame', rest', hstack', hsuf, -⟩
  · exact (hstack ▸ List.suffix_cons frame rest).trans hsuf
  · rw [hstack] at hstack'
    rw [(List.cons.inj hstack').2]
    exact hsuf

/-- A step that asks for something leaves the stack as it is, below what it puts there. -/
theorem suffix_of_step_of_ne (h : m.step = some m') (hreply : ∀ b, m.control ≠ .reply b)
    (hunwind : ∀ cause, m.control ≠ .unwind cause) : m.stack <:+ m'.stack := by
  rcases (turn_of_step h).suffix_or_told with hsuf | ⟨-, -, -, -, ⟨b, hc, -⟩ | ⟨cause, hc, -⟩⟩
  · exact hsuf
  · exact absurd hc (hreply b)
  · exact absurd hc (hunwind cause)

/-- A dispatch that goes on is on the stack. -/
theorem Dispatching.onTop_iff (h : m.Dispatching k j id event e order) {above : List (Frame U σ)}
    {rest : List ConnectionKey}
    (hstack : (m.run j).stack = above ++ .dispatch id event e rest :: (m.run k).stack) :
    m.OnTop k j ↔ above = [] := by
  rw [OnTop, hstack, List.length_append, List.length_cons, ← List.length_eq_zero_iff]
  constructor
  · rintro ⟨-, hlength⟩
    omega
  · exact fun hlength => ⟨h.lasts, by omega⟩

omit [DecidableEq U] in
/-- Whose turn it is in a dispatch on top. -/
theorem next?_of_dispatch {rest : List ConnectionKey} {stack : List (Frame U σ)} {b : Bool}
    (hcall : m.control = .reply b) (hstack : m.stack = .dispatch id event e rest :: stack) :
    m.next? = rest.head? := by
  unfold next?
  rw [hcall, hstack]
  cases rest <;> rfl

omit [DecidableEq U] in
/-- Nobody has a turn while somebody else is asked for something, or the dispatch is left. -/
theorem next?_of_ne (hreply : ∀ b, m.control ≠ .reply b) : m.next? = none := by
  unfold next?
  split
  · rename_i hc _
    exact absurd hc (hreply _)
  · rfl

/-- What lies above a dispatch comes and goes, and nobody has a turn in the meantime. -/
theorem Dispatching.succ_of_cons (h : m.Dispatching k j id event e order) (htop : ¬ m.OnTop k j)
    (hstep : (m.run j).step = some (m.run (j + 1))) : m.Dispatching k (j + 1) id event e order := by
  obtain ⟨above, rest, hstack, hturns⟩ := h.frame
  cases above with
  | nil => exact absurd ((h.onTop_iff hstack).mpr rfl) htop
  | cons frame above =>
    obtain ⟨new, hnew⟩ := suffix_of_step hstep hstack
    refine .of_stack (new ++ above) rest h.lasts ?_ ?_
    · rw [← hnew, List.append_assoc]
      rfl
    · rw [turns_succ, turn?_of_not_onTop htop, Option.toList_none, List.append_nil, hturns]

/-- A dispatch goes on, or has come to the end of its connections, or is abandoned. -/
theorem Dispatching.succ (h : m.Dispatching k j id event e order) :
    m.Dispatching k (j + 1) id event e order ∨
      ¬ m.Lasts k (j + 1) ∧ m.turns k (j + 1) <+: order ∧
        ((∃ cause, (m.run (j + 1)).control = .unwind cause) ∨ m.turns k (j + 1) = order) := by
  have hstep := h.lasts.step
  by_cases htop : m.OnTop k j
  · obtain ⟨above, rest, hstack, hturns⟩ := h.frame
    rw [(h.onTop_iff hstack).mp htop, List.nil_append] at hstack
    have hturn : m.turn? k j = (m.run j).next? := if_pos htop
    by_cases hreply : ∃ b, (m.run j).control = .reply b
    · obtain ⟨b, hreply⟩ := hreply
      rw [next?_of_dispatch hreply hstack] at hturn
      rw [step_of_reply hreply hstack, Option.some.injEq] at hstep
      cases rest with
      | nil =>
        -- everybody had their turn
        have hall : m.turns k (j + 1) = order := by
          rw [turns_succ, hturn, ← hturns]
          rfl
        refine .inr ⟨not_lasts_of_stack ?_, hall ▸ List.prefix_rfl, .inr hall⟩
        rw [← hstep]
        rfl
      | cons key rest =>
        refine .inl (.of_stack [] rest h.lasts ?_ ?_)
        · rw [← hstep]
          rfl
        · rw [turns_succ, hturn, ← hturns]
          exact List.append_assoc _ _ _
    · rw [next?_of_ne (not_exists.mp hreply)] at hturn
      have hsame : m.turns k (j + 1) = m.turns k j := by
        rw [turns_succ, hturn]
        exact List.append_nil _
      by_cases hunwind : ∃ cause, (m.run j).control = .unwind cause
      · obtain ⟨cause, hunwind⟩ := hunwind
        simp only [step, hunwind, hstack, Option.some.injEq] at hstep
        refine .inr ⟨not_lasts_of_stack ?_, ?_, .inl ⟨cause, ?_⟩⟩
        · rw [← hstep, stack_abandon]
        · rw [hsame, ← hturns]
          exact List.prefix_append _ _
        · rw [← hstep]
          rfl
      · obtain ⟨new, hnew⟩ := suffix_of_step_of_ne hstep (not_exists.mp hreply)
          (not_exists.mp hunwind)
        refine .inl (.of_stack new rest h.lasts ?_ ?_)
        · rw [← hnew, hstack]
        · rw [hsame, hturns]
  · exact .inl (h.succ_of_cons htop hstep)

/-- Whoever had their turn comes first in the order of the dispatch. -/
theorem turns_come_first (h : m.Dispatching k (k + 1) id event e order) (n : Nat) :
    (m.turns k n <+: order) ∧ (m.Lasts k n → m.Dispatching k n id event e order) := by
  induction n with
  | zero => exact ⟨List.nil_prefix, fun hlasts => absurd hlasts.1 (Nat.not_lt_zero k)⟩
  | succ n ih =>
    obtain ⟨hfirst, hnow⟩ := ih
    rcases Nat.lt_trichotomy k n with hkn | rfl | hnk
    · by_cases hlasts : m.Lasts k n
      · rcases (hnow hlasts).succ with hnext | ⟨hover, hfirst, -⟩
        · obtain ⟨above, rest, -, hturns⟩ := hnext.frame
          exact ⟨hturns ▸ List.prefix_append _ _, fun _ => hnext⟩
        · exact ⟨hfirst, fun hlasts => absurd hlasts hover⟩
      · -- a dispatch that is over stays so
        refine ⟨?_, fun hnext => absurd (hnext.mono hkn (Nat.le_succ n)) hlasts⟩
        rw [turns_succ, turn?_of_not_onTop fun htop => hlasts htop.1, Option.toList_none,
          List.append_nil]
        exact hfirst
    · rw [turns_eq_nil (Nat.le_refl _)]
      exact ⟨List.nil_prefix, fun _ => h⟩
    · rw [turns_eq_nil (Nat.le_succ_of_le hnk)]
      exact ⟨List.nil_prefix, fun hlasts => absurd hlasts.1 (Nat.not_lt.mpr hnk)⟩

/-- When a dispatch has come to its end everybody had their turn. -/
theorem turns_of_answered (h : m.Dispatching k (k + 1) id event e order) {b : Bool}
    (hanswered : m.Answered k j b) : m.turns k j = order := by
  obtain ⟨hkj, hduring, hstack, hcontrol⟩ := hanswered
  cases j with
  | zero => exact absurd hkj (Nat.not_lt_zero k)
  | succ j =>
    rcases Nat.lt_succ_iff_lt_or_eq.mp hkj with hlt | rfl
    · have hlasts : m.Lasts k j := ⟨hlt, fun i hij hki => hduring i hki (Nat.lt_succ_of_le hij)⟩
      rcases ((turns_come_first h j).2 hlasts).succ with hnext | ⟨-, -, ⟨cause, hc⟩ | hall⟩
      · exact absurd hnext.lasts (not_lasts_of_stack hstack)
      · rw [hcontrol] at hc
        cases hc
      · exact hall
    · exact absurd h.lasts (not_lasts_of_stack hstack)

/-! ## Who is called -/

/-- A handler is called by the dispatch on top, when it has its turn and its connection is
neither cut nor blocked. -/
theorem invoked?_of_step (h : m.step = some m') (hinvoked : m'.invoked? = some key) :
    m.next? = some key ∧ m.world.board.isActive key = true ∧ m'.stack.length = m.stack.length := by
  have hincidental : ¬ m'.control.isIncidental = true := fun hinc => by
    unfold invoked? at hinvoked
    split at hinvoked
    · rename_i hc
      rw [hc] at hinc
      cases hinc
    · cases hinvoked
  cases turn_of_step h with
  | asks new control stack frames next claims => exact absurd next hincidental
  | announces id e call stack control claims => simp [invoked?, control] at hinvoked
  | publishes id event e keys call stack control claims => simp [invoked?, control] at hinvoked
  | uproots key c e call stack next claims => exact absurd next hincidental
  | answers b frame rest call before after =>
    by_cases hframe : ∃ id event e keys, frame = .dispatch id event e keys
    · obtain ⟨id, event, e, keys, rfl⟩ := hframe
      cases keys with
      | nil =>
        rw [after] at hinvoked
        cases hinvoked
      | cons first keys =>
        rw [after] at hinvoked ⊢
        simp only [invoked?, resume, await] at hinvoked
        by_cases hactive : m.world.board.isActive first = true
        · simp only [hactive, if_true, Option.some.injEq] at hinvoked
          subst hinvoked
          refine ⟨next?_of_dispatch call before, hactive, ?_⟩
          rw [before]
          rfl
        · simp only [hactive] at hinvoked
          cases hinvoked
    · obtain ⟨-, -, -, hcontrol⟩ := grown_resume (m := { m with stack := rest })
        (fun id event e keys hc => hframe ⟨id, event, e, keys, hc⟩) b
      rw [← after] at hcontrol
      exact absurd hcontrol hincidental
  | leaves cause frame rest call before after =>
    rw [after] at hinvoked
    cases frame <;> simp [invoked?, abandon, proceed, releaseGuard, disclaim, call] at hinvoked

/-- A dispatch that is on top gives the next connection its turn, and calls it if it is neither
cut nor blocked. -/
theorem invoked?_of_next? (h : m.step = some m') (hnext : m.next? = some key)
    (hactive : m.world.board.isActive key = true) :
    m'.invoked? = some key ∧ m'.stack.length = m.stack.length := by
  unfold next? at hnext
  split at hnext
  · rename_i b id event e first keys stack hcall hstack
    obtain rfl := Option.some.inj hnext
    rw [step_of_reply hcall hstack] at h
    rw [← Option.some.inj h, hstack]
    simp only [invoked?, resume, await, hactive, if_true, true_and]
    rfl
  · cases hnext

/-- Whoever is called by a dispatch has its turn, and is neither cut nor blocked at that point; and
whoever has its turn and is neither cut nor blocked is called. -/
theorem callee?_succ_iff (hk : (m.run k).control = .publish id event e) :
    m.callee? k (j + 1) = some key ↔
      m.turn? k j = some key ∧ (m.run j).world.board.isActive key = true := by
  unfold callee? turn?
  constructor
  · intro hcallee
    rw [Option.ite_none_right_eq_some] at hcallee
    obtain ⟨⟨hlasts, hlength⟩, hinvoked⟩ := hcallee
    rcases Nat.lt_succ_iff_lt_or_eq.mp hlasts.1 with hkj | rfl
    · have hbefore := hlasts.mono hkj (Nat.le_succ j)
      obtain ⟨hnext, hactive, hsame⟩ := invoked?_of_step hbefore.step hinvoked
      rw [if_pos ⟨hbefore, hsame.symm.trans hlength⟩]
      exact ⟨hnext, hactive⟩
    · -- the first step of a dispatch calls nobody
      have hstep : (m.run k).step = some ((m.run k).publish id event e) := by simp only [step, hk]
      rw [run_succ_of_run_step hstep] at hinvoked
      cases hinvoked
  · rintro ⟨hturn, hactive⟩
    rw [Option.ite_none_right_eq_some] at hturn
    obtain ⟨⟨hlasts, hlength⟩, hnext⟩ := hturn
    obtain ⟨hinvoked, hsame⟩ := invoked?_of_next? hlasts.step hnext hactive
    rw [if_pos ⟨hlasts.succ (hsame ▸ hlasts.length_lt), hsame.trans hlength⟩, hinvoked]

theorem mem_turns (hturn : m.turn? k j = some key) (hjn : j < n) : key ∈ m.turns k n :=
  List.mem_filterMap.mpr ⟨j, List.mem_range.mpr hjn, hturn⟩

/-- Nobody has two turns. -/
theorem turn?_unique (h : m.Dispatching k (k + 1) id event e order) (hnodup : order.Nodup)
    {i : Nat} (hi : m.turn? k i = some key) (hj : m.turn? k j = some key) : i = j := by
  have hlt : ∀ {i j}, i < j → m.turn? k i = some key → m.turn? k j ≠ some key := by
    intro i j hij hi hj
    have htwice := hnodup.sublist (turns_come_first h (j + 1)).1.sublist
    rw [turns_succ, hj, Option.toList_some, List.nodup_append] at htwice
    exact htwice.2.2 key (mem_turns hi hij) key List.mem_cons_self rfl
  rcases Nat.lt_trichotomy i j with hij | heq | hji
  · exact absurd hj (hlt hij hi)
  · exact heq
  · exact absurd hi (hlt hji hj)

/-- Nobody is called before the first step. -/
theorem callee?_zero (m : Machine U σ) (k : Nat) : m.callee? k 0 = none :=
  if_neg fun htop => Nat.not_lt_zero k htop.1.1

/-- Those that are called are among those that had their turn, and in the same order. -/
theorem callees_sublist (hk : (m.run k).control = .publish id event e) (n : Nat) :
    (m.callees k (n + 1)).Sublist (m.turns k n) := by
  induction n with
  | zero =>
    rw [callees_succ, callee?_zero]
    exact .refl _
  | succ n ih =>
    rw [callees_succ, turns_succ]
    refine ih.append ?_
    cases hcallee : m.callee? k (n + 1) with
    | none => exact List.nil_sublist _
    | some key =>
      rw [((callee?_succ_iff hk).mp hcallee).1]

/-! ## All dispatches -/

/-- **Dispatches take turns.** Whatever handlers do to connections, and whatever dispatches they
start themselves: the handlers that a dispatch calls are in the order of those that were connected
when it started, and none is called twice. Everybody in that order has one turn, unless the dispatch
is abandoned, and whoever has a turn is called just if it is still connected and not blocked then. A
handler that is connected after the dispatch has started is not called by it, but by dispatches
that start later, as long as it is connected and not blocked when its turn comes. -/
theorem dispatches_take_turns (host : σ) (script : Script U σ)
    (hk : ((start host script).run k).control = .publish id event e) :
    let m := start host script
    let order := (m.connections k id event).filter (m.run k).world.board.isConnected
    order.Pairwise (· < ·) ∧
      (∀ n, (m.callees k n).Sublist order ∧ (m.callees k n).Nodup) ∧
      (∀ key, (∃ j, m.callee? k j = some key) ↔
        key ∈ order ∧ ∃ j, m.turn? k j = some key ∧ (m.run j).world.board.isActive key = true) ∧
      (∀ j key, m.callee? k (j + 1) = some key ↔
        m.turn? k j = some key ∧ (m.run j).world.board.isActive key = true) ∧
      (∀ n, m.turns k n <+: order) ∧
      (∀ i j key, m.turn? k i = some key → m.turn? k j = some key → i = j) ∧
      (∀ j b, m.Answered k j b → m.turns k j = order) ∧
      ∀ c hookup, (m.run c).hookup? = some hookup →
        (k ≤ c → ∀ j, m.callee? k j ≠ some hookup.key) ∧
        (c < k → hookup.id = id → hookup.event = event → ∀ j, k ≤ j →
          (m.run j).world.board.isConnected hookup.key = true → hookup.key ∈ order) ∧
        ∀ j, c < j → (m.run j).handlers[hookup.key]? = some hookup.handler := by
  intro m order
  have hhooked := hooked_run host script k
  have hstart : m.Dispatching k (k + 1) id event e order := by
    have hstart := dispatching_start hk
    rw [hhooked.listeners] at hstart
    exact hstart
  have hsorted : order.Pairwise (· < ·) := (hhooked.sorted id event).filter _
  have hnodup : order.Nodup := hsorted.imp Nat.ne_of_lt
  have hcallees : ∀ n, (m.callees k n).Sublist order := fun n => by
    cases n with
    | zero => exact List.nil_sublist _
    | succ n => exact (callees_sublist hk n).trans (turns_come_first hstart n).1.sublist
  have hturn : ∀ {j key}, m.turn? k j = some key → key ∈ order := fun {j key} hturn =>
    (turns_come_first hstart (j + 1)).1.subset (mem_turns hturn (Nat.lt_succ_self j))
  have hcallee : ∀ {j key}, m.callee? k j = some key →
      ∃ i, m.turn? k i = some key ∧ (m.run i).world.board.isActive key = true := by
    intro j key hcallee
    cases j with
    | zero =>
      rw [callee?_zero] at hcallee
      cases hcallee
    | succ j => exact ⟨j, (callee?_succ_iff hk).mp hcallee⟩
  refine ⟨hsorted, fun n => ⟨hcallees n, hnodup.sublist (hcallees n)⟩, fun key => ⟨?_, ?_⟩,
    fun j key => callee?_succ_iff hk, fun n => (turns_come_first hstart n).1,
    fun i j key => turn?_unique hstart hnodup, fun j b => turns_of_answered hstart,
    fun c hookup hc => ⟨fun hkc j hj => ?_, fun hck hid hevent j hkj hconnected => ?_,
      fun j => handlers_run hc⟩⟩
  · rintro ⟨j, hj⟩
    obtain ⟨i, hi, hactive⟩ := hcallee hj
    exact ⟨hturn hi, i, hi, hactive⟩
  · rintro ⟨-, j, hj, hactive⟩
    exact ⟨j + 1, (callee?_succ_iff hk).mpr ⟨hj, hactive⟩⟩
  · obtain ⟨i, hi, -⟩ := hcallee hj
    have hlt := hhooked.lt (List.mem_filter.mp (hturn hi)).1
    rw [key_of_hookup? hc] at hlt
    exact absurd hlt (Nat.not_lt.mpr (size_run_le host script hkc))
  · have hmade := mem_connections hc hck
    rw [hid, hevent] at hmade
    exact List.mem_filter.mpr
      ⟨hmade, isConnected_run_of_le host script hkj (hhooked.lt hmade) hconnected⟩

end Machine

/-- The first of four handlers, of which the second is blocked, connects a fifth, cuts the third,
releases the second and blocks the fourth, and then starts a dispatch of the same signal. -/
def meddling : Script Empty Nat :=
  Task.toScript do
    let _ ← Task.connect .node .update fun _ e => Task.toScript do
      if (← Task.host) = 0 then
        Task.note fun _ => 1
        let _ ← Task.connect .node .update fun _ _ => .done
        Task.disconnect 2
        let _ ← Task.release 0
        let _ ← Task.block 3
        let _ ← Task.patch .node e fun node => node
    let blocked ← Task.connect .node .update fun _ _ => .done
    let _ ← Task.connect .node .update fun _ _ => .done
    let _ ← Task.connect .node .update fun _ _ => .done
    let _ ← Task.block blocked
    let e ← Task.create
    let _ ← Task.emplace .node e (.ok TreeNode.isolated)
    let _ ← Task.patch .node e fun node => node

/-- The second handler is called by the dispatch at whose start it was blocked. The fifth is not
called by it, but by the one that starts later. -/
theorem Machine.dispatches_take_turns_meddling :
    ((start 0 meddling).run 12).control = .publish 0 .update ⟨0, .initial⟩ ∧
      ((start 0 meddling).run 12).world.board.isActive 1 = false ∧
      (∀ n, ((start 0 meddling).callees 12 n).Sublist [0, 1, 2, 3]) ∧
      (start 0 meddling).callee? 12 38 = some 1 ∧
      (∀ j, (start 0 meddling).callee? 12 j ≠ some 4) ∧
      ((start 0 meddling).run 22).control = .publish 0 .update ⟨0, .initial⟩ ∧
      (∀ n, ((start 0 meddling).callees 22 n).Sublist [0, 1, 3, 4]) ∧
      (start 0 meddling).callee? 22 32 = some 4 := by
  have houter : ((start 0 meddling).run 12).control = .publish 0 .update ⟨0, .initial⟩ := by
    with_unfolding_all rfl
  have hinner : ((start 0 meddling).run 22).control = .publish 0 .update ⟨0, .initial⟩ := by
    with_unfolding_all rfl
  have horder : ((start 0 meddling).connections 12 0 .update).filter
      ((start 0 meddling).run 12).world.board.isConnected = [0, 1, 2, 3] := by decide +kernel
  have horder' : ((start 0 meddling).connections 22 0 .update).filter
      ((start 0 meddling).run 22).world.board.isConnected = [0, 1, 3, 4] := by decide +kernel
  have hfifth : ((start 0 meddling).run 17).hookup? =
      some { id := 0, event := .update, key := 4, handler := .script fun _ => .done } := by
    with_unfolding_all rfl
  obtain ⟨-, hcallees, -, hturn, -, -, -, hlater⟩ := dispatches_take_turns 0 meddling houter
  obtain ⟨-, hcallees', -, hturn', -⟩ := dispatches_take_turns 0 meddling hinner
  refine ⟨houter, by decide +kernel, fun n => ?_, ?_, (hlater 17 _ hfifth).1 (by decide), hinner,
    fun n => ?_, ?_⟩
  · rw [← horder]
    exact (hcallees n).1
  · exact (hturn 37 1).mpr ⟨by decide +kernel, by decide +kernel⟩
  · rw [← horder']
    exact (hcallees' n).1
  · exact (hturn' 31 4).mpr ⟨by decide +kernel, by decide +kernel⟩

end EntityScene
