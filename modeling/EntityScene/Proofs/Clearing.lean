import EntityScene.Program.Edit
import EntityScene.Proofs.Lives

/-!
# Clearing a scene

`Task.clear` asks for the destruction of everybody who is there when it starts, one after the other.
Handlers and cascades go on in the middle of that, so whose turn it is may be gone by then, may
have been reached by a cascade, or may have its index used by somebody else. What carries the law is
that between two of these calls nobody is being destroyed: whoever is valid when its turn comes is
accepted, and a call that is refused is for an entity that is gone.

- `Machine.Clearing`: how far `Task.clear` has come, whatever goes on above it.
- `Clearing.of_step`, `Clearing.of_run`: everybody has a turn, with nothing but the task waiting.
- `exists_released_of_destroy`, `Clearing.exists_released`: whoever is valid at its turn is given up
  before the task answers.
- `cases_of_isValid`: who is valid was so all along, or was issued on the way.
- `movedOn_run`: how often an index was used again since a handle for it was live.
- `clear_leaves_only_newcomers`: what this says about all runs.
-/

namespace EntityScene

variable {U σ : Type} [SceneFamily U] [DecidableEq U]

namespace Machine

variable {m m' : Machine U σ} {n : Nat} {x : Entity} {es : List Entity}

/-! ## Turns -/

/-- `Task.clear` goes on below everything else, and these have not had their turn. -/
inductive Clearing (m : Machine U σ) : List Entity → Prop
  /-- It is about to look who is there. -/
  | starting (control : m.control = .run Task.clear.toScript) (stack : m.stack = []) :
    Clearing m m.world.handles
  /-- The next one has its turn. -/
  | asking {es : List Entity} (control : m.control = .run (Task.destroyAll es).toScript)
    (stack : m.stack = []) : Clearing m es
  /-- Somebody has had a turn, and that goes on. -/
  | waiting {es : List Entity}
    (stack : [.resume fun _ => (Task.destroyAll es).toScript] <:+ m.stack) : Clearing m es
  /-- Everybody has had a turn. -/
  | ended (control : m.control = .reply true) (stack : m.stack = []) : Clearing m []

/-- A step leaves those who have their turn ahead as they are, or gives the next one its turn. -/
theorem Clearing.of_step (h : m.Clearing es) (hord : ∀ cause, m.control ≠ .unwind cause)
    (hstep : m.step = some m') :
    m'.Clearing es ∨ ∃ e rest, es = e :: rest ∧ m'.Clearing rest ∧ m'.control = .destroy e ∧
      m'.stack = [.resume fun _ => (Task.destroyAll rest).toScript] := by
  cases h with
  | starting control stack =>
    simp only [step, control, Option.some.injEq] at hstep
    subst hstep
    exact .inl (.asking rfl stack)
  | asking control stack =>
    simp only [step, control, Option.some.injEq] at hstep
    subst hstep
    cases es with
    | nil => exact .inl (.ended rfl stack)
    | cons e rest =>
      have hstack : (m.runScript (Task.destroyAll (e :: rest)).toScript).stack =
          [.resume fun _ => (Task.destroyAll rest).toScript] :=
        congrArg (List.cons (Frame.resume fun _ => (Task.destroyAll rest).toScript)) stack
      exact .inr ⟨e, rest, rfl, .waiting (hstack ▸ List.suffix_rfl), rfl, hstack⟩
  | waiting stack =>
    by_cases hstays : [.resume fun _ => (Task.destroyAll es).toScript] <:+ m'.stack
    · exact .inl (.waiting hstays)
    · obtain ⟨-, ⟨b, -, rfl⟩ | ⟨cause, hcall, -⟩⟩ := told_of_gone hstep stack hstays
      · exact .inl (.asking rfl rfl)
      · exact absurd hcall (hord cause)
  | ended control stack =>
    rw [(step_eq_none_iff m).mpr ⟨stack, .inl ⟨true, control⟩⟩] at hstep
    cases hstep

/-- Whoever does not have its turn ahead had it, and then only the task waited. -/
theorem Clearing.of_run (h : m.Clearing es) (hord : m.Ordinary n) :
    ∃ rest, (m.run n).Clearing rest ∧ ∀ e ∈ es, e ∈ rest ∨
      ∃ i ≤ n, (m.run i).control = .destroy e ∧ ∃ next, (m.run i).stack = [.resume next] := by
  induction n with
  | zero => exact ⟨es, h, fun e he => .inl he⟩
  | succ n ih =>
    obtain ⟨rest, hrest, hturns⟩ := ih hord.of_succ
    have hbefore : ∀ e ∈ es, e ∈ rest ∨ ∃ i ≤ n + 1, (m.run i).control = .destroy e ∧
        ∃ next, (m.run i).stack = [.resume next] := fun e he =>
      (hturns e he).imp_right fun ⟨i, hi, hturn⟩ => ⟨i, Nat.le_succ_of_le hi, hturn⟩
    rcases run_succ_cases m n with heq | hstep
    · exact ⟨rest, heq ▸ hrest, hbefore⟩
    · have hordinary : ∀ cause, (m.run n).control ≠ .unwind cause := fun cause hc => by
        have hlast := hord.of_succ.last
        rw [hc] at hlast
        cases hlast
      rcases hrest.of_step hordinary hstep with hnext | ⟨e, rest', rfl, hnext, hcontrol, hstack⟩
      · exact ⟨rest, hnext, hbefore⟩
      · refine ⟨rest', hnext, fun x hx => ?_⟩
        rcases hbefore x hx with hmem | hturn
        · rcases List.mem_cons.mp hmem with rfl | hmem
          · exact .inr ⟨n + 1, Nat.le_refl _, hcontrol, _, hstack⟩
          · exact .inl hmem
        · exact .inr hturn

omit [DecidableEq U] in
/-- The task creates nobody: a handle that is issued meanwhile is asked for by a handler. -/
theorem Clearing.stack_ne_nil (h : m.Clearing es) (hissued : m.issued? = some x) :
    m.stack ≠ [] := by
  obtain ⟨next, -, hcall, -⟩ := issued?_eq_some hissued
  cases h with
  | starting control stack => cases hcall.symm.trans control
  | asking control stack =>
    rw [hcall] at control
    cases es with
    | nil => cases control
    | cons e rest => cases control
  | waiting stack =>
    intro hnil
    rw [hnil] at stack
    cases List.suffix_nil.mp stack
  | ended control stack => cases hcall.symm.trans control

theorem stack_of_isAnswered (h : m.isAnswered = true) : m.stack = [] :=
  ((step_eq_none_iff m).mp (Option.isNone_iff_eq_none.mp (Bool.and_eq_true_iff.mp h).1)).1

/-- When there is an answer everybody has had a turn. -/
theorem Clearing.eq_nil (h : m.Clearing es) (hanswered : m.isAnswered = true) : es = [] := by
  obtain ⟨hnone, -⟩ := Bool.and_eq_true_iff.mp hanswered
  obtain ⟨hstack, hcontrol⟩ := (step_eq_none_iff m).mp (Option.isNone_iff_eq_none.mp hnone)
  cases h with
  | starting control stack => simp [control] at hcontrol
  | asking control stack => simp [control] at hcontrol
  | waiting stack =>
    rw [hstack] at stack
    cases List.suffix_nil.mp stack
  | ended control stack => rfl

/-! ## Who is there in the meantime -/

/-- Whoever waits on the stack to be given up is being destroyed. -/
theorem isDestroying_of_mem_destructions (h : Sound m.world m.stack m.control)
    {p : Entity × List (Frame U σ)} (hp : p ∈ destructions m.stack) :
    m.world.isDestroying p.1 = true :=
  (h.destroying p.1).mpr (mem_destroyed_of_mem_destructions hp)

section Meantime

variable (hsound : Sound m.world m.stack m.control) (hord : m.Ordinary n)

include hsound hord

theorem sound_of_le {k : Nat} (hk : k ≤ n) :
    Sound (m.run k).world (m.run k).stack (m.run k).control :=
  sound_run_from hsound (hord.mono hk)

/-- Whoever is valid is so until it is given up, and whoever becomes so is issued. -/
theorem isValid_succ_iff {k : Nat} (hk : k ≤ n) (x : Entity) :
    (m.run (k + 1)).world.isValid x = true ↔
      ((m.run k).world.isValid x = true ∨ (m.run k).issued? = some x) ∧
        (m.run k).released? ≠ some x := by
  have hnow := sound_of_le hsound hord hk
  exact (turnover_run m hnow.wf.table).isValid_iff hnow.wf.table
    (fun _ => isDestroying_of_mem_destructions hnow) x

/-- Who is valid was so all along, or was issued on the way. -/
theorem cases_of_isValid {k : Nat} (hk : k ≤ n) (hx : (m.run k).world.isValid x = true) :
    (m.world.isValid x = true ∧ ∀ l < k, (m.run l).released? ≠ some x) ∨
      ∃ l < k, (m.run l).issued? = some x ∧
        ∀ j, l < j → j ≤ k → (m.run j).world.isValid x = true := by
  induction k with
  | zero => exact .inl ⟨hx, fun l hl => absurd hl (Nat.not_lt_zero l)⟩
  | succ k ih =>
    have hkn := Nat.le_of_succ_le hk
    obtain ⟨hbefore, hreleased⟩ := (isValid_succ_iff hsound hord hkn x).mp hx
    rcases hbefore with hvalid | hissued
    · rcases ih hkn hvalid with ⟨hstart, hkept⟩ | ⟨l, hl, hissued, hsince⟩
      · refine .inl ⟨hstart, fun l hl => ?_⟩
        rcases Nat.lt_succ_iff_lt_or_eq.mp hl with hl | rfl
        · exact hkept l hl
        · exact hreleased
      · refine .inr ⟨l, Nat.lt_succ_of_lt hl, hissued, fun j hlj hj => ?_⟩
        rcases Nat.le_succ_iff.mp hj with hj | rfl
        · exact hsince j hlj hj
        · exact hx
    · refine .inr ⟨k, Nat.lt_succ_self k, hissued, fun j hkj hj => ?_⟩
      obtain rfl := Nat.le_antisymm hj hkj
      exact hx

theorem isValid_of_not_released (hx : m.world.isValid x = true)
    (hkept : ∀ l < n, (m.run l).released? ≠ some x) {k : Nat} (hk : k ≤ n) :
    (m.run k).world.isValid x = true := by
  induction k with
  | zero => exact hx
  | succ k ih =>
    have hkn := Nat.le_of_succ_le hk
    exact (isValid_succ_iff hsound hord hkn x).mpr ⟨.inl (ih hkn), hkept k hk⟩

/-- Whoever is valid when a task asks for its destruction is given up by the time that no call is
in progress. -/
theorem exists_released_of_destroy {i : Nat} (hi : i < n)
    (hcall : (m.run i).control = .destroy x) (hplain : ∀ f ∈ (m.run i).stack, f.isPlain = true)
    (hx : (m.run i).world.isValid x = true)
    (hscope : (m.run n).stack.all Frame.isScope = true) :
    ∃ l < n, (m.run l).released? = some x := by
  by_contra hkept
  have hkept : ∀ l < n, (m.run l).released? ≠ some x := fun l hl hr => hkept ⟨l, hl, hr⟩
  have hquiet := (sound_of_le hsound hord (Nat.le_of_lt hi)).isDestroying_of_plain hplain x
  have haccepted := accepted?_of_accepts hcall hx hquiet
  have hduring : ∀ k, i < k → k ≤ n → (m.run k).world.isDestroying x = true := by
    intro k hik
    induction hik with
    | refl =>
      intro _
      exact isDestroying_of_accepted_turnover
        (turnover_run m (sound_of_le hsound hord (Nat.le_of_lt hi)).wf.table) haccepted (hkept i hi)
    | @step k hik ih =>
      intro hk
      have hnow := sound_of_le hsound hord (Nat.le_of_succ_le hk)
      exact (turnover_run m hnow.wf.table).isDestroying hnow.wf.table
        (fun _ => isDestroying_of_mem_destructions hnow) (ih (Nat.le_of_succ_le hk)) (hkept k hk)
  have hend := ((sound_of_le hsound hord (Nat.le_refl n)).settled hscope).destroying x
  rw [hduring n hi (Nat.le_refl n)] at hend
  cases hend

/-- Whoever has its turn ahead and is valid is given up by the time that there is an answer. -/
theorem Clearing.exists_released (h : m.Clearing es) (hanswered : (m.run n).isAnswered = true)
    (hx : m.world.isValid x = true) (hmem : x ∈ es) : ∃ l < n, (m.run l).released? = some x := by
  by_contra hnone
  have hkept : ∀ l < n, (m.run l).released? ≠ some x := fun l hl hr => hnone ⟨l, hl, hr⟩
  have hstack := stack_of_isAnswered hanswered
  obtain ⟨rest, hrest, hturns⟩ := h.of_run hord
  obtain rfl := hrest.eq_nil hanswered
  rcases hturns x hmem with hlate | ⟨i, hi, hcall, next, hturn⟩
  · cases hlate
  · -- when there is an answer nobody waits, and so the turn was before
    have hin : i < n := by
      refine Nat.lt_of_le_of_ne hi fun heq => ?_
      rw [heq, hstack] at hturn
      cases hturn
    exact hnone (exists_released_of_destroy hsound hord hin hcall (by simp [hturn, Frame.isPlain])
      (isValid_of_not_released hsound hord hx hkept hi) (by rw [hstack]; rfl))

end Meantime

/-! ## Handles that come back -/

omit [DecidableEq U] in
/-- Where no handle is issued no index is used again. -/
theorem reissued?_of_issued? (hwf : m.world.entities.Wf) (h : m.issued? = none) :
    m.reissued? = none := by
  unfold issued? at h
  unfold reissued?
  split
  · rename_i next hcall
    obtain ⟨created, t', halloc⟩ : ∃ created t', m.world.entities.allocate = (created, t') :=
      ⟨_, _, rfl⟩
    simp only [hcall, halloc] at h
    cases created with
    | ok e => cases h
    | error cause =>
      obtain ⟨-, -, hnone⟩ := Entity.Table.allocate_error hwf halloc
      rw [hnone]
      rfl
  · rfl

omit [DecidableEq U] in
theorem movedOn_turnover (ht : Turnover m m') (hwf : m.world.entities.Wf) {count : UInt32 → Nat}
    (h : m.world.entities.MovedOn x (count x.index)) :
    m'.world.entities.MovedOn x (m.recount count x.index) := by
  cases ht with
  | kept issued accepted released entities under =>
    rw [recount_of_none (reissued?_of_issued? hwf issued), entities]
    exact h
  | abandoned e cause issued accepted released entities under answer =>
    rw [recount_of_none (reissued?_of_issued? hwf issued), entities]
    exact h
  | issued e next call issued accepted released stack answer entities =>
    rw [recount_of_create call]
    exact h.allocate hwf entities
  | accepted e issued accepted released entities under =>
    rw [recount_of_none (reissued?_of_issued? hwf issued), entities]
    exact h.beginDestroy e
  | released e issued accepted released entities under answer =>
    rw [recount_of_none (reissued?_of_issued? hwf issued), entities]
    exact h.release e
  | both e issued accepted released entities stack answer =>
    rw [recount_of_none (reissued?_of_issued? hwf issued), entities]
    exact (h.beginDestroy e).release e

/-- How often an index was used again since a handle for it was live. -/
theorem movedOn_run (hsound : Sound m.world m.stack m.control) (hord : m.Ordinary n)
    (hx : m.world.isValid x = true) :
    (m.run n).world.entities.MovedOn x (m.reissues n x.index) := by
  induction n with
  | zero => exact Entity.Table.movedOn_of_isAlive hx
  | succ n ih =>
    have hwf := (sound_run_from hsound hord.of_succ).wf.table
    rw [reissues_eq_recount]
    exact movedOn_turnover (turnover_run m hwf) hwf (ih hord.of_succ)

/-- Who was valid and is issued again is not valid for less than all generations. -/
theorem isValid_of_released_of_reissues (hsound : Sound m.world m.stack m.control)
    (hord : m.Ordinary n) (hx : m.world.isValid x = true) {l : Nat} (hl : l < n)
    (hreleased : (m.run l).released? = some x) (hlt : m.reissues n x.index < 2 ^ 32) :
    (m.run n).world.isValid x = false := by
  refine Bool.eq_false_iff.mpr fun hvalid => ?_
  rcases cases_of_isValid hsound hord (Nat.le_refl n) hvalid with ⟨-, hkept⟩ | ⟨i, hi, hissued, -⟩
  · exact hkept l hl hreleased
  · -- it was issued again, and so its index was used again
    have hnever := (movedOn_run hsound hord hx).eq_zero_of_isAlive hlt hvalid
    have hbefore := movedOn_run hsound (hord.mono (Nat.le_of_lt hi)) hx
    have hwf := (sound_of_le hsound hord (Nat.le_of_lt hi)).wf.table
    have honce : 0 < m.reissues (i + 1) x.index := by
      obtain ⟨next, table, hcall, halloc⟩ := issued?_eq_some hissued
      rw [reissues_eq_recount, recount_of_create hcall, Entity.Table.reusing,
        if_pos (hbefore.head?_released hwf halloc)]
      exact Nat.succ_pos _
    exact absurd (Nat.le_zero.mp (hnever ▸ reissues_mono m hi x.index)) (Nat.ne_of_gt honce)

/-! ## All runs -/

/-- **Clearing leaves only newcomers.** Between two calls of a run in which nothing was abandoned
everything is cleared, with or without a cascade. Handlers may create, destroy and link in the
middle of that. When it answers, whoever was there was given up meanwhile, and is gone with all of
its rows unless its index was used again `2 ^ 32` times. Whoever is there was issued meanwhile, to
a handler, and was not given up since, and no storage has a row of anybody else. -/
theorem clear_leaves_only_newcomers (host : σ) (script : Script U σ) (k n : Nat)
    (h : (start host script).Ordinary k)
    (hscope : ((start host script).run k).stack.all Frame.isScope = true)
    (hord : (((start host script).run k).on [] (.run Task.clear.toScript)).Ordinary n)
    (hanswered :
      ((((start host script).run k).on [] (.run Task.clear.toScript)).run n).isAnswered = true) :
    let m := ((start host script).run k).on [] (.run Task.clear.toScript)
    (∀ x, m.world.isValid x = true →
        (∃ l < n, (m.run l).released? = some x) ∧
          (m.reissues n x.index < 2 ^ 32 → (m.run n).world.isValid x = false ∧
            ∀ id, (m.run n).world.holds id x = false)) ∧
      (∀ x, (m.run n).world.isValid x = true →
        ∃ l < n, (m.run l).issued? = some x ∧ (m.run l).stack ≠ [] ∧
          ∀ j, l < j → j ≤ n → (m.run j).world.isValid x = true) ∧
      ∀ id x, (m.run n).world.holds id x = true → (m.run n).world.isValid x = true := by
  intro m
  have hbefore := sound_run host script h
  have hsettled := hbefore.settled hscope
  have hsound : Sound m.world m.stack m.control :=
    sound_nil hbefore.wf hsettled.removing hsettled.destroying
      (fun id x hx => ((World.accepts_iff _ x).mp (hsettled.accepts hbefore.wf hx)).1) _
  have hend := sound_run_from hsound hord
  have hover : (m.run n).stack.all Frame.isScope = true := by
    rw [stack_of_isAnswered hanswered]
    rfl
  have hrows : ∀ id x, (m.run n).world.holds id x = true → (m.run n).world.isValid x = true :=
    fun id x hx => ((World.accepts_iff _ x).mp ((hend.settled hover).accepts hend.wf hx)).1
  have hclearing : m.Clearing m.world.handles := .starting rfl rfl
  have hreleased : ∀ x, m.world.isValid x = true → ∃ l < n, (m.run l).released? = some x :=
    fun x hx => hclearing.exists_released hsound hord hanswered hx
      ((Entity.Table.mem_toList_iff hbefore.wf.table).mpr hx)
  refine ⟨fun x hx => ⟨hreleased x hx, fun hlt => ?_⟩, fun x hx => ?_, hrows⟩
  · obtain ⟨l, hl, hr⟩ := hreleased x hx
    have hdead := isValid_of_released_of_reissues hsound hord hx hl hr hlt
    refine ⟨hdead, fun id => Bool.eq_false_iff.mpr fun hrow => ?_⟩
    rw [hrows id x hrow] at hdead
    cases hdead
  · rcases cases_of_isValid hsound hord (Nat.le_refl n) hx with ⟨hstart, hkept⟩ | hissued
    · obtain ⟨l, hl, hr⟩ := hreleased x hstart
      exact absurd hr (hkept l hl)
    · obtain ⟨l, hl, hissued, hsince⟩ := hissued
      obtain ⟨rest, hrest, -⟩ := hclearing.of_run (hord.mono (Nat.le_of_lt hl))
      exact ⟨l, hl, hissued, hrest.stack_ne_nil hissued, hsince⟩

end Machine

/-- A node with a child, and a node aside. While it is announced that the first one loses its links
somebody destroys the node aside and makes another one, which gets its index. -/
def replacing : Script Empty Unit :=
  Task.toScript do
    Task.cascade
    let _ ← Task.connect .node .destroy fun _ e => Task.toScript do
      if e = ⟨0, .initial⟩ then
        let _ ← Task.destroy ⟨2, .initial⟩
        let _ ← Task.spawnNode
    let root ← Task.spawnNode
    let _ ← Task.spawnChild root
    let _ ← Task.spawnNode

/-- To clear these, the task asks for the child after the cascade took it, and for the node aside
when its index is used by the new one, which stays. -/
theorem Machine.clear_leaves_only_newcomers_replacing :
    let m := ((start () replacing).run 46).on [] (.run Task.clear.toScript)
    m.world.handles = [⟨0, .initial⟩, ⟨1, .initial⟩, ⟨2, .initial⟩] ∧
      (∀ e ∈ m.world.handles, (m.run 78).world.isValid e = false ∧
        ∀ id, (m.run 78).world.holds id e = false) ∧
      (m.run 78).world.handles = [⟨2, ⟨1⟩⟩] ∧
      ∃ l < 78, (m.run l).issued? = some ⟨2, ⟨1⟩⟩ ∧ (m.run l).stack ≠ [] := by
  intro m
  obtain ⟨hgone, hnew, -⟩ := clear_leaves_only_newcomers () replacing 46 78 (by decide +kernel)
    (by decide +kernel) (by decide +kernel) (by decide +kernel)
  have hbefore : m.world.handles = [⟨0, .initial⟩, ⟨1, .initial⟩, ⟨2, .initial⟩] := by
    decide +kernel
  have hvalid : ∀ e ∈ m.world.handles, m.world.isValid e = true := by decide +kernel
  refine ⟨hbefore, fun e he => (hgone e (hvalid e he)).2
    (Nat.lt_of_le_of_lt (reissues_le m 78 e.index) (by decide)), by decide +kernel, ?_⟩
  obtain ⟨l, hl, hissued, hstack, -⟩ := hnew ⟨2, ⟨1⟩⟩ (by decide +kernel)
  exact ⟨l, hl, hissued, hstack⟩

end EntityScene
