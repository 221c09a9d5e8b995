import EntityScene.Proofs.Sparing
import EntityScene.Proofs.Clearing

/-!
# A child that cannot be linked is disposed of

`Task.spawnChild` creates a node, gives it its components, and links it. Each of these calls lets
handlers run, which may have destroyed the node, or its parent, by the time that the link is
checked. If the link is refused the node is destroyed, and the answer of that call is not looked at.
The entity is gone in any case: when its destruction is asked for it is not being destroyed, since
whoever is waits on the stack for it to end, and the stack is the one from before the entity was
created.

- `Machine.ComesBack`: where a script has its turn, a task comes back with an answer of a kind.
- `Discarding`, `Discarding.of_step`: a destruction that is asked for, to the end.
- `Concludes`: how the task goes on when it is clear whether there is a link.
- `Spawning`, `Spawning.of_step`, `Spawning.of_run`: from the creation to the answer.
- `failed_spawns_leave_nothing`: what is left of a child that there was no place for.
-/

namespace EntityScene

variable {U σ : Type} [SceneFamily U]

namespace Task

/-- What is left to do for a child when it has been created. -/
def furnish [DecidableEq U] (parent child : Entity) : Task U σ (Except EditError Entity) := do
  let _ ← emplace .node child (.ok TreeNode.isolated)
  let _ ← emplace .transform child (.ok Transform.identity)
  match ← appendChild parent child with
  | .ok () => return .ok child
  | .error refusal =>
    let _ ← destroy child
    return .error refusal

end Task

theorem World.allocate_of_create {w w' : World (Kind U)} {created : Except Abort Entity}
    (h : w.create = (created, w')) : w.entities.allocate = (created, w'.entities) := by
  cases h
  rfl

namespace Poised

variable {closed : Entity → Prop} {ended : Script U σ → Prop}
variable {base stack rest : List (Frame U σ)} {control : Control U σ}

theorem suffix (h : Poised closed ended base stack control) : base <:+ stack := by
  cases h with
  | running h => exact List.suffix_rfl
  | leaving cause => exact List.suffix_rfl
  | calling h => exact (List.suffix_cons _ _).trans (List.suffix_append _ _)

/-- What is answered to is a frame above the script, or the one that its call waits on. -/
theorem suffix_tail (h : Poised closed ended base stack control) {b : Bool}
    (hreply : control = .reply b) {frame : Frame U σ} (hstack : stack = frame :: rest) :
    base <:+ rest := by
  cases h with
  | running h => cases hreply
  | leaving cause => cases hreply
  | @calling upper next control h =>
    cases upper with
    | nil => exact (List.cons.inj hstack).2 ▸ List.suffix_rfl
    | cons g upper =>
      rw [← (List.cons.inj hstack).2]
      exact (List.suffix_cons _ _).trans (List.suffix_append _ _)

end Poised

namespace Machine

variable {m m' : Machine U σ} {n : Nat} {x child parent : Entity} {base : List (Frame U σ)}

/-- The machine where a script has its turn, about to do a task. After some answers the script is
done, and after all others it gives up. -/
def setOut {α : Type} (m : Machine U σ) (task : Task U σ α) (p : α → Bool) : Machine U σ :=
  m.on m.stack (.run (task.probe p))

/-- After some steps a task comes back for the first time, with an answer of the given kind, and
nothing was abandoned meanwhile. -/
structure ComesBack [DecidableEq U] {α : Type} (m : Machine U σ) (task : Task U σ α)
    (p : α → Bool) (n : Nat) : Prop where
  ordinary : (m.setOut task p).Ordinary n
  stack : ((m.setOut task p).run n).stack = m.stack
  control : ((m.setOut task p).run n).control = .run .done
  first : ∀ i < n, ((m.setOut task p).run i).stack = m.stack →
    ((m.setOut task p).run i).control ≠ .run .done

/-! ## A destruction, to the end -/

/-- The destruction of an entity is asked for, under way, or has been answered when the entity is
gone. -/
inductive Discarding (x : Entity) (base : List (Frame U σ)) (m : Machine U σ) : Prop
  | asked (control : m.control = .destroy x) (stack : m.stack = base)
  | underway (waits : (x, base) ∈ destructions m.stack)
  | answered (b : Bool) (control : m.control = .reply b) (stack : m.stack = base)
    (gone : m.world.isValid x = false)

variable [DecidableEq U]

/-- Where nothing is abandoned, a destruction goes on until it is answered. It is not refused to an
entity for which no destruction waits below. -/
theorem Discarding.of_step (h : m.Discarding x base)
    (hsound : Sound m.world m.stack m.control) (hfree : x ∉ destroyed base)
    (hord : ∀ cause, m'.control ≠ .unwind cause) (hstep : m.step = some m') :
    m'.Discarding x base ∨
      ∃ b, m.control = .reply b ∧ m.stack = base ∧ m.world.isValid x = false := by
  have hturnover := turnover_of_step hsound.wf.table hstep
  have hgone : m.released? = some x → m'.world.isValid x = false := by
    intro hreleased
    rw [Bool.eq_false_iff, Ne, hturnover.isValid_iff hsound.wf.table fun _ =>
      isDestroying_of_mem_destructions hsound]
    exact fun hc => hc.2 hreleased
  cases h with
  | asked control stack =>
    cases haccepts : m.world.accepts x with
    | true =>
      have haccepted : m.accepted? = some x := by
        rw [accepted?, control]
        exact if_pos haccepts
      rcases hturnover.accepted_cases haccepted with ⟨-, -, hunder⟩ | ⟨hreleased, -, hstack, hc⟩
      · refine .inl (.underway ?_)
        rw [hunder, stack]
        exact List.mem_cons_self
      · exact .inl (.answered true hc (hstack.trans stack) (hgone hreleased))
    | false =>
      have hdestroying : m.world.isDestroying x = false := by
        rw [Bool.eq_false_iff, Ne, hsound.destroying, stack]
        exact hfree
      have hinvalid : m.world.isValid x = false := by
        rw [Bool.eq_false_iff]
        intro hvalid
        rw [(World.accepts_iff _ _).mpr ⟨hvalid, hdestroying⟩] at haccepts
        cases haccepts
      have hrefused := step_destroy_refused haccepts m.stack
      rw [← control] at hrefused
      obtain rfl := Option.some.inj (hrefused.symm.trans hstep)
      exact .inl (.answered false rfl stack hinvalid)
  | underway waits =>
    rcases hturnover.mem_destructions waits with hmem | ⟨hstack, hreleased | ⟨cause, hc⟩⟩
    · exact .inl (.underway hmem)
    · exact .inl (.answered true (hturnover.released_cases hreleased).1 hstack (hgone hreleased))
    · exact absurd hc (hord cause)
  | answered b control stack gone => exact .inr ⟨b, control, stack, gone⟩

/-! ## From the creation to the answer -/

/-- The script goes on with the child, or has it destroyed and goes on with a refusal. -/
def Concludes (next : Except EditError Entity → Script U σ) (child : Entity)
    (script : Script U σ) : Prop :=
  script = next (.ok child) ∨
    ∃ refusal, script = .call (.destroy child) fun _ => next (.error refusal)

/-- The child is being furnished and linked, or being destroyed. -/
inductive Spawning (next : Except EditError Entity → Script U σ) (child : Entity)
    (base : List (Frame U σ)) (m : Machine U σ) : Prop
  | furnishing (h : Poised (fun _ => False) (Concludes next child) base m.stack m.control)
  | discarding (refusal : EditError)
    (h : m.Discarding child (.resume (fun _ => next (.error refusal)) :: base))

/-- The script goes on with the child, or with a refusal when the child is gone. -/
inductive Spawned (next : Except EditError Entity → Script U σ) (child : Entity)
    (base : List (Frame U σ)) (m : Machine U σ) : Prop
  | kept (control : m.control = .run (next (.ok child))) (stack : m.stack = base)
  | refused (refusal : EditError) (control : m.control = .run (next (.error refusal)))
    (stack : m.stack = base) (gone : m.world.isValid child = false)

variable {next : Except EditError Entity → Script U σ} {closed : Entity → Prop}
variable {ended : Script U σ → Prop}

/-- The frames below a script that is poised stay where nothing is abandoned. -/
theorem suffix_of_poised (h : Poised closed ended base m.stack m.control)
    (hord : ∀ cause, m.control ≠ .unwind cause) (hstep : m.step = some m') :
    base <:+ m'.stack := by
  rcases (turn_of_step hstep).suffix_or_told with hsuf | ⟨frame, rest, hstack, hrest, htold⟩
  · exact h.suffix.trans hsuf
  · refine List.IsSuffix.trans ?_ hrest
    rcases htold with ⟨b, hreply, -⟩ | ⟨cause, hleft, -⟩
    · exact h.suffix_tail hreply hstack
    · exact absurd hleft (hord cause)

/-- Once created, the child is given components and linked, up to where that is settled. -/
theorem spares_furnish (next : Except EditError Entity → Script U σ) (parent child : Entity) :
    (Task.furnish parent child next).Spares (fun _ => False) (Concludes next child) := by
  have hisolated : (Call.emplace .node child (.ok TreeNode.isolated) : Call U).Spares
      fun _ => False := fun x hx => by cases hx
  have hidentity : (Call.emplace .transform child (.ok Transform.identity) : Call U).Spares
      fun _ => False := trivial
  refine .call hisolated fun _ => .call hidentity fun _ => ?_
  refine Task.spares_appendChild parent child _ _ fun linked => ?_
  cases linked with
  | ok _ => exact .ended (.inl rfl)
  | error refusal => exact .ended (.inr ⟨refusal, rfl⟩)

/-- One step nearer to the answer. -/
theorem Spawning.of_step (h : m.Spawning next child base)
    (hsound : Sound m.world m.stack m.control) (hfree : child ∉ destroyed base)
    (hord : ∀ cause, m.control ≠ .unwind cause) (hord' : ∀ cause, m'.control ≠ .unwind cause)
    (hstep : m.step = some m') :
    m'.Spawning next child base ∨ m.Spawned next child base ∨ m'.Spawned next child base := by
  cases h with
  | furnishing h =>
    by_cases hsettled : ∃ script, m.stack = base ∧ m.control = .run script ∧
        Concludes next child script
    · obtain ⟨script, hstack, hcontrol, rfl | ⟨refusal, rfl⟩⟩ := hsettled
      · exact .inr (.inl (.kept hcontrol hstack))
      · simp only [step, hcontrol, Option.some.injEq] at hstep
        subst hstep
        exact .inl (.discarding refusal (.asked rfl (congrArg (List.cons _) hstack)))
    · refine .inl (.furnishing (poised_step h hstep ?_ (fun _ hx => hx.elim)
        (suffix_of_poised h hord hstep)))
      exact fun hstack script hcontrol hs => hsettled ⟨script, hstack, hcontrol, hs⟩
  | discarding refusal h =>
    have hfree' : child ∉ destroyed (.resume (fun _ => next (.error refusal)) :: base) := hfree
    rcases h.of_step hsound hfree' hord' hstep with h' | ⟨b, hcontrol, hstack, hgone⟩
    · exact .inl (.discarding refusal h')
    · simp only [step, hcontrol, hstack, Option.some.injEq] at hstep
      subst hstep
      exact .inr (.inr (.refused refusal rfl rfl hgone))

/-- Where nothing is abandoned, the script goes on at some step, or its child is not settled yet. -/
theorem Spawning.of_run (h : m.Spawning next child base)
    (hsound : Sound m.world m.stack m.control) (hfree : child ∉ destroyed base)
    (hord : m.Ordinary n) :
    (m.run n).Spawning next child base ∨ ∃ i ≤ n, (m.run i).Spawned next child base := by
  have hcalm : ∀ i ≤ n, ∀ cause, (m.run i).control ≠ .unwind cause := fun i hi cause hc => by
    have hlast := (hord.mono hi).last
    rw [hc] at hlast
    cases hlast
  induction n with
  | zero => exact .inl h
  | succ n ih =>
    have hord' := hord.of_succ
    rcases ih hord' fun i hi => hcalm i (Nat.le_succ_of_le hi) with hn | ⟨i, hi, hspawned⟩
    · rcases run_succ_cases m n with heq | hstep
      · exact .inl (heq ▸ hn)
      · rcases hn.of_step (sound_run_from hsound hord') hfree (hcalm n (Nat.le_succ n))
          (hcalm (n + 1) (Nat.le_refl _)) hstep with hn' | hspawned | hspawned
        · exact .inl hn'
        · exact .inr ⟨n, Nat.le_succ n, hspawned⟩
        · exact .inr ⟨n + 1, Nat.le_refl _, hspawned⟩
    · exact .inr ⟨i, Nat.le_succ_of_le hi, hspawned⟩

omit [DecidableEq U] in
/-- Nothing is left to be settled where a refusal has come back. -/
theorem Spawning.not_back (h : m.Spawning next child base) (hkept : next (.ok child) ≠ .done)
    (hstack : m.stack = base) : m.control ≠ .run .done := by
  intro hcontrol
  cases h with
  | furnishing h =>
    rcases h.top hstack with ⟨script, hrun, hspares⟩ | ⟨cause, hleft⟩
    · obtain rfl := Control.run.inj (hcontrol.symm.trans hrun)
      cases hspares with
      | ended hconcludes =>
        rcases hconcludes with hkeeps | ⟨refusal, hdestroys⟩
        · exact hkept hkeeps.symm
        · cases hdestroys
    · cases hcontrol.symm.trans hleft
  | discarding refusal h =>
    cases h with
    | asked control => cases hcontrol.symm.trans control
    | underway waits =>
      have hlt := length_lt_of_mem_destructions waits
      rw [hstack, List.length_cons] at hlt
      omega
    | answered b control => cases hcontrol.symm.trans control

/-- A child is gone where a refusal has come back, if the script gives up with a child that is
linked. -/
theorem Spawning.isValid_of_back (h : m.Spawning next child base)
    (hsound : Sound m.world m.stack m.control) (hfree : child ∉ destroyed base)
    (hord : m.Ordinary n) {cause : Abort} (hkept : next (.ok child) = .abort cause)
    (hrefused : ∀ refusal, next (.error refusal) = .done) (hstack : (m.run n).stack = base)
    (hcontrol : (m.run n).control = .run .done)
    (hfirst : ∀ i < n, (m.run i).stack = base → (m.run i).control ≠ .run .done) :
    (m.run n).world.isValid child = false := by
  rcases h.of_run hsound hfree hord with hn | ⟨i, hi, hspawned⟩
  · refine absurd hcontrol (hn.not_back (fun hc => ?_) hstack)
    cases hkept.symm.trans hc
  · cases hspawned with
    | kept control stack =>
      rw [hkept] at control
      rcases Nat.eq_or_lt_of_le hi with rfl | hlt
      · cases hcontrol.symm.trans control
      · have hleft : (m.run (i + 1)).control = .unwind cause := by
          rw [run_succ, step, control]
          rfl
        have hcalm := (hord.mono hlt).last
        rw [hleft] at hcalm
        cases hcalm
    | refused refusal control stack gone =>
      rw [hrefused] at control
      rcases Nat.eq_or_lt_of_le hi with rfl | hlt
      · exact gone
      · exact absurd control (hfirst i hlt stack)

/-! ## What is left -/

/-- The invariant does not ask what a script is about to do. -/
theorem sound_of_run {w : World (Kind U)} {stack : List (Frame U σ)} {turn : Script U σ}
    (h : Sound w stack (.run turn)) (turn' : Script U σ) : Sound w stack (.run turn') :=
  { h with
    shape := .settled (h.wellstacked_of_run rfl) fun _ _ hc => by cases hc
    rows := fun _ _ hx =>
      (h.rows_of_control (fun hc => by cases hc) hx).imp_right .inl
    refused := fun hc => by cases hc }

theorem sound_setOut {α : Type} (h : Sound m.world m.stack m.control) {turn : Script U σ}
    (hturn : m.control = .run turn) (task : Task U σ α) (p : α → Bool) :
    Sound (m.setOut task p).world (m.setOut task p).stack (m.setOut task p).control := by
  rw [hturn] at h
  exact sound_of_run h _

/-- First it is looked whether the parent may be edited. -/
theorem step_spawnChild (m : Machine U σ) (parent : Entity) (p : Except EditError Entity → Bool) :
    (m.setOut (Task.spawnChild parent) p).step = some (m.setOut (do
      match m.world.nodeOf parent with
      | .error refusal => return .error refusal
      | .ok _ => Task.furnish parent (← Task.create)) p) :=
  rfl

/-- Creating an entity may fail, and the task is left then. -/
theorem step_create {α : Type} (m : Machine U σ) (f : Entity → Task U σ α) (p : α → Bool)
    {created : Except Abort Entity} {w : World (Kind U)} (hcreate : m.world.create = (created, w)) :
    (m.setOut (Task.create >>= f) p).step = some (match created with
      | .ok e => { m with world := w }.setOut (f e) p
      | .error cause => { m with world := w }.on m.stack (.unwind cause)) := by
  show some ((m.setOut (Task.create >>= f) p).call .create fun e => (f e).probe p) = _
  have hcreate' : (m.setOut (Task.create >>= f) p).world.create = (created, w) := hcreate
  rw [call, hcreate']
  cases created with
  | ok e => rfl
  | error cause => rfl

section Back

variable {p : Except EditError Entity → Bool} (hback : m.ComesBack (Task.spawnChild parent) p n)
include hback

/-- A parent that may not be edited is refused at once. -/
theorem ComesBack.of_refused (hp : ∀ refusal, p (.error refusal) = true) {refusal : EditError}
    (hnode : m.world.nodeOf parent = .error refusal) :
    (m.setOut (Task.spawnChild parent) p).run n = m.on m.stack (.run .done) := by
  have hstep : (m.setOut (Task.spawnChild parent) p).run 1 = m.on m.stack (.run .done) := by
    refine run_succ_of_run_step (n := 0) ?_
    rw [run_zero, step_spawnChild, hnode]
    show some (m.on m.stack (.run (if p (.error refusal) then .done else .abort .repeatedKind))) = _
    rw [if_pos (hp refusal)]
  rcases Nat.lt_trichotomy n 1 with hlt | rfl | hgt
  · obtain rfl := Nat.lt_one_iff.mp hlt
    cases hback.control
  · exact hstep
  · refine absurd ?_ (hback.first 1 hgt ?_)
    · rw [hstep]
      rfl
    · rw [hstep]
      rfl

/-- Under any other parent a child is created, and nothing has come back by then. -/
theorem ComesBack.exists_created {node : TreeNode} (hnode : m.world.nodeOf parent = .ok node) :
    ∃ child w, m.world.create = (.ok child, w) ∧ 2 ≤ n ∧
      (m.setOut (Task.spawnChild parent) p).run 2 =
        { m with world := w }.setOut (Task.furnish parent child) p := by
  have hfirst : (m.setOut (Task.spawnChild parent) p).run 1 =
      m.setOut (Task.create >>= Task.furnish parent) p := by
    refine run_succ_of_run_step (n := 0) ?_
    rw [run_zero, step_spawnChild, hnode]
  have hlate : 2 ≤ n := by
    by_contra hlt
    have hcases : n = 0 ∨ n = 1 := by omega
    have hcontrol := hback.control
    rcases hcases with rfl | rfl
    · cases hcontrol
    · rw [hfirst] at hcontrol
      cases hcontrol
  obtain ⟨created, w, hcreate⟩ : ∃ created w, m.world.create = (created, w) := ⟨_, _, rfl⟩
  have hsecond := step_create m (Task.furnish parent) p hcreate
  rw [← hfirst] at hsecond
  have hnext := run_succ_of_run_step hsecond
  cases created with
  | ok child => exact ⟨child, w, hcreate, hlate, hnext⟩
  | error cause =>
    have hcalm := (hback.ordinary.mono hlate).last
    rw [hnext] at hcalm
    cases hcalm

/-- What comes back from there is that the child is gone, and what is left of it are rows that
somebody below is removing. -/
theorem ComesBack.exists_gone (hsound : Sound m.world m.stack m.control) {turn : Script U σ}
    (hturn : m.control = .run turn) (hkept : ∀ child, p (.ok child) = false)
    (hrefused : ∀ refusal, p (.error refusal) = true) {node : TreeNode}
    (hnode : m.world.nodeOf parent = .ok node) :
    ∃ child w, m.world.create = (.ok child, w) ∧
      ((m.setOut (Task.spawnChild parent) p).run n).world.isValid child = false ∧
      ∀ id, ((m.setOut (Task.spawnChild parent) p).run n).world.holds id child = true →
        (id, child) ∈ m.world.removing := by
  obtain ⟨child, w, hcreate, hlate, hsecond⟩ := hback.exists_created hnode
  obtain ⟨l, rfl⟩ := Nat.exists_eq_add_of_le hlate
  have hsound₀ := sound_setOut hsound hturn (Task.spawnChild parent) p
  have hunborn : m.world.isValid child = false :=
    Entity.Table.isAlive_of_allocate hsound.wf.table (World.allocate_of_create hcreate)
  have hspared : child ∉ destroyed m.stack := fun hmem => by
    rw [World.isValid_of_isDestroying ((hsound.destroying child).mpr hmem)] at hunborn
    cases hunborn
  have hspawning : ((m.setOut (Task.spawnChild parent) p).run 2).Spawning
      (fun a => if p a then .done else .abort .repeatedKind) child m.stack := by
    rw [hsecond]
    exact .furnishing (.running (spares_furnish _ parent child))
  have hinvalid := hspawning.isValid_of_back (n := l)
    (sound_of_le hsound₀ hback.ordinary hlate) hspared
    (fun i hi => by rw [← run_add]; exact hback.ordinary (2 + i) (by omega))
    (if_neg (by rw [hkept]; nofun)) (fun refusal => if_pos (hrefused refusal))
    (by rw [← run_add]; exact hback.stack) (by rw [← run_add]; exact hback.control)
    (fun i hi => by rw [← run_add]; exact hback.first (2 + i) (by omega))
  rw [← run_add] at hinvalid
  refine ⟨child, w, hcreate, hinvalid, fun id hrow => ?_⟩
  have hafter := sound_run_from hsound₀ hback.ordinary
  rcases hafter.rows_of_control (by rw [hback.control]; nofun) hrow with hvalid | hmem
  · rw [hinvalid] at hvalid
    cases hvalid
  · rw [hafter.removing, hback.stack, ← hsound.removing] at hmem
    exact hmem

end Back

/-- Nobody is removing a row of an entity that is about to be created. -/
theorem not_mem_removing_of_create (host : σ) (script : Script U σ) {k : Nat}
    (h : (start host script).Ordinary k)
    (hreissues : ∀ index, (start host script).reissues k index + 1 < 2 ^ 32) {w : World (Kind U)}
    (hcreate : ((start host script).run k).world.create = (.ok child, w)) (id : ComponentId) :
    (id, child) ∉ ((start host script).run k).world.removing := by
  have hsound := sound_run host script h
  have hup := upheld_of_le host script h.tame (fun i => Nat.lt_of_succ_lt (hreissues i))
    (Nat.le_refl k)
  intro hmem
  rw [hsound.removing] at hmem
  refine Entity.Table.not_issued_of_allocate hsound.wf.table hup.dated
    (World.allocate_of_create hcreate) (fun i => ?_) (hup.gone hmem).1
  have hi := hreissues i
  have hsize : UInt32.size = 2 ^ 32 := rfl
  rw [Entity.Table.reusing]
  split <;> omega

/-- **A child that cannot be linked is disposed of.** In every state that is reached while nothing
is abandoned and no storage is edited directly, at the bottom or within a handler, a child is asked
for under any parent, and handlers do what they like. If a refusal comes back, the entity that was
created is not valid, and it has no rows. (A handle whose generation has wrapped around may have
those that somebody below is still removing.) If the parent was refused before, nothing has
changed. -/
theorem failed_spawns_leave_nothing (host : σ) (script : Script U σ) (k n : Nat)
    (h : (start host script).Ordinary k) {turn : Script U σ}
    (hturn : ((start host script).run k).control = .run turn) (parent : Entity)
    (hback : ((start host script).run k).ComesBack (Task.spawnChild parent)
      (fun answer => !answer.isOk) n) :
    let m := (start host script).run k
    let after := (m.setOut (Task.spawnChild parent) fun answer => !answer.isOk).run n
    (∀ refusal, m.world.nodeOf parent = .error refusal → after = m.on m.stack (.run .done)) ∧
      ∀ node, m.world.nodeOf parent = .ok node → ∃ child w, m.world.create = (.ok child, w) ∧
        after.world.isValid child = false ∧
        (∀ id, after.world.holds id child = true → (id, child) ∈ m.world.removing) ∧
        ((∀ index, (start host script).reissues k index + 1 < 2 ^ 32) →
          ∀ id, after.world.holds id child = false) := by
  intro m after
  refine ⟨fun refusal hnode => hback.of_refused (fun _ => rfl) hnode, fun node hnode => ?_⟩
  obtain ⟨child, w, hcreate, hinvalid, hrows⟩ :=
    hback.exists_gone (sound_run host script h) hturn (fun _ => rfl) (fun _ => rfl) hnode
  refine ⟨child, w, hcreate, hinvalid, hrows, fun hreissues id => ?_⟩
  rw [Bool.eq_false_iff]
  intro hrow
  exact not_mem_removing_of_create host script h hreissues hcreate id (hrows id hrow)

end Machine

/-- Whoever gets a placement, apart from the first node, has the first node destroyed. -/
def forestalling : Script Empty Unit :=
  Task.toScript do
    let _ ← Task.connect .transform .construct fun _ e => Task.toScript do
      if e ≠ ⟨0, .initial⟩ then
        let _ ← Task.destroy ⟨0, .initial⟩
    let _ ← Task.spawnNode

/-- A child is asked for under the first node. When it gets its placement the parent is destroyed,
so there is no link, and in the end there are no nodes. -/
theorem Machine.failed_spawns_leave_nothing_forestalling :
    let m := (start () forestalling).run 15
    let asked := m.setOut (Task.spawnChild ⟨0, .initial⟩) fun answer => !answer.isOk
    let after := asked.run 42
    m.world.handles = [⟨0, .initial⟩] ∧ m.world.create.1.toOption = some ⟨1, .initial⟩ ∧
      after.world.isValid ⟨1, .initial⟩ = false ∧
      (∀ id, after.world.holds id ⟨1, .initial⟩ = false) ∧ after.world.handles = [] := by
  intro m asked after
  have hbottom : m.stack = [] := List.isEmpty_iff.mp (by decide +kernel)
  have hpending : ∀ i < 42,
      ((asked.run i).stack.isEmpty && (asked.run i).control.isDone) = false := by
    decide +kernel
  have hback : m.ComesBack (Task.spawnChild ⟨0, .initial⟩) (fun answer => !answer.isOk) 42 :=
    { ordinary := by decide +kernel
      stack := hbottom ▸ List.isEmpty_iff.mp (by decide +kernel)
      control := Control.eq_run_done (by decide +kernel)
      first := fun i hi hstack => by
        have hi := hpending i hi
        rw [show (asked.run i).stack = [] from hstack.trans hbottom] at hi
        exact Control.ne_run_done hi }
  obtain ⟨-, hgone⟩ := failed_spawns_leave_nothing () forestalling 15 42 (by decide +kernel)
    (Control.eq_run_done (by decide +kernel)) ⟨0, .initial⟩ hback
  have hnode : (m.world.nodeOf ⟨0, .initial⟩).isOk = true := by decide +kernel
  cases hparent : m.world.nodeOf ⟨0, .initial⟩ with
  | error refusal =>
    rw [hparent] at hnode
    cases hnode
  | ok node =>
    obtain ⟨child, w, hcreate, hinvalid, -, hrows⟩ := hgone node hparent
    have hchild : m.world.create.1.toOption = some ⟨1, .initial⟩ := by decide +kernel
    have hcreated : m.world.create.1.toOption = some child :=
      congrArg (fun made => made.1.toOption) hcreate
    obtain rfl := Option.some.inj (hcreated.symm.trans hchild)
    exact ⟨by decide +kernel, hchild, hinvalid,
      hrows fun index => Nat.lt_of_le_of_lt (Nat.succ_le_succ (reissues_le _ 15 index)) (by decide),
      by decide +kernel⟩

end EntityScene
