import Mathlib.Algebra.BigOperators.Group.Finset.Piecewise
import Mathlib.Algebra.BigOperators.Group.Finset.Basic
import EntityScene.Proofs.Generations
import EntityScene.Proofs.Nesting

/-!
# The life of a component

The dispatches that are started for one kind and one entity, updates aside, tell whether
the entity has the component: constructions and destructions take turns, however deep the
calls are nested that ask for them.

- `Alternates`: events that take turns, beginning with a construction.
- `lifeline`: the events of one kind of component and one entity.
- `Chronicle`: the invariant. A component is there, and its removal neither announced nor
  decided, exactly when the last event is a construction.
- `chronicle_move`, `chronicle_run`: kept by every move, and so by every ordinary run that
  uses no index too often.
- `Machine.lifelines_alternate`: what this says about the dispatches of a run.
-/

namespace EntityScene

/-! ## Events that take turns -/

/-- Constructions and destructions take turns, beginning with a construction. -/
def Alternates (events : List LifeEvent) : Prop :=
  ∀ (i : Nat) (h : i < events.length),
    events[i] = if i % 2 = 0 then .construct else .destroy

namespace Alternates

variable {events more : List LifeEvent}

theorem nil : Alternates [] := fun i h => absurd h (Nat.not_lt_zero i)

theorem of_append (h : Alternates (events ++ more)) : Alternates events := by
  intro i hi
  have hlt : i < (events ++ more).length := by
    rw [List.length_append]
    omega
  rw [← h i hlt, List.getElem_append_left hi]

/-- The next event is told by how many there were. -/
theorem append_singleton (h : Alternates events) {event : LifeEvent}
    (hevent : event = if events.length % 2 = 0 then .construct else .destroy) :
    Alternates (events ++ [event]) := by
  intro i hi
  rw [List.length_append, List.length_singleton] at hi
  by_cases hlt : i < events.length
  · rw [List.getElem_append_left hlt]
    exact h i hlt
  · obtain rfl : i = events.length := by omega
    rw [List.getElem_append_right (Nat.le_refl _)]
    simpa using hevent

/-- The last event is a construction when their number is odd. -/
theorem getLast?_eq_construct_iff (h : Alternates events) :
    events.getLast? = some .construct ↔ events.length % 2 = 1 := by
  rw [List.getLast?_eq_getElem?]
  by_cases hnil : events.length = 0
  · rw [hnil, List.getElem?_eq_none (by omega)]
    simp
  · have hlt : events.length - 1 < events.length := by omega
    rw [List.getElem?_eq_getElem hlt, h _ hlt]
    by_cases hpar : (events.length - 1) % 2 = 0
    · rw [if_pos hpar]
      simp only [true_iff]
      omega
    · rw [if_neg hpar]
      simp only [Option.some.injEq, reduceCtorEq, false_iff]
      omega

/-- There is at most one construction more than there are destructions. -/
theorem count_construct (h : Alternates events) :
    events.count .construct = events.count .destroy + events.length % 2 := by
  induction events using List.reverseRecOn with
  | nil => rfl
  | append_singleton events event ih =>
    have hinit := ih h.of_append
    have hlast := h events.length (by simp)
    rw [List.getElem_append_right (Nat.le_refl _)] at hlast
    simp only [Nat.sub_self, List.getElem_singleton] at hlast
    rw [List.count_append, List.count_append, hinit, List.length_append, List.length_singleton,
      hlast]
    by_cases hpar : events.length % 2 = 0
    · rw [if_pos hpar]
      simp only [List.count_singleton_self, List.count_singleton, beq_iff_eq, reduceCtorEq,
        if_false]
      omega
    · rw [if_neg hpar]
      simp only [List.count_singleton_self, List.count_singleton, beq_iff_eq, reduceCtorEq,
        if_false]
      omega

end Alternates

/-! ## Lifelines -/

/-- The dispatch is for a kind, by number, and an entity, and is not about an update. -/
def Dispatch.concerns (d : Dispatch) (id : ComponentId) (e : Entity) : Bool :=
  d.id == id && d.entity == e && d.event != .update

/-- The events of one kind of component and one entity, updates left out. -/
def lifeline (history : List Dispatch) (id : ComponentId) (e : Entity) : List LifeEvent :=
  (history.filter (·.concerns id e)).map (·.event)

theorem lifeline_append (history more : List Dispatch) (id : ComponentId) (e : Entity) :
    lifeline (history ++ more) id e = lifeline history id e ++ lifeline more id e := by
  simp [lifeline]

theorem lifeline_singleton_self {id : ComponentId} {event : LifeEvent} {e : Entity}
    (hevent : event ≠ .update) : lifeline [⟨id, event, e⟩] id e = [event] := by
  simp [lifeline, Dispatch.concerns, hevent]

theorem lifeline_singleton_of_ne {id j : ComponentId} {event : LifeEvent} {e x : Entity}
    (h : (j, x) ≠ (id, e)) : lifeline [⟨id, event, e⟩] j x = [] := by
  have hne : ¬ (id = j ∧ e = x) := fun hc => h (by rw [hc.1, hc.2])
  simp only [lifeline, Dispatch.concerns, List.map_eq_nil_iff, List.filter_eq_nil_iff,
    List.mem_singleton, forall_eq, Bool.and_eq_true, beq_iff_eq]
  exact fun hc => hne hc.1

theorem lifeline_singleton_update (id j : ComponentId) (e x : Entity) :
    lifeline [⟨id, .update, e⟩] j x = [] := by
  simp [lifeline, Dispatch.concerns]

/-! ## The invariant -/

variable {U σ : Type} [SceneFamily U] [DecidableEq U]

/-- The component is in storage, and its removal is neither announced nor decided. -/
def Present (w : World (Kind U)) (stack : List (Frame U σ)) (control : Control U σ)
    (id : ComponentId) (e : Entity) : Prop :=
  w.holds id e = true ∧ (id, e) ∉ w.removing ∧ ¬ Owed w stack control id e

/-- The dispatches started so far agree with the components, given how often each index
was used again. -/
structure Chronicle (history : List Dispatch) (count : UInt32 → Nat) (w : World (Kind U))
    (stack : List (Frame U σ)) (control : Control U σ) : Prop where
  sound : Sound w stack control
  dated : w.entities.Dated count
  alternates : ∀ id e, Alternates (lifeline history id e)
  present : ∀ id e,
    (lifeline history id e).length % 2 = 1 ↔ Present w stack control id e
  issued : ∀ {id e}, w.holds id e = true → w.entities.Issued count e
  gone : ∀ {id e}, (id, e) ∈ w.removing →
    w.entities.Issued count e ∧ (w.holds id e = true ∨ w.isValid e = false)
  parted : ∀ {id e}, Owed w stack control id e → (id, e) ∉ w.removing
  updates : ∀ {id e}, control = .publish id .update e →
    w.isValid e = true ∧ w.holds id e = true

namespace Chronicle

variable {history history' : List Dispatch} {count count' : UInt32 → Nat}
variable {w w' : World (Kind U)} {stack stack' : List (Frame U σ)} {control control' : Control U σ}

/-- A component that is not in storage was destroyed last, or never constructed. -/
theorem even_of_not_present (h : Chronicle history count w stack control) {id : ComponentId}
    {e : Entity} (hno : ¬ Present w stack control id e) :
    (lifeline history id e).length % 2 = 0 := by
  rcases Nat.mod_two_eq_zero_or_one (lifeline history id e).length with heven | hodd
  · exact heven
  · exact absurd ((h.present id e).mp hodd) hno

/-- An edit that moves no row and starts no dispatch but that of an update. -/
theorem transfer (h : Chronicle history count w stack control) (sound : Sound w' stack' control')
    (dated : w'.entities.Dated count')
    (line : ∀ id e, lifeline history' id e = lifeline history id e)
    (holds : ∀ id e, w'.holds id e = w.holds id e) (removing : w'.removing = w.removing)
    (issued : ∀ {x}, w.entities.Issued count x → w'.entities.Issued count' x)
    (dead : ∀ {x}, w.entities.Issued count x → w.isValid x = false → w'.isValid x = false)
    (unowed : ∀ id e, ¬ Owed w stack control id e)
    (unowed' : ∀ id e, ¬ Owed w' stack' control' id e)
    (updates : ∀ {id e}, control' = .publish id .update e →
      w'.isValid e = true ∧ w'.holds id e = true) :
    Chronicle history' count' w' stack' control' := by
  refine
    { sound, dated, updates
      alternates := fun id e => by rw [line]; exact h.alternates id e
      present := fun id e => ?_
      issued := fun {id e} he => issued (h.issued (by rw [← holds]; exact he))
      gone := fun {id e} he => ?_
      parted := fun {id e} ho => absurd ho (unowed' id e) }
  · rw [line, h.present, Present, Present, holds, removing]
    constructor
    · rintro ⟨hh, hr, -⟩
      exact ⟨hh, hr, unowed' id e⟩
    · rintro ⟨hh, hr, -⟩
      exact ⟨hh, hr, unowed id e⟩
  · rw [removing] at he
    obtain ⟨hissued, hrow⟩ := h.gone he
    refine ⟨issued hissued, ?_⟩
    rw [holds]
    rcases hrow with hh | hd
    · exact .inl hh
    · exact .inr (dead hissued hd)

/-- The row that is owed is taken away. -/
theorem erase (h : Chronicle history count w stack control) {id : ComponentId} {e : Entity}
    (owed : Owed w stack control id e) (sound : Sound (w.erase id e) stack' control')
    (unowed : ∀ j x, ¬ Owed (w.erase id e) stack' control' j x)
    (quiet : ∀ j event x, control' ≠ .publish j event x) :
    Chronicle history count (w.erase id e) stack' control' := by
  have hother : ∀ {j x}, (j, x) ≠ (id, e) → (w.erase id e).holds j x = w.holds j x := by
    intro j x hne
    rw [World.holds_erase h.sound.wf, if_neg fun hc => hne (by rw [hc.1, hc.2])]
  have hself : (w.erase id e).holds id e = false := by
    rw [World.holds_erase h.sound.wf, if_pos ⟨rfl, rfl⟩]
  refine
    { sound
      dated := h.dated
      alternates := h.alternates
      present := fun j x => ?_
      issued := fun {j x} hx => ?_
      gone := fun {j x} hx => ?_
      parted := fun {j x} ho => absurd ho (unowed j x)
      updates := fun {j x} hc => absurd hc (quiet j _ x) }
  · rw [h.present]
    by_cases hpair : (j, x) = (id, e)
    · obtain ⟨rfl, rfl⟩ := Prod.mk.inj hpair
      constructor
      · rintro ⟨-, -, hno⟩
        exact absurd owed hno
      · rintro ⟨hh, -, -⟩
        rw [hself] at hh
        cases hh
    · rw [Present, Present, hother hpair]
      constructor
      · rintro ⟨hh, hr, -⟩
        exact ⟨hh, hr, unowed j x⟩
      · rintro ⟨hh, hr, -⟩
        exact ⟨hh, hr, fun ho => hpair (owed.eq ho)⟩
  · by_cases hpair : (j, x) = (id, e)
    · obtain ⟨rfl, rfl⟩ := Prod.mk.inj hpair
      rw [hself] at hx
      cases hx
    · rw [hother hpair] at hx
      exact h.issued hx
  · have hpair : (j, x) ≠ (id, e) := by
      intro hpair
      obtain ⟨rfl, rfl⟩ := Prod.mk.inj hpair
      exact h.parted owed hx
    rw [hother hpair]
    exact h.gone hx

/-- The dispatch that a lifeline waits for is started. Only the component that it is about
comes or goes. -/
theorem dispatch (h : Chronicle history count w stack control) {id : ComponentId} {e : Entity}
    {event : LifeEvent}
    (due : event = if (lifeline history id e).length % 2 = 0 then .construct else .destroy)
    (sound : Sound w' stack' (.publish id event e)) (dated : w'.entities.Dated count)
    (self : Present w' stack' (.publish id event e) id e ↔ event = .construct)
    (other : ∀ {j x}, (j, x) ≠ (id, e) →
      (Present w' stack' (.publish id event e) j x ↔ Present w stack control j x))
    (issued : ∀ {j x}, w'.holds j x = true → w'.entities.Issued count x)
    (gone : ∀ {j x}, (j, x) ∈ w'.removing →
      w'.entities.Issued count x ∧ (w'.holds j x = true ∨ w'.isValid x = false)) :
    Chronicle (history ++ [⟨id, event, e⟩]) count w' stack' (.publish id event e) := by
  -- no lifeline waits for an update
  have hevent : event ≠ .update := by
    intro hup
    rw [hup] at due
    split at due <;> cases due
  have hline : ∀ j x, (j, x) ≠ (id, e) →
      lifeline (history ++ [⟨id, event, e⟩]) j x = lifeline history j x := by
    intro j x hpair
    rw [lifeline_append, lifeline_singleton_of_ne hpair, List.append_nil]
  have hself : lifeline (history ++ [⟨id, event, e⟩]) id e = lifeline history id e ++ [event] := by
    rw [lifeline_append, lifeline_singleton_self hevent]
  have hunowed : ∀ j x, ¬ Owed w' stack' (Control.publish id event e) j x :=
    fun j x => Sound.not_owed_of_control fun hc => by cases hc
  refine
    { sound, dated, issued, gone
      alternates := fun j x => ?_
      present := fun j x => ?_
      parted := fun {j x} ho => absurd ho (hunowed j x)
      updates := fun hc => absurd (Control.publish.inj hc).2.1 hevent }
  · by_cases hpair : (j, x) = (id, e)
    · obtain ⟨rfl, rfl⟩ := Prod.mk.inj hpair
      rw [hself]
      exact (h.alternates j x).append_singleton due
    · rw [hline j x hpair]
      exact h.alternates j x
  · by_cases hpair : (j, x) = (id, e)
    · obtain ⟨rfl, rfl⟩ := Prod.mk.inj hpair
      rw [hself, self, due, List.length_append, List.length_singleton]
      by_cases hpar : (lifeline history j x).length % 2 = 0
      · rw [if_pos hpar]
        exact iff_of_true (by omega) rfl
      · rw [if_neg hpar]
        exact iff_of_false (by omega) (by decide)
    · rw [hline j x hpair, other hpair]
      exact h.present j x

end Chronicle

namespace Machine

variable {m m' : Machine U σ} {history : List Dispatch} {count : UInt32 → Nat}

omit [DecidableEq U] in
/-- Controls that start no dispatch leave every lifeline as it is. -/
theorem lifeline_started {id : ComponentId} {e : Entity}
    (h : ∀ {j event x}, m.control = .publish j event x → event = .update) :
    lifeline (history ++ m.started) id e = lifeline history id e := by
  rw [lifeline_append]
  unfold started
  split
  · rename_i j event x hc
    rw [h hc, lifeline_singleton_update, List.append_nil]
  · exact List.append_nil _

theorem chronicle_tornDown {w : World (Kind U)} {e : Entity} {id : ComponentId}
    {rest : List (Frame U σ)}
    (h : Chronicle history count w (.teardown e id :: rest) (.announce id e))
    (torn : TornDown w e id rest m') :
    Chronicle (history ++ m'.started) count m'.world m'.stack m'.control := by
  have hsound := sound_tornDown h.sound torn
  have hwell := wellstacked_of_teardown h.sound
  cases torn with
  | next pool world stack control =>
    rw [started, control, world, stack, List.append_nil]
    exact h
  | last pool world stack control =>
    have hvalid := World.isValid_of_isDestroying h.sound.isDestroying_of_teardown
    have hsize := Entity.Table.size_slots_release w.entities e
    rw [world, stack, control] at hsound
    rw [started, control, world, stack, List.append_nil]
    refine h.transfer hsound (Entity.Table.dated_release h.dated hvalid) (fun _ _ => rfl)
      (fun _ _ => rfl) rfl (fun hx => hx.mono (Nat.le_of_eq hsize.symm) (Nat.le_refl _))
      (fun {x} _ hx => ?_) (fun j x => Sound.not_owed_of_control fun hc => by cases hc)
      (fun j x => Sound.not_owed_of_wellstacked
        (Wellstacked.mono (w := w) (fun hid => hid) hwell))
      fun hc => by cases hc
    rw [Bool.eq_false_iff]
    intro hx'
    have hlive := (Entity.Table.isAlive_release hvalid x).mp hx'
    rw [World.isValid, hlive.1] at hx
    cases hx

/-- The counts after the next step. -/
def recount (m : Machine U σ) (count : UInt32 → Nat) (i : UInt32) : Nat :=
  count i + if m.reissued? = some i then 1 else 0

omit [DecidableEq U] in
theorem recount_of_none (h : m.reissued? = none) : m.recount count = count := by
  funext i
  simp [recount, h]

omit [DecidableEq U] in
theorem reissued?_of_isRequest (h : m.control.isRequest = true) : m.reissued? = none := by
  unfold reissued?
  split
  · rename_i hc
    rw [hc] at h
    cases h
  · rfl

omit [DecidableEq U] in
/-- A quiet move uses no index again. -/
theorem recount_of_quiet {old : List (Frame U σ)}
    (request : m.control.isRequest = true ∨ (∃ b, m.control = .reply b) ∧ old ≠ []) :
    m.recount count = count := by
  refine recount_of_none ?_
  rcases request with hreq | ⟨⟨b, hc⟩, -⟩
  · exact reissued?_of_isRequest hreq
  · rw [reissued?, hc]

omit [DecidableEq U] in
/-- The creation of an entity uses the index again that was released first. -/
theorem recount_of_create {next : Entity → Script U σ}
    (call : m.control = .run (.call .create next)) :
    m.recount count = m.world.entities.reusing count := by
  funext i
  rw [recount, reissued?, call]
  rfl

/-- The indices that a run uses again are counted step by step. -/
theorem reissues_eq_recount (m : Machine U σ) (n : Nat) :
    m.reissues (n + 1) = (m.run n).recount (m.reissues n) :=
  funext fun i => reissues_succ m n i

theorem chronicle_quiet (h : Chronicle history count m.world m.stack m.control)
    {old new rest : List (Frame U σ)} (before : m.stack = old ++ rest)
    (after : m'.stack = new ++ rest) (plain : ∀ f ∈ old ++ new, f.isPlain = true)
    (request : m.control.isRequest = true ∨ (∃ b, m.control = .reply b) ∧ old ≠ [])
    (world : World.Undisturbed (fun _ => False) m.world m'.world)
    (calm : m'.control.IsCalm m'.world) :
    Chronicle (history ++ m'.started) (m.recount count) m'.world m'.stack m'.control := by
  have hsound := sound_quiet h.sound before plain request world calm
  have hold : ∀ f ∈ old, f.isPlain = true := fun f hf => plain f (List.mem_append_left _ hf)
  have hnew : ∀ f ∈ new, f.isPlain = true := fun f hf => plain f (List.mem_append_right _ hf)
  have hwell := h.sound.shape.wellstacked_of_quiet before hold request
  have hwell' : Wellstacked m'.world (new ++ rest) :=
    ((Wellstacked.of_append_plain hold (before ▸ hwell)).mono world.idOf?).append_plain hnew
  have hupdate : ∀ {id event e}, m'.control = .publish id event e →
      event = .update ∧ m'.world.isValid e = true ∧ m'.world.holds id e = true := by
    intro id event e hc
    rw [hc] at calm
    exact calm
  rw [after, recount_of_quiet request]
  refine h.transfer hsound (by rw [world.entities]; exact h.dated)
    (fun id e => lifeline_started fun hc => (hupdate hc).1) world.holds world.removing
    (fun hx => by rw [world.entities]; exact hx)
    (fun _ hx => by rw [world.isValid]; exact hx)
    (fun id e => Sound.not_owed_of_wellstacked hwell)
    (fun id e => Sound.not_owed_of_wellstacked hwell') fun hc => (hupdate hc).2

theorem chronicle_created (h : Chronicle history count m.world m.stack m.control) {e : Entity}
    {table : Entity.Table} {next : Entity → Script U σ} {script : Script U σ}
    (call : m.control = .run (.call .create next))
    (allocate : m.world.entities.allocate = (.ok e, table))
    (hlt : ∀ i, m.recount count i < UInt32.size) :
    Chronicle history (m.recount count) { m.world with entities := table } m.stack
      (.run script) := by
  rw [recount_of_create call] at hlt ⊢
  have htable := h.sound.wf.table
  refine h.transfer (sound_created h.sound call allocate)
    (Entity.Table.dated_allocate htable h.dated allocate hlt) (fun _ _ => rfl) (fun _ _ => rfl)
    rfl (Entity.Table.issued_allocate htable allocate) (fun {x} hissued hx => ?_)
    (fun j x => Sound.not_owed_of_control fun hc => by rw [call] at hc; cases hc)
    (fun j x => Sound.not_owed_of_control fun hc => by cases hc) fun hc => by cases hc
  rw [Bool.eq_false_iff]
  intro hx'
  -- a handle that was issued before is not issued again, and stays dead
  rcases (Entity.Table.isAlive_allocate htable allocate x).mp hx' with rfl | halive
  · exact Entity.Table.not_issued_of_allocate htable h.dated allocate hlt hissued
  · rw [World.isValid, halive] at hx
    cases hx

/-- A component that is put on an entity was not there, so the last event was none or a
destruction. -/
theorem chronicle_placed (h : Chronicle history count m.world m.stack m.control)
    {kind : Kind U} {id : ComponentId} {e : Entity} {v : Value kind} {script : Script U σ}
    {frame : Frame U σ} {w' : World (Kind U)} (call : m.control = .run script)
    (accepts : m.world.accepts e = true) (world : World.Placed m.world kind id e v w')
    (plain : frame.isPlain = true) :
    Chronicle (history ++ [⟨id, .construct, e⟩]) count w' (frame :: m.stack)
      (.publish id .construct e) := by
  have hvalid := ((World.accepts_iff m.world e).mp accepts).1
  have hcontrol : m.control ≠ .reply true := fun hc => by rw [call] at hc; cases hc
  have hunowed : ∀ j x, ¬ Owed m.world m.stack m.control j x :=
    fun j x => Sound.not_owed_of_control hcontrol
  have hunowed' : ∀ j x, ¬ Owed w' (frame :: m.stack) (Control.publish id .construct e) j x :=
    fun j x => Sound.not_owed_of_control fun hc => by cases hc
  have hnew : ¬ m.world.holds id e = true := by
    rw [world.new]
    exact Bool.false_ne_true
  have hsame : ∀ {x}, m.world.isValid x = true → x.index = e.index → x = e :=
    fun hx hi => Entity.Table.eq_of_isAlive hvalid hx hi
  have heven := h.even_of_not_present fun hp => hnew hp.1
  refine h.dispatch (by rw [if_pos heven]) (sound_placed h.sound call accepts world plain)
    (by rw [world.entities]; exact h.dated) (iff_of_true ?_ rfl) (fun {j x} hpair => ?_)
    (fun {j x} hx => ?_) fun {j x} hx => ?_
  · refine ⟨(world.holds id e).mpr (.inl ⟨rfl, rfl⟩), ?_, hunowed' id e⟩
    -- a removal that is still announced for a row that is gone is one of the dead
    rw [world.removing]
    intro hr
    rcases (h.gone hr).2 with hh | hd
    · exact hnew hh
    · rw [hvalid] at hd
      cases hd
  · rw [Present, Present, world.removing]
    constructor
    · rintro ⟨hh, hr, -⟩
      rcases (world.holds j x).mp hh with ⟨rfl, rfl⟩ | ⟨-, hh⟩
      · exact absurd rfl hpair
      · exact ⟨hh, hr, hunowed j x⟩
    · rintro ⟨hh, hr, -⟩
      refine ⟨(world.holds j x).mpr (.inr ⟨?_, hh⟩), hr, hunowed' j x⟩
      -- the row that gives way to the new one is of a dead entity
      rintro ⟨rfl, hi⟩
      rcases h.sound.rows_of_control hcontrol hh with hv | hr'
      · exact hpair (by rw [hsame hv hi])
      · exact hr hr'
  · rw [world.entities]
    rcases (world.holds j x).mp hx with ⟨rfl, rfl⟩ | ⟨-, hh⟩
    · exact h.dated.issued_of_isAlive hvalid
    · exact h.issued hh
  · rw [world.removing] at hx
    obtain ⟨hissued, hrow⟩ := h.gone hx
    rw [World.isValid, world.entities]
    refine ⟨hissued, ?_⟩
    rcases hrow with hh | hd
    · by_cases hi : j = id ∧ x.index = e.index
      · refine .inr ?_
        rw [Bool.eq_false_iff]
        intro hv
        obtain ⟨rfl, hi⟩ := hi
        rw [hsame hv hi] at hh
        exact hnew hh
      · exact .inl ((world.holds j x).mpr (.inr ⟨hi, hh⟩))
    · exact .inr hd

theorem chronicle_begun (h : Chronicle history count m.world m.stack m.control) {e : Entity}
    (call : m.control = .destroy e) (alive : m.world.entities.state? e = some .alive) :
    Chronicle history count
      { m.world with entities := (m.world.entities.beginDestroy e).2 }
      (.teardown e 0 :: m.stack) (.announce 0 e) := by
  have hsize := Entity.Table.size_slots_beginDestroy m.world.entities e
  refine h.transfer (sound_begun h.sound call alive) (Entity.Table.dated_beginDestroy h.dated e)
    (fun _ _ => rfl) (fun _ _ => rfl) rfl
    (fun hx => hx.mono (Nat.le_of_eq hsize.symm) (Nat.le_refl _)) (fun {x} _ hx => ?_)
    (fun j x => Sound.not_owed_of_control fun hc => by rw [call] at hc; cases hc)
    (fun j x => Sound.not_owed_of_control fun hc => by cases hc) fun hc => by cases hc
  show (m.world.entities.beginDestroy e).2.isAlive x = false
  rw [Entity.Table.isAlive_beginDestroy]
  exact hx

/-- A removal that is announced is of a component that is there, so the last event was a
construction. -/
theorem chronicle_announced (h : Chronicle history count m.world m.stack m.control)
    {id : ComponentId} {e : Entity} (call : m.control = .announce id e)
    (fresh : (id, e) ∉ m.world.removing) (row : m.world.holds id e = true) :
    Chronicle (history ++ [⟨id, .destroy, e⟩]) count
      { m.world with removing := (id, e) :: m.world.removing } (.removal id e :: m.stack)
      (.publish id .destroy e) := by
  have hunowed : ∀ j x, ¬ Owed m.world m.stack m.control j x :=
    fun j x => Sound.not_owed_of_control fun hc => by rw [call] at hc; cases hc
  have hunowed' : ∀ j x, ¬ Owed { m.world with removing := (id, e) :: m.world.removing }
      (.removal id e :: m.stack) (Control.publish id .destroy e) j x :=
    fun j x => Sound.not_owed_of_control fun hc => by cases hc
  have hodd := (h.present id e).mpr ⟨row, fresh, hunowed id e⟩
  refine h.dispatch (by rw [if_neg (by omega)]) (sound_announced h.sound call fresh) h.dated
    (iff_of_false (fun hp => hp.2.1 List.mem_cons_self) (by decide)) (fun {j x} hpair => ?_)
    h.issued fun {j x} hx => ?_
  · constructor
    · rintro ⟨hh, hr, -⟩
      exact ⟨hh, fun hc => hr (List.mem_cons_of_mem _ hc), hunowed j x⟩
    · rintro ⟨hh, hr, -⟩
      refine ⟨hh, fun hc => ?_, hunowed' j x⟩
      rcases List.mem_cons.mp hc with heq | hc
      · exact hpair heq
      · exact hr hc
  · rcases List.mem_cons.mp hx with heq | hx
    · obtain ⟨rfl, rfl⟩ := Prod.mk.inj heq
      exact ⟨h.issued row, .inl row⟩
    · exact h.gone hx

theorem chronicle_finished {id : ComponentId} {e : Entity} {b : Bool} {stack : List (Frame U σ)}
    (h : Chronicle history count m.world (.removal id e :: stack) (.reply b)) :
    Chronicle history count { m.world with removing := m.world.removing.erase (id, e) } stack
      (.reply true) := by
  have hunowed : ∀ j x, ¬ Owed m.world (.removal id e :: stack) (Control.reply b) j x := by
    rintro j x ⟨f, rest, heq, -, hf⟩
    rw [← (List.cons.inj heq).1] at hf
    exact False.elim hf
  have howed := owed_finished h.sound
  have hnodup := h.sound.nodup_removing
  refine
    { sound := sound_finished h.sound
      dated := h.dated
      alternates := h.alternates
      present := fun j x => ?_
      issued := h.issued
      gone := fun {j x} hx => h.gone (List.mem_of_mem_erase hx)
      parted := fun {j x} ho => ?_
      updates := fun hc => by cases hc }
  · rw [h.present]
    by_cases hpair : (j, x) = (id, e)
    · obtain ⟨rfl, rfl⟩ := Prod.mk.inj hpair
      refine iff_of_false (fun hp => hp.2.1 ?_) fun hp => hp.2.2 howed
      rw [h.sound.removing]
      exact List.mem_cons_self
    · rw [Present, Present]
      constructor
      · rintro ⟨hh, hr, -⟩
        exact ⟨hh, fun hc => hr (List.mem_of_mem_erase hc), fun ho => hpair (howed.eq ho)⟩
      · rintro ⟨hh, hr, -⟩
        exact ⟨hh, fun hc => hr ((List.mem_erase_of_ne hpair).mpr hc), hunowed j x⟩
  · obtain ⟨rfl, rfl⟩ := Prod.mk.inj (howed.eq ho)
    exact fun hc => ((hnodup.mem_erase_iff).mp hc).1 rfl

/-- A teardown that was answered can ask for the next pool. -/
theorem chronicle_teardown {w : World (Kind U)} {id : ComponentId} {e : Entity} {b : Bool}
    {rest : List (Frame U σ)}
    (h : Chronicle history count w (.teardown e id :: rest) (.reply b)) :
    Chronicle history count (if b then w.erase id e else w) (.teardown e (id + 1) :: rest)
      (.announce (id + 1) e) := by
  have hsound := sound_teardown h.sound
  cases b with
  | false =>
    exact h.transfer hsound h.dated (fun _ _ => rfl) (fun _ _ => rfl) rfl (fun hx => hx)
      (fun _ hx => hx) (fun j x => Sound.not_owed_of_control fun hc => by cases hc)
      (fun j x => Sound.not_owed_of_control fun hc => by cases hc) fun hc => by cases hc
  | true =>
    exact h.erase ⟨_, _, rfl, rfl, rfl, rfl⟩ hsound
      (fun j x => Sound.not_owed_of_control fun hc => by cases hc) fun _ _ _ hc => by cases hc

theorem chronicle_taken {w : World (Kind U)} {kind : Kind U} {e : Entity} {b : Bool}
    {next : Option (Value kind) → Script U σ} {stack : List (Frame U σ)}
    (h : Chronicle history count w (.taking kind e next :: stack) (.reply b))
    (script : Script U σ) :
    Chronicle history count (if b then (w.pull kind e).2 else w) stack (.run script) := by
  have hsound := sound_taken h.sound script
  cases b with
  | false =>
    exact h.transfer hsound h.dated (fun _ _ => rfl) (fun _ _ => rfl) rfl (fun hx => hx)
      (fun _ hx => hx) (fun j x => Sound.not_owed_of_control fun hc => by cases hc)
      (fun j x => Sound.not_owed_of_control fun hc => by cases hc) fun hc => by cases hc
  | true =>
    obtain ⟨id, hid, -⟩ := h.sound.shape.idOf?_of_taking
    rw [if_pos rfl, World.pull_eq h.sound.wf hid] at hsound ⊢
    exact h.erase ⟨_, _, rfl, rfl, rfl, hid⟩ hsound
      (fun j x => Sound.not_owed_of_control fun hc => by cases hc) fun _ _ _ hc => by cases hc

/-- The invariant is kept by every move, as long as no index is used too often. -/
theorem chronicle_move (h : Chronicle history count m.world m.stack m.control) (hm : Move m m')
    (hlt : ∀ i, m.recount count i < UInt32.size) :
    Chronicle (history ++ m'.started) (m.recount count) m'.world m'.stack m'.control := by
  cases hm with
  | quiet old new rest before after plain request world control =>
    exact chronicle_quiet h before after plain request world control
  | created e table next call allocate world stack control =>
    rw [started, world, stack, control, List.append_nil]
    exact chronicle_created h call allocate hlt
  | placed kind id e v make next frame call accepts world plain stack control =>
    rw [started, stack, control, recount_of_none (by rw [reissued?, call])]
    exact chronicle_placed h call accepts world plain
  | asked kind id e next call number world stack control =>
    rw [started, world, stack, control, recount_of_none (by rw [reissued?, call]),
      List.append_nil]
    exact h.transfer (sound_asked h.sound next call number) h.dated (fun _ _ => rfl)
      (fun _ _ => rfl) rfl (fun hx => hx) (fun _ hx => hx)
      (fun j x => Sound.not_owed_of_control fun hc => by rw [call] at hc; cases hc)
      (fun j x => Sound.not_owed_of_control fun hc => by cases hc) fun hc => by cases hc
  | begun e call alive torn =>
    rw [recount_of_none (by rw [reissued?, call])]
    exact chronicle_tornDown (chronicle_begun h call alive) torn
  | refused id e call reason world stack control =>
    rw [started, world, stack, control, recount_of_none (by rw [reissued?, call]),
      List.append_nil]
    exact h.transfer (sound_refused h.sound call reason) h.dated (fun _ _ => rfl)
      (fun _ _ => rfl) rfl (fun hx => hx) (fun _ hx => hx)
      (fun j x => Sound.not_owed_of_control fun hc => by rw [call] at hc; cases hc)
      (fun j x => Sound.not_owed_of_control fun hc => by cases hc) fun hc => by cases hc
  | announced id e call fresh row world stack control =>
    rw [started, world, stack, control, recount_of_none (by rw [reissued?, call])]
    exact chronicle_announced h call fresh row
  | finished id e b call before world control =>
    rw [call, before] at h
    rw [started, world, control, recount_of_none (by rw [reissued?, call]), List.append_nil]
    exact chronicle_finished h
  | teardown id e b rest call before torn =>
    rw [call, before] at h
    rw [recount_of_none (by rw [reissued?, call])]
    exact chronicle_tornDown (chronicle_teardown h) torn
  | taken kind e b next script call before world control =>
    rw [call, before] at h
    rw [started, world, control, recount_of_none (by rw [reissued?, call]), List.append_nil]
    exact chronicle_taken h script

theorem chronicle_start (host : σ) (script : Script U σ) :
    Chronicle [] (fun _ => 0) (start host script).world (start host script).stack
      (start host script).control :=
  { sound := sound_start host script
    dated := Entity.Table.dated_empty
    alternates := fun _ _ => .nil
    present := fun id e => iff_of_false (by simp [lifeline]) fun hp => by
      simp [start, World.holds, World.empty, Present] at hp
    issued := fun hx => by simp [start, World.holds, World.empty] at hx
    gone := fun hx => by simp [start, World.empty] at hx
    parted := fun ho => absurd ho (Sound.not_owed_of_control fun hc => by cases hc)
    updates := fun hc => by cases hc }

/-- The invariant holds throughout every ordinary run in which no index is used again
`2 ^ 32` times. -/
theorem chronicle_run (host : σ) (script : Script U σ) {n : Nat}
    (h : (start host script).Ordinary n)
    (hlt : ∀ i, (start host script).reissues n i < UInt32.size) :
    Chronicle ((start host script).history (n + 1)) ((start host script).reissues n)
      ((start host script).run n).world ((start host script).run n).stack
      ((start host script).run n).control := by
  induction n with
  | zero => exact chronicle_start host script
  | succ n ih =>
    have hcount := reissues_eq_recount (start host script) n
    have hlt' : ∀ i, (start host script).reissues n i < UInt32.size := fun i =>
      Nat.lt_of_le_of_lt (by rw [reissues_succ]; exact Nat.le_add_right _ _) (hlt i)
    have hchron := ih h.of_succ hlt'
    have hlast := h.of_succ.last
    have hnext := h.last
    rw [history_succ, hcount]
    rw [hcount] at hlt
    rw [run_succ] at hnext ⊢
    cases hstep : ((start host script).run n).step with
    | none =>
      -- at the end of a run nothing is started
      obtain ⟨-, hcontrol⟩ := (step_eq_none_iff _).mp hstep
      have hquiet : ((start host script).run n).started = [] ∧
          ((start host script).run n).reissued? = none := by
        rcases hcontrol with ⟨b, hc⟩ | ⟨cause, hc⟩
        · rw [started, reissued?, hc]
          exact ⟨rfl, rfl⟩
        · rw [started, reissued?, hc]
          exact ⟨rfl, rfl⟩
      rw [Option.getD_none, hquiet.1, List.append_nil, recount_of_none hquiet.2]
      exact hchron
    | some m' =>
      rw [hstep] at hnext
      exact chronicle_move hchron (move_of_step hchron.sound.wf hlast hnext hstep) hlt

end Machine

/-! ## Components and their dispatches -/

/-- The events of one kind of component and one entity, updates left out. -/
def World.lifelineOf (w : World (Kind U)) (history : List Dispatch) (kind : Kind U)
    (e : Entity) : List LifeEvent :=
  (history.filter fun d =>
    w.idOf? kind == some d.id && d.entity == e && d.event != .update).map (·.event)

/-- How many dispatches there were for one kind and one event. -/
def World.dispatches (w : World (Kind U)) (history : List Dispatch) (kind : Kind U)
    (event : LifeEvent) : Nat :=
  history.countP fun d => w.idOf? kind == some d.id && d.event == event

theorem lifelineOf_of_idOf? {w : World (Kind U)} {kind : Kind U} {id : ComponentId}
    (hid : w.idOf? kind = some id) (history : List Dispatch) (e : Entity) :
    w.lifelineOf history kind e = lifeline history id e := by
  rw [World.lifelineOf, lifeline, hid]
  congr 1
  refine List.filter_congr fun d _ => ?_
  rw [Dispatch.concerns, Option.some_beq_some, BEq.comm]

theorem lifelineOf_of_idOf?_eq_none {w : World (Kind U)} {kind : Kind U}
    (hid : w.idOf? kind = none) (history : List Dispatch) (e : Entity) :
    w.lifelineOf history kind e = [] := by
  simp [World.lifelineOf, hid]

theorem lifeline_count_singleton (d : Dispatch) (id : ComponentId) (e : Entity)
    {event : LifeEvent} (hevent : event ≠ .update) :
    (lifeline [d] id e).count event =
      if d.entity = e then (if d.id = id ∧ d.event = event then 1 else 0) else 0 := by
  obtain ⟨j, event', x⟩ := d
  by_cases hpair : (id, e) = (j, x)
  · obtain ⟨rfl, rfl⟩ := Prod.mk.inj hpair
    by_cases hup : event' = .update
    · have hne : ¬ LifeEvent.update = event := fun hc => hevent hc.symm
      rw [hup, lifeline_singleton_update, List.count_nil]
      simp [hne]
    · rw [lifeline_singleton_self hup, List.count_singleton]
      simp
  · rw [lifeline_singleton_of_ne hpair, List.count_nil]
    by_cases hx : x = e
    · have hne : ¬ j = id := fun hj => hpair (by rw [hj, hx])
      simp [hne]
    · simp [hx]

/-- The dispatches of a kind are those of its lifelines. -/
theorem sum_count_lifeline {w : World (Kind U)} {kind : Kind U} {id : ComponentId}
    (hid : w.idOf? kind = some id) {history : List Dispatch} {es : Finset Entity}
    (hes : ∀ d ∈ history, d.entity ∈ es) {event : LifeEvent} (hevent : event ≠ .update) :
    ∑ e ∈ es, (lifeline history id e).count event = w.dispatches history kind event := by
  induction history with
  | nil => exact Finset.sum_const_zero
  | cons d history ih =>
    have hd := hes d List.mem_cons_self
    have hrest := ih fun d hd => hes d (List.mem_cons_of_mem _ hd)
    have hsplit : ∀ e, (lifeline (d :: history) id e).count event =
        (if d.entity = e then (if d.id = id ∧ d.event = event then 1 else 0) else 0) +
          (lifeline history id e).count event := by
      intro e
      rw [← lifeline_count_singleton d id e hevent, ← List.count_append, ← lifeline_append]
      rfl
    rw [Finset.sum_congr rfl fun e _ => hsplit e, Finset.sum_add_distrib, Finset.sum_ite_eq,
      if_pos hd, hrest, World.dispatches, World.dispatches, List.countP_cons, Nat.add_comm, hid]
    congr 1
    by_cases hcond : d.id = id ∧ d.event = event
    · simp [hcond]
    · rw [if_neg hcond, if_neg]
      intro hc
      rw [Bool.and_eq_true, beq_iff_eq, beq_iff_eq] at hc
      exact hcond ⟨(Option.some.inj hc.1).symm, hc.2⟩

/-- The rows of a kind, counted by entity. -/
theorem sum_holds {w : World (Kind U)} (hwf : w.Wf) {kind : Kind U} {id : ComponentId}
    (hid : w.idOf? kind = some id) {es : Finset Entity}
    (hes : ∀ e, w.holds id e = true → e ∈ es) :
    ∑ e ∈ es, (if w.holds id e = true then 1 else 0) = w.count kind := by
  obtain ⟨set, signals, hpool, hset⟩ := hwf.exists_pool hid
  have hfilter : es.filter (fun e => w.holds id e = true) = set.entities.toList.toFinset := by
    refine Finset.ext fun e => ?_
    rw [Finset.mem_filter, List.mem_toFinset, Array.mem_toList_iff, hwf.holds_iff_mem hpool]
    constructor
    · intro he
      exact he.2
    · intro he
      exact ⟨hes e ((hwf.holds_iff_mem hpool e).mpr he), he⟩
  rw [← Finset.card_filter, hfilter, List.toFinset_card_of_nodup hset.nodup, World.count,
    World.storage?_of_pool hid hpool]
  simp [SparseSet.size]

namespace Chronicle

variable {history : List Dispatch} {count : UInt32 → Nat}
variable {w : World (Kind U)} {stack : List (Frame U σ)} {control : Control U σ}

/-- When no call is in progress, an entity has what was constructed last. -/
theorem has_iff (h : Chronicle history count w stack control)
    (hscope : stack.all Frame.isScope = true) (kind : Kind U) (e : Entity) :
    w.has kind e = true ↔ (w.lifelineOf history kind e).getLast? = some .construct := by
  have hsettled := h.sound.settled hscope
  cases hid : w.idOf? kind with
  | none =>
    rw [lifelineOf_of_idOf?_eq_none hid, World.has, World.get?_eq_stored?,
      World.stored?_of_idOf?_eq_none hid]
    simp
  | some id =>
    have hunowed : ¬ Owed w stack control id e := Sound.not_owed_of_isScope hscope id e
    rw [lifelineOf_of_idOf? hid, (h.alternates id e).getLast?_eq_construct_iff, h.present,
      Present, hsettled.removing]
    constructor
    · intro hhas
      obtain ⟨v, hv⟩ := Option.isSome_iff_exists.mp hhas
      exact ⟨(Machine.holds_of_get? h.sound.wf hid hv).2, List.not_mem_nil, hunowed⟩
    · rintro ⟨hh, -, -⟩
      have hvalid := ((World.accepts_iff w e).mp (hsettled.accepts h.sound.wf hh)).1
      rw [World.has, World.get?_of_isValid hvalid, ← h.sound.wf.holds_eq_isSome hid, hh]

/-- When no call is in progress, there are as many components as constructions that no
destruction followed. -/
theorem dispatches_construct (h : Chronicle history count w stack control)
    (hscope : stack.all Frame.isScope = true) (kind : Kind U) :
    w.dispatches history kind .construct =
      w.dispatches history kind .destroy + w.count kind := by
  cases hid : w.idOf? kind with
  | none => simp [World.dispatches, hid, World.count, World.storage?_eq_none hid]
  | some id =>
    obtain ⟨set, signals, hpool, -⟩ := h.sound.wf.exists_pool hid
    -- everybody that a dispatch or a row is about
    let es := (history.map (·.entity) ++ set.entities.toList).toFinset
    have hhistory : ∀ d ∈ history, d.entity ∈ es := fun d hd =>
      List.mem_toFinset.mpr (List.mem_append_left _ (List.mem_map_of_mem hd))
    have hrows : ∀ e, w.holds id e = true → e ∈ es := fun e he =>
      List.mem_toFinset.mpr (List.mem_append_right _
        (Array.mem_toList_iff.mpr ((h.sound.wf.holds_iff_mem hpool e).mp he)))
    have hpresent : ∀ e, (lifeline history id e).length % 2 =
        if w.holds id e = true then 1 else 0 := by
      intro e
      have hiff := h.present id e
      rw [Present, (h.sound.settled hscope).removing] at hiff
      have hunowed : ¬ Owed w stack control id e := Sound.not_owed_of_isScope hscope id e
      split
      · rename_i hh
        exact hiff.mpr ⟨hh, List.not_mem_nil, hunowed⟩
      · rename_i hh
        have hne := mt hiff.mp fun hp => hh hp.1
        omega
    calc w.dispatches history kind .construct
        = ∑ e ∈ es, (lifeline history id e).count .construct :=
          (sum_count_lifeline hid hhistory (by decide)).symm
      _ = ∑ e ∈ es, ((lifeline history id e).count .destroy +
            if w.holds id e = true then 1 else 0) := by
          refine Finset.sum_congr rfl fun e _ => ?_
          rw [(h.alternates id e).count_construct, hpresent]
      _ = w.dispatches history kind .destroy + w.count kind := by
          rw [Finset.sum_add_distrib, sum_count_lifeline hid hhistory (by decide),
            sum_holds h.sound.wf hid hrows]

end Chronicle

/-- **Lifelines alternate.** However deep calls are nested, the dispatches for one kind of
component and one entity, updates aside, are construction and destruction in turn,
beginning with a construction, and an update is only published while the entity has the
component. When no call is in progress the entity has it exactly if the last of them was a
construction, and so the constructions outnumber the destructions by the components. -/
theorem Machine.lifelines_alternate (host : σ) (script : Script U σ) (n : Nat)
    (h : (start host script).Ordinary n)
    (hreissues : ∀ index, (start host script).reissues n index < 2 ^ 32) (kind : Kind U) :
    (∀ e, Alternates (((start host script).run n).world.lifelineOf
        ((start host script).history n) kind e)) ∧
      (∀ id e, ((start host script).run n).control = .publish id .update e →
        ((start host script).run n).world.idOf? kind = some id →
          ((start host script).run n).world.has kind e = true) ∧
      (((start host script).run n).isIdle = true →
        (∀ e, ((start host script).run n).world.has kind e = true ↔
            (((start host script).run n).world.lifelineOf
              ((start host script).history n) kind e).getLast? = some .construct) ∧
          ((start host script).run n).world.dispatches
              ((start host script).history n) kind .construct =
            ((start host script).run n).world.dispatches
                ((start host script).history n) kind .destroy +
              ((start host script).run n).world.count kind) := by
  have hchron := chronicle_run host script h hreissues
  rw [history_succ] at hchron
  refine ⟨fun e => ?_, fun id e hc hid => ?_, fun hidle => ?_⟩
  · cases hid : ((start host script).run n).world.idOf? kind with
    | none =>
      rw [lifelineOf_of_idOf?_eq_none hid]
      exact .nil
    | some id =>
      -- the invariant is one dispatch ahead
      have halt := hchron.alternates id e
      rw [lifeline_append] at halt
      rw [lifelineOf_of_idOf? hid]
      exact halt.of_append
  · obtain ⟨hvalid, hh⟩ := hchron.updates hc
    rw [World.has, World.get?_of_isValid hvalid, ← hchron.sound.wf.holds_eq_isSome hid, hh]
  · obtain ⟨hscope, hcontrol⟩ := Bool.and_eq_true_iff.mp hidle
    have hnone : ((start host script).run n).started = [] := by
      unfold started
      split
      · rename_i hc
        rw [hc] at hcontrol
        cases hcontrol
      · rfl
    rw [hnone, List.append_nil] at hchron
    exact ⟨hchron.has_iff hscope kind, hchron.dispatches_construct hscope kind⟩

/-- The handler's entity takes the index of the one that it destroyed, and its links are
what is left of two constructions and one destruction. -/
theorem Machine.lifelines_alternate_recycling :
    ((start () recycling).run 29).world.dispatches ((start () recycling).history 29) .node
        .construct =
      ((start () recycling).run 29).world.dispatches ((start () recycling).history 29) .node
        .destroy + ((start () recycling).run 29).world.count .node :=
  ((lifelines_alternate () recycling 29 (by decide +kernel)
    (fun index => Nat.lt_of_le_of_lt (reissues_le _ 29 index) (by decide)) .node).2.2
      (by decide +kernel)).2

end EntityScene
