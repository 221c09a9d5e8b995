import EntityScene.Proofs.Moves

/-!
# Removals under way, across nested calls

A handler may destroy the entity whose component is being taken, or use its index again
while the row is still there. What a storage holds is therefore an affair of the whole
stack: a row whose entity is gone is one whose removal some frame still announces.

- `Frame.announced?`, `Frame.destroyed?`: the removal that a frame announces, and the
  entity that it destroys.
- `Wellstacked`, `Shape`: an announcement lies on the frame that takes the component,
  and such a frame is on top only while it asks or is told.
- `Sound`: the invariant. The removals and the entities being destroyed are those of the
  frames, and a frame that destroys an entity has cleared the pools before its own.
- `sound_move`, `sound_run`: kept by every move, and so by every ordinary run.
- `Machine.removals_account_for_rows`: what this says about the rows of the storages.
-/

namespace EntityScene

variable {U σ : Type} [SceneFamily U]

/-! ## What frames wait for -/

/-- The removal that a frame announces. -/
def Frame.announced? : Frame U σ → Option (ComponentId × Entity)
  | .removal id e => some (id, e)
  | _ => none

/-- The entity that a frame destroys. -/
def Frame.destroyed? : Frame U σ → Option Entity
  | .teardown e _ => some e
  | _ => none

/-- Whether no call is in progress above a frame. -/
def Frame.isScope : Frame U σ → Bool
  | .attempt _ | .blocked .. => true
  | _ => false

/-- The removals that a stack announces. -/
def announced (stack : List (Frame U σ)) : List (ComponentId × Entity) :=
  stack.filterMap Frame.announced?

/-- The entities that a stack destroys. -/
def destroyed (stack : List (Frame U σ)) : List Entity :=
  stack.filterMap Frame.destroyed?

theorem announced_append_plain {new : List (Frame U σ)} (rest : List (Frame U σ))
    (plain : ∀ f ∈ new, f.isPlain = true) : announced (new ++ rest) = announced rest := by
  have hnew : new.filterMap Frame.announced? = [] := by
    rw [List.filterMap_eq_nil_iff]
    intro f hf
    have hplain := plain f hf
    cases f <;> first | rfl | cases hplain
  rw [announced, List.filterMap_append, hnew]
  rfl

theorem destroyed_append_plain {new : List (Frame U σ)} (rest : List (Frame U σ))
    (plain : ∀ f ∈ new, f.isPlain = true) : destroyed (new ++ rest) = destroyed rest := by
  have hnew : new.filterMap Frame.destroyed? = [] := by
    rw [List.filterMap_eq_nil_iff]
    intro f hf
    have hplain := plain f hf
    cases f <;> first | rfl | cases hplain
  rw [destroyed, List.filterMap_append, hnew]
  rfl

theorem announced_of_plain {stack : List (Frame U σ)} (plain : ∀ f ∈ stack, f.isPlain = true) :
    announced stack = [] := by
  rw [← List.append_nil stack, announced_append_plain [] plain]
  rfl

theorem destroyed_of_plain {stack : List (Frame U σ)} (plain : ∀ f ∈ stack, f.isPlain = true) :
    destroyed stack = [] := by
  rw [← List.append_nil stack, destroyed_append_plain [] plain]
  rfl

/-- A teardown below plain frames lies below all of them. -/
theorem suffix_of_append_plain {e : Entity} {id : ComponentId} {new rest tail : List (Frame U σ)}
    (plain : ∀ f ∈ new, f.isPlain = true) (h : .teardown e id :: tail <:+ new ++ rest) :
    .teardown e id :: tail <:+ rest := by
  induction new with
  | nil => exact h
  | cons f new ih =>
    rcases List.suffix_cons_iff.mp h with heq | hsuf
    · have hf := plain f List.mem_cons_self
      rw [← (List.cons.inj heq).1] at hf
      cases hf
    · exact ih (fun g hg => plain g (List.mem_cons_of_mem _ hg)) hsuf

variable [DecidableEq U]

/-- The frame takes the component with a number from an entity, when it is told to. -/
def Frame.Removes (w : World (Kind U)) (id : ComponentId) (e : Entity) : Frame U σ → Prop
  | .teardown e' id' => e' = e ∧ id' = id
  | .taking kind e' _ => e' = e ∧ w.idOf? kind = some id
  | _ => False

theorem Frame.Removes.mono {w w' : World (Kind U)} {id : ComponentId} {e : Entity}
    {f : Frame U σ} (hids : ∀ {kind id}, w.idOf? kind = some id → w'.idOf? kind = some id)
    (h : f.Removes w id e) : f.Removes w' id e := by
  cases f with
  | teardown e' id' => exact h
  | taking kind e' next => exact ⟨h.1, hids h.2⟩
  | _ => cases h

theorem Frame.not_removes_of_isPlain {w : World (Kind U)} {id : ComponentId} {e : Entity}
    {f : Frame U σ} (hf : f.isPlain = true) : ¬ f.Removes w id e := by
  intro h
  cases f <;> first | exact h | cases hf

/-- A frame takes one component only. -/
theorem Frame.Removes.eq {w : World (Kind U)} {id id' : ComponentId} {e e' : Entity}
    {f : Frame U σ} (h : f.Removes w id e) (h' : f.Removes w id' e') : id' = id ∧ e' = e := by
  cases f with
  | teardown x j =>
    obtain ⟨rfl, rfl⟩ := h
    exact ⟨h'.2.symm, h'.1.symm⟩
  | taking kind x next =>
    obtain ⟨rfl, hid⟩ := h
    obtain ⟨rfl, hid'⟩ := h'
    rw [hid] at hid'
    exact ⟨(Option.some.inj hid').symm, rfl⟩
  | _ => cases h

/-- Stacks on which every announcement lies on the frame that takes the component, and
every such frame below its announcement. -/
inductive Wellstacked (w : World (Kind U)) : List (Frame U σ) → Prop
  | nil : Wellstacked w []
  | plain {f : Frame U σ} {rest : List (Frame U σ)} (hf : f.isPlain = true)
      (hrest : Wellstacked w rest) : Wellstacked w (f :: rest)
  | removal {id : ComponentId} {e : Entity} {f : Frame U σ} {rest : List (Frame U σ)}
      (hf : f.Removes w id e) (hrest : Wellstacked w rest) :
      Wellstacked w (.removal id e :: f :: rest)

/-- Stacks with a control: a frame that takes a component is on top while it asks for
the announcement, and when it is told how that went. -/
inductive Shape (w : World (Kind U)) : List (Frame U σ) → Control U σ → Prop
  | settled {stack : List (Frame U σ)} {control : Control U σ} (hstack : Wellstacked w stack)
      (hcontrol : ∀ id e, control ≠ .announce id e) : Shape w stack control
  | asking {f : Frame U σ} {rest : List (Frame U σ)} {id : ComponentId} {e : Entity}
      (hf : f.Removes w id e) (hrest : Wellstacked w rest) : Shape w (f :: rest) (.announce id e)
  | told {f : Frame U σ} {rest : List (Frame U σ)} {id : ComponentId} {e : Entity} (b : Bool)
      (hf : f.Removes w id e) (hrest : Wellstacked w rest) : Shape w (f :: rest) (.reply b)

namespace Wellstacked

variable {w w' : World (Kind U)} {new rest : List (Frame U σ)}

theorem mono (hids : ∀ {kind id}, w.idOf? kind = some id → w'.idOf? kind = some id)
    (h : Wellstacked w rest) : Wellstacked w' rest := by
  induction h with
  | nil => exact .nil
  | plain hf _ ih => exact .plain hf ih
  | removal hf _ ih => exact .removal (hf.mono hids) ih

theorem append_plain (plain : ∀ f ∈ new, f.isPlain = true) (h : Wellstacked w rest) :
    Wellstacked w (new ++ rest) := by
  induction new with
  | nil => exact h
  | cons f new ih =>
    exact .plain (plain f List.mem_cons_self) (ih fun g hg => plain g (List.mem_cons_of_mem _ hg))

/-- A plain frame can be taken away. -/
theorem tail {f : Frame U σ} (h : Wellstacked w (f :: rest)) (hf : f.isPlain = true) :
    Wellstacked w rest := by
  cases h with
  | plain _ hrest => exact hrest
  | removal _ _ => cases hf

theorem of_append_plain (plain : ∀ f ∈ new, f.isPlain = true) (h : Wellstacked w (new ++ rest)) :
    Wellstacked w rest := by
  induction new with
  | nil => exact h
  | cons f new ih =>
    have htail := h.tail (plain f List.mem_cons_self)
    exact ih (fun g hg => plain g (List.mem_cons_of_mem _ hg)) htail

/-- A frame that takes a component is not on top of such a stack. -/
theorem not_removes {f : Frame U σ} {id : ComponentId} {e : Entity}
    (h : Wellstacked w (f :: rest)) : ¬ f.Removes w id e := by
  cases h with
  | plain hf _ => exact Frame.not_removes_of_isPlain hf
  | removal _ _ => exact fun hr => hr

end Wellstacked

namespace Shape

variable {w w' : World (Kind U)} {stack : List (Frame U σ)} {control : Control U σ}

/-- Only an answer or an announcement finds a frame that takes a component on top. -/
theorem wellstacked (h : Shape w stack control) (hreply : ∀ b, control ≠ .reply b)
    (hannounce : ∀ id e, control ≠ .announce id e) : Wellstacked w stack := by
  cases h with
  | settled hstack _ => exact hstack
  | asking _ _ => exact absurd rfl (hannounce _ _)
  | told b _ _ => exact absurd rfl (hreply b)

/-- Who asks for an announcement is on top. -/
theorem of_announce {id : ComponentId} {e : Entity} (h : Shape w stack (.announce id e)) :
    ∃ f rest, stack = f :: rest ∧ f.Removes w id e ∧ Wellstacked w rest := by
  cases h with
  | settled _ hcontrol => exact absurd rfl (hcontrol id e)
  | asking hf hrest => exact ⟨_, _, rfl, hf, hrest⟩

/-- A frame on top that is answered was told, if it takes a component at all. -/
theorem of_reply {f : Frame U σ} {rest : List (Frame U σ)} {b : Bool}
    (h : Shape w (f :: rest) (.reply b)) :
    Wellstacked w (f :: rest) ∨ ∃ id e, f.Removes w id e ∧ Wellstacked w rest := by
  cases h with
  | settled hstack _ => exact .inl hstack
  | told _ hf hrest => exact .inr ⟨_, _, hf, hrest⟩

theorem wellstacked_of_isRequest (h : Shape w stack control) (hc : control.isRequest = true) :
    Wellstacked w stack := by
  refine h.wellstacked (fun b hb => ?_) fun id e ha => ?_
  · rw [hb] at hc
    cases hc
  · rw [ha] at hc
    cases hc

/-- No frame that takes a component is on top when plain frames come and go. -/
theorem wellstacked_of_quiet (h : Shape w stack control) {old rest : List (Frame U σ)}
    (before : stack = old ++ rest) (plain : ∀ f ∈ old, f.isPlain = true)
    (request : control.isRequest = true ∨ (∃ b, control = .reply b) ∧ old ≠ []) :
    Wellstacked w stack := by
  rcases request with hreq | ⟨⟨b, hc⟩, hne⟩
  · exact h.wellstacked_of_isRequest hreq
  · obtain ⟨f, old', rfl⟩ := List.exists_cons_of_ne_nil hne
    rw [hc, before, List.cons_append] at h
    rcases h.of_reply with hwell | ⟨id, e, hf, -⟩
    · rw [before]
      exact hwell
    · exact absurd hf (Frame.not_removes_of_isPlain (plain f List.mem_cons_self))

/-- A frame that announces a removal lies on the one that takes the component. -/
theorem removes_of_removal {id : ComponentId} {e : Entity} {b : Bool}
    (h : Shape w (.removal id e :: stack) (.reply b)) :
    ∃ f rest, stack = f :: rest ∧ f.Removes w id e ∧ Wellstacked w rest := by
  rcases h.of_reply with hwell | ⟨j, x, hf, -⟩
  · cases hwell with
    | plain hplain _ => cases hplain
    | removal hf hrest => exact ⟨_, _, rfl, hf, hrest⟩
  · exact False.elim hf

/-- Below a teardown that is answered no frame asks. -/
theorem wellstacked_of_teardown {e : Entity} {id : ComponentId} {b : Bool}
    (h : Shape w (.teardown e id :: stack) (.reply b)) : Wellstacked w stack := by
  rcases h.of_reply with hwell | ⟨j, x, -, hrest⟩
  · exact absurd ⟨rfl, rfl⟩ hwell.not_removes
  · exact hrest

/-- A kind whose component is being taken is in use. -/
theorem idOf?_of_taking {kind : Kind U} {e : Entity} {b : Bool}
    {next : Option (Value kind) → Script U σ}
    (h : Shape w (.taking kind e next :: stack) (.reply b)) :
    ∃ id, w.idOf? kind = some id ∧ Wellstacked w stack := by
  rcases h.of_reply with hwell | ⟨id, x, ⟨-, hid⟩, hrest⟩
  · cases hwell with
    | plain hplain _ => cases hplain
  · exact ⟨id, hid, hrest⟩

end Shape

/-! ## The invariant -/

/-- The row that the frame on top takes away next. -/
def Owed (w : World (Kind U)) (stack : List (Frame U σ)) (control : Control U σ)
    (id : ComponentId) (x : Entity) : Prop :=
  ∃ f rest, stack = f :: rest ∧ control = .reply true ∧ f.Removes w id x

/-- One row at most is owed. -/
theorem Owed.eq {w : World (Kind U)} {stack : List (Frame U σ)} {control : Control U σ}
    {id j : ComponentId} {e x : Entity} (h : Owed w stack control id e)
    (h' : Owed w stack control j x) : (j, x) = (id, e) := by
  obtain ⟨f, rest, rfl, -, hf⟩ := h
  obtain ⟨f', rest', heq, -, hf'⟩ := h'
  rw [← (List.cons.inj heq).1] at hf'
  obtain ⟨rfl, rfl⟩ := hf.eq hf'
  rfl

/-- The pools before a number have no row for an entity, other than those whose removal
is being announced. -/
def Cleared (w : World (Kind U)) (x : Entity) (id : ComponentId)
    (rest : List (Frame U σ)) : Prop :=
  ∀ j < id, w.holds j x = true → (j, x) ∈ announced rest

/-- The world agrees with the frames about the removals under way and the entities being
destroyed, and a row of an entity that is gone is about to be removed. -/
structure Sound (w : World (Kind U)) (stack : List (Frame U σ)) (control : Control U σ) :
    Prop where
  wf : w.Wf
  shape : Shape w stack control
  removing : w.removing = announced stack
  nodup_removing : w.removing.Nodup
  destroying : ∀ x, w.isDestroying x = true ↔ x ∈ destroyed stack
  nodup_destroyed : (destroyed stack).Nodup
  rows : ∀ id x, w.holds id x = true →
    w.isValid x = true ∨ (id, x) ∈ w.removing ∨ Owed w stack control id x
  cleared : ∀ {x id rest}, .teardown x id :: rest <:+ stack → Cleared w x id rest
  refused : ∀ {x id rest}, control = .reply false → stack = .teardown x id :: rest →
    w.holds id x = true → (id, x) ∈ announced rest

namespace Sound

variable {w w' : World (Kind U)} {stack : List (Frame U σ)} {control : Control U σ}

theorem not_owed_of_wellstacked {id : ComponentId} {x : Entity} (h : Wellstacked w stack) :
    ¬ Owed w stack control id x := by
  rintro ⟨f, rest, rfl, -, hf⟩
  exact h.not_removes hf

theorem not_owed_of_control {id : ComponentId} {x : Entity} (h : control ≠ .reply true) :
    ¬ Owed w stack control id x := by
  rintro ⟨f, rest, -, hc, -⟩
  exact h hc

/-- Outside of answers a row whose entity is gone is about to be removed. -/
theorem rows_of_control (h : Sound w stack control) (hc : control ≠ .reply true)
    {id : ComponentId} {x : Entity} (hx : w.holds id x = true) :
    w.isValid x = true ∨ (id, x) ∈ w.removing := by
  rcases h.rows id x hx with hv | hr | ho
  · exact .inl hv
  · exact .inr hr
  · exact absurd ho (not_owed_of_control hc)

/-- The row that is owed is the only one of an entity that is gone. -/
theorem rows_erase (h : Sound w stack control) {id j : ComponentId} {e x : Entity}
    (howed : Owed w stack control id e) (hx : (w.erase id e).holds j x = true) :
    w.isValid x = true ∨ (j, x) ∈ w.removing := by
  rw [World.holds_erase h.wf] at hx
  split at hx
  · cases hx
  · rename_i hne
    rcases h.rows j x hx with hv | hr | ho
    · exact .inl hv
    · exact .inr hr
    · obtain ⟨rfl, rfl⟩ := Prod.mk.inj (howed.eq ho)
      exact absurd ⟨rfl, rfl⟩ hne

/-- Scripts that go on lie on frames that take no component. -/
theorem wellstacked_of_run (h : Sound w stack control) {script : Script U σ}
    (hc : control = .run script) : Wellstacked w stack := by
  refine h.shape.wellstacked (fun b hb => ?_) fun id e ha => ?_
  · rw [hc] at hb
    cases hb
  · rw [hc] at ha
    cases ha

theorem wellstacked_of_isRequest (h : Sound w stack control) (hc : control.isRequest = true) :
    Wellstacked w stack :=
  h.shape.wellstacked_of_isRequest hc

/-- A teardown on top of the stack destroys its entity. -/
theorem isDestroying_of_teardown {e : Entity} {id : ComponentId} {rest : List (Frame U σ)}
    (h : Sound w (.teardown e id :: rest) control) : w.isDestroying e = true :=
  (h.destroying e).mpr List.mem_cons_self

end Sound

namespace Machine

variable {m m' : Machine U σ}

/-- Below a teardown that asks for an announcement no other frame asks. -/
theorem wellstacked_of_teardown {w : World (Kind U)} {e : Entity} {id : ComponentId}
    {rest : List (Frame U σ)} (h : Sound w (.teardown e id :: rest) (.announce id e)) :
    Wellstacked w rest := by
  obtain ⟨f, rest', heq, -, hrest⟩ := h.shape.of_announce
  rw [(List.cons.inj heq).2]
  exact hrest

/-- Asking for the next pool, or giving the entity up after the last. -/
theorem sound_tornDown {w : World (Kind U)} {e : Entity} {id : ComponentId}
    {rest : List (Frame U σ)} (h : Sound w (.teardown e id :: rest) (.announce id e))
    (torn : TornDown w e id rest m') : Sound m'.world m'.stack m'.control := by
  cases torn with
  | next pool world stack control =>
    rw [world, stack, control]
    exact h
  | last pool world stack control =>
    have hwell := wellstacked_of_teardown h
    have halive := World.isValid_of_isDestroying h.isDestroying_of_teardown
    obtain ⟨hnotin, hnodup⟩ := List.nodup_cons.mp h.nodup_destroyed
    rw [world, stack, control]
    refine
      { wf := { h.wf with table := Entity.Table.wf_release h.wf.table e }
        shape := .settled (Wellstacked.mono (w := w) (fun hid => hid) hwell)
          fun _ _ hc => by cases hc
        removing := h.removing
        nodup_removing := h.nodup_removing
        destroying := fun x => ?_
        nodup_destroyed := hnodup
        rows := fun j x hx => ?_
        cleared := fun hsuf => h.cleared (List.suffix_cons_iff.mpr (.inr hsuf))
        refused := fun hc => by cases hc }
    · calc ({ w with entities := (w.entities.release e).2 } : World (Kind U)).isDestroying x = true
          ↔ w.isDestroying x = true ∧ x ≠ e := Entity.Table.isDestroying_release halive x
        _ ↔ x ∈ e :: destroyed rest ∧ x ≠ e := by rw [h.destroying]; rfl
        _ ↔ x ∈ destroyed rest := by
          rw [List.mem_cons]
          constructor
          · rintro ⟨rfl | hx, hne⟩
            · exact absurd rfl hne
            · exact hx
          · intro hx
            exact ⟨.inr hx, fun heq => hnotin (heq ▸ hx)⟩
    · have hx' : w.holds j x = true := hx
      by_cases hxe : x = e
      · -- no pool is left to be asked for, so all of them have been cleared
        have hj : j < id := Nat.lt_of_lt_of_le (World.lt_size_of_holds hx') pool
        have hmem := h.cleared List.suffix_rfl j hj (hxe ▸ hx')
        refine .inr (.inl ?_)
        rw [hxe]
        show (j, e) ∈ w.removing
        rw [h.removing]
        exact hmem
      · rcases h.rows_of_control (fun hc => by cases hc) hx' with hv | hr
        · exact .inl ((Entity.Table.isAlive_release halive x).mpr ⟨hv, hxe⟩)
        · exact .inr (.inl hr)

theorem sound_quiet (h : Sound m.world m.stack m.control) {old new rest : List (Frame U σ)}
    (before : m.stack = old ++ rest) (plain : ∀ f ∈ old ++ new, f.isPlain = true)
    (request : m.control.isRequest = true ∨ (∃ b, m.control = .reply b) ∧ old ≠ [])
    {w' : World (Kind U)} (world : World.Undisturbed (fun _ => False) m.world w')
    {control' : Control U σ} (calm : control'.IsCalm w') : Sound w' (new ++ rest) control' := by
  have hold : ∀ f ∈ old, f.isPlain = true := fun f hf => plain f (List.mem_append_left _ hf)
  have hnew : ∀ f ∈ new, f.isPlain = true := fun f hf => plain f (List.mem_append_right _ hf)
  have hstack := h.shape.wellstacked_of_quiet before hold request
  have hrest : Wellstacked w' rest :=
    ((before ▸ hstack).of_append_plain hold).mono world.idOf?
  -- frames that come and go announce nothing and destroy nothing
  have hann : announced (new ++ rest) = announced m.stack := by
    rw [announced_append_plain rest hnew, before, announced_append_plain rest hold]
  have hdes : destroyed (new ++ rest) = destroyed m.stack := by
    rw [destroyed_append_plain rest hnew, before, destroyed_append_plain rest hold]
  refine
    { wf := world.wf
      shape := .settled (hrest.append_plain hnew) fun id e hc => ?_
      removing := by rw [world.removing, h.removing, hann]
      nodup_removing := by rw [world.removing]; exact h.nodup_removing
      destroying := fun x => by rw [world.isDestroying, h.destroying, hdes]
      nodup_destroyed := by rw [hdes]; exact h.nodup_destroyed
      rows := fun id x hx => ?_
      cleared := fun hsuf j hj hx => ?_
      refused := fun hc htop => ?_ }
  · rw [hc] at calm
    exact calm
  · rw [world.holds] at hx
    rw [world.isValid, world.removing]
    rcases h.rows id x hx with hv | hr | ho
    · exact .inl hv
    · exact .inr (.inl hr)
    · exact absurd ho (Sound.not_owed_of_wellstacked hstack)
  · have hsuf' := (suffix_of_append_plain hnew hsuf).trans (List.suffix_append old rest)
    rw [← before] at hsuf'
    rw [world.holds] at hx
    exact h.cleared hsuf' j hj hx
  · have hwell := hrest.append_plain hnew
    rw [htop] at hwell
    exact absurd ⟨rfl, rfl⟩ hwell.not_removes

theorem sound_created (h : Sound m.world m.stack m.control) {e : Entity} {table : Entity.Table}
    {script script' : Script U σ} (call : m.control = .run script)
    (allocate : m.world.entities.allocate = (.ok e, table)) :
    Sound { m.world with entities := table } m.stack (.run script') := by
  have htable := h.wf.table
  have hstack := h.wellstacked_of_run call
  refine
    { wf := { h.wf with table := Entity.Table.wf_allocate htable allocate }
      shape := .settled (Wellstacked.mono (w := m.world) (fun hid => hid) hstack)
        fun _ _ hc => by cases hc
      removing := h.removing
      nodup_removing := h.nodup_removing
      destroying := fun x => ?_
      nodup_destroyed := h.nodup_destroyed
      rows := fun id x hx => ?_
      cleared := h.cleared
      refused := fun hc => by cases hc }
  · rw [← h.destroying]
    exact (congrArg (· = true) (Entity.Table.isDestroying_allocate htable allocate x)).to_iff
  · rcases h.rows_of_control (fun hc => by rw [call] at hc; cases hc) hx with hv | hr
    · exact .inl ((Entity.Table.isAlive_allocate htable allocate x).mpr (.inr hv))
    · exact .inr (.inl hr)

theorem sound_placed (h : Sound m.world m.stack m.control) {kind : Kind U} {id : ComponentId}
    {e : Entity} {v : Value kind} {script : Script U σ} {frame : Frame U σ} {w' : World (Kind U)}
    (call : m.control = .run script) (accepts : m.world.accepts e = true)
    (world : World.Placed m.world kind id e v w') (plain : frame.isPlain = true) :
    Sound w' (frame :: m.stack) (.publish id .construct e) := by
  obtain ⟨hvalid, hdestroying⟩ := (World.accepts_iff m.world e).mp accepts
  have hstack := h.wellstacked_of_run call
  have hplain : ∀ f ∈ [frame], f.isPlain = true := by simpa using plain
  have hann : announced (frame :: m.stack) = announced m.stack :=
    announced_append_plain m.stack hplain
  have hdes : destroyed (frame :: m.stack) = destroyed m.stack :=
    destroyed_append_plain m.stack hplain
  refine
    { wf := world.wf
      shape := .settled (.plain plain (hstack.mono world.idOf?)) fun _ _ hc => by cases hc
      removing := by rw [world.removing, h.removing, hann]
      nodup_removing := by rw [world.removing]; exact h.nodup_removing
      destroying := fun x => ?_
      nodup_destroyed := by rw [hdes]; exact h.nodup_destroyed
      rows := fun j x hx => ?_
      cleared := fun {x _ _} hsuf j hj hx => ?_
      refused := fun hc => by cases hc }
  · rw [World.isDestroying, world.entities, hdes]
    exact h.destroying x
  · rw [World.isValid, world.entities, world.removing]
    rcases (world.holds j x).mp hx with ⟨-, rfl⟩ | ⟨-, hx⟩
    · exact .inl hvalid
    · rcases h.rows_of_control (fun hc => by rw [call] at hc; cases hc) hx with hv | hr
      · exact .inl hv
      · exact .inr (.inl hr)
  · have hsuf' := suffix_of_append_plain hplain hsuf
    rcases (world.holds j x).mp hx with ⟨-, rfl⟩ | ⟨-, hx⟩
    · -- an entity that is being destroyed is given no component
      have hmem : x ∈ destroyed m.stack :=
        List.mem_filterMap.mpr ⟨_, hsuf'.subset List.mem_cons_self, rfl⟩
      rw [← h.destroying, hdestroying] at hmem
      cases hmem
    · exact h.cleared hsuf' j hj hx

theorem sound_asked (h : Sound m.world m.stack m.control) {kind : Kind U} {id : ComponentId}
    {e : Entity} (next : Option (Value kind) → Script U σ) {script : Script U σ}
    (call : m.control = .run script) (number : m.world.idOf? kind = some id) :
    Sound m.world (.taking kind e next :: m.stack) (.announce id e) := by
  have hstack := h.wellstacked_of_run call
  refine
    { wf := h.wf
      shape := .asking ⟨rfl, number⟩ hstack
      removing := h.removing
      nodup_removing := h.nodup_removing
      destroying := h.destroying
      nodup_destroyed := h.nodup_destroyed
      rows := fun j x hx => ?_
      cleared := fun hsuf => ?_
      refused := fun hc => by cases hc }
  · rcases h.rows_of_control (fun hc => by rw [call] at hc; cases hc) hx with hv | hr
    · exact .inl hv
    · exact .inr (.inl hr)
  · rcases List.suffix_cons_iff.mp hsuf with heq | hsuf'
    · cases (List.cons.inj heq).1
    · exact h.cleared hsuf'

theorem sound_begun (h : Sound m.world m.stack m.control) {e : Entity}
    (call : m.control = .destroy e) (alive : m.world.entities.state? e = some .alive) :
    Sound { m.world with entities := (m.world.entities.beginDestroy e).2 }
      (.teardown e 0 :: m.stack) (.announce 0 e) := by
  have hstack := h.wellstacked_of_isRequest (by rw [call]; rfl)
  have hnotin : e ∉ destroyed m.stack := by
    rw [← h.destroying, World.isDestroying, Entity.Table.isDestroying_iff, alive]
    exact fun hc => by cases hc
  refine
    { wf := { h.wf with table := Entity.Table.wf_beginDestroy h.wf.table e }
      shape := .asking ⟨rfl, rfl⟩ (Wellstacked.mono (w := m.world) (fun hid => hid) hstack)
      removing := h.removing
      nodup_removing := h.nodup_removing
      destroying := fun x => ?_
      nodup_destroyed := List.nodup_cons.mpr ⟨hnotin, h.nodup_destroyed⟩
      rows := fun j x hx => ?_
      cleared := fun hsuf j hj hx => ?_
      refused := fun hc => by cases hc }
  · calc (m.world.entities.beginDestroy e).2.isDestroying x = true
        ↔ x = e ∨ m.world.isDestroying x = true :=
          Entity.Table.isDestroying_beginDestroy alive x
      _ ↔ x ∈ e :: destroyed m.stack := by rw [h.destroying, List.mem_cons]
  · rcases h.rows_of_control (fun hc => by rw [call] at hc; cases hc) hx with hv | hr
    · refine .inl ?_
      show (m.world.entities.beginDestroy e).2.isAlive x = true
      rw [Entity.Table.isAlive_beginDestroy]
      exact hv
    · exact .inr (.inl hr)
  · rcases List.suffix_cons_iff.mp hsuf with heq | hsuf'
    · -- no pool comes before the first
      obtain ⟨-, rfl⟩ := Frame.teardown.inj (List.cons.inj heq).1
      exact absurd hj (Nat.not_lt_zero j)
    · exact h.cleared hsuf' j hj hx

theorem sound_refused (h : Sound m.world m.stack m.control) {id : ComponentId} {e : Entity}
    (call : m.control = .announce id e)
    (reason : (id, e) ∈ m.world.removing ∨ m.world.holds id e = false) :
    Sound m.world m.stack (.reply false) := by
  have hshape := h.shape
  rw [call] at hshape
  obtain ⟨f, rest, hstack, hf, hrest⟩ := hshape.of_announce
  refine
    { h with
      shape := by rw [hstack]; exact .told false hf hrest
      rows := fun j x hx => ?_
      refused := fun {x j rest'} _ htop hx => ?_ }
  · rcases h.rows_of_control (fun hc => by rw [call] at hc; cases hc) hx with hv | hr
    · exact .inl hv
    · exact .inr (.inl hr)
  · rw [hstack] at htop
    obtain ⟨rfl, rfl⟩ := List.cons.inj htop
    obtain ⟨rfl, rfl⟩ := hf
    -- a row that is there was refused for a frame below that announces its removal
    rcases reason with hr | hno
    · rw [h.removing, hstack] at hr
      exact hr
    · rw [hx] at hno
      cases hno

theorem sound_announced (h : Sound m.world m.stack m.control) {id : ComponentId} {e : Entity}
    (call : m.control = .announce id e) (fresh : (id, e) ∉ m.world.removing) :
    Sound { m.world with removing := (id, e) :: m.world.removing } (.removal id e :: m.stack)
      (.publish id .destroy e) := by
  have hshape := h.shape
  rw [call] at hshape
  obtain ⟨f, rest, hstack, hf, hrest⟩ := hshape.of_announce
  have hwell : Wellstacked m.world (.removal id e :: m.stack) := by
    rw [hstack]
    exact .removal hf hrest
  refine
    { wf := { h.wf with }
      shape := .settled (Wellstacked.mono (w := m.world) (fun hid => hid) hwell)
        fun _ _ hc => by cases hc
      removing := congrArg _ h.removing
      nodup_removing := List.nodup_cons.mpr ⟨fresh, h.nodup_removing⟩
      destroying := h.destroying
      nodup_destroyed := h.nodup_destroyed
      rows := fun j x hx => ?_
      cleared := fun hsuf => ?_
      refused := fun hc => by cases hc }
  · rcases h.rows_of_control (fun hc => by rw [call] at hc; cases hc) hx with hv | hr
    · exact .inl hv
    · exact .inr (.inl (List.mem_cons_of_mem _ hr))
  · rcases List.suffix_cons_iff.mp hsuf with heq | hsuf'
    · cases (List.cons.inj heq).1
    · exact h.cleared hsuf'

/-- At the end of an announcement the row is owed. -/
theorem owed_finished {w : World (Kind U)} {id : ComponentId} {e : Entity} {b : Bool}
    {stack : List (Frame U σ)} (h : Sound w (.removal id e :: stack) (.reply b)) :
    Owed { w with removing := w.removing.erase (id, e) } stack (.reply true) id e := by
  obtain ⟨f, rest, hstack, hf, -⟩ := h.shape.removes_of_removal
  exact ⟨f, rest, hstack, rfl, hf.mono fun hid => hid⟩

theorem sound_finished {id : ComponentId} {e : Entity} {b : Bool} {stack : List (Frame U σ)}
    (h : Sound m.world (.removal id e :: stack) (.reply b)) :
    Sound { m.world with removing := m.world.removing.erase (id, e) } stack (.reply true) := by
  have howed := owed_finished h
  obtain ⟨f, rest, rfl, hf, hrest⟩ := h.shape.removes_of_removal
  have herase : m.world.removing.erase (id, e) = announced (f :: rest) := by
    rw [h.removing]
    exact List.erase_cons_head _ _
  refine
    { wf := { h.wf with }
      shape := .told true hf (Wellstacked.mono (w := m.world) (fun hid => hid) hrest)
      removing := herase
      nodup_removing := h.nodup_removing.erase _
      destroying := h.destroying
      nodup_destroyed := h.nodup_destroyed
      rows := fun j x hx => ?_
      cleared := fun hsuf => h.cleared (List.suffix_cons_iff.mpr (.inr hsuf))
      refused := fun hc => by cases hc }
  by_cases hpair : (j, x) = (id, e)
  · obtain ⟨rfl, rfl⟩ := Prod.mk.inj hpair
    exact .inr (.inr howed)
  · rcases h.rows j x hx with hv | hr | ⟨g, rest', heq, -, hg⟩
    · exact .inl hv
    · exact .inr (.inl ((List.mem_erase_of_ne hpair).mpr hr))
    · rw [← (List.cons.inj heq).1] at hg
      exact False.elim hg

/-- A teardown that was answered can ask for the next pool. -/
theorem sound_teardown {w : World (Kind U)} {id : ComponentId} {e : Entity} {b : Bool}
    {rest : List (Frame U σ)} (h : Sound w (.teardown e id :: rest) (.reply b)) :
    Sound (if b then w.erase id e else w) (.teardown e (id + 1) :: rest)
      (.announce (id + 1) e) := by
  have hrest := h.shape.wellstacked_of_teardown
  cases b with
  | false =>
    refine
      { h with
        shape := .asking ⟨rfl, rfl⟩ hrest
        rows := fun j x hx => ?_
        cleared := fun {x j' rest'} hsuf j hj hx => ?_
        refused := fun hc => by cases hc }
    · rcases h.rows_of_control (fun hc => by cases hc) hx with hv | hr
      · exact .inl hv
      · exact .inr (.inl hr)
    · rcases List.suffix_cons_iff.mp hsuf with heq | hsuf'
      · obtain ⟨htop, rfl⟩ := List.cons.inj heq
        obtain ⟨rfl, rfl⟩ := Frame.teardown.inj htop
        -- the pool that was asked for last joins those that are cleared
        rcases Nat.lt_succ_iff_lt_or_eq.mp hj with hlt | rfl
        · exact h.cleared List.suffix_rfl j hlt hx
        · exact h.refused rfl rfl hx
      · exact h.cleared (List.suffix_cons_iff.mpr (.inr hsuf')) j hj hx
  | true =>
    have herase := World.holds_erase h.wf id e
    refine
      { wf := World.wf_erase h.wf id e
        shape := .asking ⟨rfl, rfl⟩ (Wellstacked.mono (w := w) (fun hid => hid) hrest)
        removing := h.removing
        nodup_removing := h.nodup_removing
        destroying := h.destroying
        nodup_destroyed := h.nodup_destroyed
        rows := fun j x hx => ?_
        cleared := fun {x j' rest'} hsuf j hj hx => ?_
        refused := fun hc => by cases hc }
    · rcases h.rows_erase ⟨_, _, rfl, rfl, rfl, rfl⟩ hx with hv | hr
      · exact .inl hv
      · exact .inr (.inl hr)
    · rw [if_pos rfl, herase] at hx
      split at hx
      · cases hx
      · rename_i hne
        rcases List.suffix_cons_iff.mp hsuf with heq | hsuf'
        · obtain ⟨htop, rfl⟩ := List.cons.inj heq
          obtain ⟨rfl, rfl⟩ := Frame.teardown.inj htop
          rcases Nat.lt_succ_iff_lt_or_eq.mp hj with hlt | rfl
          · exact h.cleared List.suffix_rfl j hlt hx
          · exact absurd ⟨rfl, rfl⟩ hne
        · exact h.cleared (List.suffix_cons_iff.mpr (.inr hsuf')) j hj hx

/-- Taking the component that was asked for. -/
theorem sound_taken {w : World (Kind U)} {kind : Kind U} {e : Entity} {b : Bool}
    {next : Option (Value kind) → Script U σ} {stack : List (Frame U σ)}
    (h : Sound w (.taking kind e next :: stack) (.reply b)) (script : Script U σ) :
    Sound (if b then (w.pull kind e).2 else w) stack (.run script) := by
  obtain ⟨id, hid, hrest⟩ := h.shape.idOf?_of_taking
  have hcleared : ∀ {x : Entity} {j : ComponentId} {rest : List (Frame U σ)},
      .teardown x j :: rest <:+ stack → Cleared w x j rest :=
    fun hsuf => h.cleared (List.suffix_cons_iff.mpr (.inr hsuf))
  cases b with
  | false =>
    refine
      { wf := h.wf
        shape := .settled hrest fun _ _ hc => by cases hc
        removing := h.removing
        nodup_removing := h.nodup_removing
        destroying := h.destroying
        nodup_destroyed := h.nodup_destroyed
        rows := fun j x hx => ?_
        cleared := hcleared
        refused := fun hc => by cases hc }
    rcases h.rows_of_control (fun hc => by cases hc) hx with hv | hr
    · exact .inl hv
    · exact .inr (.inl hr)
  | true =>
    have herase := World.holds_erase h.wf id e
    rw [if_pos rfl, World.pull_eq h.wf hid]
    refine
      { wf := World.wf_erase h.wf id e
        shape := .settled (Wellstacked.mono (w := w) (fun hid => hid) hrest)
          fun _ _ hc => by cases hc
        removing := h.removing
        nodup_removing := h.nodup_removing
        destroying := h.destroying
        nodup_destroyed := h.nodup_destroyed
        rows := fun j x hx => ?_
        cleared := fun hsuf j hj hx => ?_
        refused := fun hc => by cases hc }
    · rcases h.rows_erase ⟨_, _, rfl, rfl, rfl, hid⟩ hx with hv | hr
      · exact .inl hv
      · exact .inr (.inl hr)
    · rw [herase] at hx
      split at hx
      · cases hx
      · exact hcleared hsuf j hj hx

/-- The invariant is kept by every move. -/
theorem sound_move (h : Sound m.world m.stack m.control) (hm : Move m m') :
    Sound m'.world m'.stack m'.control := by
  cases hm with
  | quiet old new rest before after plain request world control =>
    rw [after]
    exact sound_quiet h before plain request world control
  | created e table next call allocate world stack control =>
    rw [world, stack, control]
    exact sound_created h call allocate
  | placed kind id e v make next frame call accepts world plain stack control =>
    rw [stack, control]
    exact sound_placed h call accepts world plain
  | asked kind id e next call number world stack control =>
    rw [world, stack, control]
    exact sound_asked h next call number
  | begun e call alive torn => exact sound_tornDown (sound_begun h call alive) torn
  | refused id e call reason world stack control =>
    rw [world, stack, control]
    exact sound_refused h call reason
  | announced id e call fresh row world stack control =>
    rw [world, stack, control]
    exact sound_announced h call fresh
  | finished id e b call before world control =>
    rw [call, before] at h
    rw [world, control]
    exact sound_finished h
  | teardown id e b rest call before torn =>
    rw [call, before] at h
    exact sound_tornDown (sound_teardown h) torn
  | taken kind e b next script call before world control =>
    rw [call, before] at h
    rw [world, control]
    exact sound_taken h script

/-- With nothing under way every script can start. -/
theorem sound_nil {w : World (Kind U)} (hwf : w.Wf) (hremoving : w.removing = [])
    (hdestroying : ∀ x, w.isDestroying x = false)
    (hrows : ∀ id x, w.holds id x = true → w.isValid x = true) (script : Script U σ) :
    Sound w [] (.run script) :=
  { wf := hwf
    shape := .settled .nil fun _ _ hc => by cases hc
    removing := hremoving
    nodup_removing := by
      rw [hremoving]
      exact List.nodup_nil
    destroying := fun x => by
      rw [hdestroying]
      simp [destroyed]
    nodup_destroyed := List.nodup_nil
    rows := fun id x hx => .inl (hrows id x hx)
    cleared := fun hsuf => by
      have hnil := List.suffix_nil.mp hsuf
      cases hnil
    refused := fun hc => by cases hc }

theorem sound_start (host : σ) (script : Script U σ) :
    Sound (start host script).world (start host script).stack (start host script).control := by
  refine sound_nil World.wf_empty rfl (fun x => ?_) (fun id x hx => ?_) script
  · simp [World.isDestroying, World.empty, Entity.Table.isDestroying, Entity.Table.state?,
      Entity.Table.slot?, Entity.Table.empty]
  · simp [World.holds, World.empty] at hx

/-- The invariant is kept by every ordinary run. -/
theorem sound_run_from (h : Sound m.world m.stack m.control) {n : Nat} (hord : m.Ordinary n) :
    Sound (m.run n).world (m.run n).stack (m.run n).control := by
  induction n with
  | zero => exact h
  | succ n ih =>
    have hlast := hord.of_succ.last
    have hnext := hord.last
    have hsound := ih hord.of_succ
    rw [run_succ] at hnext ⊢
    cases hstep : (m.run n).step with
    | none => exact hsound
    | some m' =>
      rw [hstep] at hnext
      exact sound_move hsound (move_of_step hsound.wf hlast hnext hstep)

/-- The invariant holds throughout every ordinary run from the start. -/
theorem sound_run (host : σ) (script : Script U σ) {n : Nat}
    (h : (start host script).Ordinary n) :
    Sound ((start host script).run n).world ((start host script).run n).stack
      ((start host script).run n).control :=
  sound_run_from (sound_start host script) h

end Machine

/-! ## Rows and the living -/

/-- A row whose entity is gone is one whose removal is being announced, and no removal is
announced twice at a time. -/
structure World.Accounted (w : World (Kind U)) : Prop where
  nodup : w.removing.Nodup
  rows : ∀ {id : ComponentId} {pool : Pool (Kind U)} {e : Entity}, w.pools[id]? = some pool →
    e ∈ pool.storage.entities → w.isValid e = false → (id, e) ∈ w.removing

/-- Every row is for an entity that may be given components, and nothing is under way. -/
structure World.Settled (w : World (Kind U)) : Prop where
  removing : w.removing = []
  destroying : ∀ e : Entity, w.isDestroying e = false
  rows : ∀ {id : ComponentId} {pool : Pool (Kind U)} {e : Entity}, w.pools[id]? = some pool →
    e ∈ pool.storage.entities → w.accepts e = true

omit [DecidableEq U] in
theorem World.Settled.accepts {w : World (Kind U)} (h : w.Settled) (hwf : w.Wf)
    {id : ComponentId} {e : Entity} (hrow : w.holds id e = true) : w.accepts e = true := by
  obtain ⟨pool, hpool, -⟩ := (Option.any_eq_true _ _).mp hrow
  exact h.rows hpool ((hwf.holds_iff_mem hpool e).mp hrow)

/-- Whether a call or a dispatch is over and nothing else has started. -/
def Control.isAnswer : Control U σ → Bool
  | .reply _ => true
  | _ => false

/-- Whether no call is in progress. -/
def Machine.isIdle (m : Machine U σ) : Bool :=
  m.stack.all Frame.isScope &&
    match m.control with
    | .run _ | .reply _ => true
    | _ => false

namespace Sound

variable {w : World (Kind U)} {stack : List (Frame U σ)} {control : Control U σ}

theorem accounted (h : Sound w stack control) (hc : control ≠ .reply true) : w.Accounted :=
  { nodup := h.nodup_removing
    rows := fun {id pool e} hpool he hdead => by
      rcases h.rows_of_control hc ((h.wf.holds_iff_mem hpool e).mpr he) with hv | hr
      · rw [hv] at hdead
        cases hdead
      · exact hr }

omit [DecidableEq U] in
theorem isPlain_of_isScope (hscope : stack.all Frame.isScope = true) :
    ∀ f ∈ stack, f.isPlain = true := by
  intro f hf
  have hf' := List.all_eq_true.mp hscope f hf
  cases f <;> first | rfl | cases hf'

/-- Frames that only mark a scope take nothing away. -/
theorem not_owed_of_isScope (hscope : stack.all Frame.isScope = true) (id : ComponentId)
    (x : Entity) : ¬ Owed w stack control id x := by
  rintro ⟨f, rest, rfl, -, hf⟩
  exact Frame.not_removes_of_isPlain (isPlain_of_isScope hscope f List.mem_cons_self) hf

/-- Where only tasks and scopes wait nobody is being destroyed. -/
theorem isDestroying_of_plain (h : Sound w stack control) (plain : ∀ f ∈ stack, f.isPlain = true)
    (x : Entity) : w.isDestroying x = false := by
  rw [Bool.eq_false_iff, Ne, h.destroying, destroyed_of_plain plain]
  exact List.not_mem_nil

/-- Frames that only mark a scope neither announce nor destroy anything. -/
theorem settled (h : Sound w stack control) (hscope : stack.all Frame.isScope = true) :
    w.Settled := by
  have hplain := isPlain_of_isScope hscope
  have hnone : w.removing = [] := h.removing.trans (announced_of_plain hplain)
  have hquiet := h.isDestroying_of_plain hplain
  refine
    { removing := hnone
      destroying := hquiet
      rows := fun {id pool e} hpool he => ?_ }
  rw [World.accepts_iff]
  refine ⟨?_, hquiet e⟩
  rcases h.rows id e ((h.wf.holds_iff_mem hpool e).mpr he) with hv | hr | ho
  · exact hv
  · rw [hnone] at hr
    cases hr
  · exact absurd ho (not_owed_of_isScope hscope id e)

end Sound

/-- **Storages hold the living.** However deep calls are nested, a row whose entity is
gone is one of the removals under way, and these are listed once each. When no call is
in progress every row is for an entity that is valid and not being destroyed, no entity
is being destroyed, and no removal is under way. -/
theorem Machine.removals_account_for_rows (host : σ) (script : Script U σ) (n : Nat)
    (h : (start host script).Ordinary n) :
    (((start host script).run n).control.isAnswer = false →
        ((start host script).run n).world.Accounted) ∧
      (((start host script).run n).isIdle = true →
        ((start host script).run n).world.Settled) := by
  have hsound := sound_run host script h
  constructor
  · intro hanswer
    refine hsound.accounted fun hc => ?_
    rw [hc] at hanswer
    cases hanswer
  · intro hidle
    exact hsound.settled (Bool.and_eq_true_iff.mp hidle).1

/-- In the middle of the handler the row of the entity that it destroyed is accounted
for, and in the end the one on the same index is of the living. -/
theorem Machine.removals_account_for_rows_recycling :
    ((start () recycling).run 18).world.Accounted ∧
      ((start () recycling).run 29).world.Settled :=
  ⟨(removals_account_for_rows () recycling 18 (by decide +kernel)).1 (by decide +kernel),
    (removals_account_for_rows () recycling 29 (by decide +kernel)).2 (by decide +kernel)⟩

end EntityScene
