import EntityScene.Proofs.Frames
import EntityScene.Proofs.Lifelines
import EntityScene.Proofs.Unwinding

/-!
# Removals under way, also while calls are abandoned

An announcement that is abandoned stays listed, so the removals that a world lists may be
more than those that frames announce. What frames announce is listed nevertheless, and the
row stays where it is until the announcement is over.

- `Upheld`: the invariant. The rows that frames announce to be removed are there unless the
  entity is gone, and the entities that frames destroy are being destroyed.
- `upheld_move`, `upheld_fall`, `upheld_run`: kept by every tame step.
- `aged_of_move`, `aged_of_le`: a handle that was issued never comes back to life.
-/

namespace EntityScene

variable {U σ : Type} [SceneFamily U] [DecidableEq U]

/-! ## The invariant -/

/-- The rows that frames announce to be removed are there unless the entity is gone, and
the entities that frames destroy are being destroyed, given how often each index was used
again. Removals whose call was abandoned stay listed. -/
structure Upheld (count : UInt32 → Nat) (w : World (Kind U)) (stack : List (Frame U σ))
    (control : Control U σ) : Prop where
  wf : w.Wf
  dated : w.entities.Dated count
  layered : Layered w stack control
  removing : ∀ {id e}, (id, e) ∈ announced stack → (id, e) ∈ w.removing
  nodup_announced : (announced stack).Nodup
  destroying : ∀ {e}, e ∈ destroyed stack → w.isDestroying e = true
  nodup_destroyed : (destroyed stack).Nodup
  issued : ∀ {id e}, w.holds id e = true → w.entities.Issued count e
  gone : ∀ {id e}, (id, e) ∈ announced stack →
    w.entities.Issued count e ∧ (w.holds id e = true ∨ w.isValid e = false)
  parted : ∀ {id e}, Owed w stack control id e → (id, e) ∉ announced stack

namespace Upheld

variable {count count' : UInt32 → Nat} {w w' : World (Kind U)}
variable {stack stack' rest : List (Frame U σ)} {control control' : Control U σ}

/-- An edit that moves no row and ends no destruction. -/
theorem transfer (h : Upheld count w stack control) (wf : w'.Wf)
    (dated : w'.entities.Dated count') (layered : Layered w' stack' control')
    (hannounced : announced stack' = announced stack)
    (removing : ∀ {p}, p ∈ w.removing → p ∈ w'.removing)
    (hdestroyed : destroyed stack' = destroyed stack)
    (destroying : ∀ {x}, w.isDestroying x = true → w'.isDestroying x = true)
    (holds : ∀ id e, w'.holds id e = w.holds id e)
    (issued : ∀ {x}, w.entities.Issued count x → w'.entities.Issued count' x)
    (dead : ∀ {x}, w.entities.Issued count x → w.isValid x = false → w'.isValid x = false)
    (unowed : ∀ id e, ¬ Owed w' stack' control' id e) : Upheld count' w' stack' control' := by
  refine
    { wf, dated, layered
      removing := fun he => removing (h.removing (hannounced ▸ he))
      nodup_announced := hannounced ▸ h.nodup_announced
      destroying := fun he => destroying (h.destroying (hdestroyed ▸ he))
      nodup_destroyed := hdestroyed ▸ h.nodup_destroyed
      issued := fun {id e} he => issued (h.issued (holds id e ▸ he))
      gone := fun {id e} he => ?_
      parted := fun ho => absurd ho (unowed _ _) }
  obtain ⟨hissued, hrow⟩ := h.gone (hannounced ▸ he)
  refine ⟨issued hissued, ?_⟩
  rw [holds]
  rcases hrow with hh | hd
  · exact .inl hh
  · exact .inr (dead hissued hd)

/-- A row that no frame announces is taken away. -/
theorem erase (h : Upheld count w stack control) {id : ComponentId} {e : Entity}
    (hfree : (id, e) ∉ announced stack) (layered : Layered (w.erase id e) stack' control')
    (hannounced : announced stack' = announced stack)
    (hdestroyed : destroyed stack' = destroyed stack)
    (unowed : ∀ j x, ¬ Owed (w.erase id e) stack' control' j x) :
    Upheld count (w.erase id e) stack' control' := by
  have herase := World.holds_erase h.wf id e
  refine
    { wf := World.wf_erase h.wf id e
      dated := h.dated
      layered
      removing := fun hx => h.removing (hannounced ▸ hx)
      nodup_announced := hannounced ▸ h.nodup_announced
      destroying := fun hx => h.destroying (hdestroyed ▸ hx)
      nodup_destroyed := hdestroyed ▸ h.nodup_destroyed
      issued := fun {j x} hx => ?_
      gone := fun {j x} hx => ?_
      parted := fun ho => absurd ho (unowed _ _) }
  · rw [herase] at hx
    split at hx
    · cases hx
    · exact h.issued hx
  · rw [hannounced] at hx
    have hne : ¬ (j = id ∧ x = e) := by
      rintro ⟨rfl, rfl⟩
      exact hfree hx
    rw [herase, if_neg hne]
    exact h.gone hx

end Upheld

namespace Machine

variable {m m' : Machine U σ} {count : UInt32 → Nat}

/-- Asking for the next pool, or giving the entity up after the last. -/
theorem upheld_tornDown {w : World (Kind U)} {e : Entity} {id : ComponentId}
    {rest : List (Frame U σ)} (h : Upheld count w (.teardown e id :: rest) (.announce id e))
    (torn : TornDown w e id rest m') : Upheld count m'.world m'.stack m'.control := by
  have hrest : Wellstacked w rest := by
    obtain ⟨f, rest', heq, -, hrest⟩ := (h.layered.shape fun _ hc => by cases hc).of_announce
    rw [(List.cons.inj heq).2]
    exact hrest
  have hshape := shape_tornDown hrest torn
  cases torn with
  | next pool world stack control =>
    rw [world, stack, control]
    exact h
  | last pool world stack control =>
    have halive := World.isValid_of_isDestroying (h.destroying List.mem_cons_self)
    obtain ⟨hnotin, hnodup⟩ := List.nodup_cons.mp h.nodup_destroyed
    have hsize := Entity.Table.size_slots_release w.entities e
    rw [world, stack, control] at hshape ⊢
    refine
      { wf := { h.wf with table := Entity.Table.wf_release h.wf.table e }
        dated := Entity.Table.dated_release h.dated halive
        layered := .shaped hshape
        removing := h.removing
        nodup_announced := h.nodup_announced
        destroying := fun {x} hx => ?_
        nodup_destroyed := hnodup
        issued := fun hx => (h.issued hx).mono (Nat.le_of_eq hsize.symm) (Nat.le_refl _)
        gone := fun {j x} hx => ?_
        parted := fun ho => ?_ }
    · have hne : x ≠ e := fun heq => hnotin (heq ▸ hx)
      exact (Entity.Table.isDestroying_release halive x).mpr
        ⟨h.destroying (List.mem_cons_of_mem _ hx), hne⟩
    · obtain ⟨hissued, hrow⟩ := h.gone hx
      refine ⟨hissued.mono (Nat.le_of_eq hsize.symm) (Nat.le_refl _), ?_⟩
      rcases hrow with hh | hd
      · exact .inl hh
      · refine .inr (Bool.eq_false_iff.mpr fun hv => ?_)
        have hlive := (Entity.Table.isAlive_release halive x).mp hv
        rw [World.isValid, hlive.1] at hd
        cases hd
    · exact absurd ho (Sound.not_owed_of_wellstacked
        (Wellstacked.mono (w := w) (fun hid => hid) hrest))

theorem upheld_quiet (h : Upheld count m.world m.stack m.control)
    {old new rest : List (Frame U σ)} (before : m.stack = old ++ rest)
    (after : m'.stack = new ++ rest) (plain : ∀ f ∈ old ++ new, f.isPlain = true)
    (request : m.control.isRequest = true ∨ (∃ b, m.control = .reply b) ∧ old ≠ [])
    (world : World.Undisturbed (fun _ => False) m.world m'.world)
    (calm : m'.control.IsCalm m'.world) :
    Upheld (m.recount count) m'.world m'.stack m'.control := by
  have hmove : Move m m' := .quiet old new rest before after plain request world calm
  have hshape := h.layered.shape hmove.not_unwind
  have hold : ∀ f ∈ old, f.isPlain = true := fun f hf => plain f (List.mem_append_left _ hf)
  have hnew : ∀ f ∈ new, f.isPlain = true := fun f hf => plain f (List.mem_append_right _ hf)
  have hwell := hshape.wellstacked_of_quiet before hold request
  have hwell' : Wellstacked m'.world (new ++ rest) :=
    ((Wellstacked.of_append_plain hold (before ▸ hwell)).mono world.idOf?).append_plain hnew
  rw [recount_of_quiet request]
  refine h.transfer world.wf (by rw [world.entities]; exact h.dated)
    (layered_move h.wf h.layered hmove) ?_ (fun hp => by rw [world.removing]; exact hp) ?_
    (fun hx => by rw [world.isDestroying]; exact hx) world.holds
    (fun hx => by rw [world.entities]; exact hx) (fun _ hx => by rw [world.isValid]; exact hx)
    fun id e => Sound.not_owed_of_wellstacked (after ▸ hwell')
  · rw [after, before, announced_append_plain rest hnew, announced_append_plain rest hold]
  · rw [after, before, destroyed_append_plain rest hnew, destroyed_append_plain rest hold]

/-- A component that is put on an entity takes the place of a row of the dead. -/
theorem upheld_placed (h : Upheld count m.world m.stack m.control) {kind : Kind U}
    {id : ComponentId} {e : Entity} {v : Value kind} {frame : Frame U σ}
    (accepts : m.world.accepts e = true) (world : World.Placed m.world kind id e v m'.world)
    (plain : frame.isPlain = true) (stack : m'.stack = frame :: m.stack)
    (control : m'.control = .publish id .construct e)
    (layered : Layered m'.world m'.stack m'.control) :
    Upheld count m'.world m'.stack m'.control := by
  obtain ⟨hvalid, -⟩ := (World.accepts_iff m.world e).mp accepts
  have hplain : ∀ f ∈ [frame], f.isPlain = true := by simpa using plain
  have hann : announced m'.stack = announced m.stack := by
    rw [stack]
    exact announced_append_plain m.stack hplain
  have hdes : destroyed m'.stack = destroyed m.stack := by
    rw [stack]
    exact destroyed_append_plain m.stack hplain
  refine
    { wf := world.wf
      dated := by rw [world.entities]; exact h.dated
      layered
      removing := fun hx => by rw [world.removing]; exact h.removing (hann ▸ hx)
      nodup_announced := hann ▸ h.nodup_announced
      destroying := fun {x} hx => ?_
      nodup_destroyed := hdes ▸ h.nodup_destroyed
      issued := fun {j x} hx => ?_
      gone := fun {j x} hx => ?_
      parted := fun ho => absurd ho (Sound.not_owed_of_control fun hc => ?_) }
  · rw [World.isDestroying, world.entities]
    exact h.destroying (hdes ▸ hx)
  · rw [world.entities]
    rcases (world.holds j x).mp hx with ⟨rfl, rfl⟩ | ⟨-, hh⟩
    · exact h.dated.issued_of_isAlive hvalid
    · exact h.issued hh
  · obtain ⟨hissued, hrow⟩ := h.gone (hann ▸ hx)
    rw [World.isValid, world.entities]
    refine ⟨hissued, ?_⟩
    rcases hrow with hh | hd
    · by_cases hi : j = id ∧ x.index = e.index
      · -- the row that gives way is not of the entity that has the index now
        refine .inr (Bool.eq_false_iff.mpr fun hv => ?_)
        obtain ⟨rfl, hi⟩ := hi
        rw [Entity.Table.eq_of_isAlive hvalid hv hi, world.new] at hh
        cases hh
      · exact .inl ((world.holds j x).mpr (.inr ⟨hi, hh⟩))
    · exact .inr hd
  · rw [control] at hc
    cases hc

theorem upheld_begun (h : Upheld count m.world m.stack m.control) {e : Entity}
    (call : m.control = .destroy e) (alive : m.world.entities.state? e = some .alive) :
    Upheld count { m.world with entities := (m.world.entities.beginDestroy e).2 }
      (.teardown e 0 :: m.stack) (.announce 0 e) := by
  have hsize := Entity.Table.size_slots_beginDestroy m.world.entities e
  have hshape := h.layered.shape fun _ hc => by rw [call] at hc; cases hc
  have hstack := hshape.wellstacked_of_isRequest (by rw [call]; rfl)
  have hnotin : e ∉ destroyed m.stack := fun hmem => by
    have hdes := h.destroying hmem
    rw [World.isDestroying, Entity.Table.isDestroying_iff, alive] at hdes
    cases hdes
  have hdestroying := Entity.Table.isDestroying_beginDestroy alive
  refine
    { wf := { h.wf with table := Entity.Table.wf_beginDestroy h.wf.table e }
      dated := Entity.Table.dated_beginDestroy h.dated e
      layered := .shaped (.asking ⟨rfl, rfl⟩
        (Wellstacked.mono (w := m.world) (fun hid => hid) hstack))
      removing := h.removing
      nodup_announced := h.nodup_announced
      destroying := fun {x} hx => ?_
      nodup_destroyed := List.nodup_cons.mpr ⟨hnotin, h.nodup_destroyed⟩
      issued := fun hx => (h.issued hx).mono (Nat.le_of_eq hsize.symm) (Nat.le_refl _)
      gone := fun {j x} hx => ?_
      parted := fun ho => absurd ho (Sound.not_owed_of_control fun hc => by cases hc) }
  · rcases List.mem_cons.mp hx with rfl | hx
    · exact (hdestroying x).mpr (.inl rfl)
    · exact (hdestroying x).mpr (.inr (h.destroying hx))
  · obtain ⟨hissued, hrow⟩ := h.gone hx
    refine ⟨hissued.mono (Nat.le_of_eq hsize.symm) (Nat.le_refl _), ?_⟩
    rw [World.isValid, Entity.Table.isAlive_beginDestroy]
    exact hrow

theorem upheld_announced (h : Upheld count m.world m.stack m.control) {id : ComponentId}
    {e : Entity} (fresh : (id, e) ∉ m.world.removing) (row : m.world.holds id e = true)
    (layered : Layered { m.world with removing := (id, e) :: m.world.removing }
      (.removal id e :: m.stack) (.publish id .destroy e)) :
    Upheld count { m.world with removing := (id, e) :: m.world.removing } (.removal id e :: m.stack)
      (.publish id .destroy e) := by
  refine
    { wf := { h.wf with }
      dated := h.dated
      layered
      removing := fun {j x} hx => ?_
      nodup_announced := List.nodup_cons.mpr ⟨fun hx => fresh (h.removing hx), h.nodup_announced⟩
      destroying := h.destroying
      nodup_destroyed := h.nodup_destroyed
      issued := h.issued
      gone := fun {j x} hx => ?_
      parted := fun ho => absurd ho (Sound.not_owed_of_control fun hc => by cases hc) }
  · rcases List.mem_cons.mp hx with heq | hx
    · exact heq ▸ List.mem_cons_self
    · exact List.mem_cons_of_mem _ (h.removing hx)
  · rcases List.mem_cons.mp hx with heq | hx
    · obtain ⟨rfl, rfl⟩ := Prod.mk.inj heq
      exact ⟨h.issued row, .inl row⟩
    · exact h.gone hx

theorem upheld_finished {id : ComponentId} {e : Entity} {b : Bool} {stack : List (Frame U σ)}
    (h : Upheld count m.world (.removal id e :: stack) (.reply b)) :
    Upheld count { m.world with removing := m.world.removing.erase (id, e) } stack
      (.reply true) := by
  obtain ⟨f, rest, rfl, hf, hrest⟩ :=
    (h.layered.shape fun _ hc => by cases hc).removes_of_removal
  obtain ⟨hnotin, hnodup⟩ := List.nodup_cons.mp h.nodup_announced
  have howed : Owed { m.world with removing := m.world.removing.erase (id, e) } (f :: rest)
      (.reply true) id e := ⟨f, rest, rfl, rfl, hf.mono fun hid => hid⟩
  refine
    { wf := { h.wf with }
      dated := h.dated
      layered := .shaped (.told true (hf.mono fun hid => hid)
        (Wellstacked.mono (w := m.world) (fun hid => hid) hrest))
      removing := fun {j x} hx => ?_
      nodup_announced := hnodup
      destroying := h.destroying
      nodup_destroyed := h.nodup_destroyed
      issued := h.issued
      gone := fun hx => h.gone (List.mem_cons_of_mem _ hx)
      parted := fun {j x} ho => ?_ }
  · have hne : (j, x) ≠ (id, e) := fun heq => hnotin (heq ▸ hx)
    exact (List.mem_erase_of_ne hne).mpr (h.removing (List.mem_cons_of_mem _ hx))
  · rw [howed.eq ho]
    exact hnotin

/-- A teardown that was answered can ask for the next pool. -/
theorem upheld_teardown {w : World (Kind U)} {id : ComponentId} {e : Entity} {b : Bool}
    {rest : List (Frame U σ)} (h : Upheld count w (.teardown e id :: rest) (.reply b)) :
    Upheld count (if b then w.erase id e else w) (.teardown e (id + 1) :: rest)
      (.announce (id + 1) e) := by
  have hrest := (h.layered.shape fun _ hc => by cases hc).wellstacked_of_teardown
  cases b with
  | false =>
    exact h.transfer h.wf h.dated (.shaped (.asking ⟨rfl, rfl⟩ hrest)) rfl (fun hp => hp) rfl
      (fun hx => hx) (fun _ _ => rfl) (fun hx => hx) (fun _ hx => hx)
      fun _ _ => Sound.not_owed_of_control fun hc => by cases hc
  | true =>
    refine h.erase (h.parted ⟨_, _, rfl, rfl, rfl, rfl⟩) (.shaped (.asking ⟨rfl, rfl⟩ ?_)) rfl rfl
      fun _ _ => Sound.not_owed_of_control fun hc => by cases hc
    exact Wellstacked.mono (w := w) (fun hid => hid) hrest

theorem upheld_taken {w : World (Kind U)} {kind : Kind U} {e : Entity} {b : Bool}
    {next : Option (Value kind) → Script U σ} {stack : List (Frame U σ)}
    (h : Upheld count w (.taking kind e next :: stack) (.reply b)) (script : Script U σ) :
    Upheld count (if b then (w.pull kind e).2 else w) stack (.run script) := by
  obtain ⟨id, hid, hrest⟩ := (h.layered.shape fun _ hc => by cases hc).idOf?_of_taking
  have hsettled : ∀ {w' : World (Kind U)}, Wellstacked w' stack →
      Layered w' stack (.run script) := fun hwell =>
    .shaped (.settled hwell fun _ _ hc => by cases hc)
  cases b with
  | false =>
    exact h.transfer h.wf h.dated (hsettled hrest) rfl (fun hp => hp) rfl
      (fun hx => hx) (fun _ _ => rfl) (fun hx => hx) (fun _ hx => hx)
      fun _ _ => Sound.not_owed_of_control fun hc => by cases hc
  | true =>
    rw [if_pos rfl, World.pull_eq h.wf hid]
    refine h.erase (h.parted ⟨_, _, rfl, rfl, rfl, hid⟩) (hsettled ?_) rfl rfl
      fun _ _ => Sound.not_owed_of_control fun hc => by cases hc
    exact Wellstacked.mono (w := w) (fun hid => hid) hrest

/-- The invariant is kept by every move, as long as no index is used too often. -/
theorem upheld_move (h : Upheld count m.world m.stack m.control) (hm : Move m m')
    (hlt : ∀ i, m.recount count i < UInt32.size) :
    Upheld (m.recount count) m'.world m'.stack m'.control := by
  have hlayered := layered_move h.wf h.layered hm
  cases hm with
  | quiet old new rest before after plain request world control =>
    exact upheld_quiet h before after plain request world control
  | created e table next call allocate world stack control =>
    have htable := h.wf.table
    rw [recount_of_create call] at hlt ⊢
    rw [world, stack, control] at hlayered ⊢
    refine h.transfer { h.wf with table := Entity.Table.wf_allocate htable allocate }
      (Entity.Table.dated_allocate htable h.dated allocate hlt) hlayered rfl (fun hp => hp) rfl
      (fun {x} hx => ?_) (fun _ _ => rfl) (Entity.Table.issued_allocate htable allocate)
      (fun {x} hissued hx => ?_) fun _ _ => Sound.not_owed_of_control fun hc => by cases hc
    · rw [World.isDestroying, Entity.Table.isDestroying_allocate htable allocate]
      exact hx
    · refine Bool.eq_false_iff.mpr fun hv => ?_
      -- a handle that was issued before is not issued again, and stays dead
      rcases (Entity.Table.isAlive_allocate htable allocate x).mp hv with rfl | halive
      · exact Entity.Table.not_issued_of_allocate htable h.dated allocate hlt hissued
      · rw [World.isValid, halive] at hx
        cases hx
  | placed kind id e v make next frame call accepts world plain stack control =>
    rw [recount_of_none (by rw [reissued?, call])]
    exact upheld_placed h accepts world plain stack control hlayered
  | asked kind id e next call number world stack control =>
    rw [recount_of_none (by rw [reissued?, call])]
    rw [world, stack, control] at hlayered ⊢
    exact h.transfer h.wf h.dated hlayered rfl (fun hp => hp) rfl (fun hx => hx)
      (fun _ _ => rfl) (fun hx => hx) (fun _ hx => hx)
      fun _ _ => Sound.not_owed_of_control fun hc => by cases hc
  | begun e call alive torn =>
    rw [recount_of_none (by rw [reissued?, call])]
    exact upheld_tornDown (upheld_begun h call alive) torn
  | refused id e call reason world stack control =>
    rw [recount_of_none (by rw [reissued?, call])]
    rw [world, stack, control] at hlayered ⊢
    exact h.transfer h.wf h.dated hlayered rfl (fun hp => hp) rfl (fun hx => hx)
      (fun _ _ => rfl) (fun hx => hx) (fun _ hx => hx)
      fun _ _ => Sound.not_owed_of_control fun hc => by cases hc
  | announced id e call fresh row world stack control =>
    rw [recount_of_none (by rw [reissued?, call])]
    rw [world, stack, control] at hlayered ⊢
    exact upheld_announced h fresh row hlayered
  | finished id e b call before world control =>
    rw [call, before] at h
    rw [world, control, recount_of_none (by rw [reissued?, call])]
    exact upheld_finished h
  | teardown id e b rest call before torn =>
    rw [call, before] at h
    rw [recount_of_none (by rw [reissued?, call])]
    exact upheld_tornDown (upheld_teardown h) torn
  | taken kind e b next script call before world control =>
    rw [call, before] at h
    rw [world, control, recount_of_none (by rw [reissued?, call])]
    exact upheld_taken h script

/-- A frame that is left announces and destroys nothing any more. -/
theorem upheld_left {w w' : World (Kind U)} {frame : Frame U σ} {stack : List (Frame U σ)}
    {control control' : Control U σ} (h : Upheld count w (frame :: stack) control)
    (world : World.Undisturbed (fun _ => False) w w') (layered : Layered w' stack control')
    (hcontrol : control' ≠ .reply true) : Upheld count w' stack control' := by
  have hannounced : (announced stack).Sublist (announced (frame :: stack)) :=
    (List.sublist_cons_self frame stack).filterMap _
  have hdestroyed : (destroyed stack).Sublist (destroyed (frame :: stack)) :=
    (List.sublist_cons_self frame stack).filterMap _
  exact
    { wf := world.wf
      dated := by rw [world.entities]; exact h.dated
      layered
      removing := fun hx => by rw [world.removing]; exact h.removing (hannounced.subset hx)
      nodup_announced := h.nodup_announced.sublist hannounced
      destroying := fun hx => by
        rw [world.isDestroying]
        exact h.destroying (hdestroyed.subset hx)
      nodup_destroyed := h.nodup_destroyed.sublist hdestroyed
      issued := fun hx => by
        rw [world.holds] at hx
        rw [world.entities]
        exact h.issued hx
      gone := fun hx => by
        rw [world.holds, world.isValid, world.entities]
        exact h.gone (hannounced.subset hx)
      parted := fun ho => absurd ho (Sound.not_owed_of_control hcontrol) }

/-- The invariant is kept where calls are abandoned. -/
theorem upheld_fall (h : Upheld count m.world m.stack m.control) (hf : Fall m m') :
    Upheld (m.recount count) m'.world m'.stack m'.control := by
  have hlayered := layered_fall h.layered hf
  cases hf with
  | raised cause request world stack control =>
    rw [recount_of_none (reissued?_of_isRequest request)]
    rw [stack, control] at hlayered ⊢
    exact h.transfer world.wf (by rw [world.entities]; exact h.dated) hlayered rfl
      (fun hp => by rw [world.removing]; exact hp) rfl
      (fun hx => by rw [world.isDestroying]; exact hx) world.holds
      (fun hx => by rw [world.entities]; exact hx) (fun _ hx => by rw [world.isValid]; exact hx)
      fun _ _ => Sound.not_owed_of_control fun hc => by cases hc
  | exhausted cause next call released world stack control =>
    rw [recount_of_none (by rw [reissued?, call, released]; rfl)]
    rw [world, stack, control] at hlayered ⊢
    exact h.transfer h.wf h.dated hlayered rfl (fun hp => hp) rfl (fun hx => hx)
      (fun _ _ => rfl) (fun hx => hx) (fun _ hx => hx)
      fun _ _ => Sound.not_owed_of_control fun hc => by cases hc
  | left cause frame call before world control =>
    rw [recount_of_none (by rw [reissued?, call])]
    rw [call, before] at h
    refine upheld_left h world hlayered fun hc => ?_
    rcases control with hu | ⟨-, script, hr⟩
    · rw [hc] at hu
      cases hu
    · rw [hc] at hr
      cases hr

theorem upheld_start (host : σ) (script : Script U σ) :
    Upheld (fun _ => 0) (start host script).world (start host script).stack
      (start host script).control :=
  { wf := World.wf_empty
    dated := Entity.Table.dated_empty
    layered := .shaped (.settled .nil fun _ _ hc => by cases hc)
    removing := fun hx => absurd hx List.not_mem_nil
    nodup_announced := List.nodup_nil
    destroying := fun hx => absurd hx List.not_mem_nil
    nodup_destroyed := List.nodup_nil
    issued := fun hx => by simp [start, World.holds, World.empty] at hx
    gone := fun hx => absurd hx List.not_mem_nil
    parted := fun ho => absurd ho (Sound.not_owed_of_control fun hc => by cases hc) }

/-- The invariant holds throughout every tame run in which no index is used again `2 ^ 32`
times. -/
theorem upheld_run (host : σ) (script : Script U σ) {n : Nat} (h : (start host script).Tame n)
    (hlt : ∀ i, (start host script).reissues n i < UInt32.size) :
    Upheld ((start host script).reissues n) ((start host script).run n).world
      ((start host script).run n).stack ((start host script).run n).control := by
  induction n with
  | zero => exact upheld_start host script
  | succ n ih =>
    have hcount := reissues_eq_recount (start host script) n
    have hlt' : ∀ i, (start host script).reissues n i < UInt32.size := fun i =>
      Nat.lt_of_le_of_lt (by rw [reissues_succ]; exact Nat.le_add_right _ _) (hlt i)
    have hup := ih (h.mono (Nat.le_succ n)) hlt'
    rw [hcount] at hlt ⊢
    cases hstep : ((start host script).run n).step with
    | none =>
      -- at the end of a run nothing is issued
      have hnone : ((start host script).run n).reissued? = none := by
        rcases ((step_eq_none_iff _).mp hstep).2 with ⟨b, hc⟩ | ⟨cause, hc⟩
        · rw [reissued?, hc]
        · rw [reissued?, hc]
      rw [run_succ, hstep, recount_of_none hnone]
      exact hup
    | some m' =>
      rw [run_succ_of_run_step hstep]
      rcases move_or_fall_of_step hup.wf (h n (Nat.lt_succ_self n)) hstep with hmove | hfall
      · exact upheld_move hup hmove hlt
      · exact upheld_fall hup hfall

theorem upheld_of_le (host : σ) (script : Script U σ) {n : Nat} (h : (start host script).Tame n)
    (hlt : ∀ i, (start host script).reissues n i < UInt32.size) {k : Nat} (hk : k ≤ n) :
    Upheld ((start host script).reissues k) ((start host script).run k).world
      ((start host script).run k).stack ((start host script).run k).control :=
  upheld_run host script (h.mono hk) fun i =>
    Nat.lt_of_le_of_lt (reissues_mono _ hk i) (hlt i)

/-- Every step of a tame run is a move or a fall, as long as there is something to do. -/
theorem move_or_fall_of_lt (host : σ) (script : Script U σ) {n : Nat}
    (h : (start host script).Tame n)
    (hlt : ∀ i, (start host script).reissues n i < UInt32.size) {k : Nat} (hk : k < n) :
    (start host script).run (k + 1) = (start host script).run k ∨
      Move ((start host script).run k) ((start host script).run (k + 1)) ∨
        Fall ((start host script).run k) ((start host script).run (k + 1)) := by
  have hup := upheld_of_le host script h hlt (Nat.le_of_lt hk)
  rw [run_succ]
  cases hstep : ((start host script).run k).step with
  | none => exact .inl rfl
  | some m' => exact .inr (move_or_fall_of_step hup.wf (h k hk) hstep)

/-! ## Handles grow old -/

omit [DecidableEq U] in
theorem aged_tornDown {w : World (Kind U)} {e x : Entity} {id : ComponentId}
    {rest : List (Frame U σ)} (torn : TornDown w e id rest m')
    (hx : w.entities.Issued count x) :
    Entity.Table.Aged count w.entities m'.world.entities x := by
  cases torn with
  | next pool world stack control =>
    rw [world]
    exact .refl hx
  | last pool world stack control =>
    rw [world]
    exact Entity.Table.aged_release hx e

/-- A handle that was issued never comes back to life. -/
theorem aged_of_move (hwf : m.world.Wf) (hdated : m.world.entities.Dated count) (hm : Move m m')
    (hlt : ∀ i, m.recount count i < UInt32.size) {x : Entity}
    (hx : m.world.entities.Issued count x) :
    Entity.Table.Aged (m.recount count) m.world.entities m'.world.entities x := by
  cases hm with
  | quiet old new rest before after plain request world control =>
    rw [recount_of_quiet request, world.entities]
    exact .refl hx
  | created e table next call allocate world stack control =>
    rw [recount_of_create call] at hlt ⊢
    rw [world]
    exact Entity.Table.aged_allocate hwf.table hdated allocate hlt hx
  | placed kind id e v make next frame call accepts world plain stack control =>
    rw [recount_of_none (by rw [reissued?, call]), world.entities]
    exact .refl hx
  | begun e call alive torn =>
    have hbegun := Entity.Table.aged_beginDestroy hx e
    rw [recount_of_none (by rw [reissued?, call])]
    exact hbegun.trans (aged_tornDown torn hbegun.issued)
  | teardown id e b rest call before torn =>
    rw [recount_of_none (by rw [reissued?, call])]
    cases b with
    | false => exact aged_tornDown torn hx
    | true => exact aged_tornDown (w := m.world.erase id e) torn hx
  | taken kind e b next script call before world control =>
    rw [recount_of_none (by rw [reissued?, call]), world]
    cases b with
    | false => exact .refl hx
    | true =>
      rw [if_pos rfl, World.pull]
      split
      · exact .refl hx
      · rw [World.entities_updateStorage]
        exact .refl hx
  | asked kind id e next call number world stack control =>
    rw [recount_of_none (by rw [reissued?, call]), world]
    exact .refl hx
  | refused id e call reason world stack control =>
    rw [recount_of_none (by rw [reissued?, call]), world]
    exact .refl hx
  | announced id e call fresh row world stack control =>
    rw [recount_of_none (by rw [reissued?, call]), world]
    exact .refl hx
  | finished id e b call before world control =>
    rw [recount_of_none (by rw [reissued?, call]), world]
    exact .refl hx

theorem aged_of_fall (hf : Fall m m') {x : Entity} (hx : m.world.entities.Issued count x) :
    Entity.Table.Aged (m.recount count) m.world.entities m'.world.entities x := by
  cases hf with
  | raised cause request world stack control =>
    rw [recount_of_none (reissued?_of_isRequest request), world.entities]
    exact .refl hx
  | exhausted cause next call released world stack control =>
    rw [recount_of_none (by rw [reissued?, call, released]; rfl), world]
    exact .refl hx
  | left cause frame call before world control =>
    rw [recount_of_none (by rw [reissued?, call]), world.entities]
    exact .refl hx

/-- Throughout a tame run a handle that was issued never comes back to life. -/
theorem aged_of_le (host : σ) (script : Script U σ) {n : Nat} (h : (start host script).Tame n)
    (hlt : ∀ i, (start host script).reissues n i < UInt32.size) {k j : Nat} (hkj : k ≤ j)
    (hj : j ≤ n) {x : Entity} (hx : ((start host script).run k).world.entities.Issued
      ((start host script).reissues k) x) :
    Entity.Table.Aged ((start host script).reissues j)
      ((start host script).run k).world.entities ((start host script).run j).world.entities x := by
  induction hkj with
  | refl => exact .refl hx
  | @step j hkj ih =>
    have hage := ih (Nat.le_of_succ_le hj)
    have hup := upheld_of_le host script h hlt (Nat.le_of_succ_le hj)
    have hcount := reissues_eq_recount (start host script) j
    have hlt' : ∀ i, ((start host script).run j).recount ((start host script).reissues j) i <
        UInt32.size := fun i => by
      rw [← hcount]
      exact Nat.lt_of_le_of_lt (reissues_mono _ hj i) (hlt i)
    refine hage.trans ?_
    rcases move_or_fall_of_lt host script h hlt hj with heq | hmove | hfall
    · rw [heq]
      refine .refl (hage.issued.mono (Nat.le_refl _) (reissues_mono _ (Nat.le_succ j) _))
    · rw [hcount]
      exact aged_of_move hup.wf hup.dated hmove hlt' hage.issued
    · rw [hcount]
      exact aged_of_fall hfall hage.issued

end Machine

end EntityScene
