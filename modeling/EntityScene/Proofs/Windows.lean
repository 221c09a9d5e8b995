import EntityScene.Proofs.Upheld

/-!
# What holds while an entity is being destroyed

A destruction is accepted once and gives the entity up at the end. In between handlers may
do what they like, also abandon calls: the entity stays valid, and gets no component that it
did not have.

- `Machine.accepted?`, `Machine.released?`, `Machine.Window`: from the acceptance of a
  destruction up to the end.
- `window_isDestroying`, `window_has`: what holds throughout a window.
- `summons_of_invoke`: what a handler finds that is called for a destruction.
-/

namespace EntityScene

variable {U σ : Type} [SceneFamily U] [DecidableEq U]

namespace Machine

variable {m m' : Machine U σ} {count : UInt32 → Nat}

/-- The entity that the next step starts to destroy. -/
def accepted? (m : Machine U σ) : Option Entity :=
  match m.control with
  | .destroy e => if m.world.accepts e then some e else none
  | _ => none

/-- The entity that the next step gives up. It does not if the removal of a row is
abandoned. -/
def released? (m : Machine U σ) : Option Entity :=
  match m.control, m.stack with
  | .destroy e, _ => if m.world.accepts e ∧ m.world.pools.size = 0 then some e else none
  | .reply b, .teardown e id :: _ =>
    if id + 1 < m.world.pools.size ∨ b = true ∧ (m.world.erasure id e).isOk = false then none
    else some e
  | _, _ => none

omit [DecidableEq U] in
/-- In a world in order it is given up after the last pool. -/
theorem released?_of_teardown (hwf : m.world.Wf) {e : Entity} {id : ComponentId} {b : Bool}
    {stack : List (Frame U σ)} (hcall : m.control = .reply b)
    (hstack : m.stack = .teardown e id :: stack) :
    m.released? = if id + 1 < m.world.pools.size then none else some e := by
  have hok : (m.world.erasure id e).isOk = true := by rw [World.erasure_eq hwf]; rfl
  simp only [released?, hcall, hstack, hok, Bool.true_eq_false, and_false, or_false]

/-- The destruction of an entity is accepted at the first step, and did not come to its end
up to the second. -/
structure Window (m : Machine U σ) (e : Entity) (i j : Nat) : Prop where
  lt : i < j
  accepted : (m.run i).accepted? = some e
  kept : ∀ k, i ≤ k → k < j → (m.run k).released? ≠ some e

omit [DecidableEq U] in
/-- An entity goes on being destroyed, or is given up. -/
theorem isDestroying_tornDown {w : World (Kind U)} {e x : Entity} {id : ComponentId}
    {rest : List (Frame U σ)} (torn : TornDown w e id rest m') (hvalid : w.isValid e = true)
    (hx : w.isDestroying x = true) (hkept : x = e → id < w.pools.size) :
    m'.world.isDestroying x = true := by
  cases torn with
  | next pool world stack control =>
    rw [world]
    exact hx
  | last pool world stack control =>
    rw [world]
    refine (Entity.Table.isDestroying_release hvalid x).mpr ⟨hx, fun heq => ?_⟩
    exact absurd (hkept heq) (Nat.not_lt.mpr pool)

omit [DecidableEq U] in
/-- A destruction is accepted for an entity that is valid and not being destroyed yet. -/
theorem accepted?_eq_some {e : Entity} (h : m.accepted? = some e) :
    m.control = .destroy e ∧ m.world.accepts e = true := by
  unfold accepted? at h
  split at h
  · rename_i e' hcall
    split at h
    · rename_i ha
      obtain rfl := Option.some.inj h
      exact ⟨hcall, ha⟩
    · cases h
  · cases h

omit [DecidableEq U] in
/-- A call that can be accepted is accepted. -/
theorem accepted?_of_accepts {e : Entity} (hcall : m.control = .destroy e)
    (hvalid : m.world.isValid e = true) (hdestroying : m.world.isDestroying e = false) :
    m.accepted? = some e := by
  have haccepts : m.world.accepts e = true :=
    (World.accepts_iff _ _).mpr ⟨hvalid, hdestroying⟩
  simp only [accepted?, hcall, haccepts, if_true]

/-- The step that accepts a destruction. -/
theorem isDestroying_of_accepted {e : Entity} (haccepted : m.accepted? = some e)
    (hreleased : m.released? ≠ some e) (h : m.step = some m') : m'.world.isDestroying e = true := by
  obtain ⟨hcall, ha⟩ := accepted?_eq_some haccepted
  obtain ⟨hvalid, hdestroying⟩ := (World.accepts_iff m.world e).mp ha
  have halive := Entity.Table.state?_of_isAlive hvalid hdestroying
  simp only [step, hcall, Option.some.injEq] at h
  subst h
  refine isDestroying_tornDown (tornDown_destroy m halive) ?_
    ((Entity.Table.isDestroying_beginDestroy halive e).mpr (.inl rfl)) fun _ => ?_
  · rw [World.isValid, Entity.Table.isAlive_beginDestroy]
    exact hvalid
  · simp only [released?, hcall, ha, true_and] at hreleased
    split at hreleased
    · exact absurd rfl hreleased
    · exact Nat.pos_of_ne_zero (by assumption)

/-- An entity that is being destroyed stays so until it is given up. -/
theorem isDestroying_of_move (hup : Upheld count m.world m.stack m.control) (hm : Move m m')
    {x : Entity} (hx : m.world.isDestroying x = true) (hreleased : m.released? ≠ some x) :
    m'.world.isDestroying x = true := by
  cases hm with
  | quiet old new rest before after plain request world control =>
    rw [world.isDestroying]
    exact hx
  | created e table next call allocate world stack control =>
    rw [world, World.isDestroying, Entity.Table.isDestroying_allocate hup.wf.table allocate]
    exact hx
  | placed kind id e v make next frame call accepts world plain stack control =>
    rw [World.isDestroying, world.entities]
    exact hx
  | asked kind id e next call number world stack control =>
    rw [world]
    exact hx
  | begun e call alive torn =>
    have hvalid := (Entity.Table.isAlive_iff _ e).mpr (.inl alive)
    refine isDestroying_tornDown torn ?_
      ((Entity.Table.isDestroying_beginDestroy alive x).mpr (.inr hx)) fun heq => ?_
    · rw [World.isValid, Entity.Table.isAlive_beginDestroy]
      exact hvalid
    · rw [World.isDestroying, Entity.Table.isDestroying_iff, heq, alive] at hx
      cases hx
  | refused id e call reason world stack control =>
    rw [world]
    exact hx
  | announced id e call fresh row world stack control =>
    rw [world]
    exact hx
  | finished id e b call before world control =>
    rw [world]
    exact hx
  | teardown id e b rest call before torn =>
    have hdes : m.world.isDestroying e = true :=
      hup.destroying (by rw [before]; exact List.mem_cons_self)
    -- the pools are not all behind, or it would be given up now
    have hkept : x = e → id + 1 < m.world.pools.size := by
      rintro rfl
      rw [released?_of_teardown hup.wf call before] at hreleased
      split at hreleased
      · assumption
      · exact absurd rfl hreleased
    cases b with
    | false => exact isDestroying_tornDown torn (World.isValid_of_isDestroying hdes) hx hkept
    | true =>
      refine isDestroying_tornDown torn (World.isValid_of_isDestroying hdes) hx fun heq => ?_
      rw [if_pos rfl, World.erase, World.updatePool, Array.size_modify]
      exact hkept heq
  | taken kind e b next script call before world control =>
    rw [call, before] at hup
    obtain ⟨id, hid, -⟩ := (hup.layered.shape fun _ hc => by cases hc).idOf?_of_taking
    rw [world]
    split
    · rw [World.pull_eq hup.wf hid]
      exact hx
    · exact hx

/-- Nobody is given up where calls are abandoned. -/
theorem isDestroying_of_fall (hf : Fall m m') {x : Entity}
    (hx : m.world.isDestroying x = true) : m'.world.isDestroying x = true := by
  cases hf with
  | raised cause request world stack control =>
    rw [world.isDestroying]
    exact hx
  | exhausted cause next call released world stack control =>
    rw [world]
    exact hx
  | left cause frame call before world control =>
    rw [world.isDestroying]
    exact hx

/-- Throughout the window the entity is being destroyed. -/
theorem window_isDestroying (host : σ) (script : Script U σ) {n : Nat}
    (h : (start host script).Tame n)
    (hlt : ∀ i, (start host script).reissues n i < UInt32.size) {e : Entity} {i j : Nat}
    (hw : (start host script).Window e i j) (hj : j ≤ n) :
    ((start host script).run j).world.isDestroying e = true := by
  obtain ⟨hij, haccepted, hkept⟩ := hw
  induction j with
  | zero => exact absurd hij (Nat.not_lt_zero i)
  | succ j ih =>
    have hreleased := hkept j (Nat.le_of_lt_succ hij) (Nat.lt_succ_self j)
    rcases Nat.lt_succ_iff_lt_or_eq.mp hij with hlt' | rfl
    · have hdes := ih (Nat.le_of_succ_le hj) hlt' fun k hik hkj =>
        hkept k hik (Nat.lt_succ_of_lt hkj)
      rcases move_or_fall_of_lt host script h hlt hj with heq | hmove | hfall
      · rw [heq]
        exact hdes
      · exact isDestroying_of_move (upheld_of_le host script h hlt (Nat.le_of_succ_le hj)) hmove
          hdes hreleased
      · exact isDestroying_of_fall hfall hdes
    · rw [run_succ]
      cases hstep : ((start host script).run i).step with
      | none =>
        -- who accepts a destruction has something to do
        rcases ((step_eq_none_iff _).mp hstep).2 with ⟨b, hc⟩ | ⟨cause, hc⟩
        · rw [accepted?, hc] at haccepted
          cases haccepted
        · rw [accepted?, hc] at haccepted
          cases haccepted
      | some m' => exact isDestroying_of_accepted haccepted hreleased hstep

/-! ## What an entity has while it is being destroyed -/

omit [DecidableEq U] in
theorem holds_of_tornDown {w : World (Kind U)} {e : Entity} {id : ComponentId}
    {rest : List (Frame U σ)} (torn : TornDown w e id rest m') (j : ComponentId) (x : Entity) :
    m'.world.holds j x = w.holds j x := by
  cases torn with
  | next pool world stack control => rw [world]
  | last pool world stack control =>
    rw [world]
    rfl

/-- An entity that is being destroyed, or is about to be, is given no component. -/
theorem holds_of_move (hup : Upheld count m.world m.stack m.control) (hm : Move m m')
    {x : Entity} (hx : m.world.isDestroying x = true ∨ m.control = .destroy x) {id : ComponentId}
    (h : m'.world.holds id x = true) : m.world.holds id x = true := by
  have herase : ∀ {j e}, (m.world.erase j e).holds id x = true → m.world.holds id x = true := by
    intro j e he
    rw [World.holds_erase hup.wf] at he
    split at he
    · cases he
    · exact he
  cases hm with
  | quiet old new rest before after plain request world control =>
    rw [← world.holds]
    exact h
  | created e table next call allocate world stack control =>
    rw [world] at h
    exact h
  | placed kind j e v make next frame call accepts world plain stack control =>
    rcases (world.holds id x).mp h with ⟨-, rfl⟩ | ⟨-, hh⟩
    · rcases hx with hdes | hc
      · rw [((World.accepts_iff m.world x).mp accepts).2] at hdes
        cases hdes
      · rw [call] at hc
        cases hc
    · exact hh
  | asked kind j e next call number world stack control =>
    rw [world] at h
    exact h
  | begun e call alive torn =>
    rw [holds_of_tornDown torn] at h
    exact h
  | refused j e call reason world stack control =>
    rw [world] at h
    exact h
  | announced j e call fresh row world stack control =>
    rw [world] at h
    exact h
  | finished j e b call before world control =>
    rw [world] at h
    exact h
  | teardown j e b rest call before torn =>
    rw [holds_of_tornDown torn] at h
    split at h
    · exact herase h
    · exact h
  | taken kind e b next script call before world control =>
    rw [call, before] at hup
    obtain ⟨j, hj, -⟩ := (hup.layered.shape fun _ hc => by cases hc).idOf?_of_taking
    rw [world] at h
    split at h
    · rw [World.pull_eq hup.wf hj] at h
      exact herase h
    · exact h

theorem holds_of_fall (hf : Fall m m') (id : ComponentId) (x : Entity) :
    m'.world.holds id x = m.world.holds id x := by
  cases hf with
  | raised cause request world stack control => exact world.holds id x
  | exhausted cause next call released world stack control => rw [world]
  | left cause frame call before world control => exact world.holds id x

end Machine

namespace World

variable {w w' : World (Kind U)}

/-- An entity has a component if it is valid and the storage has a row for it. -/
theorem has_iff (h : w.Wf) (kind : Kind U) (e : Entity) :
    w.has kind e = true ↔ w.isValid e = true ∧ ∃ id, w.idOf? kind = some id ∧
      w.holds id e = true := by
  rw [has, get?_eq_stored?]
  by_cases hvalid : w.isValid e = true
  · rw [if_pos hvalid]
    cases hid : w.idOf? kind with
    | none => simp [stored?_of_idOf?_eq_none hid]
    | some id => simp [hvalid, h.holds_eq_isSome hid]
  · simp [hvalid]

/-- A row belongs to a kind in use. -/
theorem Wf.exists_idOf?_of_holds (h : w.Wf) {id : ComponentId} {e : Entity}
    (hh : w.holds id e = true) : ∃ kind, w.idOf? kind = some id :=
  ⟨_, h.idOf?_pool (Array.getElem?_eq_getElem (lt_size_of_holds hh))⟩

/-- Where no row of a valid entity comes, the entity has no new component. -/
theorem has_of_holds (h : w.Wf) (h' : w'.Wf) {e : Entity} (hvalid : w.isValid e = true)
    (hids : ∀ {kind id}, w.idOf? kind = some id → w'.idOf? kind = some id)
    (hrows : ∀ {id}, w'.holds id e = true → w.holds id e = true) {kind : Kind U}
    (hhas : w'.has kind e = true) : w.has kind e = true := by
  obtain ⟨-, id, hid', hh'⟩ := (has_iff h' kind e).mp hhas
  have hh := hrows hh'
  obtain ⟨other, hid⟩ := h.exists_idOf?_of_holds hh
  have hkind := eq_of_idOf? (hids hid) hid'
  exact (has_iff h kind e).mpr ⟨hvalid, id, hkind ▸ hid, hh⟩

end World

namespace Machine

variable {m m' : Machine U σ} {count : UInt32 → Nat}

theorem idOf?_of_tornDown {w : World (Kind U)} {e : Entity} {id j : ComponentId}
    {rest : List (Frame U σ)} {kind : Kind U} (torn : TornDown w e id rest m')
    (hid : w.idOf? kind = some j) : m'.world.idOf? kind = some j := by
  cases torn with
  | next pool world stack control =>
    rw [world]
    exact hid
  | last pool world stack control =>
    rw [world]
    exact hid

/-- Kinds keep their numbers. -/
theorem idOf?_of_move (hup : Upheld count m.world m.stack m.control) (hm : Move m m')
    {kind : Kind U} {id : ComponentId} (hid : m.world.idOf? kind = some id) :
    m'.world.idOf? kind = some id := by
  cases hm with
  | quiet old new rest before after plain request world control => exact world.idOf? hid
  | created e table next call allocate world stack control =>
    rw [world]
    exact hid
  | placed kind' j e v make next frame call accepts world plain stack control =>
    exact world.idOf? hid
  | asked kind' j e next call number world stack control =>
    rw [world]
    exact hid
  | begun e call alive torn => exact idOf?_of_tornDown torn hid
  | refused j e call reason world stack control =>
    rw [world]
    exact hid
  | announced j e call fresh row world stack control =>
    rw [world]
    exact hid
  | finished j e b call before world control =>
    rw [world]
    exact hid
  | teardown j e b rest call before torn =>
    refine idOf?_of_tornDown torn ?_
    split <;> exact hid
  | taken kind' e b next script call before world control =>
    rw [call, before] at hup
    obtain ⟨j, hj, -⟩ := (hup.layered.shape fun _ hc => by cases hc).idOf?_of_taking
    rw [world]
    split
    · rw [World.pull_eq hup.wf hj]
      exact hid
    · exact hid

theorem idOf?_of_fall (hf : Fall m m') {kind : Kind U} {id : ComponentId}
    (hid : m.world.idOf? kind = some id) : m'.world.idOf? kind = some id := by
  cases hf with
  | raised cause request world stack control => exact world.idOf? hid
  | exhausted cause next call released world stack control =>
    rw [world]
    exact hid
  | left cause frame call before world control => exact world.idOf? hid

/-- What an entity has that is being destroyed, it had before the step. -/
theorem has_of_step (hup : Upheld count m.world m.stack m.control) (hwf' : m'.world.Wf)
    (hstep : Move m m' ∨ Fall m m') {x : Entity} (hvalid : m.world.isValid x = true)
    (hx : m.world.isDestroying x = true ∨ m.control = .destroy x) {kind : Kind U}
    (h : m'.world.has kind x = true) : m.world.has kind x = true := by
  rcases hstep with hmove | hfall
  · exact World.has_of_holds hup.wf hwf' hvalid (idOf?_of_move hup hmove)
      (holds_of_move hup hmove hx) h
  · refine World.has_of_holds hup.wf hwf' hvalid (idOf?_of_fall hfall) (fun {id} hh => ?_) h
    rw [holds_of_fall hfall] at hh
    exact hh

/-- From the acceptance on the entity gets no component that it does not have. -/
theorem window_has (host : σ) (script : Script U σ) {n : Nat}
    (h : (start host script).Tame n)
    (hlt : ∀ i, (start host script).reissues n i < UInt32.size) {e : Entity} {i k j : Nat}
    (hw : (start host script).Window e i j) (hik : i ≤ k) (hkj : k ≤ j) (hj : j ≤ n)
    {kind : Kind U} (hhas : ((start host script).run j).world.has kind e = true) :
    ((start host script).run k).world.has kind e = true := by
  induction j with
  | zero => exact absurd hw.lt (Nat.not_lt_zero i)
  | succ j ih =>
    rcases Nat.lt_succ_iff_lt_or_eq.mp (Nat.lt_succ_of_le hkj) with hlt' | rfl
    · have hkj' := Nat.le_of_lt_succ hlt'
      have hjn := Nat.le_of_succ_le hj
      have hbefore : (i < j → (start host script).Window e i j) := fun hij =>
        ⟨hij, hw.accepted, fun l hil hlj => hw.kept l hil (Nat.lt_succ_of_lt hlj)⟩
      -- the first step of the window is the one that accepts the destruction
      have hopen : ((start host script).run j).world.isValid e = true ∧
          (((start host script).run j).world.isDestroying e = true ∨
            ((start host script).run j).control = .destroy e) := by
        rcases Nat.lt_or_eq_of_le (Nat.le_trans hik hkj') with hij | rfl
        · have hdes := window_isDestroying host script h hlt (hbefore hij) hjn
          exact ⟨World.isValid_of_isDestroying hdes, .inl hdes⟩
        · obtain ⟨hcall, haccepts⟩ := accepted?_eq_some hw.accepted
          exact ⟨((World.accepts_iff _ e).mp haccepts).1, .inr hcall⟩
      have hhas' : ((start host script).run j).world.has kind e = true := by
        rcases move_or_fall_of_lt host script h hlt hj with heq | hstep
        · rw [heq] at hhas
          exact hhas
        · exact has_of_step (upheld_of_le host script h hlt hjn)
            (upheld_of_le host script h hlt hj).wf hstep hopen.1 hopen.2 hhas
      rcases Nat.lt_or_eq_of_le (Nat.le_trans hik hkj') with hij | rfl
      · exact ih (hbefore hij) hkj' hjn hhas'
      · rw [Nat.le_antisymm hkj' hik]
        exact hhas'
    · exact hhas

/-! ## What a handler finds -/

/-- A handler that is called for a destruction finds the entity with the component, as long
as the entity is valid; and so it is if it is the entity that is being destroyed. -/
theorem summons_of_invoke (hup : Upheld count m.world m.stack m.control)
    (hatt : Attended m.stack m.control) {key : ConnectionKey} {x y : Entity} {id : ComponentId}
    {keys : List ConnectionKey} {tail : List (Frame U σ)} (hcall : m.control = .invoke key x)
    (hstack : m.stack = .dispatch id .destroy y keys :: tail) :
    y = x ∧ ∃ f below, tail = .removal id x :: f :: below ∧ f.Removes m.world id x ∧
      ((∃ j, f = .teardown x j) → m.world.isDestroying x = true) ∧
      (m.world.isValid x = true → ∃ kind, m.world.idOf? kind = some id ∧
        m.world.has kind x = true) := by
  obtain ⟨id', event, keys', rest, hstack'⟩ := hatt.invoke hcall
  rw [hstack] at hstack'
  obtain ⟨hframe, rfl⟩ := List.cons.inj hstack'
  obtain ⟨rfl, -, rfl, -⟩ := Frame.dispatch.inj hframe
  have htop : .dispatch id .destroy y keys :: tail <:+ m.stack := by rw [hstack]
  obtain ⟨below, rfl⟩ := hatt.announced htop
  have hshape := hup.layered.shape fun _ hc => by rw [hcall] at hc; cases hc
  have hwell := hshape.wellstacked_of_isRequest (by rw [hcall]; rfl)
  rw [hstack] at hwell
  cases hwell.tail rfl with
  | plain hplain _ => cases hplain
  | @removal _ _ f rest hf _ =>
    refine ⟨rfl, f, rest, rfl, hf, ?_, fun hvalid => ?_⟩
    · rintro ⟨j, rfl⟩
      exact hup.destroying (by rw [hstack]; exact List.mem_cons_self)
    · have hannounced : (id, y) ∈ announced m.stack := by
        rw [hstack]
        exact List.mem_cons_self
      obtain ⟨-, hrow⟩ := hup.gone hannounced
      rcases hrow with hh | hd
      · obtain ⟨kind, hid⟩ := hup.wf.exists_idOf?_of_holds hh
        exact ⟨kind, hid, (World.has_iff hup.wf kind y).mpr ⟨hvalid, id, hid, hh⟩⟩
      · rw [hvalid] at hd
        cases hd

end Machine

end EntityScene
