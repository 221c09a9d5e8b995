import EntityScene.Proofs.Readers

/-!
# Entities that are destroyed in silence

If only readers hear of it, an entity is destroyed pool by pool: each of its components is
announced once and then erased, and nothing else changes.

- `World.Shed`: some rows are gone, each announced once, and the others are as they were.
- `World.Emptied`, `runs_tearing`: pools lose the components of an entity, one after the
  other.
- `World.Purged`, `serves_destroy`: an entity is destroyed, and nothing else happens.
-/

namespace EntityScene

namespace World

section Shed

variable {K : Type} [ComponentFamily K] [DecidableEq K] {w w' w'' : World K}
variable {kept kept' : K → Prop} {gone gone' : ComponentId → Entity → Prop}
variable {tr tr' : List Dispatch} {j : ComponentId} {e : Entity}

/-- Some rows are gone, and each of them was announced once. The other rows are still
there, with the same values if their kind is kept. -/
structure Shed (kept : K → Prop) (gone : ComponentId → Entity → Prop) (w : World K)
    (tr : List Dispatch) (w' : World K) : Prop where
  wf : w'.Wf
  tuned : Tuned w w'
  holds : ∀ k x, w'.holds k x = true ↔ w.holds k x = true ∧ ¬ gone k x
  stored? : ∀ {kind x}, kept kind → (∀ k, w.idOf? kind = some k → ¬ gone k x) →
    w'.stored? kind x = w.stored? kind x
  once : ∀ {k x}, w.holds k x = true → gone k x → tr.count ⟨k, .destroy, x⟩ = 1
  silent : ∀ {k x}, (w.holds k x = true → ¬ gone k x) → tr.count ⟨k, .destroy, x⟩ = 0

/-- Edits that move no row, while no removal is announced. -/
theorem shed_of_undisturbed (h : Undisturbed kept w w') (htuned : Tuned w w')
    (htr : ∀ k x, tr.count ⟨k, .destroy, x⟩ = 0) : Shed kept (fun _ _ => False) w tr w' :=
  { wf := h.wf
    tuned := htuned
    holds := fun k x => by rw [h.holds, not_false_iff, and_true]
    stored? := fun hk _ => h.stored? hk _
    once := fun _ hgone => hgone.elim
    silent := fun _ => htr _ _ }

/-- A row that is announced and erased. -/
theorem shed_erase (h : w.Wf) (hrow : w.holds j e = true) :
    Shed kept (fun k x => k = j ∧ x = e) w [⟨j, .destroy, e⟩] (w.erase j e) := by
  refine
    { wf := wf_erase h j e
      tuned := tuned_erase w j e
      holds := fun k x => ?_
      stored? := fun {kind x} _ hno => ?_
      once := ?_
      silent := fun {k x} hno => ?_ }
  · rw [holds_erase h]
    split
    · rename_i hc
      simp [hc]
    · rename_i hc
      simp [hc]
  · rw [stored?_erase h, if_neg]
    rintro ⟨hid, hx⟩
    exact hno j hid ⟨rfl, hx⟩
  · rintro k x - ⟨rfl, rfl⟩
    exact List.count_singleton_self
  · rw [List.count_eq_zero, List.mem_singleton, Dispatch.mk.injEq]
    rintro ⟨rfl, -, rfl⟩
    exact hno hrow ⟨rfl, rfl⟩

namespace Shed

theorem refl (h : w.Wf) : Shed kept (fun _ _ => False) w [] w :=
  shed_of_undisturbed (.refl h) (.refl w) fun _ _ => rfl

/-- Some rows and then others. -/
theorem trans (h : Shed kept gone w tr w') (h' : Shed kept gone' w' tr' w'') :
    Shed kept (fun k x => gone k x ∨ gone' k x) w (tr ++ tr') w'' := by
  refine
    { wf := h'.wf
      tuned := h.tuned.trans h'.tuned
      holds := fun k x => ?_
      stored? := fun {kind x} hk hno => ?_
      once := fun {k x} hrow hgone => ?_
      silent := fun {k x} hno => ?_ }
  · rw [h'.holds, h.holds, not_or, and_assoc]
  · rw [h'.stored? hk fun k hid hg => ?_, h.stored? hk fun k hid hg => hno k hid (.inl hg)]
    rw [h.tuned.idOf?] at hid
    exact hno k hid (.inr hg)
  · rw [List.count_append]
    by_cases hfirst : gone k x
    · have hrest := h'.silent fun hrow' => absurd hfirst ((h.holds k x).mp hrow').2
      rw [h.once hrow hfirst, hrest]
    · have hrow' := (h.holds k x).mpr ⟨hrow, hfirst⟩
      rw [h.silent fun _ => hfirst, h'.once hrow' (hgone.resolve_left hfirst)]
  · rw [List.count_append, h.silent fun hrow hg => hno hrow (.inl hg)]
    have hrest := h'.silent fun hrow' hg => hno ((h.holds k x).mp hrow').1 (.inr hg)
    rw [hrest]

/-- Fewer kinds may be said to be kept. -/
theorem mono (hsub : ∀ kind, kept' kind → kept kind) (h : Shed kept gone w tr w') :
    Shed kept' gone w tr w' :=
  { h with stored? := fun hk => h.stored? (hsub _ hk) }

/-- What is gone may be described otherwise, also with rows that never were. -/
theorem widen (h : Shed kept gone w tr w') (hsub : ∀ {k x}, gone k x → gone' k x)
    (hrow : ∀ {k x}, w.holds k x = true → gone' k x → gone k x) : Shed kept gone' w tr w' := by
  refine
    { wf := h.wf
      tuned := h.tuned
      holds := fun k x => ?_
      stored? := fun hk hno => h.stored? hk fun k hid hg => hno k hid (hsub hg)
      once := fun hr hg => h.once hr (hrow hr hg)
      silent := fun hno => h.silent fun hr hg => hno hr (hsub hg) }
  rw [h.holds]
  constructor
  · rintro ⟨hr, hno⟩
    exact ⟨hr, fun hg => hno (hrow hr hg)⟩
  · rintro ⟨hr, hno⟩
    exact ⟨hr, fun hg => hno (hsub hg)⟩

/-- Where nothing is stored nothing is stored afterwards. -/
theorem stored?_eq_none (hwf : w.Wf) (h : Shed kept gone w tr w') {kind : K} {x : Entity}
    (hnone : w.stored? kind x = none) : w'.stored? kind x = none := by
  cases hid : w.idOf? kind with
  | none => exact stored?_of_idOf?_eq_none ((h.tuned.idOf? kind).trans hid) x
  | some id =>
    by_contra hsome
    rw [← Ne, Option.ne_none_iff_isSome, ← h.wf.holds_eq_isSome ((h.tuned.idOf? kind).trans hid),
      h.holds, hwf.holds_eq_isSome hid, hnone] at hsome
    cases hsome.1

/-- It does not matter when during a run a row was announced. -/
theorem perm (h : Shed kept gone w tr w') (hperm : tr.Perm tr') : Shed kept gone w tr' w' :=
  { h with
    once := fun hr hg => (hperm.count_eq _).symm.trans (h.once hr hg)
    silent := fun hno => (hperm.count_eq _).symm.trans (h.silent hno) }

end Shed

end Shed

section Emptied

variable {K : Type} [ComponentFamily K] [DecidableEq K] {w w' w'' : World K}
variable {i j k : ComponentId} {e : Entity} {tr tr' : List Dispatch}

/-- The component of an entity in one of the pools from `i` to `j`, unless its removal is
being announced. -/
def Departs (w : World K) (i j : ComponentId) (e : Entity) (k : ComponentId) (x : Entity) : Prop :=
  x = e ∧ i ≤ k ∧ k < j ∧ (k, e) ∉ w.removing

/-- The pools from `i` to `j` have lost their components of an entity. -/
structure Emptied (i j : ComponentId) (w : World K) (e : Entity) (tr : List Dispatch)
    (w' : World K) : Prop where
  shed : Shed (fun _ => True) (w.Departs i j e) w tr w'
  entities : w'.entities = w.entities
  removing : w'.removing = w.removing

namespace Emptied

theorem refl (h : w.Wf) (i : ComponentId) (e : Entity) : Emptied i i w e [] w := by
  refine
    { shed := (Shed.refl h).widen False.elim ?_
      entities := rfl
      removing := rfl }
  rintro k x - ⟨-, hle, hlt, -⟩
  exact absurd (Nat.lt_of_le_of_lt hle hlt) (Nat.lt_irrefl i)

/-- Some pools and then the next ones. -/
theorem trans (hij : i ≤ j) (hjk : j ≤ k) (h : Emptied i j w e tr w')
    (h' : Emptied j k w' e tr' w'') : Emptied i k w e (tr ++ tr') w'' := by
  refine
    { shed := (h.shed.trans h'.shed).widen ?_ ?_
      entities := h'.entities.trans h.entities
      removing := h'.removing.trans h.removing }
  · rintro n x (⟨hx, hi, hj, hr⟩ | ⟨hx, hj, hk, hr⟩)
    · exact ⟨hx, hi, Nat.lt_of_lt_of_le hj hjk, hr⟩
    · exact ⟨hx, Nat.le_trans hij hj, hk, h.removing ▸ hr⟩
  · rintro n x - ⟨hx, hi, hk, hr⟩
    by_cases hn : n < j
    · exact .inl ⟨hx, hi, hn, hr⟩
    · exact .inr ⟨hx, Nat.le_of_not_lt hn, hk, h.removing.symm ▸ hr⟩

end Emptied

/-- A pool that has nothing to lose, or is about to. -/
theorem emptied_refused (h : w.Wf) (hrow : (j, e) ∈ w.removing ∨ w.holds j e = false) :
    Emptied j (j + 1) w e [] w := by
  refine
    { shed := (Shed.refl h).widen False.elim ?_
      entities := rfl
      removing := rfl }
  rintro k x hx ⟨rfl, hle, hlt, hr⟩
  obtain rfl : k = j := Nat.le_antisymm (Nat.le_of_lt_succ hlt) hle
  rcases hrow with hmem | hno
  · exact hr hmem
  · rw [hno] at hx
    cases hx

/-- A pool loses its component of an entity. -/
theorem emptied_erase (hrow : w.holds j e = true) (hfresh : (j, e) ∉ w.removing)
    (hworld : Undisturbed (fun _ => True) w w') (htuned : Tuned w w') :
    Emptied j (j + 1) w e [⟨j, .destroy, e⟩] (w'.erase j e) := by
  have hrow' : w'.holds j e = true := by rw [hworld.holds, hrow]
  have hquiet : Shed (fun _ => True) (fun _ _ => False) w [] w' :=
    shed_of_undisturbed hworld htuned fun _ _ => rfl
  refine
    { shed := (hquiet.trans (shed_erase hworld.wf hrow')).widen ?_ ?_
      entities := hworld.entities
      removing := hworld.removing }
  · rintro k x (hno | ⟨rfl, rfl⟩)
    · exact hno.elim
    · exact ⟨rfl, Nat.le_refl _, Nat.lt_succ_self _, hfresh⟩
  · rintro k x - ⟨hx, hle, hlt, -⟩
    exact .inr ⟨Nat.le_antisymm (Nat.le_of_lt_succ hlt) hle, hx⟩

end Emptied

section Purged

variable {K : Type} [ComponentFamily K] {w w' : World K} {e : Entity} {tr : List Dispatch}

/-- The world in which an entity starts to be destroyed. -/
def beginDestroy (w : World K) (e : Entity) : World K :=
  { w with entities := (w.entities.beginDestroy e).2 }

/-- The world in which an entity is given up. -/
def release (w : World K) (e : Entity) : World K :=
  { w with entities := (w.entities.release e).2 }

theorem wf_beginDestroy (h : w.Wf) (e : Entity) : (w.beginDestroy e).Wf :=
  { h with table := Entity.Table.wf_beginDestroy h.table e }

theorem wf_release (h : w.Wf) (e : Entity) : (w.release e).Wf :=
  { h with table := Entity.Table.wf_release h.table e }

theorem tuned_beginDestroy (w : World K) (e : Entity) : Tuned w (w.beginDestroy e) :=
  tuned_with w _ _

theorem tuned_release (w : World K) (e : Entity) : Tuned w (w.release e) :=
  tuned_with w _ _

theorem isValid_beginDestroy (w : World K) (e x : Entity) :
    (w.beginDestroy e).isValid x = w.isValid x :=
  Entity.Table.isAlive_beginDestroy e x

/-- An entity that may be given components may be destroyed. -/
theorem state?_of_accepts (h : w.accepts e = true) : w.entities.state? e = some .alive := by
  obtain ⟨hvalid, hdestroying⟩ := (accepts_iff w e).mp h
  exact Entity.Table.state?_of_isAlive hvalid hdestroying

theorem isDestroying_beginDestroy (h : w.accepts e = true) (x : Entity) :
    (w.beginDestroy e).isDestroying x = true ↔ x = e ∨ w.isDestroying x = true :=
  Entity.Table.isDestroying_beginDestroy (state?_of_accepts h) x

theorem isValid_release (h : w.isValid e = true) (x : Entity) :
    (w.release e).isValid x = true ↔ w.isValid x = true ∧ x ≠ e :=
  Entity.Table.isAlive_release h x

theorem isDestroying_release (h : w.isValid e = true) (x : Entity) :
    (w.release e).isDestroying x = true ↔ w.isDestroying x = true ∧ x ≠ e :=
  Entity.Table.isDestroying_release h x

/-- The handles of a destroyed entity, which starts to be destroyed and is given up when
the handles are the same again. -/
theorem isValid_released (h : w.isValid e = true)
    (hentities : w'.entities = (w.beginDestroy e).entities) (x : Entity) :
    (w'.release e).isValid x = true ↔ w.isValid x = true ∧ x ≠ e := by
  have hsame : ∀ x, w'.isValid x = w.isValid x := fun x => by
    rw [isValid, hentities]
    exact isValid_beginDestroy w e x
  rw [isValid_release (by rw [hsame, h]), hsame]

theorem isDestroying_released (h : w.accepts e = true)
    (hentities : w'.entities = (w.beginDestroy e).entities) (x : Entity) :
    (w'.release e).isDestroying x = true ↔ w.isDestroying x = true ∧ x ≠ e := by
  have hsame := isDestroying_congr hentities x
  have hvalid : w'.isValid e = true := by
    rw [isValid, hentities]
    exact (isValid_beginDestroy w e e).trans ((accepts_iff w e).mp h).1
  rw [isDestroying_release hvalid, hsame, isDestroying_beginDestroy h]
  constructor
  · rintro ⟨rfl | hx, hne⟩
    · exact absurd rfl hne
    · exact ⟨hx, hne⟩
  · rintro ⟨hx, hne⟩
    exact ⟨.inr hx, hne⟩

variable [DecidableEq K]

/-- An entity is gone, and with it its components. Those whose removal is being announced
elsewhere are left where they are. -/
structure Purged (w : World K) (e : Entity) (tr : List Dispatch) (w' : World K) : Prop where
  shed : Shed (fun _ => True) (fun k x => x = e ∧ (k, e) ∉ w.removing) w tr w'
  valid : ∀ x, w'.isValid x = true ↔ w.isValid x = true ∧ x ≠ e
  destroying : ∀ x, w'.isDestroying x = true ↔ w.isDestroying x = true ∧ x ≠ e
  removing : w'.removing = w.removing

/-- An entity whose pools were emptied can be given up. -/
theorem purged_of_emptied (h : w.accepts e = true)
    (hempty : Emptied 0 w.pools.size (w.beginDestroy e) e tr w') :
    Purged w e tr (w'.release e) := by
  have hshed : Shed (fun _ => True) (fun k x => x = e ∧ (k, e) ∉ w.removing) (w.beginDestroy e) tr
      w' := by
    refine hempty.shed.widen ?_ ?_
    · rintro k x ⟨hx, -, -, hr⟩
      exact ⟨hx, hr⟩
    · rintro k x hrow ⟨hx, hr⟩
      exact ⟨hx, Nat.zero_le k, lt_size_of_holds hrow, hr⟩
  exact
    { shed :=
        { wf := wf_release hshed.wf e
          tuned := ((tuned_beginDestroy w e).trans hshed.tuned).trans (tuned_release w' e)
          holds := hshed.holds
          stored? := hshed.stored?
          once := hshed.once
          silent := hshed.silent }
      valid := isValid_released ((accepts_iff w e).mp h).1 hempty.entities
      destroying := isDestroying_released h hempty.entities
      removing := hempty.removing }

/-- An entity that had no component of a kind takes none along. -/
theorem Purged.stored?_of_none (hwf : w.Wf) (h : Purged w e tr w') {kind : K}
    (hnone : w.stored? kind e = none) (x : Entity) : w'.stored? kind x = w.stored? kind x := by
  by_cases hx : x = e
  · rw [hx, hnone, h.shed.stored?_eq_none hwf hnone]
  · exact h.shed.stored? trivial fun _ _ hc => hx hc.1

/-- Nobody's component of a kind changes when an entity without one is destroyed. -/
theorem Purged.get?_of_none (hwf : w.Wf) (h : Purged w e tr w') (hvalid : w.isValid e = true)
    {kind : K} (hnone : w.get? kind e = none) (x : Entity) : w'.get? kind x = w.get? kind x := by
  have hstored := h.stored?_of_none hwf ((get?_of_isValid hvalid).symm.trans hnone)
  by_cases hx : x = e
  · rw [hx, hnone, get?_eq_stored?, hstored, ← get?_of_isValid hvalid, hnone, ite_self]
  · have hsame : w'.isValid x = w.isValid x := by
      rw [Bool.eq_iff_iff, h.valid]
      exact and_iff_left hx
    rw [get?_eq_stored?, get?_eq_stored?, hstored, hsame]

end Purged

end World

namespace Machine

variable {U σ : Type} [SceneFamily U] [DecidableEq U] {m m' : Machine U σ}

/-- The machine that goes on destroying an entity with a pool. -/
def tearing (m : Machine U σ) (stack : List (Frame U σ)) (e : Entity) (id : ComponentId) :
    Machine U σ :=
  (m.on stack (.reply true)).tearDown e id

omit [DecidableEq U] in
theorem tearing_of_lt {id : ComponentId} (h : id < m.world.pools.size) (stack : List (Frame U σ))
    (e : Entity) : m.tearing stack e id = m.on (.teardown e id :: stack) (.announce id e) := by
  rw [tearing, tearDown, on_world, if_pos h]
  rfl

/-- After an answer the next pool has its turn. -/
theorem step_tearing (hwf : m.world.Wf) (stack : List (Frame U σ)) (e : Entity)
    (id : ComponentId) (b : Bool) :
    (m.on (.teardown e id :: stack) (.reply b)).step =
      some (tearing { m with world := if b then m.world.erase id e else m.world } stack e
        (id + 1)) := by
  rw [step_of_reply rfl rfl]
  exact congrArg some (resume_teardown (m := m.on stack (.reply b)) hwf e id b)

/-- One pool is asked for the component, and if it has one only readers hear. -/
theorem runs_tearing_succ (hwf : m.world.Wf) {j : ComponentId} {e : Entity}
    (hj : j < m.world.pools.size) (hhush : m.world.holds j e = true → m.HushedFor j .destroy e) :
    ∃ world host tr, World.Emptied j (j + 1) m.world e tr world ∧
      ∀ stack, (m.tearing stack e j).Runs tr (tearing { m with world, host } stack e (j + 1)) := by
  by_cases hrow : (j, e) ∈ m.world.removing ∨ m.world.holds j e = false
  · refine ⟨m.world, m.host, [], World.emptied_refused hwf hrow, fun stack => ?_⟩
    rw [tearing_of_lt hj]
    exact (serves_announce_refused hrow (.teardown e j :: stack)).trans (.of_step rfl)
  · obtain ⟨hfresh, hholds⟩ := not_or.mp hrow
    rw [Bool.not_eq_false] at hholds
    obtain ⟨world, host, hworld, htuned, hserve⟩ :=
      serves_announce hwf (hhush hholds) hfresh hholds
    refine ⟨world.erase j e, host, [⟨j, .destroy, e⟩],
      World.emptied_erase hholds hfresh hworld htuned, fun stack => ?_⟩
    rw [tearing_of_lt hj]
    exact (hserve (.teardown e j :: stack)).trans
      (.of_step (step_tearing (m := { m with world, host }) hworld.wf stack e j true))

/-- Some pools are asked for the component, and only readers hear. -/
theorem runs_tearing (hwf : m.world.Wf) {i j : ComponentId} {e : Entity} (hij : i ≤ j)
    (hj : j ≤ m.world.pools.size)
    (hhush : ∀ k, i ≤ k → k < j → m.world.holds k e = true → m.HushedFor k .destroy e) :
    ∃ world host tr, World.Emptied i j m.world e tr world ∧
      ∀ stack, (m.tearing stack e i).Runs tr (tearing { m with world, host } stack e j) := by
  induction j, hij using Nat.le_induction with
  | base => exact ⟨m.world, m.host, [], .refl hwf i e, fun stack => .refl _⟩
  | succ j hij ih =>
    obtain ⟨world, host, tr, hempty, hrun⟩ := ih (Nat.le_of_succ_le hj) fun k hi hk =>
      hhush k hi (Nat.lt_succ_of_lt hk)
    have hj' : j < world.pools.size := by
      rw [hempty.shed.tuned.size_pools]
      exact hj
    have hhush' : world.holds j e = true → HushedFor { m with world, host } j .destroy e :=
      fun hrow => (hhush j hij (Nat.lt_succ_self j) ((hempty.shed.holds j e).mp hrow).1).congr
        hempty.shed.tuned rfl rfl
    obtain ⟨world', host', tr', hempty', hrun'⟩ :=
      runs_tearing_succ (m := { m with world, host }) hempty.shed.wf hj' hhush'
    exact ⟨world', host', tr ++ tr', hempty.trans hij (Nat.le_succ j) hempty', fun stack =>
      (hrun stack).trans (hrun' stack)⟩

omit [DecidableEq U] in
/-- After the last pool the entity is given up. -/
theorem tearing_of_size_le {id : ComponentId} (h : m.world.pools.size ≤ id)
    (stack : List (Frame U σ)) (e : Entity) :
    m.tearing stack e id = on { m with world := m.world.release e } stack (.reply true) := by
  rw [tearing, tearDown, on_world, if_neg (Nat.not_lt.mpr h)]
  rfl

/-- A machine that is asked to destroy an entity starts with its first pool. -/
theorem step_destroy_of_accepts {e : Entity} (h : m.world.accepts e = true)
    (stack : List (Frame U σ)) :
    (m.on stack (.destroy e)).step =
      some (tearing { m with world := m.world.beginDestroy e } stack e 0) := by
  have hfst := Entity.Table.beginDestroy_fst.mpr (World.state?_of_accepts h)
  show some (destroy _ e) = _
  rw [destroy]
  simp only [on_world, hfst, if_true]
  rfl

/-- An entity is destroyed, and only readers hear. -/
theorem serves_destroy (hwf : m.world.Wf) {e : Entity} (haccepts : m.world.accepts e = true)
    (hhush : ∀ id, m.world.holds id e = true → m.HushedFor id .destroy e) :
    ∃ world host tr, World.Purged m.world e tr world ∧
      m.Serves (.destroy e) tr { m with world, host } (.reply true) := by
  have htuned := World.tuned_beginDestroy m.world e
  obtain ⟨world, host, tr, hempty, hrun⟩ :=
    runs_tearing (m := { m with world := m.world.beginDestroy e })
      (World.wf_beginDestroy hwf e) (Nat.zero_le _) (Nat.le_refl _)
      fun k _ _ hrow => (hhush k hrow).congr htuned rfl rfl
  refine ⟨world.release e, host, tr, World.purged_of_emptied haccepts hempty, fun stack => ?_⟩
  have hlast := tearing_of_size_le (m := { m with world, host })
    (Nat.le_of_eq hempty.shed.tuned.size_pools) stack e
  refine .head (step_destroy_of_accepts haccepts stack) ?_ (hlast ▸ hrun stack)
  rfl

/-- Nobody destroys what is gone, or being destroyed. -/
theorem step_destroy_refused {e : Entity} (h : m.world.accepts e = false)
    (stack : List (Frame U σ)) :
    (m.on stack (.destroy e)).step = some (m.on stack (.reply false)) := by
  have hstate : m.world.entities.state? e ≠ some .alive := by
    intro hs
    have hvalid : m.world.isValid e = true := (Entity.Table.isAlive_iff _ _).mpr (.inl hs)
    have hdes : m.world.isDestroying e = false := by
      rw [Bool.eq_false_iff, World.isDestroying, Ne, Entity.Table.isDestroying_iff, hs]
      exact fun hc => by cases hc
    rw [(World.accepts_iff _ _).mpr ⟨hvalid, hdes⟩] at h
    cases h
  show some (destroy _ e) = _
  rw [destroy]
  simp only [on_world, Entity.Table.beginDestroy_of_ne hstate]
  rfl

theorem serves_destroy_refused {e : Entity} (h : m.world.accepts e = false) :
    m.Serves (.destroy e) [] m (.reply false) :=
  fun stack => .of_step (step_destroy_refused h stack)

/-! ## Calls -/

/-- A script that destroys an entity is answered when the entity is. -/
theorem performs_destroy {e : Entity} {tr : List Dispatch} {b : Bool}
    (h : m.Serves (.destroy e) tr m' (.reply b)) : m.Performs (Task.destroy e) tr m' b :=
  fun stack next => .head rfl rfl ((h (.resume next :: stack)).snoc rfl rfl)

/-- A script that takes a component asks for its removal. -/
theorem step_take {kind : Kind U} {id : ComponentId} {e : Entity}
    (hid : m.world.idOf? kind = some id) (hvalid : m.world.isValid e = true)
    (stack : List (Frame U σ)) (next : Option (Value kind) → Script U σ) :
    (m.on stack (.run (.call (.take kind e) next))).step =
      some (m.on (.taking kind e next :: stack) (.announce id e)) := by
  show some (call _ (.take kind e) next) = _
  simp only [call, on_world, hid, hvalid]
  rfl

/-- A component is taken when its removal was announced. -/
theorem performs_take {kind : Kind U} {id : ComponentId} {e : Entity} {tr : List Dispatch}
    {old : Option (Value kind)} (hid : m.world.idOf? kind = some id)
    (hvalid : m.world.isValid e = true) (hserve : m.Serves (.announce id e) tr m' (.reply true))
    (hwf' : m'.world.Wf) (hid' : m'.world.idOf? kind = some id)
    (hold : m'.world.stored? kind e = old) :
    m.Performs (Task.take kind e) tr { m' with world := m'.world.erase id e } old := by
  intro stack next
  refine .head (step_take hid hvalid stack next) rfl ((hserve _).snoc ?_ rfl)
  show some (resume _ (.taking kind e next) true) = _
  simp only [resume, if_true, on_world, World.pull_eq hwf' hid', hold]
  rfl

/-- Nobody takes a component that is not there. -/
theorem performs_take_of_absent {kind : Kind U} {e : Entity}
    (h : m.world.isValid e = true → ∀ id, m.world.idOf? kind = some id →
      m.world.holds id e = false) : m.Performs (Task.take kind e) [] m none := by
  have hasked : ∀ stack next, (m.on stack (.run (Task.take kind e next))).step =
      some (call _ (.take kind e) next) := fun _ _ => rfl
  cases hid : m.world.idOf? kind with
  | none =>
    refine .of_step fun stack next => ?_
    rw [hasked]
    simp only [call, on_world, hid]
    rfl
  | some id =>
    cases hvalid : m.world.isValid e with
    | false =>
      refine .of_step fun stack next => ?_
      rw [hasked]
      simp only [call, on_world, hid, hvalid]
      rfl
    | true =>
      have hrow := h hvalid id hid
      exact fun stack next => .head (step_take hid hvalid stack next) rfl
        ((serves_announce_refused (.inr hrow) _).snoc rfl rfl)

/-- Nobody patches a component that is not there. -/
theorem performs_patch_of_absent {kind : Kind U} {e : Entity} (h : m.world.get? kind e = none)
    (f : Value kind → Value kind) : m.Performs (Task.patch kind e f) [] m false := by
  refine .of_step fun stack next => ?_
  show some (Option.getD (patch? _ kind e f (.resume fun _ => next true)) _) = _
  unfold patch?
  rw [on_world, h]
  cases m.world.idOf? kind <;> rfl

end Machine

end EntityScene
