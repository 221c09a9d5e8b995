import EntityScene.Proofs.Pending

/-!
# A destruction with its cascade

Where only a cascade hears of removals, the destruction of an entity with links comes to its
cascade in silence, and from where the cascade has its entity out of the parent's children it
runs to its end in silence too. What happens in between is up to whoever hears of the update of
the parent.

- `Machine.Solitary`: of removals only one cascade hears, and it hears of links only.
- `runs_announcement`: the removal of links is announced to that cascade.
- `World.Parting`, `runs_parting`: the destruction up to its cascade.
- `World.Parted`, `runs_parted`: the cascade, and the rest of the destruction.
-/

namespace EntityScene

namespace World

variable {U : Type} [SceneFamily U] [DecidableEq U] {w w' w₁ w₂ w₃ : World (Kind U)}
variable {e : Entity} {id : ComponentId} {tr tr' : List Dispatch}

/-- An entity is being destroyed, and the removal of its links is announced. No links have
changed. -/
structure Parting (w : World (Kind U)) (id : ComponentId) (e : Entity) (w' : World (Kind U)) :
    Prop where
  wf : w'.Wf
  tuned : Tuned w w'
  node? : ∀ x, w'.node? x = w.node? x
  destroying : ∀ x, w'.isDestroying x = true ↔ x = e ∨ w.isDestroying x = true
  removing : w'.removing = (id, e) :: w.removing
  housed : w.Housed → w'.Housed

/-- Links stay while the pools before them are asked. -/
theorem parting_of_emptied (hwf : w.Wf) (hid : w.idOf? .node = some id)
    (haccepts : w.accepts e = true) (hempty : Emptied 0 id (w.beginDestroy e) e tr w₁)
    (hworld : Undisturbed (fun _ => True) { w₁ with removing := (id, e) :: w₁.removing } w')
    (htuned : Tuned { w₁ with removing := (id, e) :: w₁.removing } w') : Parting w id e w' := by
  have htuned₁ := (tuned_beginDestroy w e).trans hempty.shed.tuned
  have hnode : ∀ x, w'.node? x = w.node? x := fun x =>
    (hworld.get? trivial x).trans (node?_of_emptied hid hempty x)
  refine
    { wf := hworld.wf
      tuned := (htuned₁.trans (tuned_with w₁ _ _)).trans htuned
      node? := hnode
      destroying := fun x => ?_
      removing := ?_
      housed := fun hhoused x hx => ?_ }
  · rw [hworld.isDestroying]
    show w₁.entities.isDestroying x = true ↔ _
    rw [hempty.entities]
    exact isDestroying_beginDestroy haccepts x
  · rw [hworld.removing]
    show (id, e) :: w₁.removing = _
    rw [hempty.removing]
    rfl
  · have hid' : w₁.idOf? .node = some id := (htuned₁.idOf? _).trans hid
    have hx₁ : (w₁.stored? .node x).isSome := by
      rw [hworld.stored? trivial] at hx
      exact hx
    rw [← hempty.shed.wf.holds_eq_isSome hid', hempty.shed.holds] at hx₁
    have hv := hhoused x (by rw [← hwf.holds_eq_isSome hid]; exact hx₁.1)
    rw [hworld.isValid]
    show w₁.entities.isAlive x = true
    rw [hempty.entities]
    exact (isValid_beginDestroy w e x).trans hv

/-- An entity is gone with everything below it, and the removal of its links is over. The links
of all others are as they were. -/
structure Parted (w : World (Kind U)) (id : ComponentId) (e : Entity) (w' : World (Kind U)) :
    Prop where
  wf : w'.Wf
  tuned : Tuned w w'
  valid : ∀ x, w'.isValid x = true ↔ w.isValid x = true ∧ ¬ w.Below e x
  node? : ∀ x, ¬ w.Below e x → w'.node? x = w.node? x
  destroying : ∀ x, w'.isDestroying x = true ↔ w.isDestroying x = true ∧ x ≠ e
  removing : w'.removing = w.removing.erase (id, e)
  housed : w'.Housed

section Parted

variable {all : List Entity} (hwf : w.Wf) (hid : w.idOf? .node = some id)
variable (hdestroying : w.isDestroying e = true)
variable (hbelow : ∀ x, w.Below e x → x ≠ e → w.isDestroying x = false)
variable (hall : ∀ x, x ∈ all ↔ w.Below e x) (h₁ : Felled w all tr w₁)
variable (h₂ : w₂ = erase { w₁ with removing := w₁.removing.erase (id, e) } id e)
variable (h₃ : Emptied (id + 1) w.pools.size w₂ e tr' w₃)

include hdestroying hbelow hall in
/-- The entity itself cannot be destroyed again, and everything else below it can be. -/
theorem felled_iff_below (x : Entity) :
    x ∈ all ∧ w.accepts x = true ↔ w.Below e x ∧ w.isValid x = true ∧ x ≠ e := by
  rw [hall, accepts_iff]
  constructor
  · rintro ⟨hx, hv, hd⟩
    refine ⟨hx, hv, ?_⟩
    rintro rfl
    rw [hdestroying] at hd
    cases hd
  · rintro ⟨hx, hv, hne⟩
    exact ⟨hx, hv, hbelow x hx hne⟩

include hdestroying hbelow hall h₁ h₂ h₃ in
theorem isValid_parted (x : Entity) :
    (w₃.release e).isValid x = true ↔ w.isValid x = true ∧ ¬ w.Below e x := by
  have hfelled := felled_iff_below hdestroying hbelow hall
  have hsame : ∀ x, w₃.isValid x = true ↔
      w.isValid x = true ∧ ¬ (w.Below e x ∧ w.isValid x = true ∧ x ≠ e) := fun x => by
    rw [isValid, h₃.entities, h₂, ← hfelled]
    exact h₁.valid x
  have he : w₃.isValid e = true :=
    (hsame e).mpr ⟨isValid_of_isDestroying hdestroying, fun hc => hc.2.2 rfl⟩
  rw [isValid_release he, hsame]
  constructor
  · rintro ⟨⟨hv, hno⟩, hne⟩
    exact ⟨hv, fun hx => hno ⟨hx, hv, hne⟩⟩
  · rintro ⟨hv, hno⟩
    refine ⟨⟨hv, fun hc => hno hc.1⟩, ?_⟩
    rintro rfl
    exact hno (.refl w x)

include hdestroying h₁ h₂ h₃ in
theorem isDestroying_parted (x : Entity) :
    (w₃.release e).isDestroying x = true ↔ w.isDestroying x = true ∧ x ≠ e := by
  have hsame : w₃.isDestroying x = w.isDestroying x := by
    rw [isDestroying, h₃.entities, h₂]
    exact h₁.destroying x
  have he : w₃.isValid e = true := by
    refine isValid_of_isDestroying ?_
    rw [isDestroying, h₃.entities, h₂]
    exact (h₁.destroying e).trans hdestroying
  rw [isDestroying_release he, hsame]

include h₁ h₂ h₃ in
/-- The links of whoever was not claimed, and is not the entity itself. -/
theorem stored?_parted {x : Entity} (hx : x ∉ all) (hne : x ≠ e) :
    w₃.stored? .node x = w.stored? .node x := by
  have hwf₁ : Wf { w₁ with removing := w₁.removing.erase (id, e) } := { h₁.shed.wf with }
  rw [h₃.shed.stored? trivial fun _ _ hd => hne hd.1, h₂, stored?_erase hwf₁,
    if_neg fun hc => hne hc.2]
  exact h₁.shed.stored? trivial fun _ _ hc => hx hc.1

include hwf hid hdestroying hbelow hall h₁ h₂ h₃ in
theorem parted_of_felled (hhoused : w.Housed)
    (hremoving : ∀ k x, (k, x) ∈ w.removing → w.isDestroying x = true) :
    Parted w id e (w₃.release e) := by
  have hvalid := isValid_parted hdestroying hbelow hall h₁ h₂ h₃
  have hwf₁ : Wf { w₁ with removing := w₁.removing.erase (id, e) } := { h₁.shed.wf with }
  have htuned₂ : Tuned w w₂ := h₂ ▸
    (h₁.shed.tuned.trans (tuned_with w₁ _ _)).trans (tuned_erase _ id e)
  have htuned := htuned₂.trans h₃.shed.tuned
  refine
    { wf := wf_release h₃.shed.wf e
      tuned := htuned.trans (tuned_release w₃ e)
      valid := hvalid
      node? := fun x hx => ?_
      destroying := isDestroying_parted hdestroying h₁ h₂ h₃
      removing := ?_
      housed := fun x hx => ?_ }
  · have hne : x ≠ e := by
      rintro rfl
      exact hx (.refl w x)
    have hstored := stored?_parted h₁ h₂ h₃ (fun hc => hx ((hall x).mp hc)) hne
    have hsame : (w₃.release e).isValid x = w.isValid x := by
      rw [Bool.eq_iff_iff, hvalid]
      exact and_iff_left hx
    rw [World.node?, World.node?, get?_eq_stored?, get?_eq_stored?, hsame,
      show (w₃.release e).stored? .node x = _ from hstored]
  · show w₃.removing = _
    rw [h₃.removing, h₂]
    exact congrArg (List.erase · (id, e)) h₁.removing
  · -- a row that is left was there before, and its entity was not claimed
    have hrow : w₃.holds id x = true := by
      rw [h₃.shed.wf.holds_eq_isSome ((htuned.idOf? _).trans hid)]
      exact hx
    have hrow₂ := ((h₃.shed.holds id x).mp hrow).1
    rw [h₂, holds_erase hwf₁] at hrow₂
    split at hrow₂
    · cases hrow₂
    · rename_i hne
      obtain ⟨hrow₀, hgone⟩ := (h₁.shed.holds id x).mp hrow₂
      have hv := hhoused x (by rw [← hwf.holds_eq_isSome hid]; exact hrow₀)
      refine (hvalid x).mpr ⟨hv, fun hb => hgone ?_⟩
      have hxe : x ≠ e := fun hc => hne ⟨rfl, hc⟩
      obtain ⟨hmem, haccepts⟩ :=
        (felled_iff_below hdestroying hbelow hall x).mpr ⟨hb, hv, hxe⟩
      refine ⟨hmem, haccepts, fun hc => ?_⟩
      have hfree := hbelow x hb hxe
      rw [hremoving id x hc] at hfree
      cases hfree

end Parted

end World

namespace Machine

variable {U σ : Type} [SceneFamily U] [DecidableEq U] {m m' : Machine U σ}
variable {key : ConnectionKey} {claims : Nat} {id : ComponentId} {e : Entity}

/-- Of removals only one cascade hears, and of those of links only. -/
structure Solitary (m : Machine U σ) (key : ConnectionKey) (claims : Nat) (id : ComponentId) :
    Prop where
  number : m.world.idOf? .node = some id
  cascade : m.handlers[key]? = some (.cascade claims)
  listeners : ∀ j, m.world.listeners j .destroy = if j = id then [key] else []
  active : m.world.board.isActive key = true

namespace Solitary

theorem congr (h : m.Solitary key claims id) (hworld : World.Tuned m.world m'.world)
    (hhandlers : m'.handlers = m.handlers) : m'.Solitary key claims id :=
  { number := (hworld.idOf? _).trans h.number
    cascade := by rw [hhandlers, h.cascade]
    listeners := fun j => (hworld.listeners j .destroy).trans (h.listeners j)
    active := by rw [hworld.board, h.active] }

theorem tolled (h : m.Solitary key claims id) : m.Tolled key claims :=
  { cascade := h.cascade
    readers := fun {j k handler} hk hne _ => by
      rw [h.listeners] at hk
      split at hk
      · exact absurd (List.mem_singleton.mp hk) hne
      · cases hk }

/-- Nobody hears of the removal of anything but links. -/
theorem hushedFor_of_ne (h : m.Solitary key claims id) {j : ComponentId} (hj : j ≠ id)
    (e : Entity) : m.HushedFor j .destroy e := by
  intro k hk
  rw [h.listeners, if_neg hj] at hk
  cases hk

end Solitary

/-- The announcement of the removal of links comes to the cascade, and changes nothing but the
list of what is being removed. -/
theorem runs_announcement (hwf : m.world.Wf) (hsolitary : m.Solitary key claims id)
    (hrow : m.world.holds id e = true) (hfresh : (id, e) ∉ m.world.removing) :
    ∃ world : World (Kind U),
      World.Undisturbed (fun _ => True) { m.world with removing := (id, e) :: m.world.removing }
        world ∧
      World.Tuned { m.world with removing := (id, e) :: m.world.removing } world ∧
      ∀ stack, (m.on (.teardown e id :: stack) (.announce id e)).Runs [⟨id, .destroy, e⟩]
        (on { m with world } (.dispatch id .destroy e [] :: .removal id e :: .teardown e id :: stack)
          (.invoke key e)) := by
  obtain ⟨w, hw⟩ : ∃ w, w = { m.world with removing := (id, e) :: m.world.removing } := ⟨_, rfl⟩
  have hwf' : w.Wf := hw ▸ { hwf with }
  have htuned : World.Tuned m.world w := hw ▸ World.tuned_with m.world _ _
  have hsnap := World.tuned_snapshot w id .destroy
  have hkeys : (w.snapshot id .destroy).1 = [key] := by
    show w.listeners id .destroy = _
    rw [htuned.listeners, hsolitary.listeners, if_pos rfl]
  have hactive : (w.snapshot id .destroy).2.board.isActive key = true := by
    rw [(htuned.trans hsnap).board, hsolitary.active]
  refine ⟨(w.snapshot id .destroy).2, hw ▸ World.undisturbed_snapshot hwf' id .destroy,
    hw ▸ hsnap, fun stack => ?_⟩
  have hannounce : (m.on (.teardown e id :: stack) (.announce id e)).step =
      some (on { m with world := w } (.removal id e :: .teardown e id :: stack)
        (.publish id .destroy e)) := by
    show some (announce _ id e) = _
    rw [announce, on_world, if_neg (not_or.mpr ⟨hfresh, by rw [hrow]; exact Bool.noConfusion⟩), hw]
    rfl
  have hpublish : (on { m with world := w } (.removal id e :: .teardown e id :: stack)
      (.publish id .destroy e)).step =
      some (on { m with world := (w.snapshot id .destroy).2 }
        (.dispatch id .destroy e [key] :: .removal id e :: .teardown e id :: stack)
        (.reply true)) := by
    rw [← hkeys]
    rfl
  have hturn : (on { m with world := (w.snapshot id .destroy).2 }
      (.dispatch id .destroy e [key] :: .removal id e :: .teardown e id :: stack)
      (.reply true)).step =
      some (on { m with world := (w.snapshot id .destroy).2 }
        (.dispatch id .destroy e [] :: .removal id e :: .teardown e id :: stack)
        (.invoke key e)) := by
    rw [step_dispatch, if_pos hactive]
  exact .head hannounce rfl ((Runs.of_step hpublish).snoc hturn rfl)

/-- The destruction of an entity with links comes to its cascade. -/
theorem runs_parting (hwf : m.world.Wf) (hsolitary : m.Solitary key claims id)
    (haccepts : m.world.accepts e = true) (hnode : (m.world.node? e).isSome)
    (hfresh : (id, e) ∉ m.world.removing) :
    ∃ world host tr, m.world.Parting id e world ∧
      ∀ stack, (m.on stack (.destroy e)).Runs tr (on { m with world, host }
        (.dispatch id .destroy e [] :: .removal id e :: .teardown e id :: stack)
        (.invoke key e)) := by
  have hrow : m.world.holds id e = true := by
    obtain ⟨node, hnode⟩ := Option.isSome_iff_exists.mp hnode
    exact (holds_of_get? hwf hsolitary.number hnode).2
  have hsize : id < m.world.pools.size := World.lt_size_of_holds hrow
  have hbegun := World.tuned_beginDestroy m.world e
  -- of the pools before the links nobody hears
  obtain ⟨w, host, tr, hempty, hrun⟩ :=
    runs_tearing (m := { m with world := m.world.beginDestroy e }) (World.wf_beginDestroy hwf e)
      (Nat.zero_le id) (Nat.le_of_lt hsize) fun k _ hk _ =>
        (hsolitary.hushedFor_of_ne (Nat.ne_of_lt hk) e).congr hbegun rfl rfl
  have htuned := hbegun.trans hempty.shed.tuned
  have hrow' : w.holds id e = true :=
    (hempty.shed.holds id e).mpr ⟨hrow, fun hd => Nat.lt_irrefl id hd.2.2.1⟩
  have hfresh' : (id, e) ∉ w.removing := by
    rw [hempty.removing]
    exact hfresh
  have hsolitary' : Solitary { m with world := w, host } key claims id :=
    hsolitary.congr htuned rfl
  obtain ⟨w', hworld, htuned', hannounced⟩ :=
    runs_announcement hempty.shed.wf hsolitary' hrow' hfresh'
  refine ⟨w', host, tr ++ [⟨id, .destroy, e⟩],
    World.parting_of_emptied hwf hsolitary.number haccepts hempty hworld htuned', fun stack => ?_⟩
  have hfirst := hrun stack
  rw [tearing_of_lt (m := { m with world := w, host })
    (Nat.lt_of_lt_of_eq hsize htuned.size_pools.symm)] at hfirst
  exact .head (step_destroy_of_accepts haccepts stack) rfl (hfirst.trans (hannounced stack))

/-- A cascade whose entity is out of its parent's children takes what is below along, and then
the rest of the destruction follows. -/
theorem runs_parted (hwf : m.world.Wf) (hsolitary : m.Solitary key claims id)
    (hclaims : m.claims[claims]? = some []) (hhoused : m.world.Housed)
    (hdestroying : m.world.isDestroying e = true)
    (hbelow : ∀ x, m.world.Below e x → x ≠ e → m.world.isDestroying x = false)
    (hremoving : ∀ k x, (k, x) ∈ m.world.removing → m.world.isDestroying x = true) :
    ∃ world host sets tr, m.world.Parted id e world ∧ sets[claims]? = some [] ∧
      ∀ stack, (m.on (.unlinking claims e :: .dispatch id .destroy e [] :: .removal id e ::
        .teardown e id :: stack) (.reply true)).Runs tr
        (on { m with world, host, claims := sets } stack (.reply true)) := by
  obtain ⟨w₁, host₁, sets, all, tr₁, hall, hfelled, hsets, hrun₁⟩ :=
    runs_unlinking hwf hsolitary.tolled hclaims e
  obtain ⟨w₂, hw₂⟩ : ∃ w₂ : World (Kind U),
      w₂ = World.erase { w₁ with removing := w₁.removing.erase (id, e) } id e := ⟨_, rfl⟩
  have hwf₁ : World.Wf { w₁ with removing := w₁.removing.erase (id, e) } :=
    { hfelled.shed.wf with }
  have hwf₂ : w₂.Wf := hw₂ ▸ World.wf_erase hwf₁ id e
  have htuned₂ : World.Tuned m.world w₂ := hw₂ ▸
    (hfelled.shed.tuned.trans (World.tuned_with w₁ _ _)).trans (World.tuned_erase _ id e)
  have hsize : id < m.world.pools.size := by
    obtain ⟨set, signals, hpool, -⟩ := hwf.exists_pool hsolitary.number
    exact (Array.getElem?_eq_some_iff.mp hpool).1
  have hsolitary₂ : Solitary { m with world := w₂, host := host₁, claims := sets } key claims id :=
    hsolitary.congr htuned₂ rfl
  obtain ⟨w₃, host, tr₃, hempty, hrun₃⟩ :=
    runs_tearing (m := { m with world := w₂, host := host₁, claims := sets }) (i := id + 1) (e := e)
      hwf₂ (Nat.succ_le_of_lt hsize) (Nat.le_of_eq htuned₂.size_pools.symm) fun k hk _ _ =>
        hsolitary₂.hushedFor_of_ne (Nat.ne_of_gt hk) e
  have hparted := World.parted_of_felled hwf hsolitary.number hdestroying hbelow hall hfelled hw₂
    hempty hhoused hremoving
  refine ⟨w₃.release e, host, sets, tr₁ ++ tr₃, hparted, hsets, fun stack => ?_⟩
  have hcascade := hrun₁ (.dispatch id .destroy e [] :: .removal id e :: .teardown e id :: stack)
  have hanswered : (on { m with world := w₁, host := host₁, claims := sets }
      (.dispatch id .destroy e [] :: .removal id e :: .teardown e id :: stack) (.reply true)).Runs []
      (tearing { m with world := w₂, host := host₁, claims := sets } stack e (id + 1)) := by
    rw [hw₂]
    refine .head rfl rfl (.head rfl rfl (.of_step ?_))
    exact step_tearing (m := { m with
      world := { w₁ with removing := w₁.removing.erase (id, e) }, host := host₁, claims := sets })
      hwf₁ stack e id true
  have hlast := tearing_of_size_le (m := { m with world := w₃, host, claims := sets })
    (Nat.le_of_eq (hempty.shed.tuned.size_pools.trans htuned₂.size_pools)) stack e
  have hrest := hlast ▸ hrun₃ stack
  exact hcascade.trans (hanswered.trans hrest)

end Machine

end EntityScene
