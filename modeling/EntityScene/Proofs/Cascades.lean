import EntityScene.Program.Edit
import EntityScene.Proofs.Felling
import EntityScene.Proofs.Nesting

/-!
# Cascades take along exactly what is below

Between two calls, whatever the links look like: an entity with links that is destroyed, or
loses its links, takes along what child links lead to from it, and nothing else.

- `World.Unlinked`: an entity was taken out of the children of its parent.
- `World.Reaped`, `serves_invoke_cascade`: a cascade that runs as a handler.
- `World.Uprooted`, `serves_announce_cascade`: the removal of links with its cascade.
- `World.Fallen`: what is below an entity is gone, for each of the ways to ask for it:
  `serves_destroy_node` and `performs_take_node`.
- `Machine.Ready`: between two calls, with one cascade among readers. Every row is for an
  entity that is alive.
- `Machine.cascades_take_what_is_below`: all of this for a machine that is ready, which it is
  again afterwards.
-/

namespace EntityScene

namespace World

variable {U : Type} [SceneFamily U] [DecidableEq U] {w w' w'' w₁ : World (Kind U)}
variable {e : Entity} {id : ComponentId} {tr tr' : List Dispatch}

/-- An entity that has links is valid. -/
theorem isValid_of_node? {x : Entity} (h : (w.node? x).isSome) : w.isValid x = true := by
  by_contra hno
  rw [Bool.not_eq_true] at hno
  rw [node?_of_not_isValid hno] at h
  cases h

/-! ## Taken from the parent -/

/-- The links of an entity when another one was taken out of its parent's children. -/
def unlinkedNode? (w : World (Kind U)) (e x : Entity) : Option TreeNode :=
  if w.parentOf? e = some x then (w.node? x).map (·.dropChild e) else w.node? x

/-- An entity was taken out of the children of its parent, and nothing else changed. -/
structure Unlinked (w : World (Kind U)) (e : Entity) (w' : World (Kind U)) : Prop where
  undisturbed : Undisturbed (· ≠ .node) w w'
  tuned : Tuned w w'
  node? : ∀ x, w'.node? x = w.unlinkedNode? e x

/-- There is nothing to do without a parent that has links. -/
theorem unlinked_of_no_parent (h : w.Wf)
    (hparent : ∀ p, w.parentOf? e = some p → w.node? p = none) : Unlinked w e w := by
  refine { undisturbed := .refl h, tuned := .refl w, node? := fun x => ?_ }
  unfold unlinkedNode?
  split
  · rename_i hx
    rw [hparent x hx]
    rfl
  · rfl

theorem unlinked_edit (h : w.Wf) {p : Entity} (hparent : w.parentOf? e = some p) :
    Unlinked w e (w.edit .node p fun node => TreeNode.dropChild node e) := by
  refine
    { undisturbed := undisturbed_edit h fun hne => hne rfl
      tuned := tuned_edit w _ _ _
      node? := fun x => ?_ }
  unfold unlinkedNode?
  rw [hparent, World.node?, get?_edit]
  by_cases hx : x = p
  · subst hx
    rw [if_pos rfl, if_pos rfl]
    rfl
  · rw [if_neg hx, if_neg fun hc => hx (Option.some.inj hc).symm]
    rfl

/-- An edit that is not seen. -/
theorem Unlinked.trans_undisturbed (h : Unlinked w e w')
    (hworld : Undisturbed (fun _ => True) w' w'') (htuned : Tuned w' w'') : Unlinked w e w'' :=
  { undisturbed := h.undisturbed.trans (hworld.mono fun _ _ => trivial)
    tuned := h.tuned.trans htuned
    node? := fun x => (hworld.get? trivial x).trans (h.node? x) }

/-- Only the link to the parent is cut. -/
theorem Unlinked.mem_childrenOf_iff (h : Unlinked w e w') {a b : Entity} :
    b ∈ w'.childrenOf a ↔ b ∈ w.childrenOf a ∧ ¬ (w.parentOf? e = some a ∧ b = e) := by
  rw [childrenOf, childrenOf, h.node?, unlinkedNode?]
  split
  · rename_i ha
    cases w.node? a with
    | none => simp
    | some node => simp [TreeNode.mem_children_dropChild, ha]
  · rename_i ha
    simp [ha]

/-- Nothing gets out of reach of an entity that is taken from its parent. -/
theorem Unlinked.below_iff (h : Unlinked w e w') (x : Entity) : w'.Below e x ↔ w.Below e x := by
  constructor
  · intro hx
    exact Relation.ReflTransGen.mono (fun a b hb => (h.mem_childrenOf_iff.mp hb).1) e x hx
  · intro hx
    induction hx with
    | refl => exact .refl w' e
    | @tail b c _ hc ih =>
      -- the link that is cut leads to where the way started
      by_cases hcut : w.parentOf? e = some b ∧ c = e
      · rw [hcut.2]
        exact .refl w' e
      · exact ih.child (h.mem_childrenOf_iff.mpr ⟨hc, hcut⟩)

/-! ## A cascade as a handler -/

/-- The parent of an entity has lost it, and what is below the entity was destroyed, as far
as it could be. -/
structure Reaped (w : World (Kind U)) (e : Entity) (tr : List Dispatch) (w' : World (Kind U)) :
    Prop where
  shed : Shed (· ≠ .node)
    (fun k x => w.Below e x ∧ w.accepts x = true ∧ (k, x) ∉ w.removing) w tr w'
  valid : ∀ x, w'.isValid x = true ↔ w.isValid x = true ∧ ¬ (w.Below e x ∧ w.accepts x = true)
  destroying : ∀ x, w'.isDestroying x = w.isDestroying x
  removing : w'.removing = w.removing
  node? : ∀ x, ¬ w.Below e x → w'.node? x = w.unlinkedNode? e x

/-- A cascade takes its node from the parent and destroys what it claimed. -/
theorem reaped_of_felled {all : List Entity} (hunlinked : Unlinked w e w₁)
    (htr : ∀ k x, tr.count ⟨k, .destroy, x⟩ = 0) (hall : ∀ x, x ∈ all ↔ w₁.Below e x)
    (hfelled : Felled w₁ all tr' w') : Reaped w e (tr ++ tr') w' := by
  have hworld := hunlinked.undisturbed
  have hmem : ∀ x, x ∈ all ↔ w.Below e x := fun x => (hall x).trans (hunlinked.below_iff x)
  have haccepts := hworld.accepts
  have hshed := (shed_of_undisturbed hworld hunlinked.tuned htr).trans
    (hfelled.shed.mono fun _ _ => trivial)
  refine
    { shed := hshed.widen ?_ ?_
      valid := fun x => ?_
      destroying := fun x => (hfelled.destroying x).trans (hworld.isDestroying x)
      removing := hfelled.removing.trans hworld.removing
      node? := fun x hx => ?_ }
  · rintro k x (hno | ⟨hx, ha, hr⟩)
    · exact hno.elim
    · exact ⟨(hmem x).mp hx, haccepts x ▸ ha, hworld.removing ▸ hr⟩
  · rintro k x - ⟨hx, ha, hr⟩
    exact .inr ⟨(hmem x).mpr hx, (haccepts x).trans ha, hworld.removing.symm ▸ hr⟩
  · rw [hfelled.valid, hworld.isValid, hmem, haccepts]
  · rw [← hunlinked.node?]
    exact hfelled.get?_of_not_mem .node fun hc => hx ((hmem x).mp hc)

/-- What comes before a cascade and is not seen. -/
theorem Reaped.of_undisturbed (hworld : Undisturbed (fun _ => True) w w₁) (htuned : Tuned w w₁)
    (h : Reaped w₁ e tr w') : Reaped w e tr w' := by
  have hnode : ∀ x, w₁.node? x = w.node? x := fun x => hworld.get? trivial x
  have hbelow : ∀ x, w₁.Below e x ↔ w.Below e x := below_congr (fun x => by
    rw [childrenOf, childrenOf, hnode]) e
  have haccepts := hworld.accepts
  have hquiet : Shed (· ≠ .node) (fun _ _ => False) w [] w₁ :=
    shed_of_undisturbed (hworld.mono fun _ _ => trivial) htuned fun _ _ => rfl
  refine
    { shed := (hquiet.trans h.shed).widen ?_ ?_
      valid := fun x => by rw [h.valid, hworld.isValid, hbelow, haccepts]
      destroying := fun x => (h.destroying x).trans (hworld.isDestroying x)
      removing := h.removing.trans hworld.removing
      node? := fun x hx => ?_ }
  · rintro k x (hno | ⟨hx, ha, hr⟩)
    · exact hno.elim
    · exact ⟨(hbelow x).mp hx, haccepts x ▸ ha, hworld.removing ▸ hr⟩
  · rintro k x - ⟨hx, ha, hr⟩
    exact .inr ⟨(hbelow x).mpr hx, (haccepts x).trans ha, hworld.removing.symm ▸ hr⟩
  · rw [h.node? x fun hc => hx ((hbelow x).mp hc), unlinkedNode?, unlinkedNode?, parentOf?,
      parentOf?, hnode, hnode]

/-! ## The removal of links -/

/-- An entity has lost its links. Its parent has lost the entity, and what is below it was
destroyed, as far as it could be. -/
structure Uprooted (w : World (Kind U)) (id : ComponentId) (e : Entity) (tr : List Dispatch)
    (w' : World (Kind U)) : Prop where
  shed : Shed (· ≠ .node) (fun k x => (k = id ∧ x = e) ∨
    (w.Below e x ∧ w.accepts x = true ∧ (k, x) ∉ w.removing)) w tr w'
  valid : ∀ x, w'.isValid x = true ↔ w.isValid x = true ∧ ¬ (w.Below e x ∧ w.accepts x = true)
  destroying : ∀ x, w'.isDestroying x = w.isDestroying x
  removing : w'.removing = w.removing
  node? : ∀ x, ¬ w.Below e x → w'.node? x = w.unlinkedNode? e x

/-- The links are erased when the cascade has run, while which they are still there. -/
theorem uprooted_of_reaped (hrow : w.holds id e = true)
    (h : Reaped { w with removing := (id, e) :: w.removing } e tr w') :
    w'.holds id e = true ∧
      Uprooted w id e (⟨id, .destroy, e⟩ :: tr)
        (erase { w' with removing := w'.removing.erase (id, e) } id e) := by
  have hheld : w'.holds id e = true :=
    (h.shed.holds id e).mpr ⟨hrow, fun hc => hc.2.2 List.mem_cons_self⟩
  have hshed : Shed (· ≠ .node)
      (fun k x => w.Below e x ∧ w.accepts x = true ∧ (k, x) ∉ (id, e) :: w.removing) w tr
      { w' with removing := w'.removing.erase (id, e) } :=
    { wf := { h.shed.wf with }
      tuned := ((tuned_with w _ _).trans h.shed.tuned).trans (tuned_with w' _ _)
      holds := h.shed.holds
      stored? := h.shed.stored?
      once := h.shed.once
      silent := h.shed.silent }
  have hall := (hshed.trans (shed_erase hshed.wf hheld)).perm (List.perm_append_singleton _ _)
  refine ⟨hheld, ?_⟩
  refine
    { shed := hall.widen ?_ ?_
      valid := h.valid
      destroying := h.destroying
      removing := ?_
      node? := fun x hx => ?_ }
  · rintro k x (⟨hx, ha, hr⟩ | hx)
    · exact .inr ⟨hx, ha, fun hmem => hr (List.mem_cons_of_mem _ hmem)⟩
    · exact .inl hx
  · rintro k x - (hx | ⟨hx, ha, hr⟩)
    · exact .inr hx
    · by_cases heq : (k, x) = (id, e)
      · obtain ⟨rfl, rfl⟩ := Prod.mk.inj heq
        exact .inr ⟨rfl, rfl⟩
      · refine .inl ⟨hx, ha, ?_⟩
        rw [List.mem_cons, not_or]
        exact ⟨heq, hr⟩
  · show w'.removing.erase (id, e) = w.removing
    rw [h.removing]
    exact List.erase_cons_head _ _
  · have hne : x ≠ e := by
      rintro rfl
      exact hx (.refl w x)
    have hstored := stored?_erase hshed.wf id e .node x
    rw [if_neg fun hc => hne hc.2] at hstored
    rw [← show w'.node? x = w.unlinkedNode? e x from h.node? x hx, World.node?, World.node?,
      get?_eq_stored?, get?_eq_stored?, hstored]
    rfl

end World

namespace Machine

variable {U σ : Type} [SceneFamily U] [DecidableEq U] {m m' : Machine U σ}
variable {key : ConnectionKey} {claims : Nat} {id : ComponentId} {e : Entity}

/-- A cascade starts if its node is not claimed. -/
theorem startCascade_of_unclaimed (hclaims : m.claims[claims]? = some []) (e : Entity)
    (stack : List (Frame U σ)) (control : Control U σ) :
    (m.on stack control).startCascade claims e =
      ((m.world.validParentOf? e).bind fun p => (m.on stack control).patch? .node p
        (fun node => TreeNode.dropChild node e) (.unlinking claims e)).getD
        (m.on (.unlinking claims e :: stack) (.reply true)) := by
  have hfree : e ∉ m.claims.getD claims [] := by
    rw [Array.getD_eq_getD_getElem?, hclaims]
    exact List.not_mem_nil
  rw [startCascade, on_claims, if_neg hfree]
  rfl

/-- There is no list of children to be taken from. -/
theorem startCascade_of_no_parent (hclaims : m.claims[claims]? = some [])
    (hno : ∀ p, m.world.parentOf? e = some p → m.world.node? p = none)
    (stack : List (Frame U σ)) (control : Control U σ) :
    (m.on stack control).startCascade claims e =
      m.on (.unlinking claims e :: stack) (.reply true) := by
  have hnone : ((m.world.validParentOf? e).bind fun p => (m.on stack control).patch? .node p
      (fun node => TreeNode.dropChild node e) (.unlinking claims e)) = none := by
    cases hp : m.world.validParentOf? e with
    | none => rfl
    | some p =>
      have hnode : m.world.get? .node p = none := hno p (Option.filter_eq_some_iff.mp hp).1
      rw [Option.bind_some, patch?, on_world, hnode]
      cases m.world.idOf? .node <;> rfl
  rw [startCascade_of_unclaimed hclaims, hnone]
  rfl

/-- A cascade first takes its node from the parent. -/
theorem runs_startCascade (hwf : m.world.Wf) (hplanted : m.Planted key claims id)
    (hclaims : m.claims[claims]? = some []) (e : Entity) :
    ∃ world host tr, World.Unlinked m.world e world ∧
      (∀ k x, tr.count ⟨k, .destroy, x⟩ = 0) ∧
      ∀ stack control, ((m.on stack control).startCascade claims e).Runs tr
        (on { m with world, host } (.unlinking claims e :: stack) (.reply true)) := by
  by_cases hparent : ∃ p, m.world.parentOf? e = some p ∧ (m.world.node? p).isSome
  · obtain ⟨p, hp, hnode⟩ := hparent
    have hvalid : m.world.validParentOf? e = some p := by
      rw [World.validParentOf?, hp, Option.filter_some, if_pos (World.isValid_of_node? hnode)]
    have hother : ¬ (id = id ∧ LifeEvent.update = .destroy) := fun hc => by cases hc.2
    obtain ⟨host, hpatch⟩ := runs_patch hplanted.number hnode
      (hplanted.hushedFor_of_ne hother p) fun node => TreeNode.dropChild node e
    have hedit := World.unlinked_edit hwf hp
    refine ⟨_, host, [⟨id, .update, p⟩],
      hedit.trans_undisturbed (World.undisturbed_snapshot hedit.undisturbed.wf id .update)
        (World.tuned_snapshot _ id .update),
      fun k x => List.count_eq_zero.mpr (by simp), fun stack control => ?_⟩
    obtain ⟨m', hm', hrun⟩ := hpatch (.unlinking claims e) stack control
    rw [startCascade_of_unclaimed hclaims, hvalid, Option.bind_some, hm']
    exact hrun
  · have hno : ∀ p, m.world.parentOf? e = some p → m.world.node? p = none := by
      intro p hp
      by_contra hnode
      exact hparent ⟨p, hp, Option.isSome_iff_ne_none.mpr hnode⟩
    refine ⟨m.world, m.host, [], World.unlinked_of_no_parent hwf hno, fun _ _ => rfl,
      fun stack control => ?_⟩
    rw [startCascade_of_no_parent hclaims hno]
    exact .refl _

/-- Then it claims what is below its node, and destroys it. -/
theorem runs_unlinking (hwf : m.world.Wf) (htolled : m.Tolled key claims)
    (hclaims : m.claims[claims]? = some []) (e : Entity) :
    ∃ world host sets all tr, (∀ x, x ∈ all ↔ m.world.Below e x) ∧ m.world.Felled all tr world ∧
      sets[claims]? = some [] ∧
      ∀ stack, (m.on (.unlinking claims e :: stack) (.reply true)).Runs tr
        (on { m with world, host, claims := sets } stack (.reply true)) := by
  have hget : m.claims.getD claims [] = [] := by
    rw [Array.getD_eq_getD_getElem?, hclaims]
    rfl
  obtain ⟨fresh, hfresh⟩ : ∃ fresh,
      fresh = (claimAll (m.claims.getD claims []) (e :: m.world.descendants e)).1 := ⟨_, rfl⟩
  obtain ⟨set, hset⟩ : ∃ set,
      set = (claimAll (m.claims.getD claims []) (e :: m.world.descendants e)).2 := ⟨_, rfl⟩
  have hmem : ∀ x, x ∈ fresh ↔ x ∈ e :: m.world.descendants e := by
    intro x
    rw [hfresh, hget, mem_claimAll_fst]
    exact ⟨fun hx => hx.1, fun hx => ⟨hx, List.not_mem_nil⟩⟩
  have hmidway : Midway { m with claims := m.claims.setIfInBounds claims set } key claims m.world e
      [] fresh [] :=
    { tolled := htolled.congr (.refl _) rfl
      frontier :=
        { nodup := hfresh ▸ nodup_claimAll_fst _ _
          below := fun x hx => by
            rcases List.mem_cons.mp ((hmem x).mp hx) with rfl | hx
            · exact .refl _ x
            · exact World.below_of_mem_descendants hx
          closed := fun x hx => absurd hx List.not_mem_nil }
      felled := .refl hwf
      claimed := by
        refine ⟨set, Array.getElem?_setIfInBounds_self_of_lt (Array.getElem?_eq_some_iff.mp
          hclaims).1, fun x => ?_⟩
        rw [hset, hget, mem_claimAll_snd, List.nil_append, hmem]
        exact or_iff_right List.not_mem_nil }
  obtain ⟨world, host, sets, all, tr, hsub, hfrontier, hfelled, hsets, hrun⟩ :=
    runs_cascadeOn hwf hmidway
  have he : e ∈ all := hsub ((hmem e).mpr List.mem_cons_self)
  refine ⟨world, host, sets, all, tr, fun x => hfrontier.mem_iff_below he, hfelled, hsets,
    fun stack => .head ?_ rfl (hrun stack)⟩
  rw [hfresh, hset]
  rfl

/-- A cascade that is called as a handler comes to its end. -/
theorem serves_invoke_cascade (hwf : m.world.Wf) (hplanted : m.Planted key claims id)
    (hclaims : m.claims[claims]? = some []) (e : Entity) :
    ∃ world host sets tr, m.world.Reaped e tr world ∧ sets[claims]? = some [] ∧
      m.Serves (.invoke key e) tr { m with world, host, claims := sets } (.reply true) := by
  obtain ⟨w₁, host₁, tr₁, hunlinked, htr₁, hstart⟩ := runs_startCascade hwf hplanted hclaims e
  obtain ⟨world, host, sets, all, tr, hall, hfelled, hsets, hrun⟩ :=
    runs_unlinking (m := { m with world := w₁, host := host₁ }) hunlinked.undisturbed.wf
      (hplanted.tolled.congr hunlinked.tuned rfl) hclaims e
  refine ⟨world, host, sets, tr₁ ++ tr, World.reaped_of_felled hunlinked htr₁ hall hfelled, hsets,
    fun stack => .head ?_ rfl ((hstart stack (.invoke key e)).trans (hrun stack))⟩
  show some (invoke _ key e) = _
  rw [invoke, on_handlers, hplanted.cascade]

/-- A dispatch of the destruction of links calls the readers before the cascade, the
cascade, and the readers behind it. -/
theorem serves_publish_cascade (hwf : m.world.Wf) (hplanted : m.Planted key claims id)
    (hclaims : m.claims[claims]? = some []) (e : Entity) :
    ∃ world host sets tr, m.world.Reaped e tr world ∧ sets[claims]? = some [] ∧
      m.Serves (.publish id .destroy e) (⟨id, .destroy, e⟩ :: tr)
        { m with world, host, claims := sets } (.reply true) := by
  have hkey : key ∈ m.world.listeners id .destroy :=
    List.count_pos_iff.mp (hplanted.once ▸ Nat.one_pos)
  obtain ⟨before, after, hkeys⟩ := List.append_of_mem hkey
  have honce := hplanted.once
  rw [hkeys, List.count_append, List.count_cons_self] at honce
  -- the cascade is connected once, so the others are readers
  have hreader : ∀ k ∈ before ++ after, k ≠ key := by
    rintro k hk rfl
    rcases List.mem_append.mp hk with hk | hk
    · have := List.count_pos_iff.mpr hk
      omega
    · have := List.count_pos_iff.mpr hk
      omega
  have hworld : World.Undisturbed (fun _ => True) m.world (m.world.snapshot id .destroy).2 :=
    World.undisturbed_snapshot hwf id .destroy
  have htuned := World.tuned_snapshot m.world id .destroy
  obtain ⟨w₀, hw₀⟩ : ∃ w₀, w₀ = (m.world.snapshot id .destroy).2 := ⟨_, rfl⟩
  rw [← hw₀] at hworld htuned
  have hplanted₀ : Planted { m with world := w₀ } key claims id := hplanted.congr htuned rfl
  obtain ⟨host₁, hfirst⟩ := runs_dispatch (m := { m with world := w₀ })
    (fun k hk => hplanted₀.hushed_of_ne (hreader k (List.mem_append_left _ hk)) e) id .destroy
    (key :: after)
  obtain ⟨world, host₂, sets, tr, hreaped, hsets, hcascade⟩ :=
    serves_invoke_cascade (m := { m with world := w₀, host := host₁ }) hworld.wf
      (hplanted.congr htuned rfl) hclaims e
  have hplanted' : Planted { m with world, host := host₂, claims := sets } key claims id :=
    hplanted.congr (htuned.trans hreaped.shed.tuned) rfl
  obtain ⟨host, hlast⟩ := runs_dispatch (m := { m with world, host := host₂, claims := sets })
    (fun k hk => hplanted'.hushed_of_ne (hreader k (List.mem_append_right _ hk)) e) id .destroy []
  rw [List.append_nil] at hlast
  refine ⟨world, host, sets, tr, hreaped.of_undisturbed hworld htuned, hsets, fun stack => ?_⟩
  have hstep : (m.on stack (.publish id .destroy e)).step =
      some (on { m with world := w₀ } (.dispatch id .destroy e (before ++ key :: after) :: stack)
        (.reply true)) := by
    rw [hw₀, ← hkeys]
    rfl
  have hturn : (on { m with world := w₀, host := host₁ }
      (.dispatch id .destroy e (key :: after) :: stack) (.reply true)).step =
      some (on { m with world := w₀, host := host₁ } (.dispatch id .destroy e after :: stack)
        (.invoke key e)) := by
    rw [step_dispatch, if_pos (htuned.board ▸ hplanted.active)]
  have hcalled := hcascade (.dispatch id .destroy e after :: stack)
  have hhandlers := ((hfirst stack).trans (.head hturn rfl hcalled)).trans (hlast stack)
  rw [List.append_nil] at hhandlers
  exact (Runs.of_step hstep).trans (hhandlers.snoc rfl rfl)

/-- The removal of links comes to its end, with its cascade. -/
theorem serves_announce_cascade (hwf : m.world.Wf) (hplanted : m.Planted key claims id)
    (hclaims : m.claims[claims]? = some []) (hfresh : (id, e) ∉ m.world.removing)
    (hrow : m.world.holds id e = true) :
    ∃ world host sets tr, world.Wf ∧ world.holds id e = true ∧
      m.world.Uprooted id e tr (world.erase id e) ∧ sets[claims]? = some [] ∧
      m.Serves (.announce id e) tr { m with world, host, claims := sets } (.reply true) := by
  have hplanted' : (m.whileAnnouncing id e).Planted key claims id :=
    hplanted.congr (World.tuned_with _ _ _) rfl
  obtain ⟨world, host, sets, tr, hreaped, hsets, hserve⟩ :=
    serves_publish_cascade (m := m.whileAnnouncing id e) { hwf with } hplanted' hclaims e
  obtain ⟨hheld, huprooted⟩ := World.uprooted_of_reaped hrow hreaped
  exact ⟨{ world with removing := world.removing.erase (id, e) }, host, sets, _,
    { hreaped.shed.wf with }, hheld, huprooted, hsets,
    serves_announce_of_publish hfresh hrow hserve⟩

end Machine

namespace World

variable {U : Type} [SceneFamily U] [DecidableEq U] {w w' w'' w₁ w₂ : World (Kind U)}
variable {e : Entity} {id : ComponentId} {tr tr₁ tr₂ tr₃ : List Dispatch}

/-! ## What is below is gone -/

/-- Nothing is being destroyed or removed. -/
structure AtRest (w : World (Kind U)) : Prop where
  destroying : ∀ x, w.isDestroying x = false
  removing : w.removing = []

/-- What is below an entity is gone, and its parent has lost it. Nothing else changed. -/
structure Fallen (w : World (Kind U)) (e : Entity) (tr : List Dispatch) (w' : World (Kind U)) :
    Prop where
  shed : Shed (· ≠ .node) (fun _ x => w.Below e x ∧ w.isValid x = true) w tr w'
  rest : w'.AtRest
  valid : ∀ x, w'.isValid x = true ↔ w.isValid x = true ∧ ¬ w.Below e x
  node? : ∀ x, ¬ w.Below e x → w'.node? x = w.unlinkedNode? e x

omit [DecidableEq U] in
theorem AtRest.accepts (h : w.AtRest) {x : Entity} (hx : w.isValid x = true) :
    w.accepts x = true :=
  (accepts_iff w x).mpr ⟨hx, h.destroying x⟩

theorem fallen_of_uprooted (hrest : w.AtRest) (he : w.isValid e = true)
    (h : Uprooted w id e tr w') : Fallen w e tr w' := by
  have hiff : ∀ x, w.Below e x ∧ w.accepts x = true ↔ w.Below e x ∧ w.isValid x = true := by
    intro x
    constructor
    · rintro ⟨hx, ha⟩
      exact ⟨hx, ((accepts_iff w x).mp ha).1⟩
    · rintro ⟨hx, hv⟩
      exact ⟨hx, hrest.accepts hv⟩
  refine
    { shed := h.shed.widen ?_ ?_
      rest :=
        { destroying := fun x => (h.destroying x).trans (hrest.destroying x)
          removing := h.removing.trans hrest.removing }
      valid := fun x => ?_
      node? := h.node? }
  · rintro k x (⟨-, rfl⟩ | ⟨hx, ha, -⟩)
    · exact ⟨.refl w x, he⟩
    · exact (hiff x).mp ⟨hx, ha⟩
  · rintro k x - ⟨hx, hv⟩
    refine .inr ⟨hx, hrest.accepts hv, ?_⟩
    rw [hrest.removing]
    exact List.not_mem_nil
  · rw [h.valid, hiff]
    constructor
    · rintro ⟨hv, hno⟩
      exact ⟨hv, fun hx => hno ⟨hx, hv⟩⟩
    · rintro ⟨hv, hno⟩
      exact ⟨hv, fun hc => hno hc.1⟩

/-- Pools before that of the links have none of them. -/
theorem node?_of_emptied (hid : w.idOf? .node = some id)
    (h : Emptied 0 id (w.beginDestroy e) e tr w') (x : Entity) : w'.node? x = w.node? x := by
  have hstored : w'.stored? .node x = w.stored? .node x := by
    refine h.shed.stored? trivial fun k hk hd => ?_
    have hk' : w.idOf? .node = some k := hk
    rw [hid] at hk'
    exact Nat.lt_irrefl k (Option.some.inj hk' ▸ hd.2.2.1)
  have hvalid : w'.isValid x = w.isValid x := by
    rw [isValid, h.entities]
    exact isValid_beginDestroy w e x
  rw [World.node?, World.node?, get?_eq_stored?, get?_eq_stored?, hvalid, hstored]

section Torn

variable (hrest : w.AtRest) (hid : w.idOf? .node = some id) (hvalid : w.isValid e = true)
variable (h₁ : Emptied 0 id (w.beginDestroy e) e tr₁ w₁) (h₂ : Uprooted w₁ id e tr₂ w₂)
variable (h₃ : Emptied (id + 1) w.pools.size w₂ e tr₃ w')

include hid h₁ in
/-- What is below an entity when its own links are removed was below it before. -/
theorem below_torn (x : Entity) : w₁.Below e x ↔ w.Below e x := by
  refine below_congr (fun y => ?_) e x
  rw [childrenOf, childrenOf, node?_of_emptied hid h₁]

include hrest hvalid h₁ in
theorem isDestroying_torn (x : Entity) : w₁.isDestroying x = true ↔ x = e := by
  rw [isDestroying, h₁.entities]
  refine (isDestroying_beginDestroy (hrest.accepts hvalid) x).trans ?_
  rw [hrest.destroying]
  simp

include hrest hvalid h₁ in
theorem accepts_torn (x : Entity) : w₁.accepts x = true ↔ w.isValid x = true ∧ x ≠ e := by
  have hsame : w₁.isValid x = w.isValid x := by
    rw [isValid, h₁.entities]
    exact isValid_beginDestroy w e x
  rw [accepts_iff, hsame, ← Bool.not_eq_true, isDestroying_torn hrest hvalid h₁]

include hrest hid hvalid h₁ h₂ h₃ in
/-- The entity itself stays to the end. -/
theorem isValid_torn (x : Entity) : w'.isValid x = true ↔
    w.isValid x = true ∧ ¬ (w.Below e x ∧ w.isValid x = true ∧ x ≠ e) := by
  have hsame : w₁.isValid x = w.isValid x := by
    rw [isValid, h₁.entities]
    exact isValid_beginDestroy w e x
  rw [isValid, h₃.entities]
  refine (h₂.valid x).trans ?_
  rw [hsame, below_torn hid h₁, accepts_torn hrest hvalid h₁]

include hrest hid hvalid h₁ h₂ h₃ in
/-- The components of the entity leave pool by pool, but for its links, which their removal
takes, and what is below leaves with these. -/
theorem shed_torn : Shed (· ≠ .node) (fun _ x => w.Below e x ∧ w.isValid x = true)
    (w.beginDestroy e) (tr₁ ++ tr₂ ++ tr₃) w' := by
  have hquiet : (w.beginDestroy e).removing = [] := hrest.removing
  have hquiet₂ : w₂.removing = [] := (h₂.removing.trans h₁.removing).trans hquiet
  have hshed := ((h₁.shed.mono fun _ _ => trivial).trans h₂.shed).trans
    (h₃.shed.mono fun _ _ => trivial)
  refine hshed.widen ?_ ?_
  · rintro k x ((⟨rfl, -⟩ | ⟨-, rfl⟩ | ⟨hx, ha, -⟩) | ⟨rfl, -⟩)
    · exact ⟨.refl w x, hvalid⟩
    · exact ⟨.refl w x, hvalid⟩
    · exact ⟨(below_torn hid h₁ x).mp hx, ((accepts_torn hrest hvalid h₁ x).mp ha).1⟩
    · exact ⟨.refl w x, hvalid⟩
  · rintro k x hrow ⟨hx, hv⟩
    by_cases hxe : x = e
    · -- the entity loses a component before its links, with them, or behind them
      rcases Nat.lt_trichotomy k id with hk | hk | hk
      · refine .inl (.inl ⟨hxe, Nat.zero_le k, hk, ?_⟩)
        rw [hquiet]
        exact List.not_mem_nil
      · exact .inl (.inr (.inl ⟨hk, hxe⟩))
      · refine .inr ⟨hxe, hk, lt_size_of_holds (w := w) hrow, ?_⟩
        rw [hquiet₂]
        exact List.not_mem_nil
    · have hx₁ := (below_torn hid h₁ x).mpr hx
      refine .inl (.inr (.inr ⟨hx₁, (accepts_torn hrest hvalid h₁ x).mpr ⟨hv, hxe⟩, ?_⟩))
      rw [h₁.removing, hquiet]
      exact List.not_mem_nil

include hrest hid hvalid h₁ h₂ h₃ in
/-- An entity that starts to be destroyed, loses the components before its links, these with
their cascade, and the components behind them, and is given up. -/
theorem fallen_of_torn : Fallen w e (tr₁ ++ tr₂ ++ tr₃) (w'.release e) := by
  have hshed := shed_torn hrest hid hvalid h₁ h₂ h₃
  have hvalid' := isValid_torn hrest hid hvalid h₁ h₂ h₃
  have he : w'.isValid e = true := (hvalid' e).mpr ⟨hvalid, fun hc => hc.2.2 rfl⟩
  refine
    { shed :=
        { wf := wf_release hshed.wf e
          tuned := ((tuned_beginDestroy w e).trans hshed.tuned).trans (tuned_release w' e)
          holds := hshed.holds
          stored? := hshed.stored?
          once := hshed.once
          silent := hshed.silent }
      rest :=
        { destroying := fun x => ?_
          removing :=
            ((h₃.removing.trans h₂.removing).trans h₁.removing).trans hrest.removing }
      valid := fun x => ?_
      node? := fun x hx => ?_ }
  · rw [Bool.eq_false_iff, Ne, isDestroying_release he, isDestroying, h₃.entities]
    rintro ⟨hd, hne⟩
    have hd₁ := (h₂.destroying x).symm.trans hd
    exact hne ((isDestroying_torn hrest hvalid h₁ x).mp hd₁)
  · rw [isValid_release he, hvalid']
    constructor
    · rintro ⟨⟨hv, hno⟩, hne⟩
      exact ⟨hv, fun hx => hno ⟨hx, hv, hne⟩⟩
    · rintro ⟨hv, hno⟩
      refine ⟨⟨hv, fun hc => hno hc.1⟩, ?_⟩
      rintro rfl
      exact hno (.refl w x)
  · have hne : x ≠ e := by
      rintro rfl
      exact hx (.refl w x)
    have hstored : w'.stored? .node x = w₂.stored? .node x :=
      h₃.shed.stored? trivial fun _ _ hd => hne hd.1
    have hsame : (w'.release e).isValid x = w₂.isValid x := by
      rw [Bool.eq_iff_iff, isValid_release he, isValid, h₃.entities]
      exact and_iff_left hne
    have hnode := node?_of_emptied hid h₁
    rw [World.node?, get?_eq_stored?, hsame, show (w'.release e).stored? .node x = _ from hstored,
      ← get?_eq_stored?]
    refine (h₂.node? x fun hc => hx ((below_torn hid h₁ x).mp hc)).trans ?_
    rw [unlinkedNode?, unlinkedNode?, parentOf?, parentOf?, hnode, hnode]

end Torn

end World

namespace Machine

variable {U σ : Type} [SceneFamily U] [DecidableEq U] {m m' : Machine U σ}
variable {key : ConnectionKey} {claims : Nat} {id : ComponentId} {e : Entity}

/-- Links are taken, and what was below is gone. -/
theorem performs_take_node (hwf : m.world.Wf) (hrest : m.world.AtRest)
    (hplanted : m.Planted key claims id) (hclaims : m.claims[claims]? = some [])
    (hnode : (m.world.node? e).isSome) :
    ∃ world host sets tr links, m.world.Fallen e tr world ∧ sets[claims]? = some [] ∧
      m.Performs (Task.take .node e) tr { m with world, host, claims := sets } (some links) := by
  have hvalid := World.isValid_of_node? hnode
  have hrow : m.world.holds id e = true := by
    obtain ⟨node, hnode⟩ := Option.isSome_iff_exists.mp hnode
    exact (holds_of_get? hwf hplanted.number hnode).2
  have hfresh : (id, e) ∉ m.world.removing := by
    rw [hrest.removing]
    exact List.not_mem_nil
  obtain ⟨world, host, sets, tr, hwf', hheld, huprooted, hsets, hserve⟩ :=
    serves_announce_cascade hwf hplanted hclaims hfresh hrow
  have hid : world.idOf? .node = some id := by
    have hnumber := huprooted.shed.tuned.idOf? .node
    rw [World.idOf?_erase] at hnumber
    exact hnumber.trans hplanted.number
  rw [hwf'.holds_eq_isSome hid] at hheld
  obtain ⟨links, hlinks⟩ := Option.isSome_iff_exists.mp hheld
  refine ⟨world.erase id e, host, sets, tr, links,
    World.fallen_of_uprooted hrest hvalid huprooted, hsets, ?_⟩
  exact performs_take hplanted.number hvalid hserve hwf' hid hlinks

/-- An entity with links is destroyed, and what was below is gone. -/
theorem serves_destroy_node (hwf : m.world.Wf) (hrest : m.world.AtRest)
    (hplanted : m.Planted key claims id) (hclaims : m.claims[claims]? = some [])
    (hnode : (m.world.node? e).isSome) :
    ∃ world host sets tr, m.world.Fallen e tr world ∧ sets[claims]? = some [] ∧
      m.Serves (.destroy e) tr { m with world, host, claims := sets } (.reply true) := by
  have hvalid := World.isValid_of_node? hnode
  have hrow : m.world.holds id e = true := by
    obtain ⟨node, hnode⟩ := Option.isSome_iff_exists.mp hnode
    exact (holds_of_get? hwf hplanted.number hnode).2
  have hsize : id < m.world.pools.size := World.lt_size_of_holds hrow
  have hother : ∀ {k : ComponentId}, k ≠ id → m.HushedFor k .destroy e := fun hk =>
    hplanted.hushedFor_of_ne (fun hc => hk hc.1) e
  have hbegun := World.tuned_beginDestroy m.world e
  -- the components before the links, of which only readers hear
  obtain ⟨w₁, host₁, tr₁, h₁, hrun₁⟩ :=
    runs_tearing (m := { m with world := m.world.beginDestroy e }) (World.wf_beginDestroy hwf e)
      (Nat.zero_le id) (Nat.le_of_lt hsize) fun k _ hk _ =>
        (hother (Nat.ne_of_lt hk)).congr hbegun rfl rfl
  have htuned₁ := hbegun.trans h₁.shed.tuned
  have hfresh : (id, e) ∉ w₁.removing := by
    rw [h₁.removing, show (m.world.beginDestroy e).removing = [] from hrest.removing]
    exact List.not_mem_nil
  have hrow₁ : w₁.holds id e = true :=
    (h₁.shed.holds id e).mpr ⟨hrow, fun hd => Nat.lt_irrefl id hd.2.2.1⟩
  -- the links, with their cascade
  obtain ⟨w₂, host₂, sets, tr₂, hwf₂, -, h₂, hsets, hserve⟩ :=
    serves_announce_cascade (m := { m with world := w₁, host := host₁ }) h₁.shed.wf
      (hplanted.congr htuned₁ rfl) hclaims hfresh hrow₁
  have htuned₂ := htuned₁.trans h₂.shed.tuned
  have hplanted₂ : Planted { m with world := w₂.erase id e, host := host₂, claims := sets } key
      claims id := hplanted.congr htuned₂ rfl
  have hsize₂ : (w₂.erase id e).pools.size = m.world.pools.size := htuned₂.size_pools
  -- the components behind the links
  obtain ⟨world, host, tr₃, h₃, hrun₃⟩ :=
    runs_tearing (m := { m with world := w₂.erase id e, host := host₂, claims := sets })
      h₂.shed.wf (Nat.succ_le_of_lt hsize) (Nat.le_of_eq hsize₂.symm) fun k hk _ _ =>
        hplanted₂.hushedFor_of_ne (fun hc => Nat.ne_of_gt hk hc.1) e
  refine ⟨world.release e, host, sets, tr₁ ++ tr₂ ++ tr₃,
    World.fallen_of_torn hrest hplanted.number hvalid h₁ h₂ h₃, hsets, fun stack => ?_⟩
  have hfirst := hrun₁ stack
  rw [tearing_of_lt (m := { m with world := w₁, host := host₁ })
    (Nat.lt_of_lt_of_eq hsize htuned₁.size_pools.symm)] at hfirst
  have hlinks : (on { m with world := w₁, host := host₁ } (.teardown e id :: stack)
      (.announce id e)).Runs tr₂
      (tearing { m with world := w₂.erase id e, host := host₂, claims := sets } stack e (id + 1)) :=
    (hserve _).snoc (step_tearing (m := { m with world := w₂, host := host₂, claims := sets }) hwf₂
      stack e id true) rfl
  have hlast := tearing_of_size_le (m := { m with world, host, claims := sets })
    (Nat.le_of_eq (h₃.shed.tuned.size_pools.trans hsize₂)) stack e
  refine .head (step_destroy_of_accepts (hrest.accepts hvalid) stack) rfl ?_
  exact hlast ▸ (hfirst.trans hlinks).trans (hrun₃ stack)

end Machine

/-! ## Between two calls -/

/-- What child links lead to from an entity is gone, and each component of it was announced
once. All others have the components that they had, but for the parent of the entity, which
lists it no more. -/
structure World.Collapsed {U : Type} [SceneFamily U] [DecidableEq U] (w : World (Kind U))
    (e : Entity) (tr : List Dispatch) (w' : World (Kind U)) : Prop where
  settled : w'.Settled
  valid : ∀ x, w'.isValid x = true ↔ w.isValid x = true ∧ ¬ w.Below e x
  once : ∀ {id : ComponentId} {x : Entity}, w.Below e x → w.holds id x = true →
    tr.count ⟨id, .destroy, x⟩ = 1
  silent : ∀ {id : ComponentId} {x : Entity}, ¬ (w.Below e x ∧ w.holds id x = true) →
    tr.count ⟨id, .destroy, x⟩ = 0
  get? : ∀ {kind : Kind U} {x : Entity}, kind ≠ .node → ¬ w.Below e x →
    w'.get? kind x = w.get? kind x
  node? : ∀ {x : Entity}, ¬ w.Below e x → w'.node? x =
    if w.parentOf? e = some x then (w.node? x).map (·.dropChild e) else w.node? x

namespace World

variable {U : Type} [SceneFamily U] [DecidableEq U] {w w' w'' : World (Kind U)}
variable {e : Entity} {tr tr' : List Dispatch}

/-- In a world that is settled, what is gone is gone with all its rows. -/
theorem Fallen.collapsed (hwf : w.Wf) (hsettled : w.Settled) (h : Fallen w e tr w') :
    Collapsed w e tr w' := by
  have hvalid : ∀ {k : ComponentId} {x : Entity}, w.holds k x = true → w.isValid x = true := by
    intro k x hrow
    exact ((accepts_iff w x).mp (hsettled.accepts hwf hrow)).1
  refine
    { settled :=
        { removing := h.rest.removing
          destroying := h.rest.destroying
          rows := fun {k pool x} hpool hx => ?_ }
      valid := h.valid
      once := fun hx hrow => h.shed.once hrow ⟨hx, hvalid hrow⟩
      silent := fun hno => h.shed.silent fun hrow hx => hno ⟨hx.1, hrow⟩
      get? := fun {kind x} hkind hx => ?_
      node? := fun {x} hx => h.node? x hx }
  · have hrow := (h.shed.wf.holds_iff_mem hpool x).mpr hx
    obtain ⟨hrow, hno⟩ := (h.shed.holds k x).mp hrow
    have hv := hvalid hrow
    exact h.rest.accepts ((h.valid x).mpr ⟨hv, fun hb => hno ⟨hb, hv⟩⟩)
  · have hsame : w'.isValid x = w.isValid x := by
      rw [Bool.eq_iff_iff, h.valid]
      exact and_iff_left hx
    rw [get?_eq_stored?, get?_eq_stored?, hsame, h.shed.stored? hkind fun _ _ hc => hx hc.1]

/-- What is left does not depend on how it was asked for. -/
theorem Collapsed.same (h : Collapsed w e tr w') (h' : Collapsed w e tr' w'') :
    (∀ x, w''.isValid x = w'.isValid x) ∧ ∀ kind x, w''.get? kind x = w'.get? kind x := by
  have hvalid : ∀ x, w''.isValid x = w'.isValid x := fun x => by
    rw [Bool.eq_iff_iff, h'.valid, h.valid]
  refine ⟨hvalid, fun kind x => ?_⟩
  by_cases hx : w.Below e x
  · have hgone : w'.isValid x = false := by
      rw [Bool.eq_false_iff, Ne, h.valid]
      exact fun hc => hc.2 hx
    rw [get?_of_not_isValid _ hgone, get?_of_not_isValid _ ((hvalid x).trans hgone)]
  · by_cases hkind : kind = .node
    · subst hkind
      exact (h'.node? hx).trans (h.node? hx).symm
    · rw [h'.get? hkind hx, h.get? hkind hx]

end World

namespace Machine

variable {U σ : Type} [SceneFamily U] [DecidableEq U] {m : Machine U σ}
variable {key : ConnectionKey} {claims : Nat} {id : ComponentId} {e : Entity}

/-- Between two calls: the world is settled, there is one cascade among readers, and it has
claimed nothing. -/
structure Ready (m : Machine U σ) (key : ConnectionKey) (claims : Nat) (id : ComponentId) :
    Prop where
  wf : m.world.Wf
  settled : m.world.Settled
  planted : m.Planted key claims id
  unclaimed : m.claims[claims]? = some []

/-- After a cascade the next one can come. -/
theorem Ready.of_fallen (h : m.Ready key claims id) {w : World (Kind U)} {host : σ}
    {sets : Array (List Entity)} {tr : List Dispatch} (hfallen : m.world.Fallen e tr w)
    (hsets : sets[claims]? = some []) :
    Ready { m with world := w, host, claims := sets } key claims id :=
  { wf := hfallen.shed.wf
    settled := (hfallen.collapsed h.wf h.settled).settled
    planted := h.planted.congr hfallen.shed.tuned rfl
    unclaimed := hsets }

/-- **Cascades are exact.** Between two calls, with one cascade and readers, the links may be
any at all. To destroy an entity with links takes along what child links lead to, with one
announcement for each component, and nothing else; to take or to remove its links leaves the
same behind. Afterwards the next call can come. -/
theorem cascades_take_what_is_below {node : TreeNode} (h : m.Ready key claims id)
    (hnode : m.world.node? e = some node) :
    ∃ (destroyed taken : Machine U σ) (tr tr' : List Dispatch) (links : TreeNode),
      m.Performs (Task.destroy e) tr destroyed true ∧
      m.Performs (Task.take .node e) tr' taken (some links) ∧
      m.Performs (Task.remove .node e) tr' taken true ∧
      m.world.Collapsed e tr destroyed.world ∧ m.world.Collapsed e tr' taken.world ∧
      (∀ x, taken.world.isValid x = destroyed.world.isValid x) ∧
      (∀ kind x, taken.world.get? kind x = destroyed.world.get? kind x) ∧
      destroyed.Ready key claims id ∧ taken.Ready key claims id := by
  have hrest : m.world.AtRest :=
    { destroying := h.settled.destroying, removing := h.settled.removing }
  have hsome : (m.world.node? e).isSome := by rw [hnode]; rfl
  obtain ⟨w₁, host₁, sets₁, tr, hfallen₁, hsets₁, hdestroy⟩ :=
    serves_destroy_node h.wf hrest h.planted h.unclaimed hsome
  obtain ⟨w₂, host₂, sets₂, tr', links, hfallen₂, hsets₂, htake⟩ :=
    performs_take_node h.wf hrest h.planted h.unclaimed hsome
  have hcollapsed₁ := hfallen₁.collapsed h.wf h.settled
  have hcollapsed₂ := hfallen₂.collapsed h.wf h.settled
  obtain ⟨hvalid, hget⟩ := hcollapsed₁.same hcollapsed₂
  refine ⟨{ m with world := w₁, host := host₁, claims := sets₁ },
    { m with world := w₂, host := host₂, claims := sets₂ }, tr, tr', links,
    performs_destroy hdestroy, htake, fun stack next => ?_, hcollapsed₁, hcollapsed₂, hvalid,
    hget, h.of_fallen hfallen₁ hsets₁, h.of_fallen hfallen₂ hsets₂⟩
  -- a removal is a take whose answer is only looked at
  exact htake stack fun old => next old.isSome

end Machine

/-- Three nodes. The child links of the first go round in a circle with the third, are
repeated and do not lead to its parent, the second, which lists both of them. -/
def circle : Script Empty Unit :=
  Task.toScript do
    Task.cascade
    let a ← Task.create
    let b ← Task.create
    let c ← Task.create
    let _ ← Task.emplace .node a (.ok { parent := b, children := [c, c] })
    let _ ← Task.emplace .node b (.ok { children := [a, c, a] })
    let _ ← Task.emplace .node c (.ok { parent := a, children := [a] })

/-- The set of claims of a cascade. -/
def Handler.claims? {U σ : Type} [SceneFamily U] : Handler U σ → Option Nat
  | .script _ => none
  | .cascade claims => some claims

/-- The first handler is a cascade, and there is no other. -/
theorem Machine.planted_of_alone {U σ : Type} [SceneFamily U] [DecidableEq U]
    {m : Machine U σ} {claims : Nat} {id : ComponentId}
    (hclaims : m.handlers[0]?.bind Handler.claims? = some claims) (hsize : m.handlers.size = 1)
    (hnumber : m.world.idOf? .node = some id) (honce : (m.world.listeners id .destroy).count 0 = 1)
    (helsewhere : ∀ j < m.world.pools.size, ∀ event ∈ [LifeEvent.construct, .update, .destroy],
      0 ∈ m.world.listeners j event → j = id ∧ event = .destroy)
    (hactive : m.world.board.isActive 0 = true) : m.Planted 0 claims id := by
  obtain ⟨handler, hhandler, hcascade⟩ := Option.bind_eq_some_iff.mp hclaims
  refine
    { number := hnumber
      cascade := ?_
      readers := fun {k handler} hk hhandler => ?_
      once := honce
      elsewhere := fun {j event} hkey => ?_
      active := hactive }
  · cases handler with
    | script body => cases hcascade
    | cascade claims =>
      cases hcascade
      exact hhandler
  · have hlt := (Array.getElem?_eq_some_iff.mp hhandler).1
    rw [hsize] at hlt
    exact absurd (Nat.lt_one_iff.mp hlt) hk
  · by_cases hj : j < m.world.pools.size
    · exact helsewhere j hj event (by cases event <;> decide) hkey
    · rw [World.listeners_of_size_le (Nat.le_of_not_lt hj)] at hkey
      cases hkey

theorem Machine.planted_circle : ((start () circle).run 19).Planted 0 0 0 :=
  planted_of_alone (by decide +kernel) (by decide +kernel) (by decide +kernel) (by decide +kernel)
    (by decide +kernel) (by decide +kernel)

theorem Machine.ready_circle : ((start () circle).run 19).Ready 0 0 0 := by
  have hsound := sound_run () circle (n := 19) (by decide +kernel)
  exact
    { wf := hsound.wf
      settled := hsound.settled (by decide +kernel)
      planted := planted_circle
      unclaimed := by decide +kernel }

/-- The first node of the circle is destroyed, and takes the third along. -/
theorem Machine.cascades_take_what_is_below_circle :
    ∃ (destroyed : Machine Empty Unit) (tr : List Dispatch),
      ((start () circle).run 19).Performs (Task.destroy ⟨0, .initial⟩) tr destroyed true ∧
      ((start () circle).run 19).world.Collapsed ⟨0, .initial⟩ tr destroyed.world ∧
      destroyed.world.isValid ⟨2, .initial⟩ = false := by
  have hlinks : ((start () circle).run 19).world.node? ⟨0, .initial⟩ =
      some { parent := ⟨1, .initial⟩, children := [⟨2, .initial⟩, ⟨2, .initial⟩] } := by
    decide +kernel
  obtain ⟨destroyed, _, tr, _, _, hdestroy, -, -, hcollapsed, -⟩ :=
    cascades_take_what_is_below ready_circle hlinks
  refine ⟨destroyed, tr, hdestroy, hcollapsed, ?_⟩
  have hbelow : ((start () circle).run 19).world.Below ⟨0, .initial⟩ ⟨2, .initial⟩ := by
    refine (World.Below.refl _ _).child ?_
    rw [World.childrenOf, hlinks]
    exact List.mem_cons_self
  rw [Bool.eq_false_iff, Ne, hcollapsed.valid]
  exact fun hc => hc.2 hbelow

end EntityScene
