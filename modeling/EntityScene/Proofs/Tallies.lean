import EntityScene.Proofs.Rosters
import EntityScene.Proofs.Forests
import EntityScene.Proofs.Endings

/-!
# What clearing counts

`Task.clear` goes through the entities by index and counts the calls that answer that they destroyed
one. What a cascade has taken along by then is not destroyed by a call of `Task.clear`, and not
counted. So in a scene with one cascade among readers everybody is destroyed, and counted are those
to whom no links lead down from an entity with a smaller index.

- `World.Lost`: somebody of a list leads down to the entity.
- `World.Cleared`: what is left when the entities of a list were destroyed one by one.
- `World.Overtaken`: an entity with a smaller index leads down to the entity.
- `serves_destroy_fallen`: the destruction of any entity at rest, with links or without.
- `performs_destroyAll_cleared`: what a list leaves behind, and whom it counts.
- `clear_counts_who_was_not_overtaken`, and `clear_misses_the_cascades`, where the answer is too
  small.
-/

namespace EntityScene

namespace World

variable {U : Type} [SceneFamily U] [DecidableEq U] {w w' w'' : World (Kind U)}
variable {past ahead : List Entity} {e x : Entity} {tr : List Dispatch}

/-- Child links lead down to the entity from somebody of a list. -/
def Lost (w : World (Kind U)) (past : List Entity) (x : Entity) : Prop :=
  ∃ a ∈ past, w.Below a x

/-- Child links lead down to the entity from one with a smaller index. -/
def Overtaken (w : World (Kind U)) (x : Entity) : Prop :=
  ∃ a, w.isValid a = true ∧ a.index < x.index ∧ w.Below a x

theorem Lost.child {y : Entity} (h : w.Lost past x) (hy : y ∈ w.childrenOf x) :
    w.Lost past y := by
  obtain ⟨a, ha, hbelow⟩ := h
  exact ⟨a, ha, hbelow.child hy⟩

theorem lost_append_singleton : w.Lost (past ++ [e]) x ↔ w.Lost past x ∨ w.Below e x := by
  constructor
  · rintro ⟨a, ha, hbelow⟩
    rcases List.mem_append.mp ha with ha | ha
    · exact .inl ⟨a, ha, hbelow⟩
    · exact .inr (List.mem_singleton.mp ha ▸ hbelow)
  · rintro (⟨a, ha, hbelow⟩ | hbelow)
    · exact ⟨a, List.mem_append_left _ ha, hbelow⟩
    · exact ⟨e, List.mem_append_right _ (List.mem_singleton_self e), hbelow⟩

/-- By index, who comes before an entity is who has a smaller one. -/
theorem lost_iff_overtaken (hwf : w.Wf) (hlist : past ++ e :: ahead = w.handles) :
    w.Lost past e ↔ w.Overtaken e := by
  have hmem : ∀ a, a ∈ past ++ e :: ahead ↔ w.isValid a = true :=
    fun a => hlist ▸ Entity.Table.mem_toList_iff hwf.table
  have hsorted : (past ++ e :: ahead).Pairwise (·.index < ·.index) :=
    hlist ▸ Entity.Table.pairwise_toList hwf.table
  obtain ⟨-, htail, hacross⟩ := List.pairwise_append.mp hsorted
  constructor
  · rintro ⟨a, ha, hbelow⟩
    exact ⟨a, (hmem a).mp (List.mem_append_left _ ha), hacross a ha e List.mem_cons_self, hbelow⟩
  · rintro ⟨a, hvalid, hindex, hbelow⟩
    refine ⟨a, ?_, hbelow⟩
    rcases List.mem_append.mp ((hmem a).mpr hvalid) with ha | ha
    · exact ha
    · exfalso
      rcases List.mem_cons.mp ha with rfl | ha
      · exact absurd hindex (UInt32.lt_irrefl _)
      · exact absurd hindex (UInt32.lt_asymm ((List.pairwise_cons.mp htail).1 a ha))

omit [DecidableEq U] in
theorem length_handles (hwf : w.Wf) : w.handles.length = w.aliveCount :=
  Entity.Table.length_toList.trans hwf.table.live_eq

omit [DecidableEq U] in
theorem aliveCount_eq_zero (hwf : w.Wf) (h : ∀ x, w.isValid x = false) : w.aliveCount = 0 := by
  rw [← length_handles hwf, List.length_eq_zero_iff, List.eq_nil_iff_forall_not_mem]
  intro x hx
  have hvalid := (Entity.Table.mem_toList_iff hwf.table).mp hx
  exact absurd hvalid (Bool.eq_false_iff.mp (h x))

/-- The entities of a list were destroyed, and what links led down to from them. The links between
the others are as they were. -/
structure Cleared (w : World (Kind U)) (past : List Entity) (w' : World (Kind U)) : Prop where
  wf : w'.Wf
  rest : w'.AtRest
  valid : ∀ x, w'.isValid x = true ↔ w.isValid x = true ∧ ¬ w.Lost past x
  children : ∀ {x y}, ¬ w.Lost past y → (y ∈ w'.childrenOf x ↔ y ∈ w.childrenOf x)

namespace Cleared

theorem refl (hwf : w.Wf) (hrest : w.AtRest) : Cleared w [] w :=
  { wf := hwf
    rest := hrest
    valid := fun _ => (and_iff_left fun ⟨_, ha, _⟩ => absurd ha List.not_mem_nil).symm
    children := fun _ => .rfl }

/-- Down to who is left the links are as they were. -/
theorem below_iff (h : Cleared w past w') (hx : ¬ w.Lost past x) :
    w'.Below e x ↔ w.Below e x := by
  constructor
  · intro hbelow
    induction hbelow with
    | refl => exact .refl w e
    | tail _ hy ih =>
      have hy' := (h.children hx).mp hy
      exact (ih fun hlost => hx (hlost.child hy')).child hy'
  · intro hbelow
    induction hbelow with
    | refl => exact .refl w' e
    | tail _ hy ih =>
      exact (ih fun hlost => hx (hlost.child hy)).child ((h.children hx).mpr hy)

/-- An entity of the list that is gone already changes nothing. -/
theorem pass (h : Cleared w past w') (hlost : w.Lost past e) : Cleared w (past ++ [e]) w' := by
  have hsame : ∀ x, w.Lost (past ++ [e]) x ↔ w.Lost past x := by
    obtain ⟨a, ha, hbelow⟩ := hlost
    refine fun x => lost_append_singleton.trans (or_iff_left_of_imp fun hx => ?_)
    exact ⟨a, ha, hbelow.trans hx⟩
  exact
    { wf := h.wf
      rest := h.rest
      valid := fun x => (h.valid x).trans (and_congr_right fun _ => not_congr (hsame x).symm)
      children := fun hy => h.children fun hc => hy ((hsame _).mpr hc) }

/-- The next entity of the list is destroyed. -/
theorem fell (h : Cleared w past w') (hfallen : w'.Fallen e tr w'') :
    Cleared w (past ++ [e]) w'' := by
  refine
    { wf := hfallen.shed.wf
      rest := hfallen.rest
      valid := fun x => ?_
      children := fun {x y} hy => ?_ }
  · rw [hfallen.valid, h.valid, lost_append_singleton, not_or, and_assoc]
    exact and_congr_right fun _ => and_congr_right fun hx => not_congr (h.below_iff hx)
  · rw [lost_append_singleton, not_or] at hy
    obtain ⟨hlost, hbelow⟩ := hy
    rw [← h.children hlost]
    by_cases hx : w'.Below e x
    · -- who is gone has no children, and had none that are left
      have hgone : w''.isValid x ≠ true := fun hv => ((hfallen.valid x).mp hv).2 hx
      refine iff_of_false (fun hc => hgone ?_) fun hc => hbelow ?_
      · exact (mem_childrenOf_iff.mp hc).1
      · exact (h.below_iff hlost).mp (hx.child hc)
    · have hne : y ≠ e := fun heq => hbelow (heq ▸ .refl w e)
      rw [childrenOf, hfallen.node? x hx, unlinkedNode?, childrenOf]
      split
      · cases w'.node? x with
        | none => rfl
        | some node => simp [TreeNode.dropChild, hne]
      · rfl

end Cleared

/-- An entity without links takes nobody along. -/
theorem fallen_of_purged (hrest : w.AtRest) (hwf : w.Wf) (hvalid : w.isValid e = true)
    (hnode : w.node? e = none) (h : Purged w e tr w') : Fallen w e tr w' := by
  have hchildless : w.childrenOf e = [] := by rw [childrenOf, hnode]; rfl
  have hbelow : ∀ x, w.Below e x ↔ x = e := fun x =>
    ⟨fun hx => hx.eq_of_childless hchildless, fun hx => hx ▸ .refl w e⟩
  have hgone : ∀ k x, x = e ∧ (k, e) ∉ w.removing ↔ w.Below e x ∧ w.isValid x = true := by
    intro k x
    rw [hbelow, hrest.removing]
    refine and_congr_right fun hx => iff_of_true List.not_mem_nil ?_
    exact hx.symm ▸ hvalid
  have hparent : w.parentOf? e = none := by rw [parentOf?, hnode]; rfl
  refine
    { shed := (h.shed.mono fun _ _ => trivial).widen (hgone _ _).mp fun _ => (hgone _ _).mpr
      rest := ⟨fun x => ?_, h.removing.trans hrest.removing⟩
      valid := fun x => by rw [h.valid, hbelow]
      node? := fun x _ => ?_ }
  · rw [Bool.eq_false_iff, Ne, h.destroying, hrest.destroying x]
    exact fun hc => Bool.false_ne_true hc.1
  · rw [node?, h.get?_of_none hwf hvalid hnode, unlinkedNode?, hparent]
    rfl

end World

namespace Machine

variable {U σ : Type} [SceneFamily U] [DecidableEq U] {m : Machine U σ}
variable {key : ConnectionKey} {claims : Nat} {id : ComponentId} {e : Entity}

/-! ## One destruction after the other -/

/-- At rest, whoever is there can be destroyed, with links or without. -/
theorem serves_destroy_fallen (h : m.Standing key claims id) (hrest : m.world.AtRest)
    (hvalid : m.world.isValid e = true) :
    ∃ m' tr, m.world.Fallen e tr m'.world ∧ m'.Standing key claims id ∧
      m.Serves (.destroy e) tr m' (.reply true) := by
  by_cases hnode : (m.world.node? e).isSome
  · obtain ⟨world, host, sets, tr, hfallen, hsets, hserve⟩ :=
      serves_destroy_node h.wf hrest h.planted h.unclaimed hnode
    exact ⟨{ m with world, host, claims := sets }, tr, hfallen,
      { wf := hfallen.shed.wf
        planted := h.planted.congr hfallen.shed.tuned rfl
        unclaimed := hsets }, hserve⟩
  · -- without links only readers hear of the removals
    rw [Option.not_isSome_iff_eq_none] at hnode
    have hhush : ∀ j, m.world.holds j e = true → m.HushedFor j .destroy e := by
      intro j hrow
      refine h.planted.hushedFor_of_ne ?_ e
      rintro ⟨rfl, -⟩
      rw [h.wf.holds_eq_isSome h.planted.number, ← World.get?_of_isValid hvalid] at hrow
      rw [World.node?] at hnode
      rw [hnode] at hrow
      cases hrow
    obtain ⟨world, host, tr, hpurged, hserve⟩ := serves_destroy h.wf (hrest.accepts hvalid) hhush
    exact ⟨{ m with world, host }, tr, World.fallen_of_purged hrest h.wf hvalid hnode hpurged,
      h.of_tuned host hpurged.shed.wf hpurged.shed.tuned, hserve⟩

/-- The next entity of a list of all is destroyed by this call, unless it was overtaken. -/
theorem serves_destroy_next {w : World (Kind U)} (hwf : w.Wf) {past ahead : List Entity}
    (hlist : past ++ e :: ahead = w.handles) (h : m.Standing key claims id)
    (hcleared : w.Cleared past m.world) :
    ∃ m' tr b, m'.Standing key claims id ∧ w.Cleared (past ++ [e]) m'.world ∧
      (b = true ↔ ¬ w.Overtaken e) ∧ m.Serves (.destroy e) tr m' (.reply b) := by
  have hmem : e ∈ w.handles := by
    rw [← hlist]
    exact List.mem_append_right past List.mem_cons_self
  have hvalid : w.isValid e = true := (Entity.Table.mem_toList_iff hwf.table).mp hmem
  have hthere : m.world.isValid e = true ↔ ¬ w.Overtaken e := by
    rw [hcleared.valid, World.lost_iff_overtaken hwf hlist]
    exact and_iff_right hvalid
  by_cases hovertaken : w.Overtaken e
  · have hrefused : m.world.accepts e = false := by
      rw [Bool.eq_false_iff]
      exact fun hc => hthere.mp ((World.accepts_iff _ _).mp hc).1 hovertaken
    exact ⟨m, [], false, h, hcleared.pass ((World.lost_iff_overtaken hwf hlist).mpr hovertaken),
      iff_of_false Bool.false_ne_true (not_not_intro hovertaken), serves_destroy_refused hrefused⟩
  · obtain ⟨m', tr, hfallen, h', hserve⟩ :=
      serves_destroy_fallen h hcleared.rest (hthere.mpr hovertaken)
    exact ⟨m', tr, true, h', hcleared.fell hfallen, iff_of_true rfl hovertaken, hserve⟩

/-- Of the rest of a list of all, those are counted that were not overtaken. -/
theorem performs_destroyAll_cleared {w : World (Kind U)} [DecidablePred w.Overtaken] (hwf : w.Wf)
    {past es : List Entity} (hlist : past ++ es = w.handles) (h : m.Standing key claims id)
    (hcleared : w.Cleared past m.world) :
    ∃ m' tr, m'.Standing key claims id ∧ w.Cleared (past ++ es) m'.world ∧
      m.Performs (Task.destroyAll es) tr m' (es.countP fun e => ¬ w.Overtaken e) := by
  induction es generalizing m past with
  | nil => exact ⟨m, [], h, (List.append_nil past).symm ▸ hcleared, .pure m 0⟩
  | cons e es ih =>
    have hsplit : past ++ e :: es = past ++ [e] ++ es := List.append_cons past e es
    obtain ⟨m₁, tr₁, b, h₁, hcleared₁, hb, hserve⟩ := serves_destroy_next hwf hlist h hcleared
    obtain ⟨m', tr', h', hcleared', hrest⟩ := ih (hsplit.symm.trans hlist) h₁ hcleared₁
    refine ⟨m', tr₁ ++ (tr' ++ []), h', hsplit.symm ▸ hcleared', ?_⟩
    have hcount : (e :: es).countP (fun e => ¬ w.Overtaken e) =
        if b then es.countP (fun e => ¬ w.Overtaken e) + 1
        else es.countP fun e => ¬ w.Overtaken e := by
      simp only [List.countP_cons, decide_eq_true_eq, ← hb]
      cases b <;> rfl
    rw [hcount]
    exact (performs_destroy hserve).bind (hrest.bind (.pure m' _))

/-- All are destroyed, and those are counted that were not overtaken. -/
theorem performs_clear [DecidablePred m.world.Overtaken] (h : m.Standing key claims id)
    (hrest : m.world.AtRest) :
    ∃ m' tr, m'.Standing key claims id ∧ m'.world.AtRest ∧ (∀ e, m'.world.isValid e = false) ∧
      m.Performs Task.clear tr m' (m.world.handles.countP fun e => ¬ m.world.Overtaken e) := by
  have hlist : [] ++ m.world.handles = m.world.handles := rfl
  obtain ⟨m', tr, h', hcleared, hperforms⟩ :=
    performs_destroyAll_cleared h.wf hlist h (.refl h.wf hrest)
  refine ⟨m', tr, h', hcleared.rest, fun e => ?_, .look hperforms⟩
  rw [Bool.eq_false_iff, Ne, hcleared.valid]
  rintro ⟨hvalid, hspared⟩
  exact hspared ⟨e, (Entity.Table.mem_toList_iff h.wf.table).mpr hvalid, .refl _ e⟩

/-- **Clearing counts who was not overtaken.** Where nothing is being destroyed, with one cascade
among readers, and whatever the links are, `Task.clear` comes to an end and destroys everybody.
It answers the number of entities to which no links lead down from one with a smaller index, which
is the number of those destroyed exactly if there are no such links. -/
theorem clear_counts_who_was_not_overtaken [DecidablePred m.world.Overtaken]
    (h : m.Standing key claims id) (hrest : m.world.AtRest) :
    ∃ m' tr, m'.Standing key claims id ∧ m'.world.AtRest ∧ (∀ e, m'.world.isValid e = false) ∧
      m.Performs Task.clear tr m' (m.world.handles.countP fun e => ¬ m.world.Overtaken e) ∧
      (m.world.handles.countP (fun e => ¬ m.world.Overtaken e) =
          m.world.aliveCount - m'.world.aliveCount ↔
        ∀ e, m.world.isValid e = true → ¬ m.world.Overtaken e) := by
  obtain ⟨m', tr, h', hrest', hgone, hperforms⟩ := performs_clear h hrest
  refine ⟨m', tr, h', hrest', hgone, hperforms, ?_⟩
  rw [World.aliveCount_eq_zero h'.wf hgone, Nat.sub_zero, ← World.length_handles h.wf,
    List.countP_eq_length]
  refine forall_congr' fun e => ?_
  rw [World.handles, Entity.Table.mem_toList_iff h.wf.table, decide_eq_true_eq]
  exact .rfl

end Machine

/-- A node and its child, and a node that was linked under a younger one. -/
def families : Script Empty Unit :=
  Task.toScript do
    Task.cascade
    let a ← Task.spawnNode
    let _ ← Task.spawnChild a
    let c ← Task.spawnNode
    let d ← Task.spawnNode
    let _ ← Task.appendChild d c

/-- The machine in which the four are there. -/
def settled : Machine Empty Unit := (Machine.start () families).run 65

/-- Of four entities three are counted. The one that is missing has an older parent. -/
theorem Machine.clear_counts_who_was_not_overtaken_families :
    settled.world.aliveCount = 4 ∧ settled.world.Overtaken ⟨1, .initial⟩ ∧
      ∃ m' tr, settled.Performs Task.clear tr m' 3 ∧ ∀ e, m'.world.isValid e = false := by
  classical
  have hsound := sound_run () families (n := 65) (by decide +kernel)
  have hrested := hsound.settled (by decide +kernel)
  have hstanding : settled.Standing 0 0 0 :=
    { wf := hsound.wf
      planted := planted_of_alone (by decide +kernel) (by decide +kernel) (by decide +kernel)
        (by decide +kernel) (by decide +kernel) (by decide +kernel)
      unclaimed := by decide +kernel }
  obtain ⟨m', tr, -, -, hgone, hperforms, -⟩ := clear_counts_who_was_not_overtaken hstanding
    ⟨hrested.destroying, hrested.removing⟩
  have hanswer := hperforms.answer_of_run (p := (· == 3)) (n := 100) (by decide +kernel)
  refine ⟨by decide +kernel, ⟨⟨0, .initial⟩, by decide +kernel, by decide, ?_⟩, m', tr, ?_, hgone⟩
  · exact (World.Below.refl _ _).child (by decide +kernel)
  · exact eq_of_beq hanswer ▸ hperforms

/-- A node and its child. -/
def brood : Script Empty Unit :=
  Task.toScript do
    Task.cascade
    let a ← Task.spawnNode
    let _ ← Task.spawnChild a

/-- Two nodes are destroyed, and one is counted: the cascade of the first takes the other along. -/
theorem Machine.clear_misses_the_cascades :
    let m := (start () brood).run 34
    m.Standing 0 0 0 ∧ m.world.AtRest ∧ m.world.Forest ∧ m.world.aliveCount = 2 ∧
      ∃ m' tr, m.Performs Task.clear tr m' 1 ∧ m'.world.aliveCount = 0 := by
  classical
  intro m
  have hsound := sound_run () brood (n := 34) (by decide +kernel)
  have hrested := hsound.settled (by decide +kernel)
  have hrest : m.world.AtRest := ⟨hrested.destroying, hrested.removing⟩
  have hstanding : m.Standing 0 0 0 :=
    { wf := hsound.wf
      planted := planted_of_alone (by decide +kernel) (by decide +kernel) (by decide +kernel)
        (by decide +kernel) (by decide +kernel) (by decide +kernel)
      unclaimed := by decide +kernel }
  have hforest := World.forest_of_flat hsound.wf hrested (by decide +kernel) (by decide +kernel)
  obtain ⟨m', tr, h', -, hgone, hperforms⟩ := performs_clear hstanding hrest
  have hanswer := hperforms.answer_of_run (p := (· == 1)) (n := 60) (by decide +kernel)
  refine ⟨hstanding, hrest, hforest, by decide +kernel, m', tr, ?_,
    World.aliveCount_eq_zero h'.wf hgone⟩
  exact eq_of_beq hanswer ▸ hperforms

end EntityScene
