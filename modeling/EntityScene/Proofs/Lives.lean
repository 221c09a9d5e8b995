import EntityScene.Proofs.Turnover
import EntityScene.Proofs.Rosters

/-!
# The life of a handle

A handle is issued once. From then on it is valid, up to the step at which the destruction that
was accepted for it gives it up, and never again. Handlers may create and destroy in the middle
of all this, calls may be abandoned, and storages may be edited directly.

- `Machine.issues`, `Machine.releases`: who was issued, and how often an index was given up.
- `Table.Tallied`: the handles of a table, and what was issued and given up.
- `Machine.Turnover.isValid_iff`, `.isDestroying`: what a step does to who is valid, and to who is
  being destroyed.
- `Machine.wf_entities_run`: the table stays in order, whatever is run.
- `Machine.Populated`, `populated_run`: so it is throughout every run.
- `isValid_run_iff`: a handle is valid once it was issued, and until it is given up.
- `exists_accepted`: whoever is destroyed, some call was accepted for that and goes on.
- `handles_die_once`: what this says about all runs.
-/

namespace EntityScene

/-! ## Tables and their history -/

namespace Entity.Table

variable {t t' : Table} {e : Entity} {issued : List Entity} {freed : UInt32 → Nat}

/-- Live handles were issued, and an index was issued as often as it was given up, but for the
handle that is live. -/
structure Tallied (t : Table) (issued : List Entity) (freed : UInt32 → Nat) : Prop where
  wf : t.Wf
  entered : ∃ count, t.Entered issued count
  live : ∀ e, t.isAlive e = true → e ∈ issued
  balance : ∀ i, issued.countP (·.index == i) = freed i + t.toList.countP (·.index == i)

theorem tallied_empty : Tallied empty [] fun _ => 0 :=
  { wf := wf_empty
    entered := ⟨_, entered_empty⟩
    live := fun e he => by simp [isAlive, state?, slot?, empty] at he
    balance := fun i => rfl }

namespace Tallied

/-- If no index was given up too often, none was issued too often. -/
theorem countP_issued_le (h : t.Tallied issued freed) (hlt : ∀ i, freed i < 2 ^ 32)
    (i : UInt32) : issued.countP (·.index == i) ≤ 2 ^ 32 := by
  have hbalance := h.balance i
  have hone := countP_index_toList_le_one h.wf i
  have hi := hlt i
  omega

/-- An index that waits to be used again has no live handle. -/
theorem countP_cons_le (h : t.Tallied issued freed) (halloc : t.allocate = (.ok e, t'))
    (hlt : ∀ i, freed i < 2 ^ 32) (i : UInt32) :
    (e :: issued).countP (·.index == i) ≤ 2 ^ 32 := by
  rw [List.countP_cons]
  split
  · rename_i hindex
    have hnone : t.toList.countP (·.index == i) = 0 := by
      rw [List.countP_eq_zero]
      intro x hx hxi
      exact index_ne_of_allocate h.wf halloc hx ((eq_of_beq hxi).trans (eq_of_beq hindex).symm)
    have hbalance := h.balance i
    have hi := hlt i
    omega
  · exact h.countP_issued_le hlt i

/-- Nobody is issued twice. -/
theorem not_mem_issued (h : t.Tallied issued freed) (halloc : t.allocate = (.ok e, t'))
    (hlt : ∀ i, freed i < 2 ^ 32) : e ∉ issued := by
  obtain ⟨count, hentered⟩ := h.entered
  exact hentered.not_mem h.wf halloc (h.countP_cons_le halloc hlt)

theorem allocate (h : t.Tallied issued freed) (halloc : t.allocate = (.ok e, t'))
    (hlt : ∀ i, freed i < 2 ^ 32) : t'.Tallied (e :: issued) freed := by
  obtain ⟨count, hentered⟩ := h.entered
  refine
    { wf := wf_allocate h.wf halloc
      entered := ⟨_, hentered.allocate h.wf halloc (h.countP_cons_le halloc hlt)⟩
      live := fun x hx => ?_
      balance := fun i => ?_ }
  · rcases (isAlive_allocate h.wf halloc x).mp hx with rfl | hx
    · exact List.mem_cons_self
    · exact List.mem_cons_of_mem _ (h.live x hx)
  · rw [List.countP_cons, h.balance, toList_allocate h.wf halloc,
      (List.perm_orderedInsert _ e t.toList).countP_eq, List.countP_cons, Nat.add_assoc]

theorem beginDestroy (h : t.Tallied issued freed) (e : Entity) :
    (t.beginDestroy e).2.Tallied issued freed := by
  obtain ⟨count, hentered⟩ := h.entered
  exact
    { wf := wf_beginDestroy h.wf e
      entered := ⟨count, hentered.beginDestroy e⟩
      live := fun x hx => h.live x (by rw [isAlive_beginDestroy] at hx; exact hx)
      balance := fun i => by rw [toList_beginDestroy h.wf, h.balance] }

theorem release (h : t.Tallied issued freed) (he : t.isAlive e = true) :
    (t.release e).2.Tallied issued fun i => freed i + if e.index = i then 1 else 0 := by
  obtain ⟨count, hentered⟩ := h.entered
  refine
    { wf := wf_release h.wf e
      entered := ⟨count, hentered.release he⟩
      live := fun x hx => h.live x ((isAlive_release he x).mp hx).1
      balance := fun i => ?_ }
  have hperm := List.perm_cons_erase ((mem_toList_iff h.wf).mpr he)
  rw [toList_release h.wf he, h.balance, hperm.countP_eq, List.countP_cons]
  simp only [beq_iff_eq]
  omega

end Tallied

end Entity.Table

/-! ## Machines and their history -/

namespace Machine

variable {U σ : Type} [SceneFamily U] {m m' : Machine U σ}
variable {issued : List Entity} {freed : UInt32 → Nat}

/-- Handles are as their history says, and whoever waits on the stack to be given up is being
destroyed, by one destruction. -/
structure Populated (m : Machine U σ) (issued : List Entity) (freed : UInt32 → Nat) : Prop where
  tallied : m.world.entities.Tallied issued freed
  destroying : ∀ p ∈ destructions m.stack, m.world.isDestroying p.1 = true
  nodup : ((destructions m.stack).map (·.1)).Nodup

theorem populated_start (host : σ) (script : Script U σ) :
    (start host script).Populated [] fun _ => 0 :=
  { tallied := Entity.Table.tallied_empty
    destroying := fun p hp => by cases hp
    nodup := List.nodup_nil }

/-- Whoever a destruction is accepted for is being destroyed, unless it is given up at once. -/
theorem isDestroying_of_accepted_turnover (ht : Turnover m m') {e : Entity}
    (haccepted : m.accepted? = some e) (hreleased : m.released? ≠ some e) :
    m'.world.isDestroying e = true := by
  rcases ht.accepted_cases haccepted with ⟨-, hentities, -⟩ | ⟨hgone, -⟩
  · rw [World.isDestroying, hentities, Entity.Table.isDestroying_beginDestroy
      (World.state?_of_accepts (accepted?_eq_some haccepted).2)]
    exact .inl rfl
  · exact absurd hgone hreleased

namespace Turnover

/-- The table of entities stays in order. -/
theorem wf (ht : Turnover m m') (hwf : m.world.entities.Wf) : m'.world.entities.Wf := by
  cases ht with
  | kept _ _ _ entities _ => exact entities ▸ hwf
  | abandoned _ _ _ _ _ entities _ _ => exact entities ▸ hwf
  | issued _ _ _ _ _ _ _ _ entities => exact Entity.Table.wf_allocate hwf entities
  | accepted e _ _ _ entities _ => exact entities ▸ Entity.Table.wf_beginDestroy hwf e
  | released e _ _ _ entities _ _ => exact entities ▸ Entity.Table.wf_release hwf e
  | both e _ _ _ entities _ _ =>
    exact entities ▸ Entity.Table.wf_release (Entity.Table.wf_beginDestroy hwf e) e

variable (hwf : m.world.entities.Wf)
variable (hwaiting : ∀ p ∈ destructions m.stack, m.world.isDestroying p.1 = true)

include hwaiting

/-- Whoever is given up is valid. -/
theorem isValid_of_released (ht : Turnover m m') {e : Entity}
    (hreleased : m.released? = some e) : m.world.isValid e = true := by
  obtain ⟨-, ⟨-, hunder⟩ | ⟨haccepted, -⟩⟩ := ht.released_cases hreleased
  · exact World.isValid_of_isDestroying (hwaiting (e, m'.stack) (hunder ▸ List.mem_cons_self))
  · exact ((World.accepts_iff _ _).mp (accepted?_eq_some haccepted).2).1

include hwf

/-- Whoever is being destroyed stays so until it is given up. -/
theorem isDestroying (ht : Turnover m m') {x : Entity} (hx : m.world.isDestroying x = true)
    (hreleased : m.released? ≠ some x) : m'.world.isDestroying x = true := by
  have hvalid : ∀ {e}, m.released? = some e → m.world.isValid e = true :=
    ht.isValid_of_released hwaiting
  unfold World.isDestroying World.isValid at *
  cases ht with
  | kept none accepted released entities under => rw [entities, hx]
  | abandoned e cause none accepted released entities under answer => rw [entities, hx]
  | issued e next call some accepted released stack answer entities =>
    rw [Entity.Table.isDestroying_allocate hwf entities, hx]
  | accepted e none accepted released entities under =>
    rw [entities, Entity.Table.isDestroying_beginDestroy
      (World.state?_of_accepts (accepted?_eq_some accepted).2)]
    exact .inr hx
  | released e none accepted released entities under answer =>
    rw [entities, Entity.Table.isDestroying_release (hvalid released)]
    exact ⟨hx, fun heq => hreleased (heq ▸ released)⟩
  | both e none accepted released entities stack answer =>
    rw [entities, Entity.Table.isDestroying_release, Entity.Table.isDestroying_beginDestroy
      (World.state?_of_accepts (accepted?_eq_some accepted).2)]
    · exact ⟨.inr hx, fun heq => hreleased (heq ▸ released)⟩
    · rw [Entity.Table.isAlive_beginDestroy]
      exact hvalid released

/-- What a step does to a handle: one that is issued is valid, and one that is given up is not. -/
theorem isValid_iff (ht : Turnover m m') (x : Entity) :
    m'.world.isValid x = true ↔
      (m.world.isValid x = true ∨ m.issued? = some x) ∧ m.released? ≠ some x := by
  have hvalid : ∀ {e}, m.released? = some e → m.world.isValid e = true :=
    ht.isValid_of_released hwaiting
  unfold World.isValid at hvalid ⊢
  cases ht with
  | kept none accepted released entities under =>
    simp [none, released, entities]
  | abandoned e cause none accepted released entities under answer =>
    simp [none, released, entities]
  | issued e next call some accepted released stack answer entities =>
    rw [Entity.Table.isAlive_allocate hwf entities, some, released, Option.some.injEq]
    simp [or_comm, eq_comm (a := x)]
  | accepted e none accepted released entities under =>
    rw [entities, Entity.Table.isAlive_beginDestroy]
    simp [none, released]
  | released e none accepted released entities under answer =>
    rw [entities, Entity.Table.isAlive_release (hvalid released), none, released]
    simp [eq_comm (a := e)]
  | both e none accepted released entities stack answer =>
    rw [entities, Entity.Table.isAlive_release, Entity.Table.isAlive_beginDestroy]
    · rw [none, released]
      simp [eq_comm (a := e)]
    · rw [Entity.Table.isAlive_beginDestroy]
      exact hvalid released

end Turnover

namespace Populated

theorem isDestroying_turnover (h : m.Populated issued freed) (ht : Turnover m m') {x : Entity}
    (hx : m.world.isDestroying x = true) (hreleased : m.released? ≠ some x) :
    m'.world.isDestroying x = true :=
  ht.isDestroying h.tallied.wf h.destroying hx hreleased

theorem isValid_turnover (h : m.Populated issued freed) (ht : Turnover m m') (x : Entity) :
    m'.world.isValid x = true ↔
      (m.world.isValid x = true ∨ m.issued? = some x) ∧ m.released? ≠ some x :=
  ht.isValid_iff h.tallied.wf h.destroying x

/-- Handles are as their history says after the next step too. -/
theorem turnover (h : m.Populated issued freed) (hlt : ∀ i, freed i < 2 ^ 32)
    (ht : Turnover m m') : m'.Populated (m.issued?.toList ++ issued) fun i =>
      freed i + if m.released?.any (·.index == i) then 1 else 0 := by
  -- whoever waits afterwards waited before, or is the one that was accepted
  have hstays : ∀ p ∈ destructions m.stack, m.released? ≠ some p.1 →
      m'.world.isDestroying p.1 = true := fun p hp => h.isDestroying_turnover ht (h.destroying p hp)
  have hstarts := fun e => isDestroying_of_accepted_turnover (e := e) ht
  cases ht with
  | kept none accepted released entities under =>
    simp only [none, released, Option.toList_none, List.nil_append, Option.any_none,
      Bool.false_eq_true, if_false, Nat.add_zero]
    exact
      { tallied := entities ▸ h.tallied
        destroying := fun p hp => hstays p (under ▸ hp) (by simp [released])
        nodup := under ▸ h.nodup }
  | abandoned e cause none accepted released entities under answer =>
    have hnodup := h.nodup
    rw [under, List.map_cons, List.nodup_cons] at hnodup
    simp only [none, released, Option.toList_none, List.nil_append, Option.any_none,
      Bool.false_eq_true, if_false, Nat.add_zero]
    exact
      { tallied := entities ▸ h.tallied
        destroying := fun p hp => hstays p (under ▸ List.mem_cons_of_mem _ hp)
          (by simp [released])
        nodup := hnodup.2 }
  | issued e next call some accepted released stack answer entities =>
    simp only [some, released, Option.toList_some, List.singleton_append, Option.any_none,
      Bool.false_eq_true, if_false, Nat.add_zero]
    exact
      { tallied := h.tallied.allocate entities hlt
        destroying := fun p hp => hstays p (stack ▸ hp) (by simp [released])
        nodup := stack ▸ h.nodup }
  | accepted e none accepted released entities under =>
    simp only [none, released, Option.toList_none, List.nil_append, Option.any_none,
      Bool.false_eq_true, if_false, Nat.add_zero]
    refine
      { tallied := entities ▸ h.tallied.beginDestroy e
        destroying := fun p hp => ?_
        nodup := ?_ }
    · rw [under] at hp
      rcases List.mem_cons.mp hp with rfl | hp
      · exact hstarts e accepted (by simp [released])
      · exact hstays p hp (by simp [released])
    · rw [under, List.map_cons, List.nodup_cons]
      refine ⟨fun hmem => ?_, h.nodup⟩
      -- whoever is accepted is not being destroyed yet
      obtain ⟨p, hp, rfl⟩ := List.mem_map.mp hmem
      have hdestroying := h.destroying p hp
      rw [((World.accepts_iff _ _).mp (accepted?_eq_some accepted).2).2] at hdestroying
      cases hdestroying
  | released e none accepted released entities under answer =>
    have hvalid := World.isValid_of_isDestroying
      (h.destroying (e, m'.stack) (under ▸ List.mem_cons_self))
    have hnodup := h.nodup
    rw [under, List.map_cons, List.nodup_cons] at hnodup
    simp only [none, released, Option.toList_none, List.nil_append, Option.any_some, beq_iff_eq]
    refine
      { tallied := entities ▸ h.tallied.release hvalid
        destroying := fun p hp => hstays p (under ▸ List.mem_cons_of_mem _ hp) fun heq => ?_
        nodup := hnodup.2 }
    obtain rfl := Option.some.inj (released.symm.trans heq)
    exact hnodup.1 (List.mem_map.mpr ⟨p, hp, rfl⟩)
  | both e none accepted released entities stack answer =>
    obtain ⟨hvalid, hdestroying⟩ := (World.accepts_iff _ _).mp (accepted?_eq_some accepted).2
    have hvalid' : (m.world.entities.beginDestroy e).2.isAlive e = true := by
      rw [Entity.Table.isAlive_beginDestroy]
      exact hvalid
    simp only [none, released, Option.toList_none, List.nil_append, Option.any_some, beq_iff_eq]
    refine
      { tallied := entities ▸ (h.tallied.beginDestroy e).release hvalid'
        destroying := fun p hp => hstays p (stack ▸ hp) fun heq => ?_
        nodup := stack ▸ h.nodup }
    obtain rfl := Option.some.inj (released.symm.trans heq)
    rw [h.destroying p (stack ▸ hp)] at hdestroying
    cases hdestroying

end Populated

section Run

variable [DecidableEq U]

/-- What the first `n` steps issue, the latest first. -/
def issues (m : Machine U σ) (n : Nat) : List Entity :=
  ((List.range n).filterMap fun k => (m.run k).issued?).reverse

/-- How often the first `n` steps give an index up. -/
def releases (m : Machine U σ) (n : Nat) (index : UInt32) : Nat :=
  (List.range n).countP fun k => (m.run k).released?.any (·.index == index)

theorem issues_succ (m : Machine U σ) (n : Nat) :
    m.issues (n + 1) = (m.run n).issued?.toList ++ m.issues n := by
  rw [issues, List.range_succ, List.filterMap_append, List.reverse_append]
  congr 1
  cases h : (m.run n).issued? <;> simp [h]

theorem mem_issues {m : Machine U σ} {n : Nat} {e : Entity} :
    e ∈ m.issues n ↔ ∃ i < n, (m.run i).issued? = some e := by
  simp [issues]

theorem releases_succ (m : Machine U σ) (n : Nat) (index : UInt32) :
    m.releases (n + 1) index =
      m.releases n index + if (m.run n).released?.any (·.index == index) then 1 else 0 := by
  simp [releases, List.range_succ, List.countP_append, List.countP_singleton]

/-- A longer run does not give an index up less often. -/
theorem releases_mono (m : Machine U σ) {k n : Nat} (h : k ≤ n) (index : UInt32) :
    m.releases k index ≤ m.releases n index := by
  induction h with
  | refl => exact Nat.le_refl _
  | step _ ih =>
    rw [releases_succ]
    exact Nat.le_trans ih (Nat.le_add_right _ _)

/-- A step gives at most one index up. -/
theorem releases_le (m : Machine U σ) (n : Nat) (index : UInt32) : m.releases n index ≤ n := by
  calc m.releases n index ≤ (List.range n).length := List.countP_le_length
    _ = n := List.length_range

/-- A run that has come to its end changes nothing. -/
theorem turnover_run (m : Machine U σ) {n : Nat} (hwf : (m.run n).world.entities.Wf) :
    Turnover (m.run n) (m.run (n + 1)) := by
  cases hstep : (m.run n).step with
  | some m' =>
    rw [run_succ_of_run_step hstep]
    exact turnover_of_step hwf hstep
  | none =>
    have hrun : m.run (n + 1) = m.run n := by rw [run_succ, hstep, Option.getD_none]
    rw [hrun]
    obtain ⟨hstack, ⟨b, hcall⟩ | ⟨cause, hcall⟩⟩ := (step_eq_none_iff _).mp hstep
    · exact .kept (by simp only [issued?, hcall]) (by simp only [accepted?, hcall])
        (by simp only [released?, hcall, hstack]) rfl rfl
    · exact .kept (by simp only [issued?, hcall]) (by simp only [accepted?, hcall])
        (by simp only [released?, hcall]) rfl rfl

/-- Whatever is run, also where storages are edited directly and where calls are abandoned, the table
of entities stays in order. -/
theorem wf_entities_run (host : σ) (script : Script U σ) (n : Nat) :
    ((start host script).run n).world.entities.Wf := by
  induction n with
  | zero => exact Entity.Table.wf_empty
  | succ n ih => exact (turnover_run (start host script) ih).wf ih

variable {host : σ} {script : Script U σ} {n : Nat}

/-- What a step of a run does to handles. -/
theorem turnover_succ (host : σ) (script : Script U σ) (k : Nat) :
    Turnover ((start host script).run k) ((start host script).run (k + 1)) :=
  turnover_run _ (wf_entities_run host script k)

/-- Throughout a run handles are as their history says. -/
theorem populated_run (h : ∀ i, (start host script).releases n i < 2 ^ 32) {k : Nat} (hk : k ≤ n) :
    ((start host script).run k).Populated ((start host script).issues k)
      ((start host script).releases k) := by
  induction k with
  | zero => exact populated_start host script
  | succ k ih =>
    have hnow := ih (Nat.le_of_succ_le hk)
    have hlt : ∀ i, (start host script).releases k i < 2 ^ 32 := fun i =>
      Nat.lt_of_le_of_lt (releases_mono _ (Nat.le_of_succ_le hk) i) (h i)
    have hnext := hnow.turnover hlt (turnover_run _ hnow.tallied.wf)
    rw [← issues_succ] at hnext
    simp only [← releases_succ] at hnext
    exact hnext

/-- Whoever is given up is valid. -/
theorem isValid_of_released_run (h : ∀ i, (start host script).releases n i < 2 ^ 32) {l : Nat}
    (hl : l < n) {e : Entity} (hreleased : ((start host script).run l).released? = some e) :
    ((start host script).run l).world.isValid e = true :=
  (turnover_succ host script l).isValid_of_released (populated_run h (Nat.le_of_lt hl)).destroying
    hreleased

/-- A handle that is issued was never issued before. -/
theorem issued?_unique (h : ∀ i, (start host script).releases n i < 2 ^ 32) {i j : Nat} {e : Entity}
    (hij : i < j) (hj : j < n) (hi : ((start host script).run i).issued? = some e) :
    ((start host script).run j).issued? ≠ some e := by
  intro hissued
  have hnow := populated_run h (Nat.le_of_lt hj)
  have hlt : ∀ i, (start host script).releases j i < 2 ^ 32 := fun i =>
    Nat.lt_of_le_of_lt (releases_mono _ (Nat.le_of_lt hj) i) (h i)
  cases turnover_succ host script j with
  | issued x next call some accepted released stack answer entities =>
    obtain rfl := Option.some.inj (some.symm.trans hissued)
    exact hnow.tallied.not_mem_issued entities hlt (mem_issues.mpr ⟨i, hij, hi⟩)
  | kept none _ _ _ _ => rw [none] at hissued; cases hissued
  | abandoned _ _ none _ _ _ _ _ => rw [none] at hissued; cases hissued
  | accepted _ none _ _ _ _ => rw [none] at hissued; cases hissued
  | released _ none _ _ _ _ _ => rw [none] at hissued; cases hissued
  | both _ none _ _ _ _ _ => rw [none] at hissued; cases hissued

/-- A handle is valid once it was issued, and until it is given up. -/
theorem isValid_run_iff (h : ∀ i, (start host script).releases n i < 2 ^ 32) {j : Nat} (hj : j ≤ n)
    (e : Entity) :
    ((start host script).run j).world.isValid e = true ↔
      (∃ i < j, ((start host script).run i).issued? = some e) ∧
        ∀ l < j, ((start host script).run l).released? ≠ some e := by
  induction j with
  | zero =>
    constructor
    · intro hvalid
      exact absurd ((populated_run h hj).tallied.live e hvalid) List.not_mem_nil
    · rintro ⟨⟨i, hi, -⟩, -⟩
      exact absurd hi (Nat.not_lt_zero i)
  | succ j ih =>
    have hnow := populated_run h (Nat.le_of_succ_le hj)
    rw [hnow.isValid_turnover (turnover_succ host script j), ih (Nat.le_of_succ_le hj)]
    constructor
    · rintro ⟨⟨⟨i, hi, hissued⟩, hkept⟩ | hissued, hreleased⟩
      · exact ⟨⟨i, Nat.lt_succ_of_lt hi, hissued⟩,
          fun l hl => (Nat.lt_succ_iff_lt_or_eq.mp hl).elim (hkept l) fun heq => heq ▸ hreleased⟩
      · refine ⟨⟨j, Nat.lt_succ_self j, hissued⟩, fun l hl => ?_⟩
        rcases Nat.lt_succ_iff_lt_or_eq.mp hl with hlj | rfl
        · -- who is given up was valid, and so issued before
          intro hl'
          have hln := Nat.lt_of_lt_of_le hl hj
          have hlive := (populated_run h (Nat.le_of_lt hln)).tallied.live e
            (isValid_of_released_run h hln hl')
          obtain ⟨i, hi, hbefore⟩ := mem_issues.mp hlive
          exact issued?_unique h (Nat.lt_trans hi hlj) hj hbefore hissued
        · exact hreleased
    · rintro ⟨⟨i, hi, hissued⟩, hkept⟩
      refine ⟨?_, hkept j (Nat.lt_succ_self j)⟩
      rcases Nat.lt_succ_iff_lt_or_eq.mp hi with hij | rfl
      · exact .inl ⟨⟨i, hij, hissued⟩, fun l hl => hkept l (Nat.lt_succ_of_lt hl)⟩
      · exact .inr hissued

/-! ## Calls and their answers -/

/-- Whoever is being destroyed on the stack, some call was accepted for that and goes on. -/
theorem exists_accepted {k : Nat} {e : Entity} {rest : List (Frame U σ)}
    (hmem : (e, rest) ∈ destructions ((start host script).run k).stack) :
    ∃ i < k, ((start host script).run i).accepted? = some e ∧
      ((start host script).run i).stack = rest ∧
      ∀ l, i < l → l ≤ k → rest.length < ((start host script).run l).stack.length := by
  induction k with
  | zero => cases hmem
  | succ k ih =>
    have hnow := length_lt_of_mem_destructions hmem
    -- a destruction that was under way before goes on
    have hbefore : (e, rest) ∈ destructions ((start host script).run k).stack →
        ∃ i < k + 1, ((start host script).run i).accepted? = some e ∧
          ((start host script).run i).stack = rest ∧
          ∀ l, i < l → l ≤ k + 1 → rest.length < ((start host script).run l).stack.length :=
      fun hmem => by
        obtain ⟨i, hi, haccepted, hstack, hduring⟩ := ih hmem
        refine ⟨i, Nat.lt_succ_of_lt hi, haccepted, hstack, fun l hil hl => ?_⟩
        rcases Nat.le_succ_iff.mp hl with hlk | rfl
        · exact hduring l hil hlk
        · exact hnow
    cases turnover_succ host script k with
    | kept none accepted released entities under => exact hbefore (under ▸ hmem)
    | abandoned x cause none accepted released entities under answer =>
      exact hbefore (under ▸ List.mem_cons_of_mem _ hmem)
    | issued x next call some accepted released stack answer entities =>
      exact hbefore (stack ▸ hmem)
    | accepted x none accepted released entities under =>
      rw [under] at hmem
      rcases List.mem_cons.mp hmem with heq | hmem
      · obtain ⟨rfl, rfl⟩ := Prod.mk.inj heq
        refine ⟨k, Nat.lt_succ_self k, accepted, rfl, fun l hkl hl => ?_⟩
        obtain rfl := Nat.le_antisymm hl hkl
        exact hnow
      · exact hbefore hmem
    | released x none accepted released entities under answer =>
      exact hbefore (under ▸ List.mem_cons_of_mem _ hmem)
    | both x none accepted released entities stack answer => exact hbefore (stack ▸ hmem)

/-- Whoever is given up is given up by the call that was accepted for that, which then answers. -/
theorem exists_answered_of_released {l : Nat} {e : Entity}
    (hreleased : ((start host script).run l).released? = some e) :
    ∃ i ≤ l, ((start host script).run i).accepted? = some e ∧
      (start host script).Answered i (l + 1) true := by
  obtain ⟨hanswer, ⟨-, hunder⟩ | ⟨haccepted, -, hstack⟩⟩ :=
    (turnover_succ host script l).released_cases hreleased
  · obtain ⟨i, hi, haccepted, hstack, hduring⟩ := exists_accepted (hunder ▸ List.mem_cons_self)
    exact ⟨i, Nat.le_of_lt hi, haccepted,
      { lt := Nat.lt_succ_of_lt hi
        during := fun k hik hkl => hstack ▸ hduring k hik (Nat.le_of_lt_succ hkl)
        stack := hstack.symm
        control := hanswer }⟩
  · exact ⟨l, Nat.le_refl l, haccepted,
      { lt := Nat.lt_succ_self l
        during := fun k hlk hkl => absurd hkl (Nat.not_lt.mpr hlk)
        stack := hstack
        control := hanswer }⟩

/-- A call that is refused is answered at once. -/
theorem accepted?_of_answered {m : Machine U σ} {i j : Nat} {e : Entity}
    (hcall : (m.run i).control = .destroy e) (h : m.Answered i j true) :
    (m.run i).accepted? = some e := by
  by_contra hrefused
  have haccepts : ¬ (m.run i).world.accepts e = true := fun ha =>
    hrefused (by simp only [accepted?, hcall, ha, if_true])
  have hstep : (m.run i).step = some ((m.run i).answer false) := by
    have halive : (m.run i).world.entities.state? e ≠ some .alive := fun ha =>
      haccepts (World.accepts_of_state? ha)
    simp only [step, hcall, destroy_of_ne _ halive]
  have hnext := run_succ_of_run_step hstep
  rcases Nat.lt_or_eq_of_le h.lt with hlt | rfl
  · have hlength := h.during (i + 1) (Nat.lt_succ_self i) hlt
    rw [hnext] at hlength
    exact Nat.lt_irrefl _ hlength
  · have hcontrol := h.control
    rw [hnext] at hcontrol
    cases hcontrol

/-- A destruction that was accepted is under way while its call lasts. -/
theorem mem_destructions_of_lasts {i k : Nat} {e : Entity}
    (haccepted : ((start host script).run i).accepted? = some e)
    (hlasts : (start host script).Lasts i k) :
    (e, ((start host script).run i).stack) ∈ destructions ((start host script).run k).stack := by
  obtain ⟨hik, hduring⟩ := hlasts
  induction k with
  | zero => exact absurd hik (Nat.not_lt_zero i)
  | succ k ih =>
    have hdeep := hduring (k + 1) (Nat.le_refl _) hik
    have ht := turnover_succ host script k
    rcases Nat.lt_succ_iff_lt_or_eq.mp hik with hik | rfl
    · have hbefore := ih hik fun l hl hil => hduring l (Nat.le_succ_of_le hl) hil
      rcases ht.mem_destructions hbefore with hmem | ⟨hover, -⟩
      · exact hmem
      · exact absurd hdeep (hover ▸ Nat.lt_irrefl _)
    · rcases ht.mem_destructions_of_accepted haccepted with hmem | ⟨hover, -⟩
      · exact hmem
      · exact absurd hdeep (hover ▸ Nat.lt_irrefl _)

/-- A call that is accepted and answered gave the entity up in the end. -/
theorem released?_of_answered {i l : Nat} {e : Entity} {b : Bool}
    (haccepted : ((start host script).run i).accepted? = some e)
    (hanswered : (start host script).Answered i (l + 1) b) :
    ((start host script).run l).released? = some e := by
  obtain ⟨hil, hduring, hstack, hcontrol⟩ := hanswered
  have ht := turnover_succ host script l
  rcases Nat.lt_or_eq_of_le (Nat.le_of_lt_succ hil) with hil | rfl
  · have hopen := mem_destructions_of_lasts haccepted
      ⟨hil, fun k hkl hik => hduring k hik (Nat.lt_succ_of_le hkl)⟩
    rcases ht.mem_destructions hopen with hmem | ⟨-, hreleased | ⟨cause, hc⟩⟩
    · exact absurd (length_lt_of_mem_destructions hmem) (hstack ▸ Nat.lt_irrefl _)
    · exact hreleased
    · rw [hcontrol] at hc
      cases hc
  · rcases ht.mem_destructions_of_accepted haccepted with hmem | ⟨-, hreleased⟩
    · exact absurd (length_lt_of_mem_destructions hmem) (hstack ▸ Nat.lt_irrefl _)
    · exact hreleased

/-- No two calls are accepted for one handle. -/
theorem accepted?_unique (h : ∀ i, (start host script).releases n i < 2 ^ 32) {i j : Nat}
    {e : Entity} (hij : i < j) (hj : j < n)
    (hi : ((start host script).run i).accepted? = some e) :
    ((start host script).run j).accepted? ≠ some e := by
  intro hj'
  obtain ⟨hvalid, hdestroying⟩ := (World.accepts_iff _ _).mp (accepted?_eq_some hj').2
  -- whoever is valid now was not given up before
  have hkept := ((isValid_run_iff h (Nat.le_of_lt hj) e).mp hvalid).2
  have hduring : ∀ k, i < k → k ≤ j → ((start host script).run k).world.isDestroying e = true := by
    intro k hik hkj
    induction k with
    | zero => exact absurd hik (Nat.not_lt_zero i)
    | succ k ih =>
      have hkn : k < n := Nat.lt_trans hkj hj
      have hnow := populated_run h (Nat.le_of_lt hkn)
      rcases Nat.lt_succ_iff_lt_or_eq.mp hik with hik | rfl
      · exact hnow.isDestroying_turnover (turnover_succ host script k)
          (ih hik (Nat.le_of_succ_le hkj)) (hkept k hkj)
      · exact isDestroying_of_accepted_turnover (turnover_succ host script i) hi (hkept i hkj)
  rw [hduring j hij (Nat.le_refl j)] at hdestroying
  cases hdestroying

/-! ## All runs -/

/-- **Handles die once.** Whatever handlers do in the middle of calls, and also where calls are
abandoned and storages edited directly, as long as no index is given up `2 ^ 32` times: a handle is
issued once, and is not for the null index; it is valid from then on, until it is given up, and
nothing else ever is. It is given up by the call that was accepted for that, which then answers,
and no other call answers that it destroyed it. At every point the count of entities is that of
the handles listed, which are the valid ones by index, and the handle for an index is the one in
the list. -/
theorem handles_die_once (host : σ) (script : Script U σ) {n : Nat}
    (h : ∀ i, (start host script).releases n i < 2 ^ 32) :
    let m := start host script
    (∀ i < n, ∀ next, (m.run i).control = .run (.call .create next) →
        (∃ e, (m.run i).issued? = some e ∧ (m.run (i + 1)).control = .run (next e)) ∨
          ∃ cause, (m.run (i + 1)).control = .unwind cause) ∧
      (∀ i < n, ∀ e, (m.run i).issued? = some e →
        e.index ≠ Entity.nullIndex ∧ ∀ j < n, (m.run j).issued? = some e → j = i) ∧
      (∀ j ≤ n, ∀ e, (m.run j).world.isValid e = true ↔
        (∃ i < j, (m.run i).issued? = some e) ∧ ∀ l < j, (m.run l).released? ≠ some e) ∧
      (∀ l < n, ∀ e, (m.run l).released? = some e →
        ∃ i ≤ l, (m.run i).accepted? = some e ∧ m.Answered i (l + 1) true) ∧
      (∀ i e, (m.run i).control = .destroy e → ∀ l < n, m.Answered i (l + 1) true →
        (m.run i).accepted? = some e ∧ (m.run l).released? = some e ∧
          ∀ i' l', (m.run i').control = .destroy e → l' < n → m.Answered i' (l' + 1) true →
            i' = i) ∧
      ∀ j ≤ n, (m.run j).world.aliveCount = (m.run j).world.handles.length ∧
        (m.run j).world.handles.Pairwise (·.index < ·.index) ∧
        (∀ e, e ∈ (m.run j).world.handles ↔ (m.run j).world.isValid e = true) ∧
        ∀ index, (m.run j).world.entityAt? index =
          (m.run j).world.handles.find? (·.index == index) := by
  intro m
  refine ⟨fun i hi next hcall => ?_, fun i hi e hissued => ⟨?_, fun j hj hissued' => ?_⟩,
    fun j hj e => isValid_run_iff h hj e, fun l _ e => exists_answered_of_released,
    fun i e hcall l hl hanswered => ?_, fun j hj => ?_⟩
  · have hstep : (m.run i).step = some ((m.run i).call .create next) := by
      simp only [step, hcall, runScript]
    rw [run_succ_of_run_step hstep]
    simp only [issued?, hcall, call, World.create]
    cases (m.run i).world.entities.allocate.1 with
    | ok e => exact .inl ⟨e, rfl, rfl⟩
    | error cause => exact .inr ⟨cause, rfl⟩
  · have hnext := populated_run h hi
    have hnow := populated_run h (Nat.le_of_lt hi)
    have hvalid : (m.run (i + 1)).world.isValid e = true := by
      rw [hnow.isValid_turnover (turnover_succ host script i)]
      refine ⟨.inr hissued, fun hreleased => ?_⟩
      have hold := (isValid_run_iff h (Nat.le_of_lt hi) e).mp (isValid_of_released_run h hi hreleased)
      obtain ⟨⟨k, hki, hbefore⟩, -⟩ := hold
      exact issued?_unique h hki hi hbefore hissued
    exact (Entity.isNull_eq_false_iff e).mp (hnext.tallied.wf.isNull_eq_false hvalid)
  · rcases Nat.lt_trichotomy i j with hij | rfl | hji
    · exact absurd hissued' (issued?_unique h hij hj hissued)
    · rfl
    · exact absurd hissued (issued?_unique h hji hi hissued')
  · have haccepted := accepted?_of_answered hcall hanswered
    refine ⟨haccepted, released?_of_answered haccepted hanswered,
      fun i' l' hcall' hl' hanswered' => ?_⟩
    have haccepted' := accepted?_of_answered hcall' hanswered'
    have hi : i < n := Nat.lt_of_lt_of_le hanswered.lt hl
    have hi' : i' < n := Nat.lt_of_lt_of_le hanswered'.lt hl'
    rcases Nat.lt_trichotomy i i' with hlt | rfl | hlt
    · exact absurd haccepted' (accepted?_unique h hlt hi' haccepted)
    · rfl
    · exact absurd haccepted (accepted?_unique h hlt hi haccepted')
  · have hwf := (populated_run h hj).tallied.wf
    exact ⟨hwf.live_eq.symm.trans Entity.Table.length_toList.symm,
      Entity.Table.pairwise_toList hwf, fun e => Entity.Table.mem_toList_iff hwf,
      Entity.Table.current?_eq_find? hwf⟩

end Run

end Machine

/-- A handler that is called for a destruction asks for the same destruction, and then gives up. The
entity stays, and is not destroyed again; another one is, and its index is used again. -/
def forsaken : Script Empty Unit :=
  Task.toScript do
    let _ ← Task.connect .node .destroy fun _ e => Task.destroy e fun _ => .abort (.raised "stop")
    let e ← Task.create
    let _ ← Task.emplace .node e (.ok TreeNode.isolated)
    let _ ← Task.attempt do
      let _ ← Task.destroy e
    let other ← Task.create
    let _ ← Task.destroy other
    let _ ← Task.create
    let _ ← Task.destroy e

/-- The entity whose destruction was abandoned is never given up, and the call that destroyed the
other one is the one that was accepted for it. -/
theorem Machine.handles_die_once_forsaken :
    (∀ index, (start () forsaken).releases 34 index < 2 ^ 32) ∧
      ((start () forsaken).run 9).accepted? = some ⟨0, .initial⟩ ∧
      (∀ l < 34, ((start () forsaken).run l).released? ≠ some ⟨0, .initial⟩) ∧
      (∃ i ≤ 27, ((start () forsaken).run i).accepted? = some ⟨1, .initial⟩ ∧
        (start () forsaken).Answered i 28 true) ∧
      ((start () forsaken).run 34).world.handles = [⟨0, .initial⟩, ⟨1, ⟨1⟩⟩] ∧
      ((start () forsaken).run 34).world.isValid ⟨1, .initial⟩ = false := by
  have hreleases : ∀ index, (start () forsaken).releases 34 index < 2 ^ 32 := fun index =>
    Nat.lt_of_le_of_lt (releases_le _ 34 index) (by decide)
  obtain ⟨-, -, hvalid, hreleased, -, hlisted⟩ := handles_die_once () forsaken hreleases
  have hhandles : ((start () forsaken).run 34).world.handles = [⟨0, .initial⟩, ⟨1, ⟨1⟩⟩] := by
    decide +kernel
  have hmem := (hlisted 34 (Nat.le_refl 34)).2.2.1
  rw [hhandles] at hmem
  refine ⟨hreleases, by decide +kernel, ?_, hreleased 27 (by decide) _ (by decide +kernel), hhandles,
    ?_⟩
  · exact ((hvalid 34 (Nat.le_refl 34) ⟨0, .initial⟩).mp ((hmem _).mp List.mem_cons_self)).2
  · exact Bool.eq_false_iff.mpr fun h => absurd ((hmem _).mpr h) (by decide)

end EntityScene
