import Mathlib.Logic.Relation
import Mathlib.Data.List.Nodup
import EntityScene.Proofs.Departures

/-!
# What a cascade takes along

A cascade destroys the nodes that it has claimed one after the other, and claims the
children of each before it does so. The links may be any at all: they may go round in
circles, be shared, and name entities that are gone.

- `World.Below`: the entities that child links lead to.
- `World.Frontier`: claimed nodes that had their turn and those that had not. Children of
  the former are claimed, so when all had their turn they are exactly what is below.
- `World.Felled`: the world in which the nodes that had their turn were destroyed.
- `Machine.Tolled`: of removals only readers hear, and one cascade.
- `Machine.Planted`: one cascade is connected, and everybody else only reads.
- `Machine.runs_cascadeOn`: a cascade comes to its end, and has destroyed what is below.
-/

namespace EntityScene

/-! ## Claims -/

theorem mem_claimAll_snd (set es : List Entity) (x : Entity) :
    x ∈ (claimAll set es).2 ↔ x ∈ set ∨ x ∈ es := by
  induction es generalizing set with
  | nil => simp [claimAll]
  | cons e es ih =>
    unfold claimAll
    split
    · rename_i he
      rw [ih, List.mem_cons]
      constructor
      · rintro (hx | hx)
        · exact .inl hx
        · exact .inr (.inr hx)
      · rintro (hx | rfl | hx)
        · exact .inl hx
        · exact .inl he
        · exact .inr hx
    · rw [ih, List.mem_cons, List.mem_cons]
      constructor
      · rintro ((rfl | hx) | hx)
        · exact .inr (.inl rfl)
        · exact .inl hx
        · exact .inr (.inr hx)
      · rintro (hx | rfl | hx)
        · exact .inl (.inr hx)
        · exact .inl (.inl rfl)
        · exact .inr hx

/-- What is claimed for the first time was listed, and not claimed before. -/
theorem mem_claimAll_fst (set es : List Entity) (x : Entity) :
    x ∈ (claimAll set es).1 ↔ x ∈ es ∧ x ∉ set := by
  induction es generalizing set with
  | nil => simp [claimAll]
  | cons e es ih =>
    unfold claimAll
    split
    · rename_i he
      rw [ih, List.mem_cons]
      constructor
      · rintro ⟨hx, hno⟩
        exact ⟨.inr hx, hno⟩
      · rintro ⟨rfl | hx, hno⟩
        · exact absurd he hno
        · exact ⟨hx, hno⟩
    · rename_i he
      rw [List.mem_cons, ih, List.mem_cons, List.mem_cons, not_or]
      constructor
      · rintro (rfl | ⟨hx, -, hno⟩)
        · exact ⟨.inl rfl, he⟩
        · exact ⟨.inr hx, hno⟩
      · rintro ⟨rfl | hx, hno⟩
        · exact .inl rfl
        · by_cases hxe : x = e
          · exact .inl hxe
          · exact .inr ⟨hx, hxe, hno⟩

theorem nodup_claimAll_fst (set es : List Entity) : (claimAll set es).1.Nodup := by
  induction es generalizing set with
  | nil => exact List.nodup_nil
  | cons e es ih =>
    unfold claimAll
    split
    · exact ih set
    · refine List.nodup_cons.mpr ⟨fun he => ?_, ih _⟩
      exact ((mem_claimAll_fst _ _ _).mp he).2 List.mem_cons_self

namespace World

variable {U : Type} [SceneFamily U] [DecidableEq U] {w w' w'' : World (Kind U)}
variable {e x : Entity} {past ahead : List Entity} {tr tr' : List Dispatch}

/-! ## Below an entity -/

/-- Child links lead from one entity to another. -/
def Below (w : World (Kind U)) (e x : Entity) : Prop :=
  Relation.ReflTransGen (fun a b => b ∈ w.childrenOf a) e x

theorem Below.refl (w : World (Kind U)) (e : Entity) : w.Below e e := Relation.ReflTransGen.refl

theorem Below.child {y : Entity} (h : w.Below e x) (hy : y ∈ w.childrenOf x) : w.Below e y :=
  Relation.ReflTransGen.tail h hy

/-- Nothing but itself is below an entity without children. -/
theorem Below.eq_of_childless (h : w.Below e x) (he : w.childrenOf e = []) : x = e := by
  rcases Relation.ReflTransGen.cases_head h with heq | ⟨y, hy, -⟩
  · exact heq.symm
  · have hchild : y ∈ w.childrenOf e := hy
    rw [he] at hchild
    cases hchild

theorem below_congr (h : ∀ x, w'.childrenOf x = w.childrenOf x) (e x : Entity) :
    w'.Below e x ↔ w.Below e x := by
  unfold Below
  simp only [h]

/-- A sweep lists nothing but what is below its queue. -/
theorem below_of_mem_sweep {room : Nat} {queue : List Entity} (h : x ∈ w.sweep room queue) :
    ∃ q ∈ queue, w.Below q x := by
  induction room generalizing queue with
  | zero => cases queue <;> cases h
  | succ room ih =>
    cases queue with
    | nil => cases h
    | cons q queue =>
      unfold sweep at h
      split at h
      · rcases List.mem_cons.mp h with rfl | hx
        · exact ⟨x, List.mem_cons_self, .refl w x⟩
        · exact ⟨x, List.mem_cons_of_mem _ (List.mem_of_mem_take hx), .refl w x⟩
      · rcases List.mem_cons.mp h with rfl | hx
        · exact ⟨x, List.mem_cons_self, .refl w x⟩
        · obtain ⟨r, hr, hbelow⟩ := ih hx
          rcases List.mem_append.mp hr with hr | hr
          · exact ⟨r, List.mem_cons_of_mem _ hr, hbelow⟩
          · exact ⟨q, List.mem_cons_self, Relation.ReflTransGen.head hr hbelow⟩

theorem below_of_mem_descendants (h : x ∈ w.descendants e) : w.Below e x := by
  obtain ⟨q, hq, hbelow⟩ := below_of_mem_sweep h
  exact Relation.ReflTransGen.head hq hbelow

/-- All children that a world knows of. -/
def mentioned (w : World (Kind U)) : List Entity := w.handles.flatMap w.childrenOf

theorem mem_mentioned (hwf : w.Wf) {y : Entity} (hy : y ∈ w.childrenOf x) : y ∈ w.mentioned := by
  have hvalid : w.isValid x = true := by
    by_contra hno
    rw [Bool.not_eq_true] at hno
    rw [childrenOf_of_not_isValid hno] at hy
    cases hy
  exact List.mem_flatMap.mpr ⟨x, (Entity.Table.mem_toList_iff hwf.table).mpr hvalid, hy⟩

/-! ## Claimed nodes -/

/-- Claimed nodes, each of them once, that are all below an entity. The children of those
that had their turn are claimed. -/
structure Frontier (w : World (Kind U)) (e : Entity) (past ahead : List Entity) : Prop where
  nodup : (past ++ ahead).Nodup
  below : ∀ x ∈ past ++ ahead, w.Below e x
  closed : ∀ x ∈ past, ∀ y ∈ w.childrenOf x, y ∈ past ++ ahead

namespace Frontier

/-- A node has its turn: its children are claimed, as far as they were not. -/
theorem turn (h : Frontier w e past (x :: ahead)) {fresh : List Entity} (hnodup : fresh.Nodup)
    (hfresh : ∀ y, y ∈ fresh ↔ y ∈ w.childrenOf x ∧ y ∉ past ++ x :: ahead) :
    Frontier w e (past ++ [x]) (ahead ++ fresh) := by
  have hlist : past ++ [x] ++ (ahead ++ fresh) = past ++ x :: ahead ++ fresh := by simp
  refine
    { nodup := ?_
      below := fun y hy => ?_
      closed := fun z hz y hy => ?_ }
  · rw [hlist, List.nodup_append']
    refine ⟨h.nodup, hnodup, fun y hy hy' => ?_⟩
    exact ((hfresh y).mp hy').2 hy
  · rw [hlist] at hy
    rcases List.mem_append.mp hy with hy | hy
    · exact h.below y hy
    · have hx := h.below x (List.mem_append_right _ List.mem_cons_self)
      exact hx.child ((hfresh y).mp hy).1
  · rw [hlist]
    rcases List.mem_append.mp hz with hz | hz
    · exact List.mem_append_left _ (h.closed z hz y hy)
    · obtain rfl := List.mem_singleton.mp hz
      by_cases hold : y ∈ past ++ z :: ahead
      · exact List.mem_append_left _ hold
      · exact List.mem_append_right _ ((hfresh y).mpr ⟨hy, hold⟩)

/-- When all had their turn, they are what is below. -/
theorem mem_iff_below (h : Frontier w e past []) (he : e ∈ past) :
    x ∈ past ↔ w.Below e x := by
  have hclosed := h.closed
  have hbelow := h.below
  rw [List.append_nil] at hclosed hbelow
  constructor
  · exact hbelow x
  · intro hx
    induction hx with
    | refl => exact he
    | tail _ hstep ih => exact hclosed _ ih _ hstep

/-- No more nodes can be claimed than there are. -/
theorem length_le (hwf : w.Wf) (h : Frontier w e past ahead) :
    (past ++ ahead).length ≤ w.mentioned.length + 1 := by
  have hsub : past ++ ahead ⊆ e :: w.mentioned := by
    intro x hx
    rcases Relation.ReflTransGen.cases_tail (h.below x hx) with rfl | ⟨y, -, hy⟩
    · exact List.mem_cons_self
    · exact List.mem_cons_of_mem _ (mem_mentioned hwf hy)
  exact (h.nodup.subperm hsub).length_le

end Frontier

/-! ## Destroyed nodes -/

/-- The world in which the listed nodes were destroyed, as far as they could be. -/
structure Felled (w : World (Kind U)) (past : List Entity) (tr : List Dispatch)
    (w' : World (Kind U)) : Prop where
  shed : Shed (fun _ => True)
    (fun k x => x ∈ past ∧ w.accepts x = true ∧ (k, x) ∉ w.removing) w tr w'
  valid : ∀ x, w'.isValid x = true ↔ w.isValid x = true ∧ ¬ (x ∈ past ∧ w.accepts x = true)
  destroying : ∀ x, w'.isDestroying x = w.isDestroying x
  removing : w'.removing = w.removing

namespace Felled

theorem refl (h : w.Wf) : Felled w [] [] w :=
  { shed := (Shed.refl h).widen False.elim fun _ hgone => by cases hgone.1
    valid := fun x => by simp
    destroying := fun _ => rfl
    removing := rfl }

theorem isValid_of_not_mem (h : Felled w past tr w') (hx : x ∉ past) :
    w'.isValid x = w.isValid x := by
  rw [Bool.eq_iff_iff, h.valid]
  constructor
  · intro hv
    exact hv.1
  · intro hv
    exact ⟨hv, fun hc => hx hc.1⟩

/-- A node that has not had its turn is as it was. -/
theorem accepts_of_not_mem (h : Felled w past tr w') (hx : x ∉ past) :
    w'.accepts x = w.accepts x := by
  rw [accepts, accepts, h.isValid_of_not_mem hx, h.destroying]

theorem get?_of_not_mem (h : Felled w past tr w') (kind : Kind U) (hx : x ∉ past) :
    w'.get? kind x = w.get? kind x := by
  have hstored : w'.stored? kind x = w.stored? kind x :=
    h.shed.stored? trivial fun _ _ hc => hx hc.1
  rw [get?_eq_stored?, get?_eq_stored?, h.isValid_of_not_mem hx, hstored]

/-- A node that is gone, or being destroyed, is passed over. -/
theorem pass (h : Felled w past tr w') (hx : w.accepts x = false) :
    Felled w (past ++ [x]) tr w' := by
  have hmem : ∀ y, y ∈ past ++ [x] ∧ w.accepts y = true ↔ y ∈ past ∧ w.accepts y = true := by
    intro y
    rw [List.mem_append, List.mem_singleton]
    constructor
    · rintro ⟨hy | rfl, ha⟩
      · exact ⟨hy, ha⟩
      · rw [hx] at ha
        cases ha
    · rintro ⟨hy, ha⟩
      exact ⟨.inl hy, ha⟩
  refine
    { shed := h.shed.widen ?_ ?_
      valid := fun y => by rw [h.valid, hmem]
      destroying := h.destroying
      removing := h.removing }
  · rintro k y ⟨hy, ha, hr⟩
    exact ⟨List.mem_append_left _ hy, ha, hr⟩
  · rintro k y - ⟨hy, ha, hr⟩
    exact ⟨((hmem y).mp ⟨hy, ha⟩).1, ha, hr⟩

/-- A node is destroyed. -/
theorem fell (h : Felled w past tr w') (haccepts : w.accepts x = true)
    (hpurged : Purged w' x tr' w'') : Felled w (past ++ [x]) (tr ++ tr') w'' := by
  have hdestroying : w.isDestroying x = false := ((accepts_iff w x).mp haccepts).2
  refine
    { shed := (h.shed.trans hpurged.shed).widen ?_ ?_
      valid := fun y => ?_
      destroying := fun y => ?_
      removing := hpurged.removing.trans h.removing }
  · rintro k y (⟨hy, ha, hr⟩ | ⟨rfl, hr⟩)
    · exact ⟨List.mem_append_left _ hy, ha, hr⟩
    · exact ⟨List.mem_append_right _ List.mem_cons_self, haccepts, h.removing ▸ hr⟩
  · rintro k y - ⟨hy, ha, hr⟩
    rcases List.mem_append.mp hy with hy | hy
    · exact .inl ⟨hy, ha, hr⟩
    · obtain rfl := List.mem_singleton.mp hy
      exact .inr ⟨rfl, h.removing.symm ▸ hr⟩
  · rw [hpurged.valid, h.valid, List.mem_append, List.mem_singleton]
    constructor
    · rintro ⟨⟨hv, hno⟩, hne⟩
      refine ⟨hv, ?_⟩
      rintro ⟨hy | hy, ha⟩
      · exact hno ⟨hy, ha⟩
      · exact hne hy
    · rintro ⟨hv, hno⟩
      refine ⟨⟨hv, fun hc => hno ⟨.inl hc.1, hc.2⟩⟩, ?_⟩
      rintro rfl
      exact hno ⟨.inr rfl, haccepts⟩
  · rw [Bool.eq_iff_iff, hpurged.destroying, h.destroying]
    constructor
    · intro hd
      exact hd.1
    · intro hd
      refine ⟨hd, ?_⟩
      rintro rfl
      rw [hdestroying] at hd
      cases hd

end Felled

end World

/-! ## One cascade and its readers -/

/-- Handlers that only read. -/
def Handler.IsReader {U σ : Type} [SceneFamily U] : Handler U σ → Prop
  | .script body => ∀ e, (body e).ReadOnly
  | .cascade _ => False

namespace Machine

variable {U σ : Type} [SceneFamily U] [DecidableEq U] {m m' : Machine U σ}
variable {key k : ConnectionKey} {claims : Nat} {id : ComponentId} {e : Entity}

omit [DecidableEq U] in
theorem hushed_of_reader (h : ∀ handler, m.handlers[k]? = some handler → handler.IsReader)
    (e : Entity) : m.Hushed k e := by
  unfold Hushed
  cases hk : m.handlers[k]? with
  | none => trivial
  | some handler =>
    have hreader := h handler hk
    cases handler with
    | script body => exact hreader e
    | cascade claims => exact hreader.elim

/-- Whoever hears of a removal only reads, but for the cascade. -/
structure Tolled (m : Machine U σ) (key : ConnectionKey) (claims : Nat) : Prop where
  cascade : m.handlers[key]? = some (.cascade claims)
  readers : ∀ {j : ComponentId} {k : ConnectionKey} {handler : Handler U σ},
    k ∈ m.world.listeners j .destroy → k ≠ key → m.handlers[k]? = some handler → handler.IsReader

namespace Tolled

omit [DecidableEq U] in
theorem congr (h : m.Tolled key claims) (hworld : World.Tuned m.world m'.world)
    (hhandlers : m'.handlers = m.handlers) : m'.Tolled key claims :=
  { cascade := by rw [hhandlers, h.cascade]
    readers := fun hk hne hhandler =>
      h.readers (hworld.listeners _ _ ▸ hk) hne (hhandlers ▸ hhandler) }

omit [DecidableEq U] in
/-- Nobody acts on the destruction of a claimed node. -/
theorem hushedFor_of_claimed (h : m.Tolled key claims) (he : e ∈ m.claims.getD claims [])
    (j : ComponentId) : m.HushedFor j .destroy e := by
  intro k hmem
  by_cases hk : k = key
  · unfold Hushed
    rw [hk, h.cascade]
    exact he
  · exact hushed_of_reader (fun _ hhandler => h.readers hmem hk hhandler) e

end Tolled

/-- One cascade is connected, once, to the destruction of links and to nothing else. All
other handlers only read. -/
structure Planted (m : Machine U σ) (key : ConnectionKey) (claims : Nat) (id : ComponentId) :
    Prop where
  number : m.world.idOf? .node = some id
  cascade : m.handlers[key]? = some (.cascade claims)
  readers : ∀ {k : ConnectionKey} {handler : Handler U σ}, k ≠ key →
    m.handlers[k]? = some handler → handler.IsReader
  once : (m.world.listeners id .destroy).count key = 1
  elsewhere : ∀ {j : ComponentId} {event : LifeEvent}, key ∈ m.world.listeners j event →
    j = id ∧ event = .destroy
  active : m.world.board.isActive key = true

namespace Planted

theorem congr (h : m.Planted key claims id) (hworld : World.Tuned m.world m'.world)
    (hhandlers : m'.handlers = m.handlers) : m'.Planted key claims id :=
  { number := (hworld.idOf? _).trans h.number
    cascade := by rw [hhandlers, h.cascade]
    readers := fun hk hhandler => h.readers hk (hhandlers ▸ hhandler)
    once := by rw [hworld.listeners, h.once]
    elsewhere := fun hkey => h.elsewhere (hworld.listeners _ _ ▸ hkey)
    active := by rw [hworld.board, h.active] }

theorem hushed_of_ne (h : m.Planted key claims id) (hk : k ≠ key) (e : Entity) : m.Hushed k e :=
  hushed_of_reader (fun _ hhandler => h.readers hk hhandler) e

theorem tolled (h : m.Planted key claims id) : m.Tolled key claims :=
  { cascade := h.cascade
    readers := fun _ hne hhandler => h.readers hne hhandler }

/-- Nobody acts on anything but the destruction of links. -/
theorem hushedFor_of_ne (h : m.Planted key claims id) {j : ComponentId} {event : LifeEvent}
    (hne : ¬ (j = id ∧ event = .destroy)) (e : Entity) : m.HushedFor j event e := by
  intro k hmem
  refine h.hushed_of_ne ?_ e
  rintro rfl
  exact hne (h.elsewhere hmem)

end Planted

/-! ## The turns of a cascade -/

/-- A cascade goes on in the same way whatever it was answered. -/
theorem cascadeOn_on (m : Machine U σ) (stack : List (Frame U σ)) (b : Bool) (claims : Nat)
    (past ahead : List Entity) :
    (m.on stack (.reply b)).cascadeOn claims past ahead =
      (m.on stack (.reply true)).cascadeOn claims past ahead := by
  cases ahead <;> rfl

/-- A claimed node is destroyed, as far as it can be. -/
theorem serves_destroy_claimed {w : World (Kind U)} {past : List Entity} {tr : List Dispatch}
    {x : Entity} (htolled : m.Tolled key claims) (hclaimed : x ∈ m.claims.getD claims [])
    (hfelled : w.Felled past tr m.world) (hx : x ∉ past) :
    ∃ world host tr' b, w.Felled (past ++ [x]) (tr ++ tr') world ∧ World.Tuned m.world world ∧
      m.Serves (.destroy x) tr' { m with world, host } (.reply b) := by
  have hsame := hfelled.accepts_of_not_mem hx
  cases haccepts : w.accepts x with
  | false =>
    refine ⟨m.world, m.host, [], false, ?_, .refl _,
      serves_destroy_refused (hsame.trans haccepts)⟩
    rw [List.append_nil]
    exact hfelled.pass haccepts
  | true =>
    obtain ⟨world, host, tr', hpurged, hserve⟩ :=
      serves_destroy hfelled.shed.wf (hsame.trans haccepts) fun j _ =>
        htolled.hushedFor_of_claimed hclaimed j
    exact ⟨world, host, tr', true, hfelled.fell haccepts hpurged, hpurged.shed.tuned, hserve⟩

/-- A cascade in the middle of its turns: what is claimed is what had its turn and what
waits for it. -/
structure Midway (m : Machine U σ) (key : ConnectionKey) (claims : Nat) (w : World (Kind U))
    (e : Entity) (past ahead : List Entity) (tr : List Dispatch) : Prop where
  tolled : m.Tolled key claims
  frontier : w.Frontier e past ahead
  felled : w.Felled past tr m.world
  claimed : ∃ set, m.claims[claims]? = some set ∧ ∀ x, x ∈ set ↔ x ∈ past ++ ahead

/-- The next node has its turn. -/
theorem Midway.turn {w : World (Kind U)} {past ahead : List Entity} {x : Entity}
    {tr : List Dispatch} (h : m.Midway key claims w e past (x :: ahead) tr) :
    ∃ world host sets fresh tr',
      Midway { m with world, host, claims := sets } key claims w e (past ++ [x])
        (ahead ++ fresh) (tr ++ tr') ∧
      ∀ stack, ((m.on stack (.reply true)).cascadeOn claims past (x :: ahead)).Runs tr'
        ((on { m with world, host, claims := sets } stack (.reply true)).cascadeOn claims
          (past ++ [x]) (ahead ++ fresh)) := by
  obtain ⟨set, hset, hmem⟩ := h.claimed
  have hx : x ∉ past := fun hpast =>
    (List.nodup_append.mp h.frontier.nodup).2.2 x hpast x List.mem_cons_self rfl
  have hchildren : m.world.childrenOf x = w.childrenOf x := by
    rw [World.childrenOf, World.node?, h.felled.get?_of_not_mem .node hx]
    rfl
  have hget : m.claims.getD claims [] = set := by
    rw [Array.getD_eq_getD_getElem?, hset]
    rfl
  obtain ⟨fresh, hfresh⟩ : ∃ fresh, fresh = (claimAll set (w.childrenOf x)).1 := ⟨_, rfl⟩
  obtain ⟨set', hset'⟩ : ∃ set', set' = (claimAll set (w.childrenOf x)).2 := ⟨_, rfl⟩
  -- the links of the node are read before it is destroyed
  have hclaim : ∀ stack, (m.on stack (.reply true)).cascadeOn claims past (x :: ahead) =
      on { m with claims := m.claims.setIfInBounds claims set' }
        (.cascade claims (past ++ [x]) (ahead ++ fresh) :: stack) (.destroy x) := by
    intro stack
    rw [hfresh, hset', ← hchildren, ← hget]
    rfl
  have hin : (m.claims.setIfInBounds claims set')[claims]? = some set' :=
    Array.getElem?_setIfInBounds_self_of_lt (Array.getElem?_eq_some_iff.mp hset).1
  have hmem' : ∀ y, y ∈ set' ↔ y ∈ past ++ [x] ++ (ahead ++ fresh) := by
    intro y
    have hfirst : y ∈ fresh ↔ y ∈ w.childrenOf x ∧ y ∉ set := by rw [hfresh, mem_claimAll_fst]
    rw [hset', mem_claimAll_snd, show past ++ [x] ++ (ahead ++ fresh) = past ++ x :: ahead ++ fresh
      by simp, List.mem_append, ← hmem, hfirst]
    by_cases hy : y ∈ set
    · simp [hy]
    · simp [hy]
  have hclaimed : x ∈ (m.claims.setIfInBounds claims set').getD claims [] := by
    rw [Array.getD_eq_getD_getElem?, hin]
    exact (hmem' x).mpr (by simp)
  have htolled : Tolled { m with claims := m.claims.setIfInBounds claims set' } key claims :=
    h.tolled.congr (.refl _) rfl
  obtain ⟨world, host, tr', b, hfelled, htuned, hserve⟩ :=
    serves_destroy_claimed htolled hclaimed h.felled hx
  refine ⟨world, host, m.claims.setIfInBounds claims set', fresh, tr', ?_, fun stack => ?_⟩
  · exact
      { tolled := htolled.congr htuned rfl
        frontier := h.frontier.turn (hfresh ▸ nodup_claimAll_fst _ _) fun y => by
          rw [hfresh, mem_claimAll_fst, hmem]
        felled := hfelled
        claimed := ⟨set', hin, hmem'⟩ }
  · rw [hclaim]
    refine (hserve (.cascade claims (past ++ [x]) (ahead ++ fresh) :: stack)).snoc ?_ rfl
    rw [← cascadeOn_on _ stack b]
    rfl

/-- After the last turn the claims are given back. -/
theorem runs_cascadeOn_nil {w : World (Kind U)} {past : List Entity} {tr : List Dispatch}
    (h : m.Midway key claims w e past [] tr) :
    ∃ world host sets all tr', past ++ [] ⊆ all ∧ w.Frontier e all [] ∧
      w.Felled all (tr ++ tr') world ∧ sets[claims]? = some [] ∧
      ∀ stack, ((m.on stack (.reply true)).cascadeOn claims past []).Runs tr'
        (on { m with world, host, claims := sets } stack (.reply true)) := by
  obtain ⟨set, hset, hmem⟩ := h.claimed
  have hback : (m.claims.modify claims (·.filter (· ∉ past)))[claims]? = some [] := by
    rw [Array.getElem?_modify, if_pos rfl, hset, Option.map_some, Option.some_inj]
    refine List.filter_eq_nil_iff.mpr fun x hx => ?_
    rw [hmem, List.append_nil] at hx
    simp [hx]
  refine ⟨m.world, m.host, _, past, [], by simp, h.frontier, ?_, hback, fun stack => .refl _⟩
  rw [List.append_nil]
  exact h.felled

/-- A cascade comes to its end: it has claimed and destroyed what is below its node, and
gives all claims back. -/
theorem runs_cascadeOn {w : World (Kind U)} (hwf : w.Wf) {past ahead : List Entity}
    {tr : List Dispatch} (h : m.Midway key claims w e past ahead tr) :
    ∃ world host sets all tr', past ++ ahead ⊆ all ∧ w.Frontier e all [] ∧
      w.Felled all (tr ++ tr') world ∧ sets[claims]? = some [] ∧
      ∀ stack, ((m.on stack (.reply true)).cascadeOn claims past ahead).Runs tr'
        (on { m with world, host, claims := sets } stack (.reply true)) := by
  -- every turn moves a node to the past, and there is room for so many only
  induction hroom : w.mentioned.length + 1 - past.length generalizing m past ahead tr with
  | zero =>
    have hlength := h.frontier.length_le hwf
    rw [List.length_append] at hlength
    obtain rfl : ahead = [] := List.length_eq_zero_iff.mp (by omega)
    exact runs_cascadeOn_nil h
  | succ room ih =>
    cases ahead with
    | nil => exact runs_cascadeOn_nil h
    | cons x ahead =>
      obtain ⟨world, host, sets, fresh, tr', hmid, hturn⟩ := h.turn
      have hless : w.mentioned.length + 1 - (past ++ [x]).length = room := by
        rw [List.length_append, List.length_singleton]
        omega
      obtain ⟨world', host', sets', all, tr'', hsub, hfrontier, hfelled, hsets, hrun⟩ :=
        ih hmid hless
      rw [List.append_assoc] at hfelled
      refine ⟨world', host', sets', all, tr' ++ tr'', fun y hy => hsub ?_, hfrontier, hfelled,
        hsets, fun stack => (hturn stack).trans (hrun stack)⟩
      rw [show past ++ [x] ++ (ahead ++ fresh) = past ++ x :: ahead ++ fresh by simp]
      exact List.mem_append_left _ hy

end Machine

end EntityScene
