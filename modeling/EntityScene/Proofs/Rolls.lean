import Mathlib.Algebra.Group.Nat.Defs
import Mathlib.Data.List.Nodup
import EntityScene.Proofs.Rosters

/-!
# A table on its own

What a table of entities is good for can be said without slots. A roll lists the handles that
were issued and not given up since, and those that were given up and whose index was not used
again, the latest first. Whoever is asked about is looked for in the first list, and the next
handle is for the head of the second.

- `Table.Op`, `Table.Event`: what a table is asked for, and what comes of it. Handles may be any
  at all: stale, null, or made up.
- `Roll`, `Roll.serve`: the same on a roll. A roll on which every index is live serves nobody.
- `Table.Enrolled`: a table whose handles are those of a roll.
- `enrolled_perform`, `enrolled_serve`: kept by every operation.
- `countP_issued`: an index is issued as often as it is given up, and once more while it is live.
- `pairwise_issued`: of two handles for one index the later has the greater generation.
- `tables_keep_rolls`: what this says about all sequences of operations.
-/

namespace EntityScene.Entity

namespace Table

/-- What a table is asked for. -/
inductive Op
  /-- Issue a handle. -/
  | allocate
  /-- Give a handle up. -/
  | release (e : Entity)
deriving DecidableEq

/-- What comes of it. -/
inductive Event
  | issued (e : Entity)
  | released (e : Entity)
  /-- Whoever was to be given up is not live. -/
  | refused (e : Entity)
deriving DecidableEq

namespace Event

/-- The handle that was issued. -/
def issued? : Event → Option Entity
  | .issued e => some e
  | _ => none

/-- The handle that was given up. -/
def released? : Event → Option Entity
  | .released e => some e
  | _ => none

@[simp] theorem issued?_issued (e : Entity) : (Event.issued e).issued? = some e := rfl

@[simp] theorem issued?_released (e : Entity) : (Event.released e).issued? = none := rfl

@[simp] theorem issued?_refused (e : Entity) : (Event.refused e).issued? = none := rfl

@[simp] theorem released?_issued (e : Entity) : (Event.issued e).released? = none := rfl

@[simp] theorem released?_released (e : Entity) : (Event.released e).released? = some e := rfl

@[simp] theorem released?_refused (e : Entity) : (Event.refused e).released? = none := rfl

end Event

/-- One operation on a table. -/
def perform (t : Table) : Op → Except Abort Event × Table
  | .allocate =>
    let (e, t) := t.allocate
    (e.map .issued, t)
  | .release e =>
    let (accepted, t) := t.release e
    (.ok (if accepted then .released e else .refused e), t)

/-- Operations one after the other. -/
def serve (t : Table) : List Op → List (Except Abort Event) × Table
  | [] => ([], t)
  | op :: ops =>
    let (event, t) := t.perform op
    let (events, t) := t.serve ops
    (event :: events, t)

end Table

/-! ## Rolls -/

/-- Who is live, and whose index waits to be used again. -/
structure Roll where
  live : List Entity := []
  /-- Handles that were given up, the latest first, as long as their index was not used again. -/
  gaps : List Entity := []
  /-- Number of indices ever used. -/
  opened : Nat := 0
deriving DecidableEq

namespace Roll

open Table (Op Event)

/-- A roll that nobody is on. -/
def empty : Roll := {}

/-- The handle that is issued next: for the index given up last, with the generation after the
one that it was given up with, else for the next index that was never used. -/
def next? (r : Roll) : Option Entity :=
  match r.gaps with
  | x :: _ => some ⟨x.index, x.generation.next⟩
  | [] => if r.opened < nullIndex.toNat then some ⟨.ofNat r.opened, .initial⟩ else none

/-- The roll once the next handle is issued. -/
def issue (r : Roll) (e : Entity) : Roll where
  live := e :: r.live
  gaps := r.gaps.tail
  opened := if r.gaps = [] then r.opened + 1 else r.opened

/-- The roll once a live handle is given up. -/
def giveUp (r : Roll) (e : Entity) : Roll :=
  { r with live := r.live.erase e, gaps := e :: r.gaps }

/-- One operation on a roll; none if a handle is asked for and every index is live. -/
def perform (r : Roll) : Op → Option (Event × Roll)
  | .allocate => r.next?.map fun e => (.issued e, r.issue e)
  | .release e => some (if e ∈ r.live then (.released e, r.giveUp e) else (.refused e, r))

/-- Operations one after the other, as long as there is an index left. -/
def serve (r : Roll) : List Op → Option (List Event × Roll)
  | [] => some ([], r)
  | op :: ops => do
    let (event, r) ← r.perform op
    let (events, r) ← r.serve ops
    return (event :: events, r)

variable {r r' : Roll} {op : Op} {ops : List Op} {event : Event} {events : List Event}

/-- Whoever is served was served the first operation, and the others after that. -/
theorem serve_cons (h : r.serve (op :: ops) = some (events, r')) :
    ∃ event mid rest, r.perform op = some (event, mid) ∧ mid.serve ops = some (rest, r') ∧
      events = event :: rest := by
  simp only [serve, Option.bind_eq_bind, Option.bind_eq_some_iff, Prod.exists] at h
  obtain ⟨event, mid, hop, rest, last, hops, heq⟩ := h
  cases heq
  exact ⟨event, mid, rest, hop, hops, rfl⟩

/-- What a roll answers to one operation. -/
theorem perform_cases (h : r.perform op = some (event, r')) :
    (∃ e, op = .allocate ∧ r.next? = some e ∧ event = .issued e ∧ r' = r.issue e) ∨
      (∃ e, op = .release e ∧ e ∈ r.live ∧ event = .released e ∧ r' = r.giveUp e) ∨
      ∃ e, op = .release e ∧ e ∉ r.live ∧ event = .refused e ∧ r' = r := by
  cases op with
  | allocate =>
    obtain ⟨e, hnext, heq⟩ := Option.map_eq_some_iff.mp h
    cases heq
    exact .inl ⟨e, rfl, hnext, rfl, rfl⟩
  | release e =>
    simp only [perform, Option.some.injEq] at h
    split at h
    · rename_i he
      cases h
      exact .inr (.inl ⟨e, rfl, he, rfl, rfl⟩)
    · rename_i he
      cases h
      exact .inr (.inr ⟨e, rfl, he, rfl, rfl⟩)

/-- Whoever is given up was live. -/
theorem countP_giveUp {e : Entity} (he : e ∈ r.live) (i : UInt32) :
    (r.giveUp e).live.countP (·.index == i) + (if e.index == i then 1 else 0) =
      r.live.countP (·.index == i) := by
  rw [(List.perm_cons_erase he).countP_eq, List.countP_cons]
  rfl

/-- An index is issued as often as it is given up, but for those that are live. -/
theorem countP_issued (h : r.serve ops = some (events, r')) (i : UInt32) :
    (events.filterMap Event.issued?).countP (·.index == i) + r.live.countP (·.index == i) =
      (events.filterMap Event.released?).countP (·.index == i) +
        r'.live.countP (·.index == i) := by
  induction ops generalizing r events with
  | nil =>
    cases h
    rfl
  | cons op ops ih =>
    obtain ⟨event, mid, rest, hop, hops, rfl⟩ := serve_cons h
    have hrest := ih hops
    rcases perform_cases hop with ⟨e, -, -, rfl, rfl⟩ | ⟨e, -, he, rfl, rfl⟩ | ⟨e, -, -, rfl, rfl⟩
    · rw [issue, List.countP_cons] at hrest
      simp only [List.filterMap_cons, Event.issued?_issued, Event.released?_issued,
        List.countP_cons]
      omega
    · have hgone := countP_giveUp he i
      simp only [List.filterMap_cons, Event.issued?_released, Event.released?_released,
        List.countP_cons]
      omega
    · simp only [List.filterMap_cons, Event.issued?_refused, Event.released?_refused]
      exact hrest

end Roll

namespace Table

variable {t t' : Table} {r r' : Roll} {op : Op} {ops : List Op} {event : Event}
variable {events : List Event}

/-! ## Tables that keep a roll -/

/-- The handles of a table are those of a roll. -/
structure Enrolled (t : Table) (r : Roll) : Prop where
  wf : t.Wf
  alive : ∀ e, t.isAlive e = true ↔ e ∈ r.live
  nodup : r.live.Nodup
  released : t.released = r.gaps.map (·.index)
  gap : ∀ x ∈ r.gaps, t.slots[x.index.toNat]? = some ⟨x.generation.next, .free⟩
  opened : t.slots.size = r.opened
  total : t.aliveCount + t.released.length = t.slots.size

theorem enrolled_empty : Enrolled empty .empty :=
  { wf := wf_empty
    alive := fun e => by simp [isAlive, state?, slot?, empty, Roll.empty]
    nodup := List.nodup_nil
    released := rfl
    gap := fun x hx => by cases hx
    opened := rfl
    total := rfl }

namespace Enrolled

/-- The handles on the roll are those that the table lists. -/
theorem perm (h : t.Enrolled r) : t.toList.Perm r.live := by
  refine (List.perm_ext_iff_of_nodup (nodup_toList h.wf) h.nodup).mpr fun e => ?_
  rw [mem_toList_iff h.wf, h.alive]

/-- No two handles on a roll are for one index. -/
theorem countP_index_le_one (h : t.Enrolled r) (i : UInt32) :
    r.live.countP (·.index == i) ≤ 1 := by
  rw [← h.perm.countP_eq]
  exact countP_index_toList_le_one h.wf i

/-- The count is that of the handles on the roll. -/
theorem aliveCount_eq (h : t.Enrolled r) : t.aliveCount = r.live.length := by
  rw [← h.wf.live_eq, ← length_toList, h.perm.length_eq]

/-- A table has a handle left as long as its roll has one. -/
theorem exists_allocate (h : t.Enrolled r) {e : Entity} (hnext : r.next? = some e) :
    ∃ e' t', t.allocate = (.ok e', t') := by
  obtain ⟨created, t', halloc⟩ : ∃ created t', t.allocate = (created, t') := ⟨_, _, rfl⟩
  cases created with
  | ok e' => exact ⟨e', t', halloc⟩
  | error cause =>
    obtain ⟨-, hfull, hnone⟩ := allocate_error h.wf halloc
    have htotal := h.total
    have hgaps : r.gaps = [] := List.map_eq_nil_iff.mp (h.released.symm.trans hnone)
    rw [hnone, List.length_nil, h.opened] at htotal
    simp only [Roll.next?, hgaps] at hnext
    split at hnext
    · omega
    · cases hnext

/-- What is issued is the handle that is next on the roll. -/
theorem next?_eq (h : t.Enrolled r) {e : Entity} (halloc : t.allocate = (.ok e, t')) :
    r.next? = some e := by
  rcases allocate_cases h.wf halloc with ⟨rest, hrel, hfree, -⟩ | ⟨hrel, hindex, hgen, hroom, -⟩
  · obtain ⟨x, gaps, hgaps, hx, -⟩ := List.map_eq_cons_iff.mp (h.released.symm.trans hrel)
    have hgap := h.gap x (hgaps ▸ List.mem_cons_self)
    rw [hx, hfree] at hgap
    have hgen := (Slot.mk.inj (Option.some.inj hgap)).1
    simp only [Roll.next?, hgaps, Option.some.injEq]
    exact eq_iff.mpr ⟨hx, hgen.symm⟩
  · have hgaps : r.gaps = [] := List.map_eq_nil_iff.mp (h.released.symm.trans hrel)
    have hnew : UInt32.ofNat r.opened = e.index := by
      rw [← h.opened, ← hindex, UInt32.ofNat_toNat]
    rw [h.opened] at hroom
    simp only [Roll.next?, hgaps, if_pos hroom, Option.some.injEq]
    exact eq_iff.mpr ⟨hnew, hgen.symm⟩

/-- Who is issued is put on the roll. -/
theorem issue (h : t.Enrolled r) {e : Entity} (halloc : t.allocate = (.ok e, t')) :
    t'.Enrolled (r.issue e) := by
  have halive : ∀ x, t'.isAlive x = true ↔ x ∈ e :: r.live := fun x => by
    rw [isAlive_allocate h.wf halloc, List.mem_cons, h.alive]
  have hnodup : (e :: r.live).Nodup := by
    refine List.nodup_cons.mpr ⟨fun hmem => ?_, h.nodup⟩
    have hdead := isAlive_of_allocate h.wf halloc
    rw [(h.alive e).mpr hmem] at hdead
    cases hdead
  have hwf := wf_allocate h.wf halloc
  have htotal := h.total
  rcases allocate_cases h.wf halloc with ⟨rest, hrel, hfree, rfl⟩ | ⟨hrel, hindex, -, -, rfl⟩
  · obtain ⟨x, gaps, hgaps, hx, hrest⟩ := List.map_eq_cons_iff.mp (h.released.symm.trans hrel)
    have hnot : e.index ∉ rest := (List.nodup_cons.mp (hrel ▸ h.wf.nodup_released)).1
    have htail : (r.issue e).gaps = gaps := by rw [Roll.issue, hgaps]; rfl
    refine
      { wf := hwf, alive := halive, nodup := hnodup
        released := by rw [htail]; exact hrest.symm
        gap := fun y hy => ?_
        opened := ?_
        total := ?_ }
    · rw [htail] at hy
      have hne : y.index ≠ e.index := fun heq =>
        hnot (heq ▸ hrest ▸ List.mem_map_of_mem hy)
      refine Eq.trans (Array.getElem?_setIfInBounds_ne fun heq => hne ?_)
        (h.gap y (hgaps ▸ List.mem_cons_of_mem x hy))
      exact UInt32.toNat_inj.mp heq.symm
    · rw [Roll.issue, hgaps, if_neg (List.cons_ne_nil x gaps), ← h.opened]
      exact Array.size_setIfInBounds
    · rw [hrel, List.length_cons] at htotal
      show t.aliveCount + 1 + rest.length = (t.slots.setIfInBounds _ _).size
      rw [Array.size_setIfInBounds]
      omega
  · have hgaps : r.gaps = [] := List.map_eq_nil_iff.mp (h.released.symm.trans hrel)
    have htail : (r.issue e).gaps = [] := by rw [Roll.issue, hgaps]; rfl
    refine
      { wf := hwf, alive := halive, nodup := hnodup
        released := by rw [htail]; exact hrel
        gap := fun y hy => by rw [htail] at hy; cases hy
        opened := ?_
        total := ?_ }
    · rw [Roll.issue, if_pos hgaps, ← h.opened]
      exact Array.size_push _
    · show t.aliveCount + 1 + t.released.length = (t.slots.push _).size
      rw [Array.size_push]
      omega

/-- Who is given up leaves the roll, and its index waits. -/
theorem giveUp (h : t.Enrolled r) {e : Entity} (he : e ∈ r.live) :
    (t.release e).2.Enrolled (r.giveUp e) := by
  have halive := (h.alive e).mpr he
  obtain ⟨st, hslot, hst⟩ := isAlive_iff_exists.mp halive
  have hpos := countP_pos_of_slot hslot hst
  have htotal := h.total
  have hwf := wf_release h.wf e
  have hmem : ∀ x, (t.release e).2.isAlive x = true ↔ x ∈ (r.giveUp e).live := fun x => by
    rw [isAlive_release halive, Roll.giveUp, h.nodup.mem_erase_iff, h.alive, and_comm]
  simp only [release, if_pos halive] at hwf hmem ⊢
  refine
    { wf := hwf, alive := hmem
      nodup := h.nodup.erase e
      released := congrArg (e.index :: ·) h.released
      gap := fun y hy => ?_
      opened := ?_
      total := ?_ }
  · rcases List.mem_cons.mp hy with rfl | hy
    · exact slots_setSlot_self _ hslot
    · -- an index that waits is that of a free slot
      have hgap := h.gap y hy
      refine Eq.trans (Array.getElem?_setIfInBounds_ne fun heq => ?_) hgap
      rw [← heq, hslot] at hgap
      exact hst (Slot.mk.inj (Option.some.inj hgap)).2
  · exact Array.size_setIfInBounds.trans h.opened
  · rw [h.wf.live_eq] at hpos
    show t.aliveCount - 1 + (e.index :: t.released).length = (t.slots.setIfInBounds _ _).size
    rw [Array.size_setIfInBounds, List.length_cons]
    omega

end Enrolled

/-- Who is not live is not given up, and nothing changes. -/
theorem release_of_not_isAlive {e : Entity} (h : t.isAlive e ≠ true) : t.release e = (false, t) := by
  simp [release, h]

/-- A table that keeps a roll answers what the roll answers, and keeps it. -/
theorem enrolled_perform (h : t.Enrolled r) (hop : r.perform op = some (event, r')) :
    (t.perform op).1 = .ok event ∧ (t.perform op).2.Enrolled r' := by
  rcases Roll.perform_cases hop with ⟨e, rfl, hnext, rfl, rfl⟩ | ⟨e, rfl, he, rfl, rfl⟩ |
    ⟨e, rfl, he, rfl, rfl⟩
  · obtain ⟨e', t', halloc⟩ := h.exists_allocate hnext
    obtain rfl : e = e' := Option.some.inj (hnext.symm.trans (h.next?_eq halloc))
    simp only [perform, halloc]
    exact ⟨rfl, h.issue halloc⟩
  · have haccepted : (t.release e).1 = true := by simp [release, (h.alive e).mpr he]
    refine ⟨?_, h.giveUp he⟩
    simp only [perform, haccepted, if_true]
  · have hrefused := release_of_not_isAlive fun ha => he ((h.alive e).mp ha)
    simp only [perform, hrefused, Bool.false_eq_true, if_false, true_and]
    exact h

/-- So it is for operations one after the other. -/
theorem enrolled_serve (h : t.Enrolled r) (hops : r.serve ops = some (events, r')) :
    (t.serve ops).1 = events.map .ok ∧ (t.serve ops).2.Enrolled r' := by
  induction ops generalizing t r events with
  | nil =>
    cases hops
    exact ⟨rfl, h⟩
  | cons op ops ih =>
    obtain ⟨event, mid, rest, hop, hrest, rfl⟩ := Roll.serve_cons hops
    obtain ⟨hevent, hmid⟩ := enrolled_perform h hop
    obtain ⟨hevents, hlast⟩ := ih hmid hrest
    refine ⟨?_, hlast⟩
    simp only [serve, hevent, hevents, List.map_cons]

/-! ## Generations -/

/-- Of two handles for one index, the latest issued first, the later has the greater
generation. -/
def Outgrown (issued : List Entity) : Prop :=
  issued.Pairwise fun y x => x.index = y.index → x.generation < y.generation

variable {issued : List Entity} {count : UInt32 → Nat}

/-- The handle that is issued next has a greater generation than those that its index had. -/
theorem Entered.lt_of_allocate (h : t.Entered issued count) (hwf : t.Wf) {e x : Entity}
    (halloc : t.allocate = (.ok e, t'))
    (hbound : ∀ i, (e :: issued).countP (·.index == i) ≤ 2 ^ 32) (hx : x ∈ issued)
    (hindex : x.index = e.index) : x.generation < e.generation := by
  obtain ⟨hopen, hle⟩ := h.known x hx
  rw [hindex] at hopen hle
  rcases allocate_cases hwf halloc with ⟨rest, hrel, hfree, -⟩ | ⟨-, hnew, -⟩
  · have hgen := h.dated.generation_of_released hrel hfree (h.reusing_lt hwf halloc hbound)
    have hcount : t.reusing count e.index = count e.index + 1 := by
      simp [reusing, hrel]
    rw [Generation.lt_iff, UInt32.lt_iff_toNat_lt]
    omega
  · omega

/-- So it is for all handles that are issued, if no index is issued too often. -/
theorem outgrown_serve (h : t.Enrolled r) (hentered : t.Entered issued count)
    (hops : r.serve ops = some (events, r'))
    (hbound : ∀ i, ((events.filterMap Event.issued?).reverse ++ issued).countP (·.index == i) ≤
      2 ^ 32) (hgrown : Outgrown issued) :
    Outgrown ((events.filterMap Event.issued?).reverse ++ issued) := by
  induction ops generalizing t r events issued count with
  | nil =>
    cases hops
    exact hgrown
  | cons op ops ih =>
    obtain ⟨event, mid, rest, hop, hrest, rfl⟩ := Roll.serve_cons hops
    have hmid := (enrolled_perform h hop).2
    rcases Roll.perform_cases hop with ⟨e, rfl, hnext, rfl, rfl⟩ | ⟨e, rfl, he, rfl, rfl⟩ |
      ⟨e, rfl, he, rfl, rfl⟩
    · obtain ⟨e', t', halloc⟩ := h.exists_allocate hnext
      obtain rfl : e = e' := Option.some.inj (hnext.symm.trans (h.next?_eq halloc))
      simp only [List.filterMap_cons, Event.issued?_issued, List.reverse_cons, List.append_assoc,
        List.singleton_append] at hbound ⊢
      -- whoever was issued up to now is among those that are issued in the end
      have hnow : ∀ i, (e :: issued).countP (·.index == i) ≤ 2 ^ 32 := fun i =>
        Nat.le_trans ((List.sublist_append_right _ _).countP_le) (hbound i)
      refine ih (h.issue halloc) (hentered.allocate h.wf halloc hnow) hrest hbound ?_
      exact List.pairwise_cons.mpr
        ⟨fun x hx hindex => hentered.lt_of_allocate h.wf halloc hnow hx hindex, hgrown⟩
    · simp only [List.filterMap_cons, Event.issued?_released] at hbound ⊢
      exact ih hmid (hentered.release ((h.alive e).mpr he)) hrest hbound hgrown
    · simp only [List.filterMap_cons, Event.issued?_refused] at hbound ⊢
      rw [perform, release_of_not_isAlive fun ha => he ((h.alive e).mp ha)] at hmid
      exact ih hmid hentered hrest hbound hgrown

/-- Starting from nothing, whoever is issued for an index has a greater generation than whoever
was issued for it before, if no index is given up too often. -/
theorem pairwise_issued (hops : Roll.empty.serve ops = some (events, r))
    (hbound : ∀ i, (events.filterMap Event.released?).countP (·.index == i) < 2 ^ 32) :
    (events.filterMap Event.issued?).Pairwise fun x y =>
      x.index = y.index → x.generation < y.generation := by
  have hlast := (enrolled_serve enrolled_empty hops).2
  have hissued : ∀ i, (events.filterMap Event.issued?).countP (·.index == i) ≤ 2 ^ 32 := by
    intro i
    have hcount := Roll.countP_issued hops i
    have hone := hlast.countP_index_le_one i
    have hreleased := hbound i
    simp only [Roll.empty, List.countP_nil] at hcount
    omega
  have hgrown : Outgrown ((events.filterMap Event.issued?).reverse ++ []) := by
    refine outgrown_serve enrolled_empty entered_empty hops (fun i => ?_) .nil
    rw [List.append_nil, List.countP_reverse]
    exact hissued i
  rw [Outgrown, List.append_nil, List.pairwise_reverse] at hgrown
  exact hgrown

/-! ## What a table answers -/

/-- Whatever is asked for, and with whatever handles, as long as an index is left for whoever
asks for one: a table answers what the roll of its handles answers. Exactly the live handles
can be given up, and whoever asks for another changes nothing; a handle that is issued is for
the index given up last, of the next generation, or else for the next index that was never
used. The released indices are those of the free slots, each of them once, and together with
the live handles they make up all slots. If no index is given up `2 ^ 32` times no handle is
issued twice, and an index that is used again has a greater generation. -/
theorem tables_keep_rolls (ops : List Op) {events : List Event} {roll : Roll}
    (h : Roll.empty.serve ops = some (events, roll)) :
    let t := (empty.serve ops).2
    (empty.serve ops).1 = events.map .ok ∧
      (∀ e, (t.release e).1 = true ↔ e ∈ roll.live) ∧
      (∀ e, e ∉ roll.live → (t.release e).2 = t) ∧
      (∀ e, e ∈ roll.live → 0 < t.aliveCount) ∧
      (∀ e, roll.next? = some e → t.allocate.1 = .ok e) ∧
      t.released = roll.gaps.map (·.index) ∧ t.released.Nodup ∧
      (∀ i : UInt32, i ∈ t.released ↔ ∃ g, t.slots[i.toNat]? = some ⟨g, .free⟩) ∧
      t.aliveCount = roll.live.length ∧ t.aliveCount + t.released.length = t.capacity ∧
      ((∀ i, (events.filterMap Event.released?).countP (·.index == i) < 2 ^ 32) →
        (events.filterMap Event.issued?).Nodup ∧
        (events.filterMap Event.issued?).Pairwise fun x y =>
          x.index = y.index → x.generation < y.generation) := by
  intro t
  obtain ⟨hevents, henrolled⟩ := enrolled_serve enrolled_empty h
  have hrefused : ∀ e, e ∉ roll.live → t.release e = (false, t) := fun e he =>
    release_of_not_isAlive fun ha => he ((henrolled.alive e).mp ha)
  refine ⟨hevents, fun e => ?_, fun e he => by rw [hrefused e he], fun e he => ?_,
    fun e hnext => ?_, henrolled.released, henrolled.wf.nodup_released,
    henrolled.wf.mem_released, henrolled.aliveCount_eq, henrolled.total, fun hbound => ?_⟩
  · rw [← henrolled.alive, release]
    split
    · rename_i ha
      exact iff_of_true rfl ha
    · rename_i ha
      exact iff_of_false Bool.false_ne_true ha
  · rw [henrolled.aliveCount_eq]
    exact List.length_pos_of_mem he
  · obtain ⟨e', t', halloc⟩ := henrolled.exists_allocate hnext
    obtain rfl : e = e' := Option.some.inj (hnext.symm.trans (henrolled.next?_eq halloc))
    show t.allocate.1 = _
    rw [halloc]
  · have hgrown := pairwise_issued h hbound
    refine ⟨hgrown.imp fun {x y} hlt heq => ?_, hgrown⟩
    rw [heq] at hlt
    exact UInt32.lt_irrefl _ (hlt rfl)

/-- Two indices are used, and the first is given up and used again. Handles that were made up,
also with the generation that a free slot has next, are refused. -/
theorem tables_keep_rolls_forgeries :
    let ops : List Op := [.allocate, .allocate, .release null, .release ⟨0, ⟨1⟩⟩,
      .release ⟨0, ⟨0⟩⟩, .release ⟨0, ⟨0⟩⟩, .release ⟨0, ⟨1⟩⟩, .release ⟨7, ⟨0⟩⟩, .allocate]
    let events : List Event := [.issued ⟨0, ⟨0⟩⟩, .issued ⟨1, ⟨0⟩⟩, .refused null,
      .refused ⟨0, ⟨1⟩⟩, .released ⟨0, ⟨0⟩⟩, .refused ⟨0, ⟨0⟩⟩, .refused ⟨0, ⟨1⟩⟩,
      .refused ⟨7, ⟨0⟩⟩, .issued ⟨0, ⟨1⟩⟩]
    Roll.empty.serve ops =
        some (events, { live := [⟨0, ⟨1⟩⟩, ⟨1, ⟨0⟩⟩], gaps := [], opened := 2 }) ∧
      (empty.serve ops).1 = events.map .ok ∧
      (∀ i, (events.filterMap Event.released?).countP (·.index == i) < 2 ^ 32) ∧
      (events.filterMap Event.issued?).Nodup := by
  intro ops events
  have hserve : Roll.empty.serve ops =
      some (events, { live := [⟨0, ⟨1⟩⟩, ⟨1, ⟨0⟩⟩], gaps := [], opened := 2 }) := by decide
  have hbound : ∀ i, (events.filterMap Event.released?).countP (·.index == i) < 2 ^ 32 := fun i =>
    Nat.lt_of_le_of_lt List.countP_le_length (by decide)
  obtain ⟨hevents, -, -, -, -, -, -, -, -, -, hissued⟩ := tables_keep_rolls ops hserve
  exact ⟨hserve, hevents, hbound, (hissued hbound).1⟩

end Table

end EntityScene.Entity
