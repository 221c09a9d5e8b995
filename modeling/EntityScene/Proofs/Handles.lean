import Mathlib.Data.List.Basic
import Mathlib.Data.List.Perm.Subperm
import EntityScene.Entity
import EntityScene.Entity.Table

/-!
# What a table of entities says about handles

The three transitions of a table, read through the two questions that the rest of
the library asks: which handles are alive, and which of them are being destroyed.

- `Table.Wf`: no index is null, released indices are exactly the free slots, each
  of them once, and the count is that of the live entities.
- `Table.eq_of_isAlive`: an index has at most one live handle.
- `Table.wf_allocate`, `wf_beginDestroy`, `wf_release`: kept by every transition.
- `isAlive_allocate`, `isDestroying_allocate`, ..: one equation for each question
  and transition; only the handle in hand changes its answer.
- `Table.length_le_aliveCount`: pairwise different live handles are no more than
  the count says.
-/

namespace EntityScene

/-- Handles are equal when both parts are. -/
theorem Entity.eq_iff {x e : Entity} :
    x = e ↔ x.index = e.index ∧ x.generation = e.generation := by
  obtain ⟨i, g⟩ := x
  obtain ⟨i', g'⟩ := e
  exact Entity.mk.injEq .. ▸ Iff.rfl

namespace Entity.Table

variable {t t' : Table} {e x : Entity}

/-! ## Slots and states -/

theorem slot?_eq_some_iff {s : Slot} :
    t.slot? e = some s ↔
      t.slots[e.index.toNat]? = some s ∧ s.generation = e.generation := by
  simp [slot?, Option.filter_eq_some_iff]

theorem state?_eq_some_iff {st : SlotState} :
    t.state? e = some st ↔ t.slots[e.index.toNat]? = some ⟨e.generation, st⟩ := by
  simp only [state?, Option.map_eq_some_iff, slot?_eq_some_iff]
  constructor
  · rintro ⟨⟨g, st'⟩, ⟨hs, rfl⟩, rfl⟩
    exact hs
  · intro hs
    exact ⟨_, ⟨hs, rfl⟩, rfl⟩

/-- What a handle reads off the slot at its index. -/
theorem state?_of_slot {g : Generation} {st : SlotState}
    (h : t.slots[x.index.toNat]? = some ⟨g, st⟩) :
    t.state? x = if g = x.generation then some st else none := by
  by_cases hg : g = x.generation
  · simp [state?, slot?, h, hg]
  · simp [state?, slot?, h, hg]

/-- Without a slot at its index a handle has no state. -/
theorem state?_of_no_slot (h : t.slots[x.index.toNat]? = none) : t.state? x = none := by
  simp [state?, slot?, h]

theorem isAlive_iff_exists :
    t.isAlive e = true ↔
      ∃ st, t.slots[e.index.toNat]? = some ⟨e.generation, st⟩ ∧ st ≠ .free := by
  simp only [isAlive_iff, state?_eq_some_iff]
  constructor
  · rintro (h | h)
    · exact ⟨_, h, by decide⟩
    · exact ⟨_, h, by decide⟩
  · rintro ⟨st, h, hne⟩
    cases st with
    | alive => exact .inl h
    | destroying => exact .inr h
    | free => exact absurd rfl hne

/-- An index has at most one live handle. -/
theorem eq_of_isAlive (he : t.isAlive e = true) (hx : t.isAlive x = true)
    (hi : x.index = e.index) : x = e := by
  obtain ⟨st, hst, -⟩ := isAlive_iff_exists.mp he
  obtain ⟨st', hst', -⟩ := isAlive_iff_exists.mp hx
  rw [hi, hst] at hst'
  obtain ⟨i, g⟩ := e
  obtain ⟨i', g'⟩ := x
  simp only [Option.some.injEq, Slot.mk.injEq] at hst'
  simp only [Entity.mk.injEq]
  exact ⟨hi, hst'.1.symm⟩

/-- A live entity is being destroyed or not begun to be. -/
theorem state?_of_isAlive (ha : t.isAlive e = true) (hd : t.isDestroying e = false) :
    t.state? e = some .alive := by
  rcases (isAlive_iff t e).mp ha with h | h
  · exact h
  · rw [(isDestroying_iff t e).mpr h] at hd
    cases hd

/-- Every index other than that of the overwritten slot keeps its state. -/
theorem state?_setSlot_of_ne {i : UInt32} (s : Slot) (hi : x.index ≠ i) :
    (t.setSlot i s).state? x = t.state? x := by
  have hne : i.toNat ≠ x.index.toNat := fun h => hi (UInt32.toNat_inj.mp h.symm)
  simp [state?, slot?, setSlot, Array.getElem?_setIfInBounds_ne hne]

/-- What a handle finds in a slot that was overwritten. -/
theorem slots_setSlot_self {i : UInt32} {s₀ : Slot} (s : Slot)
    (h : t.slots[i.toNat]? = some s₀) : (t.setSlot i s).slots[i.toNat]? = some s := by
  have hlt : i.toNat < t.slots.size := (Array.getElem?_eq_some_iff.mp h).1
  exact Array.getElem?_setIfInBounds_self_of_lt hlt

/-- What a handle with the index of an overwritten slot reads. -/
theorem state?_setSlot_self {s₀ : Slot} {g : Generation} {st : SlotState}
    (h : t.slots[e.index.toNat]? = some s₀) (hi : x.index = e.index) :
    (t.setSlot e.index ⟨g, st⟩).state? x = if g = x.generation then some st else none := by
  refine state?_of_slot ?_
  rw [hi]
  exact slots_setSlot_self _ h

/-! ## Well-formed tables -/

/-- The bookkeeping of a table is in order. -/
structure Wf (t : Table) : Prop where
  size_le : t.slots.size ≤ nullIndex.toNat
  mem_released : ∀ i : UInt32,
    i ∈ t.released ↔ ∃ g, t.slots[i.toNat]? = some ⟨g, .free⟩
  nodup_released : t.released.Nodup
  live_eq : t.slots.countP (·.state != .free) = t.aliveCount

theorem wf_empty : Wf empty :=
  { size_le := Nat.zero_le _
    mem_released := by simp [empty]
    nodup_released := List.nodup_nil
    live_eq := rfl }

/-- A live handle is not null. -/
theorem Wf.isNull_eq_false (h : t.Wf) (he : t.isAlive e = true) : e.isNull = false := by
  rw [isNull_eq_false_iff]
  intro hn
  obtain ⟨st, hst, -⟩ := isAlive_iff_exists.mp he
  have hlt := (Array.getElem?_eq_some_iff.mp hst).1
  have hle := h.size_le
  rw [hn] at hlt
  omega

/-- The number of live slots after one slot was overwritten. -/
theorem countP_setSlot {i : UInt32} {s₀ : Slot} (s : Slot)
    (h : t.slots[i.toNat]? = some s₀) :
    (t.setSlot i s).slots.countP (·.state != .free) =
      t.slots.countP (·.state != .free) - (if s₀.state != .free then 1 else 0)
        + (if s.state != .free then 1 else 0) := by
  obtain ⟨hlt, heq⟩ := Array.getElem?_eq_some_iff.mp h
  show (t.slots.setIfInBounds i.toNat s).countP _ = _
  rw [Array.setIfInBounds, dif_pos hlt, Array.countP_set, heq]

/-- A live slot is counted. -/
theorem countP_pos_of_slot {i : Nat} {s : Slot} (h : t.slots[i]? = some s)
    (hs : s.state ≠ .free) : 0 < t.slots.countP (·.state != .free) := by
  rw [Array.countP_pos_iff]
  exact ⟨s, Array.mem_of_getElem? h, by simpa using hs⟩

/-! ## Issuing a handle -/

/-- Whoever is issued a handle is counted. -/
theorem room_of_allocate (h : t.allocate = (.ok e, t')) : t.aliveCount + 1 < UInt32.size := by
  by_contra hfull
  simp only [allocate, if_neg hfull] at h
  cases h

/-- The two ways to issue a handle: for an index that was released, with the
generation its slot was left in, or for a new index. -/
theorem allocate_cases (hwf : t.Wf) (h : t.allocate = (.ok e, t')) :
    (∃ rest, t.released = e.index :: rest ∧
        t.slots[e.index.toNat]? = some ⟨e.generation, .free⟩ ∧
        t' = { t with released := rest, aliveCount := t.aliveCount + 1 }.setSlot e.index
          ⟨e.generation, .alive⟩) ∨
      (t.released = [] ∧ e.index.toNat = t.slots.size ∧ e.generation = .initial ∧
        t.slots.size < nullIndex.toNat ∧
        t' = { t with
          slots := t.slots.push ⟨e.generation, .alive⟩, aliveCount := t.aliveCount + 1 }) := by
  have hroom := room_of_allocate h
  simp only [allocate, if_pos hroom] at h
  cases hr : t.released with
  | cons i rest =>
    simp only [hr, Prod.mk.injEq, Except.ok.injEq] at h
    obtain ⟨rfl, rfl⟩ := h
    obtain ⟨g, hg⟩ := (hwf.mem_released i).mp (by rw [hr]; exact List.mem_cons_self ..)
    have hd : (t.slots.getD i.toNat default).generation = g := by
      simp [Array.getD_eq_getD_getElem?, hg]
    refine .inl ⟨rest, rfl, ?_, rfl⟩
    show t.slots[i.toNat]? = some ⟨(t.slots.getD i.toNat default).generation, .free⟩
    rw [hd]
    exact hg
  | nil =>
    simp only [hr] at h
    split at h
    · rename_i hlt
      simp only [Prod.mk.injEq, Except.ok.injEq] at h
      obtain ⟨rfl, rfl⟩ := h
      refine .inr ⟨rfl, ?_, rfl, hlt, ?_⟩
      · have hnull : nullIndex.toNat < 2 ^ 32 := nullIndex.toNat_lt
        show (UInt32.ofNat t.slots.size).toNat = t.slots.size
        rw [UInt32.toNat_ofNat']
        omega
      · rfl
    · cases h

/-- Every handle other than the issued one keeps its state, and the issued one is
alive. -/
theorem state?_allocate (hwf : t.Wf) (h : t.allocate = (.ok e, t')) (x : Entity) :
    t'.state? x = if x = e then some .alive else t.state? x := by
  rcases allocate_cases hwf h with ⟨rest, -, hfree, rfl⟩ | ⟨-, hidx, -, -, rfl⟩
  · by_cases hi : x.index = e.index
    · have hx : t.slots[x.index.toNat]? = some ⟨e.generation, .free⟩ := by rw [hi, hfree]
      rw [state?_setSlot_self (t := { t with released := rest, aliveCount := _ }) hfree hi,
        state?_of_slot hx]
      by_cases hg : e.generation = x.generation
      · rw [if_pos hg, if_pos (eq_iff.mpr ⟨hi, hg.symm⟩)]
      · rw [if_neg hg, if_neg (fun hx => hg (by rw [hx])), if_neg hg]
    · rw [if_neg fun hx => hi (by rw [hx]), state?_setSlot_of_ne _ hi]
      rfl
  · by_cases hi : x.index = e.index
    · have hlast : (t.slots.push (⟨e.generation, .alive⟩ : Slot))[x.index.toNat]? =
          some ⟨e.generation, .alive⟩ := by
        rw [hi, hidx, Array.getElem?_push_size]
      have hnone : t.slots[x.index.toNat]? = none := by
        rw [hi, hidx]
        exact Array.getElem?_eq_none (Nat.le_refl _)
      rw [state?_of_slot hlast, state?_of_no_slot hnone]
      by_cases hg : e.generation = x.generation
      · rw [if_pos hg, if_pos (eq_iff.mpr ⟨hi, hg.symm⟩)]
      · rw [if_neg hg, if_neg (fun hx => hg (by rw [hx]))]
    · have hne : x.index.toNat ≠ t.slots.size := fun h =>
        hi (UInt32.toNat_inj.mp (h.trans hidx.symm))
      rw [if_neg fun hx => hi (by rw [hx])]
      simp [state?, slot?, Array.getElem?_push, hne]

/-- A handle is alive after one was issued when it was before, or is the issued one. -/
theorem isAlive_allocate (hwf : t.Wf) (h : t.allocate = (.ok e, t')) (x : Entity) :
    t'.isAlive x = true ↔ x = e ∨ t.isAlive x = true := by
  rw [isAlive_iff, isAlive_iff, state?_allocate hwf h]
  by_cases hx : x = e
  · simp [hx]
  · simp [hx]

/-- No handle that is alive is issued. -/
theorem isAlive_of_allocate (hwf : t.Wf) (h : t.allocate = (.ok e, t')) :
    t.isAlive e = false := by
  rw [Bool.eq_false_iff]
  intro ha
  obtain ⟨st, hst, hne⟩ := isAlive_iff_exists.mp ha
  rcases allocate_cases hwf h with ⟨_, -, hfree, -⟩ | ⟨-, hidx, -⟩
  · rw [hst] at hfree
    cases hfree
    exact hne rfl
  · have hlt := (Array.getElem?_eq_some_iff.mp hst).1
    omega

/-- Issuing a handle changes nothing about which entities are being destroyed. -/
theorem isDestroying_allocate (hwf : t.Wf) (h : t.allocate = (.ok e, t')) (x : Entity) :
    t'.isDestroying x = t.isDestroying x := by
  have hnot : t.isDestroying e = false := by
    rw [Bool.eq_false_iff]
    intro hd
    have ha := isAlive_of_isDestroying hd
    rw [isAlive_of_allocate hwf h] at ha
    cases ha
  by_cases hx : x = e
  · rw [hx, hnot]
    simp [isDestroying, state?_allocate hwf h]
  · simp [isDestroying, state?_allocate hwf h, hx]

/-- Issuing a handle keeps the bookkeeping in order. -/
theorem wf_allocate (hwf : t.Wf) (h : t.allocate = (.ok e, t')) : t'.Wf := by
  rcases allocate_cases hwf h with ⟨rest, hr, hfree, rfl⟩ | ⟨hr, hidx, -, hlt, rfl⟩
  · -- the index is used again, and is released no more
    have hnodup : (e.index :: rest).Nodup := hr ▸ hwf.nodup_released
    obtain ⟨hnot, hrest⟩ := List.nodup_cons.mp hnodup
    refine
      { size_le := ?_
        mem_released := fun i => ?_
        nodup_released := hrest
        live_eq := ?_ }
    · show (t.slots.setIfInBounds _ _).size ≤ _
      rw [Array.size_setIfInBounds]
      exact hwf.size_le
    · show i ∈ rest ↔ ∃ g, (t.slots.setIfInBounds e.index.toNat ⟨e.generation, .alive⟩)[i.toNat]? =
        some ⟨g, .free⟩
      have hmem := hwf.mem_released i
      rw [hr, List.mem_cons] at hmem
      by_cases hi : i = e.index
      · subst hi
        have hself := slots_setSlot_self (t := t) ⟨e.generation, .alive⟩ hfree
        constructor
        · intro h
          exact absurd h hnot
        · rintro ⟨g, hg⟩
          rw [setSlot] at hself
          rw [hself] at hg
          cases hg
      · have hne : e.index.toNat ≠ i.toNat := fun h => hi (UInt32.toNat_inj.mp h.symm)
        rw [Array.getElem?_setIfInBounds_ne hne, ← hmem]
        simp [hi]
    · have hcount := countP_setSlot (t := t) ⟨e.generation, .alive⟩ hfree
      show (t.setSlot e.index ⟨e.generation, .alive⟩).slots.countP _ = t.aliveCount + 1
      rw [hcount, hwf.live_eq]
      rfl
  · refine
      { size_le := ?_
        mem_released := fun i => ?_
        nodup_released := hwf.nodup_released
        live_eq := ?_ }
    · show (t.slots.push _).size ≤ _
      rw [Array.size_push]
      exact hlt
    · show i ∈ t.released ↔ ∃ g, (t.slots.push ⟨e.generation, .alive⟩)[i.toNat]? = some ⟨g, .free⟩
      rw [hwf.mem_released i, Array.getElem?_push]
      split
      · rename_i hi
        rw [hi, Array.getElem?_eq_none (Nat.le_refl _)]
        simp
      · rfl
    · show (t.slots.push ⟨e.generation, .alive⟩).countP _ = t.aliveCount + 1
      rw [Array.countP_push, hwf.live_eq]
      rfl

/-! ## Tables that are full -/

/-- Where no index waits to be used again every slot is live. -/
theorem Wf.countP_of_released_eq_nil (h : t.Wf) (hr : t.released = []) :
    t.slots.countP (·.state != .free) = t.slots.size := by
  have hnull : nullIndex.toNat < 2 ^ 32 := nullIndex.toNat_lt
  have hsize := h.size_le
  rw [Array.countP_eq_size]
  intro s hs
  obtain ⟨j, hj⟩ := Array.mem_iff_getElem?.mp hs
  have hlt := (Array.getElem?_eq_some_iff.mp hj).1
  have hindex : (UInt32.ofNat j).toNat = j := by
    rw [UInt32.toNat_ofNat']
    omega
  rw [bne_iff_ne]
  intro hfree
  have hmem := (h.mem_released (.ofNat j)).mpr ⟨s.generation, by rw [hindex, hj, ← hfree]⟩
  rw [hr] at hmem
  cases hmem

/-- Where every slot is live no index waits to be used again. -/
theorem Wf.released_eq_nil (h : t.Wf) (hfull : t.slots.size ≤ t.aliveCount) :
    t.released = [] := by
  rw [List.eq_nil_iff_forall_not_mem]
  intro i hi
  obtain ⟨g, hg⟩ := (h.mem_released i).mp hi
  have hall : t.slots.countP (·.state != .free) = t.slots.size :=
    Nat.le_antisymm Array.countP_le_size (h.live_eq ▸ hfull)
  have hlive := Array.countP_eq_size.mp hall _ (Array.mem_of_getElem? hg)
  cases hlive

/-- A call that is abandoned found every index taken by somebody alive, and changes nothing. -/
theorem allocate_error {a : Abort} (hwf : t.Wf) (h : t.allocate = (.error a, t')) :
    t' = t ∧ t.aliveCount = nullIndex.toNat ∧ t.released = [] := by
  have hnull : nullIndex.toNat + 1 = UInt32.size := rfl
  have hsize := hwf.size_le
  have hle : t.aliveCount ≤ t.slots.size := hwf.live_eq ▸ Array.countP_le_size
  by_cases hroom : t.aliveCount + 1 < UInt32.size
  · -- there is an index left as long as there is room to count
    simp only [allocate, if_pos hroom] at h
    cases hr : t.released with
    | cons i rest =>
      simp only [hr] at h
      cases h
    | nil =>
      have hlive := hwf.countP_of_released_eq_nil hr
      rw [hwf.live_eq] at hlive
      simp only [hr] at h
      split at h
      · cases h
      · omega
  · simp only [allocate, if_neg hroom, Prod.mk.injEq] at h
    obtain ⟨-, rfl⟩ := h
    exact ⟨rfl, by omega, hwf.released_eq_nil (by omega)⟩

/-! ## Starting to destroy an entity -/

/-- The destruction of an entity is accepted exactly once, while it is alive. -/
theorem beginDestroy_fst : (t.beginDestroy e).1 = true ↔ t.state? e = some .alive := by
  unfold beginDestroy
  split <;> simp_all

theorem beginDestroy_of_ne (h : t.state? e ≠ some .alive) : t.beginDestroy e = (false, t) := by
  simp [beginDestroy, h]

/-- Every handle other than the accepted one keeps its state. -/
theorem state?_beginDestroy (h : t.state? e = some .alive) (x : Entity) :
    (t.beginDestroy e).2.state? x = if x = e then some .destroying else t.state? x := by
  have hslot := state?_eq_some_iff.mp h
  simp only [beginDestroy, if_pos h]
  by_cases hi : x.index = e.index
  · have hx : t.slots[x.index.toNat]? = some ⟨e.generation, .alive⟩ := by rw [hi, hslot]
    rw [state?_setSlot_self hslot hi, state?_of_slot hx]
    by_cases hg : e.generation = x.generation
    · rw [if_pos hg, if_pos (eq_iff.mpr ⟨hi, hg.symm⟩)]
    · rw [if_neg hg, if_neg (fun hx => hg (by rw [hx])), if_neg hg]
  · rw [if_neg fun hx => hi (by rw [hx]), state?_setSlot_of_ne _ hi]

/-- An entity that is being destroyed stays alive, as do all others. -/
theorem isAlive_beginDestroy (e x : Entity) :
    (t.beginDestroy e).2.isAlive x = t.isAlive x := by
  by_cases h : t.state? e = some .alive
  · by_cases hx : x = e
    · rw [Bool.eq_iff_iff, isAlive_iff, isAlive_iff, state?_beginDestroy h, hx, h]
      simp
    · rw [Bool.eq_iff_iff, isAlive_iff, isAlive_iff, state?_beginDestroy h, if_neg hx]
  · rw [beginDestroy_of_ne h]

/-- Once accepted, an entity is being destroyed. -/
theorem isDestroying_beginDestroy (h : t.state? e = some .alive) (x : Entity) :
    (t.beginDestroy e).2.isDestroying x = true ↔ x = e ∨ t.isDestroying x = true := by
  rw [isDestroying_iff, isDestroying_iff, state?_beginDestroy h]
  by_cases hx : x = e
  · simp [hx]
  · simp [hx]

theorem wf_beginDestroy (hwf : t.Wf) (e : Entity) : (t.beginDestroy e).2.Wf := by
  by_cases h : t.state? e = some .alive
  · have hslot := state?_eq_some_iff.mp h
    simp only [beginDestroy, if_pos h]
    refine
      { size_le := ?_
        mem_released := fun i => ?_
        nodup_released := hwf.nodup_released
        live_eq := ?_ }
    · show (t.slots.setIfInBounds _ _).size ≤ _
      rw [Array.size_setIfInBounds]
      exact hwf.size_le
    · show i ∈ t.released ↔ ∃ g, (t.setSlot e.index ⟨e.generation, .destroying⟩).slots[i.toNat]? = _
      rw [hwf.mem_released i]
      by_cases hi : i = e.index
      · rw [hi, hslot, slots_setSlot_self _ hslot]
        simp
      · have hne : e.index.toNat ≠ i.toNat := fun h => hi (UInt32.toNat_inj.mp h.symm)
        rw [setSlot, Array.getElem?_setIfInBounds_ne hne]
    · have hpos := countP_pos_of_slot hslot (by simp)
      show (t.setSlot e.index ⟨e.generation, .destroying⟩).slots.countP _ = t.aliveCount
      rw [countP_setSlot _ hslot, ← hwf.live_eq]
      exact Nat.sub_add_cancel hpos
  · rw [beginDestroy_of_ne h]
    exact hwf

/-! ## Giving an entity up -/

/-- A handle is alive after another was given up when it was before. -/
theorem isAlive_release (h : t.isAlive e = true) (x : Entity) :
    (t.release e).2.isAlive x = true ↔ t.isAlive x = true ∧ x ≠ e := by
  obtain ⟨st, hst, -⟩ := isAlive_iff_exists.mp h
  have hstate : (t.release e).2.state? x =
      (t.setSlot e.index ⟨e.generation.next, .free⟩).state? x := by
    simp only [release, if_pos h]
    rfl
  by_cases hi : x.index = e.index
  · have hdead : (t.release e).2.isAlive x = false := by
      rw [Bool.eq_false_iff]
      intro ha
      rw [isAlive_iff, hstate, state?_setSlot_self hst hi] at ha
      split at ha <;> simp at ha
    rw [hdead]
    constructor
    · intro hf
      cases hf
    · rintro ⟨ha, hne⟩
      exact absurd (eq_of_isAlive h ha hi) hne
  · rw [isAlive_iff, hstate, state?_setSlot_of_ne _ hi, ← isAlive_iff]
    exact ⟨fun ha => ⟨ha, fun hx => hi (by rw [hx])⟩, fun ha => ha.1⟩

/-- Only the entity that is given up leaves those that are being destroyed. -/
theorem isDestroying_release (h : t.isAlive e = true) (x : Entity) :
    (t.release e).2.isDestroying x = true ↔ t.isDestroying x = true ∧ x ≠ e := by
  obtain ⟨st, hst, -⟩ := isAlive_iff_exists.mp h
  have hstate : (t.release e).2.state? x =
      (t.setSlot e.index ⟨e.generation.next, .free⟩).state? x := by
    simp only [release, if_pos h]
    rfl
  by_cases hi : x.index = e.index
  · rw [isDestroying_iff, hstate, state?_setSlot_self hst hi]
    constructor
    · intro hd
      split at hd <;> cases hd
    · rintro ⟨hd, hne⟩
      exact absurd (eq_of_isAlive h (isAlive_of_isDestroying hd) hi) hne
  · rw [isDestroying_iff, hstate, state?_setSlot_of_ne _ hi, ← isDestroying_iff]
    exact ⟨fun hd => ⟨hd, fun hx => hi (by rw [hx])⟩, fun hd => hd.1⟩

theorem wf_release (hwf : t.Wf) (e : Entity) : (t.release e).2.Wf := by
  by_cases h : t.isAlive e = true
  · obtain ⟨st, hst, hne⟩ := isAlive_iff_exists.mp h
    have hnot : e.index ∉ t.released := by
      rw [hwf.mem_released]
      rintro ⟨g, hg⟩
      rw [hst] at hg
      cases hg
      exact hne rfl
    simp only [release, if_pos h]
    refine
      { size_le := ?_
        mem_released := fun i => ?_
        nodup_released := List.nodup_cons.mpr ⟨hnot, hwf.nodup_released⟩
        live_eq := ?_ }
    · show (t.slots.setIfInBounds _ _).size ≤ _
      rw [Array.size_setIfInBounds]
      exact hwf.size_le
    · show i ∈ e.index :: t.released ↔
        ∃ g, (t.setSlot e.index ⟨e.generation.next, .free⟩).slots[i.toNat]? = _
      rw [List.mem_cons]
      by_cases hi : i = e.index
      · rw [hi, slots_setSlot_self _ hst]
        simp
      · have hne : e.index.toNat ≠ i.toNat := fun h => hi (UInt32.toNat_inj.mp h.symm)
        rw [setSlot, Array.getElem?_setIfInBounds_ne hne, ← hwf.mem_released]
        simp [hi]
    · show (t.setSlot e.index ⟨e.generation.next, .free⟩).slots.countP _ = t.aliveCount - 1
      have hb : (st != .free) = true := by simpa using hne
      rw [countP_setSlot _ hst, hwf.live_eq, hb]
      rfl
  · simp only [release, if_neg h]
    exact hwf

/-! ## All live handles -/

/-- The list of handles holds exactly the live ones. -/
theorem mem_toList_iff (hwf : t.Wf) : x ∈ t.toList ↔ t.isAlive x = true := by
  have hnull : nullIndex.toNat < 2 ^ 32 := nullIndex.toNat_lt
  have hsize := hwf.size_le
  rw [isAlive_iff_exists]
  simp only [toList, List.mem_filterMap, Prod.exists, List.mem_zipIdx_iff_getElem?,
    Array.getElem?_toList]
  constructor
  · rintro ⟨s, i, hs, heq⟩
    split at heq
    · cases heq
    · rename_i hne
      have hlt := (Array.getElem?_eq_some_iff.mp hs).1
      cases heq
      have hi : (UInt32.ofNat i).toNat = i := by
        rw [UInt32.toNat_ofNat']
        omega
      exact ⟨s.state, by rw [hi, hs], hne⟩
  · rintro ⟨st, hst, hne⟩
    refine ⟨_, _, hst, ?_⟩
    rw [if_neg hne, UInt32.ofNat_toNat]

/-- The list of handles is as long as there are live slots. -/
theorem length_toList : t.toList.length = t.slots.countP (·.state != .free) := by
  have hfst : t.slots.toList.zipIdx.countP (fun p => p.1.state != .free) =
      t.slots.countP (·.state != .free) := by
    rw [← Array.countP_toList]
    conv_rhs => rw [← List.zipIdx_map_fst 0 t.slots.toList, List.countP_map]
    rfl
  rw [← hfst, toList, List.length_filterMap_eq_countP]
  refine List.countP_congr fun p _ => ?_
  by_cases hp : p.1.state = .free
  · simp [hp]
  · simp [hp]

/-- Pairwise different live handles are no more than the count says. -/
theorem length_le_aliveCount (hwf : t.Wf) {es : List Entity} (hnodup : es.Nodup)
    (hes : ∀ e ∈ es, t.isAlive e = true) : es.length ≤ t.aliveCount := by
  have hsub : es ⊆ t.toList := fun e he => (mem_toList_iff hwf).mpr (hes e he)
  calc es.length ≤ t.toList.length := (hnodup.subperm hsub).length_le
    _ = t.slots.countP (·.state != .free) := length_toList
    _ = t.aliveCount := hwf.live_eq

end Entity.Table

end EntityScene
