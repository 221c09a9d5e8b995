import Mathlib.Data.List.Nodup
import Mathlib.Data.List.Perm.Subperm
import Mathlib.Data.List.Range
import EntityScene.Abort
import EntityScene.Entity
import EntityScene.Storage.SlotTable
import EntityScene.Storage.SparseSet

/-!
# What a sparse set says about handles

A sparse set in order is a finite map from handles to values, of which no two share
an index. Its arrays are spoken of in this module only; elsewhere a set is known by
`contains` and `get?`.

- `SparseSet.Wf`: the slot table leads from each index to the row of that index and
  from no other index anywhere, no row is for a null handle, and entities and values
  lie side by side.
- `SparseSet.Wf.size_lt`: there is room for every index, so no slot number is the
  tombstone.
- `SparseSet.Wf.locate_eq`, `get_eq`, `removeAt_eq`: no call on a set in order is led to
  a row that is not there.
- `wf_emplaceWith`, `wf_remove`, `wf_modify`: kept by the edits of single rows.
- `get?_emplaceWith`, `get?_remove`, `get?_modify`: what each edit does to the map.
-/

namespace EntityScene

/-- What is found in an array after a row gave way to the last one. -/
theorem getElem?_swapRemove {β : Type} (rows : Array β) {slot : Nat} (h : slot < rows.size)
    (j : Nat) :
    (swapRemove rows slot)[j]? =
      if j < rows.size - 1 then (if j = slot then rows[rows.size - 1]? else rows[j]?)
      else none := by
  have hlast : rows.size - 1 < rows.size := by omega
  rw [swapRemove, Array.getElem?_pop, Array.size_swapIfInBounds]
  split
  · rename_i hj
    rw [Array.swapIfInBounds_def, dif_pos h, dif_pos hlast, Array.getElem?_swap,
      if_neg (by omega)]
    by_cases hjs : j = slot
    · rw [if_pos hjs.symm, if_pos hjs, Array.getElem?_eq_getElem hlast]
    · rw [if_neg fun hc => hjs hc.symm, if_neg hjs]
  · rfl

@[simp] theorem size_swapRemove {β : Type} (rows : Array β) (slot : Nat) :
    (swapRemove rows slot).size = rows.size - 1 := by
  simp [swapRemove]

/-- There are no more handles with different indices than there are indices that are
not null. -/
theorem length_le_of_nodup_index {es : List Entity} (hnodup : (es.map (·.index)).Nodup)
    (hnull : ∀ e ∈ es, e.isNull = false) : es.length ≤ Entity.nullIndex.toNat := by
  have hnat : (es.map (·.index.toNat)).Nodup := by
    have hmap : es.map (·.index.toNat) = (es.map (·.index)).map UInt32.toNat := by
      rw [List.map_map]
      rfl
    rw [hmap]
    exact List.Nodup.map (fun _ _ h => UInt32.toNat_inj.mp h) hnodup
  have hsub : es.map (·.index.toNat) ⊆ List.range Entity.nullIndex.toNat := by
    intro i hi
    obtain ⟨e, he, rfl⟩ := List.mem_map.mp hi
    exact List.mem_range.mpr (Entity.index_toNat_lt (hnull e he))
  have hlen := (hnat.subperm hsub).length_le
  rwa [List.length_map, List.length_range] at hlen

namespace SparseSet

variable {α : Type} {s : SparseSet α} {e x : Entity}

/-! ## Handles without a row -/

/-- An index leads to the row of one handle. -/
theorem contains_eq_false_of_contains (hx : s.contains x = true) (hne : x ≠ e)
    (hindex : x.index = e.index) : s.contains e = false := by
  obtain ⟨slot, hslot⟩ := (contains_iff s x).mp hx
  obtain ⟨hget, hentity⟩ := slotOf?_eq_some_iff.mp hslot
  rw [Bool.eq_false_iff]
  intro he
  obtain ⟨slot', hslot'⟩ := (contains_iff s e).mp he
  obtain ⟨hget', hentity'⟩ := slotOf?_eq_some_iff.mp hslot'
  rw [← hindex, hget] at hget'
  obtain rfl := Option.some.inj hget'
  exact hne (Option.some.inj (hentity.symm.trans hentity'))

theorem slotOf?_of_not_contains (h : s.contains e = false) : s.slotOf? e = none := by
  rw [contains, Option.isSome_eq_false_iff] at h
  exact Option.isNone_iff_eq_none.mp h

/-- Where the slot table leads to a row, a call finds the handle's or none. -/
theorem locate_eq_slotOf?
    (hrow : ∀ slot, s.slots.get? e.index = some slot → slot < s.entities.size) :
    s.locate e = .ok (s.slotOf? e) := by
  rw [locate, slotOf?]
  cases hs : s.slots.get? e.index with
  | none => rfl
  | some slot =>
    obtain ⟨x, hx⟩ : ∃ x, s.entities[slot]? = some x :=
      ⟨_, Array.getElem?_eq_getElem (hrow slot hs)⟩
    rw [Option.filter_some, hx]
    show (rowAt s.entities slot).map _ = _
    rw [rowAt, hx]
    by_cases hxe : x = e
    · simp [hxe, Except.map]
    · simp [hxe, Except.map]

theorem get?_of_not_contains (h : s.contains e = false) : s.get? e = none := by
  rw [get?, slotOf?_of_not_contains h]
  rfl

theorem modify_of_not_contains (h : s.contains e = false) (f : α → α) : s.modify e f = s := by
  rw [modify, slotOf?_of_not_contains h]

/-! ## Sets in order -/

/-- The slot table and the rows of a sparse set agree. -/
structure Wf (s : SparseSet α) : Prop where
  leads : ∀ (i : UInt32) (slot : Nat),
    s.slots.get? i = some slot ↔ ∃ e, s.entities[slot]? = some e ∧ e.index = i
  nonnull : ∀ e ∈ s.entities, e.isNull = false
  aligned : s.values.size = s.entities.size

theorem wf_empty : (empty : SparseSet α).Wf :=
  { leads := fun i slot => by simp [empty]
    nonnull := fun e he => by simp [empty] at he
    aligned := rfl }

namespace Wf

/-- A handle has the row in which it stands. -/
theorem slotOf?_iff (h : s.Wf) {slot : Nat} :
    s.slotOf? e = some slot ↔ s.entities[slot]? = some e := by
  rw [slotOf?_eq_some_iff]
  constructor
  · intro hs
    exact hs.2
  · intro hs
    exact ⟨(h.leads _ _).mpr ⟨e, hs, rfl⟩, hs⟩

/-- The handles with a row are those that stand in one. -/
theorem contains_iff_mem (h : s.Wf) : s.contains e = true ↔ e ∈ s.entities := by
  rw [contains_iff, Array.mem_iff_getElem?]
  simp only [h.slotOf?_iff]

/-- Rows for the same index are the same row. -/
theorem slot_eq (h : s.Wf) {j k : Nat} (hj : s.entities[j]? = some e)
    (hk : s.entities[k]? = some x) (hi : x.index = e.index) : j = k := by
  have hj' := (h.leads e.index j).mpr ⟨e, hj, rfl⟩
  have hk' := (h.leads e.index k).mpr ⟨x, hk, hi⟩
  rw [hj'] at hk'
  exact Option.some.inj hk'

theorem nodup_index (h : s.Wf) : (s.entities.toList.map (·.index)).Nodup := by
  rw [List.nodup_iff_pairwise_ne, List.pairwise_map, List.pairwise_iff_getElem]
  intro j k hj hk hjk heq
  simp only [Array.getElem_toList] at heq
  have := h.slot_eq (Array.getElem?_eq_getElem _) (Array.getElem?_eq_getElem _) heq.symm
  omega

/-- No handle has two rows. -/
theorem nodup (h : s.Wf) : s.entities.toList.Nodup := List.Nodup.of_map _ h.nodup_index

/-- No slot number is the tombstone. -/
theorem size_le (h : s.Wf) : s.entities.size ≤ tombstone.toNat := by
  have hle := length_le_of_nodup_index h.nodup_index fun e he =>
    h.nonnull e (Array.mem_toList_iff.mp he)
  rw [Array.length_toList] at hle
  exact hle

/-- There is room for a row of an index that has none. -/
theorem size_lt (h : s.Wf) (hnull : e.isNull = false)
    (hfree : ∀ x ∈ s.entities, x.index ≠ e.index) : s.entities.size < tombstone.toNat := by
  have hnodup : ((e :: s.entities.toList).map (·.index)).Nodup := by
    rw [List.map_cons, List.nodup_cons]
    refine ⟨fun hmem => ?_, h.nodup_index⟩
    obtain ⟨x, hx, hi⟩ := List.mem_map.mp hmem
    exact hfree x (Array.mem_toList_iff.mp hx) hi
  have hle := length_le_of_nodup_index hnodup (by
    intro x hx
    rcases List.mem_cons.mp hx with rfl | hx
    · exact hnull
    · exact h.nonnull x (Array.mem_toList_iff.mp hx))
  rw [List.length_cons, Array.length_toList] at hle
  exact hle

/-- The value of a handle stands beside it. -/
theorem get?_iff (h : s.Wf) {v : α} :
    s.get? e = some v ↔ ∃ slot : Nat, s.entities[slot]? = some e ∧ s.values[slot]? = some v := by
  simp only [get?, Option.bind_eq_some_iff, h.slotOf?_iff]

/-- A handle has a row exactly when it has a value. -/
theorem contains_eq_isSome (h : s.Wf) (e : Entity) : s.contains e = (s.get? e).isSome := by
  rw [Bool.eq_iff_iff, h.contains_iff_mem, Option.isSome_iff_exists, Array.mem_iff_getElem?]
  constructor
  · rintro ⟨slot, hs⟩
    have hlt : slot < s.values.size := by
      rw [h.aligned]
      exact (Array.getElem?_eq_some_iff.mp hs).1
    exact ⟨s.values[slot], h.get?_iff.mpr ⟨slot, hs, Array.getElem?_eq_getElem hlt⟩⟩
  · rintro ⟨v, hv⟩
    obtain ⟨slot, hs, -⟩ := h.get?_iff.mp hv
    exact ⟨slot, hs⟩

/-- A row of a handle has a value. -/
theorem exists_value (h : s.Wf) {slot : Nat} (hs : s.entities[slot]? = some e) :
    ∃ v, s.values[slot]? = some v := by
  have hlt : slot < s.values.size := h.aligned ▸ (Array.getElem?_eq_some_iff.mp hs).1
  exact ⟨s.values[slot], Array.getElem?_eq_getElem hlt⟩

/-! ### No call is led to a row that is not there -/

theorem locate_eq (h : s.Wf) (e : Entity) : s.locate e = .ok (s.slotOf? e) :=
  locate_eq_slotOf? fun slot hslot => by
    obtain ⟨x, hx, -⟩ := (h.leads _ _).mp hslot
    exact (Array.getElem?_eq_some_iff.mp hx).1

theorem get_eq (h : s.Wf) (e : Entity) : s.get e = .ok (s.get? e) := by
  rw [get, h.locate_eq, get?]
  cases hs : s.slotOf? e with
  | none => rfl
  | some slot =>
    obtain ⟨v, hv⟩ := h.exists_value (h.slotOf?_iff.mp hs)
    simp only [rowAt, hv, Option.bind_some]
    rfl

/-- A row that a handle has is removed with its value. -/
theorem removeAt_eq (h : s.Wf) {slot : Nat} (hs : s.entities[slot]? = some e) :
    ∃ v, s.values[slot]? = some v ∧ s.removeAt slot = (.ok v, s.dropRow slot) := by
  obtain ⟨v, hv⟩ := h.exists_value hs
  refine ⟨v, hv, ?_⟩
  rw [removeAt, if_pos (Array.getElem?_eq_some_iff.mp hs).1, hv]

end Wf

/-! ## Removing a row -/

/-- Who stands where after a row was removed: the last row is in its place. -/
theorem entities_dropRow (h : s.Wf) {slot : Nat} (hs : s.entities[slot]? = some e) {j : Nat} :
    (s.dropRow slot).entities[j]? = some x ↔
      x.index ≠ e.index ∧
        (j = slot ∧ s.entities[s.entities.size - 1]? = some x ∨
          j ≠ slot ∧ j < s.entities.size - 1 ∧ s.entities[j]? = some x) := by
  have hlt : slot < s.entities.size := (Array.getElem?_eq_some_iff.mp hs).1
  show (swapRemove s.entities slot)[j]? = some x ↔ _
  rw [getElem?_swapRemove _ hlt]
  constructor
  · intro hx
    split at hx
    · rename_i hj
      split at hx
      · rename_i hjs
        refine ⟨fun hi => ?_, .inl ⟨hjs, hx⟩⟩
        have := h.slot_eq hs hx hi
        omega
      · rename_i hjs
        exact ⟨fun hi => hjs (h.slot_eq hs hx hi).symm, .inr ⟨hjs, hj, hx⟩⟩
    · cases hx
  · rintro ⟨hi, ⟨rfl, hx⟩ | ⟨hjs, hj, hx⟩⟩
    · have hne : j ≠ s.entities.size - 1 := fun hj => hi (by
        rw [← hj, hs] at hx
        rw [Option.some.inj hx])
      rw [if_pos (by omega), if_pos rfl, hx]
    · rw [if_pos hj, if_neg hjs, hx]

/-- Where an index leads after the row of another was removed. -/
theorem slots_dropRow (h : s.Wf) {slot : Nat} {moved : Entity}
    (hs : s.entities[slot]? = some e) (hm : s.entities[s.entities.size - 1]? = some moved)
    (i : UInt32) :
    (s.dropRow slot).slots.get? i =
      if i = e.index then none
      else if i = moved.index then some slot
      else s.slots.get? i := by
  have hlt : slot < s.entities.size := (Array.getElem?_eq_some_iff.mp hs).1
  have hbound := h.size_le
  simp only [dropRow, hs, getElem?_swapRemove _ hlt, hm, if_true]
  by_cases hlast : slot < s.entities.size - 1
  · -- the last row moves into the gap, and its index is told so
    have hne : moved.index ≠ e.index := fun hi => by
      have := h.slot_eq hs hm hi
      omega
    simp only [if_pos hlast]
    by_cases him : i = moved.index
    · rw [him, SlotTable.get?_set_self _ _ (by omega), if_neg hne, if_pos rfl]
    · rw [SlotTable.get?_set_other _ _ him, if_neg him]
      by_cases hie : i = e.index
      · rw [hie, SlotTable.get?_clear_self, if_pos rfl]
      · rw [SlotTable.get?_clear_other _ hie, if_neg hie]
  · have hslot : slot = s.entities.size - 1 := by omega
    have hme : moved = e := by
      rw [← hslot, hs] at hm
      exact (Option.some.inj hm).symm
    simp only [if_neg hlast, hme]
    by_cases hie : i = e.index
    · rw [hie, SlotTable.get?_clear_self, if_pos rfl]
    · rw [SlotTable.get?_clear_other _ hie, if_neg hie, if_neg hie]

/-- Removing a row keeps a set in order. -/
theorem wf_dropRow (h : s.Wf) {slot : Nat} (hs : s.entities[slot]? = some e) :
    (s.dropRow slot).Wf := by
  have hlt : slot < s.entities.size := (Array.getElem?_eq_some_iff.mp hs).1
  have hl : s.entities.size - 1 < s.entities.size := by omega
  have hm := Array.getElem?_eq_getElem hl
  generalize s.entities[s.entities.size - 1] = moved at hm
  refine
    { leads := fun i j => ?_
      nonnull := fun x hx => ?_
      aligned := ?_ }
  · simp only [slots_dropRow h hs hm, entities_dropRow h hs]
    by_cases hie : i = e.index
    · rw [if_pos hie]
      constructor
      · intro hn
        cases hn
      · rintro ⟨x, ⟨hx, -⟩, hxi⟩
        exact absurd (hxi.trans hie) hx
    · rw [if_neg hie]
      -- the last row moves to where the removed one was
      by_cases him : i = moved.index
      · rw [if_pos him]
        constructor
        · intro hj
          exact ⟨moved, ⟨fun hi => hie (him.trans hi), .inl ⟨(Option.some.inj hj).symm, hm⟩⟩,
            him.symm⟩
        · rintro ⟨x, ⟨-, ⟨rfl, -⟩ | ⟨-, hj, hx⟩⟩, hxi⟩
          · rfl
          · have := h.slot_eq hm hx (hxi.trans him)
            omega
      · rw [if_neg him, h.leads]
        constructor
        · rintro ⟨x, hx, hxi⟩
          have hj : j < s.entities.size := (Array.getElem?_eq_some_iff.mp hx).1
          have hjl : j ≠ s.entities.size - 1 := fun hj => him (by
            rw [hj, hm] at hx
            rw [← hxi, Option.some.inj hx])
          have hjs : j ≠ slot := fun hj => hie (by
            rw [hj, hs] at hx
            rw [← hxi, Option.some.inj hx])
          exact ⟨x, ⟨fun hi => hie (hxi.symm.trans hi), .inr ⟨hjs, by omega, hx⟩⟩, hxi⟩
        · rintro ⟨x, ⟨-, ⟨-, hx⟩ | ⟨-, -, hx⟩⟩, hxi⟩
          · rw [hm] at hx
            exact absurd (hxi.symm.trans (congrArg Entity.index (Option.some.inj hx).symm)) him
          · exact ⟨x, hx, hxi⟩
  · obtain ⟨j, hj⟩ := Array.mem_iff_getElem?.mp hx
    obtain ⟨-, ⟨-, hj⟩ | ⟨-, -, hj⟩⟩ := (entities_dropRow h hs).mp hj
    · exact h.nonnull x (Array.mem_of_getElem? hj)
    · exact h.nonnull x (Array.mem_of_getElem? hj)
  · rw [dropRow, size_swapRemove, size_swapRemove, h.aligned]

/-- Removing a row takes its handle out of the map, and nothing else. -/
theorem get?_dropRow (h : s.Wf) {slot : Nat} (hs : s.entities[slot]? = some e) (x : Entity) :
    (s.dropRow slot).get? x = if x = e then none else s.get? x := by
  have hlt : slot < s.entities.size := (Array.getElem?_eq_some_iff.mp hs).1
  have hltv : slot < s.values.size := by
    rw [h.aligned]
    exact hlt
  have hwf := wf_dropRow h hs
  refine Option.ext fun v => ?_
  rw [hwf.get?_iff]
  simp only [dropRow, getElem?_swapRemove _ hlt, getElem?_swapRemove _ hltv, h.aligned]
  by_cases hx : x = e
  · rw [if_pos hx]
    constructor
    · rintro ⟨j, hj, -⟩
      split at hj
      · split at hj
        · have := h.slot_eq hs hj (by rw [hx])
          omega
        · have := h.slot_eq hs hj (by rw [hx])
          omega
      · cases hj
    · intro hn
      cases hn
  · rw [if_neg hx, h.get?_iff]
    constructor
    · rintro ⟨j, hj, hv⟩
      split at hj
      · rename_i hjl
        rw [if_pos hjl] at hv
        split at hj
        · rename_i hjs
          rw [if_pos hjs] at hv
          exact ⟨_, hj, hv⟩
        · rename_i hjs
          rw [if_neg hjs] at hv
          exact ⟨_, hj, hv⟩
      · cases hj
    · rintro ⟨j, hj, hv⟩
      have hjlt : j < s.entities.size := (Array.getElem?_eq_some_iff.mp hj).1
      have hjs : j ≠ slot := fun hjs => hx (by
        rw [hjs, hs] at hj
        exact (Option.some.inj hj).symm)
      by_cases hjl : j = s.entities.size - 1
      · -- the row of this handle is the one that moved
        have hlast : slot < s.entities.size - 1 := by omega
        refine ⟨slot, ?_, ?_⟩
        · rw [if_pos hlast, if_pos rfl, ← hjl, hj]
        · rw [if_pos hlast, if_pos rfl, ← hjl, hv]
      · refine ⟨j, ?_, ?_⟩
        · rw [if_pos (by omega), if_neg hjs, hj]
        · rw [if_pos (by omega), if_neg hjs, hv]

/-- What `remove` answers, and what it leaves. -/
theorem remove_cases (h : s.Wf) (e : Entity) :
    (s.contains e = false ∧ s.remove e = (.ok none, s)) ∨
      (∃ slot, s.entities[slot]? = some e ∧ s.remove e = (.ok (s.get? e), s.dropRow slot)) := by
  rw [remove, h.locate_eq]
  cases hs : s.slotOf? e with
  | none =>
    refine .inl ⟨?_, rfl⟩
    rw [contains, hs]
    rfl
  | some slot =>
    have hentity := h.slotOf?_iff.mp hs
    obtain ⟨v, hv, hremoved⟩ := h.removeAt_eq hentity
    refine .inr ⟨slot, hentity, ?_⟩
    simp only [hremoved, get?, hs, Option.bind_some, hv]
    rfl

theorem remove_fst (h : s.Wf) (e : Entity) : (s.remove e).1 = .ok (s.get? e) := by
  rcases remove_cases h e with ⟨hc, hr⟩ | ⟨slot, -, hr⟩
  · rw [h.contains_eq_isSome, Option.isSome_eq_false_iff, Option.isNone_iff_eq_none] at hc
    rw [hr, hc]
  · rw [hr]

theorem wf_remove (h : s.Wf) (e : Entity) : (s.remove e).2.Wf := by
  rcases remove_cases h e with ⟨-, hr⟩ | ⟨slot, hs, hr⟩
  · rw [hr]
    exact h
  · rw [hr]
    exact wf_dropRow h hs

/-- Removing a handle takes it out of the map, and nothing else. -/
theorem get?_remove (h : s.Wf) (e x : Entity) :
    (s.remove e).2.get? x = if x = e then none else s.get? x := by
  rcases remove_cases h e with ⟨hc, hr⟩ | ⟨slot, hs, hr⟩
  · rw [h.contains_eq_isSome, Option.isSome_eq_false_iff, Option.isNone_iff_eq_none] at hc
    rw [hr]
    split
    · rename_i hx
      rw [hx, hc]
    · rfl
  · rw [hr, get?_dropRow h hs]

/-! ## Adding a row -/

/-- To evict an index removes its row, if there is one. -/
theorem evict_cases (h : s.Wf) (i : UInt32) :
    (s.slots.get? i = none ∧ s.evict i = (.ok (), s)) ∨
      ∃ slot x, s.entities[slot]? = some x ∧ x.index = i ∧
        s.evict i = (.ok (), s.dropRow slot) := by
  unfold evict
  cases hs : s.slots.get? i with
  | none => exact .inl ⟨rfl, rfl⟩
  | some slot =>
    obtain ⟨x, hx, hxi⟩ := (h.leads i slot).mp hs
    obtain ⟨v, -, hremoved⟩ := h.removeAt_eq hx
    refine .inr ⟨slot, x, hx, hxi, ?_⟩
    simp only [rowAt, hx, hremoved]
    rfl

theorem evict_fst (h : s.Wf) (i : UInt32) : (s.evict i).1 = .ok () := by
  rcases evict_cases h i with ⟨-, he⟩ | ⟨slot, x, -, -, he⟩
  · rw [he]
  · rw [he]

/-- Evicting an index keeps a set in order. -/
theorem wf_evict (h : s.Wf) (i : UInt32) : (s.evict i).2.Wf := by
  rcases evict_cases h i with ⟨-, he⟩ | ⟨slot, x, hx, -, he⟩
  · rw [he]
    exact h
  · rw [he]
    exact wf_dropRow h hx

/-- Evicting an index takes out the handle that has it, of whatever generation. -/
theorem get?_evict (h : s.Wf) (i : UInt32) (x : Entity) :
    (s.evict i).2.get? x = if x.index = i then none else s.get? x := by
  rcases evict_cases h i with ⟨hs, he⟩ | ⟨slot, y, hy, hyi, he⟩
  · rw [he]
    by_cases hx : x.index = i
    · rw [if_pos hx]
      simp [get?, slotOf?, hx, hs]
    · rw [if_neg hx]
  · rw [he, get?_dropRow h hy]
    by_cases hx : x = y
    · rw [if_pos hx, if_pos (hx ▸ hyi)]
    · rw [if_neg hx]
      by_cases hxi : x.index = i
      · -- the row of the index is the evicted one, so no other handle has it
        rw [if_pos hxi, Option.eq_none_iff_forall_ne_some]
        intro v hv
        obtain ⟨k, hk, -⟩ := h.get?_iff.mp hv
        have hks := h.slot_eq hy hk (hxi.trans hyi.symm)
        rw [hks, hk] at hy
        exact hx (Option.some.inj hy)
      · rw [if_neg hxi]

/-- A set with a new last row, for an index that has none. -/
theorem wf_push (h : s.Wf) (hnull : e.isNull = false)
    (hfree : ∀ x ∈ s.entities, x.index ≠ e.index) (v : α) :
    ({ slots := s.slots.set e.index s.entities.size
       entities := s.entities.push e
       values := s.values.push v } : SparseSet α).Wf := by
  have hlt := h.size_lt hnull hfree
  refine
    { leads := fun i j => ?_
      nonnull := fun x hx => ?_
      aligned := ?_ }
  · simp only [Array.getElem?_push]
    by_cases hi : i = e.index
    · rw [hi, SlotTable.get?_set_self _ _ hlt]
      constructor
      · intro hj
        exact ⟨e, by rw [if_pos (Option.some.inj hj).symm], rfl⟩
      · rintro ⟨x, hx, hxi⟩
        split at hx
        · rename_i hj
          rw [hj]
        · exact absurd hxi (hfree x (Array.mem_of_getElem? hx))
    · rw [SlotTable.get?_set_other _ _ hi, h.leads]
      constructor
      · rintro ⟨x, hx, hxi⟩
        have hj : j < s.entities.size := (Array.getElem?_eq_some_iff.mp hx).1
        exact ⟨x, by rw [if_neg (by omega), hx], hxi⟩
      · rintro ⟨x, hx, hxi⟩
        split at hx
        · cases hx
          exact absurd hxi.symm hi
        · exact ⟨x, hx, hxi⟩
  · rcases Array.mem_push.mp hx with hx | rfl
    · exact h.nonnull x hx
    · exact hnull
  · simp [h.aligned]

/-- The new row is that of the new handle. -/
theorem get?_push (h : s.Wf) (hnull : e.isNull = false)
    (hfree : ∀ x ∈ s.entities, x.index ≠ e.index) (v : α) (x : Entity) :
    ({ slots := s.slots.set e.index s.entities.size
       entities := s.entities.push e
       values := s.values.push v } : SparseSet α).get? x =
      if x = e then some v else s.get? x := by
  refine Option.ext fun u => ?_
  rw [(wf_push h hnull hfree v).get?_iff]
  simp only [Array.getElem?_push, h.aligned]
  by_cases hx : x = e
  · rw [if_pos hx, hx]
    constructor
    · rintro ⟨j, hj, hu⟩
      split at hj
      · rename_i hjs
        rwa [if_pos hjs] at hu
      · exact absurd rfl (hfree e (Array.mem_of_getElem? hj))
    · intro hu
      exact ⟨s.entities.size, by rw [if_pos rfl], by rw [if_pos rfl, hu]⟩
  · rw [if_neg hx, h.get?_iff]
    constructor
    · rintro ⟨j, hj, hu⟩
      split at hj
      · cases hj
        exact absurd rfl hx
      · rename_i hjs
        rw [if_neg hjs] at hu
        exact ⟨j, hj, hu⟩
    · rintro ⟨j, hj, hu⟩
      have hlt : j < s.entities.size := (Array.getElem?_eq_some_iff.mp hj).1
      exact ⟨j, by rw [if_neg (by omega), hj], by rw [if_neg (by omega), hu]⟩

/-- A handle that has a value keeps it. -/
theorem emplaceWith_of_contains (h : s.Wf) (make : Except Abort α) (hnull : e.isNull = false)
    (hc : s.contains e = true) : s.emplaceWith e make = (.ok false, s) := by
  obtain ⟨slot, hs⟩ := (contains_iff s e).mp hc
  obtain ⟨v, hv⟩ := h.exists_value (h.slotOf?_iff.mp hs)
  simp only [emplaceWith, hnull, h.locate_eq, hs, rowAt, hv]
  rfl

/-- A row is begun where there is none, in place of any other generation of its index. -/
theorem emplaceWith_error (h : s.Wf) (hnull : e.isNull = false) (hnew : s.contains e = false)
    (cause : Abort) :
    s.emplaceWith e (.error cause) = (.error cause, (s.evict e.index).2.begun e) := by
  have hevict : s.evict e.index = (.ok (), (s.evict e.index).2) := Prod.ext (evict_fst h _) rfl
  simp only [emplaceWith, hnull, h.locate_eq, slotOf?_of_not_contains hnew]
  rw [hevict]
  rfl

/-- A handle that has no row gets one, in place of any other generation of its
index. -/
theorem emplaceWith_new (h : s.Wf) (v : α) (hnull : e.isNull = false)
    (hnew : s.contains e = false) :
    s.emplaceWith e (.ok v) =
      (.ok true,
        { slots := (s.evict e.index).2.slots.set e.index (s.evict e.index).2.entities.size
          entities := (s.evict e.index).2.entities.push e
          values := (s.evict e.index).2.values.push v }) := by
  have hevict : s.evict e.index = (.ok (), (s.evict e.index).2) := Prod.ext (evict_fst h _) rfl
  have hlast : ((s.evict e.index).2.values.push v)[(s.evict e.index).2.entities.size]? = some v := by
    rw [← (wf_evict h e.index).aligned, Array.getElem?_push_size]
  simp only [emplaceWith, hnull, h.locate_eq, slotOf?_of_not_contains hnew]
  rw [hevict]
  simp only [rowAt, hlast]
  rfl

/-- After its eviction no row is for the index. -/
theorem index_ne_of_mem_evict (h : s.Wf) {i : UInt32} (hx : x ∈ (s.evict i).2.entities) :
    x.index ≠ i := by
  intro hi
  have hwf := wf_evict h i
  have hc := hwf.contains_iff_mem.mpr hx
  rw [hwf.contains_eq_isSome, get?_evict h, if_pos hi] at hc
  cases hc

theorem wf_emplaceWith (h : s.Wf) (v : α) (hnull : e.isNull = false)
    (hnew : s.contains e = false) : (s.emplaceWith e (.ok v)).2.Wf := by
  rw [emplaceWith_new h v hnull hnew]
  exact wf_push (wf_evict h _) hnull (fun x hx => index_ne_of_mem_evict h hx) v

/-- Adding a row gives the handle its value, and takes that of any other generation
of the index. -/
theorem get?_emplaceWith (h : s.Wf) (v : α) (hnull : e.isNull = false)
    (hnew : s.contains e = false) (x : Entity) :
    (s.emplaceWith e (.ok v)).2.get? x =
      if x = e then some v else if x.index = e.index then none else s.get? x := by
  rw [emplaceWith_new h v hnull hnew]
  show SparseSet.get? _ x = _
  rw [get?_push (wf_evict h _) hnull (fun x hx => index_ne_of_mem_evict h hx), get?_evict h]

/-! ## Changing a value -/

theorem wf_modify (h : s.Wf) (e : Entity) (f : α → α) : (s.modify e f).Wf := by
  unfold modify
  cases s.slotOf? e with
  | none => exact h
  | some slot => exact { h with aligned := by simp [h.aligned] }

/-- Changing a value changes that of one handle. -/
theorem get?_modify (s : SparseSet α) (e : Entity) (f : α → α) (x : Entity) :
    (s.modify e f).get? x = if x = e then (s.get? e).map f else s.get? x := by
  unfold modify
  cases hs : s.slotOf? e with
  | none =>
    show s.get? x = _
    split
    · rename_i hx
      simp [hx, get?, hs]
    · rfl
  | some slot =>
    have hslot : ∀ y, ({ s with values := s.values.modify slot f } : SparseSet α).slotOf? y =
        s.slotOf? y := fun _ => rfl
    simp only [get?, hslot, Array.getElem?_modify]
    by_cases hx : x = e
    · simp [hx, hs]
    · rw [if_neg hx]
      cases hk : s.slotOf? x with
      | none => rfl
      | some k =>
        have hne : slot ≠ k := fun hsk => hx (by
          have hkx := getElem?_of_slotOf? hk
          rw [← hsk, getElem?_of_slotOf? hs] at hkx
          exact (Option.some.inj hkx).symm)
        simp [hne]

end SparseSet

end EntityScene
