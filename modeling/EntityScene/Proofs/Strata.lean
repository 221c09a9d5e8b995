import EntityScene.Proofs.Rows

/-!
# Rows that nobody is led to

Rows at the bottom of a set to which the slot table leads no more are not looked at again: calls for
handles that are led elsewhere, or nowhere, do to the rows above them what they would do to these rows
alone. Only the slots are larger, and as long as they can be stored that makes no difference.

- `SparseSet.Atop`: a set is another one on top of such rows.
- `Atop.trans`: rows on top of rows.
- `Atop.emplaceWith`, `Atop.remove`: what is done to the rows above.
- `SlotTable.get?_set_tombstone`: a slot that is the tombstone reads as absent.
-/

namespace EntityScene

/-- A slot that is the tombstone reads as absent. -/
theorem SlotTable.get?_set_tombstone (t : SlotTable) (i : UInt32) {slot : Nat}
    (h : UInt32.ofNat slot = tombstone) : (t.set i slot).get? i = none := by
  simp [SlotTable.get?, SlotTable.page?_set_self, h]

namespace SparseSet

variable {α : Type} {n m : Nat} {known : List Entity} {s t u : SparseSet α} {e : Entity}

/-- A set is another one on top of `n` rows, and the listed handles are not led to these. -/
structure Atop (n : Nat) (known : List Entity) (s t : SparseSet α) : Prop where
  size : s.entities.size = n + t.entities.size
  entities : s.entities.toList.drop n = t.entities.toList
  values : s.values.size = n + t.values.size
  led : ∀ e ∈ known, s.slots.get? e.index = (t.slots.get? e.index).map (n + ·)
  rows : ∀ e ∈ t.entities.toList, e ∈ known

namespace Atop

theorem getElem? (h : Atop n known s t) (j : Nat) : s.entities[n + j]? = t.entities[j]? := by
  rw [← Array.getElem?_toList, ← Array.getElem?_toList, ← h.entities, List.getElem?_drop]

/-- Rows are looked at from above, so it is no matter in which order they were put below. -/
theorem of_getElem? (hsize : s.entities.size = n + t.entities.size)
    (hentities : ∀ j, s.entities[n + j]? = t.entities[j]?)
    (hvalues : s.values.size = n + t.values.size)
    (hled : ∀ e ∈ known, s.slots.get? e.index = (t.slots.get? e.index).map (n + ·))
    (hrows : ∀ e ∈ t.entities, e ∈ known) : Atop n known s t :=
  { size := hsize
    entities := by
      refine List.ext_getElem? fun j => ?_
      rw [List.getElem?_drop, Array.getElem?_toList, Array.getElem?_toList, hentities]
    values := hvalues
    led := hled
    rows := fun e he => hrows e (Array.mem_toList_iff.mp he) }

theorem trans (h : Atop n known s t) (h' : Atop m known t u) : Atop (n + m) known s u :=
  { size := by rw [h.size, h'.size, Nat.add_assoc]
    entities := by rw [← List.drop_drop, h.entities, h'.entities]
    values := by rw [h.values, h'.values, Nat.add_assoc]
    led := fun e he => by
      rw [h.led e he, h'.led e he, Option.map_map]
      refine congrArg (fun f => Option.map f _) (funext fun slot => ?_)
      exact (Nat.add_assoc n m slot).symm
    rows := h'.rows }

theorem known_of_getElem? (h : Atop n known s t) {j : Nat} (hj : t.entities[j]? = some e) :
    e ∈ known :=
  h.rows e (Array.mem_toList_iff.mpr (Array.mem_of_getElem? hj))

/-- A value is missing above where it is missing alone. -/
theorem rowAt_values (h : Atop n known s t) (slot : Nat) :
    (∃ v w, s.values[n + slot]? = some v ∧ t.values[slot]? = some w) ∨
      (s.values[n + slot]? = none ∧ t.values[slot]? = none) := by
  by_cases hlt : slot < t.values.size
  · have hlt' : n + slot < s.values.size := by
      rw [h.values]
      exact Nat.add_lt_add_left hlt n
    exact .inl ⟨_, _, Array.getElem?_eq_getElem hlt', Array.getElem?_eq_getElem hlt⟩
  · refine .inr ⟨Array.getElem?_eq_none ?_, Array.getElem?_eq_none (Nat.not_lt.mp hlt)⟩
    rw [h.values]
    exact Nat.add_le_add_left (Nat.not_lt.mp hlt) n

/-- A known handle is found in the same row, or the search is abandoned. -/
theorem locate (h : Atop n known s t) (he : e ∈ known) :
    (∃ cause cause', s.locate e = .error cause ∧ t.locate e = .error cause') ∨
      ∃ slot, t.locate e = .ok slot ∧ s.locate e = .ok (slot.map (n + ·)) := by
  rw [SparseSet.locate, SparseSet.locate, h.led e he]
  cases t.slots.get? e.index with
  | none => exact .inr ⟨none, rfl, rfl⟩
  | some slot =>
    simp only [Option.map_some, rowAt, h.getElem?]
    cases t.entities[slot]? with
    | none => exact .inl ⟨_, _, rfl, rfl⟩
    | some x =>
      refine .inr ⟨if x = e then some slot else none, rfl, ?_⟩
      by_cases hx : x = e
      · simp [hx, Except.map]
      · simp [hx, Except.map]

/-- A slot is stored for a known handle, the larger one above. -/
theorem get?_set (h : ∀ e ∈ known, s.slots.get? e.index = (t.slots.get? e.index).map (n + ·))
    {slot : Nat} (hlt : n + slot < tombstone.toNat) (i : UInt32) :
    ∀ e ∈ known, (s.slots.set i (n + slot)).get? e.index =
      ((t.slots.set i slot).get? e.index).map (n + ·) := by
  intro e he
  by_cases hi : e.index = i
  · rw [hi, SlotTable.get?_set_self _ _ hlt,
      SlotTable.get?_set_self _ _ (Nat.lt_of_le_of_lt (Nat.le_add_left ..) hlt)]
    rfl
  · rw [SlotTable.get?_set_other _ _ hi, SlotTable.get?_set_other _ _ hi]
    exact h e he

theorem get?_clear (h : ∀ e ∈ known, s.slots.get? e.index = (t.slots.get? e.index).map (n + ·))
    (i : UInt32) : ∀ e ∈ known,
      (s.slots.clear i).get? e.index = ((t.slots.clear i).get? e.index).map (n + ·) := by
  intro e he
  by_cases hi : e.index = i
  · rw [hi, SlotTable.get?_clear_self, SlotTable.get?_clear_self]
    rfl
  · rw [SlotTable.get?_clear_other _ hi, SlotTable.get?_clear_other _ hi]
    exact h e he

/-- The last row takes the place of another one above. -/
theorem getElem?_swapRemove (h : Atop n known s t) {slot : Nat} (hlt : slot < t.entities.size)
    (j : Nat) : (swapRemove s.entities (n + slot))[n + j]? = (swapRemove t.entities slot)[j]? := by
  have hlt' : n + slot < s.entities.size := by
    rw [h.size]
    exact Nat.add_lt_add_left hlt n
  have hlast : s.entities.size - 1 = n + (t.entities.size - 1) := by
    rw [h.size]
    omega
  rw [EntityScene.getElem?_swapRemove _ hlt', EntityScene.getElem?_swapRemove _ hlt, hlast,
    h.getElem?, h.getElem?]
  simp only [Nat.add_lt_add_iff_left, Nat.add_left_cancel_iff]

theorem size_swapRemove {β : Type} (rows : Array β) (slot : Nat) :
    (swapRemove rows slot).size = rows.size - 1 := by
  simp [swapRemove]

theorem mem_of_mem_swapRemove (h : Atop n known s t) {slot : Nat} (hlt : slot < t.entities.size)
    (he : e ∈ swapRemove t.entities slot) : e ∈ known := by
  obtain ⟨j, hj⟩ := Array.mem_iff_getElem?.mp he
  rw [EntityScene.getElem?_swapRemove _ hlt] at hj
  split at hj
  · split at hj
    · exact h.known_of_getElem? hj
    · exact h.known_of_getElem? hj
  · cases hj

theorem dropRow (h : Atop n known s t) {slot : Nat} (hlt : slot < t.entities.size)
    (hvalue : slot < t.values.size) (hroom : n + t.entities.size ≤ tombstone.toNat) :
    Atop n known (s.dropRow (n + slot)) (t.dropRow slot) := by
  have hpos : 0 < t.entities.size := Nat.zero_lt_of_lt hlt
  have hstorable : n + slot < tombstone.toNat :=
    Nat.lt_of_lt_of_le (Nat.add_lt_add_left hlt n) hroom
  refine of_getElem? ?_ (fun j => h.getElem?_swapRemove hlt j) ?_ ?_ fun e he =>
    h.mem_of_mem_swapRemove hlt he
  · show (swapRemove s.entities (n + slot)).size = n + (swapRemove t.entities slot).size
    rw [size_swapRemove, size_swapRemove, h.size]
    omega
  · show (swapRemove s.values (n + slot)).size = n + (swapRemove t.values slot).size
    rw [size_swapRemove, size_swapRemove, h.values]
    omega
  · -- the row is the same above, and so is the one that takes its place
    have hrow := Array.getElem?_eq_getElem hlt
    simp only [SparseSet.dropRow, h.getElem?, h.getElem?_swapRemove hlt, hrow]
    have hcleared := get?_clear h.led t.entities[slot].index
    cases (swapRemove t.entities slot)[slot]? with
    | none => exact hcleared
    | some moved =>
      exact get?_set (s := { s with slots := s.slots.clear t.entities[slot].index })
        (t := { t with slots := t.slots.clear t.entities[slot].index }) hcleared hstorable _

/-- A row is removed above as it is alone. -/
theorem removeAt (h : Atop n known s t) (slot : Nat)
    (hroom : n + t.entities.size ≤ tombstone.toNat) :
    (s.removeAt (n + slot)).1.isOk = (t.removeAt slot).1.isOk ∧
      Atop n known (s.removeAt (n + slot)).2 (t.removeAt slot).2 := by
  rw [SparseSet.removeAt, SparseSet.removeAt]
  by_cases hlt : slot < t.entities.size
  · have hlt' : n + slot < s.entities.size := by
      rw [h.size]
      exact Nat.add_lt_add_left hlt n
    rw [if_pos hlt, if_pos hlt']
    rcases h.rowAt_values slot with ⟨v, w, hv, hw⟩ | ⟨hv, hw⟩
    · rw [hv, hw]
      exact ⟨rfl, h.dropRow hlt (Array.getElem?_eq_some_iff.mp hw).1 hroom⟩
    · rw [hv, hw]
      refine ⟨rfl, of_getElem? ?_ (fun j => h.getElem?_swapRemove hlt j) h.values h.led fun e he =>
        h.mem_of_mem_swapRemove hlt he⟩
      show (swapRemove s.entities (n + slot)).size = n + (swapRemove t.entities slot).size
      rw [size_swapRemove, size_swapRemove, h.size]
      omega
  · have hlt' : ¬ n + slot < s.entities.size := by
      rw [h.size, Nat.add_lt_add_iff_left]
      exact hlt
    rw [if_neg hlt, if_neg hlt']
    exact ⟨rfl, h⟩

/-- An index of a known handle is evicted above as it is alone. -/
theorem evict (h : Atop n known s t) (he : e ∈ known)
    (hroom : n + t.entities.size ≤ tombstone.toNat) :
    (s.evict e.index).1.isOk = (t.evict e.index).1.isOk ∧
      Atop n known (s.evict e.index).2 (t.evict e.index).2 ∧
      (t.evict e.index).2.entities.size ≤ t.entities.size := by
  rw [SparseSet.evict, SparseSet.evict, h.led e he]
  cases t.slots.get? e.index with
  | none => exact ⟨rfl, h, Nat.le_refl _⟩
  | some slot =>
    simp only [Option.map_some, rowAt, h.getElem?]
    cases t.entities[slot]? with
    | none => exact ⟨rfl, h, Nat.le_refl _⟩
    | some x =>
      obtain ⟨hok, hatop⟩ := h.removeAt slot hroom
      have hmap : ∀ answer : Except Abort α, (answer.map fun _ => ()).isOk = answer.isOk := by
        intro answer
        cases answer <;> rfl
      refine ⟨(hmap _).trans (hok.trans (hmap _).symm), hatop, ?_⟩
      show (t.removeAt slot).2.entities.size ≤ _
      rw [SparseSet.removeAt]
      split
      · split
        · exact Nat.le_trans (Nat.le_of_eq (size_swapRemove ..)) (Nat.sub_le ..)
        · exact Nat.le_trans (Nat.le_of_eq (size_swapRemove ..)) (Nat.sub_le ..)
      · exact Nat.le_refl _

theorem begun (h : Atop n known s t) (he : e ∈ known)
    (hroom : n + t.entities.size < tombstone.toNat) : Atop n known (s.begun e) (t.begun e) := by
  refine of_getElem? ?_ (fun j => ?_) h.values ?_ fun x hx => ?_
  · rw [SparseSet.begun, SparseSet.begun, Array.size_push, Array.size_push, h.size, Nat.add_assoc]
  · show (s.entities.push e)[n + j]? = (t.entities.push e)[j]?
    rw [Array.getElem?_push, Array.getElem?_push, h.size, h.getElem?]
    simp only [Nat.add_left_cancel_iff]
  · show ∀ x ∈ known, (s.slots.set e.index s.entities.size).get? x.index = _
    rw [h.size]
    exact get?_set h.led hroom e.index
  · rcases Array.mem_push.mp hx with hx | rfl
    · exact h.rows x (Array.mem_toList_iff.mpr hx)
    · exact he

/-- A row is added above as it is alone. -/
theorem emplaceWith (h : Atop n known s t) (he : e ∈ known) (make : Except Abort α)
    (hroom : n + t.entities.size < tombstone.toNat) :
    Atop n known (s.emplaceWith e make).2 (t.emplaceWith e make).2 := by
  rw [SparseSet.emplaceWith, SparseSet.emplaceWith]
  split
  · exact h
  · rcases h.locate he with ⟨cause, cause', hs, ht⟩ | ⟨slot, ht, hs⟩
    · rw [hs, ht]
      exact h
    · rw [hs, ht]
      cases slot with
      | some slot => exact h
      | none =>
        obtain ⟨hok, hatop, hle⟩ := h.evict he (Nat.le_of_lt hroom)
        have hbegun := hatop.begun he (Nat.lt_of_le_of_lt (Nat.add_le_add_left hle n) hroom)
        have hvalues := hatop.values
        simp only [Option.map_none]
        cases hs' : s.evict e.index with
        | mk answer s' =>
          cases ht' : t.evict e.index with
          | mk answer' t' =>
            rw [hs', ht'] at hok hatop hbegun hvalues
            cases answer with
            | error cause =>
              cases answer' with
              | error cause' => exact hatop
              | ok _ => cases hok
            | ok _ =>
              cases answer' with
              | error cause' => cases hok
              | ok _ =>
                cases make with
                | error cause => exact hbegun
                | ok v =>
                  exact
                    { hbegun with
                      values := by
                        show (s'.values.push v).size = n + (t'.values.push v).size
                        rw [Array.size_push, Array.size_push, hvalues, Nat.add_assoc] }

/-- The row of a known handle is removed above as it is alone. -/
theorem remove (h : Atop n known s t) (he : e ∈ known)
    (hroom : n + t.entities.size ≤ tombstone.toNat) :
    Atop n known (s.remove e).2 (t.remove e).2 := by
  rw [SparseSet.remove, SparseSet.remove]
  rcases h.locate he with ⟨cause, cause', hs, ht⟩ | ⟨slot, ht, hs⟩
  · rw [hs, ht]
    exact h
  · rw [hs, ht]
    cases slot with
    | none => exact h
    | some slot => exact (h.removeAt slot hroom).2

end Atop

end SparseSet

end EntityScene
