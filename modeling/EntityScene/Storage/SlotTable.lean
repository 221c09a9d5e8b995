/-!
# Paged slot table

A partial map from entity indices to slots of a packed array. The index range is
cut into pages of `pageSize` entries; a page exists only after something was
written to it, so a handful of high indices costs a handful of pages. Inside a
page an absent entry holds the `tombstone`, which is why a stored slot has to be
smaller than it.

- `SlotTable`, `SlotTable.get?`: the table and its reading as a partial map.
- `SlotTable.set`: opens pages as needed. `SlotTable.clear`: never opens one.
- `get?_set_self`, `get?_set_other`, `get?_clear_self`, `get?_clear_other`: a
  write is read back, and no other index notices.
-/

namespace EntityScene

/-- Number of entries on one page. -/
def pageSize : Nat := 4096

/-- The entry that stands for an absent slot. -/
def tombstone : UInt32 := 0xFFFFFFFF

/-- The entries of one page. -/
abbrev Page := Vector UInt32 pageSize

/-- A page of absent entries. -/
def Page.blank : Page := Vector.replicate pageSize tombstone

/-- Entries by index, a page at a time; a page never written to is `none`. -/
structure SlotTable where
  pages : Array (Option Page) := #[]

namespace SlotTable

/-- A table without pages. -/
def empty : SlotTable := {}

instance : Inhabited SlotTable := ⟨empty⟩

/-- The page that holds an index. -/
def pageOf (index : UInt32) : Nat := index.toNat / pageSize

/-- The place of an index on its page. -/
def offsetOf (index : UInt32) : Fin pageSize :=
  ⟨index.toNat % pageSize, Nat.mod_lt _ (by decide)⟩

/-- The page that holds an index, if it exists. -/
def page? (t : SlotTable) (index : UInt32) : Option Page :=
  (t.pages[pageOf index]?).join

/-- The slot stored for an index. -/
def get? (t : SlotTable) (index : UInt32) : Option Nat :=
  match t.page? index with
  | none => none
  | some page =>
    let slot := page[offsetOf index]
    if slot = tombstone then none else some slot.toNat

/-- Store a slot for an index, opening the page it lies on. -/
def set (t : SlotTable) (index : UInt32) (slot : Nat) : SlotTable :=
  let pages := t.pages ++ Array.replicate (pageOf index + 1 - t.pages.size) none
  { pages := pages.modify (pageOf index) fun page =>
      some ((page.getD Page.blank).set (offsetOf index) (.ofNat slot)) }

/-- Forget the slot of an index. A page that does not exist is not opened. -/
def clear (t : SlotTable) (index : UInt32) : SlotTable :=
  { pages := t.pages.modify (pageOf index) fun page =>
      page.map (·.set (offsetOf index) tombstone) }

/-- Number of pages that exist. -/
def pageCount (t : SlotTable) : Nat := t.pages.countP (·.isSome)

/-! ## Reading after a write -/

/-- Two indices on the same place of the same page are the same. -/
theorem eq_of_pageOf_of_offsetOf {i j : UInt32} (hp : pageOf i = pageOf j)
    (ho : offsetOf i = offsetOf j) : i = j := by
  refine UInt32.toNat_inj.1 ?_
  have hm : i.toNat % pageSize = j.toNat % pageSize := congrArg Fin.val ho
  rw [← Nat.div_add_mod i.toNat pageSize, ← Nat.div_add_mod j.toNat pageSize, hm]
  exact congrArg (pageSize * · + _) hp

/-- The page of an index after a write to it. -/
theorem page?_set_self (t : SlotTable) (i : UInt32) (slot : Nat) :
    (t.set i slot).page? i =
      some (((t.page? i).getD Page.blank).set (offsetOf i) (.ofNat slot)) := by
  by_cases h : pageOf i < t.pages.size
  · have hn : pageOf i + 1 - t.pages.size = 0 := by omega
    simp only [page?, set, hn, Array.replicate_zero, Array.append_empty, Array.getElem?_modify,
      if_true, Array.getElem?_eq_getElem h, Option.map_some, Option.join_some]
  · have hn : pageOf i - t.pages.size < pageOf i + 1 - t.pages.size := by omega
    simp [page?, set, Array.getElem?_modify, Array.getElem?_append, h, hn]

/-- A page with another number is the same after a write. -/
theorem page?_set_of_pageOf_ne (t : SlotTable) {i j : UInt32} (slot : Nat)
    (h : pageOf j ≠ pageOf i) : (t.set i slot).page? j = t.page? j := by
  have hne : pageOf i ≠ pageOf j := fun e => h e.symm
  simp only [page?, set, Array.getElem?_modify, if_neg hne, Array.getElem?_append,
    Array.getElem?_replicate]
  by_cases hlt : pageOf j < t.pages.size
  · simp [hlt]
  · rw [if_neg hlt, Array.getElem?_eq_none (by omega)]
    split <;> rfl

/-- The page of an index after the index was cleared. -/
theorem page?_clear (t : SlotTable) (i j : UInt32) :
    (t.clear i).page? j =
      if pageOf i = pageOf j then (t.page? j).map (·.set (offsetOf i) tombstone)
      else t.page? j := by
  simp only [page?, clear, Array.getElem?_modify]
  split
  · cases t.pages[pageOf j]? with
    | none => rfl
    | some p => cases p <;> rfl
  · rfl

/-- A stored slot is read back, provided that it is not the tombstone. -/
theorem get?_set_self (t : SlotTable) (i : UInt32) {slot : Nat}
    (h : slot < tombstone.toNat) : (t.set i slot).get? i = some slot := by
  have ht : tombstone.toNat = 2 ^ 32 - 1 := rfl
  have hn : (UInt32.ofNat slot).toNat = slot := by
    rw [UInt32.toNat_ofNat']; omega
  have hne : UInt32.ofNat slot ≠ tombstone := fun e => by
    have := congrArg UInt32.toNat e
    rw [hn] at this
    omega
  simp [get?, page?_set_self, hne, hn]

/-- A write is not seen at another index. -/
theorem get?_set_other (t : SlotTable) {i j : UInt32} (slot : Nat) (h : j ≠ i) :
    (t.set i slot).get? j = t.get? j := by
  by_cases hp : pageOf j = pageOf i
  · have ho : (offsetOf i).val ≠ (offsetOf j).val := fun e =>
      h (eq_of_pageOf_of_offsetOf hp (Fin.ext e.symm))
    have hself := page?_set_self t i slot
    have hpage : ∀ s : SlotTable, s.page? j = s.page? i := fun s => by
      simp [page?, hp]
    simp only [get?, hpage, hself]
    cases hq : t.page? i with
    | none =>
      simp [Fin.getElem_fin, Vector.getElem_set_ne _ _ ho, Page.blank]
    | some page => simp [Fin.getElem_fin, Vector.getElem_set_ne _ _ ho]
  · simp only [get?, page?_set_of_pageOf_ne t slot hp]

/-- A cleared index reads as absent. -/
theorem get?_clear_self (t : SlotTable) (i : UInt32) : (t.clear i).get? i = none := by
  simp only [get?, page?_clear, if_true]
  cases t.page? i <;> simp

/-- Clearing an index is not seen at another one. -/
theorem get?_clear_other (t : SlotTable) {i j : UInt32} (h : j ≠ i) :
    (t.clear i).get? j = t.get? j := by
  simp only [get?, page?_clear]
  by_cases hp : pageOf i = pageOf j
  · rw [if_pos hp]
    have ho : (offsetOf i).val ≠ (offsetOf j).val := fun e =>
      h (eq_of_pageOf_of_offsetOf hp.symm (Fin.ext e.symm))
    cases t.page? j with
    | none => rfl
    | some page => simp [Fin.getElem_fin, Vector.getElem_set_ne _ _ ho]
  · rw [if_neg hp]

/-- Nothing is stored in a table without pages. -/
@[simp] theorem get?_empty (i : UInt32) : empty.get? i = none := by
  simp [get?, page?, empty]

end SlotTable

end EntityScene
