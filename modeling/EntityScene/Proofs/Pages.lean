import Mathlib.Data.List.Dedup
import Mathlib.Data.List.Range
import Mathlib.Data.List.Perm.Basic
import EntityScene.Storage.SlotTable

/-!
# Slot tables as plain maps

Nothing of the pages is seen through a slot table: for every index it answers what was stored for
that very index last, unless the index was cleared since. Pages are seen in their number only. A
page exists when something was stored on it, and never goes away again.

- `SlotTable.Edit`, `SlotTable.edit`, `SlotTable.editAll`: what is done to a table, one after the
  other.
- `SlotTable.LastStored`: the slot that was stored for an index last, and not cleared since.
- `SlotTable.hasPage`: whether a page exists. `hasPage_set` and `hasPage_clear` say who opens pages.
- `SlotTable.tables_keep_what_was_stored_last`: what this says about all sequences of edits.
-/

namespace EntityScene

namespace SlotTable

/-- What is done to a table. -/
inductive Edit
  /-- A slot is stored for an index. -/
  | set (index : UInt32) (slot : Nat)
  /-- An index is cleared. -/
  | clear (index : UInt32)
deriving DecidableEq, Repr

namespace Edit

/-- The index that an edit is about. -/
def index : Edit → UInt32
  | set i _ => i
  | clear i => i

/-- The slot that an edit stores. -/
def slot? : Edit → Option Nat
  | set _ slot => some slot
  | clear _ => none

/-- The index that an edit stores a slot for. -/
def stored? : Edit → Option UInt32
  | set i _ => some i
  | clear _ => none

/-- The tombstone is not stored, nor anything beyond it. -/
def IsFit : Edit → Prop
  | set _ slot => slot < tombstone.toNat
  | clear _ => True

end Edit

/-- Edit a table. -/
def edit (t : SlotTable) : Edit → SlotTable
  | .set i slot => t.set i slot
  | .clear i => t.clear i

/-- Edit a table, one edit after the other. -/
def editAll (t : SlotTable) (edits : List Edit) : SlotTable := edits.foldl edit t

/-- The slot was stored for the index, which no later edit is about. -/
def LastStored (edits : List Edit) (i : UInt32) (slot : Nat) : Prop :=
  ∃ before after, edits = before ++ .set i slot :: after ∧ ∀ later ∈ after, later.index ≠ i

theorem editAll_append_singleton (t : SlotTable) (edits : List Edit) (last : Edit) :
    t.editAll (edits ++ [last]) = (t.editAll edits).edit last := by
  rw [editAll, List.foldl_append]
  rfl

/-! ## What is read -/

/-- An edit is read back at its index, and at no other. -/
theorem get?_edit (t : SlotTable) {last : Edit} (h : last.IsFit) (i : UInt32) :
    (t.edit last).get? i = if i = last.index then last.slot? else t.get? i := by
  cases last with
  | set j slot =>
    show (t.set j slot).get? i = if i = j then some slot else t.get? i
    by_cases hi : i = j
    · rw [if_pos hi, hi]
      exact get?_set_self t j h
    · rw [if_neg hi]
      exact get?_set_other t slot hi
  | clear j =>
    show (t.clear j).get? i = if i = j then none else t.get? i
    by_cases hi : i = j
    · rw [if_pos hi, hi]
      exact get?_clear_self t j
    · rw [if_neg hi]
      exact get?_clear_other t hi

/-- The last edit of all decides about its index, and the ones before it about all others. -/
theorem lastStored_append_singleton {edits : List Edit} {last : Edit} {i : UInt32} {slot : Nat} :
    LastStored (edits ++ [last]) i slot ↔
      if i = last.index then last.slot? = some slot else LastStored edits i slot := by
  constructor
  · rintro ⟨before, after, hedits, hlater⟩
    rcases List.eq_nil_or_concat after with rfl | ⟨after', x, rfl⟩
    · obtain ⟨-, hlast⟩ := List.append_inj' hedits rfl
      rw [List.cons.inj hlast |>.1]
      exact (if_pos rfl).mpr rfl
    · rw [List.concat_eq_append, ← List.cons_append, ← List.append_assoc] at hedits
      obtain ⟨hbefore, hx⟩ := List.append_inj' hedits rfl
      obtain rfl := (List.cons.inj hx).1
      have hne : i ≠ last.index := fun hi => hlater last (by simp) hi.symm
      rw [if_neg hne]
      exact ⟨before, after', hbefore, fun later h => hlater later (by simp [h])⟩
  · intro h
    split at h
    · rename_i hi
      cases last with
      | set j s =>
        obtain rfl := Option.some.inj h
        obtain rfl : i = j := hi
        exact ⟨edits, [], rfl, fun later h => by cases h⟩
      | clear j => cases h
    · rename_i hne
      obtain ⟨before, after, rfl, hlater⟩ := h
      refine ⟨before, after ++ [last], by simp, fun later h => ?_⟩
      rcases List.mem_append.mp h with h | h
      · exact hlater later h
      · rw [List.mem_singleton.mp h]
        exact Ne.symm hne

theorem get?_editAll_iff {edits : List Edit} (h : ∀ e ∈ edits, e.IsFit) (i : UInt32) (slot : Nat) :
    (empty.editAll edits).get? i = some slot ↔ LastStored edits i slot := by
  induction edits using List.reverseRecOn with
  | nil =>
    constructor
    · intro hget
      rw [editAll, List.foldl_nil, get?_empty] at hget
      cases hget
    · rintro ⟨before, after, hedits, -⟩
      exact absurd hedits.symm (by simp)
  | append_singleton edits last ih =>
    have hlast : last.IsFit := h last (by simp)
    have hrest := ih fun e he => h e (List.mem_append_left _ he)
    rw [editAll_append_singleton, get?_edit _ hlast, lastStored_append_singleton]
    split
    · exact Iff.rfl
    · exact hrest

/-! ## Pages -/

/-- Whether a page exists. -/
def hasPage (t : SlotTable) (page : Nat) : Bool := (t.pages[page]?).join.isSome

theorem lt_size_of_hasPage {t : SlotTable} {page : Nat} (h : t.hasPage page = true) :
    page < t.pages.size := by
  by_contra hno
  rw [hasPage, Array.getElem?_eq_none (Nat.not_lt.mp hno)] at h
  cases h

/-- To store a slot opens the page that it lies on, and no other. -/
theorem hasPage_set (t : SlotTable) (i : UInt32) (slot page : Nat) :
    (t.set i slot).hasPage page = true ↔ page = pageOf i ∨ t.hasPage page = true := by
  simp only [hasPage, set, Array.getElem?_modify]
  by_cases hp : pageOf i = page
  · rw [if_pos hp]
    -- there is a place for the page now, and whatever it held it holds a page
    have hlt : page < (t.pages ++ Array.replicate (pageOf i + 1 - t.pages.size) none).size := by
      rw [Array.size_append, Array.size_replicate]
      omega
    rw [Array.getElem?_eq_getElem hlt]
    exact iff_of_true rfl (.inl hp.symm)
  · rw [if_neg hp, or_iff_right (Ne.symm hp), Array.getElem?_append]
    split
    · exact Iff.rfl
    · rename_i hge
      rw [Array.getElem?_eq_none (Nat.not_lt.mp hge), Array.getElem?_replicate]
      split <;> exact Iff.rfl

/-- To clear an index opens no page, and gives none up. -/
theorem hasPage_clear (t : SlotTable) (i : UInt32) (page : Nat) :
    (t.clear i).hasPage page = t.hasPage page := by
  simp only [hasPage, clear, Array.getElem?_modify]
  split
  · cases t.pages[page]? with
    | none => rfl
    | some p => cases p <;> rfl
  · rfl

theorem size_pages_clear (t : SlotTable) (i : UInt32) :
    (t.clear i).pages.size = t.pages.size :=
  Array.size_modify ..

/-- Pages are counted by their numbers. -/
theorem pageCount_eq (t : SlotTable) :
    t.pageCount = ((List.range t.pages.size).filter t.hasPage).length := by
  have hpages : t.pages.toList = (List.range t.pages.size).map fun page => (t.pages[page]?).join := by
    refine List.ext_getElem (by simp) fun page h _ => ?_
    have hlt : page < t.pages.size := by simpa using h
    simp [hlt]
  rw [pageCount, ← Array.countP_toList, hpages, List.countP_map, ← List.countP_eq_length_filter]
  rfl

theorem pageCount_clear (t : SlotTable) (i : UInt32) : (t.clear i).pageCount = t.pageCount := by
  rw [pageCount_eq, pageCount_eq, size_pages_clear]
  exact congrArg List.length (List.filter_congr fun page _ => hasPage_clear t i page)

/-- The numbers of the pages that something was stored on. -/
def written (edits : List Edit) : List Nat := (edits.filterMap Edit.stored?).map pageOf

theorem hasPage_editAll_iff (edits : List Edit) (page : Nat) :
    (empty.editAll edits).hasPage page = true ↔ page ∈ written edits := by
  induction edits using List.reverseRecOn with
  | nil =>
    constructor
    · intro hpage
      exact absurd (lt_size_of_hasPage hpage) (Nat.not_lt_zero page)
    · intro hpage
      cases hpage
  | append_singleton edits last ih =>
    rw [editAll_append_singleton, written, List.filterMap_append, List.map_append,
      List.mem_append, ← written, ← ih]
    cases last with
    | set i slot =>
      show ((empty.editAll edits).set i slot).hasPage page = true ↔ _ ∨ page ∈ [pageOf i]
      rw [hasPage_set, List.mem_singleton]
      exact Or.comm
    | clear i =>
      show ((empty.editAll edits).clear i).hasPage page = true ↔ _ ∨ page ∈ []
      rw [hasPage_clear]
      exact (or_iff_left List.not_mem_nil).symm

/-- There are as many pages as numbers of pages that something was stored on. -/
theorem pageCount_editAll (edits : List Edit) :
    (empty.editAll edits).pageCount = (written edits).dedup.length := by
  rw [pageCount_eq]
  have hnodup := (List.nodup_range (n := (empty.editAll edits).pages.size)).filter
    (empty.editAll edits).hasPage
  refine ((List.perm_ext_iff_of_nodup hnodup (List.nodup_dedup _)).mpr fun page => ?_).length_eq
  rw [List.mem_filter, List.mem_range, List.mem_dedup, ← hasPage_editAll_iff]
  constructor
  · intro hpage
    exact hpage.2
  · intro hpage
    exact ⟨lt_size_of_hasPage hpage, hpage⟩

/-! ## All sequences of edits -/

/-- **Tables keep what was stored last.** Whatever is done to a table that starts without pages, an
index reads as the slot that was stored for that very index last, and as nothing if it was cleared
since or nothing was ever stored for it. What is stored or cleared next is not seen at any other
index, on the same page or another. To clear an index opens no page, whether its own exists or not,
and there are as many pages as there are numbers of pages that something was stored on. -/
theorem tables_keep_what_was_stored_last (edits : List Edit) (h : ∀ e ∈ edits, e.IsFit) :
    let t := empty.editAll edits
    (∀ i slot, t.get? i = some slot ↔ LastStored edits i slot) ∧
      (∀ i j slot, j ≠ i →
        (t.set i slot).get? j = t.get? j ∧ (t.clear i).get? j = t.get? j) ∧
      (∀ i, (t.clear i).pages.size = t.pages.size ∧ (t.clear i).pageCount = t.pageCount ∧
        ∀ page, (t.clear i).hasPage page = t.hasPage page) ∧
      (∀ page, t.hasPage page = true ↔ ∃ i slot, .set i slot ∈ edits ∧ i.toNat / 4096 = page) ∧
      t.pageCount = ((edits.filterMap Edit.stored?).map (·.toNat / 4096)).dedup.length := by
  intro t
  refine ⟨get?_editAll_iff h, fun i j slot hj => ?_, fun i => ?_, fun page => ?_,
    pageCount_editAll edits⟩
  · exact ⟨get?_set_other t slot hj, get?_clear_other t hj⟩
  · exact ⟨size_pages_clear t i, pageCount_clear t i, hasPage_clear t i⟩
  · rw [hasPage_editAll_iff, written, List.mem_map]
    constructor
    · rintro ⟨i, hi, hpage⟩
      obtain ⟨e, he, hstored⟩ := List.mem_filterMap.mp hi
      cases e with
      | set j slot =>
        obtain rfl := Option.some.inj hstored
        exact ⟨j, slot, he, hpage⟩
      | clear j => cases hstored
    · rintro ⟨i, slot, he, hpage⟩
      exact ⟨i, List.mem_filterMap.mpr ⟨_, he, rfl⟩, hpage⟩

/-- Indices next to a border between pages and at the far end. One is written twice, one is cleared
after it was written, and one is cleared on a page that does not exist. -/
theorem tables_keep_what_was_stored_last_borders :
    let edits : List Edit :=
      [.set 4095 1, .set 4096 2, .clear 70000, .set 4095 3, .set 0xFFFFFFFF 5, .clear 4096,
        .set 4097 0]
    let t := empty.editAll edits
    (∀ e ∈ edits, e.IsFit) ∧ t.get? 4095 = some 3 ∧ t.get? 4096 = none ∧
      t.get? 0xFFFFFFFF = some 5 ∧ t.hasPage 17 = false ∧ t.pageCount = 3 := by
  intro edits t
  have hfit : ∀ e ∈ edits, e.IsFit := by
    simp [edits, Edit.IsFit, tombstone]
  have hedits : edits = [.set 4095 1, .set 4096 2, .clear 70000, .set 4095 3, .set 0xFFFFFFFF 5] ++
      [.clear 4096] ++ [.set 4097 0] := rfl
  obtain ⟨hget, -, -, -, hcount⟩ := tables_keep_what_was_stored_last edits hfit
  refine ⟨hfit, (hget _ _).mpr ?_, ?_, (hget _ _).mpr ?_, ?_, hcount.trans (by decide)⟩
  · exact ⟨[.set 4095 1, .set 4096 2, .clear 70000], [.set 0xFFFFFFFF 5, .clear 4096, .set 4097 0],
      rfl, by simp [Edit.index]⟩
  · -- the last edit but one is about this index
    refine Option.eq_none_iff_forall_ne_some.mpr fun slot hslot => ?_
    have hlast := (hget _ _).mp hslot
    rw [hedits, lastStored_append_singleton, if_neg (by decide), lastStored_append_singleton,
      if_pos (by decide)] at hlast
    cases hlast
  · exact ⟨[.set 4095 1, .set 4096 2, .clear 70000, .set 4095 3], [.clear 4096, .set 4097 0],
      rfl, by simp [Edit.index]⟩
  · refine Bool.eq_false_iff.mpr fun hpage => ?_
    exact absurd ((hasPage_editAll_iff edits 17).mp hpage) (by decide)

end SlotTable

end EntityScene
