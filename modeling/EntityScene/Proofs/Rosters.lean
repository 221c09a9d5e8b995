import Mathlib.Algebra.Group.Nat.Defs
import Mathlib.Data.List.Sort
import EntityScene.Proofs.Generations

/-!
# The list of live handles

The live handles of a table are listed by index, and no two of them share one. So the list is
known by its members: a handle that is issued is put where its index says, one that is given up
is taken out, and what starts to be destroyed stays where it is.

- `toList_eq`: a list by index of the live handles is the list of the table.
- `toList_allocate`, `toList_beginDestroy`, `toList_release`: the list after each transition.
- `current?_eq_find?`: the handle of an index is the one in the list.
- `Entered`: handles that were issued, by index, as the generations of a table have it.
-/

namespace EntityScene.Entity.Table

variable {t t' : Table} {e x : Entity}

/-- Handles are listed by index. -/
theorem pairwise_toList (hwf : t.Wf) : t.toList.Pairwise (·.index < ·.index) := by
  have hsize := hwf.size_le
  have hnull : nullIndex.toNat < 2 ^ 32 := nullIndex.toNat_lt
  have hzip : (t.slots.toList.zipIdx).Pairwise (fun p q => p.2 < q.2 ∧ q.2 < t.slots.size) := by
    rw [List.pairwise_iff_getElem]
    intro i j hi hj hij
    rw [List.length_zipIdx, Array.length_toList] at hi hj
    simp only [List.getElem_zipIdx, Nat.zero_add]
    exact ⟨hij, hj⟩
  unfold toList
  refine List.Pairwise.filterMap _ (fun p q hpq x hx y hy => ?_) hzip
  obtain ⟨s, i⟩ := p
  obtain ⟨s', j⟩ := q
  obtain ⟨hij, hj⟩ := hpq
  simp only [Option.ite_none_left_eq_some, Option.some.injEq] at hx hy
  obtain ⟨-, rfl⟩ := hx
  obtain ⟨-, rfl⟩ := hy
  rw [UInt32.lt_iff_toNat_lt]
  simp only [UInt32.toNat_ofNat']
  omega

/-- No handle is listed twice. -/
theorem nodup_toList (hwf : t.Wf) : t.toList.Nodup :=
  (pairwise_toList hwf).imp fun hxy heq => by
    rw [heq] at hxy
    exact UInt32.lt_irrefl _ hxy

/-- No two live handles are for one index. -/
theorem countP_index_toList_le_one (hwf : t.Wf) (i : UInt32) :
    t.toList.countP (·.index == i) ≤ 1 := by
  have hnodup : (t.toList.map (·.index)).Nodup := by
    rw [List.Nodup, List.pairwise_map]
    exact (pairwise_toList hwf).imp UInt32.ne_of_lt
  have hcount := List.nodup_iff_count_le_one.mp hnodup i
  rw [List.count, List.countP_map] at hcount
  exact hcount

/-- The list of a table is the list by index of its live handles. -/
theorem toList_eq (hwf : t.Wf) {es : List Entity} (hsorted : es.Pairwise (·.index < ·.index))
    (hmem : ∀ x, x ∈ es ↔ t.isAlive x = true) : t.toList = es := by
  have hanti : Std.Antisymm fun x y : Entity => x.index < y.index :=
    ⟨fun x y hxy hyx => absurd hyx (UInt32.lt_asymm hxy)⟩
  have hirrefl : Std.Irrefl fun x y : Entity => x.index < y.index := ⟨fun x => UInt32.lt_irrefl _⟩
  refine (pairwise_toList hwf).eq_of_mem_iff hsorted fun x => ?_
  rw [mem_toList_iff hwf, hmem]

/-- No two live handles share an index. -/
theorem eq_of_mem_toList (hwf : t.Wf) (he : e ∈ t.toList) (hx : x ∈ t.toList)
    (hindex : x.index = e.index) : x = e :=
  eq_of_isAlive ((mem_toList_iff hwf).mp he) ((mem_toList_iff hwf).mp hx) hindex

/-- No live handle has the index of the one that is issued next. -/
theorem index_ne_of_allocate (hwf : t.Wf) (h : t.allocate = (.ok e, t')) (hx : x ∈ t.toList) :
    x.index ≠ e.index := by
  intro hindex
  have hwf' := wf_allocate hwf h
  have hnew := (isAlive_allocate hwf h e).mpr (.inl rfl)
  have hold := (isAlive_allocate hwf h x).mpr (.inr ((mem_toList_iff hwf).mp hx))
  obtain rfl := eq_of_isAlive hnew hold hindex
  have hfresh := isAlive_of_allocate hwf h
  rw [(mem_toList_iff hwf).mp hx] at hfresh
  cases hfresh

/-- A handle is put where its index says. -/
theorem pairwise_orderedInsert {es : List Entity} (hsorted : es.Pairwise (·.index < ·.index))
    (hne : ∀ x ∈ es, x.index ≠ e.index) :
    (es.orderedInsert (·.index ≤ ·.index) e).Pairwise (·.index < ·.index) := by
  induction es with
  | nil => exact List.pairwise_singleton _ _
  | cons y es ih =>
    obtain ⟨hy, hes⟩ := List.pairwise_cons.mp hsorted
    rw [List.orderedInsert_cons]
    split
    · rename_i hle
      have hlt : e.index < y.index :=
        UInt32.lt_of_le_of_ne hle fun heq => hne y List.mem_cons_self heq.symm
      refine List.pairwise_cons.mpr ⟨fun x hx => ?_, hsorted⟩
      rcases List.mem_cons.mp hx with rfl | hx
      · exact hlt
      · exact UInt32.lt_trans hlt (hy x hx)
    · rename_i hle
      have hlt : y.index < e.index := UInt32.not_le.mp hle
      refine List.pairwise_cons.mpr
        ⟨fun x hx => ?_, ih hes fun x hx => hne x (List.mem_cons_of_mem y hx)⟩
      rcases (List.mem_orderedInsert _).mp hx with rfl | hx
      · exact hlt
      · exact hy x hx

theorem toList_allocate (hwf : t.Wf) (h : t.allocate = (.ok e, t')) :
    t'.toList = t.toList.orderedInsert (·.index ≤ ·.index) e := by
  refine toList_eq (wf_allocate hwf h)
    (pairwise_orderedInsert (pairwise_toList hwf) fun x hx => index_ne_of_allocate hwf h hx)
    fun x => ?_
  rw [List.mem_orderedInsert, isAlive_allocate hwf h, mem_toList_iff hwf]

theorem toList_beginDestroy (hwf : t.Wf) (e : Entity) :
    (t.beginDestroy e).2.toList = t.toList := by
  refine toList_eq (wf_beginDestroy hwf e) (pairwise_toList hwf) fun x => ?_
  rw [isAlive_beginDestroy, mem_toList_iff hwf]

theorem toList_release (hwf : t.Wf) (h : t.isAlive e = true) :
    (t.release e).2.toList = t.toList.erase e := by
  refine toList_eq (wf_release hwf e) ((pairwise_toList hwf).sublist List.erase_sublist) fun x => ?_
  rw [(nodup_toList hwf).mem_erase_iff, isAlive_release h, mem_toList_iff hwf, and_comm]

/-- The handle that is valid for an index is listed. -/
theorem current?_eq_find? (hwf : t.Wf) (index : UInt32) :
    t.current? index = t.toList.find? (·.index == index) := by
  have hcurrent : ∀ x, t.current? index = some x ↔ x ∈ t.toList ∧ x.index = index := by
    intro x
    rw [mem_toList_iff hwf, isAlive_iff_exists, current?]
    simp only [Option.map_eq_some_iff, Option.filter_eq_some_iff, bne_iff_ne]
    constructor
    · rintro ⟨⟨g, st⟩, ⟨hslot, hst⟩, rfl⟩
      exact ⟨⟨st, hslot, hst⟩, rfl⟩
    · rintro ⟨⟨st, hslot, hst⟩, rfl⟩
      exact ⟨⟨x.generation, st⟩, ⟨hslot, hst⟩, rfl⟩
  refine Option.ext fun x => ?_
  rw [hcurrent]
  constructor
  · rintro ⟨hx, hindex⟩
    cases hfind : t.toList.find? (·.index == index) with
    | none => exact absurd (List.find?_eq_none.mp hfind x hx) (by simp [hindex])
    | some y =>
      have hy := List.find?_some hfind
      rw [eq_of_mem_toList hwf hx (List.mem_of_find?_eq_some hfind)
        ((eq_of_beq hy).trans hindex.symm)]
  · intro hfind
    have hx := List.find?_some hfind
    exact ⟨List.mem_of_find?_eq_some hfind, eq_of_beq hx⟩

/-- If no handle can be issued every index is taken. -/
theorem length_toList_of_error (hwf : t.Wf) {cause : Abort} (h : t.allocate = (.error cause, t')) :
    t.toList.length = 2 ^ 32 - 1 := by
  rw [length_toList, hwf.live_eq, (allocate_error hwf h).2.1]
  rfl

/-! ## Handles that were issued -/

/-- The generations of a table say how often each index was issued, and so do the handles that
were. -/
structure Entered (t : Table) (issued : List Entity) (count : UInt32 → Nat) : Prop where
  dated : t.Dated count
  known : ∀ x ∈ issued, t.Issued count x
  counted : ∀ i : UInt32, i.toNat < t.slots.size →
    issued.countP (·.index == i) = count i + 1

variable {issued : List Entity} {count : UInt32 → Nat}

theorem entered_empty : Entered empty [] fun _ => 0 :=
  { dated := dated_empty
    known := fun x hx => by cases hx
    counted := fun i hi => absurd hi (Nat.not_lt_zero _) }

namespace Entered

/-- Nobody has a handle for an index that was never used. -/
theorem countP_eq_zero (h : Entered t issued count) {i : UInt32} (hi : t.slots.size ≤ i.toNat) :
    issued.countP (·.index == i) = 0 := by
  rw [List.countP_eq_zero]
  intro x hx hindex
  have hlt := (h.known x hx).1
  rw [eq_of_beq hindex] at hlt
  omega

/-- The counts after an index is used again are in range if no index was issued too often. -/
theorem reusing_lt (h : Entered t issued count) (hwf : t.Wf) (halloc : t.allocate = (.ok e, t'))
    (hbound : ∀ i, (e :: issued).countP (·.index == i) ≤ 2 ^ 32) (i : UInt32) :
    t.reusing count i < UInt32.size := by
  have hi := hbound i
  rw [List.countP_cons] at hi
  have hsize : UInt32.size = 2 ^ 32 := rfl
  by_cases hslot : i.toNat < t.slots.size
  · rw [h.counted i hslot] at hi
    rcases allocate_cases hwf halloc with ⟨rest, hrel, -, -⟩ | ⟨hrel, -, -, -, -⟩
    · rw [reusing, hrel]
      by_cases hie : e.index = i
      · simp [hie] at hi ⊢
        omega
      · simp [hie] at hi ⊢
        omega
    · rw [reusing, hrel]
      simp
      omega
  · have hcount : count i = 0 := h.dated.unused (Array.getElem?_eq_none (Nat.le_of_not_lt hslot))
    rw [reusing, hcount]
    split <;> omega

/-- What is issued next was never issued before. -/
theorem not_mem (h : Entered t issued count) (hwf : t.Wf) (halloc : t.allocate = (.ok e, t'))
    (hbound : ∀ i, (e :: issued).countP (·.index == i) ≤ 2 ^ 32) : e ∉ issued := fun hmem =>
  not_issued_of_allocate hwf h.dated halloc (h.reusing_lt hwf halloc hbound) (h.known e hmem)

theorem allocate (h : Entered t issued count) (hwf : t.Wf) (halloc : t.allocate = (.ok e, t'))
    (hbound : ∀ i, (e :: issued).countP (·.index == i) ≤ 2 ^ 32) :
    Entered t' (e :: issued) (t.reusing count) := by
  have hlt := h.reusing_lt hwf halloc hbound
  have hdated := dated_allocate hwf h.dated halloc hlt
  refine
    { dated := hdated
      known := fun x hx => ?_
      counted := fun i hi => ?_ }
  · rcases List.mem_cons.mp hx with rfl | hx
    · exact hdated.issued_of_isAlive ((isAlive_allocate hwf halloc x).mpr (.inl rfl))
    · exact issued_allocate hwf halloc (h.known x hx)
  · rw [List.countP_cons]
    rcases allocate_cases hwf halloc with ⟨rest, hrel, hfree, rfl⟩ | ⟨hrel, hindex, -, -, rfl⟩
    · have hslot : i.toNat < t.slots.size := by simpa [setSlot] using hi
      rw [h.counted i hslot, reusing, hrel]
      by_cases hie : e.index = i
      · simp [hie]
      · simp [hie]
    · rw [reusing, hrel]
      by_cases hie : e.index = i
      · subst hie
        rw [h.countP_eq_zero (Nat.le_of_eq hindex.symm),
          h.dated.unused (Array.getElem?_eq_none (Nat.le_of_eq hindex.symm))]
        simp
      · have hslot : i.toNat < t.slots.size := by
          have hne : i.toNat ≠ e.index.toNat := fun heq => hie (UInt32.toNat_inj.mp heq.symm)
          rw [Array.size_push] at hi
          omega
        rw [h.counted i hslot]
        simp [hie]

theorem beginDestroy (h : Entered t issued count) (e : Entity) :
    Entered (t.beginDestroy e).2 issued count :=
  { dated := dated_beginDestroy h.dated e
    known := fun x hx => (h.known x hx).mono (Nat.le_of_eq (size_slots_beginDestroy t e).symm)
      (Nat.le_refl _)
    counted := fun i hi => h.counted i (size_slots_beginDestroy t e ▸ hi) }

theorem release (h : Entered t issued count) (he : t.isAlive e = true) :
    Entered (t.release e).2 issued count :=
  { dated := dated_release h.dated he
    known := fun x hx => (h.known x hx).mono (Nat.le_of_eq (size_slots_release t e).symm)
      (Nat.le_refl _)
    counted := fun i hi => h.counted i (size_slots_release t e ▸ hi) }

end Entered

end EntityScene.Entity.Table
