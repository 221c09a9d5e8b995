import Mathlib.Algebra.Group.Nat.Defs
import EntityScene.Proofs.Strata
import EntityScene.Proofs.Unfinished

/-!
# Limits of slots

An entry of the slot table has room for a slot up to `2 ^ 32 - 2`: a larger one is cut off, or is
the tombstone and reads as absent. Nothing bounds the rows of a set but that no two share an index
and none is for a null handle, and that is enough: the last row there can be has slot `2 ^ 32 - 2`.

A value that is not made shifts values against handles, and that alone does no harm here: the slot
table still leads to all rows. A removal that is abandoned does, since it takes a handle out and
leaves the slot table as it was.

- `SlotTable.Storable`, `storable_iff`: the slots that an entry gives back.
- `SparseSet.Call`: the operations, and rows whose value is not made.
- `SparseSet.carefulCall`: the calls, with no result where a slot is stored that is not storable.
- `SparseSet.outline`: what the slot table is about, a set of handles alone. It is in order
  (`wf_outline_call`) as long as no removal is abandoned, also where the set itself is shifted.
- `SparseSet.carefulCall_eq`: no call stores what is not storable.
- `SparseSet.slots_are_no_tombstones`: what this says about all calls.
- `SparseSet.round`: calls that add a row to which nobody is led, time and again.
- `SparseSet.slots_reach_the_tombstone`: where that ends.
-/

namespace EntityScene

namespace SlotTable

/-- An entry gives the slot back, and not as absent. -/
def Storable (slot : Nat) : Prop :=
  (UInt32.ofNat slot).toNat = slot ∧ UInt32.ofNat slot ≠ tombstone

instance (slot : Nat) : Decidable (Storable slot) :=
  inferInstanceAs (Decidable (_ ∧ _))

/-- The largest slot that can be stored is one less than the tombstone. -/
theorem storable_iff (slot : Nat) : Storable slot ↔ slot ≤ UInt32.size - 2 := by
  have hsize : UInt32.size = 2 ^ 32 := rfl
  have htombstone : tombstone.toNat = 2 ^ 32 - 1 := rfl
  constructor
  · rintro ⟨hback, hne⟩
    have hlt := (UInt32.ofNat slot).toNat_lt
    have hslot : slot ≠ 2 ^ 32 - 1 := by
      intro hslot
      apply hne
      rw [← UInt32.toNat_inj, hback, htombstone, hslot]
    omega
  · intro hle
    have hback : (UInt32.ofNat slot).toNat = slot := UInt32.toNat_ofNat_of_lt' (by
      show slot < 2 ^ 32
      omega)
    refine ⟨hback, fun heq => ?_⟩
    rw [heq, htombstone] at hback
    omega

theorem storable_of_lt_tombstone {slot : Nat} (h : slot < tombstone.toNat) : Storable slot :=
  (storable_iff slot).mpr (Nat.le_pred_of_lt h)

end SlotTable

namespace SparseSet

variable {α : Type} {s : SparseSet α} {e x : Entity}

/-! ## Calls -/

/-- What can be asked of a set, on whatever handles. -/
inductive Call (α : Type)
  /-- One of the operations. -/
  | op (op : Op α)
  /-- Add a row with a value that is not made when it is needed. -/
  | unmade (e : Entity) (cause : Abort)

/-- Serve one call. -/
def call (s : SparseSet α) : Call α → Except Abort (Answer α) × SparseSet α
  | .op op => s.perform op
  | .unmade e cause =>
    let (added, s) := s.emplaceWith e (.error cause)
    (added.map fun b => .stored (s.get? e) b, s)

/-- Serve calls, one after the other, whether they are abandoned or not. -/
def callAll (s : SparseSet α) : List (Call α) → List (Except Abort (Answer α)) × SparseSet α
  | [] => ([], s)
  | c :: calls =>
    let (answer, s) := s.call c
    let (answers, s) := s.callAll calls
    (answer :: answers, s)

theorem callAll_append (s : SparseSet α) (calls more : List (Call α)) :
    (s.callAll (calls ++ more)).2 = ((s.callAll calls).2.callAll more).2 := by
  induction calls generalizing s with
  | nil => rfl
  | cons c calls ih => exact ih (s.call c).2

/-- Whether a removal was abandoned: a row was taken out of the handles, and there was none to be
taken out of the values. -/
def isTorn {β : Type} : Except Abort β → Bool
  | .error (.removalMissing ..) => true
  | _ => false

@[simp] theorem isTorn_map {β γ : Type} (answer : Except Abort β) (f : β → γ) :
    isTorn (answer.map f) = isTorn answer := by
  cases answer with
  | ok b => rfl
  | error cause => cases cause <;> rfl

/-- No removal is abandoned. -/
def Whole (s : SparseSet α) (calls : List (Call α)) : Prop :=
  ∀ answer ∈ (s.callAll calls).1, isTorn answer = false

/-! ## Calls that insist on slots that can be stored -/

/-- Store a slot that its entry has to give back. -/
def carefulSet (t : SlotTable) (index : UInt32) (slot : Nat) : Option SlotTable :=
  if SlotTable.Storable slot then some (t.set index slot) else none

/-- The set without a row. -/
def carefulDropRow (s : SparseSet α) (slot : Nat) : Option (SparseSet α) := do
  let cleared := match s.entities[slot]? with
    | some e => s.slots.clear e.index
    | none => s.slots
  let entities := swapRemove s.entities slot
  let slots ← match entities[slot]? with
    | some moved => carefulSet cleared moved.index slot
    | none => some cleared
  some { slots, entities, values := swapRemove s.values slot }

/-- Remove a row, and answer its value. A removal that is abandoned stores no slot. -/
def carefulRemoveAt (s : SparseSet α) (slot : Nat) : Option (Except Abort α × SparseSet α) :=
  match s.removeAt slot with
  | (.ok v, _) => (s.carefulDropRow slot).map fun s => (.ok v, s)
  | (.error cause, s) => some (.error cause, s)

/-- Remove the row that an index leads to. -/
def carefulEvict (s : SparseSet α) (index : UInt32) : Option (Except Abort Unit × SparseSet α) :=
  match s.slots.get? index with
  | none => some (.ok (), s)
  | some slot =>
    match rowAt s.entities slot with
    | .error cause => some (.error cause, s)
    | .ok _ => (s.carefulRemoveAt slot).map fun (removed, s) => (removed.map fun _ => (), s)

/-- The set with a new last row, the value of which is not there yet. -/
def carefulBegun (s : SparseSet α) (e : Entity) : Option (SparseSet α) := do
  let slots ← carefulSet s.slots e.index s.entities.size
  some { s with slots, entities := s.entities.push e }

/-- Add a row with the value that is made, unless the handle has one. -/
def carefulEmplaceWith (s : SparseSet α) (e : Entity) (make : Except Abort α) :
    Option (Except Abort Bool × SparseSet α) :=
  if e.isNull then some (.error .nullHolder, s)
  else
    match s.locate e with
    | .error cause => some (.error cause, s)
    | .ok (some slot) => some ((rowAt s.values slot).map fun _ => false, s)
    | .ok none => do
      match ← s.carefulEvict e.index with
      | (.error cause, s) => some (.error cause, s)
      | (.ok (), s) =>
        let begun ← s.carefulBegun e
        match make with
        | .error cause => some (.error cause, begun)
        | .ok v =>
          let values := s.values.push v
          some ((rowAt values s.entities.size).map fun _ => true, { begun with values })

/-- Add a row, or replace its value. -/
def carefulInsertOrReplace (s : SparseSet α) (e : Entity) (v : α) :
    Option (Except Abort (Option α) × SparseSet α) :=
  match s.get e with
  | .error cause => some (.error cause, s)
  | .ok (some old) => some (.ok (some old), s.modify e fun _ => v)
  | .ok none => (s.carefulEmplaceWith e (.ok v)).map fun (added, s) => (added.map fun _ => none, s)

/-- Remove the row of a handle. -/
def carefulRemove (s : SparseSet α) (e : Entity) :
    Option (Except Abort (Option α) × SparseSet α) :=
  match s.locate e with
  | .error cause => some (.error cause, s)
  | .ok none => some (.ok none, s)
  | .ok (some slot) => (s.carefulRemoveAt slot).map fun (old, s) => (old.map some, s)

/-- Remove the rows of the listed handles. -/
def carefulRemoveAll (s : SparseSet α) :
    List Entity → Option (Except Abort Nat × SparseSet α)
  | [] => some (.ok 0, s)
  | e :: es => do
    match ← s.carefulRemove e with
    | (.error cause, s) => some (.error cause, s)
    | (.ok old, s) =>
      (s.carefulRemoveAll es).map fun (others, s) =>
        (others.map fun n => if old.isSome then n + 1 else n, s)

/-- Serve one operation. -/
def carefulPerform (s : SparseSet α) : Op α → Option (Except Abort (Answer α) × SparseSet α)
  | .emplace e v | .emplaceWith e v =>
    (s.carefulEmplaceWith e (.ok v)).map fun (added, s) =>
      (added.map fun b => .stored (s.get? e) b, s)
  | .insertOrReplace e v =>
    (s.carefulInsertOrReplace e v).map fun (old, s) => (old.map .value, s)
  | .remove e => (s.carefulRemove e).map fun (old, s) => (old.map .value, s)
  | .erase e => (s.carefulRemove e).map fun (old, s) => (old.map fun old => .found old.isSome, s)
  | .removeAll es => (s.carefulRemoveAll es).map fun (n, s) => (n.map .count, s)
  -- the others store no slot
  | .write e f => some (s.perform (.write e f))
  | .rewrite f => some (s.perform (.rewrite f))
  | .clear => some (s.perform .clear)

/-- Serve one call. -/
def carefulCall (s : SparseSet α) : Call α → Option (Except Abort (Answer α) × SparseSet α)
  | .op op => s.carefulPerform op
  | .unmade e cause =>
    (s.carefulEmplaceWith e (.error cause)).map fun (added, s) =>
      (added.map fun b => .stored (s.get? e) b, s)

/-- Serve calls, one after the other. -/
def carefulCallAll (s : SparseSet α) :
    List (Call α) → Option (List (Except Abort (Answer α)) × SparseSet α)
  | [] => some ([], s)
  | c :: calls => do
    let (answer, s) ← s.carefulCall c
    let (answers, s) ← s.carefulCallAll calls
    some (answer :: answers, s)

/-! ## Handles alone -/

/-- The set as a set of handles, with nothing beside them. -/
def outline (s : SparseSet α) : SparseSet Unit :=
  { slots := s.slots, entities := s.entities, values := s.entities.map fun _ => () }

theorem wf_outline (h : s.Wf) : s.outline.Wf :=
  { leads := h.leads
    nonnull := h.nonnull
    aligned := Array.size_map }

theorem outline_dropRow (s : SparseSet α) (slot : Nat) :
    (s.dropRow slot).outline = s.outline.dropRow slot := by
  have hvalues : (swapRemove s.entities slot).map (fun _ => ()) =
      swapRemove (s.entities.map fun _ => ()) slot :=
    Array.ext (by simp) fun _ _ _ => rfl
  rw [outline, outline, dropRow, dropRow, hvalues]

theorem outline_modify (s : SparseSet α) (e : Entity) (f : α → α) :
    (s.modify e f).outline = s.outline := by
  rw [modify]
  cases s.slotOf? e with
  | none => rfl
  | some slot => rfl

/-- The slot table of an outline in order leads to rows. -/
theorem locate_eq_of_outline (h : s.outline.Wf) (e : Entity) : s.locate e = .ok (s.slotOf? e) :=
  h.locate_eq e

/-- A row that is there is removed, or its removal is abandoned. -/
theorem removeAt_cases {slot : Nat} (hs : s.entities[slot]? = some e) :
    (∃ v, s.removeAt slot = (.ok v, s.dropRow slot)) ∨
      (∃ cause, (s.removeAt slot).1 = .error cause) ∧ isTorn (s.removeAt slot).1 = true := by
  rw [removeAt, if_pos (Array.getElem?_eq_some_iff.mp hs).1]
  cases s.values[slot]? with
  | some v => exact .inl ⟨v, rfl⟩
  | none => exact .inr ⟨⟨_, rfl⟩, rfl⟩

theorem removeAt_of_whole {slot : Nat} (hs : s.entities[slot]? = some e)
    (hwhole : isTorn (s.removeAt slot).1 = false) :
    ∃ v, s.removeAt slot = (.ok v, s.dropRow slot) :=
  (removeAt_cases hs).resolve_right fun htorn => Bool.false_ne_true (hwhole.symm.trans htorn.2)

/-- A removal keeps the handles in order unless it is abandoned. -/
theorem wf_outline_removeAt (h : s.outline.Wf) {slot : Nat} (hs : s.entities[slot]? = some e)
    (hwhole : isTorn (s.removeAt slot).1 = false) : (s.removeAt slot).2.outline.Wf := by
  obtain ⟨v, hv⟩ := removeAt_of_whole hs hwhole
  rw [hv, outline_dropRow]
  exact wf_dropRow h hs

/-- An index leads to no row, or to one that is removed. -/
theorem evict_cases_of_outline (h : s.outline.Wf) (i : UInt32) :
    (s.slots.get? i = none ∧ s.evict i = (.ok (), s)) ∨
      ∃ (slot : Nat) (x : Entity), s.slots.get? i = some slot ∧ s.entities[slot]? = some x ∧
        s.evict i = ((s.removeAt slot).1.map fun _ => (), (s.removeAt slot).2) := by
  cases hs : s.slots.get? i with
  | none =>
    refine .inl ⟨rfl, ?_⟩
    rw [evict, hs]
  | some slot =>
    obtain ⟨x, hx, -⟩ := (h.leads i slot).mp hs
    have hentity : s.entities[slot]? = some x := hx
    refine .inr ⟨slot, x, rfl, hentity, ?_⟩
    simp only [evict, hs, rowAt, hentity]

theorem outline_evict (h : s.outline.Wf) (i : UInt32) (hwhole : isTorn (s.evict i).1 = false) :
    (s.evict i).1 = .ok () ∧ (s.evict i).2.outline = (s.outline.evict i).2 := by
  rcases evict_cases_of_outline h i with ⟨hs, he⟩ | ⟨slot, x, hs, hx, he⟩
  · have houtline : s.outline.evict i = (.ok (), s.outline) := by
      rw [evict]
      show (match s.slots.get? i with | none => _ | some slot => _) = _
      rw [hs]
    rw [he, houtline]
    exact ⟨rfl, rfl⟩
  · rw [he, isTorn_map] at hwhole
    obtain ⟨v, hv⟩ := removeAt_of_whole hx hwhole
    rcases evict_cases h i with ⟨hnone, -⟩ | ⟨slot', y, hy, hi, houtline⟩
    · exact absurd (hs.symm.trans hnone) (Option.some_ne_none slot)
    · obtain rfl : slot' = slot :=
        Option.some.inj (((h.leads i slot').mpr ⟨y, hy, hi⟩).symm.trans hs)
      rw [he, hv, houtline, ← outline_dropRow]
      exact ⟨rfl, rfl⟩

/-- There is room for the new row of an index that has none. -/
theorem room_of_evict (h : s.outline.Wf) (hnull : e.isNull = false)
    (hwhole : isTorn (s.evict e.index).1 = false) :
    (s.evict e.index).2.outline.Wf ∧
      (∀ y ∈ (s.evict e.index).2.entities, y.index ≠ e.index) ∧
      (s.evict e.index).2.entities.size < tombstone.toNat := by
  obtain ⟨-, houtline⟩ := outline_evict h e.index hwhole
  have hwf := wf_evict h e.index
  have hfree : ∀ y ∈ (s.outline.evict e.index).2.entities, y.index ≠ e.index :=
    fun y hy => index_ne_of_mem_evict h hy
  rw [← houtline] at hwf hfree
  exact ⟨hwf, hfree, hwf.size_lt hnull hfree⟩

theorem wf_outline_begun (h : s.outline.Wf) (hnull : e.isNull = false)
    (hfree : ∀ y ∈ s.entities, y.index ≠ e.index) : (s.begun e).outline.Wf := by
  have houtline : (s.begun e).outline =
      { slots := s.outline.slots.set e.index s.outline.entities.size
        entities := s.outline.entities.push e
        values := s.outline.values.push () } := by
    simp [outline, begun]
  rw [houtline]
  exact wf_push h hnull hfree ()

/-- Whether or not the value is made, the handles are in order. -/
theorem wf_outline_emplaceWith (h : s.outline.Wf) (e : Entity) (make : Except Abort α)
    (hwhole : isTorn (s.emplaceWith e make).1 = false) : (s.emplaceWith e make).2.outline.Wf := by
  cases hnull : e.isNull with
  | true =>
    rw [emplaceWith_null s make hnull]
    exact h
  | false =>
    simp only [emplaceWith, hnull, locate_eq_of_outline h] at hwhole ⊢
    cases hslot : s.slotOf? e with
    | some slot => exact h
    | none =>
      simp only [hslot] at hwhole ⊢
      have hroom := room_of_evict h hnull
      have hok := outline_evict h e.index
      cases hevict : s.evict e.index with
      | mk answer t =>
        rw [hevict] at hwhole hroom hok
        cases answer with
        | error cause =>
          have hsame : isTorn ((.error cause : Except Abort Unit).map fun _ => false) = false :=
            hwhole
          cases (hok (isTorn_map _ _ ▸ hsame)).1
        | ok _ =>
          obtain ⟨hwf, hfree, -⟩ := hroom rfl
          have hbegun := wf_outline_begun hwf hnull hfree
          cases make with
          | error cause => exact hbegun
          | ok v => exact hbegun

/-- Where the row of a handle is removed, the handles stay in order unless that is abandoned. -/
theorem wf_outline_remove (h : s.outline.Wf) (e : Entity) (hwhole : isTorn (s.remove e).1 = false) :
    (s.remove e).2.outline.Wf := by
  simp only [remove, locate_eq_of_outline h] at hwhole ⊢
  cases hslot : s.slotOf? e with
  | none => exact h
  | some slot =>
    simp only [hslot, isTorn_map] at hwhole
    exact wf_outline_removeAt h (getElem?_of_slotOf? hslot) hwhole

theorem wf_outline_removeAll (h : s.outline.Wf) (es : List Entity)
    (hwhole : isTorn (s.removeAll es).1 = false) : (s.removeAll es).2.outline.Wf := by
  induction es generalizing s with
  | nil => exact h
  | cons e es ih =>
    have hremove := wf_outline_remove h e
    simp only [removeAll, erase] at hwhole ⊢
    cases hr : s.remove e with
    | mk answer t =>
      rw [hr] at hremove hwhole
      cases answer with
      | error cause =>
        have hsame : isTorn ((.error cause : Except Abort (Option α)).map fun _ => 0) = false :=
          hwhole
        exact hremove (isTorn_map _ _ ▸ hsame)
      | ok old =>
        exact ih (hremove rfl) ((isTorn_map _ _).symm.trans hwhole)

/-- A call keeps the handles in order unless a removal is abandoned. -/
theorem wf_outline_call (h : s.outline.Wf) (c : Call α) (hwhole : isTorn (s.call c).1 = false) :
    (s.call c).2.outline.Wf := by
  have hemplace : ∀ e make, isTorn ((s.emplaceWith e make).1.map fun b =>
      Answer.stored ((s.emplaceWith e make).2.get? e) b) = false →
      (s.emplaceWith e make).2.outline.Wf := fun e make hwhole =>
    wf_outline_emplaceWith h e make ((isTorn_map _ _).symm.trans hwhole)
  cases c with
  | unmade e cause => exact hemplace e (.error cause) hwhole
  | op op =>
    cases op with
    | emplace e v => exact hemplace e (.ok v) hwhole
    | emplaceWith e v => exact hemplace e (.ok v) hwhole
    | insertOrReplace e v =>
      simp only [call, perform, insertOrReplace] at hwhole ⊢
      split
      · exact h
      · exact (outline_modify s e _).symm ▸ h
      · rename_i hget
        simp only [hget, isTorn_map] at hwhole
        exact wf_outline_emplaceWith h e _ hwhole
    | write e f => exact (outline_modify s e f).symm ▸ h
    | rewrite f => exact h
    | remove e =>
      exact wf_outline_remove h e ((isTorn_map _ _).symm.trans hwhole)
    | erase e =>
      exact wf_outline_remove h e
        ((isTorn_map _ _).symm.trans ((isTorn_map _ _).symm.trans hwhole))
    | removeAll es =>
      exact wf_outline_removeAll h es ((isTorn_map _ _).symm.trans hwhole)
    | clear =>
      have houtline : s.clear.outline = s.outline.clear := by simp [outline, clear]
      show s.clear.outline.Wf
      rw [houtline]
      exact wf_clear h

theorem wf_outline_callAll (h : s.outline.Wf) {calls : List (Call α)} (hwhole : s.Whole calls) :
    (s.callAll calls).2.outline.Wf := by
  induction calls generalizing s with
  | nil => exact h
  | cons c calls ih =>
    have hfirst := wf_outline_call h c (hwhole _ List.mem_cons_self)
    exact ih hfirst fun answer hanswer => hwhole answer (List.mem_cons_of_mem _ hanswer)

/-! ## No slot is oversized -/

/-- Rows of handles are storable, with one place to spare. -/
theorem storable_of_lt (h : s.outline.Wf) {slot : Nat} (hlt : slot < s.entities.size) :
    SlotTable.Storable slot :=
  SlotTable.storable_of_lt_tombstone (Nat.lt_of_lt_of_le hlt h.size_le)

/-- Where the last row moves to is the row of another. -/
theorem carefulRemoveAt_eq (h : s.outline.Wf) {slot : Nat} (hs : s.entities[slot]? = some e) :
    s.carefulRemoveAt slot = some (s.removeAt slot) := by
  have hslot := storable_of_lt h (Array.getElem?_eq_some_iff.mp hs).1
  have hdrop : s.carefulDropRow slot = some (s.dropRow slot) := by
    rw [carefulDropRow, dropRow, hs]
    cases (swapRemove s.entities slot)[slot]? with
    | none => rfl
    | some moved => simp [carefulSet, hslot]
  rcases removeAt_cases hs with ⟨v, hv⟩ | ⟨⟨cause, herror⟩, -⟩
  · simp only [carefulRemoveAt, hv, hdrop, Option.map_some]
  · have hr : s.removeAt slot = (.error cause, (s.removeAt slot).2) := Prod.ext herror rfl
    rw [carefulRemoveAt, hr]

theorem carefulEvict_eq (h : s.outline.Wf) (i : UInt32) :
    s.carefulEvict i = some (s.evict i) := by
  rw [carefulEvict, evict]
  cases hs : s.slots.get? i with
  | none => rfl
  | some slot =>
    obtain ⟨x, hx, -⟩ := (h.leads i slot).mp hs
    have hentity : s.entities[slot]? = some x := hx
    simp only [rowAt, hentity, carefulRemoveAt_eq h hentity, Option.map_some]

theorem carefulBegun_eq (hlt : s.entities.size < tombstone.toNat) :
    s.carefulBegun e = some (s.begun e) := by
  rw [carefulBegun, carefulSet, if_pos (SlotTable.storable_of_lt_tombstone hlt)]
  rfl

/-- A new row goes where the slot can be stored. -/
theorem carefulEmplaceWith_eq (h : s.outline.Wf) (e : Entity) (make : Except Abort α) :
    s.carefulEmplaceWith e make = some (s.emplaceWith e make) := by
  rw [carefulEmplaceWith, emplaceWith]
  cases hnull : e.isNull with
  | true => rfl
  | false =>
    have hroom := room_of_evict h hnull
    simp only [Bool.false_eq_true, if_false, locate_eq_of_outline h, carefulEvict_eq h]
    cases s.slotOf? e with
    | some slot => rfl
    | none =>
      cases hevict : s.evict e.index with
      | mk answer t =>
        rw [hevict] at hroom
        cases answer with
        | error cause => rfl
        | ok _ =>
          obtain ⟨-, -, hlt⟩ := hroom rfl
          cases make with
          | error cause => simp [carefulBegun_eq hlt]
          | ok v => simp [carefulBegun_eq hlt]

theorem carefulInsertOrReplace_eq (h : s.outline.Wf) (e : Entity) (v : α) :
    s.carefulInsertOrReplace e v = some (s.insertOrReplace e v) := by
  rw [carefulInsertOrReplace, insertOrReplace]
  cases s.get e with
  | error cause => rfl
  | ok old =>
    cases old with
    | some old => rfl
    | none =>
      simp only [carefulEmplaceWith_eq h, Option.map_some]
      rfl

theorem carefulRemove_eq (h : s.outline.Wf) (e : Entity) :
    s.carefulRemove e = some (s.remove e) := by
  rw [carefulRemove, remove, locate_eq_of_outline h]
  cases hslot : s.slotOf? e with
  | none => rfl
  | some slot =>
    simp only [carefulRemoveAt_eq h (getElem?_of_slotOf? hslot), Option.map_some]

theorem carefulRemoveAll_eq (h : s.outline.Wf) (es : List Entity) :
    s.carefulRemoveAll es = some (s.removeAll es) := by
  induction es generalizing s with
  | nil => rfl
  | cons e es ih =>
    have hremove := wf_outline_remove h e
    rw [carefulRemoveAll, removeAll, carefulRemove_eq h, erase]
    cases hr : s.remove e with
    | mk answer t =>
      rw [hr] at hremove
      cases answer with
      | error cause => rfl
      | ok old =>
        have hrest := ih (hremove rfl)
        show (t.carefulRemoveAll es).map _ = _
        rw [hrest]
        rfl

/-- No call stores what is not storable. -/
theorem carefulCall_eq (h : s.outline.Wf) (c : Call α) : s.carefulCall c = some (s.call c) := by
  cases c with
  | unmade e cause =>
    rw [carefulCall, carefulEmplaceWith_eq h]
    rfl
  | op op =>
    rw [carefulCall]
    cases op with
    | emplace e v =>
      rw [carefulPerform, carefulEmplaceWith_eq h]
      rfl
    | emplaceWith e v =>
      rw [carefulPerform, carefulEmplaceWith_eq h]
      rfl
    | insertOrReplace e v =>
      rw [carefulPerform, carefulInsertOrReplace_eq h]
      rfl
    | remove e =>
      rw [carefulPerform, carefulRemove_eq h]
      rfl
    | erase e =>
      rw [carefulPerform, carefulRemove_eq h]
      show some ((s.remove e).1.map fun old => Answer.found old.isSome, _) =
        some (((s.remove e).1.map (·.isSome)).map .found, _)
      cases (s.remove e).1 <;> rfl
    | removeAll es =>
      rw [carefulPerform, carefulRemoveAll_eq h]
      rfl
    | write e f => rfl
    | rewrite f => rfl
    | clear => rfl

theorem carefulCallAll_eq (h : s.outline.Wf) {calls : List (Call α)} (hwhole : s.Whole calls) :
    s.carefulCallAll calls = some (s.callAll calls) := by
  induction calls generalizing s with
  | nil => rfl
  | cons c calls ih =>
    have hfirst := wf_outline_call h c (hwhole _ List.mem_cons_self)
    have hrest := ih hfirst fun answer hanswer => hwhole answer (List.mem_cons_of_mem _ hanswer)
    rw [carefulCallAll, carefulCall_eq h]
    show ((s.call c).2.carefulCallAll calls).bind _ = _
    rw [hrest]
    rfl

/-! ## Where all values are made -/

/-- What would hold a row for the null handle is refused. -/
theorem perform_of_not_isFit (h : s.Wf) {op : Op α} (hop : ¬ op.IsFit) :
    s.perform op = (.error .nullHolder, s) := by
  cases op with
  | emplace e v =>
    have hnull : e.isNull = true := eq_true_of_ne_false hop
    rw [perform, emplace, emplaceWith_null s _ hnull]
    rfl
  | emplaceWith e v =>
    have hnull : e.isNull = true := eq_true_of_ne_false hop
    rw [perform, emplaceWith_null s _ hnull]
    rfl
  | insertOrReplace e v =>
    have hnull : e.isNull = true := eq_true_of_ne_false hop
    -- nothing is replaced, since no row is that of the null handle
    have hnone : s.get? e = none := by
      refine get?_of_not_contains (Bool.eq_false_iff.mpr fun hc => ?_)
      exact Bool.false_ne_true ((h.nonnull e (h.contains_iff_mem.mp hc)).symm.trans hnull)
    simp only [perform, insertOrReplace, h.get_eq, hnone, emplace, emplaceWith_null s _ hnull]
    rfl
  | _ => exact absurd trivial hop

/-- Where all values are made no removal is abandoned. -/
theorem whole_of_made (h : s.Wf) (ops : List (Op α)) : s.Whole (ops.map .op) := by
  induction ops generalizing s with
  | nil => exact fun answer hanswer => by cases hanswer
  | cons op ops ih =>
    by_cases hop : op.IsFit
    · obtain ⟨hanswer, -, hwf⟩ := perform_eq h hop
      refine List.forall_mem_cons.mpr ⟨?_, ih hwf⟩
      show isTorn (s.perform op).1 = false
      rw [hanswer]
      rfl
    · have hrefused := perform_of_not_isFit h hop
      refine List.forall_mem_cons.mpr ⟨?_, ?_⟩
      · show isTorn (s.perform op).1 = false
        rw [hrefused]
        rfl
      · show Whole (s.perform op).2 _
        rw [hrefused]
        exact ih h

/-- Add rows for the first indices. -/
def fill (v : α) (n : Nat) : List (Op α) :=
  (List.range n).map fun i => .emplace ⟨.ofNat i, .initial⟩ v

/-- The rows of the first indices stand in order. -/
theorem entities_fill (v : α) {n : Nat} (hn : n ≤ UInt32.size - 1) :
    ((empty : SparseSet α).callAll ((fill v n).map .op)).2.Wf ∧
      ((empty : SparseSet α).callAll ((fill v n).map .op)).2.entities.toList =
        (List.range n).map fun i => ⟨.ofNat i, .initial⟩ := by
  have hsize : UInt32.size = 2 ^ 32 := rfl
  induction n with
  | zero => exact ⟨wf_empty, rfl⟩
  | succ n ih =>
    obtain ⟨hwf, hentities⟩ := ih (by omega)
    have hfill : (fill v (n + 1)).map Call.op =
        (fill v n).map .op ++ [.op (.emplace ⟨.ofNat n, .initial⟩ v)] := by
      rw [fill, fill, List.range_succ, List.map_append, List.map_append]
      rfl
    have hback : ∀ i, i ≤ n → (UInt32.ofNat i).toNat = i := fun i hi =>
      UInt32.toNat_ofNat_of_lt' (by
        show i < 2 ^ 32
        omega)
    rw [hfill, callAll_append]
    generalize ((empty : SparseSet α).callAll ((fill v n).map .op)).2 = s at *
    let e : Entity := ⟨.ofNat n, .initial⟩
    have hnull : e.isNull = false := by
      rw [Entity.isNull_eq_false_iff]
      intro heq
      have hnat : n = 2 ^ 32 - 1 := (hback n (Nat.le_refl n)).symm.trans (congrArg UInt32.toNat heq)
      omega
    have hfree : ∀ y ∈ s.entities, y.index ≠ e.index := by
      intro y hy heq
      rw [← Array.mem_toList_iff, hentities] at hy
      obtain ⟨i, hi, rfl⟩ := List.mem_map.mp hy
      have hlt := List.mem_range.mp hi
      have hnat : (UInt32.ofNat i).toNat = (UInt32.ofNat n).toNat := congrArg UInt32.toNat heq
      rw [hback i (by omega), hback n (Nat.le_refl n)] at hnat
      omega
    have hnew : s.contains e = false := by
      rw [contains, slotOf?, slots_eq_none hwf hfree]
      rfl
    have hevict : s.evict e.index = (.ok (), s) := by
      rw [evict, slots_eq_none hwf hfree]
    show (s.emplaceWith e (.ok v)).2.Wf ∧ (s.emplaceWith e (.ok v)).2.entities.toList = _
    refine ⟨wf_emplaceWith hwf v hnull hnew, ?_⟩
    rw [emplaceWith_new hwf v hnull hnew, hevict, List.range_succ, List.map_append, ← hentities]
    exact Array.toList_push

/-- **Slots are no tombstones.** Whatever is asked of a set that starts empty, on whatever handles
and whether values are made or not, as long as no removal is abandoned: every slot that is stored on
the way is given back by its entry. There are at most `2 ^ 32 - 1` rows, and the index of each handle
leads to its row, the slot of which is at most `2 ^ 32 - 2`. No removal is abandoned where all values
are made, and so many rows there can be then. -/
theorem slots_are_no_tombstones :
    (∀ calls : List (Call α), (empty : SparseSet α).Whole calls →
      let s := ((empty : SparseSet α).callAll calls).2
      (empty : SparseSet α).carefulCallAll calls = some ((empty : SparseSet α).callAll calls) ∧
        s.entities.size ≤ UInt32.size - 1 ∧
        ∀ (slot : Nat) (e : Entity), s.entities[slot]? = some e →
          slot ≤ UInt32.size - 2 ∧ SlotTable.Storable slot ∧ s.slots.get? e.index = some slot) ∧
      (∀ ops : List (Op α), (empty : SparseSet α).Whole (ops.map .op)) ∧
      ∀ _ : α, ∃ ops : List (Op α),
        ((empty : SparseSet α).callAll (ops.map .op)).2.entities.size = UInt32.size - 1 := by
  have hempty : (empty : SparseSet α).Wf := wf_empty
  refine ⟨fun calls hwhole => ?_, whole_of_made hempty, fun v => ⟨fill v (UInt32.size - 1), ?_⟩⟩
  · have hwf := wf_outline_callAll (wf_outline hempty) hwhole
    refine ⟨carefulCallAll_eq (wf_outline hempty) hwhole, hwf.size_le, fun slot e hs => ?_⟩
    have hstorable := storable_of_lt hwf (Array.getElem?_eq_some_iff.mp hs).1
    exact ⟨(SlotTable.storable_iff slot).mp hstorable, hstorable, (hwf.leads _ _).mpr ⟨e, hs, rfl⟩⟩
  · rw [← Array.length_toList, (entities_fill v (Nat.le_refl _)).2, List.length_map, List.length_range]

/-- A value is not made, the next one is found through the row that was left, and the first row is
removed. The handles that are left have the slots that their indices lead to. -/
theorem slots_are_no_tombstones_shifted :
    let calls : List (Call Nat) :=
      [.op (.emplace ⟨0, .initial⟩ 5), .unmade ⟨1, .initial⟩ (.raised "stop"),
        .op (.emplace ⟨2, .initial⟩ 7), .op (.remove ⟨0, .initial⟩)]
    let s := ((empty : SparseSet Nat).callAll calls).2
    (empty : SparseSet Nat).Whole calls ∧ s.entities[0]? = some ⟨2, .initial⟩ ∧
      s.slots.get? 2 = some 0 ∧ s.slots.get? 1 = some 1 := by
  intro calls s
  have hwhole : (empty : SparseSet Nat).Whole calls := by
    unfold Whole
    decide +kernel
  obtain ⟨-, -, hrows⟩ := slots_are_no_tombstones.1 calls hwhole
  have hfirst : s.entities[0]? = some ⟨2, .initial⟩ := by decide +kernel
  have hsecond : s.entities[1]? = some ⟨1, .initial⟩ := by decide +kernel
  exact ⟨hwhole, hfirst, (hrows 0 _ hfirst).2.2, (hrows 1 _ hsecond).2.2⟩

/-! ## Where removals are abandoned -/

/-- The handles that take part: they have the first indices, and the first generation. -/
def party (i : UInt32) : Entity := ⟨i, .initial⟩

/-- Those that the calls of a round are for, and one that waits for the end. -/
def parties : List Entity := [party 0, party 1, party 2, party 3, party 4]

/-- A call that adds or removes the row of a known handle. -/
def Call.IsPlain (known : List Entity) : Call α → Prop
  | .unmade e _ | .op (.emplace e _) | .op (.remove e) => e ∈ known
  | _ => False

instance (known : List Entity) (c : Call α) : Decidable (c.IsPlain known) :=
  match c with
  | .unmade e _ | .op (.emplace e _) | .op (.remove e) => inferInstanceAs (Decidable (e ∈ known))
  | .op (.emplaceWith _ _) | .op (.insertOrReplace _ _) | .op (.write _ _) | .op (.rewrite _)
  | .op (.erase _) | .op (.removeAll _) | .op .clear => inferInstanceAs (Decidable False)

theorem Atop.call {n : Nat} {known : List Entity} {t : SparseSet α} (h : Atop n known s t)
    {c : Call α} (hc : c.IsPlain known) (hroom : n + t.entities.size < tombstone.toNat) :
    Atop n known (s.call c).2 (t.call c).2 := by
  cases c with
  | unmade e cause => exact h.emplaceWith hc (.error cause) hroom
  | op op =>
    cases op with
    | emplace e v => exact h.emplaceWith hc (.ok v) hroom
    | remove e => exact h.remove hc (Nat.le_of_lt hroom)
    | _ => cases hc

theorem Atop.callAll {n bound : Nat} {known : List Entity} {t : SparseSet α} (h : Atop n known s t)
    {calls : List (Call α)} (hcalls : ∀ c ∈ calls, c.IsPlain known)
    (hbound : ∀ k < calls.length, (t.callAll (calls.take k)).2.entities.size ≤ bound)
    (hroom : n + bound < tombstone.toNat) :
    Atop n known (s.callAll calls).2 (t.callAll calls).2 := by
  induction calls generalizing s t with
  | nil => exact h
  | cons c calls ih =>
    have hfirst : t.entities.size ≤ bound := hbound 0 (Nat.zero_lt_succ _)
    refine ih (h.call (hcalls c List.mem_cons_self)
      (Nat.lt_of_le_of_lt (Nat.add_le_add_left hfirst n) hroom))
      (fun c' hc' => hcalls c' (List.mem_cons_of_mem _ hc')) fun k hk => ?_
    exact hbound (k + 1) (Nat.succ_lt_succ hk)

/-- A value is not made. -/
def unmade (i : UInt32) : Call Nat := .unmade (party i) (.raised "stop")

/-- Two rows without values. -/
def unmadePair (b : UInt32) : SparseSet Nat := ((empty : SparseSet Nat).callAll [unmade 0, unmade b]).2

/-- A removal is abandoned, and another one with it. Its handle stays behind with a row, below two
others that have no values. -/
def round (b c : UInt32) : List (Call Nat) :=
  [.op (.remove (party 0)), .op (.emplace (party c) 0), unmade b, .op (.emplace (party 3) 0),
    unmade b, .op (.emplace (party 3) 0), .op (.emplace (party 0) 0), .op (.emplace (party b) 0),
    .op (.remove (party 3)), unmade c]

/-- A round that starts with two rows without values ends with two such rows on top of a third. -/
theorem atop_round {b c : UInt32} (h : b = 1 ∧ c = 2 ∨ b = 2 ∧ c = 1) :
    (∀ call ∈ round b c, call.IsPlain parties) ∧
      (∀ k < (round b c).length,
        ((unmadePair b).callAll ((round b c).take k)).2.entities.size ≤ 4) ∧
      Atop 1 parties ((unmadePair b).callAll (round b c)).2 (unmadePair c) := by
  rcases h with ⟨rfl, rfl⟩ | ⟨rfl, rfl⟩
  · refine ⟨by decide, by decide +kernel, ?_⟩
    exact
      { size := by decide +kernel
        entities := by decide +kernel
        values := by decide +kernel
        led := by decide +kernel
        rows := by decide +kernel }
  · refine ⟨by decide, by decide +kernel, ?_⟩
    exact
      { size := by decide +kernel
        entities := by decide +kernel
        values := by decide +kernel
        led := by decide +kernel
        rows := by decide +kernel }

/-- Round by round, rows are left to which nobody is led. -/
theorem exists_atop_unmadePair {n : Nat} (hn : n ≤ 2 ^ 32 - 5) :
    ∃ (calls : List (Call Nat)) (b c : UInt32), (b = 1 ∧ c = 2 ∨ b = 2 ∧ c = 1) ∧
      Atop n parties ((empty : SparseSet Nat).callAll calls).2 (unmadePair b) := by
  induction n with
  | zero =>
    refine ⟨[unmade 0, unmade 1], 1, 2, .inl ⟨rfl, rfl⟩, ?_⟩
    exact
      { size := (Nat.zero_add _).symm
        entities := rfl
        values := (Nat.zero_add _).symm
        led := by decide +kernel
        rows := by decide +kernel }
  | succ n ih =>
    obtain ⟨calls, b, c, hbc, hatop⟩ := ih (Nat.le_of_succ_le hn)
    obtain ⟨hplain, hsizes, hround⟩ := atop_round hbc
    have htombstone : tombstone.toNat = 2 ^ 32 - 1 := rfl
    refine ⟨calls ++ round b c, c, b, hbc.symm.imp And.symm And.symm, ?_⟩
    rw [callAll_append]
    exact (hatop.callAll hplain hsizes (by omega)).trans hround

/-- Two rows more without values are on top of two such rows, and nothing leads to a fifth handle. -/
theorem unmadePair_last {b c : UInt32} (h : b = 1 ∧ c = 2 ∨ b = 2 ∧ c = 1) :
    let s := unmadePair b
    (∀ call ∈ [unmade c, unmade 3], call.IsPlain parties) ∧
      (∀ k < [unmade c, unmade 3].length,
        (s.callAll ([unmade c, unmade 3].take k)).2.entities.size ≤ 3) ∧
      (s.callAll [unmade c, unmade 3]).2.entities.size = 4 ∧
      (s.callAll [unmade c, unmade 3]).2.slots.get? 4 = none := by
  rcases h with ⟨rfl, rfl⟩ | ⟨rfl, rfl⟩
  · exact ⟨by decide, by decide +kernel, by decide +kernel, by decide +kernel⟩
  · exact ⟨by decide, by decide +kernel, by decide +kernel, by decide +kernel⟩

/-- The value of a handle that nothing leads to is not made, and the handle stays with a new row. -/
theorem callAll_unmade {s : SparseSet Nat} {i : UInt32} (hnull : (party i).isNull = false)
    (hnone : s.slots.get? (party i).index = none) :
    (s.callAll [unmade i]).2 = s.begun (party i) := by
  have hlocate : s.locate (party i) = .ok none := by
    rw [locate, hnone]
  have hevict : s.evict (party i).index = (.ok (), s) := by
    rw [evict, hnone]
  show (s.emplaceWith (party i) (.error (.raised "stop"))).2 = _
  simp only [emplaceWith, hnull, hlocate, hevict]
  rfl

/-- There are as many rows as there are words, and the last of them has the slot that reads as
absent. -/
theorem slots_reach_the_tombstone :
    ∃ calls : List (Call Nat),
      let s := ((empty : SparseSet Nat).callAll calls).2
      s.entities.size = UInt32.size ∧ s.entities[UInt32.size - 1]? = some (party 4) ∧
        s.slots.get? 4 = none := by
  obtain ⟨calls, b, c, hbc, hatop⟩ := exists_atop_unmadePair (Nat.le_refl (2 ^ 32 - 5))
  have htombstone : tombstone.toNat = 2 ^ 32 - 1 := rfl
  -- two more rows, and the last slot that can be stored is taken
  obtain ⟨hplain, hsizes, hsize, hfour⟩ := unmadePair_last hbc
  have hfull := hatop.callAll hplain hsizes (by omega)
  refine ⟨calls ++ [unmade c, unmade 3] ++ [unmade 4], ?_⟩
  rw [callAll_append, callAll_append]
  generalize (((empty : SparseSet Nat).callAll calls).2.callAll [unmade c, unmade 3]).2 = s at hfull ⊢
  have hrows : s.entities.size = UInt32.size - 1 := by
    rw [hfull.size, hsize]
    rfl
  have hnone : s.slots.get? (party 4).index = none := by
    rw [hfull.led (party 4) (by decide)]
    exact congrArg (Option.map _) hfour
  rw [callAll_unmade (by decide) hnone]
  refine ⟨?_, ?_, ?_⟩
  · show (s.entities.push (party 4)).size = _
    rw [Array.size_push, hrows]
    rfl
  · show (s.entities.push (party 4))[UInt32.size - 1]? = _
    rw [← hrows]
    exact Array.getElem?_push_size
  · show (s.slots.set (party 4).index s.entities.size).get? (party 4).index = none
    rw [hrows]
    exact SlotTable.get?_set_tombstone _ _ (by decide)

end SparseSet

end EntityScene
