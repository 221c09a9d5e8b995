import EntityScene.Proofs.Rows

/-!
# Sparse sets and plain lists

Seen from outside a sparse set is the list of its rows in packed order. Whatever is done to a
set, the list follows by plain list operations: a new row goes to the end, a removed one gives
way to the last, and a handle is found by looking through the list. The slot table is never
seen, and no row is ever asked for that is not there.

- `Packed`: the operations on a plain list of rows.
- `SparseSet.Op`, `SparseSet.serve`, `Packed.serve`: operations with their answers, on a set and
  on a list, one after the other.
- `SparseSet.strictServe`: the same on a set, but every index into an array has to be within
  bounds.
- `SparseSet.Mirrors`: a set in order whose rows are a given list, and whose handles are found
  where a search of the list finds them.
- `SparseSet.perform_eq`, `strictPerform_eq`: an operation answers as the list does, and leaves the rows
  that the list has then.
- `SparseSet.sets_mirror_lists`: what this says about all sequences of operations.
-/

namespace EntityScene

/-- Rows as a plain list, in packed order. -/
abbrev Packed (α : Type) := List (Entity × α)

namespace Packed

variable {α : Type}

/-- The place of the first row that is for the very handle. -/
def place? (rows : Packed α) (e : Entity) : Option Nat := rows.findIdx? (·.1 == e)

/-- The value in the first row that is for the very handle. -/
def lookup? (rows : Packed α) (e : Entity) : Option α := (rows.find? (·.1 == e)).map (·.2)

/-- Whether some row is for the very handle. -/
def has (rows : Packed α) (e : Entity) : Bool := rows.any (·.1 == e)

/-- The last row takes the place of another one, and the list is shorter. -/
def vacate (rows : Packed α) (place : Nat) : Packed α :=
  match rows.getLast? with
  | some last => (rows.set place last).dropLast
  | none => rows

/-- Take the row of an index out, whatever its generation. -/
def evict (rows : Packed α) (index : UInt32) : Packed α :=
  match rows.findIdx? (·.1.index == index) with
  | some place => rows.vacate place
  | none => rows

/-- Append a row, unless the handle has one. -/
def insert (rows : Packed α) (e : Entity) (v : α) : Packed α :=
  if rows.has e then rows else rows.evict e.index ++ [(e, v)]

/-- Write the value of a handle. -/
def write (rows : Packed α) (e : Entity) (f : α → α) : Packed α :=
  rows.map fun row => if row.1 = e then (e, f row.2) else row

/-- Write all values, each in the light of its place and handle. -/
def rewrite (rows : Packed α) (f : Nat → Entity → α → α) : Packed α :=
  rows.mapIdx fun place row => (row.1, f place row.1 row.2)

/-- Take the row of a handle out. -/
def remove (rows : Packed α) (e : Entity) : Packed α :=
  match rows.place? e with
  | some place => rows.vacate place
  | none => rows

/-- Take the rows of the listed handles out, and count them. -/
def removeAll (rows : Packed α) : List Entity → Nat × Packed α
  | [] => (0, rows)
  | e :: es =>
    let (others, rest) := (rows.remove e).removeAll es
    (if rows.has e then others + 1 else others, rest)

end Packed

namespace SparseSet

variable {α : Type}

/-- Write all values, each in the light of its row and handle. -/
def rewrite (s : SparseSet α) (f : Nat → Entity → α → α) : SparseSet α :=
  { s with values := s.values.mapIdx fun slot v => (s.entities[slot]?).elim v fun e => f slot e v }

/-- What can be done to a set. -/
inductive Op (α : Type)
  /-- Add a row, unless the handle has one. -/
  | emplace (e : Entity) (v : α)
  /-- Add a row with a value that is made when it is needed. -/
  | emplaceWith (e : Entity) (v : α)
  /-- Add a row, or replace its value. -/
  | insertOrReplace (e : Entity) (v : α)
  /-- Write the value of a handle. -/
  | write (e : Entity) (f : α → α)
  /-- Write all values. -/
  | rewrite (f : Nat → Entity → α → α)
  /-- Take the row of a handle out, and answer its value. -/
  | remove (e : Entity)
  /-- Take the row of a handle out, and answer whether there was one. -/
  | erase (e : Entity)
  /-- Take the rows of the listed handles out, and count them. -/
  | removeAll (es : List Entity)
  /-- Take all rows out. -/
  | clear

/-- What is answered. -/
inductive Answer (α : Type)
  | stored (v : Option α) (added : Bool)
  | value (v : Option α)
  | found (b : Bool)
  | count (n : Nat)
  | done
deriving DecidableEq

/-- Rows are only put on handles that are not null. -/
def Op.IsFit : Op α → Prop
  | emplace e _ | emplaceWith e _ | insertOrReplace e _ => e.isNull = false
  | _ => True

/-- Serve one operation on a set. -/
def perform (s : SparseSet α) : Op α → Except Abort (Answer α) × SparseSet α
  | .emplace e v =>
    let (added, s) := s.emplace e v
    (added.map fun b => .stored (s.get? e) b, s)
  | .emplaceWith e v =>
    let (added, s) := s.emplaceWith e (.ok v)
    (added.map fun b => .stored (s.get? e) b, s)
  | .insertOrReplace e v =>
    let (old, s) := s.insertOrReplace e v
    (old.map .value, s)
  | .write e f =>
    let (old, s) := s.write e f
    (old.map .value, s)
  | .rewrite f => (.ok .done, s.rewrite f)
  | .remove e =>
    let (old, s) := s.remove e
    (old.map .value, s)
  | .erase e =>
    let (found, s) := s.erase e
    (found.map .found, s)
  | .removeAll es =>
    let (n, s) := s.removeAll es
    (n.map .count, s)
  | .clear => (.ok .done, s.clear)

/-- Serve operations on a set, one after the other. -/
def serve (s : SparseSet α) : List (Op α) → List (Except Abort (Answer α)) × SparseSet α
  | [] => ([], s)
  | op :: ops =>
    let (answer, s) := s.perform op
    let (answers, s) := s.serve ops
    (answer :: answers, s)

/-! ## Operations that insist on their indices

Each of these asks the arrays for the rows that the operation of the same name needs, and has no
result where a row is asked for that is not there. -/

/-- The row of a handle. -/
def strictSlotOf? (s : SparseSet α) (e : Entity) : Option (Option Nat) :=
  match s.slots.get? e.index with
  | none => some none
  | some slot => (s.entities[slot]?).map fun x => if x = e then some slot else none

/-- The value of a handle. -/
def strictGet? (s : SparseSet α) (e : Entity) : Option (Option α) := do
  match ← s.strictSlotOf? e with
  | none => some none
  | some slot => (s.values[slot]?).map some

/-- The value in a row, which is removed. -/
def strictRemoveAt (s : SparseSet α) (slot : Nat) : Option (α × SparseSet α) := do
  let _ ← s.entities[slot]?
  let v ← s.values[slot]?
  some (v, s.dropRow slot)

/-- Remove the row that an index leads to. -/
def strictEvict (s : SparseSet α) (index : UInt32) : Option (SparseSet α) :=
  match s.slots.get? index with
  | none => some s
  | some slot => (s.strictRemoveAt slot).map (·.2)

/-- Add a row, unless the handle has one. -/
def strictEmplace (s : SparseSet α) (e : Entity) (v : α) :
    Option (Except Abort (Answer α) × SparseSet α) := do
  if e.isNull then some (.error .nullHolder, s)
  else
    match ← s.strictSlotOf? e with
    | some slot => (s.values[slot]?).map fun old => (.ok (.stored (some old) false), s)
    | none =>
      let s ← s.strictEvict e.index
      let slot := s.entities.size
      let s := { slots := s.slots.set e.index slot
                 entities := s.entities.push e
                 values := s.values.push v }
      (s.values[slot]?).map fun stored => (.ok (.stored (some stored) true), s)

/-- Write the value of a handle. -/
def strictModify (s : SparseSet α) (e : Entity) (f : α → α) :
    Option (Option α × SparseSet α) := do
  match ← s.strictSlotOf? e with
  | none => some (none, s)
  | some slot =>
    (s.values[slot]?).map fun old => (some old, { s with values := s.values.modify slot f })

/-- Remove the row of a handle. -/
def strictRemove (s : SparseSet α) (e : Entity) : Option (Option α × SparseSet α) := do
  match ← s.strictSlotOf? e with
  | none => some (none, s)
  | some slot => (s.strictRemoveAt slot).map fun (old, s) => (some old, s)

/-- Remove the rows of the listed handles. -/
def strictRemoveAll (s : SparseSet α) : List Entity → Option (Nat × SparseSet α)
  | [] => some (0, s)
  | e :: es => do
    let (old, s) ← s.strictRemove e
    let (n, s) ← s.strictRemoveAll es
    some ((if old.isSome then 1 else 0) + n, s)

/-- Serve one operation. -/
def strictPerform (s : SparseSet α) : Op α → Option (Except Abort (Answer α) × SparseSet α)
  | .emplace e v | .emplaceWith e v => s.strictEmplace e v
  | .insertOrReplace e v => do
    match ← s.strictSlotOf? e with
    | some _ => (s.strictModify e fun _ => v).map fun (old, s) => (.ok (.value old), s)
    | none => (s.strictEmplace e v).map fun (stored, s) => (stored.map fun _ => .value none, s)
  | .write e f => (s.strictModify e f).map fun (old, s) => (.ok (.value old), s)
  | .rewrite f => some (.ok .done, s.rewrite f)
  | .remove e => (s.strictRemove e).map fun (old, s) => (.ok (.value old), s)
  | .erase e => (s.strictRemove e).map fun (old, s) => (.ok (.found old.isSome), s)
  | .removeAll es => (s.strictRemoveAll es).map fun (n, s) => (.ok (.count n), s)
  | .clear => some (.ok .done, s.clear)

/-- Serve operations, one after the other. -/
def strictServe (s : SparseSet α) :
    List (Op α) → Option (List (Except Abort (Answer α)) × SparseSet α)
  | [] => some ([], s)
  | op :: ops => do
    let (answer, s) ← s.strictPerform op
    let (answers, s) ← s.strictServe ops
    some (answer :: answers, s)

end SparseSet

namespace Packed

variable {α : Type}

/-- Serve one operation on a plain list. -/
def perform (rows : Packed α) : SparseSet.Op α → SparseSet.Answer α × Packed α
  | .emplace e v | .emplaceWith e v =>
    (.stored ((rows.insert e v).lookup? e) (!rows.has e), rows.insert e v)
  | .insertOrReplace e v =>
    (.value (rows.lookup? e),
      if rows.has e then rows.write e fun _ => v else rows.insert e v)
  | .write e f => (.value (rows.lookup? e), rows.write e f)
  | .rewrite f => (.done, rows.rewrite f)
  | .remove e => (.value (rows.lookup? e), rows.remove e)
  | .erase e => (.found (rows.has e), rows.remove e)
  | .removeAll es => (.count (rows.removeAll es).1, (rows.removeAll es).2)
  | .clear => (.done, [])

/-- Serve operations on a plain list, one after the other. -/
def serve (rows : Packed α) : List (SparseSet.Op α) → List (SparseSet.Answer α) × Packed α
  | [] => ([], rows)
  | op :: ops =>
    let (answer, rows) := rows.perform op
    let (answers, rows) := rows.serve ops
    (answer :: answers, rows)

/-! ## Rows that give way -/

theorem getElem?_vacate (rows : Packed α) {place : Nat} (h : place < rows.length) (j : Nat) :
    (rows.vacate place)[j]? =
      if j < rows.length - 1 then (if j = place then rows[rows.length - 1]? else rows[j]?)
      else none := by
  have hlast : rows.length - 1 < rows.length := by omega
  rw [vacate, List.getLast?_eq_getElem?, List.getElem?_eq_getElem hlast]
  show ((rows.set place _).dropLast)[j]? = _
  rw [List.getElem?_dropLast, List.length_set, List.getElem?_set]
  split
  · by_cases hj : j = place
    · rw [if_pos hj.symm, if_pos hj]
    · rw [if_neg (Ne.symm hj), if_neg hj]
  · rfl

end Packed

namespace SparseSet

variable {α : Type} {s : SparseSet α} {rows : Packed α} {e x : Entity}

/-! ## Rows of a set -/

/-- The rows of a set, to be worked on as a plain list. -/
abbrev packed (s : SparseSet α) : Packed α := s.rows

theorem length_rows (h : s.Wf) : s.packed.length = s.entities.size := by
  rw [packed, rows, List.length_zip, Array.length_toList, Array.length_toList, h.aligned, Nat.min_self]

theorem getElem?_rows {j : Nat} {v : α} :
    s.packed[j]? = some (e, v) ↔ s.entities[j]? = some e ∧ s.values[j]? = some v := by
  rw [packed, rows, List.getElem?_zip_eq_some]
  simp only [Array.getElem?_toList]

theorem map_fst_rows (h : s.Wf) : s.packed.map (·.1) = s.entities.toList := by
  refine List.map_fst_zip ?_
  rw [Array.length_toList, Array.length_toList, h.aligned]

theorem map_snd_rows (h : s.Wf) : s.packed.map (·.2) = s.values.toList := by
  refine List.map_snd_zip ?_
  rw [Array.length_toList, Array.length_toList, h.aligned]

/-- The rows of a set are known by what stands in them. -/
theorem rows_eq_of_getElem? {t : Packed α}
    (h : ∀ (j : Nat) e v, t[j]? = some (e, v) ↔ s.entities[j]? = some e ∧ s.values[j]? = some v) :
    s.packed = t := by
  refine List.ext_getElem? fun j => Option.ext fun row => ?_
  rw [getElem?_rows, h]

/-- At most one row of a set passes a test that tells indices apart, and a search finds it. -/
theorem findIdx?_rows_iff (h : s.Wf) (test : Entity → Bool)
    (hindex : ∀ e x, test e = true → test x = true → x.index = e.index) {slot : Nat} :
    s.packed.findIdx? (fun row => test row.1) = some slot ↔
      ∃ e, s.entities[slot]? = some e ∧ test e = true := by
  rw [List.findIdx?_eq_some_iff_getElem]
  constructor
  · rintro ⟨hlt, hrow, -⟩
    exact ⟨s.packed[slot].1, (getElem?_rows.mp (List.getElem?_eq_getElem hlt)).1, hrow⟩
  · rintro ⟨e, he, htest⟩
    have hlt : slot < s.packed.length := by
      rw [length_rows h]
      exact (Array.getElem?_eq_some_iff.mp he).1
    have hentity : ∀ {j : Nat} (hj : j < s.packed.length), s.entities[j]? = some s.packed[j].1 :=
      fun hj => (getElem?_rows.mp (List.getElem?_eq_getElem hj)).1
    refine ⟨hlt, ?_, fun j hj hfirst => ?_⟩
    · rw [hentity hlt] at he
      rw [Option.some.inj he]
      exact htest
    · have hslot := h.slot_eq he (hentity (Nat.lt_trans hj hlt)) (hindex _ _ htest hfirst)
      omega

/-- A handle has the row where a search for it ends. -/
theorem slotOf?_eq_place? (h : s.Wf) (e : Entity) : s.slotOf? e = s.packed.place? e := by
  refine Option.ext fun slot => ?_
  rw [h.slotOf?_iff]
  show _ ↔ s.packed.findIdx? (fun row => row.1 == e) = some slot
  rw [findIdx?_rows_iff h (· == e) fun x y hx hy => by
    rw [eq_of_beq hx, eq_of_beq hy]]
  constructor
  · intro he
    exact ⟨e, he, beq_self_eq_true e⟩
  · rintro ⟨x, hx, hxe⟩
    rw [hx, eq_of_beq hxe]

/-- The slot table leads to where a search for the index ends. -/
theorem slots_eq_findIdx? (h : s.Wf) (i : UInt32) :
    s.slots.get? i = s.packed.findIdx? (·.1.index == i) := by
  refine Option.ext fun slot => ?_
  rw [h.leads, findIdx?_rows_iff h (·.index == i) fun x y hx hy => by
    rw [eq_of_beq hx, eq_of_beq hy]]
  simp only [beq_iff_eq]

theorem get?_eq_lookup? (h : s.Wf) (e : Entity) : s.get? e = s.packed.lookup? e := by
  have hplace := slotOf?_eq_place? h e
  rw [get?, hplace, Packed.lookup?, List.find?_eq_bind_findIdx?_getElem?]
  show _ = ((s.packed.place? e).bind (s.packed[·]?)).map (·.2)
  cases hs : s.packed.place? e with
  | none => rfl
  | some slot =>
    show s.values[slot]? = (s.packed[slot]?).map (·.2)
    rw [← List.getElem?_map, map_snd_rows h, Array.getElem?_toList]

theorem contains_eq_has (h : s.Wf) (e : Entity) : s.contains e = s.packed.has e := by
  rw [contains, slotOf?_eq_place? h, Packed.place?, List.findIdx?_isSome]
  rfl

/-! ## What the operations do to the rows -/

theorem rows_dropRow (h : s.Wf) {slot : Nat} (hs : s.entities[slot]? = some e) :
    (s.dropRow slot).packed = s.packed.vacate slot := by
  have hlt : slot < s.entities.size := (Array.getElem?_eq_some_iff.mp hs).1
  have hvalues : slot < s.values.size := h.aligned ▸ hlt
  refine rows_eq_of_getElem? fun j x v => ?_
  rw [Packed.getElem?_vacate _ (by rw [length_rows h]; exact hlt), length_rows h]
  show _ ↔ (swapRemove s.entities slot)[j]? = some x ∧ (swapRemove s.values slot)[j]? = some v
  rw [getElem?_swapRemove _ hlt, getElem?_swapRemove _ hvalues, h.aligned]
  split
  · split
    · exact getElem?_rows
    · exact getElem?_rows
  · simp

theorem rows_evict (h : s.Wf) (i : UInt32) : (s.evict i).2.packed = s.packed.evict i := by
  rw [Packed.evict, ← slots_eq_findIdx? h]
  rcases evict_cases h i with ⟨hs, he⟩ | ⟨slot, x, hx, hxi, he⟩
  · rw [he, hs]
  · rw [he, (h.leads i slot).mpr ⟨x, hx, hxi⟩]
    exact rows_dropRow h hx

theorem rows_push (h : s.Wf) (slots : SlotTable) (e : Entity) (v : α) :
    ({ slots, entities := s.entities.push e, values := s.values.push v } : SparseSet α).packed =
      s.packed ++ [(e, v)] := by
  rw [packed, rows, Array.toList_push, Array.toList_push, List.zip_append]
  · rfl
  · rw [Array.length_toList, Array.length_toList, h.aligned]

/-- An answer tells whether a row was added, and then it is the last. -/
theorem emplace_eq (h : s.Wf) (hnull : e.isNull = false) (v : α) :
    (s.emplace e v).1 = .ok (!s.packed.has e) ∧ (s.emplace e v).2.packed = s.packed.insert e v ∧
      (s.emplace e v).2.Wf := by
  rw [emplace, Packed.insert, ← contains_eq_has h]
  cases hc : s.contains e with
  | true =>
    rw [emplaceWith_of_contains h _ hnull hc]
    exact ⟨rfl, rfl, h⟩
  | false =>
    refine ⟨?_, ?_, wf_emplaceWith h v hnull hc⟩
    · rw [emplaceWith_new h v hnull hc]
      rfl
    · rw [emplaceWith_new h v hnull hc]
      exact (rows_push (wf_evict h _) _ e v).trans (congrArg (· ++ _) (rows_evict h _))

/-- A row whose value is written keeps its handle. -/
theorem rows_modify (h : s.Wf) (e : Entity) (f : α → α) :
    (s.modify e f).packed = s.packed.write e f := by
  refine rows_eq_of_getElem? fun j x v => ?_
  have hentities : (s.modify e f).entities = s.entities := by
    unfold modify
    split <;> rfl
  -- the value in a row changes exactly where the handle stands
  have hvalues : s.entities[j]? = some x →
      (s.modify e f).values[j]? = if x = e then (s.values[j]?).map f else s.values[j]? := by
    intro hx
    unfold modify
    cases hs : s.slotOf? e with
    | none =>
      have hne : x ≠ e := by
        rintro rfl
        rw [h.slotOf?_iff.mpr hx] at hs
        cases hs
      rw [if_neg hne]
    | some slot =>
      have he := h.slotOf?_iff.mp hs
      show (s.values.modify slot f)[j]? = _
      rw [Array.getElem?_modify]
      by_cases hxe : x = e
      · rw [if_pos hxe, if_pos (h.slot_eq he hx (by rw [hxe]))]
      · rw [if_neg hxe, if_neg]
        rintro rfl
        rw [he] at hx
        exact hxe (Option.some.inj hx).symm
  rw [Packed.write, List.getElem?_map, Option.map_eq_some_iff, hentities]
  constructor
  · rintro ⟨⟨y, u⟩, hrow, hwritten⟩
    obtain ⟨hy, hu⟩ := getElem?_rows.mp hrow
    by_cases hye : y = e
    · rw [if_pos hye, Prod.mk.injEq] at hwritten
      obtain ⟨rfl, rfl⟩ := hwritten
      rw [hye] at hy
      exact ⟨hy, by rw [hvalues hy, if_pos rfl, hu]; rfl⟩
    · rw [if_neg hye, Prod.mk.injEq] at hwritten
      obtain ⟨rfl, rfl⟩ := hwritten
      exact ⟨hy, by rw [hvalues hy, if_neg hye, hu]⟩
  · rintro ⟨hx, hv⟩
    rw [hvalues hx] at hv
    by_cases hxe : x = e
    · rw [if_pos hxe, Option.map_eq_some_iff] at hv
      obtain ⟨u, hu, rfl⟩ := hv
      exact ⟨(x, u), getElem?_rows.mpr ⟨hx, hu⟩, by rw [if_pos hxe, hxe]⟩
    · rw [if_neg hxe] at hv
      exact ⟨(x, v), getElem?_rows.mpr ⟨hx, hv⟩, by rw [if_neg hxe]⟩

theorem wf_rewrite (h : s.Wf) (f : Nat → Entity → α → α) : (s.rewrite f).Wf :=
  { h with aligned := by rw [rewrite, Array.size_mapIdx, h.aligned] }

theorem rows_rewrite (f : Nat → Entity → α → α) : (s.rewrite f).packed = s.packed.rewrite f := by
  refine rows_eq_of_getElem? fun j x v => ?_
  rw [Packed.rewrite, List.getElem?_mapIdx, Option.map_eq_some_iff]
  show _ ↔ s.entities[j]? = some x ∧ (s.values.mapIdx _)[j]? = some v
  rw [Array.getElem?_mapIdx, Option.map_eq_some_iff]
  constructor
  · rintro ⟨⟨y, u⟩, hrow, hwritten⟩
    obtain ⟨hy, hu⟩ := getElem?_rows.mp hrow
    obtain ⟨rfl, rfl⟩ := Prod.mk.inj hwritten
    exact ⟨hy, u, hu, by rw [hy]; rfl⟩
  · rintro ⟨hx, u, hu, hwritten⟩
    rw [hx] at hwritten
    exact ⟨(x, u), getElem?_rows.mpr ⟨hx, hu⟩, Prod.ext rfl hwritten⟩

/-- Removing a handle takes its row out, and answers what stood there. -/
theorem remove_eq (h : s.Wf) (e : Entity) :
    (s.remove e).1 = .ok (s.packed.lookup? e) ∧ (s.remove e).2.packed = s.packed.remove e := by
  refine ⟨by rw [remove_fst h, get?_eq_lookup? h], ?_⟩
  rw [Packed.remove, ← slotOf?_eq_place? h]
  rcases remove_cases h e with ⟨hc, hr⟩ | ⟨slot, hs, hr⟩
  · rw [hr, slotOf?_of_not_contains hc]
  · rw [hr, h.slotOf?_iff.mpr hs]
    exact rows_dropRow h hs

theorem erase_eq (h : s.Wf) (e : Entity) :
    s.erase e = (.ok (s.packed.has e), (s.remove e).2) := by
  refine Prod.ext ?_ rfl
  show (s.remove e).1.map _ = _
  rw [remove_fst h, ← contains_eq_has h, h.contains_eq_isSome]
  rfl

theorem removeAll_eq (h : s.Wf) (es : List Entity) :
    (s.removeAll es).1 = .ok (s.packed.removeAll es).1 ∧
      (s.removeAll es).2.packed = (s.packed.removeAll es).2 ∧ (s.removeAll es).2.Wf := by
  induction es generalizing s with
  | nil => exact ⟨rfl, rfl, h⟩
  | cons e es ih =>
    have hrows := (remove_eq h e).2
    obtain ⟨hcount, hleft, hwf⟩ := ih (wf_remove h e)
    rw [hrows] at hcount hleft
    rw [removeAll, erase_eq h e]
    refine ⟨?_, hleft, hwf⟩
    show ((s.remove e).2.removeAll es).1.map _ = _
    rw [hcount]
    rfl

/-- A table in which some indices were cleared leads nowhere from them. -/
theorem get?_foldl_clear (t : SlotTable) (es : List Entity) (i : UInt32) :
    (es.foldl (fun t e => t.clear e.index) t).get? i =
      if i ∈ es.map (·.index) then none else t.get? i := by
  induction es generalizing t with
  | nil => rfl
  | cons e es ih =>
    rw [List.foldl_cons, ih, List.map_cons]
    by_cases hi : i = e.index
    · rw [hi, SlotTable.get?_clear_self, ite_self, if_pos List.mem_cons_self]
    · rw [SlotTable.get?_clear_other _ hi]
      simp only [List.mem_cons, hi, false_or]

theorem wf_clear (h : s.Wf) : s.clear.Wf :=
  { leads := fun i slot => by
      show SlotTable.get? (s.entities.foldl _ s.slots) i = _ ↔ _
      rw [← Array.foldl_toList, get?_foldl_clear]
      refine ⟨fun hslot => ?_, fun hrow => ?_⟩
      · split at hslot
        · cases hslot
        · rename_i hi
          obtain ⟨x, hx, hxi⟩ := (h.leads i slot).mp hslot
          exact absurd (List.mem_map.mpr ⟨x, Array.mem_toList_iff.mpr (Array.mem_of_getElem? hx), hxi⟩)
            hi
      · obtain ⟨x, hx, -⟩ := hrow
        cases hx
    nonnull := fun x hx => absurd hx (Array.not_mem_empty x)
    aligned := rfl }

/-! ## No index is out of bounds -/

theorem strictSlotOf?_eq (h : s.Wf) (e : Entity) : s.strictSlotOf? e = some (s.slotOf? e) := by
  rw [strictSlotOf?, slotOf?]
  cases hs : s.slots.get? e.index with
  | none => rfl
  | some slot =>
    obtain ⟨x, hx, -⟩ := (h.leads _ _).mp hs
    rw [Option.filter_some]
    by_cases hxe : x = e
    · simp [hx, hxe]
    · simp [hx, hxe]

theorem strictGet?_eq (h : s.Wf) (e : Entity) : s.strictGet? e = some (s.get? e) := by
  rw [strictGet?, strictSlotOf?_eq h, get?]
  cases hs : s.slotOf? e with
  | none => rfl
  | some slot =>
    obtain ⟨v, hv⟩ := h.exists_value (h.slotOf?_iff.mp hs)
    show (s.values[slot]?).map some = some (s.values[slot]?)
    rw [hv]
    rfl

theorem strictRemoveAt_eq (h : s.Wf) {slot : Nat} (hs : s.entities[slot]? = some e) :
    ∃ v, s.values[slot]? = some v ∧ s.strictRemoveAt slot = some (v, s.dropRow slot) := by
  obtain ⟨v, hv⟩ := h.exists_value hs
  refine ⟨v, hv, ?_⟩
  rw [strictRemoveAt, hs, hv]
  rfl

theorem strictEvict_eq (h : s.Wf) (i : UInt32) : s.strictEvict i = some (s.evict i).2 := by
  rw [strictEvict]
  rcases evict_cases h i with ⟨hs, he⟩ | ⟨slot, x, hx, hxi, he⟩
  · rw [hs, he]
  · obtain ⟨v, -, hstrict⟩ := strictRemoveAt_eq h hx
    rw [(h.leads i slot).mpr ⟨x, hx, hxi⟩, he]
    show (s.strictRemoveAt slot).map (·.2) = some (s.dropRow slot)
    rw [hstrict]
    rfl

theorem strictEmplace_eq (h : s.Wf) (hnull : e.isNull = false) (v : α) :
    s.strictEmplace e v = some (s.perform (.emplace e v)) := by
  rw [strictEmplace, if_neg (by rw [hnull]; exact Bool.false_ne_true), strictSlotOf?_eq h]
  show (match s.slotOf? e with | some slot => _ | none => _) = _
  cases hs : s.slotOf? e with
  | some slot =>
    obtain ⟨old, hold⟩ := h.exists_value (h.slotOf?_iff.mp hs)
    have hc : s.contains e = true := (contains_iff s e).mpr ⟨slot, hs⟩
    have hget : s.get? e = some old := by rw [get?, hs, Option.bind_some, hold]
    rw [perform, emplace, emplaceWith_of_contains h _ hnull hc]
    show (s.values[slot]?).map _ = some (Except.ok (Answer.stored (s.get? e) false), s)
    rw [hold, hget]
    rfl
  | none =>
    have hc : s.contains e = false := by rw [contains, hs]; rfl
    have hnew := get?_emplaceWith h v hnull hc e
    rw [if_pos rfl] at hnew
    rw [perform, emplace]
    rw [emplaceWith_new h v hnull hc] at hnew ⊢
    show (s.strictEvict e.index).bind _ = _
    rw [strictEvict_eq h]
    show (((s.evict e.index).2.values.push v)[(s.evict e.index).2.entities.size]?).map _ =
      some (Except.ok (Answer.stored (SparseSet.get? _ e) true), _)
    rw [hnew, ← (wf_evict h e.index).aligned, Array.getElem?_push_size]
    rfl

theorem strictModify_eq (h : s.Wf) (e : Entity) (f : α → α) :
    s.strictModify e f = some (s.get? e, s.modify e f) := by
  rw [strictModify, strictSlotOf?_eq h, get?, modify]
  cases hs : s.slotOf? e with
  | none => rfl
  | some slot =>
    obtain ⟨v, hv⟩ := h.exists_value (h.slotOf?_iff.mp hs)
    show (s.values[slot]?).map _ = some (s.values[slot]?, _)
    rw [hv]
    rfl

theorem strictRemove_eq (h : s.Wf) (e : Entity) :
    s.strictRemove e = some (s.get? e, (s.remove e).2) := by
  rw [strictRemove, strictSlotOf?_eq h]
  rcases remove_cases h e with ⟨hc, hr⟩ | ⟨slot, hs, hr⟩
  · rw [hr, slotOf?_of_not_contains hc, get?_of_not_contains hc]
    rfl
  · obtain ⟨v, hv, hstrict⟩ := strictRemoveAt_eq h hs
    rw [hr, get?, h.slotOf?_iff.mpr hs]
    show (s.strictRemoveAt slot).map _ = some (s.values[slot]?, _)
    rw [hstrict, hv]
    rfl

theorem strictRemoveAll_eq (h : s.Wf) (es : List Entity) :
    s.strictRemoveAll es = some ((s.packed.removeAll es).1, (s.removeAll es).2) := by
  induction es generalizing s with
  | nil => rfl
  | cons e es ih =>
    rw [strictRemoveAll, strictRemove_eq h, removeAll, erase_eq h e, ← contains_eq_has h]
    show ((s.remove e).2.strictRemoveAll es).bind _ = some (if s.packed.has e then _ else _, _)
    rw [ih (wf_remove h e), (remove_eq h e).2, ← contains_eq_has h, h.contains_eq_isSome]
    cases s.get? e with
    | none => exact congrArg (fun n => some (n, _)) (Nat.zero_add _)
    | some v => exact congrArg (fun n => some (n, _)) (Nat.add_comm _ _)

theorem strictPerform_eq (h : s.Wf) {op : Op α} (hop : op.IsFit) :
    s.strictPerform op = some (s.perform op) := by
  cases op with
  | emplace e v => exact strictEmplace_eq h hop v
  | emplaceWith e v => exact strictEmplace_eq h hop v
  | insertOrReplace e v =>
    rw [strictPerform, strictSlotOf?_eq h, perform, insertOrReplace, h.get_eq, get?]
    show (match s.slotOf? e with | some _ => _ | none => _) = _
    cases hs : s.slotOf? e with
    | some slot =>
      obtain ⟨old, hold⟩ := h.exists_value (h.slotOf?_iff.mp hs)
      show (s.strictModify e _).map _ = _
      rw [strictModify_eq h, get?, hs, Option.bind_some, hold]
      rfl
    | none =>
      show (s.strictEmplace e v).map _ = _
      rw [strictEmplace_eq h hop v, perform]
      show some (((s.emplace e v).1.map _).map _, _) = some (((s.emplace e v).1.map _).map _, _)
      rw [(emplace_eq h hop v).1]
      rfl
  | write e f =>
    rw [strictPerform, strictModify_eq h, perform, write, h.get_eq]
    rfl
  | rewrite f => rfl
  | remove e =>
    rw [strictPerform, strictRemove_eq h, perform, ← Prod.eta (s.remove e), remove_fst h]
    rfl
  | erase e =>
    rw [strictPerform, strictRemove_eq h, perform, erase_eq h, ← contains_eq_has h,
      h.contains_eq_isSome]
    rfl
  | removeAll es =>
    rw [strictPerform, strictRemoveAll_eq h, perform, ← Prod.eta (s.removeAll es),
      (removeAll_eq h es).1]
    rfl
  | clear => rfl

/-! ## Sequences of operations -/

/-- One operation does to the rows what it does to a plain list. -/
theorem perform_eq (h : s.Wf) {op : Op α} (hop : op.IsFit) :
    (s.perform op).1 = .ok (s.packed.perform op).1 ∧
      (s.perform op).2.packed = (s.packed.perform op).2 ∧ (s.perform op).2.Wf := by
  have hemplace : ∀ {e : Entity} (v : α), e.isNull = false →
      (s.perform (.emplace e v)).1 = .ok (s.packed.perform (.emplace e v)).1 ∧
        (s.perform (.emplace e v)).2.packed = (s.packed.perform (.emplace e v)).2 ∧
        (s.perform (.emplace e v)).2.Wf := by
    intro e v hnull
    obtain ⟨hadded, hrows, hwf⟩ := emplace_eq h hnull v
    refine ⟨?_, hrows, hwf⟩
    show (s.emplace e v).1.map _ = .ok (Answer.stored _ _)
    rw [hadded, ← hrows, ← get?_eq_lookup? hwf]
    rfl
  cases op with
  | emplace e v => exact hemplace v hop
  | emplaceWith e v => exact hemplace v hop
  | insertOrReplace e v =>
    rw [perform, Packed.perform, insertOrReplace, h.get_eq, ← contains_eq_has h,
      ← get?_eq_lookup? h, h.contains_eq_isSome]
    cases hget : s.get? e with
    | some old => exact ⟨rfl, rows_modify h e _, wf_modify h e _⟩
    | none =>
      obtain ⟨hadded, hrows, hwf⟩ := emplace_eq h hop v
      refine ⟨?_, hrows, hwf⟩
      show ((s.emplace e v).1.map _).map _ = .ok (Answer.value none)
      rw [hadded]
      rfl
  | write e f =>
    refine ⟨?_, rows_modify h e f, wf_modify h e f⟩
    show (s.get e).map _ = .ok (Answer.value (s.packed.lookup? e))
    rw [h.get_eq, get?_eq_lookup? h]
    rfl
  | rewrite f => exact ⟨rfl, rows_rewrite f, wf_rewrite h f⟩
  | remove e =>
    obtain ⟨hold, hrows⟩ := remove_eq h e
    exact ⟨congrArg (Except.map Answer.value) hold, hrows, wf_remove h e⟩
  | erase e =>
    rw [perform, erase_eq h]
    exact ⟨rfl, (remove_eq h e).2, wf_remove h e⟩
  | removeAll es =>
    obtain ⟨hcount, hrows, hwf⟩ := removeAll_eq h es
    exact ⟨congrArg (Except.map Answer.count) hcount, hrows, hwf⟩
  | clear => exact ⟨rfl, rfl, wf_clear h⟩

theorem serve_eq (h : s.Wf) {ops : List (Op α)} (hops : ∀ op ∈ ops, op.IsFit) :
    (s.serve ops).1 = (s.packed.serve ops).1.map .ok ∧
      (s.serve ops).2.packed = (s.packed.serve ops).2 ∧ (s.serve ops).2.Wf ∧
      s.strictServe ops = some (s.serve ops) := by
  induction ops generalizing s with
  | nil => exact ⟨rfl, rfl, h, rfl⟩
  | cons op ops ih =>
    have hop := hops op List.mem_cons_self
    obtain ⟨hanswer, hrows, hwf⟩ := perform_eq h hop
    obtain ⟨hanswers, hrest, hwf', hstrict⟩ :=
      ih hwf fun op' hop' => hops op' (List.mem_cons_of_mem op hop')
    rw [hrows] at hanswers hrest
    refine ⟨?_, hrest, hwf', ?_⟩
    · exact List.cons_eq_cons.mpr ⟨hanswer, hanswers⟩
    · rw [strictServe, strictPerform_eq h hop]
      show ((s.perform op).2.strictServe ops).bind _ = _
      rw [hstrict]
      rfl

/-- The set is in order, its rows are the given list, and a search of the list finds what the
set finds. -/
structure Mirrors (s : SparseSet α) (rows : Packed α) : Prop where
  aligned : s.entities.size = s.values.size
  /-- No two rows share an index. -/
  distinct : (s.entities.toList.map (·.index)).Nodup
  /-- An index leads to the row whose handle has it. -/
  leads : ∀ (i : UInt32) (slot : Nat),
    s.slots.get? i = some slot ↔ ∃ e, s.entities[slot]? = some e ∧ e.index = i
  slotOf? : ∀ e, s.slotOf? e = rows.place? e
  contains : ∀ e, s.contains e = rows.has e
  get? : ∀ e, s.get? e = rows.lookup? e
  listed : s.rows = rows
  /-- To look for a handle asks for no row that is not there. -/
  strict : ∀ e, s.strictGet? e = some (s.get? e)

theorem mirrors_packed (h : s.Wf) : s.Mirrors s.packed :=
  { aligned := h.aligned.symm
    distinct := h.nodup_index
    leads := h.leads
    slotOf? := slotOf?_eq_place? h
    contains := contains_eq_has h
    get? := get?_eq_lookup? h
    listed := rfl
    strict := strictGet?_eq h }

/-- **Sets mirror lists.** Whatever is done to a set that starts empty, the answers are those of
a plain list of rows to which the same is done, the rows are that list, handles are found where
a search of the list finds them, and on the way no row is asked for that is not there. -/
theorem sets_mirror_lists (ops : List (Op α)) (h : ∀ op ∈ ops, op.IsFit) :
    ((empty : SparseSet α).serve ops).1 = (Packed.serve [] ops).1.map .ok ∧
      ((empty : SparseSet α).serve ops).2.Mirrors (Packed.serve [] ops).2 ∧
      (empty : SparseSet α).strictServe ops = some ((empty : SparseSet α).serve ops) := by
  obtain ⟨hanswers, hrows, hwf, hstrict⟩ := serve_eq (wf_empty : (empty : SparseSet α).Wf) h
  exact ⟨hanswers, hrows ▸ mirrors_packed hwf, hstrict⟩

/-- Three handles on two pages. The second generation of an index takes the place of the first,
and the row that was last moves into the gap. -/
theorem sets_mirror_lists_pages :
    let ops : List (Op Nat) :=
      [.emplace ⟨3, ⟨0⟩⟩ 10, .emplace ⟨5000, ⟨7⟩⟩ 20, .emplaceWith ⟨3, ⟨1⟩⟩ 30,
        .insertOrReplace ⟨9, ⟨0⟩⟩ 40, .write ⟨3, ⟨1⟩⟩ (· + 1), .rewrite fun slot _ v => v + slot,
        .removeAll [⟨5000, ⟨7⟩⟩, ⟨5000, ⟨7⟩⟩, ⟨3, ⟨0⟩⟩]]
    (∀ op ∈ ops, op.IsFit) ∧
      ((empty : SparseSet Nat).serve ops).2.rows = [(⟨9, ⟨0⟩⟩, 42), (⟨3, ⟨1⟩⟩, 32)] ∧
      (empty : SparseSet Nat).strictServe ops = some ((empty : SparseSet Nat).serve ops) := by
  intro ops
  have hops : ∀ op ∈ ops, op.IsFit := by
    simp [ops, Op.IsFit, Entity.isNull, Entity.nullIndex]
  obtain ⟨-, hmirrors, hstrict⟩ := sets_mirror_lists ops hops
  exact ⟨hops, hmirrors.listed.trans (by decide), hstrict⟩

end SparseSet

end EntityScene
