import EntityScene.Proofs.Packing

/-!
# Rows without a value

A new row is begun with its handle, and its value is asked for then. If it is not made, the handle
stays behind alone at the end of the set: it is listed, and whoever asks for its value is abandoned.
The others keep their values for the time being, but from there on handles and values are shifted
against each other, and the next value that is added is found through the handle that was left
behind.

- `locate_begun`, `get_begun`: what is found in a set with a handle at the end that has no value yet.
- `emplace_begun`: the next row that is added.
- `unfinished_row_takes_the_next_value`: all this for every set that operations lead to.
-/

namespace EntityScene

namespace SparseSet

variable {α : Type} {s : SparseSet α} {e x : Entity}

theorem slotOf?_begun (h : s.Wf) (hnull : e.isNull = false)
    (hfree : ∀ x ∈ s.entities, x.index ≠ e.index) (x : Entity) :
    (s.begun e).slotOf? x = if x = e then some s.entities.size else s.slotOf? x := by
  have hlt := h.size_lt hnull hfree
  refine Option.ext fun slot => ?_
  rw [slotOf?_eq_some_iff]
  by_cases hx : x = e
  · rw [if_pos hx, hx, begun, SlotTable.get?_set_self _ _ hlt]
    constructor
    · exact fun hslot => hslot.1
    · intro hslot
      rw [← Option.some.inj hslot, Array.getElem?_push_size]
      exact ⟨rfl, rfl⟩
  · rw [if_neg hx, slotOf?_eq_some_iff, begun]
    by_cases hindex : x.index = e.index
    · rw [hindex, SlotTable.get?_set_self _ _ hlt]
      constructor
      · rintro ⟨hslot, hrow⟩
        rw [← Option.some.inj hslot, Array.getElem?_push_size] at hrow
        exact absurd (Option.some.inj hrow).symm hx
      · rintro ⟨-, hrow⟩
        exact absurd hindex (hfree x (Array.mem_of_getElem? hrow))
    · rw [SlotTable.get?_set_other _ _ hindex]
      refine and_congr_right fun hslot => ?_
      obtain ⟨y, hy, -⟩ := (h.leads _ _).mp hslot
      have hslot' : slot ≠ s.entities.size :=
        Nat.ne_of_lt (Array.getElem?_eq_some_iff.mp hy).1
      rw [Array.getElem?_push, if_neg hslot']

/-- The slot table of a row that was begun leads to rows. -/
theorem locate_begun (h : s.Wf) (hnull : e.isNull = false)
    (hfree : ∀ x ∈ s.entities, x.index ≠ e.index) (x : Entity) :
    (s.begun e).locate x = .ok (if x = e then some s.entities.size else s.slotOf? x) := by
  rw [← slotOf?_begun h hnull hfree]
  refine locate_eq_slotOf? fun slot hslot => ?_
  show slot < (s.entities.push e).size
  rw [Array.size_push]
  rw [begun] at hslot
  by_cases hindex : x.index = e.index
  · rw [hindex, SlotTable.get?_set_self _ _ (h.size_lt hnull hfree)] at hslot
    exact Option.some.inj hslot ▸ Nat.lt_succ_self _
  · rw [SlotTable.get?_set_other _ _ hindex] at hslot
    obtain ⟨y, hy, -⟩ := (h.leads _ _).mp hslot
    exact Nat.lt_succ_of_lt (Array.getElem?_eq_some_iff.mp hy).1

/-- Whoever looks for the handle that was begun is led past the values. Everything else is found as
before. -/
theorem get_begun (h : s.Wf) (hnull : e.isNull = false)
    (hfree : ∀ x ∈ s.entities, x.index ≠ e.index) (x : Entity) :
    (s.begun e).get x =
      if x = e then .error (.rowMissing s.values.size s.values.size) else s.get x := by
  rw [get, locate_begun h hnull hfree, get, h.locate_eq]
  by_cases hx : x = e
  · rw [if_pos hx, if_pos hx]
    show (rowAt s.values s.entities.size).map some = _
    rw [← h.aligned, rowAt, Array.getElem?_eq_none (Nat.le_refl _)]
    rfl
  · rw [if_neg hx, if_neg hx]
    rfl

/-- An eviction adds no row. -/
theorem mem_of_mem_evict (h : s.Wf) {i : UInt32} (hx : x ∈ (s.evict i).2.entities) :
    x ∈ s.entities := by
  have hwf := wf_evict h i
  have hc := hwf.contains_iff_mem.mpr hx
  rw [hwf.contains_eq_isSome, get?_evict h] at hc
  split at hc
  · cases hc
  · exact h.contains_iff_mem.mp (h.contains_eq_isSome x ▸ hc)

/-- An index without a row is led nowhere. -/
theorem slots_eq_none (h : s.Wf) {i : UInt32} (hfree : ∀ x ∈ s.entities, x.index ≠ i) :
    s.slots.get? i = none := by
  rw [Option.eq_none_iff_forall_ne_some]
  intro slot hslot
  obtain ⟨y, hy, hi⟩ := (h.leads i slot).mp hslot
  exact hfree y (Array.mem_of_getElem? hy) hi

/-- The next value that is added goes to the row that was begun before. Its own row is missing then,
and the call that adds it is abandoned for that. -/
theorem emplace_begun (h : s.Wf) (hnull : e.isNull = false)
    (hfree : ∀ y ∈ s.entities, y.index ≠ e.index) (hnull' : x.isNull = false)
    (hindex : x.index ≠ e.index) (hfree' : ∀ y ∈ s.entities, y.index ≠ x.index) (v : α) :
    ((s.begun e).emplace x v).1 = .error (.rowMissing (s.values.size + 1) (s.values.size + 1)) ∧
      ((s.begun e).emplace x v).2.get e = .ok (some v) ∧
      ((s.begun e).emplace x v).2.get x =
        .error (.rowMissing (s.values.size + 1) (s.values.size + 1)) := by
  -- the set in which the first row has got the value
  let t : SparseSet α := { s.begun e with values := s.values.push v }
  have ht : t.Wf := wf_push h hnull hfree v
  have hfree'' : ∀ y ∈ t.entities, y.index ≠ x.index := by
    intro y hy
    rcases Array.mem_push.mp hy with hy | rfl
    · exact hfree' y hy
    · exact hindex.symm
  have hfresh : (s.begun e).slots.get? x.index = none := slots_eq_none ht hfree''
  have hmissing : rowAt (s.values.push v) (s.begun e).entities.size =
      .error (.rowMissing (s.values.size + 1) (s.values.size + 1)) := by
    have hsize : (s.begun e).entities.size = (s.values.push v).size := by
      rw [begun, Array.size_push, Array.size_push, h.aligned]
    rw [hsize, rowAt, Array.getElem?_eq_none (Nat.le_refl _), Array.size_push]
  have hadded : (s.begun e).emplace x v =
      (.error (.rowMissing (s.values.size + 1) (s.values.size + 1)), t.begun x) := by
    have hvalues : (s.begun e).values = s.values := rfl
    simp only [emplace, emplaceWith, hnull', locate, evict, hfresh, hvalues, hmissing]
    rfl
  have hne : e ≠ x := fun heq => hindex (congrArg Entity.index heq.symm)
  have hsize : t.values.size = s.values.size + 1 := Array.size_push _
  rw [hadded]
  refine ⟨rfl, ?_, ?_⟩
  · have hvalue : t.get? e = some v := (get?_push h hnull hfree v e).trans (if_pos rfl)
    rw [get_begun ht hnull' hfree'', if_neg hne, ht.get_eq, hvalue]
  · rw [get_begun ht hnull' hfree'', if_pos rfl, hsize]

/-- **An unfinished row takes the next value.** In every set that operations lead to: if the value
for a handle is not made, then a handle that had one keeps it, and was not asked for. Any other one
stays behind, listed as the last and without a value, and whoever asks for it is abandoned; everybody
else has the value they had, but for other generations of the index, whose row is gone. The next
value that is added for another index is found through the handle that was left behind, and the call
that adds it is abandoned, as is whoever asks for it. -/
theorem unfinished_row_takes_the_next_value (ops : List (Op α)) (hops : ∀ op ∈ ops, op.IsFit)
    {e : Entity} (hnull : e.isNull = false) (cause : Abort) :
    let s := ((empty : SparseSet α).serve ops).2
    let unfinished := (s.emplaceWith e (.error cause)).2
    let n := unfinished.values.size
    (s.contains e = true → s.emplaceWith e (.error cause) = (.ok false, s)) ∧
      (s.contains e = false →
        (s.emplaceWith e (.error cause)).1 = .error cause ∧
        unfinished.entities.size = n + 1 ∧
        unfinished.entities.back? = some e ∧ unfinished.contains e = true ∧
        (∀ x, unfinished.get x =
          if x = e then .error (.rowMissing n n)
          else if x.index = e.index then .ok none
          else s.get x) ∧
        ∀ x v, x.isNull = false → x.index ≠ e.index →
          (∀ y ∈ s.entities, y.index ≠ x.index) →
          (unfinished.emplace x v).1 = .error (.rowMissing (n + 1) (n + 1)) ∧
            (unfinished.emplace x v).2.get e = .ok (some v) ∧
            (unfinished.emplace x v).2.get x = .error (.rowMissing (n + 1) (n + 1))) := by
  intro s unfinished n
  have h : s.Wf := (serve_eq wf_empty hops).2.2.1
  refine ⟨emplaceWith_of_contains h _ hnull, fun hnew => ?_⟩
  have hevicted := wf_evict h e.index
  have hfree : ∀ y ∈ (s.evict e.index).2.entities, y.index ≠ e.index :=
    fun y hy => index_ne_of_mem_evict h hy
  have herror := emplaceWith_error h hnull hnew cause
  have hbegun : unfinished = (s.evict e.index).2.begun e := congrArg Prod.snd herror
  have hn : n = (s.evict e.index).2.values.size := by
    show unfinished.values.size = _
    rw [hbegun]
    rfl
  rw [hn, hbegun, herror]
  refine ⟨rfl, ?_, Array.back?_push, ?_, fun x => ?_, fun x v hnull' hindex hfree' => ?_⟩
  · exact (Array.size_push e).trans (congrArg (· + 1) hevicted.aligned.symm)
  · rw [contains, slotOf?_begun hevicted hnull hfree, if_pos rfl]
    rfl
  · rw [get_begun hevicted hnull hfree, hevicted.get_eq, get?_evict h, h.get_eq]
    split
    · rfl
    · split <;> rfl
  · exact emplace_begun hevicted hnull hfree hnull' hindex
      (fun y hy => hfree' y (mem_of_mem_evict h hy)) v

/-- A value is not made, and another is added. -/
theorem unfinished_row_takes_the_next_value_numbers :
    let s := ((empty : SparseSet Nat).serve [.emplace ⟨0, .initial⟩ 5]).2
    let unfinished := (s.emplaceWith ⟨1, .initial⟩ (.error (.raised "stop"))).2
    unfinished.get ⟨0, .initial⟩ = .ok (some 5) ∧
      unfinished.get ⟨1, .initial⟩ = .error (.rowMissing 1 1) ∧
      (unfinished.emplace ⟨2, .initial⟩ 7).1 = .error (.rowMissing 2 2) ∧
      (unfinished.emplace ⟨2, .initial⟩ 7).2.get ⟨1, .initial⟩ = .ok (some 7) := by
  have hops : ∀ op ∈ [Op.emplace ⟨0, .initial⟩ 5], Op.IsFit op := by
    intro op hop
    rw [List.mem_singleton.mp hop]
    exact (by decide : Entity.isNull ⟨0, .initial⟩ = false)
  intro s unfinished
  obtain ⟨-, hunfinished⟩ := unfinished_row_takes_the_next_value
    [Op.emplace ⟨0, .initial⟩ 5] hops (e := ⟨1, .initial⟩) (by decide) (.raised "stop")
  obtain ⟨-, -, -, -, hget, hnext⟩ := hunfinished (by decide +kernel)
  obtain ⟨hfirst, hsecond, -⟩ := hnext ⟨2, .initial⟩ 7 (by decide) (by decide) (by decide +kernel)
  exact ⟨(hget _).trans (by decide +kernel), (hget _).trans (by decide +kernel),
    hfirst.trans (by decide +kernel), hsecond⟩

/-- A value that is not made leaves its handle with a row. It is found by nobody, the next value is
found through it, and the call that adds that value is abandoned. -/
theorem unmade_value_leaves_its_handle :
    let unfinished := ((empty : SparseSet Nat).emplaceWith ⟨0, .initial⟩
      (.error (.raised "stop"))).2
    let next := unfinished.emplace ⟨1, .initial⟩ 7
    unfinished.entities.size = 1 ∧ unfinished.values.size = 0 ∧
      unfinished.contains ⟨0, .initial⟩ = true ∧
      unfinished.get ⟨0, .initial⟩ = .error (.rowMissing 0 0) ∧
      next.1 = .error (.rowMissing 1 1) ∧ next.2.get ⟨0, .initial⟩ = .ok (some 7) ∧
      next.2.get ⟨1, .initial⟩ = .error (.rowMissing 1 1) := by
  decide +kernel

end SparseSet

end EntityScene
