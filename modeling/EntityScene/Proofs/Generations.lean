import EntityScene.Proofs.Handles

/-!
# Generations count how often an index is used

As long as no index is used `2 ^ 32` times the generation of a slot says how often the
index was used again, and so a handle that was given up is never issued again.

- `Table.Dated`: the generations of a table are the given counts.
- `Table.Issued`: a handle that a dated table may have issued.
- `Table.reusing`: the counts after the next handle is issued.
- `dated_allocate`, `dated_beginDestroy`, `dated_release`: kept by every transition.
- `not_issued_of_allocate`: what is issued was never issued before.
- `Table.Aged`: what becomes of a handle that was issued.
- `Table.MovedOn`: the slot of a handle that was live once, counted from there.
-/

namespace EntityScene.Entity.Table

variable {t t' : Table} {count : UInt32 → Nat} {e x : Entity}

/-- The generation of a live slot is the number of times that its index was used again,
and a free slot is one ahead. -/
structure Dated (t : Table) (count : UInt32 → Nat) : Prop where
  live : ∀ {i : UInt32} {g : Generation} {st : SlotState},
    t.slots[i.toNat]? = some ⟨g, st⟩ → st ≠ .free → g.raw.toNat = count i
  free : ∀ {i : UInt32} {g : Generation},
    t.slots[i.toNat]? = some ⟨g, .free⟩ → g.raw = .ofNat (count i + 1)
  unused : ∀ {i : UInt32}, t.slots[i.toNat]? = none → count i = 0

/-- A handle for an index in use, of a generation that the index has reached. -/
def Issued (t : Table) (count : UInt32 → Nat) (x : Entity) : Prop :=
  x.index.toNat < t.slots.size ∧ x.generation.raw.toNat ≤ count x.index

/-- The counts after the next handle is issued. -/
def reusing (t : Table) (count : UInt32 → Nat) (i : UInt32) : Nat :=
  count i + if t.released.head? = some i then 1 else 0

theorem dated_empty : Dated empty fun _ => 0 :=
  { live := fun h => by simp [empty] at h
    free := fun h => by simp [empty] at h
    unused := fun _ => rfl }

theorem Dated.issued_of_isAlive (h : t.Dated count) (hx : t.isAlive x = true) :
    t.Issued count x := by
  obtain ⟨st, hst, hne⟩ := isAlive_iff_exists.mp hx
  exact ⟨(Array.getElem?_eq_some_iff.mp hst).1, Nat.le_of_eq (h.live hst hne)⟩

/-- Slots and counts only grow. -/
theorem Issued.mono {count' : UInt32 → Nat} (hsize : t.slots.size ≤ t'.slots.size)
    (hcount : count x.index ≤ count' x.index) (h : t.Issued count x) : t'.Issued count' x :=
  ⟨Nat.lt_of_lt_of_le h.1 hsize, Nat.le_trans h.2 hcount⟩

theorem size_slots_allocate (hwf : t.Wf) (h : t.allocate = (.ok e, t')) :
    t.slots.size ≤ t'.slots.size := by
  rcases allocate_cases hwf h with ⟨rest, -, -, rfl⟩ | ⟨-, -, -, -, rfl⟩
  · simp [setSlot]
  · simp

theorem issued_allocate (hwf : t.Wf) (h : t.allocate = (.ok e, t')) (hx : t.Issued count x) :
    t'.Issued (t.reusing count) x :=
  hx.mono (size_slots_allocate hwf h) (Nat.le_add_right _ _)

/-- The generation of a handle that is issued for an index used before. -/
theorem Dated.generation_of_released (hd : t.Dated count) {rest : List UInt32}
    (hrel : t.released = e.index :: rest)
    (hfree : t.slots[e.index.toNat]? = some ⟨e.generation, .free⟩)
    (hlt : ∀ i, t.reusing count i < UInt32.size) :
    e.generation.raw.toNat = t.reusing count e.index := by
  have hcount : t.reusing count e.index = count e.index + 1 := by
    simp [reusing, hrel]
  have hbound := hlt e.index
  rw [hcount] at hbound ⊢
  rw [hd.free hfree, UInt32.toNat_ofNat_of_lt' hbound]

/-- An overwritten slot that has the count right keeps the table dated. -/
theorem dated_setSlot {count' : UInt32 → Nat} (hd : t.Dated count) {i : UInt32} {s₀ : Slot}
    (hs : t.slots[i.toNat]? = some s₀) (hcount : ∀ j, j ≠ i → count' j = count j)
    {g : Generation} {st : SlotState} (hlive : st ≠ .free → g.raw.toNat = count' i)
    (hfree : st = .free → g.raw = .ofNat (count' i + 1)) :
    (t.setSlot i ⟨g, st⟩).Dated count' := by
  have hself := slots_setSlot_self ⟨g, st⟩ hs
  have hother : ∀ {j : UInt32}, j ≠ i →
      (t.setSlot i ⟨g, st⟩).slots[j.toNat]? = t.slots[j.toNat]? := by
    intro j hj
    exact Array.getElem?_setIfInBounds_ne fun h => hj (UInt32.toNat_inj.mp h.symm)
  refine
    { live := fun {j g' st'} hj hne => ?_
      free := fun {j g'} hj => ?_
      unused := fun {j} hj => ?_ }
  · by_cases hji : j = i
    · rw [hji, hself] at hj
      cases hj
      rw [hji]
      exact hlive hne
    · rw [hcount j hji]
      exact hd.live ((hother hji).symm.trans hj) hne
  · by_cases hji : j = i
    · rw [hji, hself] at hj
      cases hj
      rw [hji]
      exact hfree rfl
    · rw [hcount j hji]
      exact hd.free ((hother hji).symm.trans hj)
  · by_cases hji : j = i
    · rw [hji, hself] at hj
      cases hj
    · rw [hcount j hji]
      exact hd.unused ((hother hji).symm.trans hj)

theorem dated_allocate (hwf : t.Wf) (hd : t.Dated count) (h : t.allocate = (.ok e, t'))
    (hlt : ∀ i, t.reusing count i < UInt32.size) : t'.Dated (t.reusing count) := by
  rcases allocate_cases hwf h with ⟨rest, hrel, hfree, rfl⟩ | ⟨hrel, hidx, hgen, -, rfl⟩
  · have hgen := hd.generation_of_released hrel hfree hlt
    have hother : ∀ i, i ≠ e.index → t.reusing count i = count i := by
      intro i hi
      have hne : e.index ≠ i := fun h => hi h.symm
      simp [reusing, hrel, hne]
    have hset : (t.setSlot e.index ⟨e.generation, .alive⟩).Dated (t.reusing count) :=
      dated_setSlot hd hfree hother (fun _ => hgen) fun hc => by cases hc
    exact { live := hset.live, free := hset.free, unused := hset.unused }
  · have hcount : ∀ i, t.reusing count i = count i := fun i => by simp [reusing, hrel]
    have hnew : count e.index = 0 := hd.unused (by
      rw [hidx]
      exact Array.getElem?_eq_none (Nat.le_refl _))
    have hpush : ∀ i : UInt32, (t.slots.push ⟨e.generation, .alive⟩)[i.toNat]? =
        if i = e.index then some ⟨e.generation, .alive⟩ else t.slots[i.toNat]? := by
      intro i
      rw [Array.getElem?_push, ← hidx]
      simp only [UInt32.toNat_inj]
    refine
      { live := fun {i g st} hi hne => ?_
        free := fun {i g} hi => ?_
        unused := fun {i} hi => ?_ }
    · rw [hpush] at hi
      rw [hcount]
      split at hi
      · rename_i hie
        cases hi
        rw [hie, hnew, hgen]
        rfl
      · exact hd.live hi hne
    · rw [hpush] at hi
      rw [hcount]
      split at hi
      · cases hi
      · exact hd.free hi
    · rw [hpush] at hi
      rw [hcount]
      split at hi
      · cases hi
      · exact hd.unused hi

/-- What is issued was never issued before. -/
theorem not_issued_of_allocate (hwf : t.Wf) (hd : t.Dated count)
    (h : t.allocate = (.ok e, t')) (hlt : ∀ i, t.reusing count i < UInt32.size) :
    ¬ t.Issued count e := by
  rintro ⟨hsize, hle⟩
  rcases allocate_cases hwf h with ⟨rest, hrel, hfree, -⟩ | ⟨-, hidx, -⟩
  · have hgen := hd.generation_of_released hrel hfree hlt
    have hcount : t.reusing count e.index = count e.index + 1 := by
      simp [reusing, hrel]
    omega
  · omega

theorem dated_beginDestroy (hd : t.Dated count) (e : Entity) :
    (t.beginDestroy e).2.Dated count := by
  by_cases h : t.state? e = some .alive
  · have hslot := state?_eq_some_iff.mp h
    simp only [beginDestroy, if_pos h]
    exact dated_setSlot hd hslot (fun _ _ => rfl) (fun _ => hd.live hslot (by decide))
      fun hc => by cases hc
  · rw [beginDestroy_of_ne h]
    exact hd

theorem size_slots_beginDestroy (t : Table) (e : Entity) :
    (t.beginDestroy e).2.slots.size = t.slots.size := by
  unfold beginDestroy
  split
  · exact Array.size_setIfInBounds
  · rfl

theorem dated_release (hd : t.Dated count) (h : t.isAlive e = true) :
    (t.release e).2.Dated count := by
  obtain ⟨st, hst, hne⟩ := isAlive_iff_exists.mp h
  have hset : (t.setSlot e.index ⟨e.generation.next, .free⟩).Dated count := by
    refine dated_setSlot hd hst (fun _ _ => rfl) (fun hc => absurd rfl hc) fun _ => ?_
    rw [Generation.raw_next, ← hd.live hst hne, UInt32.ofNat_add, UInt32.ofNat_toNat]
    rfl
  simp only [release, if_pos h]
  exact { live := hset.live, free := hset.free, unused := hset.unused }

theorem size_slots_release (t : Table) (e : Entity) :
    (t.release e).2.slots.size = t.slots.size := by
  unfold release
  split
  · exact Array.size_setIfInBounds
  · rfl

/-! ## What becomes of a handle -/

/-- A handle that was issued goes from valid over being destroyed to gone, and never back. -/
structure Aged (count : UInt32 → Nat) (t t' : Table) (x : Entity) : Prop where
  issued : t'.Issued count x
  alive : t'.isAlive x = true → t.isAlive x = true
  destroying : t.isDestroying x = true → t'.isAlive x = true → t'.isDestroying x = true

theorem Aged.refl (h : t.Issued count x) : Aged count t t x := ⟨h, id, fun hd _ => hd⟩

theorem Aged.trans {t'' : Table} {count' : UInt32 → Nat} (h : Aged count t t' x)
    (h' : Aged count' t' t'' x) : Aged count' t t'' x :=
  { issued := h'.issued
    alive := fun ha => h.alive (h'.alive ha)
    destroying := fun hd ha => h'.destroying (h.destroying hd (h'.alive ha)) ha }

/-- A handle that is gone stays so. -/
theorem Aged.isAlive_eq_false (h : Aged count t t' x) (hx : t.isAlive x = false) :
    t'.isAlive x = false := by
  refine Bool.eq_false_iff.mpr fun ha => ?_
  rw [h.alive ha] at hx
  cases hx

/-- What is issued next is another handle. -/
theorem aged_allocate (hwf : t.Wf) (hd : t.Dated count) (h : t.allocate = (.ok e, t'))
    (hlt : ∀ i, t.reusing count i < UInt32.size) (hx : t.Issued count x) :
    Aged (t.reusing count) t t' x := by
  refine
    { issued := issued_allocate hwf h hx
      alive := fun ha => ?_
      destroying := fun hdes _ => ?_ }
  · rcases (isAlive_allocate hwf h x).mp ha with rfl | ha
    · exact absurd hx (not_issued_of_allocate hwf hd h hlt)
    · exact ha
  · rw [isDestroying_allocate hwf h]
    exact hdes

theorem aged_beginDestroy (hx : t.Issued count x) (e : Entity) :
    Aged count t (t.beginDestroy e).2 x := by
  refine
    { issued := hx.mono (Nat.le_of_eq (size_slots_beginDestroy t e).symm) (Nat.le_refl _)
      alive := fun ha => by rw [isAlive_beginDestroy] at ha; exact ha
      destroying := fun hdes _ => ?_ }
  by_cases h : t.state? e = some .alive
  · exact (isDestroying_beginDestroy h x).mpr (.inr hdes)
  · rw [beginDestroy_of_ne h]
    exact hdes

theorem aged_release (hx : t.Issued count x) (e : Entity) :
    Aged count t (t.release e).2 x := by
  by_cases h : t.isAlive e = true
  · exact
      { issued := hx.mono (Nat.le_of_eq (size_slots_release t e).symm) (Nat.le_refl _)
        alive := fun ha => ((isAlive_release h x).mp ha).1
        destroying := fun hdes ha =>
          (isDestroying_release h x).mpr ⟨hdes, ((isAlive_release h x).mp ha).2⟩ }
  · simp only [release, if_neg h]
    exact .refl hx

/-! ## Counting from a handle -/

/-- The slot of a handle that was live once, after its index was used again so many times. -/
def MovedOn (t : Table) (x : Entity) (n : Nat) : Prop :=
  ∃ g st, t.slots[x.index.toNat]? = some ⟨g, st⟩ ∧
    g.raw = x.generation.raw + .ofNat n + if st = .free then 1 else 0

theorem movedOn_of_isAlive (h : t.isAlive x = true) : t.MovedOn x 0 := by
  obtain ⟨st, hst, hne⟩ := isAlive_iff_exists.mp h
  exact ⟨_, st, hst, by simp [hne]⟩

namespace MovedOn

variable {n n' : Nat}

theorem setSlot (h : t.MovedOn x n) {i : UInt32} {g : Generation} {st : SlotState}
    (hother : i ≠ x.index → n' = n)
    (hself : i = x.index → g.raw = x.generation.raw + .ofNat n' + if st = .free then 1 else 0) :
    (t.setSlot i ⟨g, st⟩).MovedOn x n' := by
  obtain ⟨gx, stx, hx, hgx⟩ := h
  by_cases hi : i = x.index
  · subst hi
    exact ⟨g, st, slots_setSlot_self _ hx, hself rfl⟩
  · rw [hother hi]
    refine ⟨gx, stx, ?_, hgx⟩
    rw [← hx]
    exact Array.getElem?_setIfInBounds_ne fun heq => hi (UInt32.toNat_inj.mp heq)

theorem allocate (h : t.MovedOn x (count x.index)) (hwf : t.Wf)
    (halloc : t.allocate = (.ok e, t')) : t'.MovedOn x (t.reusing count x.index) := by
  rcases allocate_cases hwf halloc with ⟨rest, hrel, hfree, rfl⟩ | ⟨hrel, -, -, -, rfl⟩
  · refine setSlot (t := { t with released := rest, aliveCount := t.aliveCount + 1 }) h
      (fun hne => by simp [reusing, hrel, hne]) fun heq => ?_
    obtain ⟨g, st, hx, hg⟩ := h
    rw [← heq, hfree] at hx
    obtain ⟨rfl, rfl⟩ := Slot.mk.inj (Option.some.inj hx)
    simp [hg, reusing, hrel, heq, UInt32.ofNat_add, UInt32.add_assoc]
  · obtain ⟨g, st, hx, hg⟩ := h
    have hlt := (Array.getElem?_eq_some_iff.mp hx).1
    refine ⟨g, st, ?_, by simpa [reusing, hrel] using hg⟩
    rw [Array.getElem?_push, if_neg (Nat.ne_of_lt hlt), hx]

theorem beginDestroy (h : t.MovedOn x n) (e : Entity) : (t.beginDestroy e).2.MovedOn x n := by
  unfold Table.beginDestroy
  split
  · rename_i halive
    refine h.setSlot (fun _ => rfl) fun heq => ?_
    obtain ⟨g, st, hx, hg⟩ := h
    rw [← heq, state?_eq_some_iff.mp halive] at hx
    obtain ⟨rfl, rfl⟩ := Slot.mk.inj (Option.some.inj hx)
    exact hg
  · exact h

theorem release (h : t.MovedOn x n) (e : Entity) : (t.release e).2.MovedOn x n := by
  unfold Table.release
  split
  · rename_i halive
    refine setSlot (t := t) h (fun _ => rfl) fun heq => ?_
    obtain ⟨g, st, hx, hg⟩ := h
    obtain ⟨st', hst, hne⟩ := isAlive_iff_exists.mp halive
    rw [← heq, hst] at hx
    obtain ⟨rfl, rfl⟩ := Slot.mk.inj (Option.some.inj hx)
    rw [if_neg hne, UInt32.add_zero] at hg
    simp [Generation.next, hg]
  · exact h

/-- It is live again only after all generations have passed. -/
theorem eq_zero_of_isAlive (h : t.MovedOn x n) (hlt : n < UInt32.size)
    (hx : t.isAlive x = true) : n = 0 := by
  obtain ⟨g, st, hg, hraw⟩ := h
  obtain ⟨st', hst, hne⟩ := isAlive_iff_exists.mp hx
  rw [hst] at hg
  obtain ⟨rfl, rfl⟩ := Slot.mk.inj (Option.some.inj hg)
  rw [if_neg hne, UInt32.add_zero, UInt32.left_eq_add] at hraw
  rw [← UInt32.toNat_ofNat_of_lt' hlt, hraw]
  rfl

/-- It is issued again only for an index that was given up. -/
theorem head?_released (h : t.MovedOn x n) (hwf : t.Wf) (halloc : t.allocate = (.ok x, t')) :
    t.released.head? = some x.index := by
  obtain ⟨g, st, hx, -⟩ := h
  rcases allocate_cases hwf halloc with ⟨rest, hrel, -⟩ | ⟨-, hidx, -⟩
  · rw [hrel]
    rfl
  · exact absurd (Array.getElem?_eq_some_iff.mp hx).1 (hidx ▸ Nat.lt_irrefl _)

end MovedOn

end EntityScene.Entity.Table
