import EntityScene.Proofs.Ledger
import EntityScene.Proofs.Rosters
import EntityScene.Proofs.Departures
import EntityScene.Proofs.Wiring

/-!
# Worlds that keep a ledger

A world keeps a ledger if its table lists the live handles, its catalog the kinds, and its pools
have the values that are entered, for live handles only. Then whoever looks at the world finds
what the ledger says.

- `World.Shows`: what can be asked of a world, and that the ledger answers the same.
- `World.Keeps`: the table, the catalog and the pools are those of the ledger.
- `Keeps.shows`: a world shows the ledger that it keeps.
- `keeps_register`, `keeps_connect`, `keeps_edit`, `keeps_placed`, `keeps_erase`, `keeps_create`,
  `keeps_release`, ..: each edit of a world is an entry in the ledger.
-/

namespace EntityScene

namespace Ledger

variable {K : Type} [ComponentFamily K] [DecidableEq K] {L : Ledger K} {kind other : K}

@[simp] theorem live_enlist (L : Ledger K) (kind : K) : (L.enlist kind).live = L.live := by
  unfold enlist
  split <;> rfl

@[simp] theorem issued_enlist (L : Ledger K) (kind : K) : (L.enlist kind).issued = L.issued := by
  unfold enlist
  split <;> rfl

@[simp] theorem value_enlist (L : Ledger K) (kind : K) : (L.enlist kind).value = L.value := by
  unfold enlist
  split <;> rfl

@[simp] theorem connections_enlist (L : Ledger K) (kind : K) :
    (L.enlist kind).connections = L.connections := by
  unfold enlist
  split <;> rfl

theorem enlist_of_mem (h : kind ∈ L.kinds) : L.enlist kind = L := if_pos h

theorem kinds_enlist_of_not_mem (h : kind ∉ L.kinds) :
    (L.enlist kind).kinds = L.kinds ++ [kind] := by
  rw [enlist, if_neg h]

theorem mem_kinds_enlist (L : Ledger K) (kind : K) : kind ∈ (L.enlist kind).kinds := by
  by_cases h : kind ∈ L.kinds
  · rwa [enlist_of_mem h]
  · simp [kinds_enlist_of_not_mem h]

/-- Kinds that are in use keep their places. -/
theorem prefix_enlist (L : Ledger K) (kind : K) : L.kinds <+: (L.enlist kind).kinds := by
  by_cases h : kind ∈ L.kinds
  · exact ⟨[], by rw [List.append_nil, enlist_of_mem h]⟩
  · rw [kinds_enlist_of_not_mem h]
    exact List.prefix_append _ _

/-- A value is entered or crossed out, and no other. -/
theorem value_assign (L : Ledger K) (kind other : K) (e x : Entity) (v : Option (Value other)) :
    (L.assign other e v).value kind x =
      if h : kind = other ∧ x = e then h.1 ▸ v else L.value kind x := by
  by_cases hk : kind = other
  · subst hk
    by_cases hx : x = e
    · subst hx
      simp
    · rw [value_assign_of_ne L kind hx, dif_neg fun h => hx h.2]
  · rw [value_assign_of_ne_kind L hk, dif_neg fun h => hk h.1]

end Ledger

namespace World

variable {K : Type} [ComponentFamily K] [DecidableEq K] {w w' : World K} {L L' : Ledger K}
variable {kind : K} {id : ComponentId} {e x : Entity}

/-- Whoever asks a world is answered as the ledger says. -/
structure Shows (w : World K) (L : Ledger K) : Prop where
  handles : w.handles = L.live
  idOf? : ∀ {kind : K} {id : ComponentId}, w.idOf? kind = some id ↔ L.kinds[id]? = some kind
  get? : ∀ (kind : K) (x : Entity), w.get? kind x = L.value kind x

/-- The table, the catalog and the pools are those of the ledger, and only live handles have
values. -/
structure Keeps (w : World K) (L : Ledger K) : Prop where
  wf : w.Wf
  handles : w.handles = L.live
  kinds : w.catalog.kinds.toList = L.kinds
  stored? : ∀ (kind : K) (x : Entity), w.stored? kind x = L.value kind x
  owned : ∀ {kind : K} {x : Entity}, (L.value kind x).isSome → x ∈ L.live
  removing : w.removing = []

namespace Keeps

theorem isValid_iff (h : w.Keeps L) (x : Entity) : w.isValid x = true ↔ x ∈ L.live := by
  rw [← h.handles]
  exact (Entity.Table.mem_toList_iff h.wf.table).symm

theorem get? (h : w.Keeps L) (kind : K) (x : Entity) : w.get? kind x = L.value kind x := by
  rw [get?_eq_stored?, h.stored?]
  split
  · rfl
  · rename_i hvalid
    by_contra hne
    exact hvalid ((h.isValid_iff x).mpr (h.owned (Option.isSome_iff_ne_none.mpr (Ne.symm hne))))

theorem idOf?_iff (h : w.Keeps L) : w.idOf? kind = some id ↔ L.kinds[id]? = some kind := by
  rw [← h.kinds, Array.getElem?_toList]
  exact h.wf.catalog.idOf?_iff

theorem shows (h : w.Keeps L) : w.Shows L :=
  { handles := h.handles
    idOf? := h.idOf?_iff
    get? := h.get? }

/-- A kind that is not in use has no number. -/
theorem idOf?_eq_none_iff (h : w.Keeps L) : w.idOf? kind = none ↔ kind ∉ L.kinds := by
  rw [← not_iff_not, not_not, List.mem_iff_getElem?, ← Ne, Option.ne_none_iff_exists']
  exact exists_congr fun _ => h.idOf?_iff

theorem size_pools (h : w.Keeps L) : w.pools.size = L.kinds.length := by
  rw [h.wf.size_pools, ← h.kinds, Array.length_toList]
  rfl

theorem nodup_kinds (h : w.Keeps L) : L.kinds.Nodup := by
  rw [List.nodup_iff_getElem?_ne_getElem?]
  intro i j hij hj heq
  rw [List.getElem?_eq_getElem hj] at heq
  have hi := h.idOf?_iff.mpr heq
  rw [h.idOf?_iff.mpr (List.getElem?_eq_getElem hj)] at hi
  exact Nat.ne_of_lt hij (Option.some.inj hi).symm

/-- A row is an entry. -/
theorem holds (h : w.Keeps L) (hid : w.idOf? kind = some id) (x : Entity) :
    w.holds id x = (L.value kind x).isSome := by
  rw [h.wf.holds_eq_isSome hid, h.stored?]

/-- An index has one live handle. -/
theorem eq_of_index (h : w.Keeps L) (he : e ∈ L.live) (hx : x ∈ L.live)
    (hindex : x.index = e.index) : x = e := by
  rw [← h.handles] at he hx
  exact Entity.Table.eq_of_mem_toList h.wf.table he hx hindex

/-- Only kinds in use have values. -/
theorem mem_kinds (h : w.Keeps L) (hv : (L.value kind x).isSome) : kind ∈ L.kinds := by
  by_contra hnot
  rw [← h.stored?, stored?_of_idOf?_eq_none (h.idOf?_eq_none_iff.mpr hnot)] at hv
  cases hv

theorem exists_idOf? (h : w.Keeps L) (hv : (L.value kind x).isSome) :
    ∃ id, w.idOf? kind = some id := by
  obtain ⟨id, hid⟩ := List.mem_iff_getElem?.mp (h.mem_kinds hv)
  exact ⟨id, h.idOf?_iff.mpr hid⟩

/-- The entity without values is the one that no pool has a row for. -/
theorem isOrphan (h : w.Keeps L) (e : Entity) : w.isOrphan e = L.isOrphan e := by
  have hpool : ∀ (id : ComponentId) (hid : id < w.pools.size) (hid' : id < L.kinds.length),
      w.pools[id].storage.contains e = (L.value L.kinds[id] e).isSome := by
    intro id hid hid'
    rw [← h.holds (h.idOf?_iff.mpr (List.getElem?_eq_getElem hid')),
      holds_of_pool (Array.getElem?_eq_getElem hid)]
    rfl
  have hvalid : w.isValid e = decide (e ∈ L.live) := by
    rw [Bool.eq_iff_iff, h.isValid_iff, decide_eq_true_iff]
  rw [World.isOrphan, Ledger.isOrphan, hvalid]
  congr 1
  rw [Bool.eq_iff_iff, Array.all_eq_true, List.all_eq_true]
  constructor
  · intro hall kind hkind
    obtain ⟨id, hid, rfl⟩ := List.mem_iff_getElem.mp hkind
    have hrow := hall id (h.size_pools ▸ hid)
    rw [hpool id (h.size_pools ▸ hid) hid, Bool.not_eq_true', Option.isSome_eq_false_iff] at hrow
    exact hrow
  · intro hall id hid
    have hid' : id < L.kinds.length := h.size_pools ▸ hid
    rw [hpool id hid hid', Bool.not_eq_true', Option.isSome_eq_false_iff]
    exact hall _ (List.getElem_mem hid')

theorem entityAt? (h : w.Keeps L) (index : UInt32) : w.entityAt? index = L.entityAt? index := by
  rw [World.entityAt?, Entity.Table.current?_eq_find? h.wf.table, Ledger.entityAt?, ← h.handles]
  rfl

end Keeps

/-! ## Nothing is entered yet -/

theorem keeps_empty : (empty : World K).Keeps .empty := by
  refine
    { wf := wf_empty
      handles := rfl
      kinds := rfl
      stored? := fun kind x => ?_
      owned := fun hv => by cases hv
      removing := rfl }
  exact stored?_of_idOf?_eq_none (by simp [World.idOf?, Catalog.idOf?, empty, Catalog.empty]) x

/-! ## Kinds -/

/-- Edits that move no row and change no value are entered if the kinds are. -/
theorem Keeps.of_undisturbed (h : w.Keeps L) (hworld : Undisturbed (fun _ => True) w w')
    (hkinds : w'.catalog.kinds.toList = L'.kinds) (hlive : L'.live = L.live)
    (hvalue : L'.value = L.value) : w'.Keeps L' := by
  refine
    { wf := hworld.wf
      handles := ?_
      kinds := hkinds
      stored? := fun kind x => by rw [hworld.stored? trivial, h.stored?, hvalue]
      owned := fun hv => by
        rw [hvalue] at hv
        rw [hlive]
        exact h.owned hv
      removing := hworld.removing.trans h.removing }
  rw [World.handles, hworld.entities, hlive]
  exact h.handles

/-- The kinds after a registration are those of the ledger. -/
theorem Keeps.kinds_register (h : w.Keeps L) (kind : K) :
    (w.register kind).2.catalog.kinds.toList = (L.enlist kind).kinds := by
  rcases register_cases h.wf.paired kind with ⟨id, hid, hr⟩ | ⟨hid, hr⟩
  · rw [hr, Ledger.enlist_of_mem (List.mem_of_getElem? (h.idOf?_iff.mp hid))]
    exact h.kinds
  · rw [hr, Ledger.kinds_enlist_of_not_mem (h.idOf?_eq_none_iff.mp hid), ← h.kinds]
    exact Array.toList_push

theorem keeps_register (h : w.Keeps L) (kind : K) : (w.register kind).2.Keeps (L.enlist kind) :=
  h.of_undisturbed (undisturbed_register h.wf kind) (h.kinds_register kind) (by simp) (by simp)

/-- A registration answers the place of the kind among those in use. -/
theorem Keeps.register_fst (h : w.Keeps L) (kind : K) :
    (w.register kind).1 = (L.enlist kind).kinds.idxOf kind := by
  have hkeeps := keeps_register h kind
  have hkind := hkeeps.idOf?_iff.mp (idOf?_register_self w kind)
  obtain ⟨hlt, hself⟩ := List.getElem?_eq_some_iff.mp hkind
  have hidx := hkeeps.nodup_kinds.idxOf_getElem _ hlt
  rw [hself] at hidx
  exact hidx.symm

theorem keeps_connect (h : w.Keeps L) (kind : K) (event : LifeEvent) :
    (w.connect kind event).2.Keeps (L.connect kind event) :=
  h.of_undisturbed (undisturbed_connect h.wf kind event) (h.kinds_register kind)
    (L.live_enlist kind) (L.value_enlist kind)

/-! ## Values -/

theorem keeps_erase (h : w.Keeps L) (hid : w.idOf? kind = some id) (e : Entity) :
    (w.erase id e).Keeps (L.assign kind e none) := by
  refine
    { wf := wf_erase h.wf id e
      handles := h.handles
      kinds := h.kinds
      stored? := fun other x => ?_
      owned := fun {other x} hv => ?_
      removing := h.removing }
  · rw [stored?_erase h.wf, Ledger.value_assign, h.stored?]
    by_cases hother : other = kind
    · subst hother
      simp [hid]
    · rw [if_neg fun hc => hother (eq_of_idOf? hc.1 hid), dif_neg fun hc => hother hc.1]
  · rw [Ledger.value_assign] at hv
    split at hv
    · rename_i hc
      obtain ⟨rfl, rfl⟩ := hc
      cases hv
    · exact h.owned hv

theorem keeps_edit (h : w.Keeps L) {v : Value kind} (hv : L.value kind e = some v)
    (f : Value kind → Value kind) : (w.edit kind e f).Keeps (L.assign kind e (some (f v))) := by
  have hworld : Undisturbed (· ≠ kind) w (w.edit kind e f) := undisturbed_edit h.wf (not_not.mpr rfl)
  have hvalid : w.isValid e = true := (h.isValid_iff e).mpr (h.owned (Option.isSome_of_eq_some hv))
  refine
    { wf := hworld.wf
      handles := by
        rw [World.handles, hworld.entities]
        exact h.handles
      kinds := by
        rw [(tuned_edit w kind e f).catalog]
        exact h.kinds
      stored? := fun other x => ?_
      owned := fun {other x} hx => ?_
      removing := hworld.removing.trans h.removing }
  · by_cases hother : other = kind
    · subst hother
      rw [World.edit, if_pos hvalid, stored?_modify, h.stored?, h.stored?]
      split
      · rename_i hx
        rw [hx, Ledger.value_assign_self, hv]
        rfl
      · rename_i hx
        rw [Ledger.value_assign_of_ne L other hx]
    · rw [hworld.stored? hother, Ledger.value_assign_of_ne_kind L hother, h.stored?]
  · rw [Ledger.value_assign] at hx
    split at hx
    · rename_i hc
      rw [hc.2]
      exact h.owned (Option.isSome_of_eq_some hv)
    · exact h.owned hx

/-- A placement takes the kind into use, and no other. -/
theorem catalog_place (w : World K) (kind : K) (e : Entity) (make : Except Abort (Value kind)) :
    (w.place kind e make).2.catalog = (w.register kind).2.catalog := by
  unfold place
  simp only
  split
  · rfl
  · unfold updateStorage
    split <;> rfl

/-- A new component is entered, and its kind with it. -/
theorem keeps_placed (h : w.Keeps L) (he : e ∈ L.live) {v : Value kind}
    (hplaced : Placed w kind id e v w') (hcatalog : w'.catalog = (w.register kind).2.catalog) :
    w'.Keeps ((L.enlist kind).assign kind e (some v)) := by
  refine
    { wf := hplaced.wf
      handles := by
        rw [World.handles, hplaced.entities]
        exact h.handles.trans (L.live_enlist kind).symm
      kinds := by
        rw [hcatalog]
        exact h.kinds_register kind
      stored? := fun other x => ?_
      owned := fun {other x} hx => ?_
      removing := hplaced.removing.trans h.removing }
  · by_cases hother : other = kind
    · subst hother
      rw [hplaced.stored?_self]
      split
      · rename_i hx
        rw [hx, Ledger.value_assign_self]
      · rename_i hx
        rw [Ledger.value_assign_of_ne _ _ hx, Ledger.value_enlist]
        split
        · -- a value of another generation would be that of a live handle
          rename_i hindex
          by_contra hne
          exact hx (h.eq_of_index he (h.owned (Option.isSome_iff_ne_none.mpr (Ne.symm hne))) hindex)
        · exact h.stored? other x
    · rw [hplaced.stored?_other hother, Ledger.value_assign_of_ne_kind _ hother, Ledger.value_enlist,
        h.stored?]
  · rw [Ledger.value_assign] at hx
    show x ∈ (L.enlist kind).live
    rw [Ledger.live_enlist]
    split at hx
    · rename_i hc
      exact hc.2 ▸ he
    · rw [Ledger.value_enlist] at hx
      exact h.owned hx

/-! ## Handles -/

/-- A change of the handles alone is entered if no value is left behind. -/
theorem Keeps.of_table (h : w.Keeps L) {entities : Entity.Table} {issued live : List Entity}
    (hwf : entities.Wf) (hlist : entities.toList = live)
    (howned : ∀ {kind : K} {x : Entity}, (L.value kind x).isSome → x ∈ live) :
    World.Keeps { w with entities } { L with issued, live } :=
  { wf := { h.wf with table := hwf }
    handles := hlist
    kinds := h.kinds
    stored? := h.stored?
    owned := howned
    removing := h.removing }

theorem keeps_create (h : w.Keeps L) {entities : Entity.Table}
    (halloc : w.entities.allocate = (.ok e, entities)) :
    World.Keeps { w with entities } (L.enter e) := by
  refine h.of_table (Entity.Table.wf_allocate h.wf.table halloc) ?_ fun hv => ?_
  · rw [Entity.Table.toList_allocate h.wf.table halloc]
    exact congrArg _ h.handles
  · exact (List.mem_orderedInsert _).mpr (.inr (h.owned hv))

theorem keeps_beginDestroy (h : w.Keeps L) (e : Entity) : (w.beginDestroy e).Keeps L :=
  h.of_table (Entity.Table.wf_beginDestroy h.wf.table e)
    ((Entity.Table.toList_beginDestroy h.wf.table e).trans h.handles) h.owned

/-- An entity without values is given up. -/
theorem keeps_release (h : w.Keeps L) (he : e ∈ L.live) (hbare : ∀ kind, L.value kind e = none) :
    (w.release e).Keeps { L with live := L.live.erase e } := by
  have hvalid := (h.isValid_iff e).mpr he
  refine h.of_table (Entity.Table.wf_release h.wf.table e) ?_ fun {kind x} hv => ?_
  · rw [Entity.Table.toList_release h.wf.table hvalid]
    exact congrArg (List.erase · e) h.handles
  · refine (List.mem_erase_of_ne fun hx => ?_).mpr (h.owned hv)
    rw [hx, hbare] at hv
    cases hv

end World

end EntityScene
