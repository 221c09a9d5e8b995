import Mathlib.Data.List.Basic
import EntityScene.World
import EntityScene.Proofs.Handles
import EntityScene.Proofs.Rows

/-!
# What the pools of a world say

A world in order has one pool for each kind in use, at the number of the kind, and
every storage is a sparse set in order. Such a world is known by its handles, by
`World.holds`, which asks for a row by number, and by `World.stored?`, which asks for
a value by kind.

- `World.Wf`: the catalog, the pools and the storages agree.
- `World.stored?`: the value in storage, whatever the handle is good for.
  `World.get?` is this for valid handles.
- `World.Extended`: kinds were taken into use, and nothing else happened.
- `wf_register`, `wf_updateStorage`, `wf_erase`: kept by the edits.
- `stored?_*` and `holds_*`: what each edit does, one equation a piece.
-/

namespace EntityScene

/-! ## Catalogs -/

namespace Catalog

variable {K : Type} [DecidableEq K] {c : Catalog K}

/-- No kind has two numbers. -/
def Wf (c : Catalog K) : Prop :=
  ∀ (i j : Nat) (kind : K), c.kinds[i]? = some kind → c.kinds[j]? = some kind → i = j

/-- The number of a kind is where it stands. -/
theorem Wf.idOf?_iff (h : c.Wf) {kind : K} {id : ComponentId} :
    c.idOf? kind = some id ↔ c.kinds[id]? = some kind := by
  constructor
  · exact getElem?_of_idOf?
  · intro hk
    cases hid : c.idOf? kind with
    | some j => rw [h _ _ _ (getElem?_of_idOf? hid) hk]
    | none =>
      have hnone := Array.findIdx?_eq_none_iff.mp hid kind (Array.mem_of_getElem? hk)
      simp at hnone

theorem not_mem_of_idOf? {kind : K} (h : c.idOf? kind = none) {id : Nat} :
    c.kinds[id]? ≠ some kind := by
  intro hk
  have hnone := Array.findIdx?_eq_none_iff.mp h kind (Array.mem_of_getElem? hk)
  simp at hnone

theorem wf_register (h : c.Wf) (kind : K) : (c.register kind).2.Wf := by
  cases hid : c.idOf? kind with
  | some id =>
    rw [register_of_idOf? hid]
    exact h
  | none =>
    rw [register_of_idOf?_eq_none hid]
    intro i j k hi hj
    simp only [Array.getElem?_push] at hi hj
    split at hi
    · split at hj
      · omega
      · cases hi
        exact absurd hj (not_mem_of_idOf? hid)
    · split at hj
      · cases hj
        exact absurd hi (not_mem_of_idOf? hid)
      · exact h i j k hi hj

end Catalog

/-! ## Storages and their kinds -/

namespace Storage

variable {K : Type} [ComponentFamily K] [DecidableEq K] {s : Storage K} {kind : K} {e : Entity}

/-- What a typed edit does to the typed view. -/
theorem asKind?_update (s : Storage K) (kind : K)
    (f : SparseSet (Value kind) → SparseSet (Value kind)) :
    (s.update kind f).asKind? kind = (s.asKind? kind).map f := by
  obtain ⟨kind', set⟩ := s
  by_cases hkind : kind' = kind
  · subst hkind
    rw [update_self, asKind?_self, asKind?_self, Option.map_some]
  · rw [update_of_ne hkind, asKind?_of_ne hkind, Option.map_none]

theorem get?_of_not_contains {set : SparseSet (Value kind)} (hset : s.asKind? kind = some set)
    (h : s.contains e = false) : set.get? e = none := by
  obtain ⟨kind', set'⟩ := s
  by_cases hkind : kind' = kind
  · subst hkind
    rw [asKind?_self] at hset
    obtain rfl := Option.some.inj hset
    exact SparseSet.get?_of_not_contains h
  · rw [asKind?_of_ne hkind] at hset
    cases hset

theorem update_modify_of_not_contains (h : s.contains e = false)
    (f : Value kind → Value kind) : s.update kind (·.modify e f) = s := by
  obtain ⟨kind', set⟩ := s
  by_cases hkind : kind' = kind
  · subst hkind
    rw [update_self]
    exact congrArg (Storage.mk kind') (SparseSet.modify_of_not_contains h f)
  · exact update_of_ne hkind _

end Storage

namespace World

variable {K : Type} [ComponentFamily K] [DecidableEq K] {w w' w'' : World K}

/-- The value that a storage has for a handle, valid or not. -/
def stored? (w : World K) (kind : K) (e : Entity) : Option (Value kind) :=
  (w.storage? kind).bind (·.get? e)

theorem get?_eq_stored? (w : World K) (kind : K) (e : Entity) :
    w.get? kind e = if w.isValid e then w.stored? kind e else none := rfl

theorem get?_of_isValid {kind : K} {e : Entity} (h : w.isValid e = true) :
    w.get? kind e = w.stored? kind e := by
  rw [get?_eq_stored?, if_pos h]

/-! ## Well-formed worlds -/

/-- There is a pool for each kind in use. -/
def Paired (w : World K) : Prop := w.pools.size = w.catalog.size

/-- The table, the catalog, the pools and the storages of a world are in order. -/
structure Wf (w : World K) : Prop where
  table : w.entities.Wf
  catalog : w.catalog.Wf
  size_pools : w.pools.size = w.catalog.size
  kind_pool : ∀ (id : ComponentId) (pool : Pool K),
    w.pools[id]? = some pool → w.catalog.kinds[id]? = some pool.storage.kind
  sets : ∀ (id : ComponentId) (pool : Pool K), w.pools[id]? = some pool → pool.storage.set.Wf

omit [DecidableEq K] in
theorem wf_empty : (empty : World K).Wf :=
  { table := Entity.Table.wf_empty
    catalog := fun i j kind hi => by simp [empty, Catalog.empty] at hi
    size_pools := rfl
    kind_pool := fun id pool h => by simp [empty] at h
    sets := fun id pool h => by simp [empty] at h }

omit [DecidableEq K] in
theorem Wf.paired (h : w.Wf) : w.Paired := h.size_pools

/-- The pool of a kind in use holds a set of that kind. -/
theorem Wf.exists_pool (h : w.Wf) {kind : K} {id : ComponentId} (hid : w.idOf? kind = some id) :
    ∃ set signals, w.pools[id]? = some ⟨⟨kind, set⟩, signals⟩ ∧ set.Wf := by
  have hlt : id < w.pools.size := by
    rw [h.size_pools]
    exact Catalog.lt_size_of_idOf? hid
  have hpool := Array.getElem?_eq_getElem hlt
  generalize w.pools[id] = pool at hpool
  obtain ⟨⟨kind', set⟩, signals⟩ := pool
  have hkind := h.kind_pool id _ hpool
  rw [Catalog.getElem?_of_idOf? hid] at hkind
  obtain rfl : kind = kind' := Option.some.inj hkind
  exact ⟨set, signals, hpool, h.sets id _ hpool⟩

/-- The kind of a pool has the number of the pool. -/
theorem Wf.idOf?_pool (h : w.Wf) {id : ComponentId} {pool : Pool K}
    (hpool : w.pools[id]? = some pool) : w.idOf? pool.storage.kind = some id :=
  h.catalog.idOf?_iff.mpr (h.kind_pool id pool hpool)

theorem storage?_of_pool {kind : K} {id : ComponentId} {set : SparseSet (Value kind)}
    {signals : Signals} (hid : w.idOf? kind = some id)
    (hpool : w.pools[id]? = some ⟨⟨kind, set⟩, signals⟩) : w.storage? kind = some set := by
  simp [storage?, hid, hpool]

theorem storage?_eq_none {kind : K} (hid : w.idOf? kind = none) : w.storage? kind = none := by
  simp [storage?, hid]

/-- A storage is that of a pool of its kind. -/
theorem Wf.exists_pool_of_storage? (h : w.Wf) {kind : K} {set : SparseSet (Value kind)}
    (hs : w.storage? kind = some set) :
    ∃ id signals, w.idOf? kind = some id ∧ w.pools[id]? = some ⟨⟨kind, set⟩, signals⟩ ∧
      set.Wf := by
  cases hid : w.idOf? kind with
  | none =>
    rw [storage?_eq_none hid] at hs
    cases hs
  | some id =>
    obtain ⟨set', signals, hpool, hset⟩ := h.exists_pool hid
    rw [storage?_of_pool hid hpool] at hs
    obtain rfl := Option.some.inj hs
    exact ⟨id, signals, rfl, hpool, hset⟩

theorem stored?_of_pool {kind : K} {id : ComponentId} {set : SparseSet (Value kind)}
    {signals : Signals} (hid : w.idOf? kind = some id)
    (hpool : w.pools[id]? = some ⟨⟨kind, set⟩, signals⟩) (e : Entity) :
    w.stored? kind e = set.get? e := by
  simp [stored?, storage?_of_pool hid hpool]

theorem stored?_of_idOf?_eq_none {kind : K} (hid : w.idOf? kind = none) (e : Entity) :
    w.stored? kind e = none := by
  simp [stored?, storage?_eq_none hid]

/-- What is found is of a kind in use. -/
theorem exists_idOf?_of_get? {kind : K} {e : Entity} (h : (w.get? kind e).isSome) :
    ∃ id, w.idOf? kind = some id := by
  cases hid : w.idOf? kind with
  | none =>
    rw [get?_eq_stored?, stored?_of_idOf?_eq_none hid, ite_self] at h
    cases h
  | some id => exact ⟨id, rfl⟩

omit [DecidableEq K] in
theorem holds_of_pool {id : ComponentId} {pool : Pool K} (hpool : w.pools[id]? = some pool)
    (e : Entity) : w.holds id e = pool.storage.set.contains e := by
  simp [holds, hpool, Storage.contains]

/-- A row by number is a value by kind. -/
theorem Wf.holds_eq_isSome (h : w.Wf) {kind : K} {id : ComponentId}
    (hid : w.idOf? kind = some id) (e : Entity) :
    w.holds id e = (w.stored? kind e).isSome := by
  obtain ⟨set, signals, hpool, hset⟩ := h.exists_pool hid
  rw [holds_of_pool hpool, stored?_of_pool hid hpool, hset.contains_eq_isSome]

theorem Wf.exists_holds_of_stored? (h : w.Wf) {kind : K} {e : Entity} {v : Value kind}
    (hv : w.stored? kind e = some v) : ∃ id, w.holds id e = true := by
  cases hid : w.idOf? kind with
  | none =>
    rw [stored?_of_idOf?_eq_none hid] at hv
    cases hv
  | some id =>
    refine ⟨id, ?_⟩
    rw [h.holds_eq_isSome hid, hv]
    rfl

omit [DecidableEq K] in
theorem lt_size_of_holds {id : ComponentId} {e : Entity} (h : w.holds id e = true) :
    id < w.pools.size := by
  by_contra hge
  simp [holds, Array.getElem?_eq_none (Nat.not_lt.mp hge)] at h

omit [DecidableEq K] in
/-- The rows of a storage are those that it is asked for. -/
theorem Wf.holds_iff_mem (h : w.Wf) {id : ComponentId} {pool : Pool K}
    (hpool : w.pools[id]? = some pool) (e : Entity) :
    w.holds id e = true ↔ e ∈ pool.storage.entities := by
  rw [holds_of_pool hpool, (h.sets id pool hpool).contains_iff_mem]
  rfl

/-! ## Editing one storage -/

section Update

variable {id : ComponentId} {f : Storage K → Storage K}

omit [DecidableEq K] in
theorem getElem?_updatePool (w : World K) (id : ComponentId) (f : Storage K → Storage K)
    (j : ComponentId) :
    (w.updatePool id f).pools[j]? =
      if id = j then w.pools[j]?.map fun pool => { pool with storage := f pool.storage }
      else w.pools[j]? := by
  simp [updatePool, Array.getElem?_modify]

omit [DecidableEq K] in
/-- An edit that changes nothing of the storage. -/
theorem updatePool_eq_self
    (hf : ∀ pool, w.pools[id]? = some pool → f pool.storage = pool.storage) :
    w.updatePool id f = w := by
  have hpools : w.pools.modify id (fun pool => { pool with storage := f pool.storage }) =
      w.pools := by
    refine Array.ext_getElem? fun j => ?_
    rw [Array.getElem?_modify]
    split
    · rename_i hj
      cases hpool : w.pools[j]? with
      | none => rfl
      | some pool => rw [Option.map_some, hf pool (hj ▸ hpool)]
    · rfl
  rw [updatePool, hpools]

omit [DecidableEq K] in
/-- An edit that keeps the kind and leaves a set in order keeps a world in order. -/
theorem wf_updatePool (h : w.Wf)
    (hf : ∀ pool, w.pools[id]? = some pool →
      (f pool.storage).kind = pool.storage.kind ∧ (f pool.storage).set.Wf) :
    (w.updatePool id f).Wf := by
  refine
    { table := h.table
      catalog := h.catalog
      size_pools := by simp only [updatePool, Array.size_modify, h.size_pools]
      kind_pool := fun j pool hj => ?_
      sets := fun j pool hj => ?_ }
  · rw [getElem?_updatePool] at hj
    split at hj
    · rename_i hij
      obtain ⟨old, hold, rfl⟩ := Option.map_eq_some_iff.mp hj
      show w.catalog.kinds[j]? = some (f old.storage).kind
      rw [(hf old (hij ▸ hold)).1]
      exact h.kind_pool j old hold
    · exact h.kind_pool j pool hj
  · rw [getElem?_updatePool] at hj
    split at hj
    · rename_i hij
      obtain ⟨old, hold, rfl⟩ := Option.map_eq_some_iff.mp hj
      exact (hf old (hij ▸ hold)).2
    · exact h.sets j pool hj

theorem idOf?_updatePool (w : World K) (id : ComponentId) (f : Storage K → Storage K) (kind : K) :
    (w.updatePool id f).idOf? kind = w.idOf? kind := rfl

/-- An edit of another pool is not noticed. -/
theorem storage?_updatePool_of_ne {kind : K} (hid : w.idOf? kind ≠ some id) :
    (w.updatePool id f).storage? kind = w.storage? kind := by
  cases hk : w.idOf? kind with
  | none => rw [storage?_eq_none hk, storage?_eq_none (w := w.updatePool id f) hk]
  | some j =>
    have hne : id ≠ j := fun h => hid (by rw [hk, h])
    simp [storage?, idOf?_updatePool, hk, getElem?_updatePool, hne]

theorem stored?_updatePool_of_ne {kind : K} (hid : w.idOf? kind ≠ some id) (x : Entity) :
    (w.updatePool id f).stored? kind x = w.stored? kind x := by
  rw [stored?, storage?_updatePool_of_ne hid, stored?]

omit [DecidableEq K] in
theorem holds_updatePool_of_ne {j : ComponentId} (hj : id ≠ j) (x : Entity) :
    (w.updatePool id f).holds j x = w.holds j x := by
  simp [holds, getElem?_updatePool, hj]

end Update

/-! ## Taking a kind into use -/

/-- The world after its registration knows the kind by the answered number. -/
theorem idOf?_register_self (w : World K) (kind : K) :
    (w.register kind).2.idOf? kind = some (w.register kind).1 :=
  Catalog.idOf?_register_self w.catalog kind

theorem idOf?_register_of_idOf? {kind other : K} {id : ComponentId}
    (h : w.idOf? other = some id) : (w.register kind).2.idOf? other = some id :=
  Catalog.idOf?_register_of_idOf? h

/-- A number is that of one kind. -/
theorem eq_of_idOf? {kind other : K} {id : ComponentId} (h : w.idOf? kind = some id)
    (h' : w.idOf? other = some id) : kind = other := by
  have hk := Catalog.getElem?_of_idOf? h
  rw [Catalog.getElem?_of_idOf? h'] at hk
  exact (Option.some.inj hk).symm

/-- A registration leaves the world as it is, or adds an empty pool at its end. -/
theorem register_cases (h : w.Paired) (kind : K) :
    (∃ id, w.idOf? kind = some id ∧ w.register kind = (id, w)) ∨
      (w.idOf? kind = none ∧
        w.register kind = (w.pools.size,
          { w with
            catalog := { kinds := w.catalog.kinds.push kind }
            pools := w.pools.push { storage := .empty kind } })) := by
  cases hid : w.catalog.idOf? kind with
  | some id =>
    have hlt : id < w.pools.size := by
      rw [h]
      exact Catalog.lt_size_of_idOf? hid
    refine .inl ⟨id, hid, ?_⟩
    simp only [register, Catalog.register_of_idOf? hid]
    rw [if_neg (Nat.ne_of_lt hlt)]
  | none =>
    refine .inr ⟨hid, ?_⟩
    have hsize : w.catalog.kinds.size = w.pools.size := h.symm
    simp only [register, Catalog.register_of_idOf?_eq_none hid]
    rw [if_pos hsize, hsize]

theorem wf_register (h : w.Wf) (kind : K) : (w.register kind).2.Wf := by
  rcases register_cases h.paired kind with ⟨id, -, hr⟩ | ⟨hid, hr⟩
  · rw [hr]
    exact h
  · have hcat := Catalog.wf_register h.catalog kind
    rw [Catalog.register_of_idOf?_eq_none hid] at hcat
    rw [hr]
    refine
      { table := h.table
        catalog := hcat
        size_pools := ?_
        kind_pool := fun j pool hj => ?_
        sets := fun j pool hj => ?_ }
    · have hsize := h.size_pools
      simp only [Catalog.size] at hsize ⊢
      rw [Array.size_push, Array.size_push, hsize]
    · have hsize : w.pools.size = w.catalog.kinds.size := h.size_pools
      simp only [Array.getElem?_push] at hj ⊢
      rw [hsize] at hj
      split at hj
      · rename_i hjs
        cases hj
        rw [if_pos hjs]
        rfl
      · rename_i hjs
        rw [if_neg hjs]
        exact h.kind_pool j pool hj
    · simp only [Array.getElem?_push] at hj
      split at hj
      · cases hj
        exact SparseSet.wf_empty
      · exact h.sets j pool hj

/-- A new pool has no rows. -/
theorem holds_register (h : w.Wf) (kind : K) (j : ComponentId) (x : Entity) :
    (w.register kind).2.holds j x = w.holds j x := by
  rcases register_cases h.paired kind with ⟨id, -, hr⟩ | ⟨-, hr⟩
  · rw [hr]
  · rw [hr]
    simp only [holds, Array.getElem?_push]
    split
    · rename_i hj
      rw [Array.getElem?_eq_none (by omega)]
      simp [Storage.contains, Storage.empty, SparseSet.contains]
    · rfl

/-- A registration leaves every storage as it is, or makes an empty one. -/
theorem storage?_register (h : w.Paired) (kind other : K) :
    (w.register kind).2.storage? other = w.storage? other ∨
      (w.storage? other = none ∧ (w.register kind).2.storage? other = some .empty) := by
  rcases register_cases h kind with ⟨id, -, hr⟩ | ⟨hid, hr⟩
  · rw [hr]
    exact .inl rfl
  · cases ho : w.idOf? other with
    | some j =>
      have hlt : j < w.pools.size := by
        rw [h]
        exact Catalog.lt_size_of_idOf? ho
      have hpool : (w.register kind).2.pools[j]? = w.pools[j]? := by
        rw [hr]
        simp only [Array.getElem?_push]
        rw [if_neg (Nat.ne_of_lt hlt)]
      refine .inl ?_
      rw [storage?, idOf?_register_of_idOf? ho, Option.bind_eq_bind, Option.bind_some, hpool,
        storage?, ho]
      rfl
    | none =>
      rw [storage?_eq_none ho]
      by_cases hko : other = kind
      · have hpool : (w.register kind).2.pools[w.pools.size]? =
            some ⟨⟨kind, .empty⟩, .empty⟩ := by
          rw [hr]
          exact Array.getElem?_push_size
        have hself := idOf?_register_self w kind
        exact .inr ⟨rfl, by rw [hko, storage?_of_pool (by rw [hself, hr]) hpool]⟩
      · refine .inl (storage?_eq_none ?_)
        cases hn : (w.register kind).2.idOf? other with
        | none => rfl
        | some j =>
          have hk := Catalog.getElem?_of_idOf? hn
          rw [hr] at hk
          simp only [Array.getElem?_push] at hk
          split at hk
          · cases hk
            exact absurd rfl hko
          · exact absurd hk (Catalog.not_mem_of_idOf? ho)

theorem stored?_register (h : w.Paired) (kind other : K) (x : Entity) :
    (w.register kind).2.stored? other x = w.stored? other x := by
  rw [stored?, stored?]
  rcases storage?_register h kind other with hs | ⟨hnone, hs⟩
  · rw [hs]
  · rw [hs, hnone, Option.bind_some, SparseSet.get?_empty, Option.bind_none]

theorem rows_register (h : w.Paired) (kind other : K) :
    (w.register kind).2.rows other = w.rows other := by
  rw [rows, rows]
  rcases storage?_register h kind other with hs | ⟨hnone, hs⟩
  · rw [hs]
  · rw [hs, hnone]
    rfl

/-! ## Taking several kinds into use -/

/-- Kinds were taken into use, and nothing else happened. -/
structure Extended (w w' : World K) : Prop where
  entities : w'.entities = w.entities
  removing : w'.removing = w.removing
  board : w'.board = w.board
  kinds : ∃ new, w'.catalog.kinds = w.catalog.kinds ++ new
  pools : ∃ new : Array K,
    w'.pools = w.pools ++ new.map fun kind => ({ storage := .empty kind } : Pool K)

omit [DecidableEq K] in
theorem Extended.refl (w : World K) : w.Extended w :=
  { entities := rfl
    removing := rfl
    board := rfl
    kinds := ⟨#[], Array.append_empty.symm⟩
    pools := ⟨#[], by rw [Array.map_empty, Array.append_empty]⟩ }

omit [DecidableEq K] in
theorem Extended.trans (h : w.Extended w') (h' : w'.Extended w'') : w.Extended w'' := by
  obtain ⟨kinds, hkinds⟩ := h.kinds
  obtain ⟨kinds', hkinds'⟩ := h'.kinds
  obtain ⟨pools, hpools⟩ := h.pools
  obtain ⟨pools', hpools'⟩ := h'.pools
  exact
    { entities := h'.entities.trans h.entities
      removing := h'.removing.trans h.removing
      board := h'.board.trans h.board
      kinds := ⟨kinds ++ kinds', by rw [hkinds', hkinds, Array.append_assoc]⟩
      pools := ⟨pools ++ pools', by rw [hpools', hpools, Array.map_append, Array.append_assoc]⟩ }

theorem extended_register (w : World K) (kind : K) : w.Extended (w.register kind).2 := by
  refine
    { entities := rfl
      removing := rfl
      board := rfl
      kinds := ?_
      pools := ?_ }
  · show ∃ new, (w.catalog.register kind).2.kinds = _
    cases hid : w.catalog.idOf? kind with
    | some id =>
      rw [Catalog.register_of_idOf? hid]
      exact ⟨#[], Array.append_empty.symm⟩
    | none =>
      rw [Catalog.register_of_idOf?_eq_none hid]
      exact ⟨#[kind], rfl⟩
  · show ∃ new : Array K, (if (w.catalog.register kind).1 = w.pools.size then _ else _) = _
    split
    · exact ⟨#[kind], by simp⟩
    · exact ⟨#[], by rw [Array.map_empty, Array.append_empty]⟩

theorem extended_registerAll (w : World K) (kinds : List K) :
    w.Extended (w.registerAll kinds).2 := by
  induction kinds generalizing w with
  | nil => exact .refl w
  | cons kind kinds ih => exact (extended_register w kind).trans (ih _)

omit [DecidableEq K] in
theorem Extended.getElem?_pools (h : w.Extended w') {id : ComponentId}
    (hid : id < w.pools.size) : w'.pools[id]? = w.pools[id]? := by
  obtain ⟨new, hnew⟩ := h.pools
  rw [hnew, Array.getElem?_append_left hid]

theorem idOf?_registerAll_of_idOf? {kind : K} {id : ComponentId} (hid : w.idOf? kind = some id)
    (kinds : List K) : (w.registerAll kinds).2.idOf? kind = some id := by
  induction kinds generalizing w with
  | nil => exact hid
  | cons other kinds ih => exact ih (idOf?_register_of_idOf? hid)

/-- Each listed kind is in use under the answered number. -/
theorem idOf?_registerAll {kinds : List K} {p : K × ComponentId}
    (hp : p ∈ kinds.zip (w.registerAll kinds).1) :
    (w.registerAll kinds).2.idOf? p.1 = some p.2 := by
  induction kinds generalizing w with
  | nil => cases hp
  | cons kind kinds ih =>
    rcases List.mem_cons.mp hp with rfl | hp
    · exact idOf?_registerAll_of_idOf? (idOf?_register_self w kind) kinds
    · exact ih hp

/-- The number of a kind in use is answered only for that kind. -/
theorem mem_registerAll {kind : K} {id : ComponentId} (hid : w.idOf? kind = some id) (kinds : List K) :
    id ∈ (w.registerAll kinds).1 ↔ kind ∈ kinds := by
  induction kinds generalizing w with
  | nil => simp [registerAll]
  | cons other kinds ih =>
    have hkept : (w.register other).2.idOf? kind = some id := idOf?_register_of_idOf? hid
    have hself := idOf?_register_self w other
    show id ∈ (w.register other).1 :: ((w.register other).2.registerAll kinds).1 ↔ _
    rw [List.mem_cons, List.mem_cons, ih hkept]
    refine or_congr_left ⟨?_, ?_⟩
    · rintro rfl
      exact eq_of_idOf? hkept hself
    · rintro rfl
      exact Option.some.inj (hkept.symm.trans hself)

/-- Numbers are answered twice exactly if kinds are listed twice. -/
theorem nodup_registerAll (w : World K) (kinds : List K) :
    (w.registerAll kinds).1.Nodup ↔ kinds.Nodup := by
  induction kinds generalizing w with
  | nil => simp [registerAll]
  | cons kind kinds ih =>
    show ((w.register kind).1 :: ((w.register kind).2.registerAll kinds).1).Nodup ↔ _
    rw [List.nodup_cons, List.nodup_cons, ih, mem_registerAll (idOf?_register_self w kind)]

theorem length_registerAll (w : World K) (kinds : List K) :
    (w.registerAll kinds).1.length = kinds.length := by
  induction kinds generalizing w with
  | nil => rfl
  | cons kind kinds ih => exact congrArg (· + 1) (ih _)

/-! ## Editing the storage of a kind -/

section UpdateStorage

variable {kind : K} {f : SparseSet (Value kind) → SparseSet (Value kind)}

theorem updateStorage_of_idOf? {id : ComponentId} (hid : w.idOf? kind = some id) :
    w.updateStorage kind f = w.updatePool id (·.update kind f) := by
  simp [updateStorage, hid]

theorem updateStorage_of_idOf?_eq_none (hid : w.idOf? kind = none) :
    w.updateStorage kind f = w := by
  simp [updateStorage, hid]

@[simp] theorem entities_updateStorage : (w.updateStorage kind f).entities = w.entities := by
  unfold updateStorage
  split <;> rfl

@[simp] theorem removing_updateStorage : (w.updateStorage kind f).removing = w.removing := by
  unfold updateStorage
  split <;> rfl

@[simp] theorem idOf?_updateStorage (other : K) :
    (w.updateStorage kind f).idOf? other = w.idOf? other := by
  unfold updateStorage
  split <;> rfl

@[simp] theorem size_pools_updateStorage :
    (w.updateStorage kind f).pools.size = w.pools.size := by
  unfold updateStorage
  split
  · simp [updatePool]
  · rfl

/-- The pool of a kind after an edit of its storage. -/
theorem pool_updateStorage {id : ComponentId} {set : SparseSet (Value kind)} {signals : Signals}
    (hid : w.idOf? kind = some id) (hpool : w.pools[id]? = some ⟨⟨kind, set⟩, signals⟩) :
    (w.updateStorage kind f).pools[id]? = some ⟨⟨kind, f set⟩, signals⟩ := by
  rw [updateStorage_of_idOf? hid, getElem?_updatePool, if_pos rfl, hpool]
  simp

theorem wf_updateStorage (h : w.Wf) (hf : ∀ set, w.storage? kind = some set → (f set).Wf) :
    (w.updateStorage kind f).Wf := by
  cases hid : w.idOf? kind with
  | none =>
    rw [updateStorage_of_idOf?_eq_none hid]
    exact h
  | some id =>
    obtain ⟨set, signals, hpool, -⟩ := h.exists_pool hid
    rw [updateStorage_of_idOf? hid]
    refine wf_updatePool h fun pool hp => ?_
    rw [hpool] at hp
    obtain rfl := Option.some.inj hp
    refine ⟨Storage.kind_update _ _ _, ?_⟩
    show ((Storage.mk kind set).update kind f).set.Wf
    rw [Storage.update_self]
    exact hf set (storage?_of_pool hid hpool)

theorem storage?_updateStorage_self (w : World K) (kind : K)
    (f : SparseSet (Value kind) → SparseSet (Value kind)) :
    (w.updateStorage kind f).storage? kind = (w.storage? kind).map f := by
  cases hid : w.idOf? kind with
  | none =>
    rw [updateStorage_of_idOf?_eq_none hid, storage?_eq_none hid]
    rfl
  | some id =>
    rw [updateStorage_of_idOf? hid, storage?, storage?, idOf?_updatePool, hid]
    show ((w.updatePool id _).pools[id]?.bind fun pool => pool.storage.asKind? kind) =
      (w.pools[id]?.bind fun pool => pool.storage.asKind? kind).map f
    rw [getElem?_updatePool, if_pos rfl]
    cases w.pools[id]? with
    | none => rfl
    | some pool => exact pool.storage.asKind?_update kind f

theorem storage?_updateStorage_of_ne {other : K} (hne : other ≠ kind) :
    (w.updateStorage kind f).storage? other = w.storage? other := by
  cases hid : w.idOf? kind with
  | none => rw [updateStorage_of_idOf?_eq_none hid]
  | some id =>
    rw [updateStorage_of_idOf? hid]
    refine storage?_updatePool_of_ne fun ho => hne ?_
    have hk := Catalog.getElem?_of_idOf? hid
    rw [Catalog.getElem?_of_idOf? ho] at hk
    exact Option.some.inj hk

theorem stored?_updateStorage_of_ne {other : K} (hne : other ≠ kind) (x : Entity) :
    (w.updateStorage kind f).stored? other x = w.stored? other x := by
  rw [stored?, storage?_updateStorage_of_ne hne, stored?]

/-- Rows by number after an edit of the storage of a kind. -/
theorem holds_updateStorage {id : ComponentId} {set : SparseSet (Value kind)} {signals : Signals}
    (hid : w.idOf? kind = some id) (hpool : w.pools[id]? = some ⟨⟨kind, set⟩, signals⟩)
    (j : ComponentId) (x : Entity) :
    (w.updateStorage kind f).holds j x = if j = id then (f set).contains x else w.holds j x := by
  by_cases hj : j = id
  · rw [if_pos hj, hj, holds_of_pool (pool_updateStorage hid hpool)]
  · rw [if_neg hj, updateStorage_of_idOf? hid, holds_updatePool_of_ne fun h => hj h.symm]

end UpdateStorage

/-! ## Removing a row -/

@[simp] theorem idOf?_erase (w : World K) (id : ComponentId) (e : Entity) (kind : K) :
    (w.erase id e).idOf? kind = w.idOf? kind := rfl

omit [DecidableEq K] in
@[simp] theorem size_pools_erase (w : World K) (id : ComponentId) (e : Entity) :
    (w.erase id e).pools.size = w.pools.size := by
  simp [erase, updatePool]

omit [DecidableEq K] in
theorem wf_erase (h : w.Wf) (id : ComponentId) (e : Entity) : (w.erase id e).Wf := by
  refine wf_updatePool h fun pool hp => ⟨rfl, ?_⟩
  exact SparseSet.wf_remove (h.sets id pool hp) e

omit [DecidableEq K] in
/-- An erased row is gone, and no other. -/
theorem holds_erase (h : w.Wf) (id : ComponentId) (e : Entity) (j : ComponentId) (x : Entity) :
    (w.erase id e).holds j x = if j = id ∧ x = e then false else w.holds j x := by
  by_cases hj : j = id
  · subst hj
    by_cases hlt : j < w.pools.size
    · have hpool := Array.getElem?_eq_getElem hlt
      have hset := h.sets j _ hpool
      have hpool' : (w.erase j e).pools[j]? =
          some { w.pools[j] with storage := (w.pools[j].storage.erase e).2 } := by
        rw [erase, getElem?_updatePool, if_pos rfl, hpool]
        rfl
      rw [holds_of_pool hpool', holds_of_pool hpool, hset.contains_eq_isSome]
      show (w.pools[j].storage.set.remove e).2.contains x = _
      rw [(SparseSet.wf_remove hset e).contains_eq_isSome, SparseSet.get?_remove hset]
      by_cases hx : x = e
      · simp [hx]
      · simp [hx]
    · have hnone : w.pools[j]? = none := Array.getElem?_eq_none (Nat.not_lt.mp hlt)
      simp [holds, erase, getElem?_updatePool, hnone]
  · rw [if_neg fun hc => hj hc.1, erase, holds_updatePool_of_ne fun hc => hj hc.symm]

theorem stored?_erase (h : w.Wf) (id : ComponentId) (e : Entity) (kind : K) (x : Entity) :
    (w.erase id e).stored? kind x =
      if w.idOf? kind = some id ∧ x = e then none else w.stored? kind x := by
  by_cases hid : w.idOf? kind = some id
  · obtain ⟨set, signals, hpool, hset⟩ := h.exists_pool hid
    have hpool' : (w.erase id e).pools[id]? = some ⟨⟨kind, (set.remove e).2⟩, signals⟩ := by
      rw [erase, getElem?_updatePool, if_pos rfl, hpool]
      rfl
    have hid' : (w.erase id e).idOf? kind = some id := hid
    rw [stored?_of_pool hid' hpool', stored?_of_pool hid hpool, SparseSet.get?_remove hset]
    by_cases hx : x = e
    · rw [if_pos hx, if_pos ⟨hid, hx⟩]
    · rw [if_neg hx, if_neg fun hc => hx hc.2]
  · rw [if_neg fun hc => hid hc.1, erase, stored?_updatePool_of_ne hid]

omit [DecidableEq K] in
/-- In a world in order a row is removed to the end. -/
theorem erasure_eq (h : w.Wf) (id : ComponentId) (e : Entity) :
    w.erasure id e = .ok (w.holds id e) := by
  rw [erasure, holds]
  cases hpool : w.pools[id]? with
  | none => rfl
  | some pool =>
    have hset := h.sets id pool hpool
    show (pool.storage.set.remove e).1.map _ = .ok (pool.storage.set.contains e)
    rw [SparseSet.remove_fst hset, hset.contains_eq_isSome]
    rfl

/-- Taking a component out of its storage erases its row. -/
theorem pull_eq (h : w.Wf) {kind : K} {id : ComponentId} (hid : w.idOf? kind = some id)
    (e : Entity) : w.pull kind e = (.ok (w.stored? kind e), w.erase id e) := by
  obtain ⟨set, signals, hpool, hset⟩ := h.exists_pool hid
  simp only [pull, storage?_of_pool hid hpool, updateStorage_of_idOf? hid]
  rw [SparseSet.remove_fst hset, stored?_of_pool hid hpool]
  refine Prod.ext rfl ?_
  simp only [erase, updatePool]
  congr 1
  refine Array.ext_getElem? fun j => ?_
  rw [Array.getElem?_modify, Array.getElem?_modify]
  split
  · rename_i hj
    rw [← hj, hpool]
    simp [Storage.erase, SparseSet.erase]
  · rfl

end World

end EntityScene
