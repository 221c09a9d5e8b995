import EntityScene.World.Fetch
import EntityScene.Scene.Pass
import EntityScene.Proofs.Pools

/-!
# Edits of a world

Most edits move no row: they change values in place, take kinds into use, or work on
signals. `World.Undisturbed` says what all of them have in common, and there is one
lemma for each edit. The one edit that adds a row is `World.place`.

- `World.Undisturbed`: handles and rows are the same, and so are the values of the
  kinds that are kept.
- `undisturbed_register`, `undisturbed_edit`, `undisturbed_fetchEdit`,
  `undisturbed_snapshot`, `undisturbed_connect`, `undisturbed_updateAllTransforms`, ..:
  the edits that move no row.
- `place_cases`: an abandoned placement, one that finds a component, and one that
  adds a row, for which `World.Placed` says what it does.
-/

namespace EntityScene.World

variable {K : Type} [ComponentFamily K] [DecidableEq K]
variable {w w' w'' : World K} {kept kept' : K → Prop}

/-- Handles and rows are the same in two worlds, the second of which is in order, and
so are the values of the kinds that are kept. -/
structure Undisturbed (kept : K → Prop) (w w' : World K) : Prop where
  wf : w'.Wf
  entities : w'.entities = w.entities
  removing : w'.removing = w.removing
  holds : ∀ (id : ComponentId) (x : Entity), w'.holds id x = w.holds id x
  idOf? : ∀ {kind : K} {id : ComponentId}, w.idOf? kind = some id → w'.idOf? kind = some id
  size_pools : w.pools.size ≤ w'.pools.size
  stored? : ∀ {kind : K}, kept kind → ∀ x : Entity, w'.stored? kind x = w.stored? kind x

namespace Undisturbed

theorem refl (h : w.Wf) : Undisturbed kept w w :=
  { wf := h
    entities := rfl
    removing := rfl
    holds := fun _ _ => rfl
    idOf? := id
    size_pools := Nat.le_refl _
    stored? := fun _ _ => rfl }

theorem trans (h : Undisturbed kept w w') (h' : Undisturbed kept w' w'') :
    Undisturbed kept w w'' :=
  { wf := h'.wf
    entities := h'.entities.trans h.entities
    removing := h'.removing.trans h.removing
    holds := fun id x => (h'.holds id x).trans (h.holds id x)
    idOf? := fun hid => h'.idOf? (h.idOf? hid)
    size_pools := Nat.le_trans h.size_pools h'.size_pools
    stored? := fun hk x => (h'.stored? hk x).trans (h.stored? hk x) }

/-- Fewer kinds may be said to be kept. -/
theorem mono (hsub : ∀ kind, kept' kind → kept kind) (h : Undisturbed kept w w') :
    Undisturbed kept' w w' :=
  { h with stored? := fun hk => h.stored? (hsub _ hk) }

theorem isValid (h : Undisturbed kept w w') (x : Entity) : w'.isValid x = w.isValid x :=
  isValid_congr h.entities x

theorem isDestroying (h : Undisturbed kept w w') (x : Entity) :
    w'.isDestroying x = w.isDestroying x :=
  isDestroying_congr h.entities x

theorem accepts (h : Undisturbed kept w w') (x : Entity) : w'.accepts x = w.accepts x :=
  accepts_congr h.entities x

theorem get? (h : Undisturbed kept w w') {kind : K} (hk : kept kind) (x : Entity) :
    w'.get? kind x = w.get? kind x := by
  rw [get?_eq_stored?, get?_eq_stored?, h.isValid, h.stored? hk]

end Undisturbed

/-! ## Kinds and signals -/

theorem undisturbed_register (h : w.Wf) (kind : K) :
    Undisturbed kept w (w.register kind).2 := by
  refine
    { wf := wf_register h kind
      entities := rfl
      removing := rfl
      holds := holds_register h kind
      idOf? := idOf?_register_of_idOf?
      size_pools := ?_
      stored? := fun _ x => stored?_register h.paired kind _ x }
  rcases register_cases h.paired kind with ⟨id, -, hr⟩ | ⟨-, hr⟩
  · rw [hr]
  · rw [hr]
    simp only [Array.size_push]
    exact Nat.le_succ _

theorem undisturbed_registerAll (h : w.Wf) (kinds : List K) :
    Undisturbed kept w (w.registerAll kinds).2 := by
  induction kinds generalizing w with
  | nil => exact .refl h
  | cons kind kinds ih =>
    have hfirst : Undisturbed kept w (w.register kind).2 := undisturbed_register h kind
    exact hfirst.trans (ih hfirst.wf)

/-- The connections are no part of handles and rows. -/
theorem undisturbed_board (h : w.Wf) (board : Switchboard) :
    Undisturbed kept w { w with board } :=
  { wf := { h with }
    entities := rfl
    removing := rfl
    holds := fun _ _ => rfl
    idOf? := id
    size_pools := Nat.le_refl _
    stored? := fun _ _ => rfl }

omit [DecidableEq K] in
theorem getElem?_setSignal (w : World K) (id : ComponentId) (event : LifeEvent) (signal : Signal)
    (j : ComponentId) :
    (w.setSignal id event signal).pools[j]? =
      if id = j then w.pools[j]?.map fun pool =>
        { pool with signals := pool.signals.set event signal }
      else w.pools[j]? := by
  simp [setSignal, Array.getElem?_modify]

omit [DecidableEq K] in
/-- A pool has its storage also after its signals changed. -/
theorem map_storage_setSignal (w : World K) (id : ComponentId) (event : LifeEvent)
    (signal : Signal) (j : ComponentId) :
    (w.setSignal id event signal).pools[j]?.map (·.storage) = w.pools[j]?.map (·.storage) := by
  rw [getElem?_setSignal]
  split
  · rw [Option.map_map]
    rfl
  · rfl

theorem storage?_setSignal (w : World K) (id : ComponentId) (event : LifeEvent) (signal : Signal)
    (kind : K) : (w.setSignal id event signal).storage? kind = w.storage? kind := by
  have hid : (w.setSignal id event signal).idOf? kind = w.idOf? kind := rfl
  rw [storage?, storage?, hid]
  refine congrArg _ (funext fun j => ?_)
  have hstorage := congrArg (Option.bind · (·.asKind? kind))
    (map_storage_setSignal w id event signal j)
  simp only [Option.bind_map] at hstorage
  exact hstorage

omit [DecidableEq K] in
theorem entities_snapshot (w : World K) (id : ComponentId) (event : LifeEvent) :
    (w.snapshot id event).2.entities = w.entities := by
  unfold snapshot
  split <;> rfl

/-- What a dispatch goes through is no part of what is found. -/
theorem get?_snapshot (w : World K) (id : ComponentId) (event : LifeEvent) (kind : K) (x : Entity) :
    (w.snapshot id event).2.get? kind x = w.get? kind x := by
  have hvalid : (w.snapshot id event).2.isValid x = w.isValid x :=
    isValid_congr (entities_snapshot w id event) x
  have hstorage : (w.snapshot id event).2.storage? kind = w.storage? kind := by
    unfold snapshot
    split
    · rfl
    · exact storage?_setSignal w id event _ kind
  rw [get?, hvalid, hstorage, get?]

theorem undisturbed_setSignal (h : w.Wf) (id : ComponentId) (event : LifeEvent)
    (signal : Signal) : Undisturbed kept w (w.setSignal id event signal) := by
  have hstorage := map_storage_setSignal w id event signal
  have hpool : ∀ {j : ComponentId} {pool : Pool K},
      (w.setSignal id event signal).pools[j]? = some pool →
        ∃ old, w.pools[j]? = some old ∧ old.storage = pool.storage := by
    intro j pool hj
    have hs := hstorage j
    rw [hj] at hs
    exact Option.map_eq_some_iff.mp hs.symm
  refine
    { wf :=
        { table := h.table
          catalog := h.catalog
          size_pools := by simp only [setSignal, Array.size_modify, h.size_pools]
          kind_pool := fun j pool hj => ?_
          sets := fun j pool hj => ?_ }
      entities := rfl
      removing := rfl
      holds := fun j x => ?_
      idOf? := fun hid => hid
      size_pools := Nat.le_of_eq (by simp [setSignal])
      stored? := fun {kind} _ x => by rw [World.stored?, storage?_setSignal, World.stored?] }
  · obtain ⟨old, hold, hst⟩ := hpool hj
    rw [← hst]
    exact h.kind_pool j old hold
  · obtain ⟨old, hold, hst⟩ := hpool hj
    rw [← hst]
    exact h.sets j old hold
  · have hany : ∀ pools : Option (Pool K), pools.any (fun pool => pool.storage.contains x) =
        (pools.map (·.storage)).any fun storage => storage.contains x := by
      intro pools
      cases pools <;> rfl
    rw [World.holds, World.holds, hany, hany, hstorage]

theorem undisturbed_snapshot (h : w.Wf) (id : ComponentId) (event : LifeEvent) :
    Undisturbed kept w (w.snapshot id event).2 := by
  unfold snapshot
  cases w.signal? id event with
  | none => exact .refl h
  | some signal => exact undisturbed_setSignal h id event _

theorem undisturbed_connect (h : w.Wf) (kind : K) (event : LifeEvent) :
    Undisturbed kept w (w.connect kind event).2 := by
  have hreg : Undisturbed kept w (w.register kind).2 := undisturbed_register h kind
  have hset : ∀ signal, Undisturbed kept _ _ :=
    undisturbed_setSignal hreg.wf (w.register kind).1 event
  exact (hreg.trans (hset _)).trans (undisturbed_board (hset _).wf _)

omit [DecidableEq K] in
/-- There is no signal to exchange in a pool that is not there. -/
theorem setSignal_of_signal?_eq_none {id : ComponentId} {event : LifeEvent}
    (h : w.signal? id event = none) (signal : Signal) : w.setSignal id event signal = w := by
  have hnone : w.pools[id]? = none := Option.map_eq_none_iff.mp h
  have hpools : w.pools.modify id (fun pool =>
      { pool with signals := pool.signals.set event signal }) = w.pools := by
    refine Array.ext_getElem? fun j => ?_
    rw [Array.getElem?_modify]
    split
    · rename_i hj
      rw [← hj, hnone]
      rfl
    · rfl
  rw [setSignal, hpools]

/-- A connection that is made has the next key. -/
theorem connect_ok {kind : K} {event : LifeEvent} {key : ConnectionKey}
    (h : (w.connect kind event).1 = .ok key) :
    key = w.board.connections.size ∧ ∃ signal : Signal,
      ((w.register kind).2.signal? (w.register kind).1 event).getD .empty = signal ∧
      signal.nextId.toNat + 1 < UInt32.size ∧
      (w.connect kind event).2 =
        { (w.register kind).2.setSignal (w.register kind).1 event
            { slots := (signal.prune w.board).slots ++ [w.board.connections.size]
              nextId := signal.nextId + 1 } with
          board := (w.board.openConnection signal.nextId).2 } := by
  generalize hsignal :
    ((w.register kind).2.signal? (w.register kind).1 event).getD .empty = signal
  have hboard : (w.register kind).2.board = w.board := rfl
  simp only [connect, hsignal, hboard] at h ⊢
  rcases signal.connect_cases w.board with ⟨hroom, hmade⟩ | ⟨-, hmade⟩
  · rw [hmade] at h ⊢
    exact ⟨(Except.ok.inj h).symm, signal, rfl, hroom, rfl⟩
  · rw [hmade] at h
    cases h

/-- Whoever asks in vain for a connection takes the kind into use, and rids the signal of the
connections that were cut. -/
theorem connect_error {kind : K} {event : LifeEvent} {cause : Abort}
    (h : (w.connect kind event).1 = .error cause) :
    UInt32.size ≤
        (((w.register kind).2.signal? (w.register kind).1 event).getD .empty).nextId.toNat + 1 ∧
      (w.connect kind event).2 =
        ((w.register kind).2.snapshot (w.register kind).1 event).2 := by
  have hboard : (w.register kind).2.board = w.board := rfl
  simp only [connect, snapshot, hboard] at h ⊢
  generalize hsignal : (w.register kind).2.signal? (w.register kind).1 event = signal? at h ⊢
  rcases (signal?.getD .empty).connect_cases w.board with ⟨-, hmade⟩ | ⟨hfull, hmade⟩
  · rw [hmade] at h
    cases h
  · rw [hmade]
    refine ⟨hfull, ?_⟩
    cases signal? with
    | none => exact setSignal_of_signal?_eq_none hsignal _
    | some signal => rfl

theorem undisturbed_disconnectAll (h : w.Wf) (kind : K) (event : LifeEvent) :
    Undisturbed kept w (w.disconnectAll kind event) := by
  have hreg : Undisturbed kept w (w.register kind).2 := undisturbed_register h kind
  have hset : ∀ signal, Undisturbed kept _ _ :=
    undisturbed_setSignal hreg.wf (w.register kind).1 event
  exact (hreg.trans (hset _)).trans (undisturbed_board (hset _).wf _)

/-! ## Values changed in place -/

section Modify

variable {kind : K} {e : Entity} {f : Value kind → Value kind}

/-- Changing the value of a row moves no row. -/
theorem undisturbed_modify (h : w.Wf) (hkept : ¬ kept kind) :
    Undisturbed kept w (w.updateStorage kind (·.modify e f)) := by
  cases hid : w.idOf? kind with
  | none =>
    rw [updateStorage_of_idOf?_eq_none hid]
    exact .refl h
  | some id =>
    obtain ⟨set, signals, hpool, hset⟩ := h.exists_pool hid
    refine
      { wf := wf_updateStorage h fun set' hs' => ?_
        entities := entities_updateStorage
        removing := removing_updateStorage
        holds := fun j x => ?_
        idOf? := fun hother => ?_
        size_pools := Nat.le_of_eq size_pools_updateStorage.symm
        stored? := fun hother x => stored?_updateStorage_of_ne (fun heq => hkept ?_) x }
    · rw [storage?_of_pool hid hpool] at hs'
      obtain rfl := Option.some.inj hs'
      exact SparseSet.wf_modify hset e f
    · rw [holds_updateStorage hid hpool]
      split
      · rename_i hj
        rw [hj, holds_of_pool hpool, hset.contains_eq_isSome,
          (SparseSet.wf_modify hset e f).contains_eq_isSome, SparseSet.get?_modify]
        split
        · rename_i hx
          rw [hx, Option.isSome_map]
        · rfl
      · rfl
    · rw [idOf?_updateStorage]
      exact hother
    · rw [← heq]
      exact hother

theorem stored?_modify (w : World K) (e : Entity) (f : Value kind → Value kind) (x : Entity) :
    (w.updateStorage kind (·.modify e f)).stored? kind x =
      if x = e then (w.stored? kind e).map f else w.stored? kind x := by
  rw [stored?, storage?_updateStorage_self, stored?, stored?]
  cases w.storage? kind with
  | none => simp
  | some set => simpa using SparseSet.get?_modify set e f x

theorem undisturbed_edit (h : w.Wf) (hkept : ¬ kept kind) :
    Undisturbed kept w (w.edit kind e f) := by
  unfold edit
  split
  · exact undisturbed_modify h hkept
  · exact .refl h

theorem entities_edit (w : World K) (kind : K) (e : Entity) (f : Value kind → Value kind) :
    (w.edit kind e f).entities = w.entities := by
  unfold edit
  split
  · exact entities_updateStorage
  · rfl

theorem isValid_edit (w : World K) (kind : K) (e : Entity) (f : Value kind → Value kind)
    (x : Entity) : (w.edit kind e f).isValid x = w.isValid x :=
  isValid_congr (entities_edit w kind e f) x

theorem storage?_edit_of_ne {other : K} (hne : other ≠ kind) :
    (w.edit kind e f).storage? other = w.storage? other := by
  unfold edit
  split
  · exact storage?_updateStorage_of_ne hne
  · rfl

theorem get?_edit_of_ne {other : K} (hne : other ≠ kind) (x : Entity) :
    (w.edit kind e f).get? other x = w.get? other x := by
  rw [get?, isValid_edit, storage?_edit_of_ne hne, get?]

/-- An edit changes the component of one entity. -/
theorem get?_edit (w : World K) (e : Entity) (f : Value kind → Value kind) (x : Entity) :
    (w.edit kind e f).get? kind x =
      if x = e then (w.get? kind e).map f else w.get? kind x := by
  rw [get?_eq_stored?, get?_eq_stored?, get?_eq_stored?, isValid_edit]
  by_cases he : w.isValid e = true
  · rw [edit, if_pos he, stored?_modify, if_pos he]
    by_cases hx : x = e
    · rw [if_pos hx, if_pos hx, hx, if_pos he]
    · rw [if_neg hx, if_neg hx]
  · rw [edit, if_neg he, if_neg he]
    by_cases hx : x = e
    · rw [if_pos hx, hx, if_neg he]
      rfl
    · rw [if_neg hx]

end Modify

theorem undisturbed_editPooled (h : w.Wf) {kind : K} {id : ComponentId} (e : Entity)
    {f : Value kind → Value kind} (hid : w.idOf? kind = some id) (hkept : ¬ kept kind) :
    Undisturbed kept w (w.editPooled kind id e f) := by
  have hmodify := undisturbed_modify (e := e) (f := f) h hkept
  rw [updateStorage_of_idOf? hid] at hmodify
  exact hmodify

/-- A fetch moves no row, whatever becomes of it. -/
theorem undisturbed_fetchEdit (h : w.Wf) (e : Entity) (kinds : List K)
    (f : (kind : K) → Value kind → Value kind) (hkept : ∀ kind ∈ kinds, ¬ kept kind) :
    Undisturbed kept w (w.fetchEdit e kinds f).2 := by
  have hreg : Undisturbed kept w (w.registerAll kinds).2 := undisturbed_registerAll h kinds
  have hfold : ∀ (ps : List (K × ComponentId)) (w : World K), w.Wf →
      (∀ p ∈ ps, w.idOf? p.1 = some p.2 ∧ ¬ kept p.1) →
      Undisturbed kept w (ps.foldl (fun w p => w.editPooled p.1 p.2 e (f p.1)) w) := by
    intro ps
    induction ps with
    | nil =>
      intro w hw _
      exact .refl hw
    | cons p ps ih =>
      intro w hw hps
      obtain ⟨hid, hk⟩ := hps p List.mem_cons_self
      have hfirst := undisturbed_editPooled hw e (f := f p.1) hid hk
      refine hfirst.trans (ih _ hfirst.wf fun q hq => ?_)
      obtain ⟨hid', hk'⟩ := hps q (List.mem_cons_of_mem _ hq)
      exact ⟨hfirst.idOf? hid', hk'⟩
  unfold fetchEdit
  simp only
  split
  · split
    · refine hreg.trans (hfold _ _ hreg.wf fun p hp => ?_)
      exact ⟨idOf?_registerAll hp, hkept p.1 (List.of_mem_zip hp).1⟩
    · exact hreg
  · exact hreg

/-! ## Adding a row -/

/-- A world in which a handle without a row of a kind was given one. A row that
another generation of its index had is gone. -/
structure Placed (w : World K) (kind : K) (id : ComponentId) (e : Entity) (v : Value kind)
    (w' : World K) : Prop where
  wf : w'.Wf
  entities : w'.entities = w.entities
  removing : w'.removing = w.removing
  idOf? : ∀ {other : K} {j : ComponentId}, w.idOf? other = some j → w'.idOf? other = some j
  idOf?_self : w'.idOf? kind = some id
  new : w.holds id e = false
  holds : ∀ (j : ComponentId) (x : Entity), w'.holds j x = true ↔
    (j = id ∧ x = e) ∨ (¬ (j = id ∧ x.index = e.index) ∧ w.holds j x = true)
  size_pools : w.pools.size ≤ w'.pools.size
  stored?_self : ∀ x : Entity, w'.stored? kind x =
    if x = e then some v else if x.index = e.index then none else w.stored? kind x
  stored?_other : ∀ {other : K}, other ≠ kind → ∀ x : Entity,
    w'.stored? other x = w.stored? other x

/-- A handle that is given a component had none. -/
theorem Placed.stored?_eq_none {kind : K} {id : ComponentId} {e : Entity} {v : Value kind}
    (hwf : w.Wf) (h : Placed w kind id e v w') : w.stored? kind e = none := by
  cases hid : w.idOf? kind with
  | none => exact stored?_of_idOf?_eq_none hid e
  | some j =>
    have hj := h.idOf? hid
    rw [h.idOf?_self] at hj
    obtain rfl := Option.some.inj hj
    rw [← Option.isNone_iff_eq_none, ← Option.not_isSome, ← hwf.holds_eq_isSome hid, h.new]
    rfl

/-- Putting back the storage that a kind has changes nothing. -/
theorem updateStorage_storage? (h : w.Wf) {kind : K} {set : SparseSet (Value kind)}
    (hs : w.storage? kind = some set) : w.updateStorage kind (fun _ => set) = w := by
  obtain ⟨id, signals, hid, hpool, -⟩ := h.exists_pool_of_storage? hs
  rw [updateStorage_of_idOf? hid]
  refine updatePool_eq_self fun pool hpool' => ?_
  rw [hpool] at hpool'
  obtain rfl := Option.some.inj hpool'
  exact Storage.update_self kind set _

/-- A component is added to the storage of its kind, once that is there. -/
theorem Undisturbed.placed {w₁ : World K} (h : Undisturbed (fun _ => True) w w₁) {kind : K}
    {id : ComponentId} {set : SparseSet (Value kind)} {signals : Signals} {e : Entity}
    (hid : w₁.idOf? kind = some id) (hpool : w₁.pools[id]? = some ⟨⟨kind, set⟩, signals⟩)
    (hset : set.Wf) (hnull : e.isNull = false) (hnew : set.contains e = false) (v : Value kind) :
    Placed w kind id e v
      (w₁.updateStorage kind fun _ => (set.emplaceWith e (.ok v)).2) := by
  have hset' := SparseSet.wf_emplaceWith hset v hnull hnew
  have hget := SparseSet.get?_emplaceWith hset v hnull hnew
  generalize (set.emplaceWith e (.ok v)).2 = set' at hset' hget
  refine
    { wf := wf_updateStorage h.wf fun _ _ => hset'
      entities := entities_updateStorage.trans h.entities
      removing := removing_updateStorage.trans h.removing
      idOf? := fun hother => (idOf?_updateStorage _).trans (h.idOf? hother)
      idOf?_self := (idOf?_updateStorage _).trans hid
      new := by rw [← h.holds, holds_of_pool hpool, hnew]
      holds := fun j x => ?_
      size_pools := Nat.le_trans h.size_pools (Nat.le_of_eq size_pools_updateStorage.symm)
      stored?_self := fun x => ?_
      stored?_other := fun hne x => ?_ }
  · rw [holds_updateStorage hid hpool, ← h.holds]
    by_cases hj : j = id
    · rw [if_pos hj, hset'.contains_eq_isSome, hget, hj, holds_of_pool hpool,
        hset.contains_eq_isSome]
      by_cases hx : x = e
      · simp [hx]
      · by_cases hi : x.index = e.index
        · simp [hx, hi]
        · simp [hx, hi]
    · simp [hj]
  · rw [World.stored?, storage?_updateStorage_self, storage?_of_pool hid hpool,
      ← h.stored? trivial x, stored?_of_pool hid hpool]
    exact hget x
  · rw [stored?_updateStorage_of_ne hne, h.stored? trivial]

theorem entities_place (w : World K) (kind : K) (e : Entity) (make : Except Abort (Value kind)) :
    (w.place kind e make).2.entities = w.entities := by
  unfold place
  simp only
  split
  · rfl
  · exact entities_updateStorage

/-- A placement is abandoned, finds a component, or adds a row. -/
theorem place_cases (h : w.Wf) (kind : K) (e : Entity) (make : Except Abort (Value kind)) :
    (∃ cause, (w.place kind e make).1 = .error cause ∧
        (e.isNull = true ∨ ∃ cause', make = .error cause')) ∨
      (w.place kind e make = (.ok false, (w.register kind).2) ∧ (w.stored? kind e).isSome) ∨
      (∃ v id, make = .ok v ∧ e.isNull = false ∧ (w.place kind e make).1 = .ok true ∧
        Placed w kind id e v (w.place kind e make).2) := by
  have hreg : Undisturbed (fun _ => True) w (w.register kind).2 := undisturbed_register h kind
  have hid := idOf?_register_self w kind
  generalize hw₁ : (w.register kind).2 = w₁ at hreg hid
  generalize (w.register kind).1 = id at hid
  obtain ⟨set, signals, hpool, hset⟩ := hreg.wf.exists_pool hid
  have hs := storage?_of_pool hid hpool
  have hplace : w.place kind e make =
      ((set.emplaceWith e make).1, w₁.updateStorage kind fun _ => (set.emplaceWith e make).2) := by
    simp only [place, hw₁, hs]
  rw [hplace]
  cases hn : e.isNull with
  | true =>
    refine .inl ⟨.nullHolder, ?_, .inl rfl⟩
    rw [SparseSet.emplaceWith_null _ _ hn]
  | false =>
    cases hc : set.contains e with
    | true =>
      refine .inr (.inl ⟨?_, ?_⟩)
      · rw [SparseSet.emplaceWith_of_contains hset _ hn hc, updateStorage_storage? hreg.wf hs]
      · rw [← hreg.stored? trivial e, stored?_of_pool hid hpool, ← hset.contains_eq_isSome, hc]
    | false =>
      cases make with
      | error cause =>
        refine .inl ⟨cause, ?_, .inr ⟨cause, rfl⟩⟩
        rw [SparseSet.emplaceWith_error hset hn hc]
      | ok v =>
        refine .inr (.inr ⟨v, id, rfl, rfl, ?_, hreg.placed hid hpool hset hn hc v⟩)
        rw [SparseSet.emplaceWith_new hset _ hn hc]

end World

namespace World

variable {U : Type} [SceneFamily U] [DecidableEq U]
variable {w : World (Kind U)} {kept : Kind U → Prop}

/-! ## Links changed in place -/

theorem isSome_node?_edit (p : Entity) (f : TreeNode → TreeNode) (x : Entity) :
    ((w.edit .node p f).node? x).isSome = (w.node? x).isSome := by
  rw [node?, get?_edit]
  split
  · rename_i hx
    rw [Option.isSome_map, hx, node?]
  · rfl

/-- An edit of children lists leaves the parents alone. -/
theorem parentOf?_edit (hf : ∀ node, (f node).parent = node.parent) (p x : Entity) :
    (w.edit .node p f).parentOf? x = w.parentOf? x := by
  rw [parentOf?, node?, get?_edit, parentOf?]
  split
  · rename_i hx
    rw [hx, Option.map_map]
    exact congrArg (Option.filter _ <| Option.map · _) (funext hf)
  · rfl

theorem childrenOf_edit (p : Entity) (f : TreeNode → TreeNode) (x : Entity) :
    (w.edit .node p f).childrenOf x =
      if x = p then ((w.node? p).map fun node => (f node).children).getD []
      else w.childrenOf x := by
  rw [childrenOf, node?, get?_edit]
  split
  · rw [Option.map_map]
    rfl
  · rfl

/-! ## Passes over the tree -/

theorem undisturbed_propagate (h : w.Wf) (hkept : ¬ kept .transform) (room : Nat)
    (waiting : List (Visit U)) : Undisturbed kept w (w.propagate room waiting) := by
  induction room generalizing w waiting with
  | zero => exact .refl h
  | succ room ih =>
    unfold propagate
    split
    · exact .refl h
    · rename_i visit transform node rest _
      have hedit : Undisturbed kept w (w.edit .transform visit.entity fun t =>
          Transform.refresh t visit.parent visit.inherited) := undisturbed_edit h hkept
      exact hedit.trans (ih hedit.wf _)

theorem undisturbed_updateTransform (h : w.Wf) (hkept : ¬ kept .transform) (root : Entity) :
    Undisturbed kept w (w.updateTransform root) := by
  have hplacement : Undisturbed kept w (w.register .transform).2 := undisturbed_register h _
  have hlinks := hplacement.trans (undisturbed_register hplacement.wf .node)
  exact hlinks.trans (undisturbed_propagate hlinks.wf hkept _ _)

theorem undisturbed_updateAllTransforms (h : w.Wf) (hkept : ¬ kept .transform) :
    Undisturbed kept w w.updateAllTransforms.2 := by
  have hfold : ∀ (roots : List Entity) (w : World (Kind U)), w.Wf →
      Undisturbed kept w (roots.foldl updateTransform w) := by
    intro roots
    induction roots with
    | nil =>
      intro w hw
      exact .refl hw
    | cons root roots ih =>
      intro w hw
      have hfirst := undisturbed_updateTransform hw hkept root
      exact hfirst.trans (ih _ hfirst.wf)
  exact hfold _ w h

end World

end EntityScene
