import EntityScene.Proofs.Packing
import EntityScene.Proofs.Rosters
import EntityScene.Proofs.Sessions
import EntityScene.Proofs.Tours

/-!
# A pass finds what a pass from scratch would

A pass leaves nodes alone that are clean below clean nodes. In a forest that is as good as
finding every matrix again, if those that it leaves alone are right: not against the whole way
up, but each against the matrix that is remembered for its parent. Marks may be any, and so may
the matrices of everybody who is dirty or below somebody dirty.

- `World.Coherent`: what a pass leaves alone is right.
- `World.Exact`: everybody whom a walk comes to is clean and right.
- `World.Renewed`: what passes from some nodes leave behind; `renewed_updateTransform` for one
  node, `Renewed.next` for one more root.
- `World.coherent_edit`: a setter keeps a world coherent, since it leaves its mark.
- `Machine.passes_start_from_scratch`: a pass from one node, and one from every root.
-/

namespace EntityScene

namespace World

variable {U : Type} [SceneFamily U] [DecidableEq U] {w v : World (Kind U)}
variable {root r x : Entity} {M : (geometry U).Matrix} {b : Bool}

/-- Where nobody is dirty from a root down to an entity, the matrix of the entity is the local one
below the matrix that is remembered for its parent. -/
def Coherent (w : World (Kind U)) (root : Entity) : Prop :=
  ∀ x M t, w.Reached root x M false → w.transform? x = some t →
    t.localToWorld = M * t.localMatrix

/-- Everybody whom a walk from a root comes to is clean, and has the local matrix below the matrix
of its parent. -/
def Exact (w : World (Kind U)) (root : Entity) : Prop :=
  ∀ x M b t, w.Reached root x M b → w.transform? x = some t →
    t.dirty = false ∧ t.localToWorld = M * t.localMatrix

theorem Exact.coherent (h : w.Exact root) : w.Coherent root :=
  fun x M t hx ht => (h x M false t hx ht).2

/-- Nobody is clean from a dirty root down. -/
theorem coherent_of_dirty (h : ∀ t, w.transform? root = some t → t.dirty = true) :
    w.Coherent root := by
  have hdirty : ∀ {x M b}, w.Reached root x M b → b = true := by
    intro x M b hx
    induction hx with
    | root ht _ => exact h _ ht
    | child _ _ _ _ _ ih => rw [ih, Bool.true_or]
  intro x M t hx
  cases hdirty hx

/-- Where nobody is dirty down to an entity, the entity is not. -/
theorem clean_of_reached (hx : w.Reached root x M b) (hb : b = false) {t : Transform (geometry U)}
    (ht : w.transform? x = some t) : t.dirty = false := by
  cases hx with
  | root ht' _ =>
    rw [ht] at ht'
    exact Option.some.inj ht' ▸ hb
  | child _ _ _ ht' _ =>
    rw [ht] at ht'
    exact Option.some.inj ht' ▸ (Bool.or_eq_false_iff.mp hb).2

/-! ## Whom a walk comes to, before and after -/

theorem exists_reached_of_kept (hkept : Kept w v) (hx : w.Reached root x M b) :
    ∃ M' b', v.Reached root x M' b' := by
  induction hx with
  | root ht hnode =>
    obtain ⟨t', ht', -⟩ := hkept.exists_transform? ht
    exact ⟨_, _, .root ht' (hkept.node? root ▸ hnode)⟩
  | @child p x _ _ _ _ _ habove hx ht hnode ih =>
    obtain ⟨M', b', hp⟩ := ih
    obtain ⟨above', habove', -⟩ := hkept.exists_transform? habove
    obtain ⟨t', ht', -⟩ := hkept.exists_transform? ht
    have hchild : x ∈ v.childrenOf p := by
      rw [childrenOf, hkept.node?]
      exact hx
    exact ⟨_, _, .child hp habove' hchild ht' (hkept.node? x ▸ hnode)⟩

/-- Whom a walk comes to stays as it is where links do and the placements of all of them. -/
theorem Reached.congr (hx : w.Reached root x M b) (hnode : ∀ x, v.node? x = w.node? x)
    (hsame : ∀ {x M b}, w.Reached root x M b → v.transform? x = w.transform? x) :
    v.Reached root x M b := by
  induction hx with
  | root ht hlinks =>
    have hroot := hsame (.root ht hlinks)
    exact .root (hroot.trans ht) (hnode root ▸ hlinks)
  | @child p x _ _ _ _ hp habove hx ht hlinks ih =>
    have hchild : x ∈ v.childrenOf p := by
      rw [childrenOf, hnode]
      exact hx
    exact .child ih ((hsame hp).trans habove) hchild
      ((hsame (.child hp habove hx ht hlinks)).trans ht) (hnode x ▸ hlinks)

theorem below_of_reached (hx : w.Reached root x M b) : w.Below root x := by
  induction hx with
  | root => exact .refl w root
  | child _ _ hx _ _ ih => exact ih.child hx

/-- Nobody is reached from two roots of a forest. -/
theorem eq_of_reached (hforest : w.Forest) {M' : (geometry U).Matrix} {b' : Bool} (hroot : w.parentOf? root = none)
    (hr : w.parentOf? r = none) (hx : w.Reached root x M b) (hx' : w.Reached r x M' b') :
    root = r :=
  eq_of_below_of_below hforest (.root hroot) (.root hr) rfl (below_of_reached hx)
    (below_of_reached hx')

/-! ## From one node -/

/-- Whoever is reached after a pass was handed the matrix that its parent has then. -/
theorem exists_due_of_reached_updateTransform (hwf : w.Wf) (hforest : w.Forest)
    (hx : (w.updateTransform root).Reached root x M b) :
    ∃ u t, u.entity = x ∧ u.parent = M ∧ w.Due [.start root] u ∧ w.transform? x = some t := by
  have hkept := (passed_updateTransform hwf.paired root).kept.symm
  induction hx with
  | root ht hnode =>
    obtain ⟨t, ht, -⟩ := hkept.exists_transform? ht
    have hlinks : (w.node? root).isSome := hkept.node? root ▸ hnode
    exact ⟨.start root, t, rfl, rfl, due_start ⟨by rw [ht]; rfl, hlinks⟩, ht⟩
  | @child p x M b above t _ habove hx ht hnode ih =>
    obtain ⟨u, t₀, rfl, -, hu, ht₀⟩ := ih
    rw [transform?_of_due hwf hforest hu, ht₀, Option.map_some] at habove
    obtain rfl := Option.some.inj habove
    obtain ⟨t₁, ht₁, -⟩ := hkept.exists_transform? ht
    have hchild : x ∈ w.childrenOf u.entity := by
      rw [childrenOf, hkept.node?]
      exact hx
    have hlinks : (w.node? x).isSome := hkept.node? x ▸ hnode
    exact ⟨_, t₁, rfl, rfl, hu.child ht₀ hchild ⟨by rw [ht₁]; rfl, hlinks⟩, ht₁⟩

theorem exact_updateTransform (hwf : w.Wf) (hforest : w.Forest) (hcoherent : w.Coherent root) :
    (w.updateTransform root).Exact root := by
  intro x M b t hx ht
  obtain ⟨u, t₀, rfl, rfl, hu, ht₀⟩ := exists_due_of_reached_updateTransform hwf hforest hx
  have hrefresh : t₀.refresh u.parent u.inherited = t₀.settle (u.parent * t₀.localMatrix) := by
    refine Transform.refresh_eq_settle fun hclean => ?_
    -- clean all the way: the matrix is that of the parent as it was, which is what it is handed
    obtain ⟨M, t₁, ht₁, hreached, hparent⟩ := reached_of_due hu
    rw [ht₀] at ht₁
    obtain rfl := Option.some.inj ht₁
    rw [hclean] at hreached
    rw [hparent (Bool.or_eq_false_iff.mp hclean).1]
    exact hcoherent _ M t₀ hreached ht₀
  rw [transform?_of_due hwf hforest hu, ht₀, Option.map_some, hrefresh] at ht
  obtain rfl := Option.some.inj ht
  exact ⟨rfl, rfl⟩

/-- What passes from some nodes leave behind: whom they come to is right, and nothing else has
changed but matrices and marks of these. -/
structure Renewed (starts : Entity → Prop) (w v : World (Kind U)) : Prop where
  exact : ∀ r, starts r → v.Exact r
  reached_iff : ∀ r x, (∃ M b, v.Reached r x M b) ↔ ∃ M b, w.Reached r x M b
  aside : ∀ {x}, (∀ r M b, starts r → ¬ w.Reached r x M b) → v.transform? x = w.transform? x
  passed : Passed w v
  links : Undisturbed (· ≠ .transform) w v

theorem Renewed.congr {starts starts' : Entity → Prop} (h : Renewed starts w v)
    (hstarts : ∀ r, starts' r ↔ starts r) : Renewed starts' w v :=
  { h with
    exact := fun r hr => h.exact r ((hstarts r).mp hr)
    aside := fun hx => h.aside fun r M b hr => hx r M b ((hstarts r).mpr hr) }

theorem Renewed.of_passed {starts : Entity → Prop} (hexact : ∀ r, starts r → v.Exact r)
    (haside : ∀ {x}, (∀ r M b, starts r → ¬ w.Reached r x M b) → v.transform? x = w.transform? x)
    (hpassed : Passed w v) (hlinks : Undisturbed (· ≠ .transform) w v) : Renewed starts w v :=
  { exact := hexact
    reached_iff := fun _ _ =>
      ⟨fun ⟨_, _, hx⟩ => exists_reached_of_kept hpassed.kept.symm hx,
        fun ⟨_, _, hx⟩ => exists_reached_of_kept hpassed.kept hx⟩
    aside := haside
    passed := hpassed
    links := hlinks }

theorem renewed_updateTransform (hwf : w.Wf) (hforest : w.Forest) (hcoherent : w.Coherent root) :
    Renewed (· = root) w (w.updateTransform root) := by
  refine .of_passed ?_ ?_ (passed_updateTransform hwf.paired root)
    (undisturbed_updateTransform hwf (by simp) root)
  · rintro r rfl
    exact exact_updateTransform hwf hforest hcoherent
  · intro x hx
    exact transform?_of_not_reached hwf hforest fun M b => hx root M b rfl

/-! ## From every root -/

theorem forest_of_undisturbed (h : w.Forest) (hv : Undisturbed (· ≠ .transform) w v) : v.Forest :=
  forest_of_stored h hv.wf (fun x => hv.stored? (by simp) x) fun x hx => by
    rw [hv.isValid]
    exact h.holders x hx

namespace Renewed

variable {starts : Entity → Prop} {v' : World (Kind U)}

/-- Whom a pass from one root comes to nobody else comes to. -/
theorem transform?_of_ne (hforest : w.Forest) (h : Renewed (· = root) w v)
    (hroot : w.parentOf? root = none) (hr : w.parentOf? r = none) (hne : r ≠ root)
    (hx : w.Reached r x M b) : v.transform? x = w.transform? x := by
  refine h.aside fun r' M' b' hr' hx' => hne ?_
  subst hr'
  exact eq_of_reached hforest hr hroot hx hx'

/-- A pass from one root changes nothing below the others. -/
theorem reached_of_ne (hforest : w.Forest) (h : Renewed (· = root) w v)
    (hroot : w.parentOf? root = none) (hr : w.parentOf? r = none) (hne : r ≠ root)
    (hx : v.Reached r x M b) : w.Reached r x M b ∧ v.transform? x = w.transform? x := by
  have hsame : ∀ {x M b}, v.Reached r x M b → w.transform? x = v.transform? x := by
    intro x M b hx
    obtain ⟨M', b', hx'⟩ := (h.reached_iff r x).mp ⟨M, b, hx⟩
    exact (h.transform?_of_ne hforest hroot hr hne hx').symm
  exact ⟨hx.congr (fun x => (h.passed.node? x).symm) hsame, (hsame hx).symm⟩

theorem coherent_of_ne (hforest : w.Forest) (h : Renewed (· = root) w v)
    (hroot : w.parentOf? root = none) (hr : w.parentOf? r = none) (hne : r ≠ root)
    (hcoherent : w.Coherent r) : v.Coherent r := by
  intro x M t hx ht
  obtain ⟨hx', hsame⟩ := h.reached_of_ne hforest hroot hr hne hx
  exact hcoherent x M t hx' (hsame.symm.trans ht)

theorem exact_of_ne (hforest : w.Forest) (h : Renewed (· = root) w v)
    (hroot : w.parentOf? root = none) (hr : w.parentOf? r = none) (hne : r ≠ root)
    (hexact : w.Exact r) : v.Exact r := by
  intro x M b t hx ht
  obtain ⟨hx', hsame⟩ := h.reached_of_ne hforest hroot hr hne hx
  exact hexact x M b t hx' (hsame.symm.trans ht)

/-- One more root. -/
theorem next (h : Renewed starts w v) (hforest : w.Forest) (hv : Renewed (· = root) v v')
    (hroot : w.parentOf? root = none) (hstarts : ∀ r, starts r → w.parentOf? r = none) :
    Renewed (fun r => r = root ∨ starts r) w v' := by
  have hparent := h.passed.kept.parentOf?
  have hforest' := forest_of_undisturbed hforest h.links
  refine .of_passed ?_ ?_ (h.passed.trans hv.passed) (h.links.trans hv.links)
  · intro r hr
    by_cases hne : r = root
    · exact hv.exact r hne
    · have hstart := hr.resolve_left hne
      exact hv.exact_of_ne hforest' ((hparent root).trans hroot)
        ((hparent r).trans (hstarts r hstart)) hne (h.exact r hstart)
  · intro x hx
    have hfirst := h.aside fun r M b hr => hx r M b (.inr hr)
    refine Eq.trans (hv.aside fun r M b hr hreached => ?_) hfirst
    obtain ⟨M', b', hreached⟩ := (h.reached_iff r x).mp ⟨M, b, hreached⟩
    exact hx r M' b' (.inl hr) hreached

end Renewed

theorem renewed_foldl {roots : List Entity} {starts : Entity → Prop} (h : Renewed starts w v)
    (hforest : w.Forest) (hroots : ∀ r ∈ roots, w.parentOf? r = none)
    (hstarts : ∀ r, starts r → w.parentOf? r = none) (hcoherent : ∀ r ∈ roots, v.Coherent r) :
    Renewed (fun r => r ∈ roots ∨ starts r) w (roots.foldl updateTransform v) := by
  induction roots generalizing v starts with
  | nil => simpa using h
  | cons root roots ih =>
    have hroot := hroots root List.mem_cons_self
    have hforest' := forest_of_undisturbed hforest h.links
    have hparent := h.passed.kept.parentOf?
    have hv := renewed_updateTransform h.links.wf hforest' (hcoherent root List.mem_cons_self)
    have hrest := ih (h.next hforest hv hroot hstarts)
      (fun r hr => hroots r (List.mem_cons_of_mem root hr))
      (fun r hr => hr.elim (fun heq => heq ▸ hroot) (hstarts r)) fun r hr => by
        by_cases hne : r = root
        · exact (hv.exact r hne).coherent
        · exact hv.coherent_of_ne hforest' ((hparent root).trans hroot)
            ((hparent r).trans (hroots r (List.mem_cons_of_mem root hr))) hne
            (hcoherent r (List.mem_cons_of_mem root hr))
    refine hrest.congr fun r => ?_
    rw [List.mem_cons, or_comm (a := r = root), or_assoc]

theorem mem_rows_iff (hwf : w.Wf) {kind : Kind U} {value : ComponentFamily.Value kind} :
    (x, value) ∈ w.rows kind ↔ w.stored? kind x = some value := by
  rw [rows, stored?]
  cases hs : w.storage? kind with
  | none => simp
  | some set =>
    obtain ⟨id, signals, -, -, hset⟩ := hwf.exists_pool_of_storage? hs
    show (x, value) ∈ set.packed ↔ set.get? x = some value
    rw [hset.get?_iff, List.mem_iff_getElem?]
    simp only [SparseSet.getElem?_rows]

/-- Whether a pass from every root starts from the entity. -/
def isPlacedRoot (w : World (Kind U)) (e : Entity) : Bool :=
  (w.node? e).any (·.isRoot) && w.has .transform e

theorem Passed.isPlacedRoot (h : Passed w v) (e : Entity) :
    v.isPlacedRoot e = w.isPlacedRoot e := by
  rw [World.isPlacedRoot, h.node?, h.has_transform, World.isPlacedRoot]

theorem mem_placedRoots_iff (hwf : w.Wf) : x ∈ w.placedRoots ↔ w.isPlacedRoot x = true := by
  have hrow : w.has .transform x = true → ∀ node,
      (x, node) ∈ w.rows .node ↔ w.node? x = some node := by
    intro hplaced node
    obtain ⟨t, ht⟩ := Option.isSome_iff_exists.mp hplaced
    rw [mem_rows_iff hwf, node?, get?_of_isValid (isValid_of_transform? ht)]
  rw [isPlacedRoot, Bool.and_eq_true]
  constructor
  · intro hx
    obtain ⟨⟨e, node⟩, hmem, rfl⟩ := List.mem_map.mp hx
    obtain ⟨hmem, htest⟩ := List.mem_filter.mp hmem
    obtain ⟨hroot, hplaced⟩ := (Bool.and_eq_true _ _).mp htest
    refine ⟨?_, hplaced⟩
    rw [(hrow hplaced node).mp hmem]
    exact hroot
  · rintro ⟨hroot, hplaced⟩
    cases hnode : w.node? x with
    | none =>
      rw [hnode] at hroot
      cases hroot
    | some node =>
      rw [hnode, Option.any_some] at hroot
      have hmem := (hrow hplaced node).mpr hnode
      refine List.mem_map.mpr ⟨(x, node), List.mem_filter.mpr ⟨hmem, ?_⟩, rfl⟩
      rw [Bool.and_eq_true]
      exact ⟨hroot, hplaced⟩

theorem parentOf?_of_isPlacedRoot (h : w.isPlacedRoot x = true) : w.parentOf? x = none := by
  rw [isPlacedRoot, Bool.and_eq_true] at h
  cases hnode : w.node? x with
  | none =>
    rw [parentOf?, hnode]
    rfl
  | some node =>
    rw [hnode] at h
    exact (parentOf?_eq_none_iff hnode).mpr h.1

/-- A pass from every root starts from each of them once. -/
theorem length_placedRoots (hwf : w.Wf) :
    w.placedRoots.length = (w.handles.filter w.isPlacedRoot).length := by
  have hnodup : w.placedRoots.Nodup := by
    have hrows : ((w.rows .node).map (·.1)).Nodup := by
      rw [rows]
      cases hs : w.storage? .node with
      | none => exact List.nodup_nil
      | some set =>
        obtain ⟨id, signals, -, -, hset⟩ := hwf.exists_pool_of_storage? hs
        exact SparseSet.map_fst_rows hset ▸ hset.nodup
    exact hrows.sublist (List.filter_sublist.map _)
  have hhandles : (w.handles.filter w.isPlacedRoot).Nodup :=
    (Entity.Table.nodup_toList hwf.table).filter _
  refine ((List.perm_ext_iff_of_nodup hnodup hhandles).mpr fun x => ?_).length_eq
  rw [mem_placedRoots_iff hwf, List.mem_filter, handles, Entity.Table.mem_toList_iff hwf.table]
  refine (and_iff_right_of_imp fun hx => ?_).symm
  rw [isPlacedRoot, Bool.and_eq_true] at hx
  obtain ⟨t, ht⟩ := Option.isSome_iff_exists.mp hx.2
  exact isValid_of_transform? ht

/-- A pass from every root renews whatever is below one, if what it leaves alone is right. -/
theorem renewed_updateAllTransforms (hwf : w.Wf) (hforest : w.Forest)
    (hcoherent : ∀ r, w.isPlacedRoot r = true → w.Coherent r) :
    Renewed (w.isPlacedRoot · = true) w w.updateAllTransforms.2 := by
  have hstart : Renewed (fun _ => False) w w :=
    .of_passed (fun _ hr => hr.elim) (fun _ => rfl) (.refl w) (.refl hwf)
  have hroots : ∀ r ∈ w.placedRoots, w.parentOf? r = none := fun r hr =>
    parentOf?_of_isPlacedRoot ((mem_placedRoots_iff hwf).mp hr)
  have hrenewed := renewed_foldl hstart hforest hroots (fun _ hr => hr.elim) fun r hr =>
    hcoherent r ((mem_placedRoots_iff hwf).mp hr)
  exact hrenewed.congr fun r => by rw [or_false, mem_placedRoots_iff hwf]

/-! ## Setters -/

/-- A setter keeps a world coherent: whoever it leaves its mark on is not left alone, and neither
is anybody below. -/
theorem coherent_edit {e : Entity} {f : Transform (geometry U) → Transform (geometry U)} (h : w.Coherent root)
    (hf : ∀ t, (f t).dirty = true) : (w.edit .transform e f).Coherent root := by
  have hnode : ∀ x, (w.edit .transform e f).node? x = w.node? x := get?_edit_of_ne (by simp)
  have hsame : ∀ {x t}, (w.edit .transform e f).transform? x = some t → t.dirty = false →
      w.transform? x = some t := by
    intro x t ht hclean
    rw [transform?, get?_edit] at ht
    split at ht
    · obtain ⟨old, -, rfl⟩ := Option.map_eq_some_iff.mp ht
      rw [hf] at hclean
      cases hclean
    · exact ht
  have hreached : ∀ {x M b}, (w.edit .transform e f).Reached root x M b → b = false →
      w.Reached root x M false := by
    intro x M b hx hb
    induction hx with
    | root ht hlinks =>
      exact hb ▸ .root (hsame ht hb) (hnode root ▸ hlinks)
    | @child p x M b above t hp habove hx ht hlinks ih =>
      obtain ⟨hbp, hclean⟩ := Bool.or_eq_false_iff.mp hb
      have hchild : x ∈ w.childrenOf p := by
        rw [childrenOf, ← hnode]
        exact hx
      have habove' := hsame habove (clean_of_reached hp hbp habove)
      have hreached :=
        Reached.child (ih hbp) habove' hchild (hsame ht hclean) (hnode x ▸ hlinks)
      rwa [hclean] at hreached
  intro x M t hx ht
  exact h x M t (hreached hx rfl) (hsame ht (clean_of_reached hx rfl ht))

end World

/-! ## The calls -/

namespace Machine

variable {U σ : Type} [SceneFamily U] [DecidableEq U] {m : Machine U σ}

/-- **A pass finds what a pass from scratch would.** The links are those of a forest, and what the
pass leaves alone is right. Then everybody whom a walk from the node comes to is clean
afterwards, and its matrix is the local one below that of its parent. Whom it does not come to
keeps its matrix and mark. Placements, links, all other components, entities, connections and
signals are the same, and the call is answered in one step, in which no handler runs. A pass
from every root does so below each of them, in whatever order it finds them, and answers their
number. -/
theorem passes_start_from_scratch (hwf : m.world.Wf) (hforest : m.world.Forest) :
    (∀ root, m.world.Coherent root →
      World.Renewed (· = root) m.world (m.world.updateTransform root) ∧
        ∀ stack next, (m.on stack (.run (Task.updateTransform root next))).step =
          some ({ m with world := m.world.updateTransform root }.on stack (.run (next ())))) ∧
    ((∀ root, m.world.isPlacedRoot root = true → m.world.Coherent root) →
      World.Renewed (m.world.isPlacedRoot · = true) m.world m.world.updateAllTransforms.2 ∧
        ∀ stack next, (m.on stack (.run (Task.updateAllTransforms next))).step =
          some ({ m with world := m.world.updateAllTransforms.2 }.on stack
            (.run (next (m.world.handles.filter m.world.isPlacedRoot).length)))) := by
  constructor
  · intro root hcoherent
    exact ⟨World.renewed_updateTransform hwf hforest hcoherent, fun _ _ => rfl⟩
  · intro hcoherent
    refine ⟨World.renewed_updateAllTransforms hwf hforest hcoherent, fun _ _ => ?_⟩
    rw [← World.length_placedRoots hwf]
    rfl

/-- A root and its child after a pass, and then the child is moved. -/
def shifted : Machine Empty Unit :=
  { family with
    world := (family.world.updateTransform ⟨0, .initial⟩).edit .transform ⟨2, .initial⟩
      (Transform.setPosition · ⟨0, 1, 0⟩) }

/-- The pass leaves the root alone, which is clean, and finds the matrix of the child again. -/
theorem passes_start_from_scratch_shifted :
    (shifted.world.Wf ∧ shifted.world.Forest ∧ shifted.world.Coherent ⟨0, .initial⟩) ∧
      shifted.world.handles.map (fun e => (shifted.world.transform? e).map (·.dirty)) =
        [some false, some true] ∧
      World.Renewed (· = ⟨0, .initial⟩) shifted.world
        (shifted.world.updateTransform ⟨0, .initial⟩) := by
  have htended := session_tended session_family
  -- the root is dirty at first, so a pass leaves nothing alone, and everything is right after it
  have hdirty : ∀ t, family.world.transform? ⟨0, .initial⟩ = some t → t.dirty = true := by
    intro t ht
    have hmark : (family.world.transform? ⟨0, .initial⟩).map (·.dirty) = some true := by
      decide +kernel
    rw [ht] at hmark
    exact Option.some.inj hmark
  have hexact := World.exact_updateTransform htended.wf htended.forest
    (World.coherent_of_dirty hdirty)
  have hpassed : World.Undisturbed (· ≠ .transform) family.world
      (family.world.updateTransform ⟨0, .initial⟩) :=
    World.undisturbed_updateTransform htended.wf (by simp) ⟨0, .initial⟩
  have hmoved : World.Undisturbed (· ≠ .transform) family.world shifted.world :=
    hpassed.trans (World.undisturbed_edit hpassed.wf (by simp))
  have hforest : shifted.world.Forest := World.forest_of_undisturbed htended.forest hmoved
  have hcoherent : shifted.world.Coherent ⟨0, .initial⟩ :=
    World.coherent_edit hexact.coherent fun _ => rfl
  have hmarks : shifted.world.handles.map (fun e => (shifted.world.transform? e).map (·.dirty)) =
      [some false, some true] := by
    decide +kernel
  have h := (passes_start_from_scratch (m := shifted) hmoved.wf hforest).1 ⟨0, .initial⟩ hcoherent
  exact ⟨⟨hmoved.wf, hforest, hcoherent⟩, hmarks, h.1⟩

end Machine

end EntityScene
