import EntityScene.Proofs.Renewals

/-!
# A pass finds every matrix again

A pass finds the matrices of those that are dirty or below a dirty node again, each below that
of its parent, and leaves the others alone. So if what it leaves alone is right against the whole
way up to the root, then everything is right against the whole way up afterwards.

- `World.worldMatrix?`: the product of the local matrices from the root down to an entity.
- `World.Way`: the way up to a root along placed nodes, with that product, and whether somebody
  on it is dirty.
- `World.Sure`: where nobody is dirty on the way the matrix is right.
- `World.coherent_of_sure`, `World.lit_of_exact`: right against the way up, and right against the
  parent.
- `World.lit_updateAllTransforms`: after a pass from all roots the matrices are right wherever
  there is a way, and nobody there is dirty.
-/

namespace EntityScene

namespace World

variable {U : Type} [SceneFamily U] [DecidableEq U] {w v : World (Kind U)}
variable {r e x p : Entity} {M : (geometry U).Matrix} {b : Bool}

/-! ## From a node to the world -/

/-- From an entity to the world: the product of the local matrices from the root down. There is
none unless the entity and all its ancestors have a placement and links. -/
def worldMatrix? (w : World (Kind U)) (e : Entity) : Option (geometry U).Matrix :=
  (e :: w.ancestors e).foldr (fun x above => do
    let _ ← w.node? x
    let t ← w.transform? x
    return (← above) * t.localMatrix) (some (geometry U).identity)

/-- The way from an entity up to a root along nodes that have a placement: the product of the
local matrices, and whether somebody on the way is dirty. -/
inductive Way (w : World (Kind U)) (r : Entity) : Entity → (geometry U).Matrix → Bool → Prop
  | root {t : Transform (geometry U)} (hroot : w.parentOf? r = none) (hnode : (w.node? r).isSome)
      (ht : w.transform? r = some t) : Way w r r ((geometry U).identity * t.localMatrix) t.dirty
  | step {x p : Entity} {M : (geometry U).Matrix} {b : Bool} {t : Transform (geometry U)} (hp : w.parentOf? x = some p)
      (hup : Way w r p M b) (ht : w.transform? x = some t) :
      Way w r x (M * t.localMatrix) (b || t.dirty)

/-- The matrix of an entity is the given one, and it is not dirty. -/
def Lit (w : World (Kind U)) (x : Entity) (M : (geometry U).Matrix) : Prop :=
  ∃ t, w.transform? x = some t ∧ t.dirty = false ∧ t.localToWorld = M

/-- Where nobody is dirty on the way the matrix is right. -/
def Sure (w : World (Kind U)) : Prop := ∀ {r x M}, w.Way r x M false → w.Lit x M

/-- Matrices are right wherever there is a way up. -/
def AllLit (w : World (Kind U)) : Prop := ∀ {r x M b}, w.Way r x M b → w.Lit x M

namespace Way

theorem isSome_node? (h : w.Way r x M b) : (w.node? x).isSome := by
  cases h with
  | root _ hnode _ => exact hnode
  | step hp _ _ => exact isSome_node?_of_parentOf? hp

theorem exists_transform? (h : w.Way r x M b) : ∃ t, w.transform? x = some t := by
  cases h with
  | root _ _ ht => exact ⟨_, ht⟩
  | step _ _ ht => exact ⟨_, ht⟩

/-- Whoever is dirty is dirty on the way. -/
theorem clean (h : w.Way r x M b) (hb : b = false) {t : Transform (geometry U)} (ht : w.transform? x = some t) :
    t.dirty = false := by
  cases h with
  | root _ _ ht' =>
    rw [ht] at ht'
    exact Option.some.inj ht' ▸ hb
  | step _ _ ht' =>
    rw [ht] at ht'
    exact Option.some.inj ht' ▸ (Bool.or_eq_false_iff.mp hb).2

end Way

/-- There is a product where the entity and all its ancestors have a placement and links. -/
theorem exists_worldMatrix? (hx : ∀ y ∈ x :: w.ancestors x,
    (w.node? y).isSome ∧ (w.transform? y).isSome) : ∃ M, w.worldMatrix? x = some M := by
  have hfold : ∀ es : List Entity, (∀ y ∈ es, (w.node? y).isSome ∧ (w.transform? y).isSome) →
      ∃ M, es.foldr (fun x above => do
        let _ ← w.node? x
        let t ← w.transform? x
        return (← above) * t.localMatrix) (some (geometry U).identity) = some M := by
    intro es
    induction es with
    | nil => exact fun _ => ⟨_, rfl⟩
    | cons y es ih =>
      intro hes
      obtain ⟨M, hM⟩ := ih fun z hz => hes z (List.mem_cons_of_mem y hz)
      obtain ⟨hnode, hplaced⟩ := hes y List.mem_cons_self
      obtain ⟨node, hnode⟩ := Option.isSome_iff_exists.mp hnode
      obtain ⟨t, ht⟩ := Option.isSome_iff_exists.mp hplaced
      refine ⟨M * t.localMatrix, ?_⟩
      rw [List.foldr_cons, hM, hnode, ht]
      rfl
  exact hfold _ hx

/-- The product over the ancestors is that of the way. -/
theorem exists_way_of_worldMatrix? (hforest : w.Forest) (hwf : w.Wf)
    (h : w.worldMatrix? x = some M) : ∃ r b, w.Way r x M b := by
  obtain ⟨path, hpath, -⟩ := hforest.rooted x
  rw [worldMatrix?, ancestors_of_ascent hforest hwf hpath] at h
  induction hpath generalizing M with
  | @root x hroot =>
    simp only [List.foldr_cons, List.foldr_nil, Option.bind_eq_bind, Option.bind_eq_some_iff,
      Option.pure_def, Option.some.injEq, Option.bind_some] at h
    obtain ⟨node, hnode, t, ht, rfl⟩ := h
    exact ⟨x, t.dirty, .root hroot (by rw [hnode]; rfl) ht⟩
  | @step x p path hp _ ih =>
    rw [List.foldr_cons] at h
    simp only [Option.bind_eq_bind, Option.bind_eq_some_iff, Option.pure_def,
      Option.some.injEq] at h
    obtain ⟨node, -, t, ht, above, habove, rfl⟩ := h
    obtain ⟨r, b, hup⟩ := ih habove
    exact ⟨r, b || t.dirty, .step hp hup ht⟩

/-! ## What a pass leaves alone, and what it leaves behind -/

/-- Where everybody is clean from a root down, the matrix of the parent is the product of its
way. -/
theorem way_of_reached (hforest : w.Forest) (hroot : w.parentOf? r = none) (hsure : w.Sure)
    (h : w.Reached r x M b) (hb : b = false) {t : Transform (geometry U)} (ht : w.transform? x = some t) :
    w.Way r x (M * t.localMatrix) false := by
  induction h generalizing t with
  | root ht' hnode =>
    rw [ht] at ht'
    obtain rfl := Option.some.inj ht'
    exact hb ▸ .root hroot hnode ht
  | child _ habove hx ht' _ ih =>
    rw [ht] at ht'
    obtain rfl := Option.some.inj ht'
    obtain ⟨hbp, hclean⟩ := Bool.or_eq_false_iff.mp hb
    have hup := ih hbp habove
    obtain ⟨above, habove', -, hmatrix⟩ := hsure hup
    rw [habove] at habove'
    obtain rfl := Option.some.inj habove'
    rw [← hmatrix] at hup
    have hway := Way.step ((hforest.linked _ _).mp hx) hup ht
    rwa [hclean] at hway

/-- What a pass from a root leaves alone is right if it is right against the whole way up. -/
theorem coherent_of_sure (hforest : w.Forest) (hroot : w.parentOf? r = none) (hsure : w.Sure) :
    w.Coherent r := by
  intro x M t hx ht
  obtain ⟨t', ht', -, hmatrix⟩ := hsure (way_of_reached hforest hroot hsure hx rfl ht)
  rw [ht] at ht'
  exact Option.some.inj ht' ▸ hmatrix

/-- Whoever is right against its parent is right against the whole way up. -/
theorem lit_of_exact (hforest : w.Forest) (hexact : w.Exact r) (hway : w.Way r x M b) :
    w.Lit x M := by
  have hboth : w.Lit x M ∧ ∃ M', w.Reached r x M' b := by
    induction hway with
    | root _ hnode ht =>
      have hreached := Reached.root ht hnode
      exact ⟨⟨_, ht, hexact _ _ _ _ hreached ht⟩, _, hreached⟩
    | step hp _ ht ih =>
      obtain ⟨⟨above, habove, -, rfl⟩, M', hreached⟩ := ih
      have hchild := hreached.child habove ((hforest.linked _ _).mpr hp) ht
        (isSome_node?_of_parentOf? hp)
      exact ⟨⟨_, ht, hexact _ _ _ _ hchild ht⟩, _, hchild⟩
  exact hboth.1

/-- Every way up ends at a root that a pass starts from. -/
theorem isPlacedRoot_of_way (hway : w.Way r x M b) : w.isPlacedRoot r = true := by
  induction hway with
  | root hroot hnode ht =>
    obtain ⟨node, hnode⟩ := Option.isSome_iff_exists.mp hnode
    rw [isPlacedRoot, hnode, Option.any_some, Bool.and_eq_true]
    exact ⟨(parentOf?_eq_none_iff hnode).mp hroot, Option.isSome_iff_exists.mpr ⟨_, ht⟩⟩
  | step _ _ _ ih => exact ih

/-- A pass from every root finds the matrices of everybody who has a way up, if those that it
leaves alone are right. -/
theorem lit_updateAllTransforms (hwf : w.Wf) (hforest : w.Forest) (hsure : w.Sure) :
    w.updateAllTransforms.2.AllLit := by
  intro r x M b hway
  have hrenewed := renewed_updateAllTransforms hwf hforest fun r hr =>
    coherent_of_sure hforest (parentOf?_of_isPlacedRoot hr) hsure
  have hr := isPlacedRoot_of_way hway
  rw [hrenewed.passed.isPlacedRoot] at hr
  exact lit_of_exact (forest_of_undisturbed hforest hrenewed.links) (hrenewed.exact r hr) hway

end World

end EntityScene
