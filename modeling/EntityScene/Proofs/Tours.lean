import EntityScene.Proofs.Descents
import EntityScene.Proofs.Forests

/-!
# A pass through a forest

The links below any node of a forest are those of a finite tree, so a pass from there visits
everybody who is reached once, and what it leaves behind can be said in one equation: everybody
who is reached has its placement as the one visit refreshed it, and all others have theirs.

- `World.suffix_of_below`: the way up from somebody below an entity ends with that of the entity.
- `World.exists_laid`, `World.nodup_of_laid`: the tree below an entity of a forest.
- `World.transform?_of_due`, `World.transform?_of_not_reached`: what a pass leaves behind.
-/

namespace EntityScene.World

variable {U : Type} [SceneFamily U] [DecidableEq U] {w v : World (Kind U)}
variable {e c x root : Entity} {es order path : List Entity}

/-! ## The tree below an entity -/

theorem below_iff_head : w.Below e x ↔ e = x ∨ ∃ c ∈ w.childrenOf e, w.Below c x := by
  constructor
  · intro h
    exact Relation.ReflTransGen.cases_head h
  · rintro (rfl | ⟨c, hc, hx⟩)
    · exact .refl w e
    · exact Relation.ReflTransGen.head hc hx

/-- The way up from somebody below an entity ends with the way up from the entity. -/
theorem suffix_of_below (hforest : w.Forest) (h : w.Below e x) (hpath : w.Ascent x path) :
    ∃ above, w.Ascent e above ∧ e :: above <:+ x :: path := by
  induction h generalizing path with
  | refl => exact ⟨path, hpath, List.suffix_refl _⟩
  | @tail p x _ hx ih =>
    have hp : w.parentOf? x = some p := (hforest.linked p x).mp hx
    cases hpath with
    | root hroot =>
      rw [hroot] at hp
      cases hp
    | step hp' hup =>
      rw [hp] at hp'
      obtain rfl := Option.some.inj hp'
      obtain ⟨above, habove, hsuffix⟩ := ih hup
      exact ⟨above, habove, hsuffix.trans (List.suffix_cons x _)⟩

/-- Nobody is below two entities as high as each other. -/
theorem eq_of_below_of_below (hforest : w.Forest) {e' : Entity} {above above' : List Entity}
    (he : w.Ascent e above) (he' : w.Ascent e' above') (hlength : above.length = above'.length)
    (h : w.Below e x) (h' : w.Below e' x) : e = e' := by
  obtain ⟨path, hpath, -⟩ := hforest.rooted x
  obtain ⟨up, hup, hsuffix⟩ := suffix_of_below hforest h hpath
  obtain ⟨up', hup', hsuffix'⟩ := suffix_of_below hforest h' hpath
  obtain rfl := he.unique hup
  obtain rfl := he'.unique hup'
  have hsub : e :: above <:+ e' :: above' :=
    List.suffix_of_suffix_length_le hsuffix hsuffix' (by simp [hlength])
  exact (List.cons.inj (hsub.eq_of_length (by simp [hlength]))).1

theorem ascent_of_child (hforest : w.Forest) (hpath : w.Ascent e path)
    (hc : c ∈ w.childrenOf e) : w.Ascent c (e :: path) :=
  .step ((hforest.linked e c).mp hc) hpath

theorem exists_laid_of_forall (h : ∀ e ∈ es, ∃ order, w.Laid [e] order) :
    ∃ order, w.Laid es order := by
  induction es with
  | nil => exact ⟨[], .nil⟩
  | cons e es ih =>
    obtain ⟨first, hfirst⟩ := h e List.mem_cons_self
    obtain ⟨rest, hrest⟩ := ih fun x hx => h x (List.mem_cons_of_mem e hx)
    exact ⟨first ++ rest, hfirst.append hrest⟩

/-- The tree below an entity is finite: there are no more nodes on a way up than are alive. -/
theorem exists_laid (hwf : w.Wf) (hforest : w.Forest) (e : Entity) :
    ∃ order, w.Laid [e] order := by
  have hchildren : ∀ e, (∀ c ∈ w.childrenOf e, ∃ order, w.Laid [c] order) →
      ∃ order, w.Laid [e] order := by
    intro e h
    obtain ⟨below, hbelow⟩ := exists_laid_of_forall h
    exact ⟨e :: below, laid_singleton hbelow⟩
  have hbounded : ∀ (n : Nat) (e : Entity) (path : List Entity), w.Ascent e path →
      w.aliveCount ≤ path.length + n → ∃ order, w.Laid [e] order := by
    intro n
    induction n with
    | zero =>
      intro e path hpath hle
      refine hchildren e fun c hc => ?_
      have hup := length_le_aliveCount_of_ascent hforest hwf (ascent_of_child hforest hpath hc)
      rw [List.length_cons] at hup
      omega
    | succ n ih =>
      intro e path hpath hle
      refine hchildren e fun c hc => ih c (e :: path) (ascent_of_child hforest hpath hc) ?_
      rw [List.length_cons]
      omega
  obtain ⟨path, hpath, -⟩ := hforest.rooted e
  exact hbounded w.aliveCount e path hpath (Nat.le_add_left _ _)

theorem mem_of_laid (h : w.Laid es order) : x ∈ order ↔ ∃ e ∈ es, w.Below e x := by
  induction h with
  | nil => simp
  | @cons e es below rest _ _ ihbelow ihrest =>
    rw [List.cons_append, List.mem_cons, List.mem_append, ihbelow, ihrest]
    simp only [List.exists_mem_cons_iff, below_iff_head (e := e), or_assoc, eq_comm]

/-- Nobody is listed twice, if nobody is below two of the entities. -/
theorem nodup_of_laid (hforest : w.Forest) (h : w.Laid es order) (hes : es.Nodup)
    (hapart : ∀ e ∈ es, ∀ e' ∈ es, ∀ x, w.Below e x → w.Below e' x → e = e') : order.Nodup := by
  induction h with
  | nil => exact List.nodup_nil
  | @cons e es below rest hbelow hrest ihbelow ihrest =>
    obtain ⟨hfresh, hes⟩ := List.nodup_cons.mp hes
    obtain ⟨path, hpath, -⟩ := hforest.rooted e
    have hchild : ∀ c ∈ w.childrenOf e, w.Ascent c (e :: path) := fun c hc =>
      ascent_of_child hforest hpath hc
    rw [List.cons_append, List.nodup_cons, List.mem_append, not_or, List.nodup_append']
    refine ⟨⟨fun he => ?_, fun he => ?_⟩, ?_, ?_, fun x hx hx' => ?_⟩
    · obtain ⟨c, hc, hx⟩ := (mem_of_laid hbelow).mp he
      obtain ⟨above, habove, hsuffix⟩ := suffix_of_below hforest hx hpath
      obtain rfl := habove.unique (hchild c hc)
      have hlength := hsuffix.length_le
      simp only [List.length_cons] at hlength
      omega
    · obtain ⟨e', he', hx⟩ := (mem_of_laid hrest).mp he
      have heq := hapart e List.mem_cons_self e' (List.mem_cons_of_mem e he') e (.refl w e) hx
      exact hfresh (heq ▸ he')
    · refine ihbelow (hforest.nodup e) fun c hc c' hc' x hx hx' => ?_
      exact eq_of_below_of_below hforest (hchild c hc) (hchild c' hc') rfl hx hx'
    · exact ihrest hes fun c hc c' hc' =>
        hapart c (List.mem_cons_of_mem e hc) c' (List.mem_cons_of_mem e hc')
    · have hbelow_e := below_iff_head.mpr (.inr ((mem_of_laid hbelow).mp hx))
      obtain ⟨e', he', hrest_e'⟩ := (mem_of_laid hrest).mp hx'
      have heq := hapart e List.mem_cons_self e' (List.mem_cons_of_mem e he') x hbelow_e hrest_e'
      exact hfresh (heq ▸ he')

/-- A pass from a node of a forest is one on a tree. -/
theorem exists_toured_of_forest (hwf : w.Wf) (hforest : w.Forest) (root : Entity) :
    ∃ order visits, order.Nodup ∧ w.Toured root order visits := by
  obtain ⟨order, hlaid⟩ := exists_laid hwf hforest root
  have hnodup : order.Nodup := by
    refine nodup_of_laid hforest hlaid (List.nodup_singleton root) fun e he e' he' _ _ _ => ?_
    rw [List.mem_singleton.mp he, List.mem_singleton.mp he']
  obtain ⟨visits, hvisits⟩ := exists_toured hwf.table hwf.paired hlaid hnodup
  exact ⟨order, visits, hnodup, hvisits⟩

/-! ## What a pass leaves behind -/

/-- Who is visited once is refreshed once. -/
theorem transform?_foldl_attend {visits : List (Visit U)} {u : Visit U}
    (hnodup : (visits.map (·.entity)).Nodup) (hu : u ∈ visits) :
    (visits.foldl attend w).transform? u.entity =
      (w.transform? u.entity).map (·.refresh u.parent u.inherited) := by
  induction visits generalizing w with
  | nil => cases hu
  | cons first visits ih =>
    rw [List.map_cons, List.nodup_cons] at hnodup
    rw [List.foldl_cons]
    rcases List.mem_cons.mp hu with rfl | hu
    · rw [transform?_foldl_attend_of_not_mem hnodup.1, transform?_attend, if_pos rfl]
    · have hne : u.entity ≠ first.entity := fun heq =>
        hnodup.1 (heq ▸ List.mem_map_of_mem hu)
      rw [ih hnodup.2 hu, transform?_attend, if_neg hne]

/-- Who is reached has its placement refreshed below the matrix that it is handed. -/
theorem transform?_of_due (hwf : w.Wf) (hforest : w.Forest) {u : Visit U}
    (hu : w.Due [.start root] u) : (w.updateTransform root).transform? u.entity =
      (w.transform? u.entity).map (·.refresh u.parent u.inherited) := by
  obtain ⟨order, visits, hnodup, h⟩ := exists_toured_of_forest hwf hforest root
  rw [h.updateTransform_eq, ← transform?_readied hwf.paired]
  exact transform?_foldl_attend (hnodup.sublist h.sublist) ((h.mem_iff u).mpr hu)

/-- Who is not reached has the placement that it had. -/
theorem transform?_of_not_reached (hwf : w.Wf) (hforest : w.Forest)
    (hx : ∀ M b, ¬ w.Reached root x M b) :
    (w.updateTransform root).transform? x = w.transform? x := by
  obtain ⟨order, visits, -, h⟩ := exists_toured_of_forest hwf hforest root
  rw [h.updateTransform_eq, ← transform?_readied hwf.paired]
  refine transform?_foldl_attend_of_not_mem fun hmem => ?_
  obtain ⟨u, hu, rfl⟩ := List.mem_map.mp hmem
  obtain ⟨M, t, -, hreached, -⟩ := reached_of_due ((h.mem_iff u).mp hu)
  exact hx M _ hreached

end EntityScene.World
