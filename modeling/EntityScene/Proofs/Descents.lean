import EntityScene.Proofs.Courses

/-!
# The walk is a recursion

A pass keeps a list of the nodes that wait. Where the links below its root are those of a finite
tree, it does what a recursion does that visits a node and then its children, and hands down to
them what it found.

- `World.visit`: the recursion, down to a given depth. It has an answer if that is deep enough.
- `World.Laid`: the trees below some entities, as a list that has every entity before those
  below it.
- `World.Descent`: the visits of a recursion, which are also those of a walk, whoever else waits.
  `Descent.skip` and `Descent.visit` follow the cases of the recursion.
- `World.Hands`, `World.Handed`: what nodes hand down, as seen before the walk.
- `World.exists_descent`: on a tree the walk comes to whoever it is handed down to, and once.
- `World.passes_recur_on_trees`: a pass on a tree.
-/

namespace EntityScene.World

variable {U : Type} [SceneFamily U] [DecidableEq U] {w v : World (Kind U)}
variable {root x : Entity} {es order : List Entity} {u c : Visit U} {us : List (Visit U)}

/-- Visit a node below the given matrix, then each of its children in order below the matrix of
the node. An entity without placement or links is passed over. There is no answer if somebody is
to be visited who is deeper than the given depth. -/
def visit (depth : Nat) (w : World (Kind U)) (e : Entity) (parent : (geometry U).Matrix) (inherited : Bool) :
    Option (World (Kind U)) :=
  match w.transform? e, w.node? e with
  | some t, some node =>
    match depth with
    | 0 => none
    | depth + 1 =>
      let t' := t.refresh parent inherited
      node.children.foldlM
        (fun w child => visit depth w child t'.localToWorld (inherited || t.dirty))
        (w.edit .transform e fun t => Transform.refresh t parent inherited)
  | _, _ => some w

/-- The trees below some entities in one list: an entity comes before those below it, and these
come child by child. -/
inductive Laid (w : World (Kind U)) : List Entity → List Entity → Prop
  | nil : Laid w [] []
  | cons {e : Entity} {es below rest : List Entity} (hbelow : Laid w (w.childrenOf e) below)
      (hrest : Laid w es rest) : Laid w (e :: es) (e :: below ++ rest)

/-- The tree below one entity. -/
theorem laid_singleton {e : Entity} {below : List Entity} (h : w.Laid (w.childrenOf e) below) :
    w.Laid [e] (e :: below) := by
  have hlaid := Laid.cons h .nil
  rwa [List.append_nil] at hlaid

theorem Laid.append {es es' order order' : List Entity} (h : w.Laid es order)
    (h' : w.Laid es' order') : w.Laid (es ++ es') (order ++ order') := by
  induction h with
  | nil => exact h'
  | cons hbelow _ _ ihrest =>
    rw [List.append_assoc]
    exact .cons hbelow ihrest

/-- Whether a walk is cut short: there is no room, and somebody waits who could be visited. -/
def cutShort (w : World (Kind U)) : (room : Nat) → List (Visit U) → Bool
  | 0, waiting => (w.nextVisit? waiting).isSome
  | room + 1, waiting =>
    match w.nextVisit? waiting with
    | none => false
    | some (u, t, node, rest) => (w.attend u).cutShort room (handDown u t node ++ rest)

/-- The entity has a placement and links. -/
def Visitable (w : World (Kind U)) (x : Entity) : Prop :=
  (w.transform? x).isSome ∧ (w.node? x).isSome

/-! ## The recursion and the walk, case by case -/

theorem visitable_of {t : Transform (geometry U)} {node : TreeNode} (ht : w.transform? x = some t)
    (hnode : w.node? x = some node) : w.Visitable x := by
  constructor
  · rw [ht]
    rfl
  · rw [hnode]
    rfl

theorem Visitable.exists_some (h : w.Visitable x) :
    ∃ t node, w.transform? x = some t ∧ w.node? x = some node := by
  obtain ⟨t, ht⟩ := Option.isSome_iff_exists.mp h.1
  obtain ⟨node, hnode⟩ := Option.isSome_iff_exists.mp h.2
  exact ⟨t, node, ht, hnode⟩

theorem nextVisit?_of_not_visitable (h : ¬ w.Visitable u.entity) (rest : List (Visit U)) :
    w.nextVisit? (u :: rest) = w.nextVisit? rest := by
  rw [nextVisit?]
  split
  · rename_i ht hnode
    exact absurd (visitable_of ht hnode) h
  · rfl

theorem visit_of_not_visitable (h : ¬ w.Visitable x) (depth : Nat) (parent : (geometry U).Matrix)
    (inherited : Bool) : visit depth w x parent inherited = some w := by
  unfold visit
  split
  · rename_i ht hnode
    exact absurd (visitable_of ht hnode) h
  · rfl

/-- The recursion makes these visits, if it may go down that many nodes, and so does a walk,
whoever else waits. -/
structure Descent (w : World (Kind U)) (us visits : List (Visit U)) : Prop where
  recursion : ∀ depth, visits.length ≤ depth →
    us.foldlM (fun w u => visit depth w u.entity u.parent u.inherited) w =
      some (visits.foldl attend w)
  walk : ∀ room waiting, w.visits (visits.length + room) (us ++ waiting) =
    visits ++ (visits.foldl attend w).visits room waiting
  room : ∀ room waiting, w.cutShort (visits.length + room) (us ++ waiting) =
    (visits.foldl attend w).cutShort room waiting

namespace Descent

variable {visits below rest : List (Visit U)}

theorem nil (w : World (Kind U)) : Descent w [] [] := by
  constructor
  · exact fun _ _ => rfl
  · intro room waiting
    rw [List.length_nil, Nat.zero_add]
    rfl
  · intro room waiting
    rw [List.length_nil, Nat.zero_add]
    rfl

/-- Who lacks a placement or links is passed over. -/
theorem skip (hu : ¬ w.Visitable u.entity) (h : Descent w us visits) :
    Descent w (u :: us) visits := by
  have hnext := fun waiting => nextVisit?_of_not_visitable hu (us ++ waiting)
  constructor
  · intro depth hdepth
    rw [List.foldlM_cons, visit_of_not_visitable hu]
    exact h.recursion depth hdepth
  · intro room waiting
    rw [← h.walk, List.cons_append]
    cases visits.length + room with
    | zero => rfl
    | succ n => rw [World.visits, World.visits, hnext]
  · intro room waiting
    rw [← h.room, List.cons_append]
    cases visits.length + room with
    | zero => rw [cutShort, cutShort, hnext]
    | succ n => rw [cutShort, cutShort, hnext]

/-- Who is visited comes before its children, and these come before whoever else waits. -/
theorem visit {t : Transform (geometry U)} {node : TreeNode} (ht : w.transform? u.entity = some t)
    (hnode : w.node? u.entity = some node) (hbelow : Descent (w.attend u) (handDown u t node) below)
    (hrest : Descent (below.foldl attend (w.attend u)) us rest) :
    Descent w (u :: us) (u :: below ++ rest) := by
  have hnext : ∀ waiting,
      w.nextVisit? (u :: (us ++ waiting)) = some (u, t, node, us ++ waiting) := by
    intro waiting
    rw [nextVisit?, ht, hnode]
  have hworld : (u :: below ++ rest).foldl attend w =
      rest.foldl attend (below.foldl attend (w.attend u)) := by
    rw [List.cons_append, List.foldl_cons, List.foldl_append]
  have hlength : ∀ room, (u :: below ++ rest).length + room =
      (below.length + (rest.length + room)) + 1 := by
    intro room
    simp only [List.cons_append, List.length_cons, List.length_append]
    omega
  constructor
  · intro depth hdepth
    simp only [List.cons_append, List.length_cons, List.length_append] at hdepth
    obtain ⟨depth, rfl⟩ := Nat.exists_eq_add_one_of_ne_zero (show depth ≠ 0 by omega)
    have hself : World.visit (depth + 1) w u.entity u.parent u.inherited =
        some (below.foldl attend (w.attend u)) := by
      rw [World.visit, ht, hnode, ← hbelow.recursion depth (by omega), handDown, List.foldlM_map]
      rfl
    rw [List.foldlM_cons, hself, hworld]
    exact hrest.recursion (depth + 1) (by omega)
  · intro room waiting
    rw [hlength, List.cons_append, World.visits, hnext]
    show u :: (w.attend u).visits _ (handDown u t node ++ (us ++ waiting)) = _
    rw [hbelow.walk, hrest.walk, hworld, List.cons_append, List.cons_append, List.append_assoc]
  · intro room waiting
    rw [hlength, List.cons_append, cutShort, hnext]
    show (w.attend u).cutShort _ (handDown u t node ++ (us ++ waiting)) = _
    rw [hbelow.room, hrest.room, hworld]

end Descent

/-! ## What is handed down -/

/-- What a node hands down to its children. -/
def Hands (w : World (Kind U)) (u c : Visit U) : Prop :=
  ∃ t node, w.transform? u.entity = some t ∧ w.node? u.entity = some node ∧ c ∈ handDown u t node

/-- What comes down from one node to another. -/
def Handed (w : World (Kind U)) : Visit U → Visit U → Prop := Relation.ReflTransGen w.Hands

theorem Handed.cases_head (h : w.Handed u c) :
    u = c ∨ ∃ t node first, w.transform? u.entity = some t ∧ w.node? u.entity = some node ∧
      first ∈ handDown u t node ∧ w.Handed first c := by
  rcases Relation.ReflTransGen.cases_head h with heq | ⟨first, ⟨t, node, ht, hnode, hfirst⟩, hc⟩
  · exact .inl heq
  · exact .inr ⟨t, node, first, ht, hnode, hfirst, hc⟩

/-- Who can be visited, and waits or is handed something by those who wait. -/
def Due (w : World (Kind U)) (us : List (Visit U)) (c : Visit U) : Prop :=
  w.Visitable c.entity ∧ ∃ u ∈ us, w.Handed u c

/-- Nothing comes down from a node that is passed over. -/
theorem due_cons_of_not_visitable (hu : ¬ w.Visitable u.entity) :
    w.Due (u :: us) c ↔ w.Due us c := by
  constructor
  · rintro ⟨hc, u', hmem, hhanded⟩
    rcases List.mem_cons.mp hmem with rfl | hmem
    · rcases hhanded.cases_head with rfl | ⟨t, node, -, ht, hnode, -, -⟩
      · exact absurd hc hu
      · exact absurd (visitable_of ht hnode) hu
    · exact ⟨hc, u', hmem, hhanded⟩
  · rintro ⟨hc, u', hmem, hhanded⟩
    exact ⟨hc, u', List.mem_cons_of_mem u hmem, hhanded⟩

/-- What comes down from a visited node comes down from its children. -/
theorem due_cons {t : Transform (geometry U)} {node : TreeNode} (ht : w.transform? u.entity = some t)
    (hnode : w.node? u.entity = some node) :
    w.Due (u :: us) c ↔ c = u ∨ w.Due (handDown u t node) c ∨ w.Due us c := by
  constructor
  · rintro ⟨hc, u', hmem, hhanded⟩
    rcases List.mem_cons.mp hmem with rfl | hmem
    · rcases hhanded.cases_head with rfl | ⟨t', node', first, ht', hnode', hfirst, hrest⟩
      · exact .inl rfl
      · rw [ht] at ht'
        rw [hnode] at hnode'
        obtain rfl := Option.some.inj ht'
        obtain rfl := Option.some.inj hnode'
        exact .inr (.inl ⟨hc, first, hfirst, hrest⟩)
    · exact .inr (.inr ⟨hc, u', hmem, hhanded⟩)
  · rintro (rfl | ⟨hc, first, hfirst, hrest⟩ | ⟨hc, u', hmem, hhanded⟩)
    · exact ⟨visitable_of ht hnode, c, List.mem_cons_self, .refl⟩
    · exact ⟨hc, u, List.mem_cons_self, .head ⟨t, node, ht, hnode, hfirst⟩ hrest⟩
    · exact ⟨hc, u', List.mem_cons_of_mem u hmem, hhanded⟩

theorem transform?_foldl_attend_of_not_mem {visits : List (Visit U)}
    (hx : x ∉ visits.map (·.entity)) : (visits.foldl attend w).transform? x = w.transform? x := by
  induction visits generalizing w with
  | nil => rfl
  | cons u visits ih =>
    rw [List.map_cons, List.mem_cons, not_or] at hx
    rw [List.foldl_cons, ih hx.2, transform?_attend, if_neg hx.1]

/-- On a tree everybody is visited who is handed something down and can be visited, and in the
order of the tree. -/
theorem exists_descent (hlaid : w.Laid es order) (hnodup : order.Nodup)
    (hus : us.map (·.entity) = es) (hkept : Kept w v)
    (hsame : ∀ x ∈ order, v.transform? x = w.transform? x) :
    ∃ visits, Descent v us visits ∧ (visits.map (·.entity)).Sublist order ∧
      ∀ c, c ∈ visits ↔ w.Due us c := by
  induction hlaid generalizing us v with
  | nil =>
    rw [List.map_eq_nil_iff] at hus
    subst hus
    exact ⟨[], .nil v, List.Sublist.refl _, fun c => by simp [Due]⟩
  | @cons e es below rest _ _ ihbelow ihrest =>
    rw [List.map_eq_cons_iff] at hus
    obtain ⟨u, us, rfl, rfl, hus⟩ := hus
    rw [List.cons_append, List.nodup_cons, List.nodup_append'] at hnodup
    obtain ⟨hfresh, hbelow, hrest, hdisjoint⟩ := hnodup
    rw [List.mem_append, not_or] at hfresh
    by_cases hu : w.Visitable u.entity
    · obtain ⟨t, node, ht, hnode⟩ := hu.exists_some
      have hlist : (handDown u t node).map (·.entity) = w.childrenOf u.entity := by
        rw [map_entity_handDown, childrenOf, hnode]
        rfl
      -- a visit changes one placement only, so those below and those behind are what they were
      have hvisited := hkept.trans (passed_attend v u).kept
      have hahead : ∀ x ∈ below, (v.attend u).transform? x = w.transform? x := by
        intro x hx
        have hne : x ≠ u.entity := fun heq => hfresh.1 (heq ▸ hx)
        rw [transform?_attend, if_neg hne]
        exact hsame x (by simp [hx])
      obtain ⟨visits, hvisits, hsub, hmem⟩ := ihbelow hbelow hlist hvisited hahead
      have hdone := hvisited.trans (passed_foldl_attend _ visits).kept
      have hbehind : ∀ x ∈ rest,
          (visits.foldl attend (v.attend u)).transform? x = w.transform? x := by
        intro x hx
        have hne : x ≠ u.entity := fun heq => hfresh.2 (heq ▸ hx)
        rw [transform?_foldl_attend_of_not_mem fun hmem => hdisjoint (hsub.subset hmem) hx,
          transform?_attend, if_neg hne]
        exact hsame x (by simp [hx])
      obtain ⟨others, hothers, hsub', hmem'⟩ := ihrest hrest hus hdone hbehind
      refine ⟨u :: visits ++ others, ?_, ?_, ?_⟩
      · exact .visit ((hsame _ (by simp)).trans ht) ((hkept.node? _).trans hnode) hvisits hothers
      · rw [List.cons_append, List.map_cons, List.map_append]
        exact (hsub.append hsub').cons_cons _
      · intro c
        rw [List.cons_append, List.mem_cons, List.mem_append, hmem, hmem', due_cons ht hnode]
    · have hbehind : ∀ x ∈ rest, v.transform? x = w.transform? x := fun x hx =>
        hsame x (by simp [hx])
      obtain ⟨visits, hvisits, hsub, hmem⟩ := ihrest hrest hus hkept hbehind
      refine ⟨visits, .skip (fun hv => hu ?_) hvisits, ?_, fun c => ?_⟩
      · rw [Visitable, hsame _ (by simp), hkept.node?] at hv
        exact hv
      · exact (hsub.trans (List.sublist_append_right _ _)).cons _
      · rw [hmem, due_cons_of_not_visitable hu]

/-! ## Whom a walk comes to -/

/-- A walk from a root comes to an entity, along nodes with placements. The matrix is what is
remembered for the parent of the entity, or the identity for the root; the mark says whether
somebody from the root to the entity is dirty. -/
inductive Reached (w : World (Kind U)) (root : Entity) : Entity → (geometry U).Matrix → Bool → Prop
  | root {t : Transform (geometry U)} (ht : w.transform? root = some t) (hnode : (w.node? root).isSome) :
      Reached w root root (geometry U).identity t.dirty
  | child {p x : Entity} {M : (geometry U).Matrix} {b : Bool} {above t : Transform (geometry U)} (hp : Reached w root p M b)
      (habove : w.transform? p = some above) (hx : x ∈ w.childrenOf p)
      (ht : w.transform? x = some t) (hnode : (w.node? x).isSome) :
      Reached w root x above.localToWorld (b || t.dirty)

/-- Who is handed something is reached, with the matrix that it is handed if it is clean all the
way. -/
theorem reached_of_due (h : w.Due [.start root] c) :
    ∃ M t, w.transform? c.entity = some t ∧ w.Reached root c.entity M (c.inherited || t.dirty) ∧
      (c.inherited = false → c.parent = M) := by
  obtain ⟨hc, u, hu, hhanded⟩ := h
  rw [List.mem_singleton] at hu
  subst hu
  induction hhanded with
  | refl =>
    obtain ⟨t, node, ht, hnode⟩ := hc.exists_some
    refine ⟨(geometry U).identity, t, ht, .root ht hc.2, fun _ => rfl⟩
  | @tail p c _ hhands ih =>
    obtain ⟨above, node, habove, hnode, hmem⟩ := hhands
    obtain ⟨M, t', ht', hp, -⟩ := ih (visitable_of habove hnode)
    rw [habove] at ht'
    obtain rfl := Option.some.inj ht'
    obtain ⟨x, hx, rfl⟩ := List.mem_map.mp hmem
    obtain ⟨t, -, ht, -⟩ := hc.exists_some
    have hlist : x ∈ w.childrenOf p.entity := by
      rw [childrenOf, hnode]
      exact hx
    refine ⟨above.localToWorld, t, ht, .child hp habove hlist ht hc.2, fun hclean => ?_⟩
    obtain ⟨hinherited, hdirty⟩ := Bool.or_eq_false_iff.mp hclean
    exact congrArg Transform.localToWorld (Transform.refresh_eq_self hinherited hdirty)

theorem due_start (h : w.Visitable root) : w.Due [.start root] (.start root) :=
  ⟨h, _, List.mem_singleton_self _, .refl⟩

/-- What a node hands down to one of its children. -/
theorem Due.child {above : Transform (geometry U)} (h : w.Due us c) (habove : w.transform? c.entity = some above)
    (hx : x ∈ w.childrenOf c.entity) (hvisitable : w.Visitable x) :
    w.Due us ⟨x, (above.refresh c.parent c.inherited).localToWorld, c.inherited || above.dirty⟩ := by
  obtain ⟨hc, u, hu, hhanded⟩ := h
  obtain ⟨-, node, -, hnode⟩ := hc.exists_some
  rw [childrenOf, hnode] at hx
  exact ⟨hvisitable, u, hu, hhanded.tail ⟨above, node, habove, hnode, List.mem_map_of_mem hx⟩⟩

theorem visits_nil (w : World (Kind U)) (room : Nat) : w.visits room [] = [] := by
  cases room <;> rfl

/-- The visits of a pass on a tree. There is room for all of them. -/
structure Toured (w : World (Kind U)) (root : Entity) (order : List Entity) (visits : List (Visit U)) :
    Prop where
  descent : Descent w.readied [.start root] visits
  sublist : (visits.map (·.entity)).Sublist order
  mem_iff : ∀ c, c ∈ visits ↔ w.Due [.start root] c
  room : visits.length ≤ w.readied.aliveCount

namespace Toured

variable {visits : List (Visit U)}

theorem visits_eq (h : w.Toured root order visits) :
    w.readied.visits w.readied.aliveCount [.start root] = visits := by
  obtain ⟨room, hroom⟩ := Nat.exists_eq_add_of_le h.room
  have hwalk := h.descent.walk room []
  rwa [List.append_nil, visits_nil, List.append_nil, ← hroom] at hwalk

theorem updateTransform_eq (h : w.Toured root order visits) :
    w.updateTransform root = visits.foldl attend w.readied := by
  rw [World.updateTransform_eq, propagate_eq_foldl, h.visits_eq]

end Toured

theorem exists_toured (htable : w.entities.Wf) (h : w.Paired) (htree : w.Laid [root] order)
    (hnodup : order.Nodup) : ∃ visits, w.Toured root order visits := by
  have hstart : [Visit.start (U := U) root].map (·.entity) = [root] := rfl
  obtain ⟨visits, hdescent, hsub, hmem⟩ := exists_descent htree hnodup hstart
    (passed_readied h).kept fun x _ => transform?_readied h x
  refine ⟨visits, { descent := hdescent, sublist := hsub, mem_iff := hmem, room := ?_ }⟩
  -- everybody who is visited is alive, and nobody is visited twice
  have hvalid : ∀ x ∈ visits.map (·.entity), w.isValid x = true := by
    intro x hx
    obtain ⟨c, hc, rfl⟩ := List.mem_map.mp hx
    obtain ⟨t, -, ht, -⟩ := ((hmem c).mp hc).1.exists_some
    exact isValid_of_transform? ht
  have hle := Entity.Table.length_le_aliveCount htable (hnodup.sublist hsub) hvalid
  rwa [List.length_map] at hle

end EntityScene.World
