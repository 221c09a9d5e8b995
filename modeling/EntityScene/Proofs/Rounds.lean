import EntityScene.Proofs.Courses

/-!
# The rounds of a pass

A pass keeps a list of visits that wait, and takes the first of them round by round. A visit to
a node that lacks links or a placement is dropped and counts for nothing; any other puts all
children of its node in front. The list may grow that way for as long as links lead on, also
where they go round in circles, so what ends a pass on damaged links is the limit.

- `Round`, `Round.next?`: a pass in the middle of its rounds, with whom it has visited so far,
  and one round.
- `Round.Ends`: round after round until there is none.
- `Round.ends_propagate`, `World.rounds_of_updateTransform`: the rounds come to an end, for a
  number of rounds that the children of the visited bound, and the world is then as
  `World.updateTransform` says.
-/

namespace EntityScene

/-- A pass in the middle of its rounds. -/
structure Round (U : Type) [SceneFamily U] where
  world : World (Kind U)
  /-- The visits that wait, the next one first. -/
  waiting : List (Visit U)
  /-- Who was visited so far, and whether the matrix was found again. -/
  seen : List (Entity × Bool) := []

namespace Round

variable {U : Type} [SceneFamily U] [DecidableEq U] {limit : Nat} {r r' r'' : Round U}

/-- One round. There is none if nobody waits, or if the next node is one more than the pass may
visit. -/
def next? (limit : Nat) (r : Round U) : Option (Round U) :=
  match r.waiting with
  | [] => none
  | u :: rest =>
    match r.world.transform? u.entity, r.world.node? u.entity with
    | some t, some node =>
      if r.seen.length < limit then
        some
          { world := r.world.attend u
            waiting := World.handDown u t node ++ rest
            seen := r.seen ++ [(u.entity, u.inherited || t.dirty)] }
      else none
    | _, _ => some { r with waiting := rest }

/-- After so many rounds there is none any more. -/
inductive Ends (limit : Nat) : Round U → Nat → Round U → Prop
  | over {r : Round U} (h : r.next? limit = none) : Ends limit r 0 r
  | round {r r' r'' : Round U} {n : Nat} (h : r.next? limit = some r')
      (rest : Ends limit r' n r'') : Ends limit r (n + 1) r''

variable {w : World (Kind U)} {waiting rest : List (Visit U)} {seen : List (Entity × Bool)}
variable {u : Visit U} {n : Nat}

/-- Nobody who waits can be visited, so all are dropped. -/
theorem ends_of_nextVisit?_eq_none (h : w.nextVisit? waiting = none) :
    Ends limit ⟨w, waiting, seen⟩ waiting.length ⟨w, [], seen⟩ := by
  induction waiting with
  | nil => exact .over rfl
  | cons u waiting ih =>
    unfold World.nextVisit? at h
    split at h
    · cases h
    · rename_i hno
      refine .round ?_ (ih h)
      simp only [next?]

/-- Who waits in front of the first who can be visited is dropped. -/
theorem Ends.skip {t : Transform (geometry U)} {node : TreeNode}
    (h : w.nextVisit? waiting = some (u, t, node, rest))
    (hends : Ends limit ⟨w, u :: rest, seen⟩ n r) :
    ∃ k, k + (rest.length + 1) = waiting.length ∧ Ends limit ⟨w, waiting, seen⟩ (n + k) r := by
  induction waiting with
  | nil => cases h
  | cons first waiting ih =>
    unfold World.nextVisit? at h
    split at h
    · cases h
      exact ⟨0, by simp, hends⟩
    · obtain ⟨k, hk, hskip⟩ := ih h
      refine ⟨k + 1, by rw [List.length_cons]; omega, .round ?_ hskip⟩
      simp only [next?]

/-- Number of the children that the visited have. -/
def offspring (w : World (Kind U)) (es : List Entity) : Nat :=
  (es.flatMap w.childrenOf).length

theorem offspring_attend (w : World (Kind U)) (u : Visit U) (es : List Entity) :
    offspring (w.attend u) es = offspring w es := by
  have hchildren : (w.attend u).childrenOf = w.childrenOf := funext fun e => by
    simp only [World.childrenOf, (World.passed_attend w u).node?]
  rw [offspring, hchildren, offspring]

/-- The rounds come to an end, and have made the visits of the walk. -/
theorem ends_propagate (limit : Nat) (w : World (Kind U)) (room : Nat) (waiting : List (Visit U))
    (seen : List (Entity × Bool)) (hroom : seen.length + room = limit) :
    ∃ n r, Ends limit ⟨w, waiting, seen⟩ n r ∧ r.world = w.propagate room waiting ∧
      r.seen.map (·.1) = seen.map (·.1) ++ (w.visits room waiting).map (·.entity) ∧
      n ≤ waiting.length + offspring w ((w.visits room waiting).map (·.entity)) := by
  induction room generalizing w waiting seen with
  | zero =>
    cases hnext : w.nextVisit? waiting with
    | none =>
      refine ⟨_, _, ends_of_nextVisit?_eq_none hnext, rfl, ?_, Nat.le_add_right _ _⟩
      simp [World.visits]
    | some next =>
      -- somebody can be visited, but there is no room any more
      obtain ⟨u, t, node, rest⟩ := next
      obtain ⟨ht, hnode, -⟩ := World.nextVisit?_eq_some hnext
      have hfull : ¬ seen.length < limit := by omega
      have hover : Ends limit ⟨w, u :: rest, seen⟩ 0 ⟨w, u :: rest, seen⟩ :=
        .over (by simp only [next?, ht, hnode, if_neg hfull])
      obtain ⟨k, hk, hends⟩ := hover.skip hnext
      refine ⟨_, _, hends, rfl, by simp [World.visits], ?_⟩
      omega
  | succ room ih =>
    cases hnext : w.nextVisit? waiting with
    | none =>
      refine ⟨_, _, ends_of_nextVisit?_eq_none hnext, ?_, ?_, Nat.le_add_right _ _⟩
      · rw [World.propagate, hnext]
      · simp [World.visits, hnext]
    | some next =>
      obtain ⟨u, t, node, rest⟩ := next
      obtain ⟨ht, hnode, -⟩ := World.nextVisit?_eq_some hnext
      have hspace : seen.length < limit := by omega
      obtain ⟨n, r, hends, hworld, hseen, hn⟩ :=
        ih (w.attend u) (World.handDown u t node ++ rest)
          (seen ++ [(u.entity, u.inherited || t.dirty)])
          (by rw [List.length_append, List.length_singleton]; omega)
      have hround : Ends limit ⟨w, u :: rest, seen⟩ (n + 1) r :=
        .round (by simp only [next?, ht, hnode, if_pos hspace]) hends
      obtain ⟨k, hk, hskip⟩ := hround.skip hnext
      have hvisits : w.visits (room + 1) waiting =
          u :: (w.attend u).visits room (World.handDown u t node ++ rest) := by
        rw [World.visits, hnext]
      refine ⟨_, r, hskip, ?_, ?_, ?_⟩
      · rw [hworld, World.propagate, hnext]
        rfl
      · rw [hseen, hvisits, List.map_append, List.append_assoc]
        rfl
      · have hchildren : (World.handDown u t node).length = (w.childrenOf u.entity).length := by
          rw [← List.length_map (·.entity), World.map_entity_handDown, World.childrenOf, hnode]
          rfl
        rw [hvisits, List.map_cons, offspring, List.flatMap_cons, List.length_append, ← offspring]
        rw [offspring_attend, List.length_append, hchildren] at hn
        omega

end Round

namespace World

variable {U : Type} [SceneFamily U] [DecidableEq U]

/-- No more nodes are visited than there is room for. -/
theorem length_visits_le (w : World (Kind U)) (room : Nat) (waiting : List (Visit U)) :
    (w.visits room waiting).length ≤ room := by
  induction room generalizing w waiting with
  | zero => exact Nat.le_refl _
  | succ room ih =>
    unfold visits
    cases w.nextVisit? waiting with
    | none => exact Nat.zero_le _
    | some next => exact Nat.succ_le_succ (ih _ _)

/-- No pass visits more nodes than there are entities. -/
theorem length_visited_le (w : World (Kind U)) (root : Entity) :
    (w.visited root).length ≤ w.aliveCount := by
  rw [visited, List.length_map]
  exact length_visits_le _ _ _

/-- A pass comes to an end after finitely many rounds, whatever the links are. -/
theorem rounds_of_updateTransform (w : World (Kind U)) (root : Entity) :
    ∃ n r, Round.Ends w.aliveCount ⟨w.readied, [.start root], []⟩ n r ∧
      r.world = w.updateTransform root ∧ r.seen.map (·.1) = w.visited root ∧
      n ≤ 1 + Round.offspring w.readied (w.visited root) :=
  Round.ends_propagate w.aliveCount w.readied w.aliveCount [.start root] [] (Nat.zero_add _)

end World

end EntityScene
