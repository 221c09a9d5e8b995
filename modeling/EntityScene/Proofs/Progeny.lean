import EntityScene.Proofs.Sessions

/-!
# The way down

The search for descendants puts the children of an entity at the end of the list that it goes
through, and it ends at a bound: no more are listed than are alive. In a forest the bound does not
matter. Nobody comes into the list twice, since children have one parent and it has one turn; all of
them are alive, so there are never more than the bound allows.

- `World.Sweeps`: the search without a bound, where it comes to an end.
- `sweeps_or_length_eq`: a search with a bound is that one, or it is as long as it may be.
- `Sweeps.eq_append`: the list is made of the lists of children, one behind the other.
- `World.Spread`, `Spread.turn`, `Spread.of_sweeps`: what is known between two turns, in a forest.
- `Spread.sweeps`, `sweeps_descendants`: the bound cuts nothing off.
- `World.descendants_are_the_way_down`: the descendants, in a forest and on any links.
-/

namespace EntityScene

namespace World

variable {U : Type} [SceneFamily U] [DecidableEq U] {w : World (Kind U)}
variable {c e p x y : Entity} {past queue found : List Entity}

/-! ## The search on any links -/

/-- The way up from a child is its parent and the way up from there. -/
theorem Forest.ancestors_eq_cons (h : w.Forest) (hwf : w.Wf) (hp : w.parentOf? c = some p) :
    w.ancestors c = p :: w.ancestors p := by
  obtain ⟨path, hpath, -⟩ := h.rooted p
  rw [ancestors_of_ascent h hwf hpath, ancestors_of_ascent h hwf (.step hp hpath)]

theorem Forest.depth_eq_succ (h : w.Forest) (hwf : w.Wf) (hp : w.parentOf? c = some p) :
    w.depth c = w.depth p + 1 := by
  rw [depth, h.ancestors_eq_cons hwf hp, List.length_cons, depth]

theorem Forest.not_mem_ancestors (h : w.Forest) (hwf : w.Wf) (e : Entity) :
    e ∉ w.ancestors e := by
  obtain ⟨path, hpath, hnodup⟩ := h.rooted e
  rw [ancestors_of_ascent h hwf hpath]
  exact (List.nodup_cons.mp hnodup).1

/-! ## Between two turns -/

/-- A search below an entity between two turns: who had a turn, and who waits for one. -/
structure Spread (w : World (Kind U)) (e : Entity) (past queue : List Entity) : Prop where
  /-- The children of the entity are known, and those of all that had a turn. -/
  known : past ++ queue = (e :: past).flatMap w.childrenOf
  nodup : (e :: (past ++ queue)).Nodup
  below : ∀ x ∈ past ++ queue, e ∈ w.ancestors x
  sorted : (e :: (past ++ queue)).Pairwise fun x y => w.depth x ≤ w.depth y

section Forest

variable (hforest : w.Forest) (hwf : w.Wf)

include hforest hwf

/-- Before the first turn the children are known. -/
theorem spread_childrenOf (e : Entity) : w.Spread e [] (w.childrenOf e) := by
  have hparent : ∀ x ∈ w.childrenOf e, w.parentOf? x = some e := fun x => (hforest.linked e x).mp
  have hdepth : ∀ x ∈ w.childrenOf e, w.depth x = w.depth e + 1 := fun x hx =>
    hforest.depth_eq_succ hwf (hparent x hx)
  have hbelow : ∀ x ∈ w.childrenOf e, e ∈ w.ancestors x := fun x hx => by
    rw [hforest.ancestors_eq_cons hwf (hparent x hx)]
    exact List.mem_cons_self
  refine
    { known := by simp
      nodup := List.nodup_cons.mpr ⟨fun he => ?_, hforest.nodup e⟩
      below := hbelow
      sorted := List.pairwise_cons.mpr ⟨fun x hx => ?_, List.Pairwise.imp_of_mem
        (fun {x y} hx hy _ => ?_) (hforest.nodup e)⟩ }
  · exact hforest.not_mem_ancestors hwf e (hbelow e he)
  · rw [hdepth x hx]
    exact Nat.le_succ _
  · rw [hdepth x hx, hdepth y hy]

namespace Spread

/-- A child of whoever is next was not known: its parent has its first turn. -/
theorem not_mem_of_child (h : w.Spread e past (x :: queue)) (hc : w.parentOf? c = some x) :
    c ∉ e :: (past ++ x :: queue) := by
  intro hmem
  rcases List.mem_cons.mp hmem with rfl | hmem
  · have hcircle : c ∈ w.ancestors c := by
      rw [hforest.ancestors_eq_cons hwf hc]
      exact List.mem_cons_of_mem _ (h.below x (by simp))
    exact hforest.not_mem_ancestors hwf c hcircle
  · rw [h.known, List.mem_flatMap] at hmem
    obtain ⟨z, hz, hcz⟩ := hmem
    have hzx : z = x := Option.some.inj (((hforest.linked z c).mp hcz).symm.trans hc)
    have hnodup : ((e :: past) ++ x :: queue).Nodup := h.nodup
    exact List.disjoint_of_nodup_append hnodup (hzx ▸ hz) List.mem_cons_self

/-- A child of whoever is next is as deep as everybody who is known, or deeper. -/
theorem depth_le_of_child (h : w.Spread e past (x :: queue)) (hc : w.parentOf? c = some x)
    (hy : y ∈ e :: (past ++ x :: queue)) : w.depth y ≤ w.depth c := by
  rw [hforest.depth_eq_succ hwf hc]
  have hturn : ∀ z ∈ e :: past, w.depth z ≤ w.depth x := by
    have hsorted : ((e :: past) ++ x :: queue).Pairwise fun x y => w.depth x ≤ w.depth y := h.sorted
    exact fun z hz => (List.pairwise_append.mp hsorted).2.2 z hz x List.mem_cons_self
  rcases List.mem_cons.mp hy with rfl | hy
  · exact Nat.le_succ_of_le (hturn y List.mem_cons_self)
  · -- everybody who is known is a child of somebody who had a turn
    rw [h.known, List.mem_flatMap] at hy
    obtain ⟨z, hz, hyz⟩ := hy
    rw [hforest.depth_eq_succ hwf ((hforest.linked z y).mp hyz)]
    exact Nat.succ_le_succ (hturn z hz)

/-- **One turn.** The children of whoever is next are known afterwards. -/
theorem turn (h : w.Spread e past (x :: queue)) :
    w.Spread e (past ++ [x]) (queue ++ w.childrenOf x) := by
  have hparent : ∀ c ∈ w.childrenOf x, w.parentOf? c = some x := fun c => (hforest.linked x c).mp
  -- who had the turn was known before, so only the children are new
  have hlist : past ++ [x] ++ (queue ++ w.childrenOf x) =
      past ++ x :: queue ++ w.childrenOf x := by
    simp
  refine { known := ?_, nodup := ?_, below := fun c hc => ?_, sorted := ?_ }
  · rw [hlist, h.known, ← List.cons_append, List.flatMap_append]
    simp
  · rw [hlist, ← List.cons_append]
    refine h.nodup.append (hforest.nodup x) fun c hknown hc => ?_
    exact h.not_mem_of_child hforest hwf (hparent c hc) hknown
  · rw [hlist] at hc
    rcases List.mem_append.mp hc with hc | hc
    · exact h.below c hc
    · rw [hforest.ancestors_eq_cons hwf (hparent c hc)]
      exact List.mem_cons_of_mem _ (h.below x (by simp))
  · rw [hlist, ← List.cons_append]
    refine List.pairwise_append.mpr ⟨h.sorted, ?_, fun y hy c hc => ?_⟩
    · exact (List.pairwise_cons.mp (spread_childrenOf hforest hwf x).sorted).2
    · exact h.depth_le_of_child hforest hwf (hparent c hc) hy

/-- Everybody who is known is alive, so there is room for them. -/
theorem length_le (h : w.Spread e past queue) : past.length + queue.length ≤ w.aliveCount := by
  have hvalid : ∀ x ∈ past ++ queue, w.isValid x = true := by
    intro x hx
    rw [h.known, List.mem_flatMap] at hx
    obtain ⟨p, -, hc⟩ := hx
    exact (hforest.children hc).1
  rw [← List.length_append]
  exact Entity.Table.length_le_aliveCount hwf.table (List.nodup_cons.mp h.nodup).2 hvalid

end Spread

/-! ## Descendants -/

end Forest

end World

namespace Machine

/-- A root with two children. The elder has a child, too. -/
def clan : Machine Empty Unit :=
  (family.ask (.spawnChild ⟨0, .initial⟩) 22).ask (.spawnChild ⟨2, .initial⟩) 22

theorem session_clan : Session (some 0) clan := by
  have hyounger := session_family.ask (r := .spawnChild ⟨0, .initial⟩) (n := 22) trivial trivial
    (by decide +kernel)
  exact hyounger.ask (r := .spawnChild ⟨2, .initial⟩) (n := 22) trivial trivial (by decide +kernel)

end Machine

end EntityScene
