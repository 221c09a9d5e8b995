import EntityScene.Proofs.Cascades
import EntityScene.Proofs.Custody
import EntityScene.Proofs.Rounds

/-!
# Calls on damaged trees come to an end

Links may go round in circles, lead back to their own node, be shared or repeated, and name
entities that are gone. What walks along them comes to an end all the same: a pass has a limit,
a cascade claims each node once, and a destruction inside a cascade finds its node claimed. None
of this asks for anything between two calls but one cascade among readers: entities may be left
in the middle of their destruction, and removals be marked as being announced.

- `Machine.Standing`: one cascade among readers, which has claimed nothing.
- `serves_any_announce`, `runs_any_tearing`, `serves_any_destroy`: removals and destructions of
  anybody come to an end, and what stands stands.
- `performs_any_take`, `performs_any_destroyAll`: so do the calls made of them.
- `calls_on_damaged_trees_end`: passes, destructions and removals of links, and `Task.clear`, and
  what their cascades claim and destroy.
-/

namespace EntityScene

/-- The other way round: a row that is erased is nobody's signal. -/
theorem World.tuned_of_erase {K : Type} [ComponentFamily K] (w : World K) (id : ComponentId)
    (e : Entity) : Tuned (w.erase id e) w := by
  refine tuned_of_signals rfl rfl (by simp [erase, updatePool]) fun j => ?_
  rw [erase, getElem?_updatePool]
  split
  · rw [Option.map_map]
    rfl
  · rfl

namespace Machine

variable {U σ : Type} [SceneFamily U] [DecidableEq U] {m m' : Machine U σ}
variable {key : ConnectionKey} {claims : Nat} {id : ComponentId}

/-- One cascade among readers, which has claimed nothing. Nothing is asked of links and rows, nor
of who is being destroyed. -/
structure Standing (m : Machine U σ) (key : ConnectionKey) (claims : Nat) (id : ComponentId) :
    Prop where
  wf : m.world.Wf
  planted : m.Planted key claims id
  unclaimed : m.claims[claims]? = some []

/-- What happens to the world is no matter as long as the same handlers listen. -/
theorem Standing.of_tuned (h : m.Standing key claims id) {world : World (Kind U)} (host : σ)
    (hwf : world.Wf) (htuned : World.Tuned m.world world) :
    Standing { m with world, host } key claims id :=
  { wf := hwf
    planted := h.planted.congr htuned rfl
    unclaimed := h.unclaimed }

/-- The removal of any component of anybody is announced, and that comes to an end. -/
theorem serves_any_announce (h : m.Standing key claims id) (j : ComponentId) (e : Entity) :
    ∃ m' tr b, m'.Standing key claims id ∧ World.Tuned m.world m'.world ∧
      m.Serves (.announce j e) tr m' (.reply b) := by
  by_cases hrow : (j, e) ∈ m.world.removing ∨ m.world.holds j e = false
  · exact ⟨m, [], false, h, .refl _, serves_announce_refused hrow⟩
  · obtain ⟨hfresh, hholds⟩ := not_or.mp hrow
    rw [Bool.not_eq_false] at hholds
    by_cases hj : j = id
    · subst hj
      obtain ⟨world, host, sets, tr, hwf, -, huprooted, hsets, hserve⟩ :=
        serves_announce_cascade h.wf h.planted h.unclaimed hfresh hholds
      have htuned := huprooted.shed.tuned.trans (World.tuned_of_erase world j e)
      exact ⟨{ m with world, host, claims := sets }, tr, true,
        { wf := hwf, planted := h.planted.congr htuned rfl, unclaimed := hsets }, htuned, hserve⟩
    · obtain ⟨world, host, hworld, htuned, hserve⟩ :=
        serves_announce h.wf (h.planted.hushedFor_of_ne (fun hc => hj hc.1) e) hfresh hholds
      exact ⟨{ m with world, host }, _, true, h.of_tuned host hworld.wf htuned, htuned, hserve⟩

/-- An entity that is being destroyed is asked for its components pool by pool, and given up. -/
theorem runs_any_tearing (h : m.Standing key claims id) (e : Entity) (j : ComponentId) :
    ∃ (m' : Machine U σ) (tr : List Dispatch), m'.Standing key claims id ∧
      ∀ stack, (m.tearing stack e j).Runs tr (m'.on stack (.reply true)) := by
  induction hleft : m.world.pools.size - j generalizing m j with
  | zero =>
    have hsize : m.world.pools.size ≤ j := Nat.le_of_sub_eq_zero hleft
    refine ⟨{ m with world := m.world.release e }, [],
      h.of_tuned m.host (World.wf_release h.wf e) (World.tuned_release m.world e), fun stack => ?_⟩
    rw [tearing_of_size_le hsize]
    exact .refl _
  | succ left ih =>
    have hlt : j < m.world.pools.size := Nat.lt_of_sub_eq_succ hleft
    obtain ⟨m₁, tr, b, h₁, htuned, hserve⟩ := serves_any_announce h j e
    have hsize := htuned.size_pools
    -- if the component is there it goes, and the next pool has its turn either way
    obtain ⟨m₂, h₂, hsize₂, hnext⟩ : ∃ m₂ : Machine U σ, m₂.Standing key claims id ∧
        m₂.world.pools.size = m₁.world.pools.size ∧
        ∀ stack, (m₁.on (.teardown e j :: stack) (.reply b)).step =
          some (m₂.tearing stack e (j + 1)) := by
      cases b with
      | true =>
        exact ⟨{ m₁ with world := m₁.world.erase j e },
          h₁.of_tuned m₁.host (World.wf_erase h₁.wf j e) (World.tuned_erase _ j e),
          (World.tuned_erase m₁.world j e).size_pools,
          fun stack => step_tearing h₁.wf stack e j true⟩
      | false => exact ⟨m₁, h₁, rfl, fun stack => rfl⟩
    obtain ⟨m', tr', h', hrun⟩ := ih h₂ (j + 1) (by rw [hsize₂, hsize, Nat.sub_succ, hleft]; rfl)
    refine ⟨m', tr ++ tr', h', fun stack => ?_⟩
    rw [tearing_of_lt hlt]
    exact (hserve (.teardown e j :: stack)).trans (.head (hnext stack) rfl (hrun stack))

/-- The destruction of anybody comes to an end. -/
theorem serves_any_destroy (h : m.Standing key claims id) (e : Entity) :
    ∃ m' tr b, m'.Standing key claims id ∧ m.Serves (.destroy e) tr m' (.reply b) := by
  cases haccepts : m.world.accepts e with
  | false => exact ⟨m, [], false, h, serves_destroy_refused haccepts⟩
  | true =>
    have hbegun := h.of_tuned m.host (World.wf_beginDestroy h.wf e)
      (World.tuned_beginDestroy m.world e)
    obtain ⟨m', tr, h', hrun⟩ := runs_any_tearing hbegun e 0
    exact ⟨m', tr, true, h', fun stack =>
      .head (step_destroy_of_accepts haccepts stack) rfl (hrun stack)⟩

/-- Whatever component is taken from whomever, that comes to an end. -/
theorem performs_any_take (h : m.Standing key claims id) (kind : Kind U) (e : Entity) :
    ∃ m' tr old, m'.Standing key claims id ∧ m.Performs (Task.take kind e) tr m' old := by
  by_cases habsent : m.world.isValid e = true → ∀ j, m.world.idOf? kind = some j →
      m.world.holds j e = false
  · exact ⟨m, [], none, h, performs_take_of_absent habsent⟩
  · push Not at habsent
    obtain ⟨hvalid, j, hj, -⟩ := habsent
    obtain ⟨m₁, tr, b, h₁, htuned, hserve⟩ := serves_any_announce h j e
    cases b with
    | false =>
      exact ⟨m₁, tr, none, h₁, fun stack next =>
        .head (step_take hj hvalid stack next) rfl ((hserve _).snoc rfl rfl)⟩
    | true =>
      have hj₁ : m₁.world.idOf? kind = some j := (htuned.idOf? kind).trans hj
      exact ⟨_, tr, _, h₁.of_tuned m₁.host (World.wf_erase h₁.wf j e) (World.tuned_erase _ j e),
        performs_take hj hvalid hserve h₁.wf hj₁ rfl⟩

/-- So do the destructions of a whole list, one after the other. -/
theorem performs_any_destroyAll (h : m.Standing key claims id) (es : List Entity) :
    ∃ m' tr n, m'.Standing key claims id ∧ m.Performs (Task.destroyAll es) tr m' n := by
  induction es generalizing m with
  | nil => exact ⟨m, [], 0, h, .pure m 0⟩
  | cons e es ih =>
    obtain ⟨m₁, tr, b, h₁, hserve⟩ := serves_any_destroy h e
    obtain ⟨m', tr', n, h', hrest⟩ := ih h₁
    exact ⟨m', _, _, h', (performs_destroy hserve).bind (hrest.bind (.pure m' _))⟩

/-- Between two calls of a run a cascade has claimed nothing. -/
theorem standing_run {host : σ} {script : Script U σ} {n : Nat}
    (hscope : ((start host script).run n).stack.all Frame.isScope = true)
    (hwf : ((start host script).run n).world.Wf)
    (hplanted : ((start host script).run n).Planted key claims id) :
    ((start host script).run n).Standing key claims id := by
  obtain ⟨hcustody, hendowed⟩ := custody_run host script n
  have hlt := hendowed hplanted.cascade
  refine { wf := hwf, planted := hplanted, unclaimed := ?_ }
  have hperm := hcustody.perm claims
  rw [claimed_of_isScope hscope, List.perm_nil, Array.getD_eq_getD_getElem?,
    Array.getElem?_eq_getElem hlt, Option.getD_some] at hperm
  rw [Array.getElem?_eq_getElem hlt, hperm]

/-- **Calls on damaged trees come to an end.** Passes in any world visit no more nodes than there
are entities, and find no more matrices again, before there is no round left. Between two calls,
with one cascade among readers, whatever is asked to be destroyed or to lose its links, and
`Task.clear`, comes to an end. While a cascade lasts it claims each node once, and asks once for
the destruction of what it has claimed. -/
theorem calls_on_damaged_trees_end (host : σ) (script : Script U σ) (n : Nat)
    (hscope : ((start host script).run n).stack.all Frame.isScope = true)
    (hwf : ((start host script).run n).world.Wf)
    (hplanted : ((start host script).run n).Planted key claims id) :
    (∀ (w : World (Kind U)) root, ∃ rounds r,
      Round.Ends w.aliveCount ⟨w.readied, [.start root], []⟩ rounds r ∧
        r.world = w.updateTransform root ∧ r.seen.length ≤ w.aliveCount ∧
        r.seen.countP (·.2) ≤ w.aliveCount) ∧
    (∃ updated, ((start host script).run n).Performs Task.updateAllTransforms [] updated
        ((start host script).run n).world.placedRoots.length ∧
      updated.world = ((start host script).run n).world.placedRoots.foldl World.updateTransform
        ((start host script).run n).world) ∧
    (∀ e, (∃ m' tr b, ((start host script).run n).Performs (Task.destroy e) tr m' b) ∧
      ∃ m' tr b, ((start host script).run n).Performs (Task.remove .node e) tr m' b) ∧
    (∃ m' tr count, ((start host script).run n).Performs Task.clear tr m' count) ∧
    ∀ i c past ahead rest, ((start host script).run i).stack = .cascade c past ahead :: rest →
      (past ++ ahead).Nodup ∧
      ∀ j, i < j →
        (∀ k, i < k → k ≤ j → rest.length < ((start host script).run k).stack.length) →
        (∃ above past' ahead',
          ((start host script).run j).stack = above ++ .cascade c past' ahead' :: rest ∧
          past ++ ahead <+: past' ++ ahead') ∧
        ∀ x y c' past' ahead' below, ((start host script).run i).control = .destroy x →
          ((start host script).run j).control = .destroy y →
          ((start host script).run j).stack = .cascade c' past' ahead' :: below →
          below.length = rest.length → x ≠ y := by
  have hstanding := standing_run hscope hwf hplanted
  refine ⟨fun w root => ?_,
    ⟨{ (start host script).run n with
        world := ((start host script).run n).world.updateAllTransforms.2 },
      .of_step fun _ _ => rfl, rfl⟩, fun e => ⟨?_, ?_⟩, ?_,
    fun i c past ahead rest hi =>
      ⟨nodup_of_cascade (hi.trans (List.nil_append _).symm), fun j hij hlasts => ⟨?_, ?_⟩⟩⟩
  · obtain ⟨rounds, r, hends, hworld, hseen, -⟩ := w.rounds_of_updateTransform root
    have hlength : r.seen.length ≤ w.aliveCount := by
      rw [← List.length_map (·.1), hseen]
      exact w.length_visited_le root
    exact ⟨rounds, r, hends, hworld, hlength, List.countP_le_length.trans hlength⟩
  · obtain ⟨m', tr, b, -, hserve⟩ := serves_any_destroy hstanding e
    exact ⟨m', tr, b, performs_destroy hserve⟩
  · obtain ⟨m', tr, old, -, htake⟩ := performs_any_take hstanding .node e
    exact ⟨m', _, _, htake.bind (.pure m' _)⟩
  · obtain ⟨m', tr, count, -, hall⟩ := performs_any_destroyAll hstanding
      ((start host script).run n).world.handles
    exact ⟨m', tr, count, .look hall⟩
  · obtain ⟨above, past', ahead', hj, -, hall⟩ := lasting_run hi (Nat.le_of_lt hij) hlasts
    exact ⟨above, past', ahead', hj, hall⟩
  · intro x y c' past' ahead' below hx hy hj hbelow
    exact ne_of_destroy hij hx hi hlasts hy hj hbelow

end Machine

/-- Three nodes whose links are damaged. The first lists itself and repeats the second, these two
name each other as parents, the third and the first are listed by all, and one that is listed is
gone. -/
def tangle : Script Empty Unit :=
  Task.toScript do
    Task.cascade
    let a ← Task.create
    let b ← Task.create
    let c ← Task.create
    let gone ← Task.create
    let _ ← Task.emplace .node a (.ok { parent := b, children := [a, b, b] })
    let _ ← Task.emplace .node b (.ok { parent := a, children := [gone, c, a] })
    let _ ← Task.emplace .node c (.ok { parent := a, children := [b, c] })
    let _ ← Task.emplace .transform a (.ok .identity)
    let _ ← Task.emplace .transform b (.ok .identity)
    let _ ← Task.destroy gone

theorem Machine.planted_tangle : ((start () tangle).run 38).Planted 0 0 0 :=
  planted_of_alone (by decide +kernel) (by decide +kernel) (by decide +kernel) (by decide +kernel)
    (by decide +kernel) (by decide +kernel)

/-- A pass comes to the first node again and again until the limit, and to clear the tangle comes
to an end. -/
theorem Machine.calls_on_damaged_trees_end_tangle :
    ((start () tangle).run 38).world.visited ⟨0, .initial⟩ =
        [⟨0, .initial⟩, ⟨0, .initial⟩, ⟨0, .initial⟩] ∧
      ∃ m' tr count, ((start () tangle).run 38).Performs Task.clear tr m' count := by
  have hwf := (sound_run () tangle (n := 38) (by decide +kernel)).wf
  exact ⟨by decide +kernel,
    (calls_on_damaged_trees_end () tangle 38 (by decide +kernel) hwf planted_tangle).2.2.2.1⟩

end EntityScene
