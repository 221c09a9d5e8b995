import EntityScene.Proofs.Collection
import EntityScene.Proofs.Forests
import EntityScene.Proofs.Windows

/-!
# Cascades among other handlers

While a cascade goes through the nodes that it has claimed, handlers may do anything to them:
destroy them out of turn, move them, link others under them. What was collected is gone
nevertheless when no call is in progress any more, and so is whoever a cascade finds linked
under a node when it comes to it.

A cascade only looks after the nodes that it comes to, though, and a claimed node that a
handler destroys out of turn starts no cascade of its own. Children that were linked under it
in the meantime stay; and a parent under which it was moved keeps listing it.

- `Machine.starting?`, `Machine.collecting?`, `Machine.turning?`: a cascade is asked for,
  claims its node with what is below, and comes to a claimed node.
- `Machine.collected_nodes_die`, `Machine.late_children_die`: whoever is claimed is gone in
  the end. `isValid_of_collecting_of_edits` and `isValid_of_turning_of_edits` say so of scripts
  that leave links to the library.
- `Machine.foretold_nodes_live`: a script that lists somebody before there is such an entity.
- `Machine.starting_nodes_stay_unlisted`: nodes with which a cascade starts leave no links
  behind.
- `household`: a small scene with a handler that interferes.
-/

namespace EntityScene

namespace Machine

variable {U σ : Type} [SceneFamily U] [DecidableEq U] {m m' : Machine U σ}

/-! ## Cascades from their start on -/

/-- The node with which the next step starts a cascade. -/
def starting? (m : Machine U σ) : Option Entity :=
  match m.control with
  | .invoke key e =>
    match m.handlers[key]? with
    | some (.cascade c) => if e ∈ m.claims.getD c [] then none else some e
    | _ => none
  | _ => none

/-- The node that the next step claims with all its descendants. -/
def collecting? (m : Machine U σ) : Option Entity :=
  match m.control, m.stack with
  | .reply _, .unlinking _ e :: _ => some e
  | _, _ => none

/-- The claimed node that a cascade comes to at the next step. -/
def turning? (m : Machine U σ) : Option Entity :=
  match m.control, m.stack with
  | .reply _, .cascade _ _ (e :: _) :: _ => some e
  | _, _ => none

omit [DecidableEq U] in
theorem collecting?_eq_some {e : Entity} (h : m.collecting? = some e) :
    ∃ b c rest, m.control = .reply b ∧ m.stack = .unlinking c e :: rest := by
  unfold collecting? at h
  split at h
  · obtain rfl := Option.some.inj h
    exact ⟨_, _, _, by assumption, by assumption⟩
  · cases h

omit [DecidableEq U] in
theorem turning?_eq_some {e : Entity} (h : m.turning? = some e) :
    ∃ b c past ahead rest, m.control = .reply b ∧
      m.stack = .cascade c past (e :: ahead) :: rest := by
  unfold turning? at h
  split at h
  · obtain rfl := Option.some.inj h
    exact ⟨_, _, _, _, _, by assumption, by assumption⟩
  · cases h

/-- A cascade that starts takes its node out of the parent's children, and waits for the end
of that. -/
theorem step_of_starting (hwf : m.world.Wf) {e : Entity} (h : m.starting? = some e) :
    ∃ m' c, m.step = some m' ∧ m'.stack = .unlinking c e :: m.stack ∧
      World.Unlinked m.world e m'.world := by
  unfold starting? at h
  split at h
  · rename_i key e' hcall
    split at h
    · rename_i c hhandler
      split at h
      · cases h
      · rename_i hclaim
        obtain rfl := Option.some.inj h
        refine ⟨m.invoke key e', c, by rw [step, hcall], ?_⟩
        simp only [invoke, hhandler, startCascade, if_neg hclaim]
        -- without a row of a valid parent there is nothing to drop, and nobody lists the node
        cases hp : (m.world.validParentOf? e').bind fun parent =>
            m.patch? .node parent (fun node => TreeNode.dropChild node e') (.unlinking c e') with
        | none =>
          refine ⟨rfl, World.unlinked_of_no_parent hwf fun parent hparent => ?_⟩
          cases hvalid : m.world.isValid parent with
          | false => exact World.node?_of_not_isValid hvalid
          | true =>
            rw [World.validParentOf?, hparent, Option.filter_some, if_pos hvalid,
              Option.bind_some] at hp
            exact get?_of_patch?_eq_none hp
        | some m' =>
          obtain ⟨parent, hparent, hpatch⟩ := Option.bind_eq_some_iff.mp hp
          obtain ⟨id, v, -, -, rfl⟩ := patch?_eq_some hpatch
          exact ⟨rfl, World.unlinked_edit hwf (Option.filter_eq_some_iff.mp hparent).1⟩
    · cases h
  · cases h

/-- A frame that is gone at some step was answered before, when no calls are abandoned. -/
theorem exists_answer {m : Machine U σ} {f : Frame U σ} {rest : List (Frame U σ)} {i n : Nat}
    (hin : i ≤ n) (hi : f :: rest <:+ (m.run i).stack) (hn : ¬ f :: rest <:+ (m.run n).stack)
    (hord : ∀ k, i ≤ k → k < n → ∀ cause, (m.run k).control ≠ .unwind cause) :
    ∃ k, i ≤ k ∧ k < n ∧ (m.run k).stack = f :: rest ∧ ∃ b, (m.run k).control = .reply b := by
  induction hin with
  | refl => exact absurd hi hn
  | @step n hin ih =>
    -- if the frame was there until now then it goes with this step
    by_cases hbefore : f :: rest <:+ (m.run n).stack
    · refine ⟨n, hin, Nat.lt_succ_self n, ?_⟩
      rcases run_succ_cases m n with heq | hstep
      · rw [heq] at hn
        exact absurd hbefore hn
      · obtain ⟨hstack, ⟨b, hc, -⟩ | ⟨cause, hc, -⟩⟩ := told_of_gone hstep hbefore hn
        · exact ⟨hstack, b, hc⟩
        · exact absurd hc (hord n hin (Nat.lt_succ_self n) cause)
    · obtain ⟨k, hik, hkn, hk⟩ := ih hbefore fun k hik hk => hord k hik (Nat.lt_succ_of_lt hk)
      exact ⟨k, hik, Nat.lt_succ_of_lt hkn, hk⟩

/-- Whoever is collected, and not claimed already, is doomed. -/
theorem doomed_or_claimed_of_collecting {e x : Entity} (h : m.collecting? = some e)
    (hx : x ∈ e :: m.world.descendants e) (hstep : m.step = some m') :
    m'.Doomed x ∨ ∃ c, x ∈ m.claims.getD c [] := by
  obtain ⟨b, c, rest, hcall, hstack⟩ := collecting?_eq_some h
  rw [step_of_reply hcall hstack] at hstep
  obtain rfl := Option.some.inj hstep
  by_cases hclaimed : x ∈ m.claims.getD c []
  · exact .inr ⟨c, hclaimed⟩
  · refine .inl ?_
    rw [resume_unlinking]
    exact doomed_cascadeOn _ c [] ((mem_claim_fst { m with stack := rest } c _ x).mpr
      ⟨hx, hclaimed⟩)

/-- The children of a node to which a cascade comes, if not claimed already, are doomed. -/
theorem doomed_or_claimed_of_turning {e x : Entity} (h : m.turning? = some e)
    (hx : x ∈ m.world.childrenOf e) (hstep : m.step = some m') :
    m'.Doomed x ∨ ∃ c, x ∈ m.claims.getD c [] := by
  obtain ⟨b, c, past, ahead, rest, hcall, hstack⟩ := turning?_eq_some h
  rw [step_of_reply hcall hstack] at hstep
  obtain rfl := Option.some.inj hstep
  by_cases hclaimed : x ∈ m.claims.getD c []
  · exact .inr ⟨c, hclaimed⟩
  · have hfresh := (mem_claim_fst { m with stack := rest } c _ x).mpr ⟨hx, hclaimed⟩
    exact .inl (.inr (.inr (.inr ⟨c, _, _, List.mem_cons_self, List.mem_append_right _ hfresh⟩)))

section Run

variable {host : σ} {script : Script U σ} {n : Nat}

/-- Who was issued and is claimed, or doomed by the next step, is gone in the end. -/
theorem isValid_of_claimed (h : (start host script).Ordinary n)
    (hlt : ∀ i, (start host script).reissues n i < UInt32.size)
    (hsealed : (start host script).Sealed n)
    (hidle : ((start host script).run n).isIdle = true) {x : Entity} {k : Nat} (hk : k < n)
    (hissued : ((start host script).run k).world.entities.Issued
      ((start host script).reissues k) x)
    (hx : ((start host script).run (k + 1)).Doomed x ∨
      ∃ c, x ∈ ((start host script).run k).claims.getD c []) :
    ((start host script).run n).world.isValid x = false := by
  refine isValid_of_doomed h hidle ?_
  rcases hx with hdoomed | ⟨c, hclaimed⟩
  · have hissued' := (aged_of_le host script h.tame hlt (Nat.le_succ k) hk hissued).issued
    exact doomed_of_le h hlt hissued' hdoomed hk (Nat.le_refl n)
  · have hgenuine := genuine_of_sealed h hlt hsealed (Nat.le_of_lt hk) x
    have hdoomed := (reaped_of_le h hlt hgenuine (Nat.le_refl k) (Nat.le_of_lt hk) c hclaimed).2
    exact doomed_of_le h hlt hissued hdoomed (Nat.le_of_lt hk) (Nat.le_refl n)

/-- Whoever is listed as a child was issued. -/
theorem issued_of_child (h : (start host script).Ordinary n)
    (hlt : ∀ i, (start host script).reissues n i < UInt32.size)
    (hsealed : (start host script).Sealed n) {x p : Entity} {k : Nat} (hk : k ≤ n)
    (hx : x ∈ ((start host script).run k).world.childrenOf p) :
    ((start host script).run k).world.entities.Issued ((start host script).reissues k) x :=
  issued_of_genuine h hlt (genuine_of_sealed h hlt hsealed hk x) (Nat.le_refl k) hk hx

/-- Whoever is collected is gone in the end. -/
theorem isValid_of_collecting (h : (start host script).Ordinary n)
    (hlt : ∀ i, (start host script).reissues n i < UInt32.size)
    (hsealed : (start host script).Sealed n)
    (hidle : ((start host script).run n).isIdle = true) {e x : Entity} {k : Nat} (hk : k < n)
    (hcollecting : ((start host script).run k).collecting? = some e)
    (hx : x ∈ e :: ((start host script).run k).world.descendants e) :
    ((start host script).run n).world.isValid x = false := by
  obtain ⟨b, c, rest, hcall, hstack⟩ := collecting?_eq_some hcollecting
  have hstep := step_of_reply hcall hstack
  -- the node was issued because a dispatch is about it, the others because they are listed
  refine isValid_of_claimed h hlt hsealed hidle hk ?_ ?_
  · rcases eq_or_child_of_mem hx with rfl | ⟨p, hp⟩
    · have hframe : .unlinking c x ∈ ((start host script).run k).stack := by
        rw [hstack]
        exact List.mem_cons_self
      exact (introduced_of_le h hlt (Nat.le_of_lt hk)).frames hframe rfl
    · exact issued_of_child h hlt hsealed (Nat.le_of_lt hk) hp
  · rw [run_succ_of_run_step hstep]
    exact doomed_or_claimed_of_collecting hcollecting hx hstep

theorem isValid_of_turning (h : (start host script).Ordinary n)
    (hlt : ∀ i, (start host script).reissues n i < UInt32.size)
    (hsealed : (start host script).Sealed n)
    (hidle : ((start host script).run n).isIdle = true) {e x : Entity} {k : Nat} (hk : k < n)
    (hturning : ((start host script).run k).turning? = some e)
    (hx : x ∈ ((start host script).run k).world.childrenOf e) :
    ((start host script).run n).world.isValid x = false := by
  obtain ⟨b, c, past, ahead, rest, hcall, hstack⟩ := turning?_eq_some hturning
  have hstep := step_of_reply hcall hstack
  refine isValid_of_claimed h hlt hsealed hidle hk
    (issued_of_child h hlt hsealed (Nat.le_of_lt hk) hx) ?_
  rw [run_succ_of_run_step hstep]
  exact doomed_or_claimed_of_turning hturning hx hstep

end Run

/-- A cascade that starts comes to collect its node. -/
theorem collecting_of_starting {m : Machine U σ} {e : Entity} {i n : Nat} (hin : i < n)
    (hwf : (m.run i).world.Wf) (hstart : (m.run i).starting? = some e)
    (hscope : (m.run n).stack.all Frame.isScope = true)
    (hord : ∀ k < n, ∀ cause, (m.run k).control ≠ .unwind cause) :
    ∃ k, i < k ∧ k < n ∧ (m.run k).collecting? = some e ∧
      (m.run k).stack.tail = (m.run i).stack := by
  obtain ⟨m', c, hstep, hstack, -⟩ := step_of_starting hwf hstart
  rw [← run_succ_of_run_step hstep] at hstack
  -- when no call is in progress only scopes wait
  have hgone : ¬ .unlinking c e :: (m.run i).stack <:+ (m.run n).stack := fun hsuf => by
    cases List.all_eq_true.mp hscope _ (hsuf.subset List.mem_cons_self)
  obtain ⟨k, hik, hkn, hk, b, hcall⟩ := exists_answer hin (by rw [hstack]) hgone fun k _ => hord k
  refine ⟨k, hik, hkn, ?_, by rw [hk, List.tail_cons]⟩
  rw [collecting?, hcall, hk]

/-- **Collected nodes die.** Cascades nest to any depth, and handlers may destroy, move, link
and create nodes between any two of their steps. Every cascade that starts comes to collect
what is below its node. Its node and everybody that it collects are gone when no call is in
progress any more, whether it claims them or finds them claimed. -/
theorem collected_nodes_die (host : σ) (script : Script U σ) (n : Nat)
    (h : (start host script).Ordinary n)
    (hreissues : ∀ index, (start host script).reissues n index < 2 ^ 32)
    (hsealed : (start host script).Sealed n)
    (hidle : ((start host script).run n).isIdle = true) :
    (∀ i < n, ∀ e, ((start host script).run i).starting? = some e →
      ∃ k, i < k ∧ k < n ∧ ((start host script).run k).collecting? = some e ∧
        ((start host script).run k).stack.tail = ((start host script).run i).stack) ∧
      (∀ k < n, ∀ e, ((start host script).run k).collecting? = some e →
        ∀ x ∈ e :: ((start host script).run k).world.descendants e,
          ((start host script).run n).world.isValid x = false) := by
  refine ⟨fun i hi e hstart => ?_, fun k hk e hcollecting x hx =>
    isValid_of_collecting h hreissues hsealed hidle hk hcollecting hx⟩
  refine collecting_of_starting hi (upheld_of_le host script h.tame hreissues (Nat.le_of_lt hi)).wf
    hstart (Bool.and_eq_true_iff.mp hidle).1 fun k hk cause hc => ?_
  have hord := h k (Nat.lt_succ_of_lt hk)
  rw [hc] at hord
  cases hord

/-- Where links are left to the library, everybody that a cascade collects is gone in the end. -/
theorem isValid_of_collecting_of_edits {host : σ} {script : Script U σ} {n : Nat}
    (h : (start host script).Ordinary n)
    (hlt : ∀ i, (start host script).reissues n i < UInt32.size)
    (hedits : ∀ j < n, ((start host script).run j).control.linked? ≠ none →
      (start host script).WrittenByEdit j)
    (hidle : ((start host script).run n).isIdle = true) {k : Nat} (hk : k < n) {e x : Entity}
    (hcollecting : ((start host script).run k).collecting? = some e)
    (hx : x ∈ e :: ((start host script).run k).world.descendants e) :
    ((start host script).run n).world.isValid x = false :=
  isValid_of_collecting h hlt (sealed_of_edits h hlt hedits) hidle hk hcollecting hx

/-- Where links are left to the library, the children that a cascade finds under a claimed node
are gone in the end. -/
theorem isValid_of_turning_of_edits {host : σ} {script : Script U σ} {n : Nat}
    (h : (start host script).Ordinary n)
    (hlt : ∀ i, (start host script).reissues n i < UInt32.size)
    (hedits : ∀ j < n, ((start host script).run j).control.linked? ≠ none →
      (start host script).WrittenByEdit j)
    (hidle : ((start host script).run n).isIdle = true) {k : Nat} (hk : k < n) {e x : Entity}
    (hturning : ((start host script).run k).turning? = some e)
    (hx : x ∈ ((start host script).run k).world.childrenOf e) :
    ((start host script).run n).world.isValid x = false :=
  isValid_of_turning h hlt (sealed_of_edits h hlt hedits) hidle hk hturning hx

end Machine

/-- A node with two children, and a node aside. Somebody acts while it is announced that the
first child loses its links, and then one of the nodes is destroyed. -/
def household (act : Task Empty Unit Unit) (target : Entity) : Script Empty Unit :=
  Task.toScript do
    Task.cascade
    let root ← Task.create
    let first ← Task.create
    let second ← Task.create
    let other ← Task.create
    let _ ← Task.emplace .node root (.ok { children := [first, second] })
    let _ ← Task.emplace .node first (.ok { parent := root })
    let _ ← Task.emplace .node second (.ok { parent := root })
    let _ ← Task.emplace .node other (.ok TreeNode.isolated)
    let _ ← Task.connect .node .destroy fun _ e =>
      if e = first then act.toScript else .done
    let _ ← Task.destroy target

/-- The second child is made a root after it was collected. -/
def leaving : Script Empty Unit :=
  household (do let _ ← Task.detach ⟨2, .initial⟩) ⟨0, .initial⟩

namespace Machine

/-- It is destroyed nevertheless. -/
theorem collected_nodes_die_leaving :
    ((start () leaving).run 51).world.parentOf? ⟨2, .initial⟩ = none ∧
      ((start () leaving).run 51).world.isValid ⟨2, .initial⟩ = true ∧
      ((start () leaving).run 81).world.isValid ⟨2, .initial⟩ = false := by
  have hdie := collected_nodes_die () leaving 81 (by decide +kernel)
    (fun index => Nat.lt_of_le_of_lt (reissues_le _ 81 index) (by decide))
    (.of_valid (by decide +kernel)) (by decide +kernel)
  exact ⟨by decide +kernel, by decide +kernel,
    hdie.2 32 (by decide) ⟨0, .initial⟩ (by decide +kernel) _ (by decide +kernel)⟩

end Machine

/-- A node lists the handle of an entity that is yet to be created. It is destroyed, and when its
placement goes after its links, a handler creates an entity. -/
def foretelling : Script Empty Unit :=
  Task.toScript do
    Task.cascade
    let root ← Task.create
    let _ ← Task.emplace .node root (.ok { children := [⟨1, .initial⟩] })
    let _ ← Task.emplace .transform root (.ok Transform.identity)
    let _ ← Task.connect .transform .destroy fun _ _ => Task.toScript do
      let _ ← Task.create
    let _ ← Task.destroy root

namespace Machine

/-- The cascade collects the handle while nobody has it, and whoever gets it afterwards lives. -/
theorem foretold_nodes_live :
    (start () foretelling).Ordinary 37 ∧
      (∀ index, (start () foretelling).reissues 37 index < 2 ^ 32) ∧
      ((start () foretelling).run 37).isIdle = true ∧
      ((start () foretelling).run 19).collecting? = some ⟨0, .initial⟩ ∧
      ((start () foretelling).run 19).world.descendants ⟨0, .initial⟩ = [⟨1, .initial⟩] ∧
      ((start () foretelling).run 37).world.isValid ⟨1, .initial⟩ = true :=
  ⟨by decide +kernel, fun index => Nat.lt_of_le_of_lt (reissues_le _ 37 index) (by decide),
    by decide +kernel, by decide +kernel, by decide +kernel, by decide +kernel⟩

variable {U σ : Type} [SceneFamily U] [DecidableEq U]

/-- **Late children die.** When a cascade comes to a node that it has claimed, the children of
the node, those included that were linked under it since it was claimed, are gone when no call
is in progress any more. -/
theorem late_children_die (host : σ) (script : Script U σ) (n : Nat)
    (h : (start host script).Ordinary n)
    (hreissues : ∀ index, (start host script).reissues n index < 2 ^ 32)
    (hsealed : (start host script).Sealed n)
    (hidle : ((start host script).run n).isIdle = true) :
    ∀ k < n, ∀ e, ((start host script).run k).turning? = some e →
      ∀ x ∈ ((start host script).run k).world.childrenOf e,
        ((start host script).run n).world.isValid x = false :=
  fun _ hk _ hturning _ hx => isValid_of_turning h hreissues hsealed hidle hk hturning hx

end Machine

/-- The node aside is put under the second child after that was collected. -/
def adopting : Script Empty Unit :=
  household (do let _ ← Task.appendChild ⟨2, .initial⟩ ⟨3, .initial⟩) ⟨0, .initial⟩

/-- The node aside is put under the second child after that was collected, and then the second
child is destroyed out of turn. -/
def orphaning : Script Empty Unit :=
  household
    (do
      let _ ← Task.appendChild ⟨2, .initial⟩ ⟨3, .initial⟩
      let _ ← Task.destroy ⟨2, .initial⟩)
    ⟨0, .initial⟩

namespace Machine

/-- It goes along with the second child. -/
theorem late_children_die_adopting :
    ((start () adopting).run 57).world.childrenOf ⟨2, .initial⟩ = [⟨3, .initial⟩] ∧
      ((start () adopting).run 95).world.isValid ⟨3, .initial⟩ = false := by
  have hdie := late_children_die () adopting 95 (by decide +kernel)
    (fun index => Nat.lt_of_le_of_lt (reissues_le _ 95 index) (by decide))
    (.of_valid (by decide +kernel)) (by decide +kernel)
  exact ⟨by decide +kernel,
    hdie 57 (by decide) ⟨2, .initial⟩ (by decide +kernel) _ (by decide +kernel)⟩

/-- A node that is linked under a collected one stays if that is destroyed out of turn: its
parent is gone before the cascade comes to it. -/
theorem late_child_survives :
    ((start () orphaning).run 26).world.Forest ∧
      ((start () orphaning).run 27).accepted? = some ⟨0, .initial⟩ ∧
      (start () orphaning).Ordinary 84 ∧ ((start () orphaning).run 84).isIdle = true ∧
      ((start () orphaning).run 84).world.isValid ⟨2, .initial⟩ = false ∧
      ((start () orphaning).run 84).world.isValid ⟨3, .initial⟩ = true ∧
      ((start () orphaning).run 84).world.parentOf? ⟨3, .initial⟩ = some ⟨2, .initial⟩ := by
  have hord : (start () orphaning).Ordinary 84 := by decide +kernel
  have hsound := sound_run () orphaning (n := 26) fun k hk => hord k (by omega)
  exact ⟨World.forest_of_flat hsound.wf (hsound.settled (by decide +kernel)) (by decide +kernel)
    (by decide +kernel), by decide +kernel, hord, by decide +kernel, by decide +kernel,
    by decide +kernel, by decide +kernel⟩

variable {U σ : Type} [SceneFamily U] [DecidableEq U]

/-- **Nodes with which a cascade starts leave no child link behind.** If only its parent lists
such a node, nobody lists it from there on, unless a script links it again. -/
theorem starting_nodes_stay_unlisted (host : σ) (script : Script U σ) (n : Nat)
    (h : (start host script).Ordinary n)
    (hreissues : ∀ index, (start host script).reissues n index < 2 ^ 32) {i : Nat} {e : Entity}
    (hstart : ((start host script).run i).starting? = some e)
    (hlisted : ∀ p, e ∈ ((start host script).run i).world.childrenOf p →
      ((start host script).run i).world.parentOf? e = some p)
    (hrelinked : ∀ j, i < j → j < n → ∀ p, ((start host script).run j).control.linked? = some p →
      e ∉ ((start host script).run (j + 1)).world.childrenOf p) :
    ∀ k, i < k → k ≤ n → ∀ p, e ∉ ((start host script).run k).world.childrenOf p := by
  intro k hik
  induction hik with
  | refl =>
    intro hi p
    have hwf := (upheld_of_le host script h.tame hreissues (Nat.le_of_lt hi)).wf
    obtain ⟨m', c, hstep, -, hunlinked⟩ := step_of_starting hwf hstart
    rw [run_succ_of_run_step hstep, hunlinked.mem_childrenOf_iff]
    exact fun hc => hc.2 ⟨hlisted p hc.1, rfl⟩
  | @step k hik ih =>
    intro hk p hc
    by_cases hp : ((start host script).run k).control.linked? = some p
    · exact hrelinked k hik hk p hp hc
    · exact ih (Nat.le_of_succ_le hk) p (mem_childrenOf_of_succ h hreissues hk hp hc)

end Machine

/-- Nobody interferes, and the first child is destroyed. -/
def parting : Script Empty Unit := household (pure ()) ⟨1, .initial⟩

/-- The second child is moved under the node aside after it was collected. -/
def moving : Script Empty Unit :=
  household (do let _ ← Task.reparent ⟨2, .initial⟩ ⟨3, .initial⟩) ⟨0, .initial⟩

namespace Machine

/-- The root does not list it any more. -/
theorem starting_nodes_stay_unlisted_parting :
    ((start () parting).run 31).world.childrenOf ⟨0, .initial⟩ =
        [⟨1, .initial⟩, ⟨2, .initial⟩] ∧
      ∀ p, ⟨1, .initial⟩ ∉ ((start () parting).run 46).world.childrenOf p := by
  have hwf := (sound_run () parting (n := 31) (by decide +kernel)).wf
  have hlisted : ∀ p ∈ ((start () parting).run 31).world.handles,
      ⟨1, .initial⟩ ∈ ((start () parting).run 31).world.childrenOf p →
        ((start () parting).run 31).world.parentOf? ⟨1, .initial⟩ = some p := by decide +kernel
  have hunlinked : ∀ j < 46, 31 < j → ((start () parting).run j).control.linked? = none := by
    decide +kernel
  refine ⟨by decide +kernel, starting_nodes_stay_unlisted () parting 46 (by decide +kernel)
    (fun index => Nat.lt_of_le_of_lt (reissues_le _ 46 index) (by decide)) (i := 31)
    (by decide +kernel) (fun p hp => hlisted p ?_ hp) (fun j hij hj p hp => ?_) 46 (by decide)
    (Nat.le_refl _)⟩
  · have hvalid := (World.mem_childrenOf_iff.mp hp).1
    exact (Entity.Table.mem_toList_iff hwf.table).mpr hvalid
  · rw [hunlinked j hj hij] at hp
    cases hp

/-- A collected node that is moved under a node that stays is listed there when it is gone: no
cascade starts with it. -/
theorem moved_node_stays_listed :
    ((start () moving).run 26).world.Forest ∧
      ((start () moving).run 27).accepted? = some ⟨0, .initial⟩ ∧
      (start () moving).Ordinary 91 ∧ ((start () moving).run 91).isIdle = true ∧
      ((start () moving).run 91).world.isValid ⟨2, .initial⟩ = false ∧
      ((start () moving).run 91).world.isValid ⟨3, .initial⟩ = true ∧
      ((start () moving).run 91).world.childrenOf ⟨3, .initial⟩ = [⟨2, .initial⟩] := by
  have hord : (start () moving).Ordinary 91 := by decide +kernel
  have hsound := sound_run () moving (n := 26) fun k hk => hord k (by omega)
  exact ⟨World.forest_of_flat hsound.wf (hsound.settled (by decide +kernel)) (by decide +kernel)
    (by decide +kernel), by decide +kernel, hord, by decide +kernel, by decide +kernel,
    by decide +kernel, by decide +kernel⟩

end Machine

end EntityScene
