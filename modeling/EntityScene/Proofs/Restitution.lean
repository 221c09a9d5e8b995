import EntityScene.Proofs.Custody
import EntityScene.Proofs.Guards
import EntityScene.Proofs.Interference
import EntityScene.Proofs.Lifelines
import EntityScene.Proofs.Wreckage

/-!
# What is given back

A cascade marks the nodes that it works through, and a scope holds a connection back. Both take
back what they did however they end, so that nothing of it is left between two calls. Whether a
node is destroyed with what is below it depends on one more mark, though, and nobody takes that one
back: the removal of its links stays listed if the call that announced it was left. A node whose
links are listed in this way is destroyed without a cascade.

- `present_move`: a component stays, unless its removal is announced.
- `exists_published_of_answered`: so a destruction starts a dispatch for each component.
- `called_of_answered`: a listener that is not held back is called by a dispatch.
- `Machine.Uproots`, `uproots_of_invoked`: a cascade that is not kept from its node claims all that
  is below, and asks for the destruction of everybody that it claims.
- `claims_and_guards_are_given_back`: what this says about all runs.
- `remnant`: a node with a leftover removal, whose child survives it.
-/

namespace EntityScene

variable {U σ : Type} [SceneFamily U] [DecidableEq U]

namespace Machine

variable {m m' : Machine U σ} {count : UInt32 → Nat}

/-! ## Components that stay -/

theorem present_tornDown {w : World (Kind U)} {id j : ComponentId} {e x : Entity}
    {rest : List (Frame U σ)} (hrest : Wellstacked w rest) (torn : TornDown w x j rest m')
    (hrow : w.holds id e = true) (hfree : (id, e) ∉ w.removing) :
    Present m'.world m'.stack m'.control id e := by
  refine ⟨(holds_of_tornDown torn id e).trans hrow, ?_, ?_⟩
  · cases torn with
    | next pool world stack control => exact world ▸ hfree
    | last pool world stack control => exact world ▸ hfree
  · cases torn with
    | next pool world stack control =>
      exact Sound.not_owed_of_control fun hc => by rw [control] at hc; cases hc
    | last pool world stack control =>
      rw [world, stack]
      exact Sound.not_owed_of_wellstacked (Wellstacked.mono (w := w) (fun hid => hid) hrest)

/-- Another removal that is over leaves it where it is. -/
theorem present_finished {w : World (Kind U)} {stack : List (Frame U σ)} {j id : ComponentId}
    {x e : Entity} {b : Bool} (hshape : Shape w (.removal j x :: stack) (.reply b))
    (hlisted : (j, x) ∈ w.removing) (hrow : w.holds id e = true) (hfree : (id, e) ∉ w.removing) :
    Present { w with removing := w.removing.erase (j, x) } stack (.reply true) id e := by
  obtain ⟨f, rest, rfl, hf, -⟩ := hshape.removes_of_removal
  refine ⟨hrow, fun hmem => hfree (List.mem_of_mem_erase hmem), ?_⟩
  rintro ⟨g, rest', hstack, -, hg⟩
  obtain ⟨rfl, -⟩ := List.cons.inj hstack
  obtain ⟨rfl, rfl⟩ := hf.eq (hg.mono fun hid => hid)
  exact hfree hlisted

/-- A component that is there stays, unless its removal is announced. -/
theorem present_move (hup : Upheld count m.world m.stack m.control) (hm : Move m m')
    {id : ComponentId} {e : Entity} (hvalid : m.world.isValid e = true)
    (h : Present m.world m.stack m.control id e)
    (hnone : m'.control ≠ .publish id .destroy e) : Present m'.world m'.stack m'.control id e := by
  obtain ⟨hrow, hfree, hunowed⟩ := h
  have hshape := hup.layered.shape hm.not_unwind
  have herase : ∀ {j x}, Owed m.world m.stack m.control j x →
      (m.world.erase j x).holds id e = true := by
    intro j x howed
    rw [World.holds_erase hup.wf, if_neg, hrow]
    rintro ⟨rfl, rfl⟩
    exact hunowed howed
  cases hm with
  | quiet old new rest before after plain request world control =>
    have hold : ∀ f ∈ old, f.isPlain = true := fun f hf => plain f (List.mem_append_left _ hf)
    have hnew : ∀ f ∈ new, f.isPlain = true := fun f hf => plain f (List.mem_append_right _ hf)
    have hwell := before ▸ hshape.wellstacked_of_quiet before hold request
    have hwell' : Wellstacked m'.world (new ++ rest) :=
      ((Wellstacked.of_append_plain hold hwell).mono world.idOf?).append_plain hnew
    exact ⟨by rw [world.holds]; exact hrow, by rw [world.removing]; exact hfree,
      Sound.not_owed_of_wellstacked (after ▸ hwell')⟩
  | created x table next call allocate world stack control =>
    rw [world, control]
    exact ⟨hrow, hfree, Sound.not_owed_of_control fun hc => by cases hc⟩
  | placed kind j x v make next frame call accepts world plain stack control =>
    refine ⟨(world.holds id e).mpr (.inr ⟨?_, hrow⟩), by rw [world.removing]; exact hfree,
      Sound.not_owed_of_control fun hc => by rw [control] at hc; cases hc⟩
    -- the row that gives way is of nobody who is valid
    rintro ⟨rfl, hindex⟩
    have hx := ((World.accepts_iff m.world x).mp accepts).1
    rw [Entity.Table.eq_of_isAlive hx hvalid hindex, world.new] at hrow
    cases hrow
  | asked kind j x next call number world stack control =>
    rw [world, control]
    exact ⟨hrow, hfree, Sound.not_owed_of_control fun hc => by cases hc⟩
  | begun x call alive torn =>
    refine present_tornDown ?_ torn hrow hfree
    exact Wellstacked.mono (w := m.world) (fun hid => hid)
      (hshape.wellstacked_of_isRequest (by rw [call]; rfl))
  | refused j x call reason world stack control =>
    rw [world, control]
    exact ⟨hrow, hfree, Sound.not_owed_of_control fun hc => by cases hc⟩
  | announced j x call fresh row world stack control =>
    rw [world, control]
    refine ⟨hrow, fun hmem => ?_, Sound.not_owed_of_control fun hc => by cases hc⟩
    rcases List.mem_cons.mp hmem with heq | hmem
    · obtain ⟨rfl, rfl⟩ := Prod.mk.inj heq
      exact hnone control
    · exact hfree hmem
  | finished j x b call before world control =>
    have hlisted : (j, x) ∈ m.world.removing :=
      hup.removing (by rw [before]; exact List.mem_cons_self)
    rw [before, call] at hshape
    rw [world, control]
    exact present_finished hshape hlisted hrow hfree
  | teardown j x b rest call before torn =>
    rw [before, call] at hshape
    have hrest : Wellstacked (if b then m.world.erase j x else m.world) rest := by
      split
      · exact Wellstacked.mono (w := m.world) (fun hid => hid) hshape.wellstacked_of_teardown
      · exact hshape.wellstacked_of_teardown
    refine present_tornDown hrest torn ?_ ?_
    · split
      · rename_i hb
        exact herase ⟨_, _, before, by rw [call, hb], rfl, rfl⟩
      · exact hrow
    · split
      · exact hfree
      · exact hfree
  | taken kind x b next script call before world control =>
    rw [before, call] at hshape
    obtain ⟨j, hj, -⟩ := hshape.idOf?_of_taking
    have hworld : m'.world.holds id e = true ∧ (id, e) ∉ m'.world.removing := by
      rw [world]
      split
      · rename_i hb
        rw [World.pull_eq hup.wf hj]
        exact ⟨herase ⟨_, _, before, by rw [call, hb], rfl, hj⟩, hfree⟩
      · exact ⟨hrow, hfree⟩
    rw [control]
    exact ⟨hworld.1, hworld.2, Sound.not_owed_of_control fun hc => by cases hc⟩

variable {host : σ} {script : Script U σ} {n : Nat}

/-- The entity is valid while a call that was accepted for it goes on. -/
theorem isValid_of_lasts (h : (start host script).Tame n)
    (hlt : ∀ i, (start host script).reissues n i < UInt32.size) {i k : Nat} (hk : k ≤ n)
    {e : Entity} (haccepted : ((start host script).run i).accepted? = some e)
    (hlasts : (start host script).Lasts i k) :
    ((start host script).run k).world.isValid e = true := by
  have hmem := mem_destroyed_of_mem_destructions (mem_destructions_of_lasts haccepted hlasts)
  exact World.isValid_of_isDestroying ((upheld_of_le host script h hlt hk).destroying hmem)

/-- An accepted destruction that is answered has started a dispatch for every component that was
there, unless its removal was listed before. -/
theorem exists_published_of_answered (h : (start host script).Tame n)
    (hlt : ∀ i, (start host script).reissues n i < UInt32.size) {i j : Nat} (hj : j ≤ n)
    {e : Entity} {b : Bool} (haccepted : ((start host script).run i).accepted? = some e)
    {id : ComponentId} (hrow : ((start host script).run i).world.holds id e = true)
    (hfree : (id, e) ∉ ((start host script).run i).world.removing)
    (hanswered : (start host script).Answered i j b)
    (hquiet : ∀ k, i < k → k < j → ∀ cause, ((start host script).run k).control ≠ .unwind cause) :
    ∃ p, i < p ∧ p < j ∧ ((start host script).run p).control = .publish id .destroy e := by
  by_contra hnone
  simp only [not_exists, not_and] at hnone
  obtain ⟨hcall, haccepts⟩ := accepted?_eq_some haccepted
  have hup : ∀ k ≤ j, Upheld _ ((start host script).run k).world ((start host script).run k).stack
      ((start host script).run k).control := fun k hk =>
    upheld_of_le host script h hlt (Nat.le_trans hk hj)
  have hvalid : ∀ k, i ≤ k → k < j → ((start host script).run k).world.isValid e = true := by
    intro k hik hkj
    rcases Nat.lt_or_eq_of_le hik with hik | rfl
    · exact isValid_of_lasts h hlt (Nat.le_trans (Nat.le_of_lt hkj) hj) haccepted
        ⟨hik, fun l hl hil => hanswered.during l hil (Nat.lt_of_le_of_lt hl hkj)⟩
    · exact ((World.accepts_iff _ _).mp haccepts).1
  have hpresent : ∀ k, i ≤ k → k ≤ j → Present ((start host script).run k).world
      ((start host script).run k).stack ((start host script).run k).control id e := by
    intro k hik hkj
    induction hik with
    | refl =>
      exact ⟨hrow, hfree, Sound.not_owed_of_control fun hc => by rw [hcall] at hc; cases hc⟩
    | @step k hik ih =>
      have hnow := ih (Nat.le_of_succ_le hkj)
      rcases move_or_fall_of_lt host script h hlt (Nat.lt_of_lt_of_le hkj hj) with heq | hm | hf
      · rw [heq]
        exact hnow
      · refine present_move (hup k (Nat.le_of_succ_le hkj)) hm (hvalid k hik hkj) hnow fun hc => ?_
        rcases Nat.lt_or_eq_of_le hkj with hlate | rfl
        · exact hnone (k + 1) (Nat.lt_succ_of_le hik) hlate hc
        · rw [hanswered.control] at hc
          cases hc
      · -- nothing is abandoned in between
        have hcalm := fun l (hil : i ≤ l) (hlj : l ≤ j) =>
          hanswered.calm (fun _ hc => by rw [hcall] at hc; cases hc) hquiet hil hlj
        obtain ⟨cause, hc | hc⟩ := hf.unwinds
        · exact absurd hc (hcalm k hik (Nat.le_of_succ_le hkj) cause)
        · exact absurd hc (hcalm (k + 1) (Nat.le_succ_of_le hik) hkj cause)
  have hgone := holds_of_answered h hlt hj haccepted hfree hanswered hquiet
  rw [(hpresent j (Nat.le_of_lt hanswered.lt) (Nat.le_refl j)).1] at hgone
  cases hgone

/-! ## Who is called -/

/-- A listener that is not held back when its turn comes is called, and nothing lies between the
dispatch and its handler. -/
theorem called_of_answered {p q : Nat} {id : ComponentId} {event : LifeEvent} {e : Entity}
    {b : Bool} {key : ConnectionKey}
    (hcall : ((start host script).run p).control = .publish id event e)
    (hanswered : (start host script).Answered p q b)
    (hkey : key ∈ ((start host script).run p).world.listeners id event)
    (hactive : ∀ k, p < k → k < q →
      ((start host script).run k).world.board.isActive key = true) :
    ∃ t keys, p < t ∧ t < q ∧ ((start host script).run t).control = .invoke key e ∧
      ((start host script).run t).stack =
        .dispatch id event e keys :: ((start host script).run p).stack := by
  have hstart := dispatching_start hcall
  rw [← turns_of_answered hstart hanswered] at hkey
  obtain ⟨t, ht, hturn⟩ := List.mem_filterMap.mp hkey
  have htq := List.mem_range.mp ht
  have htop : (start host script).OnTop p t := by
    by_contra hno
    rw [turn?_of_not_onTop hno] at hturn
    cases hturn
  have hcallee := (callee?_succ_iff hcall).mpr ⟨hturn, hactive t htop.1.1 htq⟩
  unfold callee? at hcallee
  rw [Option.ite_none_right_eq_some] at hcallee
  obtain ⟨htop', hinvoked⟩ := hcallee
  obtain ⟨above, keys, hstack, -⟩ := ((turns_come_first hstart (t + 1)).2 htop'.1).frame
  have hdispatching := (turns_come_first hstart (t + 1)).2 htop'.1
  rw [(hdispatching.onTop_iff hstack).mp htop', List.nil_append] at hstack
  have hlate : t + 1 < q := Nat.lt_of_le_of_ne htq fun heq => by
    have hlength := htop'.2
    rw [heq, hanswered.stack] at hlength
    exact absurd hlength (Nat.ne_of_lt (Nat.lt_succ_self _))
  refine ⟨t + 1, keys, htop'.1.1, hlate, ?_, hstack⟩
  unfold invoked? at hinvoked
  split at hinvoked
  · rename_i key' e' hinvoke
    obtain rfl := Option.some.inj hinvoked
    -- a handler is called for the entity of the dispatch on top
    obtain ⟨id', event', keys', rest, hstack'⟩ :=
      (attended_run host script (t + 1)).invoke hinvoke
    rw [hstack] at hstack'
    obtain ⟨-, -, rfl, -⟩ := Frame.dispatch.inj (List.cons.inj hstack').1
    exact hinvoke
  · cases hinvoked

/-! ## Cascades that go through -/

/-- Between two steps a cascade claims a node with all that is below it, and asks for the
destruction of everybody whom no other cascade has claimed. -/
def Uproots (m : Machine U σ) (c : Nat) (e : Entity) (i j : Nat) : Prop :=
  ∃ k, i < k ∧ k < j ∧ (m.run k).collecting? = some e ∧
    ∀ x ∈ e :: (m.run k).world.descendants e, x ∈ (m.run (k + 1)).claims.getD c [] ∧
      (x ∈ (m.run k).claims.getD c [] ∨ ∃ l, k < l ∧ l < j ∧ (m.run l).control = .destroy x)

/-- A cascade that is not kept from its node waits for the end of the update of the parent. -/
theorem stack_invoke {key : ConnectionKey} {c : Nat} {e : Entity}
    (hhandler : m.handlers[key]? = some (.cascade c)) (hfree : e ∉ m.claims.getD c []) :
    (m.invoke key e).stack = .unlinking c e :: m.stack := by
  simp only [invoke, hhandler, startCascade, if_neg hfree]
  cases hp : (m.world.validParentOf? e).bind fun parent =>
      m.patch? .node parent (fun node => TreeNode.dropChild node e) (.unlinking c e) with
  | none => rfl
  | some m' =>
    obtain ⟨parent, -, hpatch⟩ := Option.bind_eq_some_iff.mp hp
    obtain ⟨id, v, -, -, rfl⟩ := patch?_eq_some hpatch
    rfl

/-- A cascade that is over has asked for the destruction of everybody who was ahead of it. -/
theorem exists_destroy_of_cascadeOn {m m' : Machine U σ} {c i n : Nat} {x : Entity}
    {past post : List Entity} {stack : List (Frame U σ)} (pre : List Entity) (hin : i < n)
    (hrun : m.run (i + 1) = m'.cascadeOn c past (pre ++ x :: post)) (hstack : m'.stack = stack)
    (hover : (m.run n).stack.length ≤ stack.length)
    (hquiet : ∀ k, i < k → k < n → ∀ cause, (m.run k).control ≠ .unwind cause) :
    ∃ l, i < l ∧ l < n ∧ (m.run l).control = .destroy x := by
  induction pre generalizing i m' past post with
  | nil =>
    have hnow : (m.run (i + 1)).stack.length = stack.length + 1 := by
      rw [hrun, ← hstack]
      rfl
    refine ⟨i + 1, Nat.lt_succ_self i, Nat.lt_of_le_of_ne hin fun heq => ?_, by rw [hrun]; rfl⟩
    rw [← heq, hnow] at hover
    exact absurd hover (Nat.not_succ_le_self _)
  | cons y pre ih =>
    obtain ⟨fresh, hnow⟩ : ∃ fresh, (m.run (i + 1)).stack =
        .cascade c (past ++ [y]) (pre ++ x :: (post ++ fresh)) :: stack := by
      refine ⟨(m'.claim c (m'.world.childrenOf y)).1, ?_⟩
      rw [hrun, ← hstack, ← List.cons_append, ← List.append_assoc]
      rfl
    have hgone : ¬ .cascade c (past ++ [y]) (pre ++ x :: (post ++ fresh)) :: stack <:+
        (m.run n).stack := fun hsuf =>
      absurd (Nat.le_trans hsuf.length_le hover) (Nat.not_succ_le_self _)
    -- when it is told how the destruction of this node went it goes on with the next one
    obtain ⟨k, hik, hkn, hwaiting, b, hreply⟩ := exists_answer hin (by rw [hnow]) hgone hquiet
    obtain ⟨l, hkl, hln, hl⟩ := ih hkn
      (run_succ_of_run_step (step_of_reply hreply hwaiting)) rfl
      fun l hkl => hquiet l (Nat.lt_trans hik hkl)
    exact ⟨l, Nat.lt_trans hik hkl, hln, hl⟩

/-- Whoever is collected is claimed, and stays so when the cascade comes to its first node. -/
theorem mem_claims_of_collected {m : Machine U σ} {c : Nat} {es : List Entity} {x : Entity}
    (hc : c < m.claims.size) (hx : x ∈ es) (ahead : List Entity) :
    x ∈ ((m.claim c es).2.cascadeOn c [] ahead).claims.getD c [] := by
  have hcollected : x ∈ (m.claim c es).2.claims.getD c [] := by
    rw [getD_claims_claim m hc, if_pos rfl]
    exact (mem_claimAll_snd _ _ x).mpr (.inr hx)
  have hc' : c < (m.claim c es).2.claims.size := Nat.lt_of_lt_of_eq hc Array.size_setIfInBounds.symm
  cases ahead with
  | nil =>
    change x ∈ ((m.claim c es).2.disclaim c []).claims.getD c []
    rw [getD_claims_disclaim, if_pos rfl]
    simpa using hcollected
  | cons y ahead =>
    change x ∈ ((m.claim c es).2.claim c _).2.claims.getD c []
    rw [getD_claims_claim _ hc', if_pos rfl]
    exact (mem_claimAll_snd _ _ x).mpr (.inl hcollected)

/-- A cascade that is not kept from its node goes through, if it is not left. -/
theorem uproots_of_invoked {t q : Nat} {key : ConnectionKey} {c : Nat} {e : Entity}
    (hcall : ((start host script).run t).control = .invoke key e)
    (hhandler : ((start host script).run t).handlers[key]? = some (.cascade c))
    (hfree : e ∉ ((start host script).run t).claims.getD c []) (htq : t < q)
    (hover : ((start host script).run q).stack.length ≤ ((start host script).run t).stack.length)
    (hquiet : ∀ k, t < k → k < q → ∀ cause, ((start host script).run k).control ≠ .unwind cause) :
    (start host script).Uproots c e t q := by
  have hnext : ((start host script).run (t + 1)).stack =
      .unlinking c e :: ((start host script).run t).stack := by
    have hstep : ((start host script).run t).step =
        some (((start host script).run t).invoke key e) := by simp only [step, hcall]
    rw [run_succ_of_run_step hstep]
    exact stack_invoke hhandler hfree
  have hgone : ¬ .unlinking c e :: ((start host script).run t).stack <:+
      ((start host script).run q).stack := fun hsuf =>
    absurd (Nat.le_trans hsuf.length_le hover) (Nat.not_succ_le_self _)
  obtain ⟨k, htk, hkq, hstack, b, hreply⟩ := exists_answer htq (by rw [hnext]) hgone hquiet
  have hrun := run_succ_of_run_step (step_of_reply hreply hstack)
  rw [resume_unlinking] at hrun
  have hsize : c < ((start host script).run k).claims.size :=
    (custody_run host script k).1.frames _ (hstack ▸ List.mem_cons_self) c rfl
  refine ⟨k, htk, hkq, by rw [collecting?, hreply, hstack], fun x hx => ⟨?_, ?_⟩⟩
  · rw [hrun]
    exact mem_claims_of_collected
      (m := { (start host script).run k with stack := ((start host script).run t).stack }) hsize hx _
  · by_cases hclaimed : x ∈ ((start host script).run k).claims.getD c []
    · exact .inl hclaimed
    · -- whoever was free is claimed now, and has its turn before the cascade is over
      obtain ⟨pre, post, hfresh⟩ := List.append_of_mem
        ((mem_claim_fst { (start host script).run k with
          stack := ((start host script).run t).stack } c _ x).mpr ⟨hx, hclaimed⟩)
      rw [hfresh] at hrun
      exact .inr (exists_destroy_of_cascadeOn pre hkq hrun rfl hover fun l hkl =>
        hquiet l (Nat.lt_trans htk hkl))

/-- Whoever is claimed now and was not before was claimed by some step. -/
theorem exists_claimed {m : Machine U σ} {c i p : Nat} {e : Entity} (hip : i ≤ p)
    (hi : e ∉ (m.run i).claims.getD c []) (hp : e ∈ (m.run p).claims.getD c []) :
    ∃ l, i ≤ l ∧ l < p ∧ e ∉ (m.run l).claims.getD c [] ∧
      e ∈ (m.run (l + 1)).claims.getD c [] := by
  induction hip with
  | refl => exact absurd hp hi
  | @step p hip ih =>
    by_cases hbefore : e ∈ (m.run p).claims.getD c []
    · obtain ⟨l, hil, hlp, hl⟩ := ih hbefore
      exact ⟨l, hil, Nat.lt_succ_of_lt hlp, hl⟩
    · exact ⟨p, hip, Nat.lt_succ_self p, hbefore, hp⟩

/-- A destruction of a node that nobody has claimed starts a cascade, unless the removal of the links
was listed before, or the plugin is cut or held back. -/
theorem uproots_of_answered (h : (start host script).Tame n)
    (hlt : ∀ i, (start host script).reissues n i < UInt32.size) {s i j : Nat} (hj : j ≤ n)
    {id : ComponentId} {key : ConnectionKey} {c : Nat} {e : Entity} {b : Bool}
    (hhookup : ((start host script).run s).hookup? =
      some { id, event := .destroy, key, handler := .cascade c }) (hsi : s < i)
    (haccepted : ((start host script).run i).accepted? = some e)
    (hrow : ((start host script).run i).world.holds id e = true)
    (hfree : (id, e) ∉ ((start host script).run i).world.removing)
    (hunclaimed : e ∉ ((start host script).run i).claims.getD c [])
    (hactive : ∀ k, i < k → k < j → ((start host script).run k).world.board.isActive key = true)
    (hanswered : (start host script).Answered i j b)
    (hquiet : ∀ k, i < k → k < j → ∀ cause, ((start host script).run k).control ≠ .unwind cause) :
    ∃ p q b', i < p ∧ q < j ∧ ((start host script).run p).control = .publish id .destroy e ∧
      (start host script).Answered p q b' ∧
      ((∃ l, i ≤ l ∧ l < p ∧ e ∉ ((start host script).run l).claims.getD c [] ∧
        e ∈ ((start host script).run (l + 1)).claims.getD c []) ∨
        (start host script).Uproots c e p q) := by
  obtain ⟨p, hip, hpj, hcall⟩ :=
    exists_published_of_answered h hlt hj haccepted hrow hfree hanswered hquiet
  have hdeep := hanswered.during p hip hpj
  rw [← hanswered.stack] at hdeep
  obtain ⟨q, hqj, hend⟩ :=
    answered_or_left_of_published hcall hpj (Nat.not_lt.mpr (Nat.le_of_lt hdeep))
  -- the dispatch is over before the call is
  have hlate : ((start host script).run q).stack = ((start host script).run p).stack → q < j :=
    fun hsame => Nat.lt_of_le_of_ne hqj fun heq => by
      rw [← heq, hsame] at hdeep
      exact absurd hdeep (Nat.lt_irrefl _)
  obtain ⟨b', hdispatch⟩ : ∃ b', (start host script).Answered p q b' := by
    rcases hend with hdispatch | hleft
    · exact hdispatch
    · obtain ⟨cause, hunwind⟩ := hleft.control
      exact absurd hunwind
        (hquiet q (Nat.lt_trans hip hleft.lt) (hlate hleft.stack) cause)
  have hqj := hlate hdispatch.stack
  refine ⟨p, q, b', hip, hqj, hcall, hdispatch, ?_⟩
  by_cases hclaimed : e ∈ ((start host script).run p).claims.getD c []
  · exact .inl (exists_claimed (Nat.le_of_lt hip) hunclaimed hclaimed)
  have hkey : key ∈ ((start host script).run p).world.listeners id .destroy := by
    rw [(hooked_run host script p).listeners]
    exact List.mem_filter.mpr ⟨mem_connections hhookup (Nat.lt_trans hsi hip),
      Switchboard.isConnected_of_isActive (hactive p hip hpj)⟩
  obtain ⟨t, keys, hpt, htq, hinvoke, hstack⟩ := called_of_answered hcall hdispatch hkey
    fun k hpk hkq => hactive k (Nat.lt_trans hip hpk) (Nat.lt_trans hkq hqj)
  -- a dispatch claims nothing
  have hfree' : e ∉ ((start host script).run t).claims.getD c [] := by
    rw [(custody_run host script t).1.mem_iff, hstack, claimed_cons]
    rwa [(custody_run host script p).1.mem_iff] at hclaimed
  have hover : ((start host script).run q).stack.length ≤
      ((start host script).run t).stack.length := by
    rw [hstack, hdispatch.stack]
    exact Nat.le_succ _
  obtain ⟨k, htk, hkq, huproots⟩ := uproots_of_invoked hinvoke
    (handlers_run hhookup (Nat.lt_trans hsi (Nat.lt_trans hip hpt))) hfree' htq hover
    fun k htk hkq => hquiet k (Nat.lt_trans hip (Nat.lt_trans hpt htk)) (Nat.lt_trans hkq hqj)
  exact .inr ⟨k, Nat.lt_trans hpt htk, hkq, huproots⟩

end Machine

/-- **Claims and guards are given back.** Handlers may give up anywhere, at any depth. At every point
the nodes that are claimed are those of the cascades on the stack, and no two of these share one;
so when no call is in progress, whether calls came to their end or were left, nobody is claimed.
A connection is held back as often as there are guards on it that were not given back, and these
are held by scopes that go on and by scripts that asked for one. And where the plugin is connected
and not held back, a destruction of a node that nobody has claimed starts a dispatch for its links,
and a cascade that goes through, unless some other cascade claims the node during the call. That
the removal of the links is not listed already is the one thing that is needed for this. -/
theorem Machine.claims_and_guards_are_given_back (host : σ) (script : Script U σ) :
    let m := start host script
    (∀ k c, ((m.run k).claims.getD c []).Perm (claimed c (m.run k).stack) ∧
      (claimed c (m.run k).stack).Nodup) ∧
      (∀ k, (m.run k).stack.all Frame.isScope = true → ∀ c, (m.run k).claims.getD c [] = []) ∧
      (∀ k, m.Minding k →
        (∀ key, (m.run k).world.board.blocks key = (m.held k).countP (·.2 == key)) ∧
          ∀ p ∈ m.held k, (∃ next, .blocked p.1 next ∈ (m.run k).stack) ∨
            ∃ l < k, (∃ next, (m.run l).control = .run (.call (.block p.2) next)) ∧
              (m.run l).world.board.guards.size = p.1) ∧
      ∀ n, m.Tame n → (∀ index, m.reissues n index < UInt32.size) →
        ∀ s id key c, (m.run s).hookup? =
            some { id, event := .destroy, key, handler := .cascade c } →
          ∀ i, s < i → ∀ j ≤ n, ∀ e b, (m.run i).control = .destroy e →
            (m.run i).world.isValid e = true → (m.run i).world.isDestroying e = false →
            (m.run i).world.holds id e = true → (id, e) ∉ (m.run i).world.removing →
            e ∉ (m.run i).claims.getD c [] →
            (∀ k, i < k → k < j → (m.run k).world.board.isActive key = true) →
            m.Answered i j b →
            (∀ k, i < k → k < j → ∀ cause, (m.run k).control ≠ .unwind cause) →
              ∃ p q b', i < p ∧ q < j ∧ (m.run p).control = .publish id .destroy e ∧
                m.Answered p q b' ∧
                ((∃ l, i ≤ l ∧ l < p ∧ e ∉ (m.run l).claims.getD c [] ∧
                  e ∈ (m.run (l + 1)).claims.getD c []) ∨ m.Uproots c e p q) := by
  intro m
  refine ⟨fun k c => ?_, fun k hscope c => ?_, fun k hminding => ⟨fun key => ?_, fun p hp => ?_⟩,
    fun n htame hlt s id key c hhookup i hsi j hj e b hcall hvalid hdestroying hrow hfree hunclaimed
      hactive hanswered hquiet => ?_⟩
  · have hcustody := (custody_run host script k).1
    exact ⟨hcustody.perm c, hcustody.nodup_claimed c⟩
  · have hperm := (custody_run host script k).1.perm c
    rw [claimed_of_isScope hscope] at hperm
    exact hperm.eq_nil
  · exact (guarded_run host script hminding).blocks key
  · exact holder_of_mem_held hp
  · exact uproots_of_answered htame hlt hj hhookup hsi (accepted?_of_accepts hcall hvalid hdestroying)
      hrow hfree hunclaimed hactive hanswered hquiet

/-- A handler comes before the plugin, and gives up when the links of the first node are taken. It
is cut, and then the node is destroyed. -/
def remnant : Script Empty Unit :=
  Task.toScript do
    let failing ← Task.connect .node .destroy fun _ _ => .abort (.raised "stop")
    Task.cascade
    let parent ← Task.create
    let child ← Task.create
    let _ ← Task.emplace .node parent (.ok { children := [child] })
    let _ ← Task.emplace .node child (.ok { parent })
    let _ ← Task.attempt do
      let _ ← Task.take .node parent
    Task.disconnect failing
    let _ ← Task.destroy parent

/-- Nobody is claimed and the plugin is connected when the node is destroyed, but no cascade starts,
and the child stays. -/
theorem Machine.leftover_removal_keeps_the_cascade_away :
    (start () remnant).Tame 34 ∧
      (∀ index, (start () remnant).reissues 34 index < UInt32.size) ∧
      ((start () remnant).run 1).hookup? =
        some { id := 0, event := .destroy, key := 1, handler := .cascade 0 } ∧
      (∀ k < 34, 1 < k → ((start () remnant).run k).world.board.isActive 1 = true) ∧
      ((start () remnant).run 26).isIdle = true ∧
      ((start () remnant).run 27).claims.getD 0 [] = [] ∧
      ((start () remnant).run 27).accepted? = some ⟨0, .initial⟩ ∧
      ((start () remnant).run 27).world.holds 0 ⟨0, .initial⟩ = true ∧
      ((start () remnant).run 27).world.descendants ⟨0, .initial⟩ = [⟨1, .initial⟩] ∧
      (start () remnant).Answered 27 32 true ∧
      (∀ c p, ∀ q ≤ 34, ¬ (start () remnant).Uproots c ⟨0, .initial⟩ p q) ∧
      ((start () remnant).run 34).isIdle = true ∧
      ((start () remnant).run 34).world.isValid ⟨0, .initial⟩ = false ∧
      ((start () remnant).run 34).world.isValid ⟨1, .initial⟩ = true := by
  have hnever : ∀ k < 34, ((start () remnant).run k).collecting? ≠ some ⟨0, .initial⟩ := by
    decide +kernel
  have hreleased : ((start () remnant).run 31).released? = some ⟨0, .initial⟩ := by decide +kernel
  have honce : ∀ i ≤ 31, ((start () remnant).run i).accepted? = some ⟨0, .initial⟩ → i = 27 := by
    decide +kernel
  obtain ⟨i, hi, haccepted, hanswered⟩ := exists_answered_of_released hreleased
  obtain rfl := honce i hi haccepted
  refine ⟨by decide +kernel, fun index => Nat.lt_of_le_of_lt (reissues_le _ 34 index) (by decide),
    by with_unfolding_all rfl, by decide +kernel, by decide +kernel, by decide +kernel, haccepted,
    by decide +kernel, by decide +kernel, hanswered, ?_, by decide +kernel, by decide +kernel,
    by decide +kernel⟩
  rintro c p q hq ⟨k, -, hkq, hcollecting, -⟩
  exact hnever k (Nat.lt_of_lt_of_le hkq hq) hcollecting

/-- Nodes in a row. A handler gives up while the first is destroyed; then the third is destroyed
where the handler is held back, and the scope is left after that. -/
def relapse : Script Empty Unit :=
  Task.toScript do
    Task.cascade
    let first ← Task.create
    let second ← Task.create
    let third ← Task.create
    let fourth ← Task.create
    let _ ← Task.emplace .node first (.ok { children := [second] })
    let _ ← Task.emplace .node second (.ok { parent := first, children := [third] })
    let _ ← Task.emplace .node third (.ok { parent := second, children := [fourth] })
    let _ ← Task.emplace .node fourth (.ok { parent := third })
    let failing ← Task.connect .node .destroy fun _ _ => .abort (.raised "stop")
    let _ ← Task.attempt do
      let _ ← Task.destroy first
    let _ ← Task.attempt do
      Task.blocked failing do
        let _ ← Task.destroy third
        Task.abort (.raised "stop")

/-- All four nodes were claimed when the first destruction was left. The third is destroyed by a
cascade nevertheless, and in the end nobody is claimed and nothing is held back. -/
theorem Machine.claims_and_guards_are_given_back_relapse :
    (start () relapse).Tame 89 ∧
      (∀ index, (start () relapse).reissues 89 index < UInt32.size) ∧
      (start () relapse).Minding 89 ∧
      ((start () relapse).run 44).claims.getD 0 [] =
        [⟨3, .initial⟩, ⟨2, .initial⟩, ⟨1, .initial⟩, ⟨0, .initial⟩] ∧
      ((start () relapse).run 53).claims.getD 0 [] = [] ∧
      ((start () relapse).run 56).world.board.blocks 1 = 1 ∧
      (∃ p q b, 56 < p ∧ q < 84 ∧
        ((start () relapse).run p).control = .publish 0 .destroy ⟨2, .initial⟩ ∧
        (start () relapse).Answered p q b ∧
        ((∃ l, 56 ≤ l ∧ l < p ∧ ⟨2, .initial⟩ ∉ ((start () relapse).run l).claims.getD 0 [] ∧
          ⟨2, .initial⟩ ∈ ((start () relapse).run (l + 1)).claims.getD 0 []) ∨
          (start () relapse).Uproots 0 ⟨2, .initial⟩ p q)) ∧
      ((start () relapse).run 89).world.handles = [⟨0, .initial⟩, ⟨1, .initial⟩] ∧
      ((start () relapse).run 89).claims.getD 0 [] = [] ∧
      ((start () relapse).run 89).world.board.blocks 1 = 0 := by
  have htame : (start () relapse).Tame 89 := by decide +kernel
  have hreissues : ∀ index, (start () relapse).reissues 89 index < UInt32.size := fun index =>
    Nat.lt_of_le_of_lt (reissues_le _ 89 index) (by decide)
  have hminding : (start () relapse).Minding 89 := by
    have hsome : ∀ k < 89, ((start () relapse).run k).blocking?.all
        (· < ((start () relapse).run k).world.board.connections.size) = true := by decide +kernel
    intro k hk key hkey
    have hall := hsome k hk
    rw [hkey] at hall
    exact of_decide_eq_true hall
  obtain ⟨-, hempty, hguards, hcascades⟩ := claims_and_guards_are_given_back () relapse
  have hreleased : ((start () relapse).run 83).released? = some ⟨2, .initial⟩ := by decide +kernel
  have honce : ∀ i ≤ 83, ((start () relapse).run i).accepted? = some ⟨2, .initial⟩ → i = 56 := by
    decide +kernel
  obtain ⟨i, hi, haccepted, hanswered⟩ := exists_answered_of_released hreleased
  obtain rfl := honce i hi haccepted
  have hordinary : ∀ k < 84, 56 < k → ((start () relapse).run k).control.isOrdinary = true := by
    decide +kernel
  have hactive : ∀ k < 84, 56 < k → ((start () relapse).run k).world.board.isActive 0 = true := by
    decide +kernel
  have hheld : (start () relapse).held 89 = [] := by decide +kernel
  refine ⟨htame, hreissues, hminding, by decide +kernel, hempty 53 (by decide +kernel) 0,
    by decide +kernel, ?_, by decide +kernel, hempty 89 (by decide +kernel) 0, ?_⟩
  · refine hcascades 89 htame hreissues 0 0 0 0 (by with_unfolding_all rfl) 56 (by decide) 84
      (by decide) _ true (accepted?_eq_some haccepted).1 (by decide +kernel) (by decide +kernel)
      (by decide +kernel) (by decide +kernel) (by decide +kernel)
      (fun k hk hk' => hactive k hk' hk) hanswered fun k hk hk' cause hc => ?_
    have hk := hordinary k hk' hk
    rw [hc] at hk
    cases hk
  · rw [(hguards 89 hminding).1 1, hheld]
    rfl

end EntityScene
