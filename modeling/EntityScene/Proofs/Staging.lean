import EntityScene.Proofs.Passes
import EntityScene.Proofs.Sessions
import EntityScene.Proofs.Traits

/-!
# Sessions with passes

A pass leaves a matrix alone where nobody on the way up is dirty. Setters mark what they write,
and a placement that was built is marked from the start; but an edit of the tree marks nobody. So
who was moved has to be marked before the next pass, and after that every matrix is right.

- `World.Fresh`: a placement is dirty, or it is the one that was there at the last pass.
- `World.Marked`: clean nodes have the parents that they had at the last pass.
- `Machine.Staging`: the machines between the requests of a session with passes.
- `Machine.passes_find_world_matrices`: after every pass the matrices are right.
-/

namespace EntityScene

variable {U σ : Type} [SceneFamily U] [DecidableEq U]

namespace World

variable {w before : World (Kind U)} {r x : Entity} {M : (geometry U).Matrix} {b : Bool}

/-- A placement is dirty, or the entity had it in the given world. -/
def Fresh (before : World (Kind U)) : Trait (Kind U)
  | .transform => fun e (t : Transform (geometry U)) => t.dirty = true ∨ before.stored? .transform e = some t
  | _ => fun _ _ => True

/-- Nodes with a clean placement had links in the given world, and the parent that they have
now. -/
def Marked (before w : World (Kind U)) : Prop :=
  ∀ {x t}, w.transform? x = some t → t.dirty = false → (w.node? x).isSome →
    (before.node? x).isSome ∧ before.parentOf? x = w.parentOf? x

theorem bears_fresh_self (w : World (Kind U)) : w.Bears w.Fresh := by
  intro kind e v hv
  cases kind with
  | transform => exact .inr hv
  | _ => exact trivial

theorem Marked.transform? (hfresh : w.Bears before.Fresh) (hmarked : before.Marked w)
    {t : Transform (geometry U)} (ht : w.transform? x = some t) (hclean : t.dirty = false)
    (hnode : (w.node? x).isSome) : before.transform? x = some t := by
  have hvalid := isValid_of_node? (hmarked ht hclean hnode).1
  rw [World.transform?, get?_of_isValid (isValid_of_transform? ht)] at ht
  rw [World.transform?, get?_of_isValid hvalid]
  refine (hfresh .transform x t ht).resolve_left fun hdirty => ?_
  rw [hclean] at hdirty
  cases hdirty

/-- Where nobody is dirty the way up is what it was. -/
theorem Marked.way (hfresh : w.Bears before.Fresh) (hmarked : before.Marked w)
    (hway : w.Way r x M b) (hclean : b = false) : before.Way r x M b := by
  induction hway with
  | root hroot hnode ht =>
    obtain ⟨hnode', hparent⟩ := hmarked ht hclean hnode
    exact .root (hparent.trans hroot) hnode' (hmarked.transform? hfresh ht hclean hnode)
  | step hp _ ht ih =>
    obtain ⟨hup, hself⟩ := Bool.or_eq_false_iff.mp hclean
    have hnode := isSome_node?_of_parentOf? hp
    obtain ⟨-, hparent⟩ := hmarked ht hself hnode
    exact .step (hparent.trans hp) (ih hup) (hmarked.transform? hfresh ht hself hnode)

/-- What was right at the last pass and is clean is right. -/
theorem Marked.sure (hfresh : w.Bears before.Fresh) (hmarked : before.Marked w)
    (hlit : before.AllLit) : w.Sure := by
  intro r x M hway
  obtain ⟨t, ht, hclean, hmatrix⟩ := hlit (hmarked.way hfresh hway rfl)
  obtain ⟨t', ht'⟩ := hway.exists_transform?
  have hclean' := hway.clean rfl ht'
  rw [hmarked.transform? hfresh ht' hclean' hway.isSome_node?] at ht
  exact ⟨t', ht', hclean', Option.some.inj ht ▸ hmatrix⟩

end World

namespace Request

variable {planted : Option ConnectionKey} {before : World (Kind U)}

/-- Requests that write placements only to make them dirty, or to put back the one that the
entity had in the given world, and abandon no component while it is made. -/
def Marks (before : World (Kind U)) : Request U σ → Prop
  | call c => c.Respects before.Fresh
  | emplaceOrReplace kind e v => before.Fresh kind e v
  | _ => True

theorem within_script {r : Request U σ} (hfair : r.Fair planted) (h : r.Marks before) :
    r.script.Within (Call.Respects before.Fresh) := by
  have hpatch : ∀ e f, (Call.patch .node e f : Call U).Respects before.Fresh :=
    fun _ _ _ _ => trivial
  have hspawn : (Task.spawnNode : Task U σ Entity).Within (Call.Respects before.Fresh) :=
    Task.within_spawnNode trivial (fun _ => ⟨_, rfl, trivial⟩) fun _ => ⟨_, rfl, .inl rfl⟩
  cases r with
  | call c => exact (Task.Within.call h).toScript
  | connect kind event handler => exact .connect (fun key e => (hfair key e).within) fun _ => .done
  | remove kind e => exact (Task.Within.bind (.call (c := .take kind e) trivial) fun _ => .pure _).toScript
  | emplaceOrReplace kind e v =>
    exact (Task.within_emplaceOrReplace (fun _ _ => h) ⟨v, rfl, h⟩).toScript
  | clear => exact (Task.Within.look fun w => Task.within_destroyAll (fun _ => trivial) w.handles).toScript
  | spawnNode => exact hspawn.toScript
  | spawnChild parent =>
    exact (Task.within_spawnChild hpatch (fun _ => trivial) hspawn parent).toScript
  | insertChild parent child position => exact (Task.within_link hpatch parent child _).toScript
  | appendChild parent child => exact (Task.within_link hpatch parent child _).toScript
  | removeChild parent child => exact (Task.within_removeChild hpatch parent child).toScript
  | detach child => exact (Task.within_detach hpatch child).toScript
  | reparent child parent => exact (Task.within_reparent hpatch child parent).toScript

/-- Such a request is made to the end. -/
theorem isWhole_of_marks {r : Request U σ} (h : r.Marks before) : r.IsWhole := by
  cases r with
  | call c =>
    cases c with
    | emplace kind e make =>
      obtain ⟨v, hv, -⟩ := h
      exact ⟨v, hv⟩
    | _ => trivial
  | _ => trivial

end Request

namespace Machine

variable {m m' : Machine U σ} {planted : Option ConnectionKey} {before : World (Kind U)}

/-- The machines between the requests and passes of a session, with the world after the last
pass. Before the first one there is none. -/
inductive Staging : Option ConnectionKey → World (Kind U) → Machine U σ → Prop
  /-- Nothing was asked for yet. -/
  | empty (host : σ) : Staging none .empty { host }
  /-- The cascade is connected. -/
  | install {m m' : Machine U σ} {before : World (Kind U)} {tr : List Dispatch}
      (h : Staging none before m) (hrun : (m.on [] (.run Task.cascade.toScript)).Runs tr m')
      (hdone : m'.step = none) (hanswered : m'.abandoned? = none) :
      Staging (some m.handlers.size) before m'
  /-- The cascade is not connected: the signal has no number for it. -/
  | denied {m m' : Machine U σ} {before : World (Kind U)} {tr : List Dispatch}
      (h : Staging none before m) (hrun : (m.on [] (.run Task.cascade.toScript)).Runs tr m')
      (hdone : m'.step = none) (habandoned : m'.abandoned? ≠ none) : Staging none before m'
  /-- A request is served. -/
  | serve {m m' : Machine U σ} {planted : Option ConnectionKey} {before : World (Kind U)}
      {tr : List Dispatch} {r : Request U σ} (h : Staging planted before m)
      (hfair : r.Fair planted) (hmarks : r.Marks before)
      (hrun : (m.on [] (.run r.script)).Runs tr m') (hdone : m'.step = none) :
      Staging planted before m'
  /-- A pass is made, when whoever was moved is dirty. -/
  | pass {m m' : Machine U σ} {planted : Option ConnectionKey} {before : World (Kind U)}
      {tr : List Dispatch} (h : Staging planted before m) (hmarked : before.Marked m.world)
      (hrun : (m.on [] (.run Task.updateAllTransforms.toScript)).Runs tr m')
      (hdone : m'.step = none) : Staging planted m'.world m'

/-- What holds between the requests and passes of a session. -/
structure Staged (planted : Option ConnectionKey) (before : World (Kind U)) (m : Machine U σ) :
    Prop where
  tended : m.Tended planted
  fresh : m.world.Bears before.Fresh
  lit : before.AllLit

/-- Handlers of a session make no calls. -/
theorem Tended.within (h : m.Tended planted) {fits : Call U → Prop} {script : Script U σ}
    (hscript : script.Within fits) : (m.on [] (.run script)).Within fits := by
  refine { handlers := fun handler hhandler => ?_, stack := fun _ hf => (by cases hf), control := hscript }
  obtain ⟨k, hk⟩ := Array.mem_iff_getElem?.mp hhandler
  by_cases hplanted : planted = some k
  · obtain ⟨claims, id, hcascade, -⟩ := h.wired.cascade hplanted
    obtain rfl := Option.some.inj (hk.symm.trans hcascade.cascade)
    exact trivial
  · have hreader := h.wired.readers hplanted hk
    cases handler with
    | script body => exact fun e => (hreader e).within
    | cascade claims => exact hreader.elim

theorem Staged.run (h : m.Staged planted before) {script : Script U σ}
    (hscript : script.Within (Call.Respects before.Fresh)) {tr : List Dispatch}
    (hrun : (m.on [] (.run script)).Runs tr m') : m'.world.Bears before.Fresh := by
  obtain ⟨n, rfl, -⟩ := hrun
  have hbearing : (m.on [] (.run script)).Bearing before.Fresh :=
    { wf := h.tended.wf
      bears := h.fresh
      within := h.tended.within hscript }
  exact (bearing_run (fun _ _ _ _ => trivial) hbearing n).bears

/-- **One pass.** -/
theorem Staged.pass (h : m.Staged planted before) (hmarked : before.Marked m.world) :
    ∃ tr m', (m.on [] (.run Task.updateAllTransforms.toScript)).Runs tr m' ∧ m'.step = none ∧
      m'.abandoned? = none ∧ m'.Staged planted m'.world := by
  have hrun : (m.on [] (.run Task.updateAllTransforms.toScript)).Runs []
      (on { m with world := m.world.updateAllTransforms.2 } [] (.reply true)) :=
    .head rfl rfl (.head rfl rfl (.refl _))
  have hpass : (Call.updateAllTransforms : Call U).Fair planted := trivial
  obtain ⟨tr, m', hrun', hdone', htended⟩ := (yields_call h.tended hpass trivial).exists_done
  obtain rfl := hrun'.eq_of_done hrun hdone' rfl
  exact ⟨[], _, hrun, rfl, rfl,
    { tended := htended
      fresh := World.bears_fresh_self _
      lit := World.lit_updateAllTransforms h.tended.wf h.tended.forest
        (hmarked.sure h.fresh h.lit) }⟩

theorem staged_empty (host : σ) : ({ host } : Machine U σ).Staged none .empty := by
  have hbare : ∀ kind x, (World.empty : World (Kind U)).stored? kind x = none := fun kind x =>
    World.stored?_of_idOf?_eq_none (by simp [World.empty, World.idOf?, Catalog.empty,
      Catalog.idOf?]) x
  refine
    { tended := tended_empty host
      fresh := World.bears_fresh_self _
      lit := fun {r x M b} hway => ?_ }
  obtain ⟨t, ht⟩ := hway.exists_transform?
  rw [World.transform?, World.get?_of_isValid (World.isValid_of_transform? ht), hbare] at ht
  cases ht

theorem staged_of_staging (h : Staging planted before m) : m.Staged planted before := by
  induction h with
  | empty host => exact staged_empty host
  | install _ hrun hdone hanswered ih =>
    obtain ⟨m', hrun', hdone', hm', -⟩ := exists_done_cascade ih.tended
    obtain rfl := hrun'.eq_of_done hrun hdone' hdone
    exact { ih with tended := hm' hanswered, fresh := ih.run (.cascade .done) hrun }
  | denied _ hrun hdone habandoned ih =>
    obtain ⟨m', hrun', hdone', -, hm'⟩ := exists_done_cascade ih.tended
    obtain rfl := hrun'.eq_of_done hrun hdone' hdone
    exact { ih with tended := hm' habandoned, fresh := ih.run (.cascade .done) hrun }
  | serve _ hfair hmarks hrun hdone ih =>
    obtain ⟨tr, m', hrun', hdone', hm'⟩ :=
      serves_request ih.tended hfair (Request.isWhole_of_marks hmarks)
    obtain rfl := hrun'.eq_of_done hrun hdone' hdone
    exact { ih with tended := hm', fresh := ih.run (Request.within_script hfair hmarks) hrun }
  | pass _ hmarked hrun hdone ih =>
    obtain ⟨tr, m', hrun', hdone', -, hm'⟩ := ih.pass hmarked
    obtain rfl := hrun'.eq_of_done hrun hdone' hdone
    exact hm'

/-- A session with passes is a session. -/
theorem Staging.session (h : Staging planted before m) : Session planted m := by
  induction h with
  | empty host => exact .empty host
  | install _ hrun hdone hanswered ih => exact .install ih hrun hdone hanswered
  | denied _ hrun hdone habandoned ih => exact .denied ih hrun hdone habandoned
  | serve _ hfair hmarks hrun hdone ih =>
    exact .serve ih hfair hrun hdone (.inr (Request.isWhole_of_marks hmarks))
  | pass _ _ hrun hdone ih =>
    exact .serve (r := .call .updateAllTransforms) ih trivial hrun hdone (.inr trivial)

/-- **Passes find world matrices.** If whoever was moved since the last pass is dirty, a pass
comes to its end, and then nobody with a way up along placed nodes is dirty, and everybody there
has the matrix that is the product of the local matrices from the root down. -/
theorem passes_find_world_matrices (h : Staging planted before m)
    (hmarked : before.Marked m.world) :
    ∃ tr m', (m.on [] (.run Task.updateAllTransforms.toScript)).Runs tr m' ∧ m'.step = none ∧
      m'.abandoned? = none ∧ ∀ x, (∀ y ∈ x :: m'.world.ancestors x,
        (m'.world.node? y).isSome ∧ (m'.world.transform? y).isSome) →
        ∃ t, m'.world.transform? x = some t ∧ t.dirty = false ∧
          m'.world.worldMatrix? x = some t.localToWorld := by
  obtain ⟨tr, m', hrun, hdone, hanswered, hm'⟩ := (staged_of_staging h).pass hmarked
  refine ⟨tr, m', hrun, hdone, hanswered, fun x hx => ?_⟩
  obtain ⟨M, hM⟩ := World.exists_worldMatrix? hx
  obtain ⟨r, b, hway⟩ := World.exists_way_of_worldMatrix? hm'.tended.forest hm'.tended.wf hM
  obtain ⟨t, ht, hclean, rfl⟩ := hm'.lit hway
  exact ⟨t, ht, hclean, hM⟩

/-! ## A node that moves -/

theorem Staging.ask (h : Staging planted before m) {r : Request U σ} (hfair : r.Fair planted)
    (hmarks : r.Marks before) {n : Nat} (hdone : (m.ask r n).step.isNone = true) :
    Staging planted before (m.ask r n) :=
  .serve h hfair hmarks ⟨n, rfl, rfl⟩ (Option.isNone_iff_eq_none.mp hdone)

/-- A pass takes two steps. -/
theorem Staging.sweep (h : Staging planted before m) (hmarked : before.Marked m.world) :
    Staging planted (m.ask (.call .updateAllTransforms) 2).world
      (m.ask (.call .updateAllTransforms) 2) :=
  .pass h hmarked ⟨2, rfl, rfl⟩ rfl

/-- A root off the origin with a child, after a pass. -/
def settled : Machine Empty Unit :=
  (planting.ask .spawnNode 12).ask (.spawnChild ⟨0, .initial⟩) 22
    |>.ask (.call (.patch .transform ⟨0, .initial⟩ fun t => Transform.setPosition t ⟨1, 0, 0⟩)) 5
    |>.ask (.call .updateAllTransforms) 2

/-- The child becomes a root, and is marked. -/
def leaving : Machine Empty Unit :=
  (settled.ask (.detach ⟨1, .initial⟩) 14).ask
    (.call (.edit .transform ⟨1, .initial⟩ Transform.markDirty)) 2

/-- Whether every node that is clean has the parent that it had can be told from the handles. -/
theorem marked_of_handles {w : World (Kind U)} (hwf : w.Wf)
    (h : ∀ x ∈ w.handles, (w.transform? x).all (·.dirty) = true ∨
      (before.node? x).isSome = true ∧ before.parentOf? x = w.parentOf? x) : before.Marked w := by
  intro x t ht hclean _
  refine (h x ((Entity.Table.mem_toList_iff hwf.table).mpr ?_)).resolve_left fun hdirty => ?_
  · exact World.isValid_of_transform? ht
  · rw [ht, Option.all_some, hclean] at hdirty
    cases hdirty

theorem staging_settled : Staging (some 0) settled.world settled := by
  have hplanting : Staging (some 0) .empty planting :=
    .install (.empty ()) ⟨2, rfl, rfl⟩ (Option.isNone_iff_eq_none.mp (by decide +kernel))
      (by decide +kernel)
  have hroot := hplanting.ask (r := .spawnNode) (n := 12) (Option.some_ne_none 0) trivial
    (by decide +kernel)
  have hchild := hroot.ask (r := .spawnChild ⟨0, .initial⟩) (n := 22) trivial trivial
    (by decide +kernel)
  have hplaced := hchild.ask (r := .call (.patch .transform ⟨0, .initial⟩ fun t =>
    Transform.setPosition t ⟨1, 0, 0⟩)) (n := 5) (fun hc => by cases hc) (fun _ _ => .inl rfl)
    (by decide +kernel)
  exact hplaced.sweep (marked_of_handles (staged_of_staging hplaced).tended.wf (by decide +kernel))

/-- The child that was moved and marked is where its own placement puts it. -/
theorem passes_find_world_matrices_leaving :
    Staging (some 0) settled.world leaving ∧ settled.world.Marked leaving.world ∧
      ∃ t, (leaving.ask (.call .updateAllTransforms) 2).world.transform? ⟨1, .initial⟩ = some t ∧
        t.dirty = false ∧ (leaving.ask (.call .updateAllTransforms) 2).world.worldMatrix?
          ⟨1, .initial⟩ = some t.localToWorld := by
  have hmoved := staging_settled.ask (r := .detach ⟨1, .initial⟩) (n := 14) trivial trivial
    (by decide +kernel)
  have hleaving : Staging (some 0) settled.world leaving :=
    hmoved.ask (r := .call (.edit .transform ⟨1, .initial⟩ Transform.markDirty)) (n := 2)
      (fun hc => by cases hc) (fun _ _ => .inl rfl) (by decide +kernel)
  have hmarked : settled.world.Marked leaving.world :=
    marked_of_handles (staged_of_staging hleaving).tended.wf (by decide +kernel)
  obtain ⟨tr, m', hrun, hdone, -, hm'⟩ := passes_find_world_matrices hleaving hmarked
  obtain rfl : m' = leaving.ask (.call .updateAllTransforms) 2 :=
    hrun.eq_of_done ⟨2, rfl, rfl⟩ hdone rfl
  exact ⟨hleaving, hmarked, hm' ⟨1, .initial⟩ (by decide +kernel)⟩

/-! ## Nodes that nobody marked -/

/-- An entity has a placement that is clean and has a matrix other than that of its way up. -/
def Misplaced (m : Machine U σ) (x : Entity) : Prop :=
  ∃ t M, m.world.transform? x = some t ∧ t.dirty = false ∧ m.world.worldMatrix? x = some M ∧
    t.localToWorld ≠ M

/-- The child becomes a root, and nobody marks it. -/
def straying : Machine Empty Unit :=
  (settled.ask (.detach ⟨1, .initial⟩) 14).ask (.call .updateAllTransforms) 2

/-- The clean placement of the child is taken, the root moves on, and after a pass the child
gets its placement back. -/
def resuming : Machine Empty Unit :=
  let placement := (settled.world.transform? ⟨1, .initial⟩).getD .identity
  (settled.ask (.remove .transform ⟨1, .initial⟩) 12).ask
      (.call (.patch .transform ⟨0, .initial⟩ fun t => Transform.setPosition t ⟨2, 0, 0⟩)) 5
    |>.ask (.call .updateAllTransforms) 2
    |>.ask (.call (.emplace .transform ⟨1, .initial⟩ (.ok placement))) 6
    |>.ask (.call .updateAllTransforms) 2

/-- What the two matrices have in one place tells them apart. -/
theorem misplaced_of_ne {m : Machine U σ} {x : Entity} {α : Type} {seen way : α}
    (read : (geometry U).Matrix → α) (hne : seen ≠ way)
    (hclean : (m.world.transform? x).map (·.dirty) = some false)
    (hseen : (m.world.transform? x).map (fun t => read t.localToWorld) = some seen)
    (hway : (m.world.worldMatrix? x).map read = some way) : m.Misplaced x := by
  obtain ⟨t, ht, hdirty⟩ := Option.map_eq_some_iff.mp hclean
  obtain ⟨M, hM, rfl⟩ := Option.map_eq_some_iff.mp hway
  rw [ht] at hseen
  obtain rfl := Option.some.inj hseen
  exact ⟨t, M, ht, hdirty, hM, fun heq => hne (heq ▸ rfl)⟩

/-- Edits mark nobody: a pass leaves a child that was moved where its old parent was. And a
placement that missed a pass is not found out when it comes back. -/
theorem unmarked_nodes_stay_behind :
    (Session (some 0) straying ∧ straying.Misplaced ⟨1, .initial⟩) ∧
      Session (some 0) resuming ∧ resuming.Misplaced ⟨1, .initial⟩ := by
  have hsettled := staging_settled.session
  refine ⟨⟨?_, ?_⟩, ?_, ?_⟩
  · have hmoved := hsettled.ask (r := .detach ⟨1, .initial⟩) (n := 14) trivial trivial
      (by decide +kernel)
    exact hmoved.ask (r := .call .updateAllTransforms) (n := 2) trivial trivial (by decide +kernel)
  · have hne : (0x3f800000 : UInt32) ≠ 0 := by decide
    exact misplaced_of_ne (fun M : Mat4 => M.wAxis.x.toBits) hne (by decide +kernel)
      (by decide +kernel) (by decide +kernel)
  · have htaken := hsettled.ask (r := .remove .transform ⟨1, .initial⟩) (n := 12) trivial trivial
      (by decide +kernel)
    have hmoved := htaken.ask (r := .call (.patch .transform ⟨0, .initial⟩ fun t =>
      Transform.setPosition t ⟨2, 0, 0⟩)) (n := 5) (fun hc => by cases hc) trivial
      (by decide +kernel)
    have hpassed := hmoved.ask (r := .call .updateAllTransforms) (n := 2) trivial trivial
      (by decide +kernel)
    have hback := hpassed.ask (r := .call (.emplace .transform ⟨1, .initial⟩
      (.ok ((settled.world.transform? ⟨1, .initial⟩).getD .identity)))) (n := 6) trivial
      ⟨_, rfl⟩ (by decide +kernel)
    exact hback.ask (r := .call .updateAllTransforms) (n := 2) trivial trivial (by decide +kernel)
  · have hne : (0x3f800000 : UInt32) ≠ 0x40000000 := by decide
    exact misplaced_of_ne (fun M : Mat4 => M.wAxis.x.toBits) hne (by decide +kernel)
      (by decide +kernel) (by decide +kernel)

end Machine

end EntityScene
