import EntityScene.Proofs.Linking

/-!
# Sessions

A session is what somebody does to a scene from its start on, one request after the other.
The cascade is connected once, before there are any links, and after that links are left to
the library. Whatever is asked for, and with whatever handles, the links are those of a
forest after every request.

- `Request`: calls, connections, and edits that are made of calls.
- `Request.Fair`: nobody writes links directly, and nobody touches the cascade.
- `Machine.Session`: the machines between the requests of a session.
- `session_tended`: what holds of all of them.
- `sessions_keep_a_forest`: the links are those of a forest, and every request comes to its
  end.
-/

namespace EntityScene

/-- What somebody asks for in a session. -/
inductive Request (U σ : Type) [SceneFamily U]
  /-- Make a call. -/
  | call (c : Call U)
  /-- Connect a handler to a signal. -/
  | connect (kind : Kind U) (event : LifeEvent) (handler : ConnectionKey → Entity → Script U σ)
  /-- Remove a component. -/
  | remove (kind : Kind U) (e : Entity)
  /-- Put a component on an entity, in place of the one it may have. -/
  | emplaceOrReplace (kind : Kind U) (e : Entity) (v : Value kind)
  /-- Destroy all entities. -/
  | clear
  /-- Create a root. -/
  | spawnNode
  /-- Create a child. -/
  | spawnChild (parent : Entity)
  /-- Put a root at a position among the children of a parent. -/
  | insertChild (parent child : Entity) (position : Nat)
  /-- Put a root behind the children of a parent. -/
  | appendChild (parent child : Entity)
  /-- Take a child from a parent. -/
  | removeChild (parent child : Entity)
  /-- Make a node a root. -/
  | detach (child : Entity)
  /-- Move a node under another parent. -/
  | reparent (child parent : Entity)

namespace Request

variable {U σ : Type} [SceneFamily U]

/-- The request as a script. -/
def script [DecidableEq U] : Request U σ → Script U σ
  | call c => (Task.call c).toScript
  | connect kind event handler => (Task.connect kind event handler).toScript
  | remove kind e => (Task.remove kind e).toScript
  | emplaceOrReplace kind e v => (Task.emplaceOrReplace kind e v).toScript
  | clear => Task.clear.toScript
  | spawnNode => Task.spawnNode.toScript
  | spawnChild parent => (Task.spawnChild parent).toScript
  | insertChild parent child position => (Task.insertChild parent child position).toScript
  | appendChild parent child => (Task.appendChild parent child).toScript
  | removeChild parent child => (Task.removeChild parent child).toScript
  | detach child => (Task.detach child).toScript
  | reparent child parent => (Task.reparent child parent).toScript

/-- Requests that leave links to the library and the connection of the cascade alone. There
are no links before a cascade is connected, and handlers only read. -/
def Fair (planted : Option ConnectionKey) : Request U σ → Prop
  | call c => c.Fair planted
  | connect _ _ handler => ∀ key e, (handler key e).ReadOnly
  | emplaceOrReplace kind _ _ => kind ≠ .node
  | spawnNode => planted ≠ none
  | _ => True

/-- Requests that make no component, or make it to the end. -/
def IsWhole : Request U σ → Prop
  | call c => c.IsWhole
  | _ => True

end Request

namespace Machine

variable {U σ : Type} [SceneFamily U] [DecidableEq U] {m m' : Machine U σ}
variable {planted : Option ConnectionKey}

/-- The machines between the requests of a session, with the connection of the cascade. A
component that was abandoned while it was made leaves a row without a value behind, and such
a session does not go on. -/
inductive Session : Option ConnectionKey → Machine U σ → Prop
  /-- Nothing was asked for yet. -/
  | empty (host : σ) : Session none { host }
  /-- The cascade is connected. -/
  | install {m m' : Machine U σ} {tr : List Dispatch} (h : Session none m)
      (hrun : (m.on [] (.run Task.cascade.toScript)).Runs tr m') (hdone : m'.step = none)
      (hanswered : m'.abandoned? = none) : Session (some m.handlers.size) m'
  /-- The cascade is not connected: the signal has no number for it. -/
  | denied {m m' : Machine U σ} {tr : List Dispatch} (h : Session none m)
      (hrun : (m.on [] (.run Task.cascade.toScript)).Runs tr m') (hdone : m'.step = none)
      (habandoned : m'.abandoned? ≠ none) : Session none m'
  /-- A request is served. -/
  | serve {m m' : Machine U σ} {planted : Option ConnectionKey} {tr : List Dispatch}
      {r : Request U σ} (h : Session planted m) (hfair : r.Fair planted)
      (hrun : (m.on [] (.run r.script)).Runs tr m') (hdone : m'.step = none)
      (hwhole : m'.abandoned? = none ∨ r.IsWhole) : Session planted m'

/-! ## The end of a request -/

theorem tended_empty (host : σ) : Tended ({ host } : Machine U σ) none := by
  have hbare : ∀ x, ({ host } : Machine U σ).world.stored? .node x = none := fun x =>
    World.stored?_of_idOf?_eq_none (by simp [World.empty, World.idOf?, Catalog.empty,
      Catalog.idOf?]) x
  exact
  { wf := World.wf_empty
    rest :=
      { destroying := fun x => rfl
        removing := rfl }
    wired :=
      { size := rfl
        known := fun hk => by cases hk
        readers := fun _ hhandler => by cases hhandler
        cascade := fun hkey => by cases hkey
        counted := Switchboard.guardsCounted_empty }
    bare := fun _ => hbare
    forest := World.forest_of_bare World.wf_empty hbare }

/-- What waits, and what is done next, is no matter of what was left behind. -/
theorem Tended.on (h : m.Tended planted) (stack : List (Frame U σ)) (control : Control U σ) :
    (m.on stack control).Tended planted :=
  h.of_wired (.refl h.wf) (h.wired.of_attuned (.refl _) rfl fun _ _ hset => hset) id

/-- A task comes to its end as a script of its own. -/
theorem Yields.exists_done {α : Type} {task : Task U σ α}
    (h : m.Yields planted task fun _ m' => m'.Tended planted) :
    ∃ tr m', (m.on [] (.run task.toScript)).Runs tr m' ∧ m'.step = none ∧ m'.Tended planted := by
  rcases h with ⟨m', a, tr, hm', hrun⟩ | ⟨m', cause, tr, hm', hrun⟩
  · refine ⟨tr, m'.on [] (.reply true), ?_, rfl, hm'.on _ _⟩
    exact (hrun [] fun _ => .done).snoc rfl rfl
  · exact ⟨tr, m'.on [] (.unwind cause), hrun [] _, rfl, hm'.on _ _⟩

/-- A cascade is connected, or it is not for want of a number. -/
theorem exists_done_cascade (h : m.Tended none) :
    ∃ m', (m.on [] (.run Task.cascade.toScript)).Runs [] m' ∧ m'.step = none ∧
      (m'.abandoned? = none → m'.Tended (some m.handlers.size)) ∧
      (m'.abandoned? ≠ none → m'.Tended none) := by
  have hclaims := undisturbed_withClaims h.wf fun _ => True
  have hconnect := hclaims.trans (World.undisturbed_connect hclaims.wf .node .destroy)
  rcases runScript_cascade_cases (m.on [] (.run Task.cascade.toScript)) .done with
    ⟨key, hmade, hrun⟩ | ⟨cause, hmade, hrun⟩
  · have htended := h.of_wired hconnect (wired_cascade h.wf h.wired hmade) fun _ => rfl
    exact ⟨_, .head (congrArg some hrun) rfl (.of_step rfl), rfl, fun _ => htended.on [] _,
      fun hno => absurd rfl hno⟩
  · have hattuned := (attuned_withClaims h.wf.paired).trans
      (World.attuned_connect hclaims.wf.paired hmade)
    have htended : Tended { m.withClaims with
        world := (m.withClaims.world.connect .node .destroy).2 } none :=
      h.of_wired hconnect (h.wired.of_attuned hattuned rfl fun hkey => by cases hkey) id
    exact ⟨_, .of_step (congrArg some hrun), rfl, fun hno => (Option.some_ne_none _ hno).elim,
      fun _ => htended.on [] _⟩

/-- **One request.** A request that is made to the end leaves a forest behind, also when it is
abandoned. -/
theorem serves_request (h : m.Tended planted) {r : Request U σ} (hfair : r.Fair planted)
    (hwhole : r.IsWhole) :
    ∃ tr m', (m.on [] (.run r.script)).Runs tr m' ∧ m'.step = none ∧ m'.Tended planted := by
  cases r with
  | call c => exact (yields_call h hfair hwhole).exists_done
  | connect kind event handler => exact (yields_connect h kind event hfair).exists_done
  | remove kind e =>
    have hremove : m.Yields planted (Task.remove kind e) fun _ m' => m'.Tended planted :=
      (yields_take h kind e).bind fun _ m' hm' => .pure hm'
    exact hremove.exists_done
  | emplaceOrReplace kind e v => exact (yields_emplaceOrReplace h hfair e v).exists_done
  | clear => exact (yields_clear h).exists_done
  | spawnNode => exact (yields_spawnNode h hfair).exists_done
  | spawnChild parent => exact (yields_spawnChild h parent).exists_done
  | insertChild parent child position =>
    exact (yields_insertChild h parent child position).exists_done
  | appendChild parent child => exact (yields_appendChild h parent child).exists_done
  | removeChild parent child => exact (yields_removeChild h parent child).exists_done
  | detach child => exact (yields_detach h child).exists_done
  | reparent child parent => exact (yields_reparent h child parent).exists_done

/-- Every request comes to its end, and if it is answered it leaves a forest behind. -/
theorem serves_any_request (h : m.Tended planted) {r : Request U σ} (hfair : r.Fair planted) :
    ∃ tr m', (m.on [] (.run r.script)).Runs tr m' ∧ m'.step = none ∧
      (m'.abandoned? = none ∨ r.IsWhole → m'.Tended planted) := by
  by_cases hwhole : r.IsWhole
  · obtain ⟨tr, m', hrun, hdone, hm'⟩ := serves_request h hfair hwhole
    exact ⟨tr, m', hrun, hdone, fun _ => hm'⟩
  -- only a component that is put on an entity may be left half-made
  obtain ⟨kind, e, make, rfl⟩ : ∃ kind e make, r = .call (.emplace kind e make) := by
    cases r with
    | call c =>
      cases c with
      | emplace kind e make => exact ⟨kind, e, make, rfl⟩
      | _ => exact absurd trivial hwhole
    | _ => exact absurd trivial hwhole
  rcases performs_emplace h.toWorked kind e make with
    ⟨m', a, tr, hemplaced, hhandlers, hclaims, hperform⟩ | ⟨m', cause, _, -, hrun⟩
  · have hm' := h.of_fair_emplace hfair hemplaced hhandlers hclaims
    refine ⟨tr, m'.on [] (.reply true), ?_, rfl, fun _ => hm'.on _ _⟩
    exact (hperform [] fun _ => .done).snoc rfl rfl
  · refine ⟨[], m'.on [] (.unwind cause), hrun [] fun _ => .done, rfl, fun hend => ?_⟩
    rcases hend with hanswered | hend
    · cases hanswered
    · exact absurd hend hwhole

/-! ## Sessions -/

theorem session_tended (h : Session planted m) : m.Tended planted := by
  induction h with
  | empty host => exact tended_empty host
  | install _ hrun hdone hanswered ih =>
    obtain ⟨m', hrun', hdone', hm', -⟩ := exists_done_cascade ih
    obtain rfl := hrun'.eq_of_done hrun hdone' hdone
    exact hm' hanswered
  | denied _ hrun hdone habandoned ih =>
    obtain ⟨m', hrun', hdone', -, hm'⟩ := exists_done_cascade ih
    obtain rfl := hrun'.eq_of_done hrun hdone' hdone
    exact hm' habandoned
  | serve _ hfair hrun hdone hwhole ih =>
    obtain ⟨tr, m', hrun', hdone', hm'⟩ := serves_any_request ih hfair
    obtain rfl := hrun'.eq_of_done hrun hdone' hdone
    exact hm' hwhole

/-- The machine after a number of steps that serve a request. -/
def ask (m : Machine U σ) (r : Request U σ) (n : Nat) : Machine U σ :=
  (m.on [] (.run r.script)).run n

theorem Session.ask (h : Session planted m) {r : Request U σ} (hfair : r.Fair planted)
    (hwhole : r.IsWhole) {n : Nat} (hdone : (m.ask r n).step.isNone = true) :
    Session planted (m.ask r n) :=
  .serve h hfair ⟨n, rfl, rfl⟩ (Option.isNone_iff_eq_none.mp hdone) (.inr hwhole)

/-- The cascade is connected in an empty world. -/
def planting : Machine Empty Unit :=
  on { host := () } [] (.run Task.cascade.toScript) |>.run 2

/-- A root, its child and the child of that. The last one is moved under the root before its
old parent is destroyed. -/
def family : Machine Empty Unit :=
  (planting.ask .spawnNode 12).ask (.spawnChild ⟨0, .initial⟩) 22
    |>.ask (.spawnChild ⟨1, .initial⟩) 22
    |>.ask (.reparent ⟨2, .initial⟩ ⟨0, .initial⟩) 21
    |>.ask (.call (.destroy ⟨1, .initial⟩)) 21

theorem session_family : Session (some 0) family := by
  have hplanting : Session (some 0) planting :=
    .install (.empty ()) ⟨2, rfl, rfl⟩ (Option.isNone_iff_eq_none.mp (by decide +kernel))
      (by decide +kernel)
  have hroot := hplanting.ask (r := .spawnNode) (n := 12) (Option.some_ne_none 0) trivial
    (by decide +kernel)
  have hchild := hroot.ask (r := .spawnChild ⟨0, .initial⟩) (n := 22) trivial trivial
    (by decide +kernel)
  have hgrandchild := hchild.ask (r := .spawnChild ⟨1, .initial⟩) (n := 22) trivial trivial
    (by decide +kernel)
  have hmoved := hgrandchild.ask (r := .reparent ⟨2, .initial⟩ ⟨0, .initial⟩) (n := 21) trivial
    trivial (by decide +kernel)
  exact hmoved.ask (r := .call (.destroy ⟨1, .initial⟩)) (n := 21) trivial trivial
    (by decide +kernel)

end Machine

end EntityScene
