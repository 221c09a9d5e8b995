import EntityScene.Proofs.Forests
import EntityScene.Proofs.Wiring

/-!
# Calls that keep the forest

What a call leaves behind when it has been answered, one call at a time.

- `World.Aside`: worlds with the same links, handles and connections.
- `Machine.Worked`: nothing is under way, and the connections are in order.
- `Machine.Tended`: also, the links are those of a forest.
- `Machine.Yields`: a task is answered, or abandoned where it left a forest.
- `yields_create`, `yields_destroy`, `yields_take`, `yields_patch`, `performs_emplace`: the
  calls that have a proof of their own.
- `Call.Fair`, `yields_call`: all calls that leave links to the library.
-/

namespace EntityScene

namespace World

variable {U : Type} [SceneFamily U] [DecidableEq U] {w w' w'' : World (Kind U)}

/-- Links, handles and connections are the same in two worlds. -/
structure Aside (w w' : World (Kind U)) : Prop where
  wf : w'.Wf
  entities : w'.entities = w.entities
  removing : w'.removing = w.removing
  stored? : ∀ x, w'.stored? .node x = w.stored? .node x
  attuned : Attuned w w'

theorem Undisturbed.aside (h : Undisturbed (· = .node) w w') (ha : Attuned w w') : Aside w w' :=
  { wf := h.wf
    entities := h.entities
    removing := h.removing
    stored? := h.stored? rfl
    attuned := ha }

/-- The component of one entity was changed, if it has one, and nothing else. -/
structure Revised (w : World (Kind U)) (kind : Kind U) (e : Entity) (f : Value kind → Value kind)
    (w' : World (Kind U)) : Prop where
  undisturbed : Undisturbed (· ≠ kind) w w'
  attuned : Attuned w w'
  get? : ∀ x, w'.get? kind x = if x = e then (w.get? kind e).map f else w.get? kind x
  rows : ∀ x, (w'.stored? kind x).isSome = (w.stored? kind x).isSome

theorem revised_of_none (h : w.Wf) {kind : Kind U} {e : Entity} (f : Value kind → Value kind)
    (hnone : w.get? kind e = none) : Revised w kind e f w := by
  refine
    { undisturbed := .refl h
      attuned := .refl w
      get? := fun x => ?_
      rows := fun _ => rfl }
  split
  · rename_i hx
    rw [hx, hnone]
    rfl
  · rfl

theorem revised_edit (h : w.Wf) {kind : Kind U} {id : ComponentId} {e : Entity}
    {f : Value kind → Value kind} (hid : w.idOf? kind = some id)
    (hworld : Undisturbed (fun _ => True) (w.edit kind e f) w')
    (htuned : Tuned (w.edit kind e f) w') : Revised w kind e f w' := by
  have hedit : Undisturbed (· ≠ kind) w (w.edit kind e f) := undisturbed_edit h fun hne => hne rfl
  have hall := hedit.trans (hworld.mono fun _ _ => trivial)
  refine
    { undisturbed := hall
      attuned := (attuned_edit w kind e f).trans htuned.attuned
      get? := fun x => (hworld.get? trivial x).trans (get?_edit w e f x)
      rows := fun x => ?_ }
  rw [← hall.wf.holds_eq_isSome (hall.idOf? hid), hall.holds, h.holds_eq_isSome hid]

/-- A component is changed, and those who hear of it are written down. -/
theorem revised_patch (h : w.Wf) {kind : Kind U} {id : ComponentId} (hid : w.idOf? kind = some id)
    (e : Entity) (f : Value kind → Value kind) :
    Revised w kind e f ((w.edit kind e f).snapshot id .update).2 := by
  have hedit : Undisturbed (fun _ => False) w (w.edit kind e f) := undisturbed_edit h fun hf => hf
  exact revised_edit h hid (undisturbed_snapshot hedit.wf id .update) (tuned_snapshot _ id .update)

omit [DecidableEq U] in
theorem AtRest.congr (h : w.AtRest) (hentities : w'.entities = w.entities)
    (hremoving : w'.removing = w.removing) : w'.AtRest :=
  { destroying := fun x => by
      rw [isDestroying, hentities]
      exact h.destroying x
    removing := hremoving.trans h.removing }

end World

namespace Machine

variable {U σ : Type} [SceneFamily U] [DecidableEq U] {m m' : Machine U σ}
variable {planted : Option ConnectionKey}

/-! ## Machines between calls -/

/-- Nothing is under way, and the connections are in order. There are no links before a
cascade is connected. -/
structure Worked (m : Machine U σ) (planted : Option ConnectionKey) : Prop where
  wf : m.world.Wf
  rest : m.world.AtRest
  wired : m.Wired planted
  bare : planted = none → ∀ x, m.world.stored? .node x = none

/-- A machine between calls, whose links are those of a forest. -/
structure Tended (m : Machine U σ) (planted : Option ConnectionKey) : Prop
    extends Worked m planted where
  forest : m.world.Forest

namespace Worked

theorem aside (h : m.Worked planted) (hworld : World.Aside m.world m'.world)
    (hhandlers : m'.handlers = m.handlers) (hclaims : m'.claims = m.claims) : m'.Worked planted :=
  { wf := hworld.wf
    rest := h.rest.congr hworld.entities hworld.removing
    wired := h.wired.of_attuned hworld.attuned hhandlers fun _ _ hset => hclaims ▸ hset
    bare := fun hnone x => (hworld.stored? x).trans (h.bare hnone x) }

end Worked

namespace Tended

theorem aside (h : m.Tended planted) (hworld : World.Aside m.world m'.world)
    (hhandlers : m'.handlers = m.handlers) (hclaims : m'.claims = m.claims) : m'.Tended planted :=
  { h.toWorked.aside hworld hhandlers hclaims with
    forest := World.forest_of_stored h.forest hworld.wf hworld.stored? fun x hx => by
      rw [World.isValid, hworld.entities]
      exact h.forest.holders x hx }

/-- Connections are no links. -/
theorem of_wired (h : m.Tended planted) {planted' : Option ConnectionKey}
    (hworld : World.Undisturbed (fun _ => True) m.world m'.world) (hwired : m'.Wired planted')
    (hbare : planted' = none → planted = none) : m'.Tended planted' :=
  { wf := hworld.wf
    rest := h.rest.congr hworld.entities hworld.removing
    wired := hwired
    bare := fun hnone x => (hworld.stored? trivial x).trans (h.bare (hbare hnone) x)
    forest := World.forest_of_stored h.forest hworld.wf (hworld.stored? trivial) fun x hx => by
      rw [hworld.isValid]
      exact h.forest.holders x hx }

end Tended

/-! ## What a task yields -/

/-- A task is answered with what the first condition says, or abandoned with a machine that
is tended. -/
def Yields {α : Type} (m : Machine U σ) (planted : Option ConnectionKey) (task : Task U σ α)
    (post : α → Machine U σ → Prop) : Prop :=
  (∃ (m' : Machine U σ) (a : α) (tr : List Dispatch), post a m' ∧ m.Performs task tr m' a) ∨
    ∃ (m' : Machine U σ) (cause : Abort) (tr : List Dispatch), m'.Tended planted ∧
      ∀ stack next, (m.on stack (.run (task next))).Runs tr (m'.on stack (.unwind cause))

namespace Yields

variable {α β : Type} {task : Task U σ α} {post post' : α → Machine U σ → Prop}

theorem of_performs {a : α} {tr : List Dispatch} (h : m.Performs task tr m' a)
    (hpost : post a m') : m.Yields planted task post :=
  .inl ⟨m', a, tr, hpost, h⟩

/-- A call that is answered by the next step. -/
theorem of_step {a : α} (hpost : post a m')
    (h : ∀ stack next, (m.on stack (.run (task next))).step =
      some (m'.on stack (.run (next a)))) : m.Yields planted task post :=
  of_performs (.of_step h) hpost

theorem pure {a : α} (h : post a m) : m.Yields planted (Pure.pure a : Task U σ α) post :=
  of_performs (.pure m a) h

/-- One task and then the next. -/
theorem bind {f : α → Task U σ β} {post' : β → Machine U σ → Prop}
    (h : m.Yields planted task post)
    (hnext : ∀ a m', post a m' → m'.Yields planted (f a) post') :
    m.Yields planted (task >>= f) post' := by
  rcases h with ⟨m', a, tr, ha, hrun⟩ | ⟨m', cause, tr, htended, hrun⟩
  · rcases hnext a m' ha with ⟨m'', b, tr', hb, hrun'⟩ | ⟨m'', cause, tr', htended, hrun'⟩
    · exact .inl ⟨m'', b, tr ++ tr', hb, Performs.bind hrun hrun'⟩
    · exact .inr ⟨m'', cause, tr ++ tr', htended, fun stack next =>
        (hrun stack fun a => f a next).trans (hrun' stack next)⟩
  · exact .inr ⟨m', cause, tr, htended, fun stack next => hrun stack fun a => f a next⟩

theorem mono (h : m.Yields planted task post) (hpost : ∀ a m', post a m' → post' a m') :
    m.Yields planted task post' := by
  rcases h with ⟨m', a, tr, ha, hrun⟩ | habandoned
  · exact .inl ⟨m', a, tr, hpost a m' ha, hrun⟩
  · exact .inr habandoned

/-- A task that looks at the world first. -/
theorem look {f : World (Kind U) → Task U σ α} (h : m.Yields planted (f m.world) post) :
    m.Yields planted (Task.world >>= f) post := by
  have hworld : m.Yields planted Task.world fun w m' => w = m.world ∧ m' = m :=
    of_step ⟨rfl, rfl⟩ fun _ _ => rfl
  refine hworld.bind ?_
  rintro _ _ ⟨rfl, rfl⟩
  exact h

end Yields

/-- The machine after a call that answers, or that is abandoned. -/
def settle {α : Type} (m : Machine U σ) (stack : List (Frame U σ)) (next : α → Script U σ) :
    Except Abort α → Machine U σ
  | .ok a => m.on stack (.run (next a))
  | .error cause => m.on stack (.unwind cause)

/-- A call that is answered or abandoned by the next step. -/
theorem Yields.of_settle {α : Type} {task : Task U σ α} (outcome : Except Abort α)
    (htended : m'.Tended planted)
    (h : ∀ stack next, (m.on stack (.run (task next))).step =
      some (m'.settle stack next outcome)) :
    m.Yields planted task fun _ m' => m'.Tended planted := by
  cases outcome with
  | ok a => exact .of_step (a := a) htended h
  | error cause =>
    exact .inr ⟨m', cause, [], htended, fun stack next => Runs.of_step (h stack next)⟩

/-! ## Entities -/

/-- Handles are issued, but none that is valid is lost. -/
theorem Tended.of_table (h : m.Tended planted) {t : Entity.Table} (hwf : t.Wf)
    (hdestroying : ∀ x, t.isDestroying x = m.world.isDestroying x)
    (hvalid : ∀ x, m.world.isValid x = true → t.isAlive x = true) :
    Tended { m with world := { m.world with entities := t } } planted :=
  { wf := { h.wf with table := hwf }
    rest :=
      { destroying := fun x => (hdestroying x).trans (h.rest.destroying x)
        removing := h.rest.removing }
    wired := h.wired.of_attuned (World.tuned_with m.world t m.world.removing).attuned rfl
      fun _ _ hset => hset
    bare := h.bare
    forest := World.forest_of_stored h.forest { h.wf with table := hwf } (fun _ => rfl)
      fun x hx => hvalid x (h.forest.holders x hx) }

theorem yields_create (h : m.Tended planted) :
    m.Yields planted (Task.create : Task U σ Entity) fun _ m' => m'.Tended planted := by
  obtain ⟨created, t, hcreate⟩ : ∃ created t, m.world.entities.allocate = (created, t) :=
    ⟨_, _, rfl⟩
  have htended : Tended { m with world := { m.world with entities := t } } planted := by
    cases created with
    | ok e =>
      exact h.of_table (Entity.Table.wf_allocate h.wf.table hcreate)
        (Entity.Table.isDestroying_allocate h.wf.table hcreate) fun x hx =>
          (Entity.Table.isAlive_allocate h.wf.table hcreate x).mpr (.inr hx)
    | error cause =>
      obtain ⟨rfl, -⟩ := Entity.Table.allocate_error h.wf.table hcreate
      exact h.of_table h.wf.table (fun x => rfl) fun x hx => hx
  refine .of_settle created htended fun stack next => ?_
  show some (call _ .create next) = _
  simp only [call, World.create, on_world, hcreate]
  cases created <;> rfl

/-- What a cascade leaves behind is tended. -/
theorem Tended.of_fallen (h : m.Tended planted) {key : ConnectionKey} {claims : Nat}
    {id : ComponentId} {e : Entity} {tr : List Dispatch} (hkey : planted = some key)
    (hplanted : m.Planted key claims id) (hfallen : m.world.Fallen e tr m'.world)
    (hhandlers : m'.handlers = m.handlers) (hclaims : m'.claims[claims]? = some []) :
    m'.Tended planted :=
  { wf := hfallen.shed.wf
    rest := hfallen.rest
    wired := h.wired.of_attuned hfallen.shed.tuned.attuned hhandlers fun hkey' hplanted' _ => by
      rw [hkey] at hkey'
      have hcascade := hplanted'.cascade
      rw [← Option.some.inj hkey', hplanted.cascade] at hcascade
      cases hcascade
      exact hclaims
    bare := fun hnone => by
      rw [hkey] at hnone
      cases hnone
    forest := World.forest_culled h.forest (hfallen.culled h.forest h.wf hplanted.number) }

/-- An entity without links goes, and no links go with it. -/
theorem Tended.of_purged (h : m.Tended planted) {e : Entity} {tr : List Dispatch}
    (hnode : m.world.node? e = none) (he : m.world.isValid e = true)
    (hpurged : m.world.Purged e tr m'.world) (hhandlers : m'.handlers = m.handlers)
    (hclaims : m'.claims = m.claims) : m'.Tended planted := by
  have hnone : m.world.stored? .node e = none := by
    rw [World.node?, World.get?_eq_stored?, if_pos he] at hnode
    exact hnode
  have hstored := hpurged.stored?_of_none h.wf hnone
  refine
    { wf := hpurged.shed.wf
      rest :=
        { destroying := fun x => ?_
          removing := hpurged.removing.trans h.rest.removing }
      wired := h.wired.of_attuned hpurged.shed.tuned.attuned hhandlers
        fun _ _ hset => hclaims ▸ hset
      bare := fun hbare x => (hstored x).trans (h.bare hbare x)
      forest := World.forest_of_stored h.forest hpurged.shed.wf hstored fun x hx => ?_ }
  · rw [Bool.eq_false_iff, Ne, hpurged.destroying, h.rest.destroying]
    exact fun hc => by cases hc.1
  · refine (hpurged.valid x).mpr ⟨h.forest.holders x hx, ?_⟩
    rintro rfl
    rw [hnone] at hx
    cases hx

/-- An entity that has links is one whose row only the cascade may act on. -/
theorem Tended.exists_planted (h : m.Tended planted) {e : Entity}
    (hnode : (m.world.node? e).isSome) :
    ∃ key claims id, planted = some key ∧ m.Planted key claims id ∧
      m.claims[claims]? = some [] := by
  cases hplanted : planted with
  | none =>
    rw [World.node?, World.get?_eq_stored?, h.bare hplanted, ite_self] at hnode
    cases hnode
  | some key =>
    obtain ⟨claims, id, hcascade, hset⟩ := h.wired.cascade hplanted
    exact ⟨key, claims, id, rfl, hcascade, hset⟩

/-- Rows of links are links of valid entities. -/
theorem Tended.node?_of_holds (h : m.Tended planted) {id : ComponentId} {e : Entity}
    (hid : m.world.idOf? .node = some id) (hrow : m.world.holds id e = true) :
    (m.world.node? e).isSome := by
  rw [h.wf.holds_eq_isSome hid] at hrow
  rw [World.node?, World.get?_eq_stored?, if_pos (h.forest.holders e hrow)]
  exact hrow

theorem yields_destroy (h : m.Tended planted) (e : Entity) :
    m.Yields planted (Task.destroy e : Task U σ Bool) fun _ m' => m'.Tended planted := by
  cases haccepts : m.world.accepts e with
  | false => exact .of_performs (performs_destroy (serves_destroy_refused haccepts)) h
  | true =>
    have hvalid := ((World.accepts_iff _ _).mp haccepts).1
    by_cases hnode : (m.world.node? e).isSome
    · obtain ⟨key, claims, id, hkey, hplanted, hset⟩ := h.exists_planted hnode
      obtain ⟨world, host, sets, tr, hfallen, hsets, hserve⟩ :=
        serves_destroy_node h.wf h.rest hplanted hset hnode
      exact .of_performs (performs_destroy hserve) (h.of_fallen hkey hplanted hfallen rfl hsets)
    · -- without links only readers hear of the removals
      have hhush : ∀ id, m.world.holds id e = true → m.HushedFor id .destroy e := by
        intro id hrow
        refine h.wired.hushedFor (fun _ => .inl fun hid => ?_) e
        exact hnode (h.node?_of_holds hid hrow)
      obtain ⟨world, host, tr, hpurged, hserve⟩ := serves_destroy h.wf haccepts hhush
      rw [Option.not_isSome_iff_eq_none] at hnode
      exact .of_performs (performs_destroy hserve) (h.of_purged hnode hvalid hpurged rfl rfl)

/-! ## Components -/

/-- A component that is no link is taken. -/
theorem aside_erase {w w' : World (Kind U)} {kind : Kind U} {id : ComponentId}
    (hworld : World.Undisturbed (fun _ => True) w w') (htuned : World.Tuned w w')
    (hid : w.idOf? kind = some id) (hkind : kind ≠ .node) (e : Entity) :
    World.Aside w (w'.erase id e) :=
  { wf := World.wf_erase hworld.wf id e
    entities := hworld.entities
    removing := hworld.removing
    stored? := fun x => by
      rw [World.stored?_erase hworld.wf, if_neg, hworld.stored? trivial]
      rintro ⟨hnode, -⟩
      rw [htuned.idOf?] at hnode
      exact hkind (World.eq_of_idOf? hid hnode)
    attuned := (htuned.trans (World.tuned_erase w' id e)).attuned }

theorem yields_take (h : m.Tended planted) (kind : Kind U) (e : Entity) :
    m.Yields planted (Task.take kind e : Task U σ (Option (Value kind))) fun _ m' =>
      m'.Tended planted := by
  by_cases hlinks : kind = .node ∧ (m.world.node? e).isSome
  · -- links go with their cascade, and never alone
    obtain ⟨rfl, hnode⟩ := hlinks
    obtain ⟨key, claims, id, hkey, hplanted, hset⟩ := h.exists_planted hnode
    obtain ⟨world, host, sets, tr, links, hfallen, hsets, hperform⟩ :=
      performs_take_node h.wf h.rest hplanted hset hnode
    exact .of_performs hperform (h.of_fallen hkey hplanted hfallen rfl hsets)
  by_cases hfound : m.world.isValid e = true ∧
      ∃ id, m.world.idOf? kind = some id ∧ m.world.holds id e = true
  · obtain ⟨hvalid, id, hid, hrow⟩ := hfound
    have hkind : kind ≠ .node := by
      rintro rfl
      exact hlinks ⟨rfl, h.node?_of_holds hid hrow⟩
    have hhush : m.HushedFor id .destroy e := h.wired.hushedFor
      (fun _ => .inl fun hnode => hkind (World.eq_of_idOf? hid hnode)) e
    have hfresh : (id, e) ∉ m.world.removing := by
      rw [h.rest.removing]
      exact List.not_mem_nil
    obtain ⟨world, host, hworld, htuned, hserve⟩ := serves_announce h.wf hhush hfresh hrow
    refine .of_performs (performs_take hid hvalid hserve hworld.wf
      ((htuned.idOf? kind).trans hid) rfl) ?_
    exact h.aside (aside_erase hworld htuned hid hkind e) rfl rfl
  · refine .of_performs (performs_take_of_absent fun hvalid id hid => ?_) h
    rw [Bool.eq_false_iff]
    exact fun hrow => hfound ⟨hvalid, id, hid, hrow⟩

theorem yields_patch (h : m.Worked planted) (kind : Kind U) (e : Entity)
    (f : Value kind → Value kind) :
    m.Yields planted (Task.patch kind e f : Task U σ Bool) fun _ m' =>
      m.world.Revised kind e f m'.world ∧ m'.handlers = m.handlers ∧ m'.claims = m.claims := by
  by_cases hsome : (m.world.get? kind e).isSome
  · obtain ⟨id, hid⟩ := World.exists_idOf?_of_get? hsome
    have hhush : m.HushedFor id .update e := h.wired.hushedFor (fun hc => by cases hc) e
    obtain ⟨host, hperform⟩ := performs_patch hid hsome hhush f
    exact .of_performs hperform ⟨World.revised_patch h.wf hid e f, rfl, rfl⟩
  · have hnone : m.world.get? kind e = none := Option.not_isSome_iff_eq_none.mp hsome
    exact .of_performs (performs_patch_of_absent hnone f)
      ⟨World.revised_of_none h.wf f hnone, rfl, rfl⟩

/-- A component that is no link is changed. -/
theorem Tended.of_revised (h : m.Tended planted) {kind : Kind U} {e : Entity}
    {f : Value kind → Value kind} (hkind : kind ≠ .node)
    (hrevised : m.world.Revised kind e f m'.world) (hhandlers : m'.handlers = m.handlers)
    (hclaims : m'.claims = m.claims) : m'.Tended planted :=
  h.aside ((hrevised.undisturbed.mono fun _ hnode => hnode ▸ hkind.symm).aside hrevised.attuned)
    hhandlers hclaims

/-- What becomes of a component that an entity is given, unless it has one or is not to have
any. -/
structure Emplaced (w : World (Kind U)) (kind : Kind U) (e : Entity)
    (make : Except Abort (Value kind)) (w' : World (Kind U)) : Prop where
  wf : w'.Wf
  entities : w'.entities = w.entities
  removing : w'.removing = w.removing
  attuned : World.Attuned w w'
  others : ∀ {other : Kind U}, other ≠ kind → ∀ x, w'.stored? other x = w.stored? other x
  placed : (∀ x, w'.stored? kind x = w.stored? kind x) ∨
    ∃ v, make = .ok v ∧ w.isValid e = true ∧ w.stored? kind e = none ∧
      ∀ x, w'.stored? kind x =
        if x = e then some v else if x.index = e.index then none else w.stored? kind x

theorem Emplaced.of_undisturbed {w w' : World (Kind U)} {kind : Kind U} {e : Entity}
    {make : Except Abort (Value kind)} (hworld : World.Undisturbed (fun _ => True) w w')
    (hattuned : World.Attuned w w') : Emplaced w kind e make w' :=
  { wf := hworld.wf
    entities := hworld.entities
    removing := hworld.removing
    attuned := hattuned
    others := fun _ => hworld.stored? trivial
    placed := .inl (hworld.stored? trivial) }

/-- A component that was placed is published, and read when all have heard of it. -/
theorem step_emplace_placed {kind : Kind U} {id : ComponentId} {e : Entity}
    {make : Except Abort (Value kind)} {w : World (Kind U)} (haccepts : m.world.accepts e = true)
    (hplace : m.world.place kind e make = (.ok true, w)) (hid : w.idOf? kind = some id)
    (stack : List (Frame U σ)) (next : Option (Value kind) × Bool → Script U σ) :
    (m.on stack (.run (Task.emplace kind e make next))).step =
      some (on { m with world := w }
        (.resume (fun _ => .inspect fun w _ => next (w.get? kind e, true)) :: stack)
        (.publish id .construct e)) := by
  show some (call _ (.emplace kind e make) next) = _
  simp only [call, on_world, haccepts, hplace, hid]
  rfl

/-- A component that was placed is published, and only readers hear of it. -/
theorem performs_emplace_placed (h : m.Worked planted) {kind : Kind U} {id : ComponentId}
    {e : Entity} {v : Value kind} {make : Except Abort (Value kind)} {w : World (Kind U)}
    (haccepts : m.world.accepts e = true) (hmake : make = .ok v)
    (hplace : m.world.place kind e make = (.ok true, w))
    (hplaced : World.Placed m.world kind id e v w) :
    ∃ (m' : Machine U σ) (a : Option (Value kind) × Bool) (tr : List Dispatch),
      Emplaced m.world kind e make m'.world ∧ m'.handlers = m.handlers ∧ m'.claims = m.claims ∧
        m.Performs (Task.emplace kind e make) tr m' a := by
  have hvalid := ((World.accepts_iff _ _).mp haccepts).1
  have hattuned : World.Attuned m.world w := by
    have hattuned := World.attuned_place h.wf.paired kind e make
    rw [hplace] at hattuned
    exact hattuned
  have hwired : Wired { m with world := w } planted :=
    h.wired.of_attuned hattuned rfl fun _ _ hset => hset
  have hhush : HushedFor { m with world := w } id .construct e :=
    hwired.hushedFor (fun hc => by cases hc) e
  obtain ⟨host, hserve⟩ := serves_publish hhush
  have hworld : World.Undisturbed (fun _ => True) w (w.snapshot id .construct).2 :=
    World.undisturbed_snapshot hplaced.wf id .construct
  have htuned := World.tuned_snapshot w id .construct
  generalize (w.snapshot id .construct).2 = w' at hserve hworld htuned
  have hemplaced : Emplaced m.world kind e make w' :=
    { wf := hworld.wf
      entities := hworld.entities.trans hplaced.entities
      removing := hworld.removing.trans hplaced.removing
      attuned := hattuned.trans htuned.attuned
      others := fun hother x => (hworld.stored? trivial x).trans (hplaced.stored?_other hother x)
      placed := .inr ⟨v, hmake, hvalid, hplaced.stored?_eq_none h.wf, fun x =>
        (hworld.stored? trivial x).trans (hplaced.stored?_self x)⟩ }
  refine ⟨{ m with world := w', host }, (w'.get? kind e, true), [⟨id, .construct, e⟩],
    hemplaced, rfl, rfl, fun stack next => ?_⟩
  exact .head (step_emplace_placed haccepts hplace hplaced.idOf?_self stack next) rfl
    (((hserve _).snoc rfl rfl).snoc rfl rfl)

/-- Nobody is given a component who is not to have any. -/
theorem performs_emplace_refused {kind : Kind U} {e : Entity} {make : Except Abort (Value kind)}
    (haccepts : m.world.accepts e = false) :
    m.Performs (Task.emplace kind e make) [] m (none, false) := by
  refine .of_step fun stack next => ?_
  show some (call _ (.emplace kind e make) next) = _
  simp only [call, on_world, haccepts]
  rfl

/-- A placement is answered, or it is abandoned where the component was made. -/
theorem performs_emplace (h : m.Worked planted) (kind : Kind U) (e : Entity)
    (make : Except Abort (Value kind)) :
    (∃ (m' : Machine U σ) (a : Option (Value kind) × Bool) (tr : List Dispatch),
        Emplaced m.world kind e make m'.world ∧ m'.handlers = m.handlers ∧ m'.claims = m.claims ∧
          m.Performs (Task.emplace kind e make) tr m' a) ∨
      ∃ (m' : Machine U σ) (cause cause' : Abort), make = .error cause' ∧
        ∀ stack next, (m.on stack (.run (Task.emplace kind e make next))).Runs []
          (m'.on stack (.unwind cause)) := by
  cases haccepts : m.world.accepts e with
  | false =>
    exact .inl ⟨m, (none, false), [], .of_undisturbed (.refl h.wf) (.refl _), rfl, rfl,
      performs_emplace_refused haccepts⟩
  | true =>
    have hvalid := ((World.accepts_iff _ _).mp haccepts).1
    rcases World.place_cases h.wf kind e make with
      ⟨cause, herror, hcause⟩ | ⟨hplace, -⟩ | ⟨v, id, hmake, -, hok, hplaced⟩
    · obtain ⟨w, hplace⟩ : ∃ w, m.world.place kind e make = (.error cause, w) :=
        ⟨_, Prod.ext herror rfl⟩
      have hmake : ∃ cause', make = .error cause' := by
        refine hcause.resolve_left fun hnull => ?_
        rw [h.wf.table.isNull_eq_false hvalid] at hnull
        cases hnull
      obtain ⟨cause', hmake⟩ := hmake
      refine .inr ⟨{ m with world := w }, cause, cause', hmake, fun stack next =>
        Runs.of_step ?_⟩
      show some (call _ (.emplace kind e make) next) = _
      simp only [call, on_world, haccepts, hplace]
      rfl
    · refine .inl ⟨{ m with world := (m.world.register kind).2 },
        ((m.world.register kind).2.get? kind e, false), [],
        .of_undisturbed (World.undisturbed_register h.wf kind) (World.attuned_register h.wf.paired kind),
        rfl, rfl, fun stack next => Runs.of_step ?_⟩
      show some (call _ (.emplace kind e make) next) = _
      simp only [call, on_world, haccepts, hplace]
      rfl
    · obtain ⟨w, hplace⟩ : ∃ w, m.world.place kind e make = (.ok true, w) :=
        ⟨_, Prod.ext hok rfl⟩
      rw [hplace] at hplaced
      exact .inl (performs_emplace_placed h haccepts hmake hplace hplaced)

/-- A component that is no link is put on an entity. -/
theorem Tended.of_emplaced (h : m.Tended planted) {kind : Kind U} {e : Entity}
    {make : Except Abort (Value kind)} (hkind : kind ≠ .node)
    (hemplaced : Emplaced m.world kind e make m'.world) (hhandlers : m'.handlers = m.handlers)
    (hclaims : m'.claims = m.claims) : m'.Tended planted :=
  h.aside
    { wf := hemplaced.wf
      entities := hemplaced.entities
      removing := hemplaced.removing
      stored? := hemplaced.others hkind.symm
      attuned := hemplaced.attuned }
    hhandlers hclaims

/-- Links that lead nowhere are put on an entity. -/
theorem Tended.of_attached (h : m.Tended planted) (hplanted : planted ≠ none) {e : Entity}
    (hemplaced : Emplaced m.world .node e (.ok TreeNode.isolated) m'.world)
    (hhandlers : m'.handlers = m.handlers) (hclaims : m'.claims = m.claims) :
    m'.Tended planted := by
  rcases hemplaced.placed with hsame | ⟨v, hmake, hvalid, hnone, hstored⟩
  · exact h.aside
      { wf := hemplaced.wf
        entities := hemplaced.entities
        removing := hemplaced.removing
        stored? := hsame
        attuned := hemplaced.attuned }
      hhandlers hclaims
  · obtain rfl := Except.ok.inj hmake
    exact
      { wf := hemplaced.wf
        rest := h.rest.congr hemplaced.entities hemplaced.removing
        wired := h.wired.of_attuned hemplaced.attuned hhandlers fun _ _ hset => hclaims ▸ hset
        bare := fun hc => absurd hc hplanted
        forest :=
          World.forest_attach h.forest hemplaced.wf hemplaced.entities hvalid hnone hstored }

/-! ## Calls that leave links alone -/

/-- The world changes, but no links, handles and connections do. -/
theorem Tended.of_quiet (h : m.Tended planted) {w : World (Kind U)}
    (hworld : World.Undisturbed (· = .node) m.world w) (hattuned : World.Attuned m.world w) :
    Tended { m with world := w } planted :=
  h.aside (hworld.aside hattuned) rfl rfl

/-- The connections change, but no links do. -/
theorem Tended.of_board (h : m.Tended planted) {board : Switchboard}
    (hwired : Wired { m with world := { m.world with board } } planted) :
    Tended { m with world := { m.world with board } } planted :=
  h.of_wired (World.undisturbed_board h.wf board) hwired id

theorem yields_fetchEdit (h : m.Tended planted) (e : Entity) {kinds : List (Kind U)}
    (hkinds : Kind.node ∉ kinds) (f : (kind : Kind U) → Value kind → Value kind) :
    m.Yields planted (Task.fetchEdit e kinds f : Task U σ (List (Option (Component (Kind U)))))
      fun _ m' => m'.Tended planted := by
  have hworld : World.Undisturbed (· = .node) m.world (m.world.fetchEdit e kinds f).2 :=
    World.undisturbed_fetchEdit h.wf e kinds f fun kind hkind hnode => hkinds (hnode ▸ hkind)
  have htended := h.of_quiet hworld (World.attuned_fetchEdit h.wf.paired e kinds f)
  refine .of_settle (m.world.fetchEdit e kinds f).1 htended fun stack next => ?_
  show some (call _ (.fetchEdit e kinds f) next) = _
  simp only [call, on_world]
  cases (m.world.fetchEdit e kinds f).1 <;> rfl

/-- A storage of another kind is changed past all checks, but it stays a sparse set. -/
theorem aside_updateStorage {w : World (Kind U)} (hwf : w.Wf) {kind : Kind U}
    (hkind : kind ≠ .node) {f : SparseSet (Value kind) → SparseSet (Value kind)}
    (hf : ∀ s, s.Wf → (f s).Wf) : World.Aside w (w.updateStorage kind f) :=
  { wf := World.wf_updateStorage hwf fun set hset => by
      obtain ⟨id, signals, -, -, hs⟩ := hwf.exists_pool_of_storage? hset
      exact hf set hs
    entities := World.entities_updateStorage
    removing := World.removing_updateStorage
    stored? := World.stored?_updateStorage_of_ne hkind.symm
    attuned := World.attuned_updateStorage w kind f }

/-- A handler that only reads is connected. -/
theorem yields_connect (h : m.Tended planted) (kind : Kind U) (event : LifeEvent)
    {handler : ConnectionKey → Entity → Script U σ}
    (hreader : ∀ key e, (handler key e).ReadOnly) :
    m.Yields planted (Task.connect kind event handler) fun _ m' => m'.Tended planted := by
  cases hmade : (m.world.connect kind event).1 with
  | ok key =>
    have hwired := wired_connect h.wf h.wired hmade (.script (handler key)) (hreader key)
    refine .of_step (a := key) (h.of_wired (World.undisturbed_connect h.wf kind event) hwired id)
      fun stack next => ?_
    show some (runScript _ (.connect kind event handler next)) = _
    simp only [runScript, addHandler, on_world, hmade]
    rfl
  | error cause =>
    have hquiet := h.of_quiet (World.undisturbed_connect h.wf kind event)
      (World.attuned_connect h.wf.paired hmade)
    refine .inr ⟨_, cause, [], hquiet, fun stack next => .of_step ?_⟩
    show some (runScript _ (.connect kind event handler next)) = _
    simp only [runScript, addHandler, on_world, hmade]
    rfl

end Machine

/-! ## All calls -/

/-- Calls that leave links to the library, and the connection of the cascade alone: links are
only put on entities that have none, taken, and lost with their entities. -/
def Call.Fair {U : Type} [SceneFamily U] (planted : Option ConnectionKey) : Call U → Prop
  | .emplace .node _ make => planted ≠ none ∧ make = .ok TreeNode.isolated
  | .edit kind _ _ | .patch kind _ _ => kind ≠ .node
  | .fetchEdit _ kinds _ => .node ∉ kinds
  | .alterStorage kind f => kind ≠ .node ∧ ∀ s, s.Wf → (f s).Wf
  | .disconnect connection | .block connection => planted ≠ some connection
  | .disconnectAll kind event => planted = none ∨ ¬ (kind = .node ∧ event = .destroy)
  | _ => True

/-- Calls that make no component, or make it to the end. -/
def Call.IsWhole {U : Type} [SceneFamily U] : Call U → Prop
  | .emplace _ _ make => ∃ v, make = .ok v
  | _ => True

namespace Machine

variable {U σ : Type} [SceneFamily U] [DecidableEq U] {m m' : Machine U σ}
variable {planted : Option ConnectionKey}

theorem Tended.of_fair_emplace (h : m.Tended planted) {kind : Kind U} {e : Entity}
    {make : Except Abort (Value kind)} (hfair : (Call.emplace kind e make).Fair planted)
    (hemplaced : Emplaced m.world kind e make m'.world) (hhandlers : m'.handlers = m.handlers)
    (hclaims : m'.claims = m.claims) : m'.Tended planted := by
  by_cases hkind : kind = .node
  · subst hkind
    obtain ⟨hplanted, rfl⟩ := hfair
    exact h.of_attached hplanted hemplaced hhandlers hclaims
  · exact h.of_emplaced hkind hemplaced hhandlers hclaims

theorem yields_emplace (h : m.Tended planted) {kind : Kind U} {e : Entity} {v : Value kind}
    (hfair : (Call.emplace kind e (.ok v)).Fair planted) :
    m.Yields planted (Task.emplace kind e (.ok v) : Task U σ (Option (Value kind) × Bool))
      fun _ m' => m'.Tended planted := by
  rcases performs_emplace h.toWorked kind e (.ok v) with
    ⟨m', a, tr, hemplaced, hhandlers, hclaims, hperform⟩ | ⟨_, _, _, hmake, _⟩
  · exact .of_performs hperform (h.of_fair_emplace hfair hemplaced hhandlers hclaims)
  · cases hmake

/-- **One call.** A call that leaves links to the library is answered, or abandoned, where the
links are those of a forest. -/
theorem yields_call (h : m.Tended planted) {c : Call U} (hfair : c.Fair planted)
    (hwhole : c.IsWhole) :
    m.Yields planted (Task.call c : Task U σ c.Reply) fun _ m' => m'.Tended planted := by
  cases c with
  | create => exact yields_create h
  | destroy e => exact yields_destroy h e
  | register kind =>
    have htended := h.of_quiet (World.undisturbed_register h.wf kind)
      (World.attuned_register h.wf.paired kind)
    exact .of_step (a := (m.world.register kind).1) htended fun _ _ => rfl
  | emplace kind e make =>
    obtain ⟨v, rfl⟩ := hwhole
    exact yields_emplace h hfair
  | edit kind e f =>
    have hworld : World.Undisturbed (· = .node) m.world (m.world.edit kind e f) :=
      World.undisturbed_edit h.wf hfair
    have htended := h.of_quiet hworld (World.attuned_edit m.world kind e f)
    exact .of_step (a := (m.world.edit kind e f).get? kind e) htended fun _ _ => rfl
  | patch kind e f =>
    refine (yields_patch h.toWorked kind e f).mono fun _ m' hpost => ?_
    obtain ⟨hrevised, hhandlers, hclaims⟩ := hpost
    exact h.of_revised hfair hrevised hhandlers hclaims
  | take kind e => exact yields_take h kind e
  | fetchEdit e kinds f => exact yields_fetchEdit h e hfair f
  | alterStorage kind f =>
    have haside := aside_updateStorage h.wf hfair.1 hfair.2
    have htended : Tended { m with world := m.world.updateStorage kind f } planted :=
      h.aside haside rfl rfl
    exact .of_step (a := ()) htended fun _ _ => rfl
  | disconnect connection =>
    exact .of_step (a := ()) (h.of_board (wired_disconnect h.wired hfair)) fun _ _ => rfl
  | block connection =>
    refine .of_settle (m.world.board.block connection).1 (h.of_board (wired_block h.wired hfair))
      fun stack next => ?_
    show some (call _ (.block connection) next) = _
    simp only [call, on_world]
    cases (m.world.board.block connection).1 <;> rfl
  | release guard =>
    exact .of_step (a := (m.world.board.release guard).1)
      (h.of_board (wired_release h.wired guard)) fun _ _ => rfl
  | disconnectAll kind event =>
    have hwired := wired_disconnectAll h.wf h.wired hfair
    exact .of_step (a := ())
      (h.of_wired (World.undisturbed_disconnectAll h.wf kind event) hwired id) fun _ _ => rfl
  | updateTransform root =>
    have hworld : World.Undisturbed (· = .node) m.world (m.world.updateTransform root) :=
      World.undisturbed_updateTransform h.wf (fun hc => by cases hc) root
    have htended := h.of_quiet hworld (World.attuned_updateTransform h.wf.paired root)
    exact .of_step (a := ()) htended fun _ _ => rfl
  | updateAllTransforms =>
    have hworld : World.Undisturbed (· = .node) m.world m.world.updateAllTransforms.2 :=
      World.undisturbed_updateAllTransforms h.wf fun hc => by cases hc
    have htended := h.of_quiet hworld (World.attuned_updateAllTransforms h.wf.paired)
    exact .of_step (a := m.world.updateAllTransforms.1) htended fun _ _ => rfl

end Machine

end EntityScene
