import Mathlib.Logic.Function.Basic
import EntityScene.Proofs.Bookkeeping
import EntityScene.Proofs.Stocks

/-!
# Kinds are numbered in the order of their first use

A kind comes into use when it is registered, when a component of it is put on an entity, when
somebody connects to one of its signals or cuts all connections to it, when it is listed for an
exclusive fetch, and when a pass over the placements starts. Handlers do all this as well, so kinds
come in the middle of calls. Whoever brings them, the catalog of a run is the list of all uses so
far with each kind at its first place, and a number that was handed out stands.

- `Catalog.registerEach`: uses, one after the other; `toList_registerEach`: the order that they
  leave.
- `Catalog.Books`: the numbers and the entries kept apart from each other, and that both books say
  what the catalog says.
- `Machine.used`, `Machine.uses`: the kinds that a step takes into use, and the first steps of a
  run.
- `catalog_of_step`, `catalog_run`: the catalog is made of the uses, and of nothing else.
- `World.Numbered`, `numbered_run`: what that says of the pools and of every look-up by kind.
-/

namespace EntityScene

/-! ## Uses of a catalog -/

namespace Catalog

variable {K : Type} [DecidableEq K] {c : Catalog K} {kind : K} {id : ComponentId}

/-- The catalog after the listed uses. -/
def registerEach (c : Catalog K) (kinds : List K) : Catalog K :=
  kinds.foldl (fun c kind => (c.register kind).2) c

@[simp] theorem registerEach_nil (c : Catalog K) : c.registerEach [] = c := rfl

@[simp] theorem registerEach_cons (c : Catalog K) (kind : K) (kinds : List K) :
    c.registerEach (kind :: kinds) = (c.register kind).2.registerEach kinds := rfl

theorem registerEach_append (c : Catalog K) (kinds more : List K) :
    c.registerEach (kinds ++ more) = (c.registerEach kinds).registerEach more :=
  List.foldl_append

theorem idOf?_eq_none_iff (c : Catalog K) (kind : K) :
    c.idOf? kind = none ↔ kind ∉ c.kinds.toList := by
  rw [Array.mem_toList_iff, idOf?, Array.findIdx?_eq_none_iff]
  constructor
  · intro h hmem
    simpa using h kind hmem
  · intro h other hmem
    exact beq_false_of_ne fun heq => h (heq ▸ hmem)

/-- A kind that is new comes behind the others. -/
theorem toList_register (c : Catalog K) (kind : K) :
    (c.register kind).2.kinds.toList = c.kinds.toList ++ ([kind].removeAll c.kinds.toList) := by
  cases hid : c.idOf? kind with
  | some id =>
    have hmem : kind ∈ c.kinds.toList :=
      Array.mem_toList_iff.mpr (Array.mem_of_getElem? (getElem?_of_idOf? hid))
    rw [register_of_idOf? hid, List.removeAll, List.filter_cons_of_neg (by simpa using hmem),
      List.filter_nil, List.append_nil]
  | none =>
    have hmem : kind ∉ c.kinds.toList := (idOf?_eq_none_iff c kind).mp hid
    rw [register_of_idOf?_eq_none hid, List.removeAll,
      List.filter_cons_of_pos (by simpa using hmem), List.filter_nil, Array.toList_push]

/-- The kinds in use stand in the order of their first uses. -/
theorem toList_registerEach (kinds : List K) :
    ((empty : Catalog K).registerEach kinds).kinds.toList = kinds.eraseDups := by
  induction kinds using List.reverseRecOn with
  | nil => rfl
  | append_singleton kinds kind ih =>
    have hlast : [kind].removeAll kinds.eraseDups = ([kind].removeAll kinds).eraseDups := by
      by_cases hmem : kind ∈ kinds
      · simp [List.removeAll, hmem]
      · simp [List.removeAll, hmem, List.eraseDups_cons]
    calc ((empty : Catalog K).registerEach (kinds ++ [kind])).kinds.toList
        = (((empty : Catalog K).registerEach kinds).register kind).2.kinds.toList := by
          rw [registerEach_append, registerEach_cons, registerEach_nil]
      _ = kinds.eraseDups ++ [kind].removeAll kinds.eraseDups := by rw [toList_register, ih]
      _ = kinds.eraseDups ++ ([kind].removeAll kinds).eraseDups := by rw [hlast]
      _ = (kinds ++ [kind]).eraseDups := List.eraseDups_append.symm

/-- A registration gives a number to no other kind. -/
theorem idOf?_register_of_ne (c : Catalog K) {other : K} (hne : other ≠ kind) :
    (c.register kind).2.idOf? other = c.idOf? other := by
  cases hid : c.idOf? kind with
  | some id => rw [register_of_idOf? hid]
  | none =>
    rw [register_of_idOf?_eq_none hid]
    simp [idOf?, Array.findIdx?_push, beq_false_of_ne hne.symm]

/-- A number that was handed out stands. -/
theorem idOf?_registerEach (h : c.idOf? kind = some id) (kinds : List K) :
    (c.registerEach kinds).idOf? kind = some id := by
  induction kinds generalizing c with
  | nil => exact h
  | cons other kinds ih => exact ih (idOf?_register_of_idOf? h)

/-! ## Two books -/

/-- The numbers of the kinds and the entries by number, each in a book of its own. Nothing but
`register` keeps the two together. -/
structure Books (K : Type) where
  /-- The number of a kind, if it is in use. -/
  number? : K → Option ComponentId := fun _ => none
  /-- The entries, by number. -/
  entries : Array (ComponentInfo K) := #[]

namespace Books

/-- The number of a kind. A kind that is not in use yet is entered in both books. -/
def register (b : Books K) (kind : K) : ComponentId × Books K :=
  match b.number? kind with
  | some id => (id, b)
  | none =>
    let id := b.entries.size
    (id,
      { number? := Function.update b.number? kind (some id)
        entries := b.entries.push ⟨id, kind⟩ })

/-- The books after the listed uses. -/
def registerEach (b : Books K) (kinds : List K) : Books K :=
  kinds.foldl (fun b kind => (b.register kind).2) b

/-- Both books say what a catalog says. -/
structure Agree (b : Books K) (c : Catalog K) : Prop where
  number? : ∀ kind, b.number? kind = c.idOf? kind
  entries : ∀ id, b.entries[id]? = c.info? id

variable {b : Books K}

theorem agree_empty : ({} : Books K).Agree empty :=
  { number? := fun kind => by simp [idOf?, empty]
    entries := fun id => by simp [info?, empty] }

theorem Agree.size (h : b.Agree c) : b.entries.size = c.kinds.size := by
  have hmap : b.entries = c.kinds.mapIdx fun id kind => ⟨id, kind⟩ :=
    Array.ext_getElem? fun id => by rw [h.entries, info?, Array.getElem?_mapIdx]
  rw [hmap, Array.size_mapIdx]

/-- A registration keeps both books, and answers the number of the catalog. -/
theorem agree_register (h : b.Agree c) (kind : K) :
    (b.register kind).1 = (c.register kind).1 ∧
      (b.register kind).2.Agree (c.register kind).2 := by
  cases hid : c.idOf? kind with
  | some id =>
    rw [register_of_idOf? hid, register, h.number?, hid]
    exact ⟨rfl, h⟩
  | none =>
    have hself := idOf?_register_self c kind
    have hothers : ∀ other, other ≠ kind → (c.register kind).2.idOf? other = c.idOf? other :=
      fun other hne => idOf?_register_of_ne c hne
    rw [register_of_idOf?_eq_none hid] at hself hothers ⊢
    rw [register, h.number?, hid]
    refine ⟨h.size, { number? := fun other => ?_, entries := fun id => ?_ }⟩
    · show Function.update b.number? kind (some b.entries.size) other = _
      by_cases hother : other = kind
      · subst hother
        rw [Function.update_self, h.size, hself]
      · rw [Function.update_of_ne hother, h.number?, hothers other hother]
    · rw [info?, Array.getElem?_push, Array.getElem?_push, h.size]
      split
      · rename_i heq
        rw [heq]
        rfl
      · exact h.entries id

theorem agree_registerEach (h : b.Agree c) (kinds : List K) :
    (b.registerEach kinds).Agree (c.registerEach kinds) := by
  induction kinds generalizing b c with
  | nil => exact h
  | cons kind kinds ih => exact ih (agree_register h kind).2

end Books

end Catalog

/-! ## What edits take into use -/

namespace World

variable {K : Type} [ComponentFamily K] [DecidableEq K] {w : World K} {kind : K}

theorem catalog_registerAll (w : World K) (kinds : List K) :
    (w.registerAll kinds).2.catalog = w.catalog.registerEach kinds := by
  induction kinds generalizing w with
  | nil => rfl
  | cons kind kinds ih => exact ih (w.register kind).2

theorem catalog_updateStorage (w : World K) (kind : K)
    (f : SparseSet (Value kind) → SparseSet (Value kind)) :
    (w.updateStorage kind f).catalog = w.catalog := by
  unfold updateStorage
  split <;> rfl

theorem catalog_pull (w : World K) (kind : K) (e : Entity) :
    (w.pull kind e).2.catalog = w.catalog := by
  unfold pull
  split
  · rfl
  · exact catalog_updateStorage w kind _

theorem catalog_foldl_editPooled (w : World K) (ps : List (K × ComponentId)) (e : Entity)
    (f : (kind : K) → Value kind → Value kind) :
    (ps.foldl (fun w p => w.editPooled p.1 p.2 e (f p.1)) w).catalog = w.catalog := by
  induction ps generalizing w with
  | nil => rfl
  | cons p ps ih => exact ih (w.editPooled p.1 p.2 e (f p.1))

/-- A fetch takes all listed kinds into use, whatever becomes of it. -/
theorem catalog_fetchEdit (w : World K) (e : Entity) (kinds : List K)
    (f : (kind : K) → Value kind → Value kind) :
    (w.fetchEdit e kinds f).2.catalog = w.catalog.registerEach kinds := by
  rw [← catalog_registerAll]
  unfold fetchEdit
  simp only
  split
  · split
    · exact catalog_foldl_editPooled _ _ e f
    · rfl
  · rfl

/-- The pool of a kind in use holds a set of that kind. -/
theorem InStep.exists_pool (h : w.InStep) {id : ComponentId} (hid : w.idOf? kind = some id) :
    ∃ set signals, w.pools[id]? = some ⟨⟨kind, set⟩, signals⟩ := by
  have hlt : id < w.pools.size := by
    rw [h.paired]
    exact Catalog.lt_size_of_idOf? hid
  have hpool := Array.getElem?_eq_getElem hlt
  generalize w.pools[id] = pool at hpool
  obtain ⟨⟨kind', set⟩, signals⟩ := pool
  have hkind := h.kind_pool hpool
  rw [Catalog.getElem?_of_idOf? hid] at hkind
  obtain rfl : kind = kind' := Option.some.inj hkind
  exact ⟨set, signals, hpool⟩

theorem InStep.lt_size (h : w.InStep) {id : ComponentId} (hid : w.idOf? kind = some id) :
    id < w.pools.size := by
  obtain ⟨set, signals, hpool⟩ := h.exists_pool hid
  exact (Array.getElem?_eq_some_iff.mp hpool).1

/-- The kinds of a world are numbered in the order of their first uses, and each number has the
pool of its kind. -/
structure Numbered (w : World K) (uses : List K) : Prop where
  /-- A number is the place of the kind among the first uses. -/
  place : ∀ {kind : K} {id : ComponentId},
    w.idOf? kind = some id ↔ uses.eraseDups[id]? = some kind
  /-- Numbers and entries that are kept apart say the same. -/
  books : (({} : Catalog.Books K).registerEach uses).Agree w.catalog
  /-- From a kind to its entry .. -/
  info? : ∀ {kind : K} {id : ComponentId}, w.idOf? kind = some id →
    w.catalog.info? id = some ⟨id, kind⟩
  /-- .. and back again. -/
  idOf? : ∀ {id : ComponentId} {info : ComponentInfo K}, w.catalog.info? id = some info →
    info.id = id ∧ w.idOf? info.kind = some id
  /-- There is one pool for each number. -/
  size_pools : w.pools.size = uses.eraseDups.length
  /-- A pool is that of the kind with its number. -/
  pool : ∀ {id : ComponentId} {pool : Pool K}, w.pools[id]? = some pool →
    w.idOf? pool.storage.kind = some id
  /-- Who goes to the pool of a kind by its number finds a set of that kind. -/
  typed : ∀ {kind : K} {id : ComponentId}, w.idOf? kind = some id →
    ∃ pool set, w.pools[id]? = some pool ∧ pool.storage.asKind? kind = some set ∧
      w.storage? kind = some set

/-- A world in step is numbered by the uses that made its catalog. -/
theorem InStep.numbered (h : w.InStep) {uses : List K}
    (huses : w.catalog = Catalog.empty.registerEach uses) : w.Numbered uses := by
  have hlist : w.catalog.kinds.toList = uses.eraseDups := by
    rw [huses, Catalog.toList_registerEach]
  refine
    { place := fun {kind id} => ?_
      books := huses ▸ Catalog.Books.agree_registerEach Catalog.Books.agree_empty uses
      info? := fun {kind id} hid => ?_
      idOf? := fun {id info} hinfo => ?_
      size_pools := ?_
      pool := h.idOf?_pool
      typed := fun {kind id} hid => ?_ }
  · rw [← hlist, Array.getElem?_toList]
    exact h.catalog.idOf?_iff
  · rw [Catalog.info?, Catalog.getElem?_of_idOf? hid, Option.map_some]
  · obtain ⟨kind, hkind, rfl⟩ := Option.map_eq_some_iff.mp hinfo
    exact ⟨rfl, h.catalog.idOf?_iff.mpr hkind⟩
  · rw [← hlist, Array.length_toList]
    exact h.paired
  · obtain ⟨set, signals, hpool⟩ := h.exists_pool hid
    exact ⟨_, set, hpool, Storage.asKind?_self kind set, storage?_of_pool hid hpool⟩

end World

section Passes

namespace World

variable {U : Type} [SceneFamily U] [DecidableEq U] {w : World (Kind U)}

/-- A walk over the placements edits what is there. -/
theorem catalog_propagate (w : World (Kind U)) (room : Nat) (waiting : List (Visit U)) :
    (w.propagate room waiting).catalog = w.catalog := by
  induction room generalizing w waiting with
  | zero => rfl
  | succ room ih =>
    unfold propagate
    split
    · rfl
    · rename_i u t node rest _
      exact (ih _ _).trans (tuned_edit w .transform u.entity _).catalog

theorem catalog_updateTransform (w : World (Kind U)) (root : Entity) :
    (w.updateTransform root).catalog = w.catalog.registerEach [.transform, .node] :=
  catalog_propagate _ _ _

/-- Each root is walked down from as if it were the only one. -/
theorem catalog_updateAllTransforms (w : World (Kind U)) :
    w.updateAllTransforms.2.catalog =
      w.catalog.registerEach (w.placedRoots.flatMap fun _ => [.transform, .node]) := by
  show (w.placedRoots.foldl updateTransform w).catalog = _
  generalize w.placedRoots = roots
  induction roots generalizing w with
  | nil => rfl
  | cons root roots ih =>
    rw [List.foldl_cons, ih, catalog_updateTransform, List.flatMap_cons, Catalog.registerEach_append]

end World

end Passes

/-! ## What steps take into use -/

variable {U σ : Type} [SceneFamily U] [DecidableEq U]

/-- The kinds that a call takes into use. -/
def Call.used (w : World (Kind U)) : Call U → List (Kind U)
  | .register kind => [kind]
  | .emplace kind e _ => if w.accepts e then [kind] else []
  | .fetchEdit _ kinds _ => kinds
  | .disconnectAll kind _ => [kind]
  | .updateTransform _ => [.transform, .node]
  | .updateAllTransforms => w.placedRoots.flatMap fun _ => [.transform, .node]
  | _ => []

/-- The kinds that a script takes into use before it goes on. -/
def Script.used (w : World (Kind U)) : Script U σ → List (Kind U)
  | .call c _ => c.used w
  | .connect kind _ _ _ => [kind]
  | .cascade _ => [.node, .transform, .node]
  | _ => []

namespace Machine

variable {m m' : Machine U σ}

/-- The kinds that the next step takes into use, in order. -/
def used (m : Machine U σ) : List (Kind U) :=
  match m.control with
  | .run script => script.used m.world
  | _ => []

/-- The kinds that the first `n` steps take into use, in order and as often as they do. -/
def uses (m : Machine U σ) (n : Nat) : List (Kind U) :=
  (List.range n).flatMap fun k => (m.run k).used

theorem uses_succ (m : Machine U σ) (n : Nat) : m.uses (n + 1) = m.uses n ++ (m.run n).used := by
  simp [uses, List.range_succ]

theorem catalog_call (c : Call U) (next : c.Reply → Script U σ) :
    (m.call c next).world.catalog = m.world.catalog.registerEach (c.used m.world) := by
  cases c with
  | create =>
    simp only [call]
    split <;> rfl
  | emplace kind e make =>
    have hplace := World.catalog_place m.world kind e make
    simp only [call, Call.used]
    split
    · split <;> exact hplace
    · rfl
  | edit kind e f => exact (World.tuned_edit m.world kind e f).catalog
  | patch kind e f =>
    cases hp : m.patch? kind e f (.resume fun _ => next true) with
    | none =>
      simp only [call, hp, Option.getD_none]
      rfl
    | some m' =>
      obtain ⟨id, v, -, -, rfl⟩ := patch?_eq_some hp
      simp only [call, hp, Option.getD_some]
      exact (World.tuned_edit m.world kind e f).catalog
  | take kind e =>
    simp only [call]
    split <;> rfl
  | fetchEdit e kinds f =>
    have hfetch := World.catalog_fetchEdit m.world e kinds f
    simp only [call]
    split <;> exact hfetch
  | alterStorage kind f => exact World.catalog_updateStorage m.world kind f
  | updateTransform root => exact World.catalog_updateTransform m.world root
  | updateAllTransforms => exact World.catalog_updateAllTransforms m.world
  | block key =>
    rw [(over_block m key next).world]
    rfl
  | _ => rfl

theorem catalog_runScript (script : Script U σ) :
    (m.runScript script).world.catalog = m.world.catalog.registerEach (script.used m.world) := by
  cases script with
  | call c next => exact catalog_call c next
  | connect kind event handler next =>
    rw [(over_connect m kind event handler next).world]
    rfl
  | cascade next =>
    rw [(over_cascade m next).world]
    rfl
  | blocked connection body next =>
    rw [world_runScript_blocked]
    rfl
  | _ => rfl

theorem catalog_invoke (key : ConnectionKey) (e : Entity) :
    (m.invoke key e).world.catalog = m.world.catalog := by
  unfold invoke
  split
  · rfl
  · rename_i claims _
    unfold startCascade
    split
    · rfl
    · cases hp : (m.world.validParentOf? e).bind fun parent =>
          m.patch? .node parent (fun node => TreeNode.dropChild node e) (.unlinking claims e) with
      | none =>
        simp only [hp, Option.getD_none]
        rfl
      | some m' =>
        obtain ⟨parent, -, hpatch⟩ := Option.bind_eq_some_iff.mp hp
        obtain ⟨id, v, -, -, rfl⟩ := patch?_eq_some hpatch
        simp only [hp, Option.getD_some]
        exact (World.tuned_edit m.world .node parent _).catalog
  · rfl

omit [DecidableEq U] in
theorem catalog_tearDown (m : Machine U σ) (e : Entity) (id : ComponentId) :
    (m.tearDown e id).world.catalog = m.world.catalog := by
  unfold tearDown
  split <;> rfl

theorem catalog_resume (frame : Frame U σ) (b : Bool) :
    (m.resume frame b).world.catalog = m.world.catalog := by
  cases frame with
  | dispatch id event e keys => cases keys <;> rfl
  | teardown e id =>
    rcases resume_teardown_cases m e id b with ⟨-, hnext⟩ | ⟨cause, -, -, hnext⟩
    · rw [hnext, catalog_tearDown]
      cases b <;> rfl
    · rw [hnext]
      rfl
  | taking kind e next =>
    rw [(over_taking m e next b).world]
    cases b with
    | true => exact World.catalog_pull m.world kind e
    | false => rfl
  | unlinking claims e =>
    simp only [resume, cascadeOn]
    cases (m.claim claims (e :: m.world.descendants e)).1 <;> rfl
  | cascade claims past ahead => cases ahead <;> rfl
  | _ => rfl

/-- Scripts bring kinds, and nothing else does. -/
theorem catalog_of_step (h : m.step = some m') :
    m'.world.catalog = m.world.catalog.registerEach m.used := by
  cases stepped_of_step h with
  | run script call =>
    rw [used, call]
    exact catalog_runScript script
  | publish id event e call =>
    rw [used, call]
    exact (World.tuned_snapshot m.world id event).catalog
  | invoke key e call =>
    rw [used, call]
    exact catalog_invoke key e
  | destroy e call =>
    rw [used, call]
    simp only [destroy]
    split
    · exact catalog_tearDown _ e 0
    · rfl
  | announce id e call =>
    rw [used, call]
    simp only [announce]
    split <;> rfl
  | reply b frame stack call before =>
    have hused : m.used = [] := by rw [used, call]
    rw [hused]
    exact catalog_resume (m := { m with stack }) frame b
  | unwind cause frame stack call before =>
    have hused : m.used = [] := by rw [used, call]
    rw [hused]
    cases frame <;> rfl

theorem catalog_run (m : Machine U σ) (n : Nat) :
    (m.run n).world.catalog = m.world.catalog.registerEach (m.uses n) := by
  induction n with
  | zero => rfl
  | succ n ih =>
    cases hstep : (m.run n).step with
    | some m' =>
      rw [run_succ_of_run_step hstep, catalog_of_step hstep, ih, uses_succ,
        Catalog.registerEach_append]
    | none =>
      -- who has nothing to do takes nothing into use
      have hused : (m.run n).used = [] := by
        obtain ⟨-, ⟨b, hc⟩ | ⟨cause, hc⟩⟩ := (step_eq_none_iff _).mp hstep
        · rw [used, hc]
        · rw [used, hc]
      rw [run_succ, hstep, Option.getD_none, uses_succ, hused, List.append_nil, ih]

/-- The world of a run is numbered by what was taken into use so far. -/
theorem numbered_run (host : σ) (script : Script U σ) (n : Nat) :
    ((start host script).run n).world.Numbered ((start host script).uses n) :=
  (inStep_run host script n).numbered (catalog_run (start host script) n)

/-- Kinds keep their numbers to the end of a run, whatever is done in it. -/
theorem idOf?_of_le (m : Machine U σ) {k n : Nat} (hkn : k ≤ n) {kind : Kind U} {id : ComponentId}
    (hid : (m.run k).world.idOf? kind = some id) : (m.run n).world.idOf? kind = some id := by
  obtain ⟨d, rfl⟩ := Nat.exists_eq_add_of_le hkn
  rw [run_add, World.idOf?, catalog_run]
  exact Catalog.idOf?_registerEach hid _

end Machine

end EntityScene
