import EntityScene.Proofs.Bookkeeping
import EntityScene.Proofs.Invocations
import EntityScene.Proofs.Unwinding

/-!
# A machine gives account of its ledger

A machine whose handlers only read does what its ledger says: each operation is answered as the
ledger answers it, each call of a handler is an event, in order, and the handler finds the world
as the ledger is at the event.

- `Machine.Attends`, `Machine.Books`: the connections are those of the ledger, and so is the
  world, between two operations.
- `Event.Matches`: a call of a handler is an event.
- `Machine.Accounts`, `Machine.Forsakes`: a task is answered, or abandoned, as the ledger says.
- `accounts_destroy`, `accounts_emplace`, `accounts_take`, ..: the operations.
- `registries_keep_ledgers`: from an empty world on every list of operations is answered as the
  ledger says, up to the first one that the ledger refuses.
-/

namespace EntityScene

namespace Ledger

section Kinds

variable {K : Type} [ComponentFamily K] [DecidableEq K] {L : Ledger K} {kind other : K}

/-- A new connection hears of the events that it was made for, after all others. -/
theorem hearers_connect (L : Ledger K) (kind other : K) (event event' : LifeEvent) :
    (L.connect kind event).hearers other event' =
      L.hearers other event' ++
        if (kind, event) = (other, event') then [L.connections.length] else [] := by
  have hold : ∀ key ∈ List.range L.connections.length,
      (L.connections ++ [(kind, event)])[key]? = L.connections[key]? := fun key hkey =>
    List.getElem?_append_left (List.mem_range.mp hkey)
  rw [hearers, connect, List.length_append, List.length_singleton, List.range_succ,
    List.filter_append, hearers, List.filter_congr fun key hkey => by rw [hold key hkey]]
  congr 1
  rw [List.filter_singleton, List.getElem?_concat_length]
  simp

/-- Nobody hears of a kind that nobody asked about. -/
theorem hearers_eq_nil {event : LifeEvent} (h : ∀ p ∈ L.connections, p.1 ≠ kind) :
    L.hearers kind event = [] := by
  rw [hearers, List.filter_eq_nil_iff]
  intro key _ hkey
  rw [decide_eq_true_iff] at hkey
  exact h _ (List.mem_of_getElem? hkey) rfl

/-- Of an entity the listed kinds are crossed out. -/
theorem strip_snd (L : Ledger K) (e : Entity) (kinds : List K) :
    (L.strip e kinds).2 =
      { L with value := fun kind x => if x = e ∧ kind ∈ kinds then none else L.value kind x } := by
  induction kinds generalizing L with
  | nil => simp [strip]
  | cons first kinds ih =>
    cases hv : L.value first e with
    | none =>
      rw [strip, hv, ih]
      congr 1
      funext kind x
      by_cases hx : x = e
      · subst hx
        by_cases hk : kind = first
        · subst hk
          simp [hv]
        · simp [hk]
      · simp [hx]
    | some v =>
      rw [strip, hv]
      show (strip (L.assign first e none) e kinds).2 = _
      rw [ih, assign]
      congr 1
      funext kind x
      have hassign := L.value_assign kind first e x none
      rw [assign] at hassign
      rw [hassign]
      by_cases hx : x = e
      · subst hx
        by_cases hk : kind = first
        · subst hk
          simp
        · simp [hk]
      · simp [hx]

@[simp] theorem issued_strip (L : Ledger K) (e : Entity) (kinds : List K) :
    (L.strip e kinds).2.issued = L.issued := by rw [strip_snd]

@[simp] theorem live_strip (L : Ledger K) (e : Entity) (kinds : List K) :
    (L.strip e kinds).2.live = L.live := by rw [strip_snd]

@[simp] theorem kinds_strip (L : Ledger K) (e : Entity) (kinds : List K) :
    (L.strip e kinds).2.kinds = L.kinds := by rw [strip_snd]

@[simp] theorem connections_strip (L : Ledger K) (e : Entity) (kinds : List K) :
    (L.strip e kinds).2.connections = L.connections := by rw [strip_snd]

/-- When the kinds in use are crossed out nothing is left. -/
theorem value_strip_kinds {w : World K} (h : w.Keeps L) (e : Entity) (kind : K) :
    (L.strip e L.kinds).2.value kind e = none := by
  rw [strip_snd]
  show (if e = e ∧ kind ∈ L.kinds then none else L.value kind e) = none
  split
  · rfl
  · rename_i hc
    have hkind : kind ∉ L.kinds := fun hk => hc ⟨rfl, hk⟩
    cases hv : L.value kind e with
    | none => rfl
    | some v => exact absurd (h.mem_kinds (Option.isSome_of_eq_some hv)) hkind

theorem destroy_of_mem {e : Entity} (h : e ∈ L.live) :
    L.destroy e = (true, (L.strip e L.kinds).1,
      { (L.strip e L.kinds).2 with live := L.live.erase e }) := by
  rw [destroy, if_pos h]
  show (true, (L.strip e L.kinds).1,
    { (L.strip e L.kinds).2 with live := (L.strip e L.kinds).2.live.erase e }) = _
  rw [live_strip]

theorem destroy_of_not_mem {e : Entity} (h : e ∉ L.live) : L.destroy e = (false, [], L) :=
  if_neg h

/-- A component that is at hand is not abandoned. -/
theorem emplace_ok_ne_none (L : Ledger K) (kind : K) (e : Entity) (v : Value kind) :
    L.emplace kind e (.ok v) ≠ none := by
  unfold emplace
  split
  · cases L.value kind e <;> exact Option.some_ne_none _
  · exact Option.some_ne_none _

end Kinds

/-- A call of a handler is the event: a connection hears of a component, and finds what the
ledger says. -/
structure Event.Matches {K : Type} [ComponentFamily K] [DecidableEq K] (told : Event K)
    (call : Invocation K) : Prop where
  key : call.key = told.key
  event : call.event = told.event
  kind : call.world.idOf? told.kind = some call.id
  entity : call.entity = told.entity
  ledger : call.world.Shows told.ledger

end Ledger

/-- If the operation connects a handler, it only reads. -/
def Op.IsReader {U σ : Type} [SceneFamily U] : Op U σ → Prop
  | .connect _ _ handler => ∀ key e, (handler key e).ReadOnly
  | _ => True

namespace Machine

open Ledger

variable {U σ : Type} [SceneFamily U] [DecidableEq U] {m m' : Machine U σ}
variable {L L' L'' : Ledger (Kind U)} {kind : Kind U} {id : ComponentId} {e : Entity}
variable {events events' : List (Event (Kind U))}

/-- The connections are those of the ledger, and their handlers only read. -/
structure Attends (m : Machine U σ) (L : Ledger (Kind U)) : Prop where
  heeded : m.Heeded
  size : m.handlers.size = L.connections.length
  hearers : ∀ {kind : Kind U} {id : ComponentId}, m.world.idOf? kind = some id →
    ∀ event, m.world.listeners id event = L.hearers kind event
  enlisted : ∀ p ∈ L.connections, p.1 ∈ L.kinds
  /-- Connections to a signal are numbered. -/
  numbered : ∀ {kind : Kind U} {id : ComponentId}, m.world.idOf? kind = some id →
    ∀ event, (m.world.number id event).toNat = L.connections.count (kind, event)

/-- The machine keeps a ledger, and nothing is going on. -/
structure Books (m : Machine U σ) (L : Ledger (Kind U)) : Prop where
  keeps : m.world.Keeps L
  attends : m.Attends L
  idle : ∀ x, m.world.isDestroying x = false
  entered : (∀ i, L.issued.countP (·.index == i) ≤ 2 ^ 32) →
    ∃ count, m.world.entities.Entered L.issued count

/-! ## Edits of the world -/

/-- Connections are those of the ledger also when more kinds are in use. -/
theorem Attends.of_attuned (h : m.Attends L) (hkeeps : m.world.Keeps L)
    (hkeeps' : m'.world.Keeps L') (hworld : World.Attuned m.world m'.world)
    (hhandlers : m'.handlers = m.handlers) (hkinds : L.kinds <+: L'.kinds)
    (hconnections : L'.connections = L.connections) : m'.Attends L' := by
  -- nobody is connected to a kind that was just taken into use
  have hnew : ∀ {kind : Kind U} {id : ComponentId}, m.world.idOf? kind = none →
      m'.world.idOf? kind = some id →
      m.world.pools.size ≤ id ∧ ∀ p ∈ L.connections, p.1 ≠ kind := by
    intro kind id hold hid
    have hnot := hkeeps.idOf?_eq_none_iff.mp hold
    refine ⟨hkeeps.size_pools ▸ ?_, ?_⟩
    · by_contra hlt
      obtain ⟨more, hmore⟩ := hkinds
      have hkind := hkeeps'.idOf?_iff.mp hid
      rw [← hmore, List.getElem?_append_left (Nat.not_le.mp hlt)] at hkind
      exact hnot (List.mem_of_getElem? hkind)
    · rintro p hp rfl
      exact hnot (h.enlisted p hp)
  refine
    { heeded := h.heeded.congr hhandlers hworld.board hworld.slots
      size := by rw [hhandlers, hconnections, h.size]
      hearers := fun {kind id} hid event => ?_
      enlisted := fun p hp => hkinds.subset (h.enlisted p (hconnections ▸ hp))
      numbered := fun {kind id} hid event => ?_ }
  · have hsame : L'.hearers kind event = L.hearers kind event := by
      rw [Ledger.hearers, hconnections, Ledger.hearers]
    rw [hworld.listeners, hsame]
    cases hold : m.world.idOf? kind with
    | some id' =>
      have hid' := hworld.idOf? hold
      rw [hid] at hid'
      obtain rfl := Option.some.inj hid'
      exact h.hearers hold event
    | none =>
      obtain ⟨hsize, hnobody⟩ := hnew hold hid
      rw [World.listeners_of_size_le hsize, hearers_eq_nil hnobody]
  · rw [hworld.number, hconnections]
    cases hold : m.world.idOf? kind with
    | some id' =>
      have hid' := hworld.idOf? hold
      rw [hid] at hid'
      obtain rfl := Option.some.inj hid'
      exact h.numbered hold event
    | none =>
      obtain ⟨hsize, hnobody⟩ := hnew hold hid
      rw [World.number_of_size_le hsize,
        List.count_eq_zero.mpr fun hmem => hnobody (kind, event) hmem rfl]
      rfl

theorem Books.of_attuned (h : m.Books L) (hkeeps : m'.world.Keeps L')
    (hworld : World.Attuned m.world m'.world) (hhandlers : m'.handlers = m.handlers)
    (hentities : m'.world.entities = m.world.entities) (hkinds : L.kinds <+: L'.kinds)
    (hissued : L'.issued = L.issued) (hconnections : L'.connections = L.connections) :
    m'.Books L' :=
  { keeps := hkeeps
    attends := h.attends.of_attuned h.keeps hkeeps hworld hhandlers hkinds hconnections
    idle := fun x => by
      rw [World.isDestroying, hentities]
      exact h.idle x
    entered := by
      rw [hissued, hentities]
      exact h.entered }

theorem Books.registered (h : m.Books L) (kind : Kind U) :
    Books { m with world := (m.world.register kind).2 } (L.enlist kind) :=
  h.of_attuned (World.keeps_register h.keeps kind) (World.attuned_register h.keeps.wf.paired kind) rfl rfl
    (prefix_enlist L kind) (issued_enlist L kind) (connections_enlist L kind)

/-! ## Handlers that are called -/

/-- Everybody who is connected is told, and finds what the ledger says. -/
theorem Attends.matches_tell (h : m.Attends L) (hid : m.world.idOf? kind = some id)
    (event : LifeEvent) (e : Entity) {w : World (Kind U)} (hw : w.idOf? kind = some id)
    (hshows : w.Shows L) :
    List.Forall₂ Event.Matches (L.tell kind event e)
      ((m.world.listeners id event).map fun key => ⟨key, id, event, e, w⟩) := by
  rw [h.hearers hid event, Ledger.tell, List.forall₂_map_left_iff, List.forall₂_map_right_iff,
    List.forall₂_same]
  exact fun key _ =>
    { key := rfl
      event := rfl
      kind := hw
      entity := rfl
      ledger := hshows }

/-- Whoever hears that a component is about to be removed still finds it. -/
theorem shows_announcing (h : m.world.Shows L) (id : ComponentId) (e : Entity) :
    (m.announcing id e).Shows L :=
  { handles := h.handles
    idOf? := h.idOf?
    get? := h.get? }

/-- An entity that is being destroyed loses one component after the other, and each time
everybody who is connected is told before. -/
theorem invokes_strip {e : Entity} {kinds : List (Kind U)} {j : ComponentId}
    (hkeeps : m.world.Keeps L) (hattends : m.Attends L) (hkinds : L.kinds.drop j = kinds) :
    ∃ world host calls, world.Keeps (L.strip e kinds).2 ∧ World.Tuned m.world world ∧
      world.entities = m.world.entities ∧
      List.Forall₂ Event.Matches (L.strip e kinds).1 calls ∧
      ∀ stack, (m.tearing stack e j).Invokes calls
        (tearing { m with world, host } stack e (j + kinds.length)) := by
  induction kinds generalizing m L j with
  | nil => exact ⟨m.world, m.host, [], hkeeps, .refl _, rfl, .nil, fun stack => .refl _⟩
  | cons kind kinds ih =>
    have hkind : L.kinds[j]? = some kind := by
      rw [← Nat.add_zero j, ← List.getElem?_drop, hkinds]
      rfl
    have hrest : L.kinds.drop (j + 1) = kinds := by
      rw [← List.tail_drop, hkinds]
      rfl
    have hid := hkeeps.idOf?_iff.mpr hkind
    have hlt : j < m.world.pools.size := by
      rw [hkeeps.size_pools]
      exact (List.getElem?_eq_some_iff.mp hkind).1
    have hrow := hkeeps.holds hid e
    rw [List.length_cons, Nat.add_comm kinds.length, ← Nat.add_assoc]
    cases hv : L.value kind e with
    | none =>
      rw [hv] at hrow
      obtain ⟨world, host, calls, hstripped, htuned, hentities, hmatches, hrun⟩ :=
        ih hkeeps hattends hrest
      rw [strip, hv]
      refine ⟨world, host, calls, hstripped, htuned, hentities, hmatches, fun stack => ?_⟩
      exact (invokes_tearing_bare hlt hrow stack).trans (hrun stack)
    | some v =>
      rw [hv] at hrow
      have hfresh : (j, e) ∉ m.world.removing := by simp [hkeeps.removing]
      obtain ⟨host, hfirst⟩ := invokes_tearing hkeeps.wf hattends.heeded hlt hfresh hrow
      have hkeeps' := World.keeps_erase hkeeps hid e
      have htuned' := World.tuned_erase m.world j e
      obtain ⟨world, host', calls, hstripped, htuned, hentities, hmatches, hrun⟩ :=
        ih (m := { m with world := m.world.erase j e, host }) hkeeps'
          (hattends.of_attuned hkeeps hkeeps' htuned'.attuned rfl (List.prefix_refl _) rfl) hrest
      have htold := hattends.matches_tell (w := m.announcing j e) hid .destroy e hid
        (shows_announcing hkeeps.shows j e)
      rw [strip, hv]
      exact ⟨world, host', _, hstripped, htuned'.trans htuned, hentities,
        List.rel_append htold hmatches, fun stack => (hfirst stack).trans (hrun stack)⟩

/-! ## Answers -/

/-- A task is answered, the machine keeps another ledger, and the calls of handlers on the way
are the events. -/
def Accounts {α : Type} (m : Machine U σ) (task : Task U σ α) (a : α)
    (events : List (Event (Kind U))) (L' : Ledger (Kind U)) : Prop :=
  ∃ calls m', m'.Books L' ∧ List.Forall₂ Event.Matches events calls ∧ m.Achieves task calls m' a

/-- A task is abandoned, and the calls of handlers on the way are the events. -/
def Forsakes {α : Type} (m : Machine U σ) (task : Task U σ α)
    (events : List (Event (Kind U))) : Prop :=
  ∃ (calls : List (Invocation (Kind U))) (m' : Machine U σ) (cause : Abort),
    List.Forall₂ Event.Matches events calls ∧
      ∀ stack next, (m.on stack (.run (task next))).Invokes calls (m'.on stack (.unwind cause))

section Tasks

variable {α β : Type} {task : Task U σ α} {a : α} {b : β}

theorem Accounts.of_achieves {calls : List (Invocation (Kind U))} (h : m'.Books L')
    (hmatches : List.Forall₂ Event.Matches events calls) (hachieves : m.Achieves task calls m' a) :
    m.Accounts task a events L' :=
  ⟨calls, m', h, hmatches, hachieves⟩

theorem Accounts.pure (h : m.Books L) (a : α) : m.Accounts (pure a) a [] L :=
  .of_achieves h .nil (.pure m a)

theorem Accounts.after {f : α → Task U σ β} {calls : List (Invocation (Kind U))}
    (h : m.Achieves task calls m' a) (hmatches : List.Forall₂ Event.Matches events calls)
    (hf : m'.Accounts (f a) b events' L') : m.Accounts (task >>= f) b (events ++ events') L' := by
  obtain ⟨calls', m'', hbooks, hmatches', hachieves⟩ := hf
  exact .of_achieves hbooks (List.rel_append hmatches hmatches') (h.bind hachieves)

theorem Accounts.bind {f : α → Task U σ β} (h : m.Accounts task a events L')
    (hf : ∀ m' : Machine U σ, m'.Books L' → m'.Accounts (f a) b events' L'') :
    m.Accounts (task >>= f) b (events ++ events') L'' := by
  obtain ⟨calls, m', hbooks, hmatches, hachieves⟩ := h
  exact .after hachieves hmatches (hf m' hbooks)

/-- The answer of a task is worked on. -/
theorem Accounts.map (h : m.Accounts task a events L') (f : α → β) :
    m.Accounts (do return f (← task)) (f a) events L' := by
  have hbind := h.bind (f := fun a => (Pure.pure (f a) : Task U σ β)) fun m' hbooks =>
    Accounts.pure hbooks (f a)
  rwa [List.append_nil] at hbind

theorem Accounts.look {f : World (Kind U) → Task U σ α}
    (h : m.Accounts (f m.world) a events L') : m.Accounts (Task.world >>= f) a events L' := by
  obtain ⟨calls, m', hbooks, hmatches, hachieves⟩ := h
  exact .of_achieves hbooks hmatches (.look hachieves)

/-- Who only looks at the world finds what the ledger says. -/
theorem Accounts.ask (h : m.Books L) (f : World (Kind U) → α) :
    m.Accounts (do return f (← Task.world)) (f m.world) [] L :=
  .look (.pure h _)

theorem Forsakes.bind {f : α → Task U σ β} (h : m.Forsakes task events) :
    m.Forsakes (task >>= f) events := by
  obtain ⟨calls, m', cause, hmatches, hrun⟩ := h
  exact ⟨calls, m', cause, hmatches, fun stack next => hrun stack fun a => f a next⟩

theorem Forsakes.after {f : α → Task U σ β} {calls : List (Invocation (Kind U))}
    (h : m.Achieves task calls m' a) (hmatches : List.Forall₂ Event.Matches events calls)
    (hf : m'.Forsakes (f a) events') : m.Forsakes (task >>= f) (events ++ events') := by
  obtain ⟨calls', m'', cause, hmatches', hrun⟩ := hf
  exact ⟨calls ++ calls', m'', cause, List.rel_append hmatches hmatches', fun stack next =>
    (h stack fun a => f a next).trans (hrun stack next)⟩

end Tasks

/-! ## Operations on entities -/

theorem Books.accepts_iff (h : m.Books L) (e : Entity) :
    m.world.accepts e = true ↔ e ∈ L.live := by
  rw [World.accepts_iff, h.keeps.isValid_iff, and_iff_left (h.idle e)]

/-- If no index was issued too often, none was before the last handle was issued. -/
theorem Books.entered_of_cons (h : m.Books L)
    (hbound : ∀ i, (e :: L.issued).countP (·.index == i) ≤ 2 ^ 32) :
    ∃ count, m.world.entities.Entered L.issued count :=
  h.entered fun i => Nat.le_trans (List.sublist_cons_self _ _).countP_le (hbound i)

/-- A new handle is issued, unless every index is taken. -/
theorem accounts_create (h : m.Books L) :
    (∃ e, L.Admits e ∧ m.Accounts Task.create e [] (L.enter e)) ∨
      L.live.length = 2 ^ 32 - 1 ∧ m.Forsakes Task.create [] := by
  have hwf := h.keeps.wf.table
  generalize halloc : m.world.entities.allocate = allocated
  obtain ⟨created, entities⟩ := allocated
  have hstep : ∀ stack next, (m.on stack (.run (Task.create next))).step =
      some (match created with
        | .ok e => on { m with world := { m.world with entities } } stack (.run (next e))
        | .error cause => on { m with world := { m.world with entities } } stack (.unwind cause)) := by
    intro stack next
    show some (call _ .create next) = _
    simp only [call, World.create, on_world, halloc]
    cases created <;> rfl
  cases created with
  | error cause =>
    refine .inr ⟨?_, [], { m with world := { m.world with entities } }, cause, .nil,
      fun stack next => .of_step (hstep stack next)⟩
    rw [← h.keeps.handles]
    exact Entity.Table.length_toList_of_error hwf halloc
  | ok e =>
    have hkeeps := World.keeps_create h.keeps halloc
    have halive := (Entity.Table.isAlive_allocate hwf halloc e).mpr (.inl rfl)
    have hadmits : L.Admits e := by
      refine ⟨hkeeps.wf.table.isNull_eq_false halive, fun x hx => ?_, fun hbound => ?_⟩
      · rw [← h.keeps.handles] at hx
        exact Entity.Table.index_ne_of_allocate hwf halloc hx
      · obtain ⟨count, hentered⟩ := h.entered_of_cons hbound
        exact hentered.not_mem hwf halloc hbound
    have hbooks : Books { m with world := { m.world with entities } } (L.enter e) :=
      { keeps := hkeeps
        attends := h.attends.of_attuned h.keeps hkeeps (World.tuned_with _ _ _).attuned rfl
          (List.prefix_refl _) rfl
        idle := fun x => (Entity.Table.isDestroying_allocate hwf halloc x).trans (h.idle x)
        entered := fun hbound => by
          obtain ⟨count, hentered⟩ := h.entered_of_cons hbound
          exact ⟨_, hentered.allocate hwf halloc hbound⟩ }
    exact .inl ⟨e, hadmits, .of_achieves hbooks .nil (.of_step hstep)⟩

/-- An entity that lost its components is given up. -/
theorem Books.released (h : m.Books L) (he : e ∈ L.live) {world : World (Kind U)}
    (hkeeps : world.Keeps (L.strip e L.kinds).2)
    (htuned : World.Tuned (m.world.beginDestroy e) world)
    (hentities : world.entities = (m.world.beginDestroy e).entities) (host : σ) :
    Books { m with world := world.release e, host }
      { (L.strip e L.kinds).2 with live := L.live.erase e } := by
  have hreleased := World.keeps_release hkeeps (by rwa [live_strip]) (value_strip_kinds h.keeps e)
  rw [live_strip] at hreleased
  have hvalid : world.isValid e = true := (hkeeps.isValid_iff e).mpr (by rwa [live_strip])
  refine
    { keeps := hreleased
      attends := ?_
      idle := fun x => ?_
      entered := fun hbound => ?_ }
  · have hworld : World.Tuned m.world (world.release e) :=
      ((World.tuned_beginDestroy m.world e).trans htuned).trans (World.tuned_release world e)
    have hkinds : L.kinds <+: (L.strip e L.kinds).2.kinds :=
      ⟨[], by rw [List.append_nil, kinds_strip]⟩
    exact h.attends.of_attuned h.keeps hreleased hworld.attuned rfl hkinds (connections_strip L e _)
  · rw [Bool.eq_false_iff]
    intro hx
    have hdestroying := (World.isDestroying_released ((h.accepts_iff e).mpr he) hentities x).mp hx
    rw [h.idle x] at hdestroying
    cases hdestroying.1
  · rw [issued_strip] at hbound ⊢
    obtain ⟨count, hentered⟩ := h.entered hbound
    have hbegun : world.entities.Entered L.issued count := hentities ▸ hentered.beginDestroy e
    exact ⟨count, hbegun.release hvalid⟩

/-- A live entity is destroyed, with all its components. -/
theorem accounts_destroy (h : m.Books L) (e : Entity) :
    m.Accounts (Task.destroy e) (L.destroy e).1 (L.destroy e).2.1 (L.destroy e).2.2 := by
  by_cases he : e ∈ L.live
  · have haccepts := (h.accepts_iff e).mpr he
    have hbegun := World.keeps_beginDestroy h.keeps e
    have hattends : Attends { m with world := m.world.beginDestroy e } L :=
      h.attends.of_attuned h.keeps hbegun (World.tuned_beginDestroy m.world e).attuned rfl
        (List.prefix_refl _) rfl
    obtain ⟨world, host, calls, hkeeps, htuned, hentities, hmatches, hrun⟩ :=
      invokes_strip (e := e) (j := 0) hbegun hattends List.drop_zero
    have hsize : world.pools.size ≤ 0 + L.kinds.length := by
      rw [htuned.size_pools, hbegun.size_pools, Nat.zero_add]
    have hlast := tearing_of_size_le (m := { m with world, host }) hsize
    rw [destroy_of_mem he]
    refine .of_achieves (h.released he hkeeps htuned hentities host) hmatches
      (achieves_destroy fun stack => ?_)
    have hstripped := hrun stack
    rw [hlast] at hstripped
    exact .head (step_destroy_of_accepts haccepts stack) rfl hstripped
  · have haccepts : m.world.accepts e = false := by
      rw [Bool.eq_false_iff, Ne, h.accepts_iff]
      exact he
    rw [destroy_of_not_mem he]
    exact .of_achieves h .nil (achieves_destroy (carries_destroy_refused haccepts))

/-- Entities are destroyed one after the other. -/
theorem accounts_destroyAll (h : m.Books L) (es : List Entity) :
    m.Accounts (Task.destroyAll es) (L.destroyAll es).1 (L.destroyAll es).2.1
      (L.destroyAll es).2.2 := by
  induction es generalizing m L with
  | nil => exact .pure h 0
  | cons e es ih =>
    refine (accounts_destroy h e).bind fun m' hbooks => ?_
    exact (ih hbooks).map _

theorem accounts_clear (h : m.Books L) :
    m.Accounts Task.clear (L.destroyAll L.live).1 (L.destroyAll L.live).2.1
      (L.destroyAll L.live).2.2 := by
  refine .look ?_
  rw [h.keeps.handles]
  exact accounts_destroyAll h L.live

/-! ## Operations on components -/

theorem accounts_register (h : m.Books L) (kind : Kind U) :
    m.Accounts (Task.register kind) ((L.enlist kind).kinds.idxOf kind : ComponentId) []
      (L.enlist kind) := by
  rw [← h.keeps.register_fst]
  exact .of_achieves (h.registered kind) .nil (.of_step fun stack next => rfl)

/-- A component is announced and taken, if there is one. -/
theorem accounts_take (h : m.Books L) (kind : Kind U) (e : Entity) :
    m.Accounts (Task.take kind e) (L.take kind e).1 (L.take kind e).2.1 (L.take kind e).2.2 := by
  have hstored := h.keeps.stored? kind e
  cases hv : L.value kind e with
  | none =>
    rw [hv] at hstored
    simp only [Ledger.take, hv]
    exact .of_achieves h .nil (achieves_take_none h.keeps.wf hstored)
  | some v =>
    rw [hv] at hstored
    obtain ⟨id, hid⟩ := h.keeps.exists_idOf? (Option.isSome_of_eq_some hv)
    have hrow : m.world.holds id e = true := by rw [h.keeps.holds hid, hv]; rfl
    have hvalid := (h.keeps.isValid_iff e).mpr (h.keeps.owned (Option.isSome_of_eq_some hv))
    have hfresh : (id, e) ∉ m.world.removing := by simp [h.keeps.removing]
    obtain ⟨host, htake⟩ := achieves_take h.attends.heeded h.keeps.wf hid hvalid hfresh hrow
    have htold := h.attends.matches_tell (w := m.announcing id e) hid .destroy e hid
      (shows_announcing h.keeps.shows id e)
    rw [hstored] at htake
    have hbooks : Books { m with world := m.world.erase id e, host } (L.assign kind e none) :=
      h.of_attuned (World.keeps_erase h.keeps hid e) (World.tuned_erase m.world id e).attuned rfl rfl
        (List.prefix_refl _) rfl rfl
    simp only [Ledger.take, hv]
    exact .of_achieves hbooks htold htake

/-- A component is changed, if there is one. -/
theorem accounts_patch (h : m.Books L) (kind : Kind U) (e : Entity)
    (f : Value kind → Value kind) :
    m.Accounts (Task.patch kind e f) (L.patch kind e f).1 (L.patch kind e f).2.1
      (L.patch kind e f).2.2 := by
  have hget := h.keeps.get? kind e
  cases hv : L.value kind e with
  | none =>
    rw [hv] at hget
    simp only [Ledger.patch, hv]
    exact .of_achieves h .nil (achieves_patch_none hget f)
  | some v =>
    rw [hv] at hget
    obtain ⟨id, hid⟩ := h.keeps.exists_idOf? (Option.isSome_of_eq_some hv)
    obtain ⟨host, hpatch⟩ := achieves_patch h.attends.heeded hid (Option.isSome_of_eq_some hget) f
    have hkeeps := World.keeps_edit h.keeps hv f
    have htuned := World.tuned_edit m.world kind e f
    have hworld : World.Undisturbed (· ≠ kind) m.world (m.world.edit kind e f) :=
      World.undisturbed_edit h.keeps.wf (not_not.mpr rfl)
    have hbooks : Books { m with world := m.world.edit kind e f, host }
        (L.assign kind e (some (f v))) :=
      h.of_attuned hkeeps htuned.attuned rfl hworld.entities (List.prefix_refl _) rfl rfl
    simp only [Ledger.patch, hv]
    exact .of_achieves hbooks
      (hbooks.attends.matches_tell ((htuned.idOf? kind).trans hid) .update e
        ((htuned.idOf? kind).trans hid) hkeeps.shows) hpatch

/-- A component is put in place where there is none, unless it is abandoned while it is made. -/
theorem accounts_emplace (h : m.Books L) (kind : Kind U) (e : Entity)
    (make : Except Abort (Value kind)) :
    (∃ a events L', some (a, events, L') = L.emplace kind e make ∧
        m.Accounts (Task.emplace kind e make) a events L') ∨
      L.emplace kind e make = none ∧ m.Forsakes (Task.emplace kind e make) [] := by
  have hwf := h.keeps.wf
  by_cases he : e ∈ L.live
  · have haccepts := (h.accepts_iff e).mpr he
    have hnull := hwf.table.isNull_eq_false ((h.keeps.isValid_iff e).mpr he)
    have hstored := h.keeps.stored? kind e
    cases hv : L.value kind e with
    | some old =>
      rw [hv] at hstored
      have hplace := World.place_of_stored? hwf make hnull (Option.isSome_of_eq_some hstored)
      have hget := (h.registered kind).keeps.get? kind e
      rw [value_enlist, hv] at hget
      refine .inl ⟨(some old, false), [], L.enlist kind, by simp only [Ledger.emplace, if_pos he, hv],
        .of_achieves (h.registered kind) .nil (.of_step fun stack next => ?_)⟩
      show some (call _ (.emplace kind e make) next) = _
      simp only [call, on_world, if_pos haccepts, hplace, hget]
      rfl
    | none =>
      rw [hv] at hstored
      rcases World.place_cases hwf kind e make with
        ⟨cause, herror, hcause⟩ | ⟨-, hsome⟩ | ⟨v, id, rfl, -, hok, hplaced⟩
      · have hmake : ∃ cause', make = .error cause' := by
          rcases hcause with hnull' | hmake
          · rw [hnull] at hnull'
            cases hnull'
          · exact hmake
        obtain ⟨cause', rfl⟩ := hmake
        refine .inr ⟨by simp only [Ledger.emplace, if_pos he, hv], [],
          { m with world := (m.world.place kind e (.error cause')).2 }, cause, .nil,
          fun stack next => .of_step ?_⟩
        show some (call _ (.emplace kind e (.error cause')) next) = _
        simp only [call, on_world, if_pos haccepts, herror]
        rfl
      · rw [hstored] at hsome
        cases hsome
      · obtain ⟨host, hemplace⟩ :=
          achieves_emplace h.attends.heeded hwf haccepts hok hplaced.idOf?_self
        have hkeeps := World.keeps_placed h.keeps he hplaced (World.catalog_place m.world kind e _)
        have hbooks : Books { m with world := (m.world.place kind e (.ok v)).2, host }
            ((L.enlist kind).assign kind e (some v)) :=
          h.of_attuned hkeeps (World.attuned_place hwf.paired kind e _) rfl hplaced.entities
            (prefix_enlist L kind) (issued_enlist L kind) (connections_enlist L kind)
        rw [hkeeps.get?, value_assign_self] at hemplace
        exact .inl ⟨(some v, true), _, _, by simp only [Ledger.emplace, if_pos he, hv, construct],
          .of_achieves hbooks (hbooks.attends.matches_tell hplaced.idOf?_self .construct e
            hplaced.idOf?_self hkeeps.shows) hemplace⟩
  · have haccepts : m.world.accepts e = false := by
      rw [Bool.eq_false_iff, Ne, h.accepts_iff]
      exact he
    refine .inl ⟨(none, false), [], L, by simp only [Ledger.emplace, if_neg he],
      .of_achieves h .nil (.of_step fun stack next => ?_)⟩
    show some (call _ (.emplace kind e make) next) = _
    simp only [call, on_world, haccepts]
    rfl

/-- A component is put in place, or changed if there is one. -/
theorem accounts_emplaceOrReplace (h : m.Books L) (kind : Kind U) (e : Entity) (v : Value kind) :
    m.Accounts (Task.emplaceOrReplace kind e v) (L.emplaceOrReplace kind e v).1
      (L.emplaceOrReplace kind e v).2.1 (L.emplaceOrReplace kind e v).2.2 := by
  have hget := h.keeps.get? kind e
  refine .look ?_
  cases hv : L.value kind e with
  | some old =>
    have he : e ∈ L.live := h.keeps.owned (Option.isSome_of_eq_some hv)
    have hhas : m.world.has kind e = true := by rw [World.has, hget, hv]; rfl
    have hvalue : (L.patch kind e fun _ => v).2.2.value kind e = some v := by
      simp only [Ledger.patch, hv, value_assign_self]
    have hask : ∀ m' : Machine U σ, m'.Books (L.patch kind e fun _ => v).2.2 →
        m'.Accounts (do return (← Task.world).get? kind e) (some v) []
          (L.patch kind e fun _ => v).2.2 := fun m' hbooks => by
      rw [← hvalue, ← hbooks.keeps.get?]
      exact .ask hbooks fun w => w.get? kind e
    rw [if_pos hhas]
    simp only [Ledger.emplaceOrReplace, if_pos he, hv]
    rw [← List.append_nil (L.patch kind e fun _ => v).2.1]
    exact (accounts_patch h kind e fun _ => v).bind hask
  | none =>
    have hhas : m.world.has kind e = false := by rw [World.has, hget, hv]; rfl
    rw [if_neg (Bool.not_eq_true _ ▸ hhas)]
    rcases accounts_emplace h kind e (.ok v) with
      ⟨a, events, L', hledger, hemplace⟩ | ⟨hnone, -⟩
    · have hfirst := hemplace.map Prod.fst
      simp only [Ledger.emplace, hv] at hledger
      simp only [Ledger.emplaceOrReplace, hv]
      split at hledger
      · rename_i he
        rw [if_pos he]
        cases hledger
        exact hfirst
      · rename_i he
        rw [if_neg he]
        cases hledger
        exact hfirst
    · exact absurd hnone (emplace_ok_ne_none L kind e v)

/-! ## Connections -/

theorem heeded_connect (hwf : m.world.Wf) (h : m.Heeded) {kind : Kind U} {event : LifeEvent}
    {key : ConnectionKey} (hmade : (m.world.connect kind event).1 = .ok key)
    {handler : Handler U σ} (hreader : handler.IsReader) :
    Heeded { m with
      world := (m.world.connect kind event).2, handlers := m.handlers.push handler } := by
  obtain ⟨number, hboard⟩ := World.connections_connect hmade
  refine
    { size := ?_
      readers := fun body hbody => ?_
      active := fun k hk => ?_
      known := fun {j other k} hk => ?_ }
  · show (m.handlers.push handler).size = (m.world.connect kind event).2.board.connections.size
    rw [hboard, Array.size_push, h.size]
    exact (Array.size_push _).symm
  · rcases Array.mem_push.mp hbody with hold | rfl
    · exact h.readers body hold
    · exact hreader
  · rw [Array.size_push] at hk
    rcases Nat.lt_succ_iff_lt_or_eq.mp hk with hlt | rfl
    · rw [Switchboard.isActive, connection?_connect hmade (h.size ▸ hlt)]
      exact h.active k hlt
    · rw [h.size]
      exact World.isActive_connect hmade
  · rw [Array.size_push]
    rcases World.mem_slots_connect hwf.paired hmade hk with hk | hk
    · exact Nat.lt_succ_of_lt (h.known hk)
    · rw [hk, ← h.size]
      exact Nat.lt_succ_self _

/-- Connections are numbered by the ledger, whether the kind was in use or not. -/
theorem Books.number (h : m.Books L) (kind : Kind U) {other : Kind U} {id : ComponentId}
    (hid : (m.world.register kind).2.idOf? other = some id) (event : LifeEvent) :
    (m.world.number id event).toNat = L.connections.count (other, event) := by
  have hnumbered := (h.registered kind).attends.numbered hid event
  rw [connections_enlist] at hnumbered
  rw [← hnumbered]
  exact congrArg UInt32.toNat (World.number_register h.keeps.wf.paired kind id event).symm

/-- The listeners of a kind are those of the ledger, whether the kind was in use or not. -/
theorem Books.slots (h : m.Books L) (kind : Kind U) {other : Kind U} {id : ComponentId}
    (hid : (m.world.register kind).2.idOf? other = some id) (event : LifeEvent) :
    m.world.slots id event = L.hearers other event := by
  have hregistered := h.registered kind
  have hheard := hregistered.attends.hearers hid event
  rw [hregistered.attends.heeded.listeners_eq_slots] at hheard
  rw [← World.slots_register h.keeps.wf.paired kind]
  refine hheard.trans ?_
  rw [Ledger.hearers, connections_enlist, Ledger.hearers]

/-- A handler that only reads is connected. -/
theorem Books.connected (h : m.Books L) {kind : Kind U} {event : LifeEvent} {key : ConnectionKey}
    (hmade : (m.world.connect kind event).1 = .ok key) (handler : Handler U σ)
    (hreader : handler.IsReader) :
    Books { m with
      world := (m.world.connect kind event).2, handlers := m.handlers.push handler }
      (L.connect kind event) := by
  have hwf := h.keeps.wf
  have hheeded := h.attends.heeded
  have hheeded' := heeded_connect hwf hheeded hmade hreader
  have hself := World.idOf?_register_self m.world kind
  -- the signal that is connected to is the one of the kind and the event
  have hsignal : ∀ {other : Kind U} {id : ComponentId} {event' : LifeEvent},
      (m.world.register kind).2.idOf? other = some id →
      (id = (m.world.register kind).1 ∧ event' = event ↔ (kind, event) = (other, event')) := by
    intro other id event' hid
    constructor
    · rintro ⟨rfl, rfl⟩
      rw [World.eq_of_idOf? hid hself]
    · rintro ⟨⟩
      rw [hself] at hid
      exact ⟨(Option.some.inj hid).symm, rfl⟩
  refine
    { keeps := World.keeps_connect h.keeps kind event
      attends :=
        { heeded := hheeded'
          size := ?_
          hearers := fun {other id} hid event' => ?_
          enlisted := fun p hp => ?_
          numbered := fun {other id} hid event' => ?_ }
      idle := h.idle
      entered := (h.registered kind).entered }
  · rw [Array.size_push, h.attends.size, Ledger.connect, List.length_append]
    rfl
  · have hkept : (m.world.slots id event').filter m.world.board.isConnected =
        m.world.slots id event' :=
      List.filter_eq_self.mpr fun k hk => hheeded.isConnected hk
    rw [hheeded'.listeners_eq_slots, hearers_connect, ← h.slots kind hid, ← h.attends.size,
      hheeded.size]
    refine (World.slots_connect hwf.paired hmade id event').trans ?_
    rw [hkept]
    by_cases hother : (kind, event) = (other, event')
    · rw [if_pos ((hsignal hid).mpr hother), if_pos hother]
    · rw [if_neg fun hc => hother ((hsignal hid).mp hc), if_neg hother, List.append_nil]
  · rcases List.mem_append.mp hp with hold | hnew
    · exact (prefix_enlist L kind).subset (h.attends.enlisted p hold)
    · rw [List.mem_singleton.mp hnew]
      exact mem_kinds_enlist L kind
  · refine (World.number_connect hwf.paired hmade id event').trans ?_
    rw [h.number kind hid, Ledger.connect, List.count_append, List.count_singleton]
    by_cases hother : (kind, event) = (other, event')
    · rw [if_pos ((hsignal hid).mpr hother), if_pos (beq_iff_eq.mpr hother)]
    · rw [if_neg fun hc => hother ((hsignal hid).mp hc),
        if_neg fun hc => hother (beq_iff_eq.mp hc), Nat.add_zero]

/-- A handler is connected, unless every number for the signal was given. -/
theorem accounts_connect (h : m.Books L) (kind : Kind U) (event : LifeEvent)
    {handler : ConnectionKey → Entity → Script U σ} (hreader : ∀ key e, (handler key e).ReadOnly) :
    m.Accounts (Task.connect kind event handler) (L.connections.length : ConnectionKey) []
        (L.connect kind event) ∨
      L.connections.count (kind, event) = 2 ^ 32 - 1 ∧
        m.Forsakes (Task.connect kind event handler) [] := by
  cases hmade : (m.world.connect kind event).1 with
  | ok key =>
    obtain ⟨rfl, -⟩ := World.connect_ok hmade
    rw [← h.attends.size, h.attends.heeded.size]
    have hbooks := h.connected hmade (.script (handler m.world.board.connections.size)) (hreader _)
    refine .inl (.of_achieves hbooks .nil (.of_step fun stack next => ?_))
    show some (runScript _ (.connect kind event handler next)) = _
    simp only [runScript, addHandler, on_world, hmade]
    rfl
  | error cause =>
    have hfull := World.number_of_connect_error h.keeps.wf.paired hmade
    rw [h.number kind (World.idOf?_register_self m.world kind)] at hfull
    refine .inr ⟨Nat.eq_sub_of_add_eq hfull, [],
      { m with world := (m.world.connect kind event).2 }, cause, .nil,
      fun stack next => .of_step ?_⟩
    show some (runScript _ (.connect kind event handler next)) = _
    simp only [runScript, addHandler, on_world, hmade]
    rfl

/-! ## All operations -/

/-- An operation is answered as the ledger says, or abandoned where the ledger has no answer. -/
theorem accounts_op (h : m.Books L) (op : Op U σ) (hop : op.IsReader) :
    (∃ a events L', L.Step op a events L' ∧ m.Accounts op.task a events L') ∨
      L.Refuses op ∧ m.Forsakes op.task [] := by
  cases op with
  | create =>
    rcases accounts_create h with ⟨e, hadmits, haccounts⟩ | hrefused
    · exact .inl ⟨e, [], L.enter e, ⟨hadmits, rfl, rfl⟩, haccounts⟩
    · exact .inr hrefused
  | destroy e => exact .inl ⟨_, _, _, rfl, accounts_destroy h e⟩
  | clear => exact .inl ⟨_, _, _, rfl, accounts_clear h⟩
  | register kind => exact .inl ⟨_, _, _, ⟨rfl, rfl, rfl⟩, accounts_register h kind⟩
  | emplace kind e make => exact accounts_emplace h kind e make
  | emplaceOrReplace kind e v => exact .inl ⟨_, _, _, rfl, accounts_emplaceOrReplace h kind e v⟩
  | replace kind e v => exact .inl ⟨_, _, _, rfl, accounts_patch h kind e _⟩
  | patch kind e f => exact .inl ⟨_, _, _, rfl, accounts_patch h kind e f⟩
  | remove kind e => exact .inl ⟨_, _, _, ⟨rfl, rfl⟩, (accounts_take h kind e).map Option.isSome⟩
  | take kind e => exact .inl ⟨_, _, _, rfl, accounts_take h kind e⟩
  | get kind e =>
    exact .inl ⟨_, _, _, ⟨h.keeps.get? kind e, rfl, rfl⟩, .ask h fun w => w.get? kind e⟩
  | has kind e =>
    exact .inl ⟨_, _, _, ⟨congrArg Option.isSome (h.keeps.get? kind e), rfl, rfl⟩,
      .ask h fun w => w.has kind e⟩
  | isOrphan e =>
    exact .inl ⟨_, _, _, ⟨h.keeps.isOrphan e, rfl, rfl⟩, .ask h fun w => w.isOrphan e⟩
  | entities => exact .inl ⟨_, _, _, ⟨h.keeps.handles, rfl, rfl⟩, .ask h World.handles⟩
  | entityAt index =>
    exact .inl ⟨_, _, _, ⟨h.keeps.entityAt? index, rfl, rfl⟩, .ask h fun w => w.entityAt? index⟩
  | connect kind event handler =>
    rcases accounts_connect h kind event hop with haccounts | hrefused
    · exact .inl ⟨_, _, _, ⟨rfl, rfl, rfl⟩, haccounts⟩
    · exact .inr hrefused

/-- A list of operations is answered as the ledger says, up to the first that it refuses. -/
theorem accounts_serve (h : m.Books L) {ops : List (Op U σ)} (hops : ∀ op ∈ ops, op.IsReader) :
    (∃ answers events L', L.Run ops answers events L' ∧
        m.Accounts (Op.serve ops) answers events L') ∨
      ∃ served op rest answers events L', ops = served ++ op :: rest ∧
        L.Run served answers events L' ∧ L'.Refuses op ∧ m.Forsakes (Op.serve ops) events := by
  induction ops generalizing m L with
  | nil => exact .inl ⟨[], [], L, .nil L, .pure h []⟩
  | cons op ops ih =>
    obtain ⟨hop, hops⟩ := List.forall_mem_cons.mp hops
    rcases accounts_op h op hop with ⟨a, events, L', hstep, haccounts⟩ | ⟨hrefuses, hforsakes⟩
    · obtain ⟨calls, m', hbooks, hmatches, hachieves⟩ := haccounts
      rcases ih hbooks hops with
        ⟨answers, events', L'', hrun, hrest⟩ |
          ⟨served, op', rest, answers, events', L'', rfl, hrun, hrefuses, hrest⟩
      · exact .inl ⟨_, _, L'', .cons hstep hrun, .after hachieves hmatches (hrest.map _)⟩
      · exact .inr ⟨op :: served, op', rest, _, _, L'', rfl, .cons hstep hrun, hrefuses,
          .after hachieves hmatches hrest.bind⟩
    · exact .inr ⟨[], op, ops, [], [], L, rfl, .nil L, hrefuses, hforsakes.bind⟩

/-! ## From an empty world on -/

omit [DecidableEq U] in
theorem heeded_empty (host : σ) : Heeded ({ host } : Machine U σ) :=
  { size := rfl
    readers := fun handler hhandler => absurd hhandler (Array.not_mem_empty handler)
    active := fun k hk => absurd hk (Nat.not_lt_zero k)
    known := fun {j event k} hk => by cases event <;> cases hk }

/-- Nothing was done, and nothing is entered. -/
theorem books_empty (host : σ) : Books ({ host } : Machine U σ) .empty :=
  { keeps := World.keeps_empty
    attends :=
      { heeded := heeded_empty host
        size := rfl
        hearers := fun hid => by
          rw [World.keeps_empty.idOf?_iff] at hid
          cases hid
        enlisted := fun p hp => by cases hp
        numbered := fun hid => by
          rw [World.keeps_empty.idOf?_iff] at hid
          cases hid }
    idle := fun x => by
      rw [Bool.eq_false_iff]
      intro hx
      have hvalid := World.isValid_of_isDestroying hx
      rw [World.keeps_empty.isValid_iff] at hvalid
      cases hvalid
    entered := fun _ => ⟨_, Entity.Table.entered_empty⟩ }

/-- Whatever is done to entities and components where handlers only read, every answer and every
call of a handler is the one of the ledger. The first operation for which the ledger has no
answer is abandoned. -/
theorem registries_keep_ledgers (host : σ) {ops : List (Op U σ)}
    (hops : ∀ op ∈ ops, op.IsReader) :
    (∃ answers events L, Ledger.empty.Run ops answers events L ∧
        ({ host } : Machine U σ).Accounts (Op.serve ops) answers events L) ∨
      ∃ served op rest answers events L, ops = served ++ op :: rest ∧
        Ledger.empty.Run served answers events L ∧ L.Refuses op ∧
        ({ host } : Machine U σ).Forsakes (Op.serve ops) events :=
  accounts_serve (books_empty host) hops

/-- An entity is created, is given links, and is destroyed while somebody counts the links that
are removed. -/
def shortLife : List (Op Empty Nat) :=
  [.connect .node .destroy fun _ _ => .note (· + 1) .done, .create,
    .emplace .node ⟨0, .initial⟩ (.ok .isolated), .destroy ⟨0, .initial⟩]

theorem registries_keep_ledgers_shortLife :
    (∀ op ∈ shortLife, op.IsReader) ∧
      ∃ answers events L, Ledger.empty.Run shortLife answers events L ∧
        ({ host := 0 } : Machine Empty Nat).Accounts (Op.serve shortLife) answers events L := by
  have hreaders : ∀ op ∈ shortLife, op.IsReader := by
    simp only [shortLife, List.forall_mem_cons]
    exact ⟨fun _ _ => .note .done, trivial, trivial, trivial, fun op hop => by cases hop⟩
  refine ⟨hreaders, (registries_keep_ledgers 0 hreaders).resolve_right ?_⟩
  rintro ⟨served, op, rest, answers, events, L, hops, hrun, hrefuses, -⟩
  rw [shortLife] at hops
  rcases List.cons_eq_append_iff.mp hops with ⟨rfl, hfirst⟩ | ⟨served, rfl, hops₁⟩
  · -- nobody is connected yet when the handler is
    cases hfirst
    cases hrun
    have hfull : ([] : List (Kind Empty × LifeEvent)).count (.node, .destroy) = 2 ^ 32 - 1 := hrefuses
    cases hfull
  rcases List.cons_eq_append_iff.mp hops₁ with ⟨rfl, hfirst⟩ | ⟨served, rfl, hops₂⟩
  · -- nobody is there yet when the entity is created
    cases hfirst
    cases hrun with
    | cons hconnect hnone =>
      cases hnone
      obtain ⟨-, -, rfl⟩ := hconnect
      cases hrefuses
  rcases List.cons_eq_append_iff.mp hops₂ with ⟨rfl, hfirst⟩ | ⟨served, rfl, hops₃⟩
  · cases hfirst
    exact emplace_ok_ne_none L .node ⟨0, .initial⟩ .isolated hrefuses
  rcases List.cons_eq_append_iff.mp hops₃ with ⟨rfl, hfirst⟩ | ⟨served, rfl, hops₄⟩
  · cases hfirst
    exact hrefuses
  · exact absurd hops₄ (by simp)

end Machine

end EntityScene
