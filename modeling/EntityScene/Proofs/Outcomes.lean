import EntityScene.Proofs.Lives
import EntityScene.Proofs.Refusals

/-!
# Done edits did what was asked

Where links are damaged there is more than one way for an edit to be done: the parent of a node may
be gone, or on its way out, and a node may be where it should be already. Every way that an edit
takes ends with the links that were asked for, and it has to bring that about by itself, as nothing
is known of the links before. The one exception is a move to the parent that a node names already.
It is done at once, and whether that parent is still there, or lists the node, is not looked at.

- `World.Joined`, `World.Severed`: the links that were asked for.
- `Machine.Establishes`: a task is refused and nothing has changed, or it has brought something
  about.
- `Attached.joined`, `Detached.severed`: the two kinds of edits.
- `Machine.done_edits_did_what_was_asked`: all edits, and when a move is one of them.
- `Machine.move_under_a_parent_that_is_gone`: a move that is done and finds no parent.
-/

namespace EntityScene

variable {U σ : Type} [SceneFamily U] [DecidableEq U]

namespace World

/-- Both sides of a link are there, and the parent is one that stays. -/
structure Joined (w : World (Kind U)) (p c : Entity) : Prop where
  valid : w.isValid p = true
  stays : w.isDestroying p = false
  hasLinks : (w.node? p).isSome
  child : c ∈ w.childrenOf p
  parent : w.parentOf? c = some p

/-- The child is a root, and the parent does not list it. -/
structure Severed (w : World (Kind U)) (p c : Entity) : Prop where
  child : c ∉ w.childrenOf p
  parent : w.parentOf? c = none

/-- Whoever is not valid lists nobody. -/
theorem nodup_childrenOf {w : World (Kind U)} (hwf : w.entities.Wf)
    (h : ∀ p ∈ w.handles, (w.childrenOf p).Nodup) (p : Entity) : (w.childrenOf p).Nodup := by
  by_cases hp : w.isValid p = true
  · exact h p ((Entity.Table.mem_toList_iff hwf).mpr hp)
  · rw [childrenOf_of_not_isValid (Bool.eq_false_iff.mpr hp)]
    exact List.nodup_nil

end World

namespace Machine

variable {m m' m₁ : Machine U σ} {c p q : Entity} {place : TreeNode → Nat}
variable {post : World (Kind U) → Prop}

/-! ## What was asked for -/

/-- The task comes to its end. Where it is refused nothing has changed, and where it is done the
world is as the condition says. -/
structure Establishes {α : Type} (m : Machine U σ) (task : Task U σ (Except EditError α))
    (post : World (Kind U) → Prop) : Prop extends AllOrNothing m task where
  done : ∀ {tr m' a}, m.Performs task tr m' (.ok a) → post m'.world

theorem Decides.establishes {α : Type} {task : Task U σ (Except EditError α)}
    {done : Machine U σ → Prop} (h : m.Decides task done)
    (hpost : ∀ m', done m' → post m'.world) : m.Establishes task post := by
  refine { h.allOrNothing with done := fun {tr m' a} hperform => ?_ }
  cases h with
  | refused refusal hrefused => cases hperform.answer_unique hrefused
  | done hdone hm' =>
    obtain rfl := Except.ok.inj (hperform.answer_unique hdone)
    rw [(hperform.unique hdone).2, on_world]
    exact hpost _ hm'

/-! ## Links that were made and cut -/

/-- Both sides of a link were changed, so it is there. -/
theorem Attached.joined (h : m.Attached p c (fun node => node.insertChild (place node) c) m')
    (hwf : m.world.entities.Wf) : m'.world.Joined p c := by
  obtain ⟨hcheck, m₁, hp, hc⟩ := h
  obtain ⟨hne, ⟨above, habove⟩, ⟨below, hbelow, -⟩, -⟩ :=
    (World.checkLink_eq_ok_iff _ _ _).mp hcheck
  obtain ⟨haccepts, hparent⟩ := (World.nodeOf_eq_ok_iff _ _ _).mp habove
  -- the parent's side comes first, and leaves the child as it was checked
  have hchild : m₁.world.node? c = some below := by
    rw [hp.node?, if_neg hne.symm]
    exact ((World.nodeOf_eq_ok_iff _ _ _).mp hbelow).2
  obtain ⟨hvalid, hstays⟩ := (World.accepts_iff _ _).mp haccepts
  have hentities : m'.world.entities = m.world.entities := hc.entities.trans hp.entities
  refine
    { valid := (World.isValid_congr hentities p).trans hvalid
      stays := ?_
      hasLinks := ?_
      child := ?_
      parent := (World.parentOf?_eq_some_iff (hc.node?_self hchild)).mpr
        ⟨rfl, hwf.isNull_eq_false hvalid⟩ }
  · rw [World.isDestroying, hentities]
    exact hstays
  · rw [hc.isSome_node?, hp.node?_self hparent]
    rfl
  · rw [hc.childrenOf fun _ => rfl, World.childrenOf, hp.node?_self hparent]
    exact (TreeNode.mem_children_insertChild ..).mpr (.inl rfl)

/-- Neither side of the link is left when a node was taken from its parent. -/
theorem Detached.severed (h : m.Detached c m') (hp : m.world.parentOf? c = some p)
    (hnodup : (m.world.childrenOf p).Nodup) : m'.world.Severed p c :=
  { child := h.left p hp hnodup
    parent := h.root }

theorem establishes_joined (h : m.Watched) (hwf : m.world.entities.Wf) (p c : Entity)
    (place : TreeNode → Nat) :
    m.Establishes (Task.link p c fun node => node.insertChild (place node) c) (·.Joined p c) :=
  (decides_link h p c _).establishes fun _ hm' => hm'.joined hwf

/-- Who is taken from a parent had it as its own. -/
theorem establishes_severed (h : m.Watched) (hwf : m.world.entities.Wf)
    (hnodup : ∀ p, (m.world.childrenOf p).Nodup) (p c : Entity) :
    m.Establishes (Task.removeChild p c) (·.Severed p c) := by
  cases hcheck : m.world.checkUnlink p c with
  | error refusal =>
    have hrefused : m.Decides (Task.removeChild p c) fun _ => False :=
      .refused refusal (performs_removeChild_refused hcheck)
    exact hrefused.establishes fun _ hm' => hm'.elim
  | ok _ =>
    obtain ⟨tr, m', hm', hperform⟩ := performs_removeChild h hcheck
    have hdone : m.Decides (Task.removeChild p c) (m.Detached c) := .done hperform hm'
    have hp := World.checkUnlink_ok hwf hcheck
    exact hdone.establishes fun _ hm' => hm'.severed hp (hnodup p)

/-- A move to the parent that a node names already is done, and nothing is looked at. -/
theorem performs_reparent_of_parentOf? (hp : m.world.parentOf? c = some q) :
    m.Performs (Task.reparent c q) [] m (.ok ()) := by
  refine .look ?_
  show m.Performs (if m.world.parentOf? c = some q then _ else _) _ _ _
  rw [if_pos hp]
  exact .pure m _

theorem establishes_reparent (h : m.Watched) (hwf : m.world.entities.Wf)
    (hjoined : m.world.parentOf? c = some q → m.world.Joined q c) :
    m.Establishes (Task.reparent c q) (·.Joined q c) := by
  by_cases hp : m.world.parentOf? c = some q
  · -- nothing is looked at, so the link is whole only if it was
    have hdone : m.Decides (Task.reparent c q) (· = m) :=
      .done (performs_reparent_of_parentOf? hp) rfl
    exact hdone.establishes fun _ hm' => hm' ▸ hjoined hp
  · refine (decides_reparent h c q).establishes fun m' hm' => ?_
    obtain ⟨m₁, hm₁, hattached⟩ := hm' hp
    exact hattached.joined (hm₁.loosened.entities ▸ hwf)

/-- **Done edits did what was asked.** The links may be damaged in any way, but nobody is listed
twice by one parent. Whoever reads them, an edit of the tree comes to its end, and where it is
refused nothing has changed. If a node was put under a parent, that parent is valid, is not being
destroyed, has links and lists the node, and the node names it. If a node was taken from a parent or
detached, it is a root and its parent does not list it. All this holds of a move, unless the node
names the new parent already: then it holds afterwards if it held before. -/
theorem done_edits_did_what_was_asked (m : Machine U σ) (h : m.Watched)
    (hwf : m.world.entities.Wf) (hnodup : ∀ p, (m.world.childrenOf p).Nodup) :
    (∀ p c position, m.Establishes (Task.insertChild p c position) (·.Joined p c)) ∧
      (∀ p c, m.Establishes (Task.appendChild p c) (·.Joined p c)) ∧
      (∀ p c, m.Establishes (Task.removeChild p c) (·.Severed p c)) ∧
      (∀ c, m.Establishes (Task.detach c) fun w =>
        w.parentOf? c = none ∧ ∀ p, m.world.parentOf? c = some p → c ∉ w.childrenOf p) ∧
      (∀ c q, m.Establishes (Task.reparent c q) (·.Joined q c) ↔
        (m.world.parentOf? c = some q → m.world.Joined q c)) := by
  refine ⟨fun p c position => establishes_joined h hwf p c fun _ => position,
    fun p c => establishes_joined h hwf p c fun node => node.children.length,
    establishes_severed h hwf hnodup, fun c => ?_,
    fun c q => ⟨fun hmove hp => ?_, establishes_reparent h hwf⟩⟩
  · exact (decides_detach h c).establishes fun m' hm' =>
      ⟨hm'.root, fun p hp => hm'.left p hp (hnodup p)⟩
  · exact hmove.done (performs_reparent_of_parentOf? hp)

/-- No entity comes or goes when a handler is connected. -/
theorem entities_addHandler (m : Machine U σ) (kind : Kind U) (event : LifeEvent)
    (handler : ConnectionKey → Handler U σ) :
    (m.addHandler kind event handler).2.world.entities = m.world.entities := by
  rcases m.addHandler_cases kind event handler with ⟨key, -, hmade⟩ | ⟨cause, -, hmade⟩
  · rw [hmade]
    rfl
  · rw [hmade]
    rfl

/-- The second node of the tangle is its own parent and its own child. It can be moved
under the first, and it can be detached from itself. -/
theorem done_edits_did_what_was_asked_tangled :
    (tangled.Watched ∧ tangled.world.entities.Wf ∧ ∀ p, (tangled.world.childrenOf p).Nodup) ∧
      (∃ tr m, tangled.Performs (Task.reparent ⟨1, .initial⟩ ⟨0, .initial⟩) tr m (.ok ()) ∧
        m.world.Joined ⟨0, .initial⟩ ⟨1, .initial⟩) ∧
      ∃ tr m old, tangled.Performs (Task.detach ⟨1, .initial⟩) tr m (.ok old) ∧
        m.world.parentOf? ⟨1, .initial⟩ = none ∧
        ⟨1, .initial⟩ ∉ m.world.childrenOf ⟨1, .initial⟩ := by
  have hwf : tangled.world.entities.Wf := by
    rw [tangled, entities_addHandler]
    exact wf_entities_run 0 tangling 60
  have hnodup : ∀ p, (tangled.world.childrenOf p).Nodup :=
    World.nodup_childrenOf hwf (by decide +kernel)
  obtain ⟨-, -, -, hdetach, hreparent⟩ :=
    done_edits_did_what_was_asked tangled watched_tangled hwf hnodup
  refine ⟨⟨watched_tangled, hwf, hnodup⟩, ?_, ?_⟩
  · have hmove := (hreparent ⟨1, .initial⟩ ⟨0, .initial⟩).mpr fun hp =>
      absurd hp (by decide +kernel)
    obtain ⟨tr, m, a, hperform⟩ := hmove.ends
    have hok : a.isOk = true :=
      hperform.answer_of_run (n := 60) (p := Except.isOk) (by decide +kernel)
    cases a with
    | error refusal => cases hok
    | ok _ => exact ⟨tr, m, hperform, hmove.done hperform⟩
  · obtain ⟨tr, m, a, hperform⟩ := (hdetach ⟨1, .initial⟩).ends
    have hok : a.isOk = true :=
      hperform.answer_of_run (n := 60) (p := Except.isOk) (by decide +kernel)
    cases a with
    | error refusal => cases hok
    | ok old =>
      obtain ⟨hroot, hleft⟩ := (hdetach ⟨1, .initial⟩).done hperform
      exact ⟨tr, m, old, hperform, hroot, hleft _ (by decide +kernel)⟩

end Machine

/-- Two nodes, a parent and its child, without a cascade. The parent is destroyed. -/
def bereaving : Script Empty Unit :=
  Task.toScript do
    let parent ← Task.spawnNode
    let _ ← Task.spawnChild parent
    let _ ← Task.destroy parent

/-- The machine with the child. -/
def bereaved : Machine Empty Unit := (Machine.start () bereaving).run 60

/-- **A move under a parent that is gone.** A node whose parent is gone is moved under that parent, and
the move is done, although to put a node under a parent that is not valid is refused. Nothing has
changed afterwards, and the node still names a parent that is not there. -/
theorem Machine.move_under_a_parent_that_is_gone :
    bereaved.Watched ∧ bereaved.world.entities.Wf ∧
      (∀ p, (bereaved.world.childrenOf p).Nodup) ∧
      bereaved.Performs (Task.reparent ⟨1, .initial⟩ ⟨0, .initial⟩) [] bereaved (.ok ()) ∧
      ¬ bereaved.world.Joined ⟨0, .initial⟩ ⟨1, .initial⟩ := by
  have hwf : bereaved.world.entities.Wf := wf_entities_run () bereaving 60
  refine ⟨watched_of_readers fun {id key handler} hid hkey _ => ?_, hwf,
    World.nodup_childrenOf hwf (by decide +kernel),
    performs_reparent_of_parentOf? (by decide +kernel), fun hjoined => ?_⟩
  · have hnode : bereaved.world.idOf? .node = some 0 := by decide +kernel
    have hnobody : bereaved.world.listeners 0 .update = [] := by decide +kernel
    rw [hnode] at hid
    obtain rfl := Option.some.inj hid
    rw [hnobody] at hkey
    cases hkey
  · have hgone : bereaved.world.isValid ⟨0, .initial⟩ = false := by decide +kernel
    exact Bool.false_ne_true (hgone.symm.trans hjoined.valid)

end EntityScene
