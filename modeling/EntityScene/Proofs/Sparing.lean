import EntityScene.Program.Edit
import EntityScene.Proofs.Windows

/-!
# Edits of the tree leave entities alone that are being destroyed

An edit checks first, and then makes calls that handlers may interrupt. An entity that was
being destroyed when the edit began is refused by the checks; from there on the entity is
still being destroyed or gone, so what the edit does itself gives it no child and no parent.

- `Edit`: the edits of the tree.
- `Task.Spares`, `Edit.spares`: a task that leaves closed entities alone, whatever its calls
  answer. All edits do.
- `Machine.Amid`: a step that is a task's own, between its calls.
- `spared_of_amid`: what a task's own steps do to closed entities.
- `Machine.destructions_hold`: what holds while an entity is being destroyed.
-/

namespace EntityScene

/-! ## Changes that only take links away -/

/-- The links after a change are among those before. -/
structure TreeNode.Loosens (f : TreeNode → TreeNode) : Prop where
  children : ∀ n, (f n).children.Sublist n.children
  parent : ∀ n, (f n).parent = n.parent ∨ (f n).parent.isNull = true

namespace TreeNode

theorem loosens_dropChild (child : Entity) : Loosens (·.dropChild child) :=
  ⟨fun _ => List.filter_sublist, fun _ => .inl rfl⟩

theorem loosens_removeChild (child : Entity) : Loosens (·.removeChild child) :=
  ⟨fun _ => List.erase_sublist, fun _ => .inl rfl⟩

theorem loosens_setParent_null : Loosens (·.setParent .null) :=
  ⟨fun _ => List.Sublist.refl _, fun _ => .inr rfl⟩

/-- A change of the links of an entity that gives no links to closed entities, and no closed
entity as a child to anybody. -/
structure Spares (closed : Entity → Prop) (e : Entity) (f : TreeNode → TreeNode) : Prop where
  loosens : closed e → Loosens f
  children : ∀ {n x}, closed x → x ∈ (f n).children → x ∈ n.children

theorem Loosens.spares {f : TreeNode → TreeNode} (h : Loosens f) (closed : Entity → Prop)
    (e : Entity) : Spares closed e f :=
  ⟨fun _ => h, fun _ hx => (h.children _).subset hx⟩

end TreeNode

variable {U σ : Type} [SceneFamily U]

/-- An entity got no child and no parent that it did not have. -/
structure World.Spared [DecidableEq U] (w w' : World (Kind U)) (e : Entity) : Prop where
  children : (w'.childrenOf e).Sublist (w.childrenOf e)
  parent : ∀ {p}, w'.parentOf? e = some p → w.parentOf? e = some p

/-! ## Tasks that leave closed entities alone -/

/-- The call gives no links to closed entities, if these accept no components, and does not
list them as children. -/
def Call.Spares (closed : Entity → Prop) : Call U → Prop
  | .emplace .node _ (.ok node) => ∀ x ∈ node.children, ¬ closed x
  | .create | .destroy _ | .emplace .. => True
  | .patch .node e f => TreeNode.Spares closed e f
  | _ => False

/-- Up to where it goes on with something given, the script gives no links to closed
entities, whatever its calls are answered and as long as these accept no components. -/
inductive Script.Spares (closed : Entity → Prop) (ended : Script U σ → Prop) : Script U σ → Prop
  | ended {script : Script U σ} (h : ended script) : Spares closed ended script
  | inspect {next : World (Kind U) → σ → Script U σ}
      (h : ∀ w host, (∀ x, closed x → w.accepts x = false) → Spares closed ended (next w host)) :
      Spares closed ended (.inspect next)
  | call {c : Call U} {next : c.Reply → Script U σ} (hc : c.Spares closed)
      (h : ∀ r, Spares closed ended (next r)) : Spares closed ended (.call c next)

/-- The task gives no links to closed entities. -/
def Task.Spares {α : Type} (task : Task U σ α) (closed : Entity → Prop) : Prop :=
  ∀ (next : α → Script U σ) (ended : Script U σ → Prop),
    (∀ a, (next a).Spares closed ended) → (task next).Spares closed ended

namespace Task

variable {α β : Type} {closed : Entity → Prop}

theorem Spares.pure (a : α) : (pure a : Task U σ α).Spares closed :=
  fun _ _ h => h a

theorem Spares.bind {task : Task U σ α} {f : α → Task U σ β} (ht : task.Spares closed)
    (hf : ∀ a, (f a).Spares closed) : (task >>= f).Spares closed :=
  fun next ended h => ht _ ended fun a => hf a next ended h

theorem Spares.call {c : Call U} (hc : c.Spares closed) :
    (Task.call c : Task U σ c.Reply).Spares closed :=
  fun _ _ h => .call hc h

/-- Who looks at the world sees that closed entities accept no components. -/
theorem Spares.look {f : World (Kind U) → Task U σ α}
    (hf : ∀ w, (∀ x, closed x → w.accepts x = false) → (f w).Spares closed) :
    (world >>= f : Task U σ α).Spares closed :=
  fun next ended h => .inspect fun w _ hw => hf w hw next ended h

theorem Spares.patchNode {e : Entity} {f : TreeNode → TreeNode}
    (hf : TreeNode.Spares closed e f) : (patchNode e f : Task U σ Unit).Spares closed :=
  .bind (.call (c := .patch .node e f) hf) fun _ => .pure ()

end Task

/-! ## The edits -/

/-- The edits of the tree. -/
inductive Edit
  | spawnNode
  | spawnChild (parent : Entity)
  | insertChild (parent child : Entity) (position : Nat)
  | appendChild (parent child : Entity)
  | removeChild (parent child : Entity)
  | detach (child : Entity)
  | reparent (child parent : Entity)

/-- What an edit answers. -/
def Edit.Answer : Edit → Type
  | spawnNode => Entity
  | spawnChild _ => Except EditError Entity
  | detach _ => Except EditError (Option Entity)
  | _ => Except EditError Unit

variable [DecidableEq U]

/-- What an edit does. -/
def Edit.task : (edit : Edit) → Task U σ edit.Answer
  | spawnNode => Task.spawnNode
  | spawnChild parent => Task.spawnChild parent
  | insertChild parent child position => Task.insertChild parent child position
  | appendChild parent child => Task.appendChild parent child
  | removeChild parent child => Task.removeChild parent child
  | detach child => Task.detach child
  | reparent child parent => Task.reparent child parent

/-- Links are made between entities that accept components. -/
theorem World.accepts_of_checkLink {w : World (Kind U)} {parent child : Entity}
    (h : w.checkLink parent child = .ok ()) :
    w.accepts parent = true ∧ w.accepts child = true := by
  obtain ⟨-, ⟨above, hp⟩, ⟨below, hc, -⟩, -⟩ := (checkLink_eq_ok_iff w parent child).mp h
  exact ⟨((nodeOf_eq_ok_iff _ _ _).mp hp).1, ((nodeOf_eq_ok_iff _ _ _).mp hc).1⟩

namespace Task

variable {closed : Entity → Prop}

theorem spares_link (parent child : Entity) {enter : TreeNode → TreeNode}
    (henter : ∀ node x, x ∈ (enter node).children → x = child ∨ x ∈ node.children) :
    (link parent child enter : Task U σ _).Spares closed := by
  refine .look fun w hw => ?_
  cases hcheck : w.checkLink parent child with
  | error refusal => exact .pure _
  | ok _ =>
    obtain ⟨hparent, hchild⟩ := World.accepts_of_checkLink hcheck
    have hopen : ∀ {x}, w.accepts x = true → ¬ closed x := fun hx hc => by
      rw [hw _ hc] at hx
      cases hx
    have hlisted : ∀ {n x}, closed x → x ∈ (enter n).children → x ∈ n.children :=
      fun hx hmem => (henter _ _ hmem).resolve_left fun heq => hopen hchild (heq ▸ hx)
    refine .bind (.patchNode ⟨fun hc => absurd hc (hopen hparent), hlisted⟩) fun _ => ?_
    exact .bind (.patchNode ⟨fun hc => absurd hc (hopen hchild), fun _ hx => hx⟩) fun _ => .pure _

theorem spares_insertChild (parent child : Entity) (position : Nat) :
    (insertChild parent child position : Task U σ _).Spares closed :=
  spares_link parent child fun node x hx =>
    (TreeNode.mem_children_insertChild node position child x).mp hx

theorem spares_appendChild (parent child : Entity) :
    (appendChild parent child : Task U σ _).Spares closed :=
  spares_link parent child fun node x hx =>
    (TreeNode.mem_children_insertChild node node.children.length child x).mp hx

theorem spares_removeChild (parent child : Entity) :
    (removeChild parent child : Task U σ _).Spares closed := by
  refine .look fun w _ => ?_
  cases w.checkUnlink parent child with
  | error refusal => exact .pure _
  | ok _ =>
    refine .bind (.patchNode ((TreeNode.loosens_removeChild child).spares closed _)) fun _ => ?_
    exact .bind (.patchNode (TreeNode.loosens_setParent_null.spares closed _)) fun _ => .pure _

theorem spares_detach (child : Entity) : (detach child : Task U σ _).Spares closed := by
  refine .look fun w _ => ?_
  cases w.nodeOf child with
  | error refusal => exact .pure _
  | ok node =>
    show Spares (if node.isRoot then _ else _) closed
    split
    · exact .pure _
    · split
      · exact .bind (.patchNode (TreeNode.loosens_setParent_null.spares closed _)) fun _ => .pure _
      · split
        · refine .bind (.patchNode ((TreeNode.loosens_dropChild child).spares closed _)) fun _ => ?_
          refine .bind (.patchNode (TreeNode.loosens_setParent_null.spares closed _)) fun _ => ?_
          exact .pure _
        · refine .bind (spares_removeChild node.parent child) fun removed => ?_
          cases removed with
          | error refusal => exact .pure _
          | ok _ => exact .pure _

theorem spares_reparent (child parent : Entity) :
    (reparent child parent : Task U σ _).Spares closed := by
  refine .look fun w _ => ?_
  show Spares (if w.parentOf? child = some parent then _ else _) closed
  split
  · exact .pure _
  · cases w.checkMove child parent with
    | error refusal => exact .pure _
    | ok _ =>
      refine .bind (spares_detach child) fun detached => ?_
      cases detached with
      | error refusal => exact .pure _
      | ok _ => exact spares_appendChild parent child

omit [DecidableEq U] in
theorem spares_spawnNode : (spawnNode : Task U σ Entity).Spares closed := by
  refine .bind (.call (c := .create) trivial) fun e => ?_
  have hisolated : (Call.emplace .node e (.ok TreeNode.isolated) : Call U).Spares closed :=
    fun x hx => by cases hx
  refine .bind (.call hisolated) fun _ => ?_
  refine .bind (.call (c := .emplace .transform e (.ok Transform.identity)) trivial) fun _ => ?_
  exact .pure _

theorem spares_spawnChild (parent : Entity) :
    (spawnChild parent : Task U σ _).Spares closed := by
  refine .look fun w _ => ?_
  cases w.nodeOf parent with
  | error refusal => exact .pure _
  | ok node =>
    refine .bind spares_spawnNode fun child => ?_
    refine .bind (spares_appendChild parent child) fun linked => ?_
    cases linked with
    | ok _ => exact .pure _
    | error refusal => exact .bind (.call (c := .destroy child) trivial) fun _ => .pure _

end Task

/-- Every edit leaves closed entities alone. -/
theorem Edit.spares (edit : Edit) (closed : Entity → Prop) :
    (edit.task : Task U σ edit.Answer).Spares closed := by
  cases edit with
  | spawnNode => exact Task.spares_spawnNode
  | spawnChild parent => exact Task.spares_spawnChild parent
  | insertChild parent child position => exact Task.spares_insertChild parent child position
  | appendChild parent child => exact Task.spares_appendChild parent child
  | removeChild parent child => exact Task.spares_removeChild parent child
  | detach child => exact Task.spares_detach child
  | reparent child parent => exact Task.spares_reparent child parent

/-! ## A task between its calls -/

/-- A script goes on that gives no links to closed entities, or one of its calls is in
progress, or it is left. -/
inductive Poised (closed : Entity → Prop) (ended : Script U σ → Prop) (base : List (Frame U σ)) :
    List (Frame U σ) → Control U σ → Prop
  | running {script : Script U σ} (h : script.Spares closed ended) :
      Poised closed ended base base (.run script)
  | leaving (cause : Abort) : Poised closed ended base base (.unwind cause)
  | calling {upper : List (Frame U σ)} {next : Bool → Script U σ} {control : Control U σ}
      (h : ∀ b, (next b).Spares closed ended) :
      Poised closed ended base (upper ++ .resume next :: base) control

omit [DecidableEq U] in
/-- A call has just been made. -/
theorem Poised.waiting {closed : Entity → Prop} {ended : Script U σ → Prop}
    {base : List (Frame U σ)} {next : Bool → Script U σ} {control : Control U σ}
    (h : ∀ b, (next b).Spares closed ended) :
    Poised closed ended base (.resume next :: base) control := by
  rw [← List.nil_append (_ :: base)]
  exact .calling h

omit [DecidableEq U] in
/-- With nothing on top of it the script goes on, or is left. -/
theorem Poised.top {closed : Entity → Prop} {ended : Script U σ → Prop}
    {base stack : List (Frame U σ)} {control : Control U σ}
    (h : Poised closed ended base stack control) (hstack : stack = base) :
    (∃ script, control = .run script ∧ script.Spares closed ended) ∨
      ∃ cause, control = .unwind cause := by
  cases h with
  | running h => exact .inl ⟨_, rfl, h⟩
  | leaving cause => exact .inr ⟨cause, rfl⟩
  | calling h =>
    have hlen := congrArg List.length hstack
    rw [List.length_append, List.length_cons] at hlen
    omega

namespace Machine

variable {m m' : Machine U σ} {closed : Entity → Prop} {ended : Script U σ → Prop}
variable {base : List (Frame U σ)}

/-- A call either answers at once or waits on a frame of its own. -/
theorem poised_call (hbase : m.stack = base) {c : Call U} {next : c.Reply → Script U σ}
    (hc : c.Spares closed) (h : ∀ r, (next r).Spares closed ended) :
    Poised closed ended base (m.call c next).stack (m.call c next).control := by
  subst hbase
  cases c with
  | create =>
    simp only [call]
    split
    · exact .running (h _)
    · exact .leaving _
  | destroy e => exact .waiting h
  | emplace kind e make =>
    simp only [call]
    split
    · split
      · exact .leaving _
      · exact .running (h _)
      · exact .waiting fun b => .inspect fun w _ _ => h _
    · exact .running (h _)
  | patch kind e f =>
    cases hp : m.patch? kind e f (.resume fun _ => next true) with
    | none =>
      simp only [call, hp, Option.getD_none]
      exact .running (h _)
    | some m' =>
      obtain ⟨id, v, -, -, rfl⟩ := patch?_eq_some hp
      simp only [call, hp, Option.getD_some]
      exact .waiting fun b => h _
  | _ => exact False.elim hc

/-- As long as nothing below is touched, and the script has not come to its end. -/
theorem poised_step (h : Poised closed ended base m.stack m.control) (hstep : m.step = some m')
    (hpending : m.stack = base → ∀ script, m.control = .run script → ¬ ended script)
    (hclosed : ∀ x, closed x → m.world.accepts x = false) (hsuf : base <:+ m'.stack) :
    Poised closed ended base m'.stack m'.control := by
  have hturn := (turn_of_step hstep).suffix_or_told
  generalize hstack : m.stack = stack at h
  generalize hcontrol : m.control = control at h
  cases h with
  | @running script h =>
    simp only [step, hcontrol, Option.some.injEq] at hstep
    subst hstep
    cases h with
    | ended hended => exact absurd hended (hpending hstack _ hcontrol)
    | @inspect next h =>
      have hstack' : (m.runScript (.inspect next)).stack = base := hstack
      rw [hstack']
      exact .running (h _ _ hclosed)
    | call hc h => exact poised_call hstack hc h
  | leaving cause =>
    -- the frame that is left next lies below
    cases hbefore : m.stack with
    | nil =>
      simp only [step, hcontrol, hbefore] at hstep
      cases hstep
    | cons frame rest =>
      simp only [step, hcontrol, hbefore, Option.some.injEq] at hstep
      subst hstep
      have hlen := hsuf.length_le
      rw [stack_abandon, ← hstack, hbefore, List.length_cons] at hlen
      exact absurd hlen (Nat.not_succ_le_self _)
  | @calling upper next control h =>
    -- whatever happens on top, the frame that waits is told something before it is gone
    rw [hstack] at hturn
    rcases hturn with ⟨new, hnew⟩ | ⟨frame, rest, hbefore, hrest, htold⟩
    · rw [← hnew, ← List.append_assoc]
      exact .calling h
    · cases upper with
      | nil =>
        obtain ⟨rfl, rfl⟩ := List.cons.inj hbefore
        rcases htold with ⟨b, -, rfl⟩ | ⟨cause, hc, rfl⟩
        · exact .running (h b)
        · show Poised closed ended base base m.control
          rw [hc]
          exact .leaving cause
      | cons g upper =>
        rw [List.cons_append] at hbefore
        obtain ⟨-, rfl⟩ := List.cons.inj hbefore
        obtain ⟨new, hnew⟩ := hrest
        rw [← hnew, ← List.append_assoc]
        exact .calling h

/-- Step `j` is a step of its own of the task that step `k` set out on: nothing waits on top
of the task, it was not left since, and it has not gone on with an answer. -/
structure Amid {α : Type} (m : Machine U σ) (task : Task U σ α) (next : α → Script U σ)
    (k j : Nat) : Prop where
  begun : (m.run k).control = .run (task next)
  le : k ≤ j
  above : ∀ i, k ≤ i → i ≤ j → (m.run k).stack <:+ (m.run i).stack
  top : (m.run j).stack = (m.run k).stack
  pending : ∀ i, k ≤ i → i ≤ j → (m.run i).stack = (m.run k).stack →
    ∀ a, (m.run i).control ≠ .run (next a)

/-- A task that gives no links to closed entities is poised until it goes on. -/
theorem poised_of_amid {α : Type} {task : Task U σ α} {next : α → Script U σ} {k j : Nat}
    (hamid : m.Amid task next k j) (htask : task.Spares closed)
    (hclosed : ∀ i, k ≤ i → i < j → ∀ x, closed x → (m.run i).world.accepts x = false) :
    Poised closed (fun script => ∃ a, script = next a) (m.run k).stack (m.run j).stack
      (m.run j).control := by
  obtain ⟨hbegun, hkj, habove, -, hpending⟩ := hamid
  induction hkj with
  | refl =>
    rw [hbegun]
    exact .running (htask next _ fun a => .ended ⟨a, rfl⟩)
  | @step j hkj ih =>
    have hpoised := ih (fun i hki hij => hclosed i hki (Nat.lt_succ_of_lt hij))
      (fun i hki hij => habove i hki (Nat.le_succ_of_le hij))
      (fun i hki hij => hpending i hki (Nat.le_succ_of_le hij))
    have hsuf := habove (j + 1) (Nat.le_succ_of_le hkj) (Nat.le_refl _)
    rcases run_succ_cases m j with heq | hstep
    · rw [heq]
      exact hpoised
    · refine poised_step hpoised hstep (fun hbase script hc => ?_)
        (hclosed j hkj (Nat.lt_succ_self j)) hsuf
      rintro ⟨a, rfl⟩
      exact hpending j hkj (Nat.le_succ j) hbase a hc

end Machine

namespace World.Spared

variable {w w' : World (Kind U)} {e : Entity}

theorem refl (w : World (Kind U)) (e : Entity) : w.Spared w e := ⟨.refl _, id⟩

theorem of_node? (h : w'.node? e = w.node? e ∨ w'.node? e = none) : w.Spared w' e := by
  rcases h with h | h
  · exact ⟨by rw [childrenOf, h, childrenOf], fun hp => by rw [parentOf?, h] at hp; exact hp⟩
  · exact ⟨by rw [childrenOf, h]; exact List.nil_sublist _,
      fun hp => by rw [parentOf?, h] at hp; cases hp⟩

theorem of_stored? (h : w'.stored? .node e = w.stored? .node e)
    (hage : w'.isValid e = true → w.isValid e = true) : w.Spared w' e := by
  refine of_node? ?_
  rw [node?, get?_eq_stored?, node?, get?_eq_stored?, h]
  by_cases hvalid : w'.isValid e = true
  · rw [if_pos hvalid, if_pos (hage hvalid)]
    exact .inl rfl
  · rw [if_neg hvalid]
    exact .inr rfl

theorem of_loosens {f : TreeNode → TreeNode} (hf : TreeNode.Loosens f)
    (h : w'.node? e = (w.node? e).map f) : w.Spared w' e := by
  cases hnode : w.node? e with
  | none =>
    rw [hnode] at h
    exact of_node? (.inr h)
  | some node =>
    rw [hnode, Option.map_some] at h
    refine ⟨?_, fun {p} hp => ?_⟩
    · rw [childrenOf, h, childrenOf, hnode]
      exact hf.children node
    · rw [parentOf?, h, Option.map_some, Option.filter_some] at hp
      rw [parentOf?, hnode, Option.map_some, Option.filter_some]
      rcases hf.parent node with hsame | hnull
      · rw [hsame] at hp
        exact hp
      · rw [hnull] at hp
        cases hp

end World.Spared

namespace Machine

variable {m m' : Machine U σ} {closed : Entity → Prop} {ended : Script U σ → Prop}
variable {base : List (Frame U σ)}

/-- A component that is put on another entity is no link of this one. -/
theorem spared_placed {w w' : World (Kind U)} {kind : Kind U} {id : ComponentId} {e x : Entity}
    {v : Value kind} (h : World.Placed w kind id x v w') (hne : e ≠ x) : w.Spared w' e := by
  have hvalid : w'.isValid e = w.isValid e := World.isValid_congr h.entities e
  by_cases hkind : kind = .node
  · subst hkind
    refine .of_node? ?_
    rw [World.node?, World.get?_eq_stored?, World.node?, World.get?_eq_stored?, hvalid,
      h.stored?_self, if_neg hne]
    by_cases hindex : e.index = x.index
    · rw [if_pos hindex, ite_self]
      exact .inr rfl
    · rw [if_neg hindex]
      exact .inl rfl
  · exact .of_stored? (h.stored?_other (Ne.symm hkind) e) fun hv => hvalid ▸ hv

/-- A placement that is not refused changes the world by what it places. -/
theorem world_call_emplace {kind : Kind U} {e : Entity} {make : Except Abort (Value kind)}
    {next : (Call.emplace kind e make).Reply → Script U σ} (ha : m.world.accepts e = true) :
    (m.call (.emplace kind e make) next).world = (m.world.place kind e make).2 := by
  simp only [call, if_pos ha]
  split <;> rfl

/-- A call of the task gives no links to an entity that accepts no components. -/
theorem spared_call (hwf : m.world.Wf) {c : Call U} {next : c.Reply → Script U σ}
    (hcall : m.control = .run (.call c next)) (hm : m.isTame = true) (hc : c.Spares closed)
    {e : Entity} (he : closed e) (hrefuses : m.world.accepts e = false)
    (hage : (m.call c next).world.isValid e = true → m.world.isValid e = true) :
    m.world.Spared (m.call c next).world e := by
  cases c with
  | create =>
    have hworld : (m.call .create next).world =
        { m.world with entities := m.world.entities.allocate.2 } := by
      simp only [call, World.create]
      split <;> rfl
    exact .of_stored? (by rw [hworld]; rfl) hage
  | destroy x => exact .refl _ _
  | emplace kind x make =>
    by_cases ha : m.world.accepts x = true
    · have hne : e ≠ x := fun heq => by
        rw [heq, ha] at hrefuses
        cases hrefuses
      rw [world_call_emplace ha]
      rcases World.place_cases hwf kind x make with
        ⟨cause, herr, -⟩ | ⟨hold, -⟩ | ⟨v, id, -, -, -, hplaced⟩
      · exact absurd herr (place_ne_error hwf hcall hm ha cause)
      · have hreg : World.Undisturbed (fun _ => True) m.world (m.world.register kind).2 :=
          World.undisturbed_register hwf kind
        rw [hold]
        exact .of_node? (.inl (hreg.get? trivial e))
      · exact spared_placed hplaced hne
    · simp only [call, if_neg ha]
      exact .refl _ _
  | patch kind x f =>
    cases kind with
    | node =>
      cases hp : m.patch? .node x f (.resume fun _ => next true) with
      | none =>
        simp only [call, hp, Option.getD_none]
        exact .refl _ _
      | some m' =>
        obtain ⟨id, v, -, -, rfl⟩ := patch?_eq_some hp
        simp only [call, hp, Option.getD_some]
        show m.world.Spared (m.world.edit .node x f) e
        have hedit : (m.world.edit .node x f).node? e = _ := World.get?_edit _ _ _ e
        by_cases hex : e = x
        · rw [if_pos hex] at hedit
          subst hex
          exact .of_loosens (hc.loosens he) hedit
        · rw [if_neg hex] at hedit
          exact .of_node? (.inl hedit)
    | _ => exact False.elim hc
  | _ => exact False.elim hc

/-- A step of its own gives no links to closed entities. -/
theorem spared_of_poised (hwf : m.world.Wf) (hm : m.isTame = true)
    (h : Poised closed ended base m.stack m.control) (hbase : m.stack = base)
    (hpending : ∀ script, m.control = .run script → ¬ ended script) (hstep : m.step = some m')
    {e : Entity} (he : closed e) (hrefuses : m.world.accepts e = false)
    (hage : m'.world.isValid e = true → m.world.isValid e = true) :
    m.world.Spared m'.world e := by
  rcases h.top hbase with ⟨script, hcontrol, hspares⟩ | ⟨cause, hcontrol⟩
  · simp only [step, hcontrol, Option.some.injEq] at hstep
    subst hstep
    cases hspares with
    | ended hended => exact absurd hended (hpending script hcontrol)
    | inspect h => exact .refl _ _
    | call hc h => exact spared_call hwf hcontrol hm hc he hrefuses hage
  -- a task that is left writes no links, whatever the frame below does about it
  · cases hstack : m.stack with
    | nil =>
      simp only [step, hcontrol, hstack] at hstep
      cases hstep
    | cons frame rest =>
      simp only [step, hcontrol, hstack, Option.some.injEq] at hstep
      subst hstep
      cases frame <;> exact World.Spared.of_node? (w := m.world) (.inl rfl)

/-- Throughout a tame run, what a task does itself gives no links to entities that were being
destroyed when it set out, if it never gives links to closed entities. -/
theorem spared_of_amid (host : σ) (script : Script U σ) {n : Nat}
    (h : (start host script).Tame n)
    (hlt : ∀ i, (start host script).reissues n i < UInt32.size) {α : Type} {task : Task U σ α}
    {next : α → Script U σ} {k j : Nat} (hamid : (start host script).Amid task next k j)
    (hj : j < n) (htask : ∀ closed, task.Spares closed) {e : Entity}
    (he : ((start host script).run k).world.isDestroying e = true) :
    ((start host script).run j).world.Spared ((start host script).run (j + 1)).world e := by
  have hissued : ∀ {x}, ((start host script).run k).world.isDestroying x = true →
      ((start host script).run k).world.entities.Issued ((start host script).reissues k) x :=
    fun hx => (upheld_of_le host script h hlt
      (Nat.le_trans hamid.le (Nat.le_of_lt hj))).dated.issued_of_isAlive
        (World.isValid_of_isDestroying hx)
  -- who was being destroyed is still being destroyed, or gone
  have hclosed : ∀ i, k ≤ i → i ≤ j → ∀ x,
      ((start host script).run k).world.isDestroying x = true →
        ((start host script).run i).world.accepts x = false := by
    intro i hki hij x hx
    have hin := Nat.le_trans hij (Nat.le_of_lt hj)
    have hage := aged_of_le host script h hlt hki hin (hissued hx)
    refine Bool.eq_false_iff.mpr fun ha => ?_
    obtain ⟨hvalid, hdes⟩ := (World.accepts_iff _ x).mp ha
    rw [World.isDestroying, hage.destroying hx hvalid] at hdes
    cases hdes
  have hpoised := poised_of_amid hamid
    (htask fun x => ((start host script).run k).world.isDestroying x = true)
    fun i hki hij x hx => hclosed i hki (Nat.le_of_lt hij) x hx
  have hup := upheld_of_le host script h hlt (Nat.le_of_lt hj)
  have hage := aged_of_le host script h hlt (Nat.le_succ j) hj
    (aged_of_le host script h hlt hamid.le (Nat.le_of_lt hj) (hissued he)).issued
  rcases run_succ_cases (start host script) j with heq | hstep
  · rw [heq]
    exact .refl _ _
  · refine spared_of_poised hup.wf (h j hj) hpoised hamid.top (fun script hc => ?_) hstep he
      (hclosed j hamid.le (Nat.le_refl j) e he) hage.alive
    rintro ⟨a, rfl⟩
    exact hamid.pending j hamid.le (Nat.le_refl j) hamid.top a hc

/-! ## While an entity is being destroyed -/

/-- What holds of an entity up to a step of its window: it is valid and being destroyed,
nobody else destroys it, and it gets no component that it did not have. -/
structure Withheld (m : Machine U σ) (e : Entity) (i j : Nat) : Prop where
  valid : (m.run j).world.isValid e = true
  destroying : (m.run j).world.isDestroying e = true
  refused : (m.run j).control = .destroy e → m.run (j + 1) = (m.run j).answer false
  had : ∀ (kind : Kind U) (k : Nat), i ≤ k → k ≤ j →
    (m.run j).world.has kind e = true → (m.run k).world.has kind e = true

/-- What a handler finds that is called for the destruction of a component: the call that
takes the component waits below. If that destroys the entity, the entity is being destroyed
and has the component; if it only takes the component, the entity has it unless it is gone. -/
def Finds (m : Machine U σ) (id : ComponentId) (e : Entity) (tail : List (Frame U σ)) : Prop :=
  ∃ kind f below, tail = .removal id e :: f :: below ∧ m.world.idOf? kind = some id ∧
    ((f = .teardown e id ∧ m.world.isValid e = true ∧ m.world.isDestroying e = true ∧
        m.world.has kind e = true) ∨
      ∃ next, f = .taking kind e next ∧
        (m.world.isValid e = true → m.world.has kind e = true))

theorem window_withheld (host : σ) (script : Script U σ) {n : Nat}
    (h : (start host script).Tame n)
    (hlt : ∀ i, (start host script).reissues n i < UInt32.size) {e : Entity} {i j : Nat}
    (hw : (start host script).Window e i j) (hj : j ≤ n) :
    (start host script).Withheld e i j := by
  have hdes := window_isDestroying host script h hlt hw hj
  refine
    { valid := World.isValid_of_isDestroying hdes
      destroying := hdes
      refused := fun hc => ?_
      had := fun kind k hik hkj hhas => window_has host script h hlt hw hik hkj hj hhas }
  have hne : ((start host script).run j).world.entities.state? e ≠ some .alive := fun halive => by
    rw [World.isDestroying, Entity.Table.isDestroying_iff, halive] at hdes
    cases hdes
  rw [run_succ, step, hc]
  exact destroy_of_ne _ hne

theorem finds_of_invoke {count : UInt32 → Nat} (hup : Upheld count m.world m.stack m.control)
    (hatt : Attended m.stack m.control) {key : ConnectionKey} {x y : Entity} {id : ComponentId}
    {keys : List ConnectionKey} {tail : List (Frame U σ)} (hcall : m.control = .invoke key x)
    (hstack : m.stack = .dispatch id .destroy y keys :: tail) : y = x ∧ m.Finds id x tail := by
  obtain ⟨rfl, f, below, rfl, hf, hteardown, hhas⟩ := summons_of_invoke hup hatt hcall hstack
  refine ⟨rfl, ?_⟩
  cases f with
  | teardown e j =>
    obtain ⟨rfl, rfl⟩ := hf
    have hdes := hteardown ⟨_, rfl⟩
    have hvalid := World.isValid_of_isDestroying hdes
    obtain ⟨kind, hid, hkind⟩ := hhas hvalid
    exact ⟨kind, _, below, rfl, hid, .inl ⟨rfl, hvalid, hdes, hkind⟩⟩
  | taking kind e next =>
    obtain ⟨rfl, hid⟩ := hf
    refine ⟨kind, _, below, rfl, hid, .inr ⟨next, rfl, fun hvalid => ?_⟩⟩
    obtain ⟨kind', hid', hkind⟩ := hhas hvalid
    rw [World.eq_of_idOf? hid hid']
    exact hkind
  | _ => cases hf

/-- **Entities are safe while they are being destroyed.** However deep calls are nested, and
also if some of them are abandoned, an entity stays valid from where its destruction is
accepted up to where it is given up; nobody else destroys it, and it gets no component that it
did not have. What an edit of the tree does itself gives it no child and no parent, if its
destruction was accepted before the edit began or is still in progress. Every handler that is
called on the way for one of its components finds it with that component; and so does every
handler that is called for a component that is only taken, unless the entity is gone. -/
theorem destructions_hold (host : σ) (script : Script U σ) (n : Nat)
    (h : (start host script).Tame n)
    (hreissues : ∀ index, (start host script).reissues n index < 2 ^ 32) :
    (∀ e i j, (start host script).Window e i j → j ≤ n → (start host script).Withheld e i j) ∧
      (∀ (edit : Edit) (next : edit.Answer → Script U σ) (k j : Nat) (e : Entity),
        (start host script).Amid edit.task next k j → j < n →
          ((start host script).run k).world.isDestroying e = true ∨
              e ∈ destroyed ((start host script).run j).stack →
            ((start host script).run j).world.Spared
              ((start host script).run (j + 1)).world e) ∧
      (∀ j ≤ n, ∀ key x id y keys tail, ((start host script).run j).control = .invoke key x →
        ((start host script).run j).stack = .dispatch id .destroy y keys :: tail →
          y = x ∧ ((start host script).run j).Finds id x tail) := by
  refine ⟨fun e i j hw hj => window_withheld host script h hreissues hw hj,
    fun edit next k j e hamid hj he => ?_, fun j hj key x id y keys tail hcall hstack => ?_⟩
  · refine spared_of_amid host script h hreissues hamid hj edit.spares ?_
    rcases he with hdes | hprogress
    · exact hdes
    · rw [hamid.top] at hprogress
      exact (upheld_of_le host script h hreissues
        (Nat.le_trans hamid.le (Nat.le_of_lt hj))).destroying hprogress
  · exact finds_of_invoke (upheld_of_le host script h hreissues hj)
      (attended_run host script j) hcall hstack

end Machine

/-- An entity is destroyed, and while that is announced a handler asks for its destruction
again, puts a placement on it and links a child under it. -/
def besieged : Script Empty Unit :=
  Task.toScript do
    let _ ← Task.connect .node .destroy fun _ e => Task.toScript do
      let _ ← Task.destroy e
      let _ ← Task.emplace .transform e (.ok Transform.identity)
      let child ← Task.spawnNode
      let _ ← Edit.task (.appendChild e child)
    let e ← Task.create
    let _ ← Task.emplace .node e (.ok TreeNode.isolated)
    let _ ← Task.destroy e

/-- A control that has come to the end of a script. -/
def Control.isDone : Control Empty Unit → Bool
  | .run .done => true
  | _ => false

theorem Control.eq_run_done {control : Control Empty Unit} (h : control.isDone = true) :
    control = .run .done := by
  unfold isDone at h
  split at h
  · rfl
  · cases h

theorem Control.ne_run_done {control : Control Empty Unit} (h : control.isDone = false) :
    control ≠ .run .done := by
  rintro rfl
  cases h

namespace Machine

/-- The handler is refused, and finds the entity with its links. -/
theorem destructions_hold_besieged :
    (start () besieged).Withheld ⟨0, .initial⟩ 8 29 ∧
      ((start () besieged).run 28).world.Spared ((start () besieged).run 29).world
        ⟨0, .initial⟩ ∧
      ((start () besieged).run 12).Finds 0 ⟨0, .initial⟩
        ((start () besieged).run 12).stack.tail := by
  have hold := destructions_hold () besieged 40 (by decide +kernel)
    fun index => Nat.lt_of_le_of_lt (reissues_le _ 40 index) (by decide)
  have hkept : ∀ k < 29, ((start () besieged).run k).released? ≠ some ⟨0, .initial⟩ := by
    decide +kernel
  have hamid : (start () besieged).Amid (Edit.appendChild ⟨0, .initial⟩ ⟨1, .initial⟩).task
      (fun _ => .done) 28 28 :=
    { begun := by with_unfolding_all rfl
      le := Nat.le_refl _
      above := fun i hki hij => by
        rw [Nat.le_antisymm hij hki]
      top := rfl
      pending := fun i hki hij _ _ => by
        rw [Nat.le_antisymm hij hki]
        exact Control.ne_run_done (by decide +kernel) }
  exact ⟨hold.1 _ 8 29 ⟨by decide, by decide +kernel, fun k _ hk => hkept k hk⟩ (by decide),
    hold.2.1 _ _ 28 28 _ hamid (by decide) (.inl (by decide +kernel)),
    (hold.2.2 12 (by decide) _ _ _ _ _ _ (by with_unfolding_all rfl)
      (by with_unfolding_all rfl)).2⟩

end Machine

/-- A child is put under a parent. While that is published for the parent a handler destroys
the child, catching what goes wrong, and the handler that is called for the destruction gives
up. -/
def abandoning : Script Empty Unit :=
  Task.toScript do
    let _ ← Task.connect .node .update fun _ e => Task.toScript do
      if e.index = 0 then
        let _ ← Task.attempt do
          let _ ← Task.destroy ⟨1, .initial⟩
    let _ ← Task.connect .node .destroy fun _ _ => .abort (.raised "stop")
    let parent ← Task.create
    let _ ← Task.emplace .node parent (.ok TreeNode.isolated)
    let child ← Task.create
    let _ ← Task.emplace .node child (.ok TreeNode.isolated)
    let _ ← Edit.task (.appendChild parent child)

/-- A component is abandoned while it is made, and then its entity is destroyed. -/
def unfinished : Script Empty Unit :=
  Task.toScript do
    let _ ← Task.connect .node .destroy fun _ _ => .done
    let e ← Task.create
    let _ ← Task.attempt do
      let _ ← Task.emplace .node e (.error (.raised "stop"))
    let _ ← Task.destroy e

/-- A destruction that was abandoned does not give the entity up, and an edit that was in
progress goes on to give it a parent. And a component that was abandoned while it was made is
announced like others, but the handler that is called for it cannot read it. -/
theorem Machine.abandoned_destruction_is_linked :
    ((start () abandoning).Tame 50 ∧
        (∀ index, (start () abandoning).reissues 50 index < 2 ^ 32) ∧
        (start () abandoning).Window ⟨1, .initial⟩ 21 35 ∧
        (start () abandoning).Amid (Edit.appendChild ⟨0, .initial⟩ ⟨1, .initial⟩).task
          (fun _ => .done) 14 35 ∧
        ((start () abandoning).run 35).world.parentOf? ⟨1, .initial⟩ = none ∧
        ((start () abandoning).run 36).world.parentOf? ⟨1, .initial⟩ = some ⟨0, .initial⟩) ∧
      ((start () unfinished).run 10).control = .invoke 0 ⟨0, .initial⟩ ∧
        ((start () unfinished).run 10).world.isDestroying ⟨0, .initial⟩ = true ∧
        (((start () unfinished).run 10).world.storage? .node).map
          (·.get ⟨0, .initial⟩) = some (.error (.rowMissing 0 0)) := by
  have hkept : ∀ k < 35, ((start () abandoning).run k).released? ≠ some ⟨1, .initial⟩ := by
    decide +kernel
  have hbottom : ((start () abandoning).run 14).stack = [] := by with_unfolding_all rfl
  have hpending : ∀ i < 36, (((start () abandoning).run i).stack.isEmpty &&
      ((start () abandoning).run i).control.isDone) = false := by decide +kernel
  refine ⟨⟨by decide +kernel,
    fun index => Nat.lt_of_le_of_lt (reissues_le _ 50 index) (by decide),
    ⟨by decide, by decide +kernel, fun k _ hk => hkept k hk⟩, ?_, by decide +kernel,
    by decide +kernel⟩, by with_unfolding_all rfl, by decide +kernel, by with_unfolding_all rfl⟩
  exact
    { begun := by with_unfolding_all rfl
      le := by decide
      above := fun i _ _ => by
        rw [hbottom]
        exact List.nil_suffix
      top := by
        rw [hbottom]
        exact List.isEmpty_iff.mp (by decide +kernel)
      pending := fun i _ hij htop _ => by
        have hi := hpending i (Nat.lt_succ_of_le hij)
        rw [htop, hbottom] at hi
        exact Control.ne_run_done hi }

end EntityScene
