import EntityScene.Proofs.Sparing

/-!
# Who is listed as a child

Links are written for scripts, by the calls that put links on an entity, change them or
replace them. Whatever else is done to a scene, nobody is listed as a child who was not listed
before. So if scripts list nobody but entities, and whom they saw listed, then nobody but
entities is ever listed.

- `Call.linked?`: the entity whose links a call writes.
- `World.Wanes`, `wanes_of_step`: every other step only takes children away.
- `Machine.Sealed`: scripts list nobody but entities, and who was listed before.
- `Machine.Genuine`, `genuine_of_sealed`: who is listed was an entity by then.
- `sealed_of_edits`: the edits of the tree list nobody but entities.
-/

namespace EntityScene

variable {U σ : Type} [SceneFamily U]

/-! ## Writing links -/

/-- The entity whose links a call writes. -/
def Call.linked? [DecidableEq U] : Call U → Option Entity
  | .emplace .node e _ | .edit .node e _ | .patch .node e _ => some e
  | .fetchEdit e kinds _ => if .node ∈ kinds then some e else none
  | _ => none

/-- The entity whose links the next step writes for a script. -/
def Control.linked? [DecidableEq U] : Control U σ → Option Entity
  | .run (.call c _) => c.linked?
  | _ => none

variable [DecidableEq U]

/-! ## Links that only lose children -/

namespace World

variable {w w' w'' : World (Kind U)} {e p : Entity}

theorem mem_childrenOf_iff {x : Entity} : x ∈ w.childrenOf p ↔
    w.isValid p = true ∧ ∃ node, w.stored? .node p = some node ∧ x ∈ node.children := by
  rw [childrenOf, node?, get?_eq_stored?]
  split
  · rename_i hvalid
    cases w.stored? .node p with
    | none => simp
    | some node => simp [hvalid]
  · rename_i hvalid
    simp [hvalid]

/-- The children that are listed in the links of an entity were listed there before. -/
def Wanes (w w' : World (Kind U)) (p : Entity) : Prop :=
  ∀ node, w'.stored? .node p = some node →
    ∃ old, w.stored? .node p = some old ∧ node.children ⊆ old.children

namespace Wanes

theorem of_eq (h : w'.stored? .node p = w.stored? .node p) : w.Wanes w' p :=
  fun _ hnode => ⟨_, h ▸ hnode, List.Subset.refl _⟩

theorem refl (w : World (Kind U)) (p : Entity) : w.Wanes w p := of_eq rfl

theorem trans (h : w.Wanes w' p) (h' : w'.Wanes w'' p) : w.Wanes w'' p := by
  intro node hnode
  obtain ⟨mid, hmid, hsub⟩ := h' node hnode
  obtain ⟨old, hold, hsub'⟩ := h mid hmid
  exact ⟨old, hold, List.Subset.trans hsub hsub'⟩

theorem of_undisturbed (h : Undisturbed (· = .node) w w') (p : Entity) : w.Wanes w' p :=
  of_eq (h.stored? rfl p)

end Wanes

/-- Links are edited for their own entity. -/
theorem wanes_edit_of_ne {kind : Kind U} {f : Value kind → Value kind}
    (h : kind = .node → p ≠ e) : w.Wanes (w.edit kind e f) p := by
  unfold edit
  split
  · by_cases hkind : kind = .node
    · subst hkind
      exact .of_eq (by rw [stored?_modify, if_neg (h rfl)])
    · exact .of_eq (stored?_updateStorage_of_ne (Ne.symm hkind) p)
  · exact .refl w p

/-- A child that is dropped is not listed any more, and nobody else is. -/
theorem wanes_dropChild (e child p : Entity) :
    w.Wanes (w.edit .node e fun node => TreeNode.dropChild node child) p := by
  unfold edit
  split
  · intro node hnode
    rw [stored?_modify] at hnode
    split at hnode
    · rename_i hp
      obtain ⟨old, hold, rfl⟩ := Option.map_eq_some_iff.mp hnode
      exact ⟨old, hp ▸ hold, List.filter_sublist.subset⟩
    · exact ⟨node, hnode, List.Subset.refl _⟩
  · exact .refl w p

theorem wanes_erase (hwf : w.Wf) (id : ComponentId) (e p : Entity) : w.Wanes (w.erase id e) p := by
  intro node hnode
  rw [stored?_erase hwf] at hnode
  split at hnode
  · cases hnode
  · exact ⟨node, hnode, List.Subset.refl _⟩

theorem wanes_pull (hwf : w.Wf) (kind : Kind U) (e p : Entity) :
    w.Wanes (w.pull kind e).2 p := by
  cases hid : w.idOf? kind with
  | none =>
    rw [pull, storage?_eq_none hid]
    exact .refl w p
  | some id =>
    rw [pull_eq hwf hid]
    exact wanes_erase hwf id e p

/-- A component that is put on another entity, or is of another kind, is no links. -/
theorem Placed.wanes {kind : Kind U} {id : ComponentId} {v : Value kind}
    (h : Placed w kind id e v w') (hne : kind = .node → p ≠ e) : w.Wanes w' p := by
  by_cases hkind : kind = .node
  · subst hkind
    intro node hnode
    rw [h.stored?_self, if_neg (hne rfl)] at hnode
    split at hnode
    · cases hnode
    · exact ⟨node, hnode, List.Subset.refl _⟩
  · exact .of_eq (h.stored?_other (Ne.symm hkind) p)

/-- A fetch edits links for its own entity, and only if it lists them. -/
theorem wanes_fetchEdit (hwf : w.Wf) {kinds : List (Kind U)}
    (f : (kind : Kind U) → Value kind → Value kind) (h : .node ∈ kinds → p ≠ e) :
    w.Wanes (w.fetchEdit e kinds f).2 p := by
  have hreg : Undisturbed (fun _ => True) w (w.registerAll kinds).2 :=
    undisturbed_registerAll hwf kinds
  have hfold : ∀ (ps : List (Kind U × ComponentId)) (w : World (Kind U)), w.Wf →
      (∀ q ∈ ps, w.idOf? q.1 = some q.2 ∧ (q.1 = .node → p ≠ e)) →
      w.Wanes (ps.foldl (fun w q => w.editPooled q.1 q.2 e (f q.1)) w) p := by
    intro ps
    induction ps with
    | nil => exact fun w _ _ => .refl w p
    | cons q ps ih =>
      intro w hw hps
      obtain ⟨hid, hq⟩ := hps q List.mem_cons_self
      have hfirst : Undisturbed (fun _ => False) w (w.editPooled q.1 q.2 e (f q.1)) :=
        undisturbed_editPooled hw e hid id
      have hwane : w.Wanes (w.editPooled q.1 q.2 e (f q.1)) p := by
        have hmodify : w.editPooled q.1 q.2 e (f q.1) =
            w.updateStorage q.1 (·.modify e (f q.1)) := (updateStorage_of_idOf? hid).symm
        rw [hmodify]
        by_cases hkind : q.1 = .node
        · refine .of_eq ?_
          rw [← hkind, stored?_modify, if_neg (hq hkind)]
        · exact .of_eq (stored?_updateStorage_of_ne (Ne.symm hkind) p)
      refine hwane.trans (ih _ hfirst.wf fun r hr => ?_)
      obtain ⟨hid', hr'⟩ := hps r (List.mem_cons_of_mem _ hr)
      exact ⟨hfirst.idOf? hid', hr'⟩
  have hregister : w.Wanes (w.registerAll kinds).2 p := .of_eq (hreg.stored? trivial p)
  unfold fetchEdit
  simp only
  split
  · split
    · refine hregister.trans (hfold _ _ hreg.wf fun q hq => ?_)
      exact ⟨idOf?_registerAll hq, fun hkind => h (hkind ▸ (List.of_mem_zip hq).1)⟩
    · exact hregister
  · exact hregister

end World

namespace Machine

variable {m m' : Machine U σ} {p : Entity}

/-- A call lists children in the links that it writes, and nowhere else. -/
theorem wanes_call (hwf : m.world.Wf) {c : Call U} {next : c.Reply → Script U σ}
    (hcall : m.control = .run (.call c next)) (hm : m.control.isOrdinary = true)
    (hm' : ∀ cause, (m.call c next).control ≠ .unwind cause) (hp : c.linked? ≠ some p) :
    m.world.Wanes (m.call c next).world p := by
  have hplacement : (Kind.transform : Kind U) ≠ .node := fun hc => by cases hc
  cases c with
  | create =>
    simp only [call]
    split <;> exact .of_eq rfl
  | register kind => exact .of_undisturbed (World.undisturbed_register hwf kind) p
  | emplace kind e make =>
    by_cases ha : m.world.accepts e = true
    · simp only [call, if_pos ha] at hm' ⊢
      rcases World.place_cases hwf kind e make with
        ⟨cause, herr, -⟩ | ⟨hold, -⟩ | ⟨v, id, -, -, hnew, hplaced⟩
      · rw [herr] at hm'
        exact absurd rfl (hm' cause)
      · rw [hold]
        exact .of_undisturbed (World.undisturbed_register hwf kind) p
      · rw [hnew]
        refine hplaced.wanes fun hkind heq => hp ?_
        subst hkind heq
        rfl
    · simp only [call, if_neg ha]
      exact .refl _ p
  | edit kind e f =>
    refine World.wanes_edit_of_ne fun hkind heq => hp ?_
    subst hkind heq
    rfl
  | patch kind e f =>
    cases hpatch : m.patch? kind e f (.resume fun _ => next true) with
    | none =>
      simp only [call, hpatch, Option.getD_none]
      exact .refl _ p
    | some m' =>
      obtain ⟨id, v, -, -, rfl⟩ := patch?_eq_some hpatch
      simp only [call, hpatch, Option.getD_some]
      refine World.wanes_edit_of_ne fun hkind heq => hp ?_
      subst hkind heq
      rfl
  | take kind e =>
    simp only [call]
    split <;> exact .refl _ p
  | fetchEdit e kinds f =>
    have hfetch : m.world.Wanes (m.world.fetchEdit e kinds f).2 p :=
      World.wanes_fetchEdit hwf f fun hkind heq => hp (by rw [Call.linked?, if_pos hkind, heq])
    simp only [call]
    split <;> exact hfetch
  | alterStorage kind f =>
    rw [hcall] at hm
    cases hm
  | disconnectAll kind event =>
    exact .of_undisturbed (World.undisturbed_disconnectAll hwf kind event) p
  | updateTransform root =>
    exact .of_undisturbed (World.undisturbed_updateTransform hwf hplacement root) p
  | updateAllTransforms =>
    exact .of_undisturbed (World.undisturbed_updateAllTransforms hwf hplacement) p
  | block connection =>
    rw [(over_block m connection next).world]
    exact .of_eq rfl
  | _ => exact .of_eq rfl

theorem wanes_runScript (hwf : m.world.Wf) {script : Script U σ}
    (hcall : m.control = .run script) (hm : m.control.isOrdinary = true)
    (hm' : ∀ cause, (m.runScript script).control ≠ .unwind cause)
    (hp : m.control.linked? ≠ some p) : m.world.Wanes (m.runScript script).world p := by
  cases script with
  | call c next =>
    rw [hcall] at hp
    exact wanes_call hwf hcall hm hm' hp
  | connect kind event handler next =>
    exact .of_undisturbed (undisturbed_runScript_connect hwf _ kind event handler next) p
  | cascade next => exact .of_undisturbed (undisturbed_runScript_cascade hwf _ next) p
  | blocked connection body next =>
    rw [world_runScript_blocked]
    exact .of_eq rfl
  | _ => exact .of_eq rfl

/-- A cascade that starts drops its node from the children of the parent. -/
theorem wanes_invoke (key : ConnectionKey) (e p : Entity) :
    m.world.Wanes (m.invoke key e).world p := by
  unfold invoke
  split
  · exact .refl _ p
  · rename_i claims _
    unfold startCascade
    split
    · exact .refl _ p
    · cases hpatch : (m.world.validParentOf? e).bind fun parent =>
          m.patch? .node parent (fun node => TreeNode.dropChild node e) (.unlinking claims e) with
      | none =>
        simp only [hpatch, Option.getD_none]
        exact .refl _ p
      | some m' =>
        obtain ⟨parent, -, hpatch'⟩ := Option.bind_eq_some_iff.mp hpatch
        obtain ⟨id, v, -, -, rfl⟩ := patch?_eq_some hpatch'
        simp only [hpatch, Option.getD_some]
        exact World.wanes_dropChild parent e p
  · exact .refl _ p

theorem wanes_tearDown (m : Machine U σ) (e : Entity) (id : ComponentId) (p : Entity) :
    m.world.Wanes (m.tearDown e id).world p := by
  unfold tearDown
  split <;> exact .of_eq rfl

theorem wanes_destroy (m : Machine U σ) (e p : Entity) :
    m.world.Wanes (m.destroy e).world p := by
  have hbegun : m.world.Wanes { m.world with entities := (m.world.entities.beginDestroy e).2 } p :=
    .of_eq rfl
  simp only [destroy]
  split
  · exact hbegun.trans (wanes_tearDown _ e 0 p)
  · exact hbegun

theorem wanes_resume (hwf : m.world.Wf) (frame : Frame U σ) (b : Bool) (p : Entity) :
    m.world.Wanes (m.resume frame b).world p := by
  cases frame with
  | dispatch id event e keys =>
    cases keys <;> exact .of_eq rfl
  | teardown e id =>
    rw [resume_teardown hwf]
    cases b with
    | true => exact (World.wanes_erase hwf id e p).trans (wanes_tearDown _ e (id + 1) p)
    | false => exact wanes_tearDown _ e (id + 1) p
  | taking kind e next =>
    obtain ⟨old, hresume⟩ := resume_taking hwf e next b
    rw [hresume]
    cases b with
    | true => exact World.wanes_pull hwf kind e p
    | false => exact .of_eq rfl
  | unlinking claims e =>
    simp only [resume, cascadeOn]
    split <;> exact .of_eq rfl
  | cascade claims past ahead =>
    simp only [resume, cascadeOn]
    split <;> exact .of_eq rfl
  | _ => exact .of_eq rfl

/-- Every step of an ordinary run only takes children away, except where it writes links for a
script. -/
theorem wanes_of_step (hwf : m.world.Wf) (hm : m.control.isOrdinary = true)
    (hm' : m'.control.isOrdinary = true) (hstep : m.step = some m')
    (hp : m.control.linked? ≠ some p) : m.world.Wanes m'.world p := by
  cases stepped_of_step hstep with
  | run script hcall =>
    refine wanes_runScript hwf hcall hm (fun cause hc => ?_) hp
    rw [hc] at hm'
    cases hm'
  | publish id event e hcall => exact .of_undisturbed (World.undisturbed_snapshot hwf id event) p
  | invoke key e hcall => exact wanes_invoke key e p
  | destroy e hcall => exact wanes_destroy m e p
  | announce id e hcall =>
    unfold announce
    split <;> exact .of_eq rfl
  | reply b frame stack hcall hstack => exact wanes_resume (m := { m with stack }) hwf frame b p
  | unwind cause frame stack hcall hstack =>
    rw [hcall] at hm
    cases hm

/-! ## Throughout a run -/

/-- The handle named an entity at some step, or was listed as a child. -/
def Seen (m : Machine U σ) (x : Entity) (i : Nat) : Prop :=
  (m.run i).world.isValid x = true ∨ ∃ p, x ∈ (m.run i).world.childrenOf p

/-- Scripts list nobody as a child who was never an entity, nor listed somewhere: links can be
copied, but not be made up. -/
def Sealed (m : Machine U σ) (n : Nat) : Prop :=
  ∀ j < n, ∀ p ∈ (m.run j).control.linked?, ∀ x ∈ (m.run (j + 1)).world.childrenOf p,
    ∃ i ≤ j, m.Seen x i

theorem Sealed.of_valid {m : Machine U σ} {n : Nat}
    (h : ∀ j < n, ∀ p ∈ (m.run j).control.linked?, ∀ x ∈ (m.run (j + 1)).world.childrenOf p,
      (m.run j).world.isValid x = true) : m.Sealed n :=
  fun j hj p hp x hx => ⟨j, Nat.le_refl j, .inl (h j hj p hp x hx)⟩

/-- The handle named an entity whenever it was listed as a child, up to a step. -/
def Genuine (m : Machine U σ) (x : Entity) (k : Nat) : Prop :=
  ∀ j ≤ k, ∀ p, x ∈ (m.run j).world.childrenOf p → ∃ i ≤ j, (m.run i).world.isValid x = true

section Run

variable {host : σ} {script : Script U σ} {n : Nat}

/-- Where no links are written for a script, who is listed after a step was listed before. -/
theorem mem_childrenOf_of_succ (h : (start host script).Ordinary n)
    (hlt : ∀ i, (start host script).reissues n i < UInt32.size) {j : Nat} (hj : j < n)
    (hp : ((start host script).run j).control.linked? ≠ some p) {x : Entity}
    (hx : x ∈ ((start host script).run (j + 1)).world.childrenOf p) :
    x ∈ ((start host script).run j).world.childrenOf p := by
  have hup := upheld_of_le host script h.tame hlt (Nat.le_of_lt hj)
  have hage := fun {x} => aged_of_le host script h.tame hlt (Nat.le_succ j) hj (x := x)
  have hord := h (j + 1) (by omega)
  rcases run_succ_cases (start host script) j with heq | hstep
  · rw [heq] at hx
    exact hx
  · obtain ⟨hvalid, node, hnode, hchild⟩ := World.mem_childrenOf_iff.mp hx
    obtain ⟨old, hold, hsub⟩ := wanes_of_step hup.wf (h j (by omega)) hord hstep hp node hnode
    -- rows are of handles that were issued, and these do not come back to life
    obtain ⟨id, hrow⟩ := hup.wf.exists_holds_of_stored? hold
    exact World.mem_childrenOf_iff.mpr
      ⟨(hage (hup.issued hrow)).alive hvalid, old, hold, hsub hchild⟩

/-- Who is listed as a child was an entity by then. -/
theorem genuine_of_sealed (h : (start host script).Ordinary n)
    (hlt : ∀ i, (start host script).reissues n i < UInt32.size)
    (hsealed : (start host script).Sealed n) {k : Nat} (hk : k ≤ n) (x : Entity) :
    (start host script).Genuine x k := by
  intro j
  induction j using Nat.strong_induction_on with
  | _ j ih =>
    intro hjk p hx
    cases j with
    | zero =>
      have hnobody : ((start host script).run 0).world.isValid p = false := rfl
      rw [World.childrenOf_of_not_isValid hnobody] at hx
      cases hx
    | succ j =>
      have hjn := Nat.lt_of_lt_of_le hjk hk
      -- a new listing was copied from an earlier step, an old one is from the step before
      have hseen : ∃ i ≤ j, (start host script).Seen x i := by
        by_cases hp : ((start host script).run j).control.linked? = some p
        · exact hsealed j hjn p hp x hx
        · exact ⟨j, Nat.le_refl j, .inr ⟨p, mem_childrenOf_of_succ h hlt hjn hp hx⟩⟩
      obtain ⟨i, hij, hvalid | ⟨q, hq⟩⟩ := hseen
      · exact ⟨i, Nat.le_succ_of_le hij, hvalid⟩
      · obtain ⟨i', hi', hvalid⟩ := ih i (Nat.lt_succ_of_le hij) (by omega) q hq
        exact ⟨i', by omega, hvalid⟩

end Run

/-! ## Edits of the tree -/

/-- A call that spares closed entities lists none of them that was not listed before. -/
theorem mem_childrenOf_of_spares {closed : Entity → Prop} (hwf : m.world.Wf) {c : Call U}
    {next : c.Reply → Script U σ} (hc : c.Spares closed) (hp : c.linked? = some p)
    (hm' : ∀ cause, (m.call c next).control ≠ .unwind cause) {x : Entity} (hx : closed x)
    (hlisted : x ∈ (m.call c next).world.childrenOf p) : x ∈ m.world.childrenOf p := by
  cases c with
  | emplace kind e make =>
    cases kind with
    | node =>
      obtain rfl := Option.some.inj hp
      by_cases ha : m.world.accepts e = true
      · rw [world_call_emplace ha] at hlisted
        simp only [call, if_pos ha] at hm'
        rcases World.place_cases hwf .node e make with
          ⟨cause, herr, -⟩ | ⟨hold, -⟩ | ⟨v, id, rfl, -, -, hplaced⟩
        · rw [herr] at hm'
          exact absurd rfl (hm' cause)
        · have hreg : World.Undisturbed (fun _ => True) m.world (m.world.register .node).2 :=
            World.undisturbed_register hwf .node
          have hnode : (m.world.register .node).2.node? e = m.world.node? e := hreg.get? trivial e
          rw [hold, World.childrenOf, hnode] at hlisted
          exact hlisted
        -- the row is new, so its children are the ones that the call gives
        · obtain ⟨-, node, hnode, hchild⟩ := World.mem_childrenOf_iff.mp hlisted
          rw [hplaced.stored?_self, if_pos rfl] at hnode
          obtain rfl := Option.some.inj hnode
          exact absurd hx (hc x hchild)
      · simp only [call, if_neg ha] at hlisted
        exact hlisted
    | _ => cases hp
  | patch kind e f =>
    cases kind with
    | node =>
      obtain rfl := Option.some.inj hp
      cases hpatch : m.patch? .node e f (.resume fun _ => next true) with
      | none =>
        simp only [call, hpatch, Option.getD_none] at hlisted
        exact hlisted
      | some m' =>
        obtain ⟨id, v, -, -, rfl⟩ := patch?_eq_some hpatch
        simp only [call, hpatch, Option.getD_some] at hlisted
        have hedit : (m.world.edit .node e f).node? e = (m.world.node? e).map f := by
          rw [World.node?, World.get?_edit, if_pos rfl]
          rfl
        change x ∈ (m.world.edit .node e f).childrenOf e at hlisted
        rw [World.childrenOf, hedit] at hlisted
        rw [World.childrenOf]
        cases hnode : m.world.node? e with
        | none =>
          rw [hnode] at hlisted
          cases hlisted
        | some node =>
          rw [hnode] at hlisted
          exact hc.children hx hlisted
    | _ => cases hp
  | create => cases hp
  | destroy e => cases hp
  | _ => exact False.elim hc

/-- The step that writes links is one of an edit of the tree, or puts a root on an entity. -/
inductive WrittenByEdit (m : Machine U σ) (j : Nat) : Prop
  | edit (edit : Edit) (next : edit.Answer → Script U σ) (k : Nat)
      (h : m.Amid edit.task next k j) : WrittenByEdit m j
  | root (e : Entity) (next : Option TreeNode × Bool → Script U σ)
      (h : (m.run j).control = .run (.call (.emplace .node e (.ok TreeNode.isolated)) next)) :
      WrittenByEdit m j

/-- Where links are left to the library, the call that writes them spares whoever never accepted
components. -/
theorem WrittenByEdit.exists_call {m : Machine U σ} {j : Nat} (h : m.WrittenByEdit j)
    (hlinked : (m.run j).control.linked? = some p) {closed : Entity → Prop}
    (hclosed : ∀ i ≤ j, ∀ x, closed x → (m.run i).world.accepts x = false) :
    ∃ (c : Call U) (next : c.Reply → Script U σ),
      (m.run j).control = .run (.call c next) ∧ c.Spares closed := by
  cases h with
  | root e next h =>
    exact ⟨.emplace .node e (.ok TreeNode.isolated), next, h, fun x hx => by cases hx⟩
  | edit edit next k hamid =>
    have hpoised := poised_of_amid hamid (edit.spares closed) fun i _ hij => hclosed i hij.le
    rcases hpoised.top hamid.top with ⟨script, hcontrol, hspares⟩ | ⟨cause, hcontrol⟩
    · cases hspares with
      | ended hended =>
        obtain ⟨a, rfl⟩ := hended
        exact absurd hcontrol (hamid.pending j hamid.le (Nat.le_refl j) hamid.top a)
      | inspect _ =>
        rw [hcontrol] at hlinked
        cases hlinked
      | call hc _ => exact ⟨_, _, hcontrol, hc⟩
    · rw [hcontrol] at hlinked
      cases hlinked

/-- **Edits list entities.** Runs in which links are left to the library are sealed. -/
theorem sealed_of_edits {host : σ} {script : Script U σ} {n : Nat}
    (h : (start host script).Ordinary n)
    (hlt : ∀ i, (start host script).reissues n i < UInt32.size)
    (hedits : ∀ j < n, ((start host script).run j).control.linked? ≠ none →
      (start host script).WrittenByEdit j) : (start host script).Sealed n := by
  intro j hj p hp x hx
  by_cases hseen : ∃ i ≤ j, ((start host script).run i).world.isValid x = true
  · obtain ⟨i, hij, hvalid⟩ := hseen
    exact ⟨i, hij, .inl hvalid⟩
  -- who was never valid up to now is listed nowhere anew
  have hwritten := hedits j hj (by rw [hp]; exact Option.some_ne_none p)
  have hclosed : ∀ i ≤ j, ∀ x, (∀ i ≤ j, ((start host script).run i).world.isValid x = false) →
      ((start host script).run i).world.accepts x = false := fun i hij x hx =>
    Bool.eq_false_iff.mpr fun ha =>
      Bool.eq_false_iff.mp (hx i hij) ((World.accepts_iff _ x).mp ha).1
  obtain ⟨c, next, hcall, hc⟩ := hwritten.exists_call hp hclosed
  have hup := upheld_of_le host script h.tame hlt (Nat.le_of_lt hj)
  have hstep : ((start host script).run j).step =
      some (((start host script).run j).call c next) := by
    simp only [step, hcall, runScript]
  have hord := h (j + 1) (by omega)
  rw [hcall] at hp
  rw [run_succ_of_run_step hstep] at hx hord
  refine ⟨j, Nat.le_refl j, .inr ⟨p, mem_childrenOf_of_spares hup.wf hc hp (fun cause hcause => ?_)
    (fun i hij => Bool.eq_false_iff.mpr fun hvalid => hseen ⟨i, hij, hvalid⟩) hx⟩⟩
  change (((start host script).run j).call c next).control.isOrdinary = true at hord
  rw [hcause] at hord
  cases hord

end Machine

end EntityScene
