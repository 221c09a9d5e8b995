import EntityScene.Proofs.Repertoire

/-!
# What components are like

Components are written by the calls that put one on an entity, change it or replace it, and
nowhere else, but that a cascade drops a child. So if these calls keep to what the components of
an entity may be like, all components are like that, whatever handlers do in between.

- `Trait`: what a component of an entity may be like.
- `Call.Respects`: the call writes only components with the trait.
- `World.Bears`: the stored components have the trait.
- `Machine.Bearing`, `bearing_run`: with scripts of such calls, every world of a run bears the
  trait.
-/

namespace EntityScene

/-- What a component of an entity may be like. -/
abbrev Trait (K : Type) [ComponentFamily K] : Type := (kind : K) → Entity → Value kind → Prop

section Worlds

variable {K : Type} [ComponentFamily K] [DecidableEq K] {A : Trait K} {w w' : World K}
variable {kind : K} {e : Entity}

namespace World

/-- The stored components have the trait. -/
def Bears (A : Trait K) (w : World K) : Prop :=
  ∀ kind e v, w.stored? kind e = some v → A kind e v

theorem Bears.of_stored? (h : w.Bears A)
    (hstored : ∀ kind x v, w'.stored? kind x = some v → w.stored? kind x = some v) : w'.Bears A :=
  fun kind x v hv => h kind x v (hstored kind x v hv)

theorem Bears.of_undisturbed (h : w.Bears A) (hw : Undisturbed (fun _ => True) w w') :
    w'.Bears A :=
  h.of_stored? fun _ x _ hv => (hw.stored? trivial x).symm.trans hv

theorem bears_erase (hwf : w.Wf) (h : w.Bears A) (id : ComponentId) (e : Entity) :
    (w.erase id e).Bears A := by
  refine h.of_stored? fun kind x v hv => ?_
  rw [stored?_erase hwf] at hv
  split at hv
  · cases hv
  · exact hv

theorem bears_pull (hwf : w.Wf) (h : w.Bears A) (kind : K) (e : Entity) :
    (w.pull kind e).2.Bears A := by
  cases hid : w.idOf? kind with
  | none =>
    rw [pull, storage?_eq_none hid]
    exact h
  | some id =>
    rw [pull_eq hwf hid]
    exact bears_erase hwf h id e

theorem bears_modify (h : w.Bears A) {f : Value kind → Value kind}
    (hf : ∀ v, A kind e v → A kind e (f v)) : (w.updateStorage kind (·.modify e f)).Bears A := by
  intro other x v hv
  by_cases hother : other = kind
  · subst hother
    rw [stored?_modify] at hv
    split at hv
    · rename_i hx
      obtain ⟨old, hold, rfl⟩ := Option.map_eq_some_iff.mp hv
      exact hx ▸ hf old (h other e old hold)
    · exact h other x v hv
  · rw [stored?_updateStorage_of_ne hother] at hv
    exact h other x v hv

theorem bears_edit (h : w.Bears A) {f : Value kind → Value kind}
    (hf : ∀ v, A kind e v → A kind e (f v)) : (w.edit kind e f).Bears A := by
  unfold edit
  split
  · exact bears_modify h hf
  · exact h

theorem Placed.bears {id : ComponentId} {v : Value kind} (hw : Placed w kind id e v w')
    (h : w.Bears A) (hv : A kind e v) : w'.Bears A := by
  intro other x u hu
  by_cases hother : other = kind
  · subst hother
    rw [hw.stored?_self] at hu
    split at hu
    · rename_i hx
      exact hx ▸ Option.some.inj hu ▸ hv
    · split at hu
      · cases hu
      · exact h other x u hu
  · rw [hw.stored?_other hother] at hu
    exact h other x u hu

theorem bears_place (hwf : w.Wf) (h : w.Bears A) {v : Value kind} (hnull : e.isNull = false)
    (hv : A kind e v) : (w.place kind e (.ok v)).2.Bears A := by
  rcases place_cases hwf kind e (.ok v) with
    ⟨cause, -, hnull' | ⟨cause', hmake⟩⟩ | ⟨hold, -⟩ | ⟨u, id, hmake, -, -, hplaced⟩
  · rw [hnull] at hnull'
    cases hnull'
  · cases hmake
  · rw [hold]
    exact h.of_undisturbed (undisturbed_register hwf kind)
  · exact hplaced.bears h (Except.ok.inj hmake ▸ hv)

theorem bears_fetchEdit (hwf : w.Wf) (h : w.Bears A) {kinds : List K}
    {f : (kind : K) → Value kind → Value kind}
    (hf : ∀ kind ∈ kinds, ∀ v, A kind e v → A kind e (f kind v)) :
    (w.fetchEdit e kinds f).2.Bears A := by
  have hreg : Undisturbed (fun _ => True) w (w.registerAll kinds).2 :=
    undisturbed_registerAll hwf kinds
  have hfold : ∀ (ps : List (K × ComponentId)) (w : World K), w.Wf → w.Bears A →
      (∀ p ∈ ps, w.idOf? p.1 = some p.2 ∧ p.1 ∈ kinds) →
      (ps.foldl (fun w p => w.editPooled p.1 p.2 e (f p.1)) w).Bears A := by
    intro ps
    induction ps with
    | nil => exact fun w _ h _ => h
    | cons p ps ih =>
      intro w hw h hps
      obtain ⟨hid, hmem⟩ := hps p List.mem_cons_self
      have hfirst : Undisturbed (fun _ => False) w (w.editPooled p.1 p.2 e (f p.1)) :=
        undisturbed_editPooled hw e hid id
      have hbears : (w.editPooled p.1 p.2 e (f p.1)).Bears A := by
        have hmodify : w.editPooled p.1 p.2 e (f p.1) =
            w.updateStorage p.1 (·.modify e (f p.1)) := (updateStorage_of_idOf? hid).symm
        rw [hmodify]
        exact bears_modify h (hf p.1 hmem)
      refine ih _ hfirst.wf hbears fun q hq => ?_
      obtain ⟨hid', hmem'⟩ := hps q (List.mem_cons_of_mem _ hq)
      exact ⟨hfirst.idOf? hid', hmem'⟩
  have hregistered := h.of_undisturbed hreg
  unfold fetchEdit
  simp only
  split
  · split
    · refine hfold _ _ hreg.wf hregistered fun p hp => ?_
      exact ⟨idOf?_registerAll hp, (List.of_mem_zip hp).1⟩
    · exact hregistered
  · exact hregistered

end World

end Worlds

variable {U σ : Type} [SceneFamily U] {A : Trait (Kind U)}

/-- The call writes only components with the trait, none of which is abandoned while it is
made. -/
def Call.Respects (A : Trait (Kind U)) : Call U → Prop
  | .emplace kind e make => ∃ v, make = .ok v ∧ A kind e v
  | .edit kind e f | .patch kind e f => ∀ v, A kind e v → A kind e (f v)
  | .fetchEdit e kinds f => ∀ kind ∈ kinds, ∀ v, A kind e v → A kind e (f kind v)
  | .alterStorage .. | .updateTransform _ | .updateAllTransforms => False
  | _ => True

namespace Machine

variable [DecidableEq U] {m m' : Machine U σ}

/-- The world is in order and bears the trait, and nobody will write anything else. -/
structure Bearing (A : Trait (Kind U)) (m : Machine U σ) : Prop where
  wf : m.world.Wf
  bears : m.world.Bears A
  within : m.Within (Call.Respects A)

theorem Bearing.isTame (h : m.Bearing A) : m.isTame = true := by
  unfold Machine.isTame
  split
  · rename_i hcall
    exact (h.within.call hcall).elim
  · rename_i hcall
    obtain ⟨v, hv, -⟩ := h.within.call hcall
    cases hv
  · rfl

theorem bears_call (h : m.Bearing A) {c : Call U} {next : c.Reply → Script U σ}
    (hc : c.Respects A) : (m.call c next).world.Bears A := by
  cases c with
  | create =>
    simp only [call]
    split <;> exact h.bears
  | register kind => exact h.bears.of_undisturbed (World.undisturbed_register h.wf kind)
  | emplace kind e make =>
    obtain ⟨v, rfl, hv⟩ := hc
    by_cases ha : m.world.accepts e = true
    · have hnull := h.wf.table.isNull_eq_false ((World.accepts_iff m.world e).mp ha).1
      have hplaced := World.bears_place h.wf h.bears hnull hv
      simp only [call, if_pos ha]
      split <;> exact hplaced
    · simp only [call, if_neg ha]
      exact h.bears
  | edit kind e f => exact World.bears_edit h.bears hc
  | patch kind e f =>
    cases hpatch : m.patch? kind e f (.resume fun _ => next true) with
    | none =>
      simp only [call, hpatch, Option.getD_none]
      exact h.bears
    | some m' =>
      obtain ⟨id, v, -, -, rfl⟩ := patch?_eq_some hpatch
      simp only [call, hpatch, Option.getD_some]
      exact World.bears_edit h.bears hc
  | take kind e =>
    simp only [call]
    split <;> exact h.bears
  | fetchEdit e kinds f =>
    have hfetch := World.bears_fetchEdit h.wf h.bears hc
    simp only [call]
    split <;> exact hfetch
  | alterStorage kind f => exact hc.elim
  | disconnectAll kind event =>
    exact h.bears.of_undisturbed (World.undisturbed_disconnectAll h.wf kind event)
  | updateTransform root => exact hc.elim
  | updateAllTransforms => exact hc.elim
  | block connection =>
    rw [(over_block m connection next).world]
    exact h.bears
  | _ => exact h.bears

theorem bears_runScript (h : m.Bearing A) {script : Script U σ}
    (hscript : script.Within (Call.Respects A)) : (m.runScript script).world.Bears A := by
  cases hscript with
  | call hc _ => exact bears_call h hc
  | @connect kind event handler next _ _ =>
    exact h.bears.of_undisturbed (undisturbed_runScript_connect h.wf _ kind event handler next)
  | @cascade next _ => exact h.bears.of_undisturbed (undisturbed_runScript_cascade h.wf _ next)
  | @blocked connection body next _ _ =>
    rw [world_runScript_blocked]
    exact h.bears
  | _ => exact h.bears

theorem bears_tearDown (m : Machine U σ) (h : m.world.Bears A) (e : Entity) (id : ComponentId) :
    (m.tearDown e id).world.Bears A := by
  unfold tearDown
  split <;> exact h

theorem bears_destroy (h : m.world.Bears A) (e : Entity) : (m.destroy e).world.Bears A := by
  have hbegun : (m.world.beginDestroy e).Bears A := h
  simp only [destroy]
  split
  · exact bears_tearDown { m with world := m.world.beginDestroy e } hbegun e 0
  · exact hbegun

section Cascades

variable (hdrop : ∀ e node child, A .node e node → A .node e (TreeNode.dropChild node child))

include hdrop

/-- A cascade that starts drops its node from the children of the parent. -/
theorem bears_invoke (h : m.Bearing A) (key : ConnectionKey) (e : Entity) :
    (m.invoke key e).world.Bears A := by
  unfold invoke
  split
  · exact h.bears
  · rename_i claims _
    unfold startCascade
    split
    · exact h.bears
    · cases hpatch : (m.world.validParentOf? e).bind fun parent =>
          m.patch? .node parent (fun node => TreeNode.dropChild node e) (.unlinking claims e) with
      | none =>
        simp only [hpatch, Option.getD_none]
        exact h.bears
      | some m' =>
        obtain ⟨parent, -, hpatch'⟩ := Option.bind_eq_some_iff.mp hpatch
        obtain ⟨id, v, -, -, rfl⟩ := patch?_eq_some hpatch'
        simp only [hpatch, Option.getD_some]
        exact World.bears_edit h.bears fun node => hdrop parent node e
  · exact h.bears

omit hdrop in
theorem bears_resume (h : m.Bearing A) (frame : Frame U σ) (b : Bool) :
    (m.resume frame b).world.Bears A := by
  cases frame with
  | dispatch id event e keys => cases keys <;> exact h.bears
  | teardown e id =>
    rw [resume_teardown h.wf]
    cases b with
    | true =>
      have herased := World.bears_erase h.wf h.bears id e
      exact bears_tearDown { m with world := m.world.erase id e } herased e (id + 1)
    | false => exact bears_tearDown m h.bears e (id + 1)
  | taking kind e next =>
    obtain ⟨old, hresume⟩ := resume_taking h.wf e next b
    rw [hresume]
    cases b with
    | true => exact World.bears_pull h.wf h.bears kind e
    | false => exact h.bears
  | unlinking claims e =>
    simp only [resume, cascadeOn]
    split <;> exact h.bears
  | cascade claims past ahead =>
    simp only [resume, cascadeOn]
    split <;> exact h.bears
  | _ => exact h.bears

/-- A machine that keeps to such calls keeps the trait. -/
theorem bearing_of_step (h : m.Bearing A) (hstep : m.step = some m') : m'.Bearing A := by
  refine
    { wf := wf_of_step h.wf h.isTame hstep
      bears := ?_
      within := within_of_step h.within hstep }
  cases stepped_of_step hstep with
  | run script hcall =>
    have hscript := h.within.control
    rw [hcall] at hscript
    exact bears_runScript h hscript
  | publish id event e hcall =>
    exact h.bears.of_undisturbed (World.undisturbed_snapshot h.wf id event)
  | invoke key e hcall => exact bears_invoke hdrop h key e
  | destroy e hcall => exact bears_destroy h.bears e
  | announce id e hcall =>
    simp only [announce]
    split <;> exact h.bears
  | reply b frame stack hcall hstack =>
    have htail : Bearing A { m with stack } :=
      { h with
        within := { h.within with
          stack := fun f hf => h.within.stack f (hstack ▸ List.mem_cons_of_mem frame hf) } }
    exact bears_resume htail frame b
  | unwind cause frame stack hcall hstack => cases frame <;> exact h.bears

/-- Every machine of the run bears the trait. -/
theorem bearing_run (h : m.Bearing A) (n : Nat) : (m.run n).Bearing A := by
  induction n generalizing m with
  | zero => exact h
  | succ n ih =>
    unfold run
    cases hstep : m.step with
    | none => exact h
    | some m' => exact ih (bearing_of_step hdrop h hstep)

end Cascades

end Machine

end EntityScene
