import EntityScene.Proofs.Felling
import EntityScene.Proofs.Listings

/-!
# Whoever is claimed is doomed

Cascades nest, and share what they have claimed: a node may be passed over because another
cascade owns it, and its destruction may be refused because somebody else destroys it
already. Whoever is claimed is doomed all the same: it is gone, or being destroyed, or about
to be, or some cascade has not come to it yet.

- `Introduced`: everybody that a dispatch is about was issued.
- `Machine.Doomed`, `doomed_of_move`: once doomed, always doomed.
- `Machine.Reaped`, `reaped_of_move`: whoever is claimed is doomed.
- `isValid_of_doomed`: when no call is in progress, the doomed are gone.
-/

namespace EntityScene

variable {U σ : Type} [SceneFamily U] [DecidableEq U]

/-! ## Everybody that a dispatch is about -/

/-- The entity that a dispatch, or the start of a cascade, is about. -/
def Frame.subject? : Frame U σ → Option Entity
  | .dispatch _ _ e _ | .unlinking _ e => some e
  | _ => none

omit [DecidableEq U] in
theorem Frame.subject?_of_isIncidental {f : Frame U σ} (h : f.isIncidental = true) :
    f.subject? = none := by
  cases f <;> first | rfl | cases h

/-- Everybody that a dispatch is about was issued. -/
structure Introduced (count : UInt32 → Nat) (t : Entity.Table) (stack : List (Frame U σ))
    (control : Control U σ) : Prop where
  frames : ∀ {f x}, f ∈ stack → f.subject? = some x → t.Issued count x
  publish : ∀ {id event e}, control = .publish id event e → t.Issued count e

namespace Machine

variable {m m' : Machine U σ} {count count' : UInt32 → Nat}

/-- Who is the subject of a dispatch is valid, or was when it got the component. -/
theorem issued_of_publish (hup : Upheld count m'.world m'.stack m'.control) (hm : Move m m')
    {id : ComponentId} {event : LifeEvent} {e : Entity}
    (hc : m'.control = .publish id event e) : m'.world.entities.Issued count e := by
  have htorn : ∀ {w : World (Kind U)} {x : Entity} {j : ComponentId} {rest : List (Frame U σ)},
      ¬ TornDown w x j rest m' := by
    intro w x j rest torn
    cases torn with
    | next pool world stack control =>
      rw [hc] at control
      cases control
    | last pool world stack control =>
      rw [hc] at control
      cases control
  cases hm with
  | quiet old new rest before after plain request world control =>
    rw [hc] at control
    exact hup.dated.issued_of_isAlive control.2.1
  | placed kind j x v make next frame call accepts world plain stack control =>
    rw [hc] at control
    cases control
    exact hup.issued ((world.holds id e).mpr (.inl ⟨rfl, rfl⟩))
  | announced j x call fresh row world stack control =>
    rw [hc] at control
    cases control
    have hannounced : (id, e) ∈ announced m'.stack := by
      rw [stack]
      exact List.mem_cons_self
    exact (hup.gone hannounced).1
  | begun x call alive torn => exact absurd torn htorn
  | teardown j x b rest call before torn => exact absurd torn htorn
  | created x table next call allocate world stack control => rw [hc] at control; cases control
  | asked kind j x next call number world stack control => rw [hc] at control; cases control
  | refused j x call reason world stack control => rw [hc] at control; cases control
  | finished j x b call before world control => rw [hc] at control; cases control
  | taken kind x b next script call before world control => rw [hc] at control; cases control

theorem introduced_turn (h : Introduced count m.world.entities m.stack m.control)
    (hatt : Attended m.stack m.control) (ht : Turn m m')
    (hissued : ∀ {x}, m.world.entities.Issued count x → m'.world.entities.Issued count' x)
    (hpublish : ∀ {id event e}, m'.control = .publish id event e →
      m'.world.entities.Issued count' e) :
    Introduced count' m'.world.entities m'.stack m'.control := by
  refine ⟨fun {f x} hf hx => ?_, hpublish⟩
  have hold : f ∈ m.stack → m'.world.entities.Issued count' x := fun hf => hissued (h.frames hf hx)
  have hincidental : ¬ f.isIncidental = true := fun hinc => by
    rw [Frame.subject?_of_isIncidental hinc] at hx
    cases hx
  cases ht with
  | asks new control stack frames next claims =>
    rw [stack] at hf
    rcases List.mem_append.mp hf with hnew | hf
    · exact absurd (frames f hnew) hincidental
    · exact hold hf
  | announces id e call stack control claims =>
    rw [stack] at hf
    rcases List.mem_cons.mp hf with rfl | hf
    · exact absurd rfl hincidental
    · exact hold hf
  | publishes id event e keys call stack control claims =>
    rw [stack] at hf
    rcases List.mem_cons.mp hf with rfl | hf
    · cases hx
      exact hissued (h.publish call)
    · exact hold hf
  | uproots key c e call stack next claims =>
    rw [stack] at hf
    rcases List.mem_cons.mp hf with rfl | hf
    · cases hx
      obtain ⟨id, event, keys, rest, hdispatch⟩ := hatt.invoke call
      exact hissued (h.frames (by rw [hdispatch]; exact List.mem_cons_self) rfl)
    · exact hold hf
  | answers b frame rest call before after =>
    have hrest : f ∈ rest → f ∈ m.stack := fun hf => by
      rw [before]
      exact List.mem_cons_of_mem _ hf
    by_cases hframe : ∃ id event e keys, frame = .dispatch id event e keys
    · obtain ⟨id, event, e, keys, rfl⟩ := hframe
      cases keys with
      | nil =>
        rw [after] at hf
        exact hold (hrest hf)
      | cons key keys =>
        rw [after] at hf
        rcases List.mem_cons.mp hf with rfl | hf
        · cases hx
          exact hissued (h.frames (by rw [before]; exact List.mem_cons_self) rfl)
        · exact hold (hrest hf)
    · obtain ⟨new, hstack, hnew, -⟩ := grown_resume (m := { m with stack := rest })
        (fun id event e keys hc => hframe ⟨id, event, e, keys, hc⟩) b
      rw [after, hstack] at hf
      rcases List.mem_append.mp hf with hf | hf
      · exact absurd (hnew f hf) hincidental
      · exact hold (hrest hf)
  | leaves cause frame rest call before after =>
    rw [after, stack_abandon] at hf
    exact hold (by rw [before]; exact List.mem_cons_of_mem _ hf)

/-! ## Once doomed, always doomed -/

/-- The entity is gone, or being destroyed, or about to be, or some cascade has not come to
it yet. -/
def Doomed (m : Machine U σ) (x : Entity) : Prop :=
  m.world.isValid x = false ∨ m.world.isDestroying x = true ∨ m.control = .destroy x ∨
    ∃ c past ahead, .cascade c past ahead ∈ m.stack ∧ x ∈ ahead

omit [DecidableEq U] in
theorem doomed_tornDown {w : World (Kind U)} {x : Entity} {id : ComponentId}
    {rest : List (Frame U σ)} (torn : TornDown w x id rest m') (hx : w.isDestroying x = true) :
    m'.Doomed x := by
  cases torn with
  | next pool world stack control =>
    rw [Doomed, world]
    exact .inr (.inl hx)
  | last pool world stack control =>
    rw [Doomed, world]
    refine .inl (Bool.eq_false_iff.mpr fun hv => ?_)
    exact ((Entity.Table.isAlive_release (World.isValid_of_isDestroying hx) x).mp hv).2 rfl

omit [DecidableEq U] in
/-- Whoever is to be destroyed is being destroyed after that, or gone. -/
theorem doomed_destroy (m : Machine U σ) (x : Entity) : (m.destroy x).Doomed x := by
  by_cases halive : m.world.entities.state? x = some .alive
  · exact doomed_tornDown (tornDown_destroy m halive)
      ((Entity.Table.isDestroying_beginDestroy halive x).mpr (.inl rfl))
  · rw [destroy_of_ne m halive]
    cases hvalid : m.world.isValid x with
    | false => exact .inl hvalid
    | true =>
      rcases (Entity.Table.isAlive_iff _ x).mp hvalid with h | h
      · exact absurd h halive
      · exact .inr (.inl ((Entity.Table.isDestroying_iff _ x).mpr h))

/-- A cascade that goes on is about to destroy a node that it had not come to, and keeps the
others. -/
theorem doomed_cascadeOn (m : Machine U σ) (c : Nat) (past : List Entity) {ahead : List Entity}
    {x : Entity} (hx : x ∈ ahead) : (m.cascadeOn c past ahead).Doomed x := by
  cases ahead with
  | nil => cases hx
  | cons e ahead =>
    rcases List.mem_cons.mp hx with rfl | hx
    · exact .inr (.inr (.inl rfl))
    · exact .inr (.inr (.inr ⟨c, _, _, List.mem_cons_self, List.mem_append_left _ hx⟩))

/-- A handle that was issued stays doomed. -/
theorem doomed_of_move {x : Entity} (h : m.Doomed x) (hm : Move m m') (hstep : m.step = some m')
    (hage : Entity.Table.Aged count m.world.entities m'.world.entities x) : m'.Doomed x := by
  rcases h with hgone | hdes | hcall | ⟨c, past, ahead, hmem, hx⟩
  · exact .inl (hage.isAlive_eq_false hgone)
  · cases hvalid : m'.world.isValid x with
    | false => exact .inl hvalid
    | true => exact .inr (.inl (hage.destroying hdes hvalid))
  · simp only [step, hcall, Option.some.injEq] at hstep
    subst hstep
    exact doomed_destroy m x
  -- the cascade still waits, or it goes on now and comes to the next node
  · rcases (turn_of_step hstep).suffix_or_told with
      hsuf | ⟨frame, rest, hbefore, hrest, ⟨b, -, rfl⟩ | ⟨cause, hc, -⟩⟩
    · exact .inr (.inr (.inr ⟨c, past, ahead, hsuf.subset hmem, hx⟩))
    · rw [hbefore] at hmem
      rcases List.mem_cons.mp hmem with rfl | hmem
      · exact doomed_cascadeOn _ c past hx
      · exact .inr (.inr (.inr ⟨c, past, ahead, hrest.subset hmem, hx⟩))
    · exact absurd hc (hm.not_unwind cause)

/-! ## Whoever is claimed is doomed -/

omit [DecidableEq U] in
theorem mem_claim_fst (m : Machine U σ) (c : Nat) (es : List Entity) (x : Entity) :
    x ∈ (m.claim c es).1 ↔ x ∈ es ∧ x ∉ m.claims.getD c [] :=
  mem_claimAll_fst _ es x

omit [DecidableEq U] in
/-- Who is claimed after a claim was so before, or is claimed anew. -/
theorem mem_claims_claim {m : Machine U σ} {c c' : Nat} {es : List Entity} {x : Entity}
    (h : x ∈ (m.claim c es).2.claims.getD c' []) :
    x ∈ m.claims.getD c' [] ∨ x ∈ (m.claim c es).1 := by
  have hset := mem_claimAll_snd (m.claims.getD c []) es x
  have hfresh := mem_claim_fst m c es x
  change x ∈ (m.claims.setIfInBounds c (claimAll (m.claims.getD c []) es).2).getD c' [] at h
  generalize (claimAll (m.claims.getD c []) es).2 = set at h hset
  by_cases hold : x ∈ m.claims.getD c' []
  · exact .inl hold
  · refine .inr (hfresh.mpr ?_)
    rw [Array.getD_eq_getD_getElem?, Array.getElem?_setIfInBounds] at h
    split at h
    · rename_i hcc
      rw [hcc] at hset ⊢
      split at h
      · rcases hset.mp h with hclaimed | hes
        · exact absurd hclaimed hold
        · exact ⟨hes, hold⟩
      · cases h
    · rw [← Array.getD_eq_getD_getElem?] at h
      exact absurd h hold

omit [DecidableEq U] in
/-- Nobody is claimed by giving claims back. -/
theorem mem_claims_disclaim {m : Machine U σ} {c c' : Nat} {es : List Entity} {x : Entity}
    (h : x ∈ (m.disclaim c es).claims.getD c' []) : x ∈ m.claims.getD c' [] := by
  change x ∈ (m.claims.modify c (·.filter (· ∉ es))).getD c' [] at h
  rw [Array.getD_eq_getD_getElem?, Array.getElem?_modify] at h
  rw [Array.getD_eq_getD_getElem?]
  split at h
  · cases hset : m.claims[c']? with
    | none =>
      rw [hset] at h
      cases h
    | some set =>
      rw [hset] at h
      exact (List.mem_filter.mp h).1
  · exact h

/-- Who is claimed when a cascade goes on is a child of the node that it has come to. -/
theorem mem_claims_cascadeOn {m : Machine U σ} {c c' : Nat} {past ahead : List Entity}
    {x : Entity} (h : x ∈ (m.cascadeOn c past ahead).claims.getD c' []) :
    x ∈ m.claims.getD c' [] ∨
      (∃ e, x ∈ m.world.childrenOf e) ∧ (m.cascadeOn c past ahead).Doomed x := by
  cases ahead with
  | nil => exact .inl (mem_claims_disclaim h)
  | cons e ahead =>
    rcases mem_claims_claim h with hold | hfresh
    · exact .inl hold
    · exact .inr ⟨⟨e, ((mem_claim_fst m c _ x).mp hfresh).1⟩,
        .inr (.inr (.inr ⟨c, _, _, List.mem_cons_self, List.mem_append_right _ hfresh⟩))⟩

/-- The entity was issued and is doomed if some cascade has claimed it. -/
def Reaped (m : Machine U σ) (count : UInt32 → Nat) (x : Entity) : Prop :=
  ∀ c, x ∈ m.claims.getD c [] → m.world.entities.Issued count x ∧ m.Doomed x

/-- Everybody that a collection claims is its node, or a child of somebody. -/
theorem eq_or_child_of_mem {w : World (Kind U)} {e x : Entity} (h : x ∈ e :: w.descendants e) :
    x = e ∨ ∃ p, x ∈ w.childrenOf p := by
  rcases List.mem_cons.mp h with rfl | h
  · exact .inl rfl
  · rcases Relation.ReflTransGen.cases_tail (World.below_of_mem_descendants h) with
      heq | ⟨p, -, hp⟩
    · exact .inl heq
    · exact .inr ⟨p, hp⟩

omit [DecidableEq U] in
theorem claims_tearDown (m : Machine U σ) (e : Entity) (id : ComponentId) :
    (m.tearDown e id).claims = m.claims := by
  unfold tearDown
  split <;> rfl

theorem resume_unlinking (m : Machine U σ) (c : Nat) (e : Entity) (b : Bool) :
    m.resume (.unlinking c e) b =
      (m.claim c (e :: m.world.descendants e)).2.cascadeOn c []
        (m.claim c (e :: m.world.descendants e)).1 := rfl

/-- Who is claimed when a frame is answered is the node of a collection, or a child of
somebody; and doomed. -/
theorem mem_claims_resume {m : Machine U σ} {frame : Frame U σ} {b : Bool} {c : Nat} {x : Entity}
    (h : x ∈ (m.resume frame b).claims.getD c []) :
    x ∈ m.claims.getD c [] ∨
      (frame.subject? = some x ∨ ∃ p, x ∈ m.world.childrenOf p) ∧ (m.resume frame b).Doomed x := by
  cases frame with
  | unlinking c' e =>
    -- the collection claims first, and then the cascade claims the children of its first node
    rw [resume_unlinking] at h ⊢
    rcases mem_claims_cascadeOn h with hclaimed | ⟨hchild, hdoomed⟩
    · rcases mem_claims_claim hclaimed with hclaimed | hfresh
      · exact .inl hclaimed
      · refine .inr ⟨?_, doomed_cascadeOn _ c' [] hfresh⟩
        rcases eq_or_child_of_mem ((mem_claim_fst m c' _ x).mp hfresh).1 with rfl | hchild
        · exact .inl rfl
        · exact .inr hchild
    · exact .inr ⟨.inr hchild, hdoomed⟩
  | cascade c' past ahead =>
    rcases mem_claims_cascadeOn h with hclaimed | ⟨hchild, hdoomed⟩
    · exact .inl hclaimed
    · exact .inr ⟨.inr hchild, hdoomed⟩
  | dispatch id event e keys =>
    cases keys with
    | nil => exact .inl h
    | cons key keys => exact .inl h
  | teardown e id =>
    rcases resume_teardown_cases m e id b with ⟨-, hresume⟩ | ⟨cause, -, -, hresume⟩
    · rw [hresume, claims_tearDown] at h
      exact .inl h
    · rw [hresume] at h
      exact .inl h
  | taking kind e next =>
    rw [(over_taking m e next b).claims] at h
    exact .inl h
  | _ => exact .inl h

/-- Whoever a cascade claims was issued and is doomed, if children are entities. -/
theorem reaped_of_move {x : Entity} (h : m.Reaped count x) (hm : Move m m')
    (hstep : m.step = some m')
    (hage : m.world.entities.Issued count x →
      Entity.Table.Aged count' m.world.entities m'.world.entities x)
    (hintroduced : Introduced count m.world.entities m.stack m.control)
    (hchild : ∀ p, x ∈ m.world.childrenOf p → m.world.entities.Issued count x) :
    m'.Reaped count' x := by
  intro c hx
  have hold : x ∈ m.claims.getD c [] → m'.world.entities.Issued count' x ∧ m'.Doomed x :=
    fun hx => by
      obtain ⟨hissued, hdoomed⟩ := h c hx
      exact ⟨(hage hissued).issued, doomed_of_move hdoomed hm hstep (hage hissued)⟩
  -- the claims change only where a frame is answered
  cases turn_of_step hstep with
  | asks new control stack frames next claims => exact hold (by rw [← claims]; exact hx)
  | announces id e call stack control claims => exact hold (by rw [← claims]; exact hx)
  | publishes id event e keys call stack control claims =>
    exact hold (by rw [← claims]; exact hx)
  | uproots key c e call stack next claims => exact hold (by rw [← claims]; exact hx)
  | leaves cause frame rest call before after => exact absurd call (hm.not_unwind cause)
  | answers b frame rest call before after =>
    rw [after] at hx
    rcases mem_claims_resume hx with hclaimed | ⟨hsource, hdoomed⟩
    · exact hold hclaimed
    · have hissued : m.world.entities.Issued count x := by
        rcases hsource with hsubject | ⟨p, hp⟩
        · exact hintroduced.frames (by rw [before]; exact List.mem_cons_self) hsubject
        · exact hchild p hp
      rw [← after] at hdoomed
      exact ⟨(hage hissued).issued, hdoomed⟩

/-! ## Throughout a run -/

section Run

variable {host : σ} {script : Script U σ} {n : Nat}

/-- A step of an ordinary run, if there is one, is a move. -/
theorem move_of_lt (h : (start host script).Ordinary n)
    (hlt : ∀ i, (start host script).reissues n i < UInt32.size) {j : Nat} (hj : j < n)
    {m' : Machine U σ} (hstep : ((start host script).run j).step = some m') :
    Move ((start host script).run j) m' := by
  refine move_of_step (upheld_of_le host script h.tame hlt (Nat.le_of_lt hj)).wf
    (h j (by omega)) ?_ hstep
  have hnext := h (j + 1) (by omega)
  rw [run_succ_of_run_step hstep] at hnext
  exact hnext

theorem introduced_of_le (h : (start host script).Ordinary n)
    (hlt : ∀ i, (start host script).reissues n i < UInt32.size) {j : Nat} (hj : j ≤ n) :
    Introduced ((start host script).reissues j) ((start host script).run j).world.entities
      ((start host script).run j).stack ((start host script).run j).control := by
  induction j with
  | zero => exact ⟨fun hf => absurd hf List.not_mem_nil, fun hc => by cases hc⟩
  | succ j ih =>
    have hintro := ih (Nat.le_of_succ_le hj)
    have hup := upheld_of_le host script h.tame hlt hj
    have hage := fun {x} => aged_of_le host script h.tame hlt (Nat.le_succ j) hj (x := x)
    rcases run_succ_cases (start host script) j with heq | hstep
    · exact
        { frames := fun hf hx => by
            rw [heq] at hf
            exact (hage (hintro.frames hf hx)).issued
          publish := fun hc => by
            rw [heq] at hc
            exact (hage (hintro.publish hc)).issued }
    · exact introduced_turn hintro (attended_run host script j) (turn_of_step hstep)
        (fun hx => (hage hx).issued) fun hc =>
          issued_of_publish hup (move_of_lt h hlt hj hstep) hc

/-- Whoever was listed as a child was issued. -/
theorem issued_of_genuine (h : (start host script).Ordinary n)
    (hlt : ∀ i, (start host script).reissues n i < UInt32.size) {x : Entity} {k j : Nat}
    (hx : (start host script).Genuine x k) (hjk : j ≤ k) (hj : j ≤ n) {p : Entity}
    (hp : x ∈ ((start host script).run j).world.childrenOf p) :
    ((start host script).run j).world.entities.Issued ((start host script).reissues j) x := by
  obtain ⟨i, hij, hvalid⟩ := hx j hjk p hp
  have hup := upheld_of_le host script h.tame hlt (Nat.le_trans hij hj)
  exact (aged_of_le host script h.tame hlt hij hj (hup.dated.issued_of_isAlive hvalid)).issued

theorem reaped_of_le (h : (start host script).Ordinary n)
    (hlt : ∀ i, (start host script).reissues n i < UInt32.size) {x : Entity} {k j : Nat}
    (hx : (start host script).Genuine x k) (hjk : j ≤ k) (hj : j ≤ n) :
    ((start host script).run j).Reaped ((start host script).reissues j) x := by
  induction j with
  | zero =>
    intro c hc
    simp [start] at hc
  | succ j ih =>
    have hjn := Nat.le_of_succ_le hj
    have hreaped := ih (Nat.le_of_succ_le hjk) hjn
    have hage := aged_of_le host script h.tame hlt (Nat.le_succ j) hj (x := x)
    rcases run_succ_cases (start host script) j with heq | hstep
    · intro c hc
      rw [heq] at hc hage ⊢
      obtain ⟨hissued, hdoomed⟩ := hreaped c hc
      exact ⟨(hage hissued).issued, hdoomed⟩
    · exact reaped_of_move hreaped (move_of_lt h hlt hj hstep) hstep hage
        (introduced_of_le h hlt hjn)
        fun p hp => issued_of_genuine h hlt hx (Nat.le_of_succ_le hjk) hjn hp

/-- Once doomed, always doomed. -/
theorem doomed_of_le (h : (start host script).Ordinary n)
    (hlt : ∀ i, (start host script).reissues n i < UInt32.size) {x : Entity} {k j : Nat}
    (hissued : ((start host script).run k).world.entities.Issued
      ((start host script).reissues k) x)
    (hdoomed : ((start host script).run k).Doomed x) (hkj : k ≤ j) (hj : j ≤ n) :
    ((start host script).run j).Doomed x := by
  induction hkj with
  | refl => exact hdoomed
  | @step j hkj ih =>
    have hjn := Nat.le_of_succ_le hj
    have hissued' := (aged_of_le host script h.tame hlt hkj hjn hissued).issued
    have hage := aged_of_le host script h.tame hlt (Nat.le_succ j) hj hissued'
    rcases run_succ_cases (start host script) j with heq | hstep
    · rw [heq]
      exact ih hjn
    · exact doomed_of_move (ih hjn) (move_of_lt h hlt hj hstep) hstep hage

/-- When no call is in progress the doomed are gone. -/
theorem isValid_of_doomed (h : (start host script).Ordinary n)
    (hidle : ((start host script).run n).isIdle = true) {x : Entity}
    (hdoomed : ((start host script).run n).Doomed x) :
    ((start host script).run n).world.isValid x = false := by
  obtain ⟨hscope, hcontrol⟩ := Bool.and_eq_true_iff.mp hidle
  rcases hdoomed with hgone | hdes | hcall | ⟨c, past, ahead, hmem, -⟩
  · exact hgone
  · have hquiet := ((sound_run host script h).settled hscope).destroying x
    rw [hdes] at hquiet
    cases hquiet
  · rw [hcall] at hcontrol
    cases hcontrol
  · cases List.all_eq_true.mp hscope _ hmem

end Run

end Machine

end EntityScene
