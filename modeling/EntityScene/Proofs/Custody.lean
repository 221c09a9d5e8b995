import Mathlib.Data.List.Perm.Basic
import EntityScene.Proofs.Collection
import EntityScene.Proofs.Hookups

/-!
# Who holds which claims

Cascades that share a set of claims nest to any depth, and each claims only what the others
have not. What a cascade has claimed stands on its frame, so that it can be given back when the
frame goes, be it answered or left.

- `claimed`: what the cascades on a stack have claimed.
- `perm_claimAll`, `perm_filter_not_mem`: claims are added to a set, and taken out of it.
- `Machine.Hold`, `hold_of_step`: what a step does to claims, whatever it does else.
- `Custody`, `Machine.custody_run`: throughout every run a set of claims consists of what the
  cascades on the stack have claimed, each node once.
- `Machine.lasting_run`, `ne_of_destroy`: a cascade that goes on claims more and forgets nothing, and
  asks for no destruction twice.
-/

namespace EntityScene

/-! ## Sets of claims -/

/-- What is claimed comes on top of what was. -/
theorem perm_claimAll (set es : List Entity) :
    (claimAll set es).2.Perm ((claimAll set es).1 ++ set) := by
  induction es generalizing set with
  | nil => exact .refl _
  | cons e es ih =>
    unfold claimAll
    split
    · exact ih set
    · exact (ih (e :: set)).trans List.perm_middle

theorem nodup_claimAll_snd {set : List Entity} (h : set.Nodup) (es : List Entity) :
    (claimAll set es).2.Nodup := by
  refine (perm_claimAll set es).nodup_iff.mpr (List.nodup_append'.mpr
    ⟨nodup_claimAll_fst set es, h, fun x hx hset => ?_⟩)
  exact ((mem_claimAll_fst set es x).mp hx).2 hset

/-- What is given back is taken out, and the rest stays. -/
theorem perm_filter_not_mem {set es rest : List Entity} (h : set.Perm (es ++ rest))
    (hnodup : set.Nodup) : (set.filter (· ∉ es)).Perm rest := by
  have hdisjoint := (List.nodup_append'.mp (h.nodup_iff.mp hnodup)).2.2
  refine (h.filter _).trans ?_
  rw [List.filter_append, List.filter_eq_nil_iff.mpr fun x hx => by simpa using hx,
    List.filter_eq_self.mpr fun x hx => by simpa using fun hes => hdisjoint hes hx,
    List.nil_append]

variable {U σ : Type} [SceneFamily U]

/-! ## Claims on a stack -/

/-- The set of claims that a cascade works with. -/
def Frame.set? : Frame U σ → Option Nat
  | .unlinking c _ | .cascade c _ _ => some c
  | _ => none

/-- What a frame has claimed in a set. -/
def Frame.claimed (c : Nat) : Frame U σ → List Entity
  | .cascade c' past ahead => if c' = c then past ++ ahead else []
  | _ => []

/-- What the cascades on a stack have claimed in a set, the innermost first. -/
def claimed (c : Nat) (stack : List (Frame U σ)) : List Entity :=
  stack.flatMap (Frame.claimed c)

@[simp] theorem claimed_cons (c : Nat) (frame : Frame U σ) (stack : List (Frame U σ)) :
    claimed c (frame :: stack) = frame.claimed c ++ claimed c stack := rfl

theorem Frame.claimed_of_set? {frame : Frame U σ} (h : frame.set? = none) (c : Nat) :
    frame.claimed c = [] := by
  cases frame <;> first | rfl | cases h

theorem Frame.set?_of_mem_claimed {frame : Frame U σ} {c : Nat} {x : Entity}
    (h : x ∈ frame.claimed c) : frame.set? = some c := by
  cases frame with
  | cascade c' past ahead =>
    by_cases hc : c' = c
    · exact congrArg some hc
    · rw [Frame.claimed, if_neg hc] at h
      cases h
  | _ => cases h

theorem claimed_append {new : List (Frame U σ)} (hnew : ∀ f ∈ new, f.set? = none) (c : Nat)
    (stack : List (Frame U σ)) : claimed c (new ++ stack) = claimed c stack := by
  rw [claimed, List.flatMap_append, List.flatMap_eq_nil_iff.mpr fun f hf =>
    Frame.claimed_of_set? (hnew f hf) c, List.nil_append]
  rfl

/-- A stack without cascades has claimed nothing. -/
theorem claimed_eq_nil {stack : List (Frame U σ)} {c : Nat}
    (h : ∀ f ∈ stack, f.set? ≠ some c) : claimed c stack = [] :=
  List.flatMap_eq_nil_iff.mpr fun f hf => List.eq_nil_iff_forall_not_mem.mpr fun _ hx =>
    h f hf (Frame.set?_of_mem_claimed hx)

/-- Scopes claim nothing. -/
theorem claimed_of_isScope {stack : List (Frame U σ)} (h : stack.all Frame.isScope = true)
    (c : Nat) : claimed c stack = [] := by
  refine claimed_eq_nil fun f hf hset => ?_
  have hscope := List.all_eq_true.mp h f hf
  cases f <;> first | (cases hscope; done) | cases hset

namespace Machine

variable {m m' : Machine U σ}

/-! ## What a step does to claims -/

/-- Frames without claims were put on the stack, and one of them waits if an entity is to be
destroyed. -/
def Laden (m m' : Machine U σ) : Prop :=
  ∃ new, m'.stack = new ++ m.stack ∧ (∀ f ∈ new, f.set? = none) ∧
    ∀ x, m'.control = .destroy x → new ≠ []

theorem Laden.stay (stack : m'.stack = m.stack) (called : ∀ x, m'.control ≠ .destroy x) :
    Laden m m' :=
  ⟨[], stack, fun _ hf => (List.not_mem_nil hf).elim, fun x hx => absurd hx (called x)⟩

theorem Laden.push {frame : Frame U σ} (stack : m'.stack = frame :: m.stack)
    (hframe : frame.set? = none) : Laden m m' :=
  ⟨[frame], stack, by simpa using hframe, fun _ _ => List.cons_ne_nil _ _⟩

/-- A call that is over asks for no destruction. -/
theorem Laden.of_over {w : World (Kind U)} (h : Over m m' w) : Laden m m' :=
  .stay h.stack fun x hx => by
    rcases h.control with ⟨script, hc⟩ | ⟨cause, hc⟩
    · rw [hc] at hx
      cases hx
    · rw [hc] at hx
      cases hx

/-- Who asks for a destruction waits for it. -/
theorem Laden.called (h : Laden m m') {x : Entity} (hx : m'.control = .destroy x) :
    ∃ f rest, m'.stack = f :: rest ∧ f.set? = none := by
  obtain ⟨new, hstack, hbare, hnew⟩ := h
  cases new with
  | nil => exact absurd rfl (hnew x hx)
  | cons f new => exact ⟨f, new ++ m.stack, hstack, hbare f List.mem_cons_self⟩

theorem laden_tearDown (m : Machine U σ) (e : Entity) (id : ComponentId) :
    Laden m (m.tearDown e id) := by
  unfold tearDown
  split
  · exact .push rfl rfl
  · exact .stay rfl fun _ hc => by cases hc

variable [DecidableEq U]

theorem laden_call (m : Machine U σ) (c : Call U) (next : c.Reply → Script U σ) :
    Laden m (m.call c next) := by
  cases c with
  | create =>
    simp only [call]
    split <;> exact .stay rfl fun _ hc => by cases hc
  | destroy e => exact .push rfl rfl
  | emplace kind e make =>
    simp only [call]
    split
    · split
      · exact .stay rfl fun _ hc => by cases hc
      · exact .stay rfl fun _ hc => by cases hc
      · exact .push rfl rfl
    · exact .stay rfl fun _ hc => by cases hc
  | patch kind e f =>
    cases hp : m.patch? kind e f (.resume fun _ => next true) with
    | none =>
      simp only [call, hp, Option.getD_none]
      exact .stay rfl fun _ hc => by cases hc
    | some m' =>
      obtain ⟨id, v, -, -, rfl⟩ := patch?_eq_some hp
      simp only [call, hp, Option.getD_some]
      exact .push rfl rfl
  | take kind e =>
    simp only [call]
    split
    · exact .push rfl rfl
    · exact .stay rfl fun _ hc => by cases hc
  | fetchEdit e kinds f =>
    simp only [call]
    split <;> exact .stay rfl fun _ hc => by cases hc
  | block key =>
    exact .of_over (over_block m key next)
  | _ => exact .stay rfl fun _ hc => by cases hc

theorem laden_runScript (m : Machine U σ) (script : Script U σ) : Laden m (m.runScript script) := by
  cases script with
  | call c next => exact laden_call m c next
  | connect kind event handler next =>
    exact .of_over (over_connect m kind event handler next)
  | cascade next => exact .of_over (m := m.withClaims) (over_cascade m next)
  | attempt body next => exact .push rfl rfl
  | blocked connection body next =>
    rcases runScript_blocked_cases m connection body next with hblock | hblock
    · rw [hblock]
      exact .push rfl rfl
    · rw [hblock]
      exact .stay rfl fun _ hc => by cases hc
  | _ => exact .stay rfl fun _ hc => by cases hc

/-- A frame without claims that is answered changes none. -/
theorem laden_resume {frame : Frame U σ} (h : frame.set? = none) (b : Bool) :
    Laden m (m.resume frame b) ∧ (m.resume frame b).claims = m.claims := by
  cases frame with
  | dispatch id event e keys =>
    cases keys with
    | nil => exact ⟨.stay rfl fun _ hc => (by cases hc), rfl⟩
    | cons key keys => exact ⟨.push rfl rfl, rfl⟩
  | teardown e id =>
    rcases resume_teardown_cases m e id b with ⟨-, hnext⟩ | ⟨cause, -, -, hnext⟩
    · rw [hnext]
      exact ⟨laden_tearDown { m with world := if b then m.world.erase id e else m.world } e (id + 1),
        claims_tearDown { m with world := if b then m.world.erase id e else m.world } e (id + 1)⟩
    · rw [hnext]
      exact ⟨.stay rfl fun _ hc => (by cases hc), rfl⟩
  | taking kind e next =>
    have hover := over_taking m e next b
    exact ⟨.of_over hover, hover.claims⟩
  | unlinking c e => cases h
  | cascade c past ahead => cases h
  | _ => exact ⟨.stay rfl fun _ hc => (by cases hc), rfl⟩

/-- A cascade has a set of claims, also one that could not be connected. -/
theorem claims_runScript_cascade (m : Machine U σ) (next : Script U σ) :
    (m.runScript (.cascade next)).claims = m.claims.push [] :=
  (over_cascade m next).claims

/-- The claims of a script are those that were, and maybe a new set. -/
theorem claims_runScript (m : Machine U σ) (script : Script U σ) :
    (m.runScript script).claims = m.claims ∨ (m.runScript script).claims = m.claims.push [] := by
  cases script with
  | cascade next => exact .inr (claims_runScript_cascade m next)
  | connect kind event handler next => exact .inl (over_connect m kind event handler next).claims
  | blocked connection body next =>
    refine .inl ?_
    rcases runScript_blocked_cases m connection body next with hblock | hblock
    · rw [hblock]
      rfl
    · rw [hblock]
      rfl
  | call c next =>
    refine .inl ?_
    cases c with
    | block key => exact (over_block m key next).claims
    | create =>
      simp only [runScript, call]
      split <;> rfl
    | emplace kind e make =>
      simp only [runScript, call]
      split
      · split <;> rfl
      · rfl
    | patch kind e f =>
      cases hp : m.patch? kind e f (.resume fun _ => next true) with
      | none =>
        simp only [runScript, call, hp, Option.getD_none]
        rfl
      | some m' =>
        obtain ⟨id, v, -, -, rfl⟩ := patch?_eq_some hp
        simp only [runScript, call, hp, Option.getD_some]
        rfl
    | take kind e =>
      simp only [runScript, call]
      split <;> rfl
    | fetchEdit e kinds f =>
      simp only [runScript, call]
      split <;> rfl
    | _ => rfl
  | _ => exact .inl rfl

/-- What a step does to claims. -/
inductive Hold (m m' : Machine U σ) : Prop
  /-- None is made or given back, but there may be a new set. -/
  | kept (claims : m'.claims = m.claims ∨ m'.claims = m.claims.push [])
      (stack : ∀ c, claimed c m'.stack = claimed c m.stack)
      (frames : ∀ f ∈ m'.stack, f ∈ m.stack ∨ f.set? = none)
      (called : ∀ x, m'.control = .destroy x → ∃ f rest, m'.stack = f :: rest ∧ f.set? = none)
  /-- A cascade is about to start. -/
  | uproots (key : ConnectionKey) (c : Nat) (e : Entity) (call : m.control = .invoke key e)
      (handler : m.handlers[key]? = some (.cascade c)) (claims : m'.claims = m.claims)
      (stack : m'.stack = .unlinking c e :: m.stack)
  /-- A cascade claims its node with what is below. -/
  | collects (b : Bool) (c : Nat) (e : Entity) (rest : List (Frame U σ))
      (call : m.control = .reply b) (before : m.stack = .unlinking c e :: rest)
      (after : m' = { m with stack := rest }.resume (.unlinking c e) b)
  /-- A cascade comes to the next node that it has claimed, or to its end. -/
  | turns (b : Bool) (c : Nat) (past ahead : List Entity) (rest : List (Frame U σ))
      (call : m.control = .reply b) (before : m.stack = .cascade c past ahead :: rest)
      (after : m' = { m with stack := rest }.cascadeOn c past ahead)
  /-- A cascade is left. -/
  | leaves (cause : Abort) (c : Nat) (past ahead : List Entity) (rest : List (Frame U σ))
      (call : m.control = .unwind cause) (before : m.stack = .cascade c past ahead :: rest)
      (after : m' = { m with stack := rest }.disclaim c (past ++ ahead))

/-- No claim changes where frames without claims come. -/
theorem Hold.of_laden (h : Laden m m')
    (claims : m'.claims = m.claims ∨ m'.claims = m.claims.push []) : Hold m m' := by
  have hcalled : ∀ x, m'.control = .destroy x → _ := fun _ => h.called
  obtain ⟨new, hstack, hnew, -⟩ := h
  refine .kept claims (fun c => ?_) (fun f hf => ?_) hcalled
  · rw [hstack, claimed_append hnew]
  · rw [hstack] at hf
    exact (List.mem_append.mp hf).symm.imp_right (hnew f)

theorem hold_invoke {key : ConnectionKey} {e : Entity} (hcall : m.control = .invoke key e) :
    Hold m (m.invoke key e) := by
  unfold invoke
  split
  · exact .of_laden (.stay rfl fun _ hc => by cases hc) (.inl rfl)
  · rename_i c hhandler
    unfold startCascade
    split
    · exact .of_laden (.stay rfl fun _ hc => by cases hc) (.inl rfl)
    · cases hp : (m.world.validParentOf? e).bind fun parent =>
          m.patch? .node parent (fun node => TreeNode.dropChild node e) (.unlinking c e) with
      | none =>
        simp only [hp, Option.getD_none]
        exact .uproots key c e hcall hhandler rfl rfl
      | some m' =>
        obtain ⟨parent, -, hpatch⟩ := Option.bind_eq_some_iff.mp hp
        obtain ⟨id, v, -, -, rfl⟩ := patch?_eq_some hpatch
        simp only [hp, Option.getD_some]
        exact .uproots key c e hcall hhandler rfl rfl
  · exact .of_laden (.stay rfl fun _ hc => by cases hc) (.inl rfl)

theorem hold_reply {b : Bool} {frame : Frame U σ} {rest : List (Frame U σ)}
    (hcall : m.control = .reply b) (hstack : m.stack = frame :: rest) :
    Hold m ({ m with stack := rest }.resume frame b) := by
  cases hset : frame.set? with
  | none =>
    obtain ⟨hladen, hclaims⟩ := laden_resume (m := { m with stack := rest }) hset b
    have hcalled : ∀ x, ({ m with stack := rest }.resume frame b).control = .destroy x → _ :=
      fun _ => hladen.called
    obtain ⟨new, hnew, hbare, -⟩ := hladen
    refine .kept (.inl hclaims) (fun c => ?_) (fun f hf => ?_) hcalled
    · rw [hnew, claimed_append hbare, hstack, claimed_cons, Frame.claimed_of_set? hset,
        List.nil_append]
    · rw [hnew] at hf
      rcases List.mem_append.mp hf with hf | hf
      · exact .inr (hbare f hf)
      · exact .inl (hstack ▸ List.mem_cons_of_mem _ hf)
  | some c =>
    cases frame with
    | unlinking c e => exact .collects b c e rest hcall hstack rfl
    | cascade c past ahead => exact .turns b c past ahead rest hcall hstack rfl
    | _ => cases hset

theorem hold_unwind {cause : Abort} {frame : Frame U σ} {rest : List (Frame U σ)}
    (hcall : m.control = .unwind cause) (hstack : m.stack = frame :: rest) :
    Hold m ({ m with stack := rest }.abandon frame cause) := by
  by_cases hframe : ∃ c past ahead, frame = .cascade c past ahead
  · obtain ⟨c, past, ahead, rfl⟩ := hframe
    exact .leaves cause c past ahead rest hcall hstack rfl
  · refine .kept (.inl ?_) (fun c => ?_) (fun f hf => ?_) fun x hx => ?_
    · cases frame with
      | cascade c past ahead => exact absurd ⟨c, past, ahead, rfl⟩ hframe
      | _ => rfl
    · rw [stack_abandon, hstack, claimed_cons]
      cases frame with
      | cascade c past ahead => exact absurd ⟨c, past, ahead, rfl⟩ hframe
      | _ => rfl
    · rw [stack_abandon] at hf
      exact .inl (hstack ▸ List.mem_cons_of_mem _ hf)
    · cases frame with
      | attempt next => cases hx
      | _ => cases hcall.symm.trans hx

/-- What every step does to claims. -/
theorem hold_of_step (h : m.step = some m') : Hold m m' := by
  cases stepped_of_step h with
  | run script hcall => exact .of_laden (laden_runScript m script) (claims_runScript m script)
  | publish id event e hcall => exact .of_laden (.push rfl rfl) (.inl rfl)
  | invoke key e hcall => exact hold_invoke hcall
  | destroy e hcall =>
    simp only [destroy]
    split
    · exact .of_laden (laden_tearDown { m with
        world := { m.world with entities := (m.world.entities.beginDestroy e).2 } } e 0)
        (.inl (claims_tearDown _ e 0))
    · exact .of_laden (.stay rfl fun _ hc => by cases hc) (.inl rfl)
  | announce id e hcall =>
    unfold announce
    split
    · exact .of_laden (.stay rfl fun _ hc => by cases hc) (.inl rfl)
    · exact .of_laden (.push rfl rfl) (.inl rfl)
  | reply b frame rest hcall hstack => exact hold_reply hcall hstack
  | unwind cause frame rest hcall hstack => exact hold_unwind hcall hstack

end Machine

/-! ## Claims and frames agree -/

namespace Machine

variable {m : Machine U σ}

theorem getD_claims_claim (m : Machine U σ) {c : Nat} (hc : c < m.claims.size) (es : List Entity)
    (c' : Nat) : (m.claim c es).2.claims.getD c' [] =
      if c' = c then (claimAll (m.claims.getD c []) es).2 else m.claims.getD c' [] := by
  change (m.claims.setIfInBounds c (claimAll (m.claims.getD c []) es).2).getD c' [] = _
  rw [Array.getD_eq_getD_getElem?, Array.getElem?_setIfInBounds]
  by_cases hcc : c = c'
  · rw [if_pos hcc, if_pos (hcc ▸ hc), if_pos hcc.symm]
    rfl
  · rw [if_neg hcc, if_neg (Ne.symm hcc), ← Array.getD_eq_getD_getElem?]

theorem getD_claims_disclaim (m : Machine U σ) (c : Nat) (es : List Entity) (c' : Nat) :
    (m.disclaim c es).claims.getD c' [] =
      if c' = c then (m.claims.getD c []).filter (· ∉ es) else m.claims.getD c' [] := by
  change (m.claims.modify c (·.filter (· ∉ es))).getD c' [] = _
  rw [Array.getD_eq_getD_getElem?, Array.getElem?_modify]
  by_cases hcc : c = c'
  · subst hcc
    rw [if_pos rfl, if_pos rfl, Array.getD_eq_getD_getElem?]
    cases m.claims[c]? <;> rfl
  · rw [if_neg hcc, if_neg (Ne.symm hcc), ← Array.getD_eq_getD_getElem?]

end Machine

/-- Each set of claims consists of what the cascades on a stack have claimed, each node once;
and cascades work with sets that there are. -/
structure Custody (claims : Array (List Entity)) (stack : List (Frame U σ)) : Prop where
  perm : ∀ c, (claims.getD c []).Perm (claimed c stack)
  nodup : ∀ c, (claims.getD c []).Nodup
  frames : ∀ f ∈ stack, ∀ c, f.set? = some c → c < claims.size

namespace Custody

variable {claims claims' : Array (List Entity)} {stack rest : List (Frame U σ)} {c : Nat}
variable {past ahead past' ahead' : List Entity}

theorem nil : Custody #[] ([] : List (Frame U σ)) :=
  { perm := fun _ => .nil
    nodup := fun c => by simp
    frames := fun f hf => (List.not_mem_nil hf).elim }

/-- A cascade has claimed each of its nodes once. -/
theorem nodup_claimed (h : Custody claims stack) (c : Nat) : (claimed c stack).Nodup :=
  (h.perm c).nodup_iff.mp (h.nodup c)

/-- A node is claimed if some cascade on the stack has claimed it. -/
theorem mem_iff (h : Custody claims stack) (c : Nat) (x : Entity) :
    x ∈ claims.getD c [] ↔ x ∈ claimed c stack :=
  (h.perm c).mem_iff

/-- Where no claim changes, frames without claims may come and go. -/
theorem kept (h : Custody claims stack)
    (hclaims : claims' = claims ∨ claims' = claims.push [])
    (hstack : ∀ c, claimed c rest = claimed c stack)
    (hframes : ∀ f ∈ rest, f ∈ stack ∨ f.set? = none) : Custody claims' rest := by
  have hget : ∀ c, claims'.getD c [] = claims.getD c [] := fun c => by
    rcases hclaims with rfl | rfl
    · rfl
    · rw [Array.getD_eq_getD_getElem?, Array.getD_eq_getD_getElem?, Array.getElem?_push]
      split
      · rename_i hc
        rw [hc, Array.getElem?_eq_none (Nat.le_refl _)]
        rfl
      · rfl
  have hsize : claims.size ≤ claims'.size := by
    rcases hclaims with rfl | rfl
    · exact Nat.le_refl _
    · exact Array.size_push [] ▸ Nat.le_succ _
  refine
    { perm := fun c => by rw [hget, hstack]; exact h.perm c
      nodup := fun c => by rw [hget]; exact h.nodup c
      frames := fun f hf c hset => ?_ }
  rcases hframes f hf with hold | hbare
  · exact Nat.lt_of_lt_of_le (h.frames f hold c hset) hsize
  · rw [hset] at hbare
    cases hbare

/-- A cascade claims what is not claimed yet. -/
theorem claim {m : Machine U σ} (h : Custody m.claims (.cascade c past ahead :: rest))
    {es : List Entity}
    (hperm : (past' ++ ahead').Perm ((m.claim c es).1 ++ (past ++ ahead))) :
    Custody (m.claim c es).2.claims (.cascade c past' ahead' :: rest) := by
  have hc := h.frames _ List.mem_cons_self c rfl
  refine
    { perm := fun c' => ?_
      nodup := fun c' => ?_
      frames := fun f hf c' hset => ?_ }
  · have hold := h.perm c'
    rw [Machine.getD_claims_claim m hc]
    simp only [claimed_cons, Frame.claimed] at hold ⊢
    by_cases hcc : c' = c
    · subst hcc
      rw [if_pos rfl] at hold ⊢
      rw [if_pos rfl]
      calc (claimAll (m.claims.getD c' []) es).2
          |>.Perm ((claimAll (m.claims.getD c' []) es).1 ++ m.claims.getD c' []) :=
            perm_claimAll _ es
        _ |>.Perm ((m.claim c' es).1 ++ ((past ++ ahead) ++ claimed c' rest)) := hold.append_left _
        _ |>.Perm ((past' ++ ahead') ++ claimed c' rest) := by
          rw [← List.append_assoc]
          exact (hperm.append_right _).symm
    · rw [if_neg (Ne.symm hcc)] at hold ⊢
      rw [if_neg hcc]
      exact hold
  · rw [Machine.getD_claims_claim m hc]
    by_cases hcc : c' = c
    · rw [if_pos hcc]
      exact nodup_claimAll_snd (h.nodup c) es
    · rw [if_neg hcc]
      exact h.nodup c'
  · have hsize : (m.claim c es).2.claims.size = m.claims.size := Array.size_setIfInBounds ..
    rw [hsize]
    rcases List.mem_cons.mp hf with rfl | hf
    · obtain rfl := Option.some.inj hset
      exact hc
    · exact h.frames f (List.mem_cons_of_mem _ hf) c' hset

/-- A cascade gives back what it has claimed, and nothing else. -/
theorem disclaim {m : Machine U σ} (h : Custody m.claims (.cascade c past ahead :: rest)) :
    Custody (m.disclaim c (past ++ ahead)).claims rest := by
  refine
    { perm := fun c' => ?_
      nodup := fun c' => ?_
      frames := fun f hf c' hset => ?_ }
  · have hold := h.perm c'
    rw [Machine.getD_claims_disclaim]
    simp only [claimed_cons, Frame.claimed] at hold
    by_cases hcc : c' = c
    · subst hcc
      rw [if_pos rfl] at hold ⊢
      exact perm_filter_not_mem hold (h.nodup c')
    · rw [if_neg (Ne.symm hcc)] at hold
      rw [if_neg hcc]
      exact hold
  · rw [Machine.getD_claims_disclaim]
    by_cases hcc : c' = c
    · rw [if_pos hcc]
      exact (h.nodup c).filter _
    · rw [if_neg hcc]
      exact h.nodup c'
  · have hsize : (m.disclaim c (past ++ ahead)).claims.size = m.claims.size := Array.size_modify ..
    rw [hsize]
    exact h.frames f (List.mem_cons_of_mem _ hf) c' hset

/-- A cascade that goes on claims the children of its next node, or gives its claims back. -/
theorem cascadeOn [DecidableEq U] {m : Machine U σ}
    (h : Custody m.claims (.cascade c past ahead :: m.stack)) :
    Custody (m.cascadeOn c past ahead).claims (m.cascadeOn c past ahead).stack := by
  cases ahead with
  | nil =>
    have hback := h.disclaim
    rw [List.append_nil] at hback
    exact hback
  | cons e ahead =>
    change Custody (m.claim c (m.world.childrenOf e)).2.claims _
    refine h.claim ?_
    -- the node goes over to those that had their turn, and its children come last
    rw [List.append_assoc, List.singleton_append, ← List.cons_append, ← List.append_assoc]
    exact List.perm_append_comm

end Custody

namespace Machine

variable [DecidableEq U] {m m' : Machine U σ}

/-- Cascades are connected with sets of claims that there are. -/
def Endowed (m : Machine U σ) : Prop :=
  ∀ {key : ConnectionKey} {c : Nat}, m.handlers[key]? = some (.cascade c) → c < m.claims.size

/-- Claims and frames agree after every step. -/
theorem custody_hold (h : Custody m.claims m.stack) (hendowed : m.Endowed) (hm : Hold m m') :
    Custody m'.claims m'.stack := by
  cases hm with
  | kept claims stack frames called => exact h.kept claims stack frames
  | uproots key c e call handler claims stack =>
    rw [claims, stack]
    refine
      { perm := h.perm
        nodup := h.nodup
        frames := fun f hf c' hset => ?_ }
    rcases List.mem_cons.mp hf with rfl | hf
    · obtain rfl := Option.some.inj hset
      exact hendowed handler
    · exact h.frames f hf c' hset
  | collects b c e rest call before after =>
    rw [before] at h
    rw [after, resume_unlinking]
    -- a cascade that has claimed nothing yet
    have hempty : Custody m.claims (.cascade c [] [] :: rest) :=
      { perm := fun c' => by
          have hperm := h.perm c'
          simp only [claimed_cons, Frame.claimed, List.append_nil, ite_self] at hperm ⊢
          exact hperm
        nodup := h.nodup
        frames := fun f hf c' hset => by
          rcases List.mem_cons.mp hf with rfl | hf
          · exact h.frames _ List.mem_cons_self c' hset
          · exact h.frames f (List.mem_cons_of_mem _ hf) c' hset }
    refine Custody.cascadeOn (m := (Machine.claim { m with stack := rest } c _).2)
      (hempty.claim (m := { m with stack := rest }) ?_)
    rw [List.nil_append, List.append_nil, List.append_nil]
  | turns b c past ahead rest call before after =>
    rw [before] at h
    rw [after]
    exact h.cascadeOn (m := { m with stack := rest })
  | leaves cause c past ahead rest call before after =>
    rw [before] at h
    rw [after]
    exact h.disclaim (m := { m with stack := rest })

theorem size_claims_cascadeOn (m : Machine U σ) (c : Nat) (past ahead : List Entity) :
    (m.cascadeOn c past ahead).claims.size = m.claims.size := by
  cases ahead with
  | nil => exact Array.size_modify ..
  | cons e ahead => exact Array.size_setIfInBounds ..

/-- Sets of claims are not taken away. -/
theorem Hold.size_le (hm : Hold m m') : m.claims.size ≤ m'.claims.size := by
  cases hm with
  | kept claims stack frames called =>
    rcases claims with claims | claims
    · exact Nat.le_of_eq (congrArg Array.size claims.symm)
    · rw [claims, Array.size_push]
      exact Nat.le_succ _
  | uproots key c e call handler claims stack =>
    exact Nat.le_of_eq (congrArg Array.size claims.symm)
  | collects b c e rest call before after =>
    rw [after, resume_unlinking, size_claims_cascadeOn]
    exact Nat.le_of_eq (Array.size_setIfInBounds ..).symm
  | turns b c past ahead rest call before after =>
    rw [after, size_claims_cascadeOn]
  | leaves cause c past ahead rest call before after =>
    rw [after]
    exact Nat.le_of_eq (Array.size_modify ..).symm

/-- A cascade is connected with a set of its own, which is made for it. -/
theorem endowed_of_step (hstep : m.step = some m') (h : m.Endowed) (hhooking : Hooking m m') :
    m'.Endowed := by
  have hsize := (hold_of_step hstep).size_le
  intro key c hkey
  cases hhooking with
  | kept none handlers size relayed => exact Nat.lt_of_lt_of_le (h (handlers ▸ hkey)) hsize
  | made hookup some key' handlers size relayed =>
    rw [handlers, Array.getElem?_push] at hkey
    split at hkey
    · have hcascade := Option.some.inj hkey
      unfold hookup? at some
      split at some
      · obtain ⟨key, -, rfl⟩ := Option.map_eq_some_iff.mp some
        cases hcascade
      · rename_i next hcall
        obtain ⟨key, -, rfl⟩ := Option.map_eq_some_iff.mp some
        obtain rfl := Handler.cascade.inj hcascade
        simp only [step, hcall, Option.some.injEq] at hstep
        rw [← hstep, claims_runScript_cascade]
        exact Nat.lt_of_lt_of_eq (Nat.lt_succ_self _) (Array.size_push []).symm
      · cases some
    · exact Nat.lt_of_lt_of_le (h hkey) hsize

/-- Throughout every run each set of claims consists of what the cascades on the stack have
claimed, each node once. -/
theorem custody_run (host : σ) (script : Script U σ) (n : Nat) :
    Custody ((start host script).run n).claims ((start host script).run n).stack ∧
      ((start host script).run n).Endowed := by
  induction n with
  | zero => exact ⟨Custody.nil, fun h => by simp [start] at h⟩
  | succ n ih =>
    rcases run_succ_cases (start host script) n with heq | hstep
    · rw [heq]
      exact ih
    · exact ⟨custody_hold ih.1 ih.2 (hold_of_step hstep),
        endowed_of_step hstep ih.2 (hooked_run host script n).hooking_run⟩

/-! ## A cascade while it lasts -/

variable {above rest : List (Frame U σ)} {c : Nat} {past ahead : List Entity}

/-- A cascade that goes on has one more that had its turn, and new claims behind the old ones. -/
theorem cascadeOn_of_lasts (h : m.stack.length < (m.cascadeOn c past ahead).stack.length) :
    ∃ past' ahead', (m.cascadeOn c past ahead).stack = .cascade c past' ahead' :: m.stack ∧
      past <+: past' ∧ past ++ ahead <+: past' ++ ahead' := by
  cases ahead with
  | nil => exact absurd h (Nat.lt_irrefl _)
  | cons e ahead =>
    refine ⟨_, _, rfl, List.prefix_append _ _, ?_⟩
    rw [List.append_assoc, List.singleton_append, ← List.cons_append, ← List.append_assoc]
    exact List.prefix_append _ _

/-- After a step a cascade waits as before, or went on. -/
theorem lasting_of_step (hstep : m.step = some m')
    (hstack : m.stack = above ++ .cascade c past ahead :: rest)
    (hlasts : rest.length < m'.stack.length) :
    ∃ above' past' ahead', m'.stack = above' ++ .cascade c past' ahead' :: rest ∧
      past <+: past' ∧ past ++ ahead <+: past' ++ ahead' := by
  rcases (turn_of_step hstep).suffix_or_told with ⟨new, hnew⟩ |
    ⟨frame, below, hbefore, hbelow, htold⟩
  · refine ⟨new ++ above, past, ahead, ?_, List.prefix_rfl, List.prefix_rfl⟩
    rw [← hnew, hstack, List.append_assoc]
  · rw [hbefore] at hstack
    cases above with
    | nil =>
      -- the cascade itself is told
      obtain ⟨rfl, rfl⟩ := List.cons.inj hstack
      rcases htold with ⟨b, -, rfl⟩ | ⟨cause, -, rfl⟩
      · exact ⟨[], cascadeOn_of_lasts (m := { m with stack := below }) hlasts⟩
      · rw [stack_abandon] at hlasts
        exact absurd hlasts (Nat.lt_irrefl _)
    | cons g above =>
      rw [List.cons_append] at hstack
      obtain ⟨-, rfl⟩ := List.cons.inj hstack
      obtain ⟨new, hnew⟩ := hbelow
      refine ⟨new ++ above, past, ahead, ?_, List.prefix_rfl, List.prefix_rfl⟩
      rw [← hnew, List.append_assoc]

/-- As long as a cascade is not over, those that had their turn and all that it has claimed are
only added to. -/
theorem lasting_run {m : Machine U σ} {i j : Nat}
    (hstack : (m.run i).stack = .cascade c past ahead :: rest) (hij : i ≤ j)
    (hlasts : ∀ k, i < k → k ≤ j → rest.length < (m.run k).stack.length) :
    ∃ above past' ahead', (m.run j).stack = above ++ .cascade c past' ahead' :: rest ∧
      past <+: past' ∧ past ++ ahead <+: past' ++ ahead' := by
  induction hij with
  | refl => exact ⟨[], past, ahead, hstack, List.prefix_rfl, List.prefix_rfl⟩
  | @step j hij ih =>
    obtain ⟨above, past₁, ahead₁, hstack₁, hpast₁, hall₁⟩ := ih fun k hik hkj =>
      hlasts k hik (Nat.le_succ_of_le hkj)
    rcases run_succ_cases m j with heq | hstep
    · exact ⟨above, past₁, ahead₁, by rw [heq, hstack₁], hpast₁, hall₁⟩
    · obtain ⟨above', past', ahead', hstack', hpast', hall'⟩ :=
        lasting_of_step hstep hstack₁ (hlasts _ (Nat.lt_succ_of_le hij) (Nat.le_refl _))
      exact ⟨above', past', ahead', hstack', hpast₁.trans hpast', hall₁.trans hall'⟩

/-- A cascade that asks for a destruction has given the node its turn. -/
theorem cascadeOn_eq_destroy {x : Entity}
    (hcall : (m.cascadeOn c past ahead).control = .destroy x) :
    ∃ fresh ahead', ahead = x :: ahead' ∧
      (m.cascadeOn c past ahead).stack = .cascade c (past ++ [x]) (ahead' ++ fresh) :: m.stack := by
  cases ahead with
  | nil => cases hcall
  | cons e ahead =>
    cases hcall
    exact ⟨_, ahead, rfl, rfl⟩

/-- When a cascade asks for a destruction it has just started, or has just given the node its
turn. -/
theorem turn_of_destroy (hstep : m.step = some m') {x : Entity} (hcall : m'.control = .destroy x)
    (hstack : m'.stack = .cascade c past ahead :: rest) :
    ∃ past₀, past = past₀ ++ [x] ∧ ((∃ e, m.stack = .unlinking c e :: rest) ∨
      ∃ ahead₀, m.stack = .cascade c past₀ (x :: ahead₀) :: rest) := by
  cases hold_of_step hstep with
  | kept claims stack frames called =>
    obtain ⟨f, below, hf, hset⟩ := called x hcall
    rw [hstack] at hf
    obtain ⟨rfl, -⟩ := List.cons.inj hf
    cases hset
  | uproots key c' e call handler claims stack =>
    rw [hstack] at stack
    cases (List.cons.inj stack).1
  | collects b c' e below call before after =>
    rw [after, resume_unlinking] at hcall hstack
    obtain ⟨fresh, ahead₀, -, hnew⟩ := cascadeOn_eq_destroy hcall
    rw [hstack] at hnew
    obtain ⟨hframe, rfl⟩ := List.cons.inj hnew
    obtain ⟨rfl, rfl, -⟩ := Frame.cascade.inj hframe
    exact ⟨[], rfl, .inl ⟨e, before⟩⟩
  | turns b c' past' ahead' below call before after =>
    rw [after] at hcall hstack
    obtain ⟨fresh, ahead₀, rfl, hnew⟩ := cascadeOn_eq_destroy (m := { m with stack := below }) hcall
    rw [hstack] at hnew
    obtain ⟨hframe, rfl⟩ := List.cons.inj hnew
    obtain ⟨rfl, rfl, -⟩ := Frame.cascade.inj hframe
    exact ⟨past', rfl, .inr ⟨ahead₀, before⟩⟩
  | leaves cause c' past' ahead' below call before after =>
    rw [after] at hcall
    cases call.symm.trans hcall

theorem exists_turn_of_destroy {host : σ} {script : Script U σ} {n : Nat} {x : Entity}
    (hcall : ((start host script).run n).control = .destroy x)
    (hstack : ((start host script).run n).stack = .cascade c past ahead :: rest) :
    ∃ k, n = k + 1 ∧ ∃ past₀, past = past₀ ++ [x] ∧
      ((∃ e, ((start host script).run k).stack = .unlinking c e :: rest) ∨
        ∃ ahead₀, ((start host script).run k).stack = .cascade c past₀ (x :: ahead₀) :: rest) := by
  cases n with
  | zero => cases hcall
  | succ k =>
    refine ⟨k, rfl, ?_⟩
    cases hstep : ((start host script).run k).step with
    | none =>
      rw [run_succ, hstep, Option.getD_none] at hcall
      obtain ⟨-, ⟨b, hb⟩ | ⟨cause, hcause⟩⟩ := (step_eq_none_iff _).mp hstep
      · cases hb.symm.trans hcall
      · cases hcause.symm.trans hcall
    | some m' =>
      rw [run_succ_of_run_step hstep] at hcall hstack
      exact turn_of_destroy hstep hcall hstack

/-- What a cascade on the stack has claimed is claimed once. -/
theorem nodup_of_cascade {host : σ} {script : Script U σ} {n : Nat}
    (hstack : ((start host script).run n).stack = above ++ .cascade c past ahead :: rest) :
    (past ++ ahead).Nodup := by
  have hnodup := (custody_run host script n).1.nodup_claimed c
  rw [hstack, claimed, List.flatMap_append, List.flatMap_cons] at hnodup
  have hframe := (List.nodup_append'.mp (List.nodup_append'.mp hnodup).2.1).1
  rwa [Frame.claimed, if_pos rfl] at hframe

/-- A cascade does not ask twice for the destruction of the same node. -/
theorem ne_of_destroy {host : σ} {script : Script U σ} {i j : Nat} {x y : Entity} {c' : Nat}
    {past' ahead' : List Entity} {below : List (Frame U σ)} (hij : i < j)
    (hi : ((start host script).run i).control = .destroy x)
    (hstack : ((start host script).run i).stack = .cascade c past ahead :: rest)
    (hlasts : ∀ k, i < k → k ≤ j → rest.length < ((start host script).run k).stack.length)
    (hj : ((start host script).run j).control = .destroy y)
    (hstack' : ((start host script).run j).stack = .cascade c' past' ahead' :: below)
    (hbelow : below.length = rest.length) : x ≠ y := by
  obtain ⟨-, -, past₀, rfl, -⟩ := exists_turn_of_destroy hi hstack
  obtain ⟨k, rfl, past₁, -, hbefore⟩ := exists_turn_of_destroy hj hstack'
  obtain ⟨above, past₂, ahead₂, hmid, hpast, -⟩ := lasting_run hstack (Nat.le_of_lt_succ hij)
    fun l hil hlk => hlasts l hil (Nat.le_succ_of_le hlk)
  have hx : x ∈ past₂ := hpast.subset (List.mem_append_right _ List.mem_cons_self)
  have hnodup := nodup_of_cascade hmid
  rw [hmid] at hbefore
  -- the frame on top is that of the cascade, since what is below is as long as it was
  have htop : ∀ frame, above ++ .cascade c past₂ ahead₂ :: rest = frame :: below →
      frame = .cascade c past₂ ahead₂ := by
    intro frame heq
    have hlength := congrArg List.length heq
    rw [List.length_append, List.length_cons, List.length_cons, hbelow] at hlength
    obtain rfl : above = [] := List.length_eq_zero_iff.mp (by omega)
    exact (List.cons.inj heq).1.symm
  rcases hbefore with ⟨e, heq⟩ | ⟨ahead₁, heq⟩
  · cases htop _ heq
  · cases htop _ heq
    rintro rfl
    exact (List.nodup_append.mp hnodup).2.2 _ hx _ List.mem_cons_self rfl

end Machine

end EntityScene
