import EntityScene.Proofs.Lives
import EntityScene.Proofs.Turns
import EntityScene.Proofs.Windows

/-!
# What abandoned calls leave behind

A destruction that is abandoned leaves its entity in the middle of it, and an announcement that
is abandoned stays listed. Neither is ever taken back, so what the calls that were abandoned so
far have left behind adds up, and later calls run on top of it. The entities that frames destroy
and the removals that frames announce come on top of that, and there is nothing else.

- `Machine.left?`, `Machine.lost`, `Machine.stuck`: the frames that were left, the removals that
  these announced, and the entities that these destroyed.
- `Wrecked`: the invariant. Removals that are listed and entities that are being destroyed are
  those of the frames, and what was left behind.
- `wrecked_move`, `wrecked_fall`, `wrecked_run`: kept by every tame step.
- `Machine.Left`: what is asked for at one step is abandoned at another.
- `mem_stuck_iff`, `mem_lost_iff`: whom which calls have left behind.
- `abandoned_calls_leave_this_behind`: what this says between two calls.
-/

namespace EntityScene

variable {U σ : Type} [SceneFamily U] [DecidableEq U]

/-! ## Frames that were left -/

namespace Machine

section Left

omit [DecidableEq U]

/-- The frame that the next step leaves. -/
def left? (m : Machine U σ) : Option (Frame U σ) :=
  match m.control with
  | .unwind _ => m.stack.head?
  | _ => none

theorem left?_of_ne {m : Machine U σ} (h : ∀ cause, m.control ≠ .unwind cause) :
    m.left? = none := by
  unfold left?
  split
  · exact absurd (by assumption) (h _)
  · rfl

theorem left?_eq_some_iff {m : Machine U σ} {frame : Frame U σ} :
    m.left? = some frame ↔
      ∃ cause rest, m.control = .unwind cause ∧ m.stack = frame :: rest := by
  unfold left?
  split
  · rename_i cause hcall
    rw [List.head?_eq_some_iff]
    constructor
    · rintro ⟨rest, hstack⟩
      exact ⟨cause, rest, hcall, hstack⟩
    · rintro ⟨-, rest, -, hstack⟩
      exact ⟨rest, hstack⟩
  · rename_i hother
    constructor
    · exact fun hc => by cases hc
    · rintro ⟨cause, -, hcall, -⟩
      exact absurd hcall (hother cause)

end Left

/-- The removals that were announced by the frames that the first `n` steps leave, the latest
first. -/
def lost (m : Machine U σ) (n : Nat) : List (ComponentId × Entity) :=
  ((List.range n).filterMap fun k => (m.run k).left?.bind Frame.announced?).reverse

/-- The entities that were destroyed by the frames that the first `n` steps leave, the latest
first. -/
def stuck (m : Machine U σ) (n : Nat) : List Entity :=
  ((List.range n).filterMap fun k => (m.run k).left?.bind Frame.destroyed?).reverse

theorem lost_succ (m : Machine U σ) (n : Nat) :
    m.lost (n + 1) = ((m.run n).left?.bind Frame.announced?).toList ++ m.lost n := by
  rw [lost, List.range_succ, List.filterMap_append, List.reverse_append]
  congr 1
  cases h : (m.run n).left?.bind Frame.announced? <;> simp [h]

theorem stuck_succ (m : Machine U σ) (n : Nat) :
    m.stuck (n + 1) = ((m.run n).left?.bind Frame.destroyed?).toList ++ m.stuck n := by
  rw [stuck, List.range_succ, List.filterMap_append, List.reverse_append]
  congr 1
  cases h : (m.run n).left?.bind Frame.destroyed? <;> simp [h]

theorem mem_lost {m : Machine U σ} {n : Nat} {p : ComponentId × Entity} :
    p ∈ m.lost n ↔ ∃ k < n, (m.run k).left?.bind Frame.announced? = some p := by
  simp [lost]

theorem mem_stuck {m : Machine U σ} {n : Nat} {e : Entity} :
    e ∈ m.stuck n ↔ ∃ k < n, (m.run k).left?.bind Frame.destroyed? = some e := by
  simp [stuck]

/-- Where no call is abandoned nothing more is left behind. -/
theorem lost_eq_of_quiet {m : Machine U σ} {i j : Nat} (hij : i ≤ j)
    (h : ∀ k, i ≤ k → k < j → ∀ cause, (m.run k).control ≠ .unwind cause) :
    m.lost j = m.lost i := by
  induction hij with
  | refl => rfl
  | @step j hij ih =>
    rw [lost_succ, left?_of_ne (h j hij (Nat.lt_succ_self j))]
    exact ih fun k hik hkj => h k hik (Nat.lt_succ_of_lt hkj)

end Machine

/-! ## The invariant -/

/-- The removals that are listed are those that frames announce and those that were left behind.
The entities that are being destroyed are those that frames destroy and those that were left
behind. A row of an entity that is gone is listed as removed, or about to go. -/
structure Wrecked (lost : List (ComponentId × Entity)) (stuck : List Entity) (w : World (Kind U))
    (stack : List (Frame U σ)) (control : Control U σ) : Prop where
  removing : w.removing.Perm (announced stack ++ lost)
  nodup : w.removing.Nodup
  destroying : ∀ x, w.isDestroying x = true ↔ x ∈ destroyed stack ∨ x ∈ stuck
  apart : ∀ x ∈ destroyed stack, x ∉ stuck
  rows : ∀ id x, w.holds id x = true →
    w.isValid x = true ∨ (id, x) ∈ w.removing ∨ Owed w stack control id x
  cleared : ∀ {x id rest}, .teardown x id :: rest <:+ stack →
    ∀ j < id, w.holds j x = true → (j, x) ∈ announced rest ++ lost
  refused : ∀ {x id rest}, control = .reply false → stack = .teardown x id :: rest →
    w.holds id x = true → (id, x) ∈ announced rest ++ lost

namespace Wrecked

variable {lost : List (ComponentId × Entity)} {stuck : List Entity} {w w' : World (Kind U)}
variable {stack stack' : List (Frame U σ)} {control control' : Control U σ}

theorem rows_of_unowed (h : Wrecked lost stuck w stack control)
    (unowed : ∀ id x, ¬ Owed w stack control id x) {id : ComponentId} {x : Entity}
    (hx : w.holds id x = true) : w.isValid x = true ∨ (id, x) ∈ w.removing := by
  rcases h.rows id x hx with hv | hr | ho
  · exact .inl hv
  · exact .inr hr
  · exact absurd ho (unowed id x)

/-- An edit that moves no row, and no frame that takes a component is answered. -/
theorem transfer (h : Wrecked lost stuck w stack control)
    (unowed : ∀ id x, ¬ Owed w stack control id x)
    (hannounced : announced stack' = announced stack) (removing : w'.removing = w.removing)
    (hdestroyed : destroyed stack' = destroyed stack)
    (destroying : ∀ x, w'.isDestroying x = w.isDestroying x)
    (holds : ∀ id x, w'.holds id x = w.holds id x)
    (valid : ∀ x, w.isValid x = true → w'.isValid x = true)
    (torn : ∀ {x id rest}, .teardown x id :: rest <:+ stack' → .teardown x id :: rest <:+ stack)
    (hcontrol : control' = .reply false → ∀ x id rest, stack' ≠ .teardown x id :: rest) :
    Wrecked lost stuck w' stack' control' := by
  refine
    { removing := by rw [removing, hannounced]; exact h.removing
      nodup := by rw [removing]; exact h.nodup
      destroying := fun x => by rw [destroying, h.destroying, hdestroyed]
      apart := fun x hx => h.apart x (hdestroyed ▸ hx)
      rows := fun id x hx => ?_
      cleared := fun hsuf j hj hx => h.cleared (torn hsuf) j hj (by rw [← holds]; exact hx)
      refused := fun hc htop => absurd htop (hcontrol hc _ _ _) }
  rw [holds] at hx
  rw [removing]
  exact (h.rows_of_unowed unowed hx).elim (fun hv => .inl (valid x hv)) fun hr => .inr (.inl hr)

/-- A row that is owed is taken away. -/
theorem erase (h : Wrecked lost stuck w stack control) (hwf : w.Wf) {id : ComponentId} {e : Entity}
    (howed : Owed w stack control id e) (hannounced : announced stack' = announced stack)
    (hdestroyed : destroyed stack' = destroyed stack)
    (cleared : ∀ {x i rest}, .teardown x i :: rest <:+ stack' →
      ∀ j < i, w.holds j x = true → ¬ (j = id ∧ x = e) → (j, x) ∈ announced rest ++ lost)
    (hcontrol : control' ≠ .reply false) :
    Wrecked lost stuck (w.erase id e) stack' control' := by
  have herase := World.holds_erase hwf id e
  refine
    { removing := hannounced ▸ h.removing
      nodup := h.nodup
      destroying := fun x => by rw [hdestroyed]; exact h.destroying x
      apart := fun x hx => h.apart x (hdestroyed ▸ hx)
      rows := fun j x hx => ?_
      cleared := fun hsuf j hj hx => ?_
      refused := fun hc => absurd hc hcontrol }
  · rw [herase] at hx
    split at hx
    · cases hx
    · rename_i hne
      rcases h.rows j x hx with hv | hr | ho
      · exact .inl hv
      · exact .inr (.inl hr)
      · obtain ⟨rfl, rfl⟩ := Prod.mk.inj (howed.eq ho)
        exact absurd ⟨rfl, rfl⟩ hne
  · rw [herase] at hx
    split at hx
    · cases hx
    · rename_i hne
      exact cleared hsuf j hj hx hne

end Wrecked

/-! ## Kept by every move -/

namespace Machine

variable {m m' : Machine U σ} {count : UInt32 → Nat}
variable {lost : List (ComponentId × Entity)} {stuck : List Entity}

omit [DecidableEq U] in
/-- A teardown lies where it lay if another frame comes on top. -/
theorem suffix_of_cons_teardown {f : Frame U σ} {stack rest : List (Frame U σ)} {x : Entity}
    {id : ComponentId} (hf : f.destroyed? = none) (h : .teardown x id :: rest <:+ f :: stack) :
    .teardown x id :: rest <:+ stack := by
  rcases List.suffix_cons_iff.mp h with heq | hsuf
  · rw [← (List.cons.inj heq).1] at hf
    cases hf
  · exact hsuf

/-- Asking for the next pool, or giving the entity up after the last. -/
theorem wrecked_tornDown {w : World (Kind U)} {e : Entity} {id : ComponentId}
    {rest : List (Frame U σ)} (hup : Upheld count w (.teardown e id :: rest) (.announce id e))
    (h : Wrecked lost stuck w (.teardown e id :: rest) (.announce id e))
    (torn : TornDown w e id rest m') : Wrecked lost stuck m'.world m'.stack m'.control := by
  cases torn with
  | next pool world stack control =>
    rw [world, stack, control]
    exact h
  | last pool world stack control =>
    have halive := World.isValid_of_isDestroying (hup.destroying List.mem_cons_self)
    have hnotin := (List.nodup_cons.mp hup.nodup_destroyed).1
    have hapart := h.apart e List.mem_cons_self
    rw [world, stack, control]
    refine
      { removing := h.removing
        nodup := h.nodup
        destroying := fun x => ?_
        apart := fun x hx => h.apart x (List.mem_cons_of_mem _ hx)
        rows := fun j x hx => ?_
        cleared := fun hsuf => h.cleared (hsuf.trans (List.suffix_cons _ rest))
        refused := fun hc => by cases hc }
    · refine (Entity.Table.isDestroying_release halive x).trans ?_
      rw [show w.entities.isDestroying x = w.isDestroying x from rfl, h.destroying]
      constructor
      · rintro ⟨hx | hx, hne⟩
        · exact .inl ((List.mem_cons.mp hx).resolve_left hne)
        · exact .inr hx
      · rintro (hx | hx)
        · exact ⟨.inl (List.mem_cons_of_mem _ hx), fun heq => hnotin (heq ▸ hx)⟩
        · exact ⟨.inr hx, fun heq => hapart (heq ▸ hx)⟩
    · have hx' : w.holds j x = true := hx
      by_cases hxe : x = e
      · -- no pool is left to be asked for, so all that is left was announced elsewhere
        have hj : j < id := Nat.lt_of_lt_of_le (World.lt_size_of_holds hx') pool
        have hmem := h.cleared List.suffix_rfl j hj (hxe ▸ hx')
        exact .inr (.inl (h.removing.mem_iff.mpr (hxe ▸ hmem)))
      · rcases h.rows_of_unowed (fun _ _ => Sound.not_owed_of_control fun hc => by cases hc) hx' with
          hv | hr
        · exact .inl ((Entity.Table.isAlive_release halive x).mpr ⟨hv, hxe⟩)
        · exact .inr (.inl hr)

theorem wrecked_quiet (hup : Upheld count m.world m.stack m.control)
    (h : Wrecked lost stuck m.world m.stack m.control) {old new rest : List (Frame U σ)}
    (before : m.stack = old ++ rest) (after : m'.stack = new ++ rest)
    (plain : ∀ f ∈ old ++ new, f.isPlain = true)
    (request : m.control.isRequest = true ∨ (∃ b, m.control = .reply b) ∧ old ≠ [])
    (world : World.Undisturbed (fun _ => False) m.world m'.world)
    (calm : m'.control.IsCalm m'.world) : Wrecked lost stuck m'.world m'.stack m'.control := by
  have hmove : Move m m' := .quiet old new rest before after plain request world calm
  have hshape := hup.layered.shape hmove.not_unwind
  have hold : ∀ f ∈ old, f.isPlain = true := fun f hf => plain f (List.mem_append_left _ hf)
  have hnew : ∀ f ∈ new, f.isPlain = true := fun f hf => plain f (List.mem_append_right _ hf)
  have hwell := hshape.wellstacked_of_quiet before hold request
  have hwell' : Wellstacked m'.world (new ++ rest) :=
    ((Wellstacked.of_append_plain hold (before ▸ hwell)).mono world.idOf?).append_plain hnew
  refine h.transfer (fun _ _ => Sound.not_owed_of_wellstacked hwell) ?_ world.removing ?_
    world.isDestroying world.holds (fun x hv => by rw [world.isValid]; exact hv) (fun hsuf => ?_)
    fun _ x id tail htop => ?_
  · rw [after, before, announced_append_plain rest hnew, announced_append_plain rest hold]
  · rw [after, before, destroyed_append_plain rest hnew, destroyed_append_plain rest hold]
  · rw [after] at hsuf
    rw [before]
    exact (suffix_of_append_plain hnew hsuf).trans (List.suffix_append old rest)
  · rw [← after, htop] at hwell'
    exact hwell'.not_removes ⟨rfl, rfl⟩

theorem wrecked_placed (h : Wrecked lost stuck m.world m.stack m.control) {kind : Kind U}
    {id : ComponentId} {e : Entity} {v : Value kind} {script : Script U σ} {frame : Frame U σ}
    (call : m.control = .run script) (accepts : m.world.accepts e = true)
    (world : World.Placed m.world kind id e v m'.world) (plain : frame.isPlain = true)
    (stack : m'.stack = frame :: m.stack) (control : m'.control = .publish id .construct e) :
    Wrecked lost stuck m'.world m'.stack m'.control := by
  obtain ⟨hvalid, hdestroying⟩ := (World.accepts_iff m.world e).mp accepts
  have hplain : ∀ f ∈ [frame], f.isPlain = true := by simpa using plain
  have hann : announced (frame :: m.stack) = announced m.stack :=
    announced_append_plain m.stack hplain
  have hdes : destroyed (frame :: m.stack) = destroyed m.stack :=
    destroyed_append_plain m.stack hplain
  rw [stack, control]
  refine
    { removing := by rw [world.removing, hann]; exact h.removing
      nodup := by rw [world.removing]; exact h.nodup
      destroying := fun x => by
        rw [World.isDestroying, world.entities, hdes]
        exact h.destroying x
      apart := fun x hx => h.apart x (hdes ▸ hx)
      rows := fun j x hx => ?_
      cleared := fun {x _ _} hsuf j hj hx => ?_
      refused := fun hc => by cases hc }
  · rw [World.isValid, world.entities, world.removing]
    rcases (world.holds j x).mp hx with ⟨-, rfl⟩ | ⟨-, hx⟩
    · exact .inl hvalid
    · rcases h.rows_of_unowed (fun _ _ => Sound.not_owed_of_control fun hc => by
        rw [call] at hc; cases hc) hx with hv | hr
      · exact .inl hv
      · exact .inr (.inl hr)
  · have hsuf' := suffix_of_append_plain hplain hsuf
    rcases (world.holds j x).mp hx with ⟨-, rfl⟩ | ⟨-, hx⟩
    · -- an entity that is being destroyed is given no component
      have hmem : x ∈ destroyed m.stack :=
        List.mem_filterMap.mpr ⟨_, hsuf'.subset List.mem_cons_self, rfl⟩
      rw [(h.destroying x).mpr (.inl hmem)] at hdestroying
      cases hdestroying
    · exact h.cleared hsuf' j hj hx

theorem wrecked_begun (h : Wrecked lost stuck m.world m.stack m.control) {e : Entity}
    (call : m.control = .destroy e) (alive : m.world.entities.state? e = some .alive) :
    Wrecked lost stuck { m.world with entities := (m.world.entities.beginDestroy e).2 }
      (.teardown e 0 :: m.stack) (.announce 0 e) := by
  have hnot : ¬ (e ∈ destroyed m.stack ∨ e ∈ stuck) := by
    rw [← h.destroying, World.isDestroying, Entity.Table.isDestroying_iff, alive]
    exact fun hc => by cases hc
  refine
    { removing := h.removing
      nodup := h.nodup
      destroying := fun x => ?_
      apart := fun x hx => ?_
      rows := fun j x hx => ?_
      cleared := fun hsuf j hj hx => ?_
      refused := fun hc => by cases hc }
  · calc (m.world.entities.beginDestroy e).2.isDestroying x = true
        ↔ x = e ∨ m.world.isDestroying x = true :=
          Entity.Table.isDestroying_beginDestroy alive x
      _ ↔ x ∈ e :: destroyed m.stack ∨ x ∈ stuck := by rw [h.destroying, List.mem_cons, or_assoc]
  · rcases List.mem_cons.mp hx with rfl | hx
    · exact fun hstuck => hnot (.inr hstuck)
    · exact h.apart x hx
  · rcases h.rows_of_unowed (fun _ _ => Sound.not_owed_of_control fun hc => by
      rw [call] at hc; cases hc) hx with hv | hr
    · refine .inl ?_
      show (m.world.entities.beginDestroy e).2.isAlive x = true
      rw [Entity.Table.isAlive_beginDestroy]
      exact hv
    · exact .inr (.inl hr)
  · rcases List.suffix_cons_iff.mp hsuf with heq | hsuf'
    · -- no pool comes before the first
      obtain ⟨-, rfl⟩ := Frame.teardown.inj (List.cons.inj heq).1
      exact absurd hj (Nat.not_lt_zero j)
    · exact h.cleared hsuf' j hj hx

theorem wrecked_refused (hup : Upheld count m.world m.stack m.control)
    (h : Wrecked lost stuck m.world m.stack m.control) {id : ComponentId} {e : Entity}
    (call : m.control = .announce id e)
    (reason : (id, e) ∈ m.world.removing ∨ m.world.holds id e = false) :
    Wrecked lost stuck m.world m.stack (.reply false) := by
  have hshape := hup.layered.shape fun _ hc => by rw [call] at hc; cases hc
  rw [call] at hshape
  obtain ⟨f, rest, hstack, hf, -⟩ := hshape.of_announce
  refine
    { h with
      rows := fun j x hx => ?_
      refused := fun {x j rest'} _ htop hx => ?_ }
  · rcases h.rows_of_unowed (fun _ _ => Sound.not_owed_of_control fun hc => by
      rw [call] at hc; cases hc) hx with hv | hr
    · exact .inl hv
    · exact .inr (.inl hr)
  · rw [hstack] at htop
    obtain ⟨rfl, rfl⟩ := List.cons.inj htop
    obtain ⟨rfl, rfl⟩ := hf
    -- a row that is there was refused for a removal that was announced before
    rcases reason with hr | hno
    · have hmem := h.removing.mem_iff.mp hr
      rw [hstack] at hmem
      exact hmem
    · rw [hx] at hno
      cases hno

theorem wrecked_announced (h : Wrecked lost stuck m.world m.stack m.control) {id : ComponentId}
    {e : Entity} (call : m.control = .announce id e) (fresh : (id, e) ∉ m.world.removing) :
    Wrecked lost stuck { m.world with removing := (id, e) :: m.world.removing }
      (.removal id e :: m.stack) (.publish id .destroy e) := by
  refine
    { removing := h.removing.cons (id, e)
      nodup := List.nodup_cons.mpr ⟨fresh, h.nodup⟩
      destroying := h.destroying
      apart := h.apart
      rows := fun j x hx => ?_
      cleared := fun hsuf => h.cleared (suffix_of_cons_teardown rfl hsuf)
      refused := fun hc => by cases hc }
  rcases h.rows_of_unowed (fun _ _ => Sound.not_owed_of_control fun hc => by
    rw [call] at hc; cases hc) hx with hv | hr
  · exact .inl hv
  · exact .inr (.inl (List.mem_cons_of_mem _ hr))

theorem wrecked_finished {id : ComponentId} {e : Entity} {b : Bool} {stack : List (Frame U σ)}
    (hup : Upheld count m.world (.removal id e :: stack) (.reply b))
    (h : Wrecked lost stuck m.world (.removal id e :: stack) (.reply b)) :
    Wrecked lost stuck { m.world with removing := m.world.removing.erase (id, e) } stack
      (.reply true) := by
  obtain ⟨f, rest, rfl, hf, -⟩ :=
    (hup.layered.shape fun _ hc => by cases hc).removes_of_removal
  have howed : Owed { m.world with removing := m.world.removing.erase (id, e) } (f :: rest)
      (.reply true) id e := ⟨f, rest, rfl, rfl, hf.mono fun hid => hid⟩
  have hperm := h.removing.erase (id, e)
  refine
    { removing := ?_
      nodup := h.nodup.erase _
      destroying := h.destroying
      apart := h.apart
      rows := fun j x hx => ?_
      cleared := fun hsuf => h.cleared (hsuf.trans (List.suffix_cons _ _))
      refused := fun hc => by cases hc }
  · rwa [show announced (.removal id e :: f :: rest) ++ lost =
      (id, e) :: (announced (f :: rest) ++ lost) from rfl, List.erase_cons_head] at hperm
  · by_cases hpair : (j, x) = (id, e)
    · obtain ⟨rfl, rfl⟩ := Prod.mk.inj hpair
      exact .inr (.inr howed)
    · rcases h.rows j x hx with hv | hr | ⟨g, rest', heq, -, hg⟩
      · exact .inl hv
      · exact .inr (.inl ((List.mem_erase_of_ne hpair).mpr hr))
      · rw [← (List.cons.inj heq).1] at hg
        exact False.elim hg

/-- A teardown that was answered can ask for the next pool. -/
theorem wrecked_teardown {w : World (Kind U)} {id : ComponentId} {e : Entity} {b : Bool}
    {rest : List (Frame U σ)} (hwf : w.Wf)
    (h : Wrecked lost stuck w (.teardown e id :: rest) (.reply b)) :
    Wrecked lost stuck (if b then w.erase id e else w) (.teardown e (id + 1) :: rest)
      (.announce (id + 1) e) := by
  -- the pool that was asked for last joins those that are cleared
  have hcleared : ∀ {x i tail}, .teardown x i :: tail <:+ .teardown e (id + 1) :: rest →
      ∀ j < i, w.holds j x = true → (b = true → ¬ (j = id ∧ x = e)) →
        (j, x) ∈ announced tail ++ lost := by
    intro x i tail hsuf j hj hx hne
    rcases List.suffix_cons_iff.mp hsuf with heq | hsuf'
    · obtain ⟨htop, rfl⟩ := List.cons.inj heq
      obtain ⟨rfl, rfl⟩ := Frame.teardown.inj htop
      rcases Nat.lt_succ_iff_lt_or_eq.mp hj with hlt | rfl
      · exact h.cleared List.suffix_rfl j hlt hx
      · cases b with
        | true => exact absurd ⟨rfl, rfl⟩ (hne rfl)
        | false => exact h.refused rfl rfl hx
    · exact h.cleared (hsuf'.trans (List.suffix_cons _ rest)) j hj hx
  cases b with
  | false =>
    refine
      { h with
        rows := fun j x hx => ?_
        cleared := fun hsuf j hj hx => hcleared hsuf j hj hx fun hc => by cases hc
        refused := fun hc => by cases hc }
    rcases h.rows_of_unowed (fun _ _ => Sound.not_owed_of_control fun hc => by cases hc) hx with
      hv | hr
    · exact .inl hv
    · exact .inr (.inl hr)
  | true =>
    exact h.erase hwf ⟨_, _, rfl, rfl, rfl, rfl⟩ rfl rfl
      (fun hsuf j hj hx hne => hcleared hsuf j hj hx fun _ => hne) fun hc => by cases hc

/-- Taking the component that was asked for. -/
theorem wrecked_taken {w : World (Kind U)} {kind : Kind U} {e : Entity} {b : Bool}
    {next : Option (Value kind) → Script U σ} {stack : List (Frame U σ)}
    (hup : Upheld count w (.taking kind e next :: stack) (.reply b))
    (h : Wrecked lost stuck w (.taking kind e next :: stack) (.reply b)) (script : Script U σ) :
    Wrecked lost stuck (if b then (w.pull kind e).2 else w) stack (.run script) := by
  obtain ⟨id, hid, -⟩ := (hup.layered.shape fun _ hc => by cases hc).idOf?_of_taking
  cases b with
  | false =>
    exact h.transfer (fun _ _ => Sound.not_owed_of_control fun hc => by cases hc) rfl rfl rfl
      (fun _ => rfl) (fun _ _ => rfl) (fun _ hv => hv)
      (fun hsuf => hsuf.trans (List.suffix_cons _ stack)) fun hc => by cases hc
  | true =>
    rw [if_pos rfl, World.pull_eq hup.wf hid]
    exact h.erase hup.wf ⟨_, _, rfl, rfl, rfl, hid⟩ rfl rfl
      (fun hsuf j hj hx _ => h.cleared (hsuf.trans (List.suffix_cons _ stack)) j hj hx)
      fun hc => by cases hc

/-- The invariant is kept by every move. -/
theorem wrecked_move (hup : Upheld count m.world m.stack m.control)
    (h : Wrecked lost stuck m.world m.stack m.control) (hm : Move m m') :
    Wrecked lost stuck m'.world m'.stack m'.control := by
  cases hm with
  | quiet old new rest before after plain request world control =>
    exact wrecked_quiet hup h before after plain request world control
  | created e table next call allocate world stack control =>
    have htable := hup.wf.table
    rw [world, stack, control]
    exact h.transfer (fun _ _ => Sound.not_owed_of_control fun hc => by rw [call] at hc; cases hc)
      rfl rfl rfl (fun x => Entity.Table.isDestroying_allocate htable allocate x) (fun _ _ => rfl)
      (fun x hv => (Entity.Table.isAlive_allocate htable allocate x).mpr (.inr hv))
      (fun hsuf => hsuf) fun hc => by cases hc
  | placed kind id e v make next frame call accepts world plain stack control =>
    exact wrecked_placed h call accepts world plain stack control
  | asked kind id e next call number world stack control =>
    rw [world, stack, control]
    exact h.transfer (fun _ _ => Sound.not_owed_of_control fun hc => by rw [call] at hc; cases hc)
      rfl rfl rfl (fun _ => rfl) (fun _ _ => rfl) (fun _ hv => hv) (suffix_of_cons_teardown rfl)
      fun hc => by cases hc
  | begun e call alive torn =>
    exact wrecked_tornDown (upheld_begun hup call alive) (wrecked_begun h call alive) torn
  | refused id e call reason world stack control =>
    rw [world, stack, control]
    exact wrecked_refused hup h call reason
  | announced id e call fresh row world stack control =>
    rw [world, stack, control]
    exact wrecked_announced h call fresh
  | finished id e b call before world control =>
    rw [call, before] at hup h
    rw [world, control]
    exact wrecked_finished hup h
  | teardown id e b rest call before torn =>
    rw [call, before] at hup h
    exact wrecked_tornDown (upheld_teardown hup) (wrecked_teardown hup.wf h) torn
  | taken kind e b next script call before world control =>
    rw [call, before] at hup h
    rw [world, control]
    exact wrecked_taken hup h script

/-! ## Kept where calls are abandoned -/

/-- What the frame that is left has announced and destroyed is left behind. -/
theorem wrecked_left {w w' : World (Kind U)} {frame : Frame U σ} {stack : List (Frame U σ)}
    {cause : Abort} {control : Control U σ} (hup : Upheld count w (frame :: stack) (.unwind cause))
    (h : Wrecked lost stuck w (frame :: stack) (.unwind cause))
    (world : World.Undisturbed (fun _ => False) w w') (hcontrol : control ≠ .reply false) :
    Wrecked (frame.announced?.toList ++ lost) (frame.destroyed?.toList ++ stuck) w' stack
      control := by
  have hann : announced (frame :: stack) = frame.announced?.toList ++ announced stack := by
    rw [announced, List.filterMap_cons]
    cases frame.announced? <;> rfl
  have hdes : destroyed (frame :: stack) = frame.destroyed?.toList ++ destroyed stack := by
    rw [destroyed, List.filterMap_cons]
    cases frame.destroyed? <;> rfl
  have hnodup := hup.nodup_destroyed
  have hperm := h.removing
  have hdestroying := h.destroying
  have hapart := h.apart
  rw [hann] at hperm
  rw [hdes] at hnodup hapart
  simp only [hdes] at hdestroying
  refine
    { removing := ?_
      nodup := by rw [world.removing]; exact h.nodup
      destroying := fun x => ?_
      apart := fun x hx => ?_
      rows := fun id x hx => ?_
      cleared := fun hsuf j hj hx => ?_
      refused := fun hc => absurd hc hcontrol }
  · rw [world.removing]
    refine hperm.trans ?_
    rw [List.append_assoc]
    exact List.perm_append_comm_assoc _ _ _
  · rw [world.isDestroying, hdestroying, List.mem_append, List.mem_append]
    tauto
  · rw [List.mem_append, not_or]
    exact ⟨fun hx' => (List.nodup_append.mp hnodup).2.2 x hx' x hx rfl,
      hapart x (List.mem_append_right _ hx)⟩
  · rw [world.holds] at hx
    rw [world.isValid, world.removing]
    rcases h.rows_of_unowed (fun _ _ => Sound.not_owed_of_control fun hc => by cases hc) hx with
      hv | hr
    · exact .inl hv
    · exact .inr (.inl hr)
  · rw [world.holds] at hx
    have hmem := h.cleared (hsuf.trans (List.suffix_cons _ stack)) j hj hx
    rcases List.mem_append.mp hmem with hmem | hmem
    · exact List.mem_append_left _ hmem
    · exact List.mem_append_right _ (List.mem_append_right _ hmem)

/-- The invariant is kept where calls are abandoned. -/
theorem wrecked_fall (hup : Upheld count m.world m.stack m.control)
    (h : Wrecked lost stuck m.world m.stack m.control) (hf : Fall m m') :
    Wrecked ((m.left?.bind Frame.announced?).toList ++ lost)
      ((m.left?.bind Frame.destroyed?).toList ++ stuck) m'.world m'.stack m'.control := by
  cases hf with
  | raised cause request world stack control =>
    have hunwind : ∀ cause, m.control ≠ .unwind cause := fun _ hc => by
      rw [hc] at request
      cases request
    have hreply : m.control ≠ .reply true := fun hc => by
      rw [hc] at request
      cases request
    rw [left?_of_ne hunwind, stack, control]
    exact h.transfer (fun _ _ => Sound.not_owed_of_control hreply) rfl world.removing rfl
      world.isDestroying world.holds (fun x hv => by rw [world.isValid]; exact hv)
      (fun hsuf => hsuf) fun hc => by cases hc
  | exhausted cause next call released world stack control =>
    have hunwind : ∀ cause, m.control ≠ .unwind cause := fun _ hc => by rw [hc] at call; cases call
    rw [left?_of_ne hunwind, world, stack, control]
    exact h.transfer (fun _ _ => Sound.not_owed_of_control fun hc => by rw [hc] at call; cases call)
      rfl rfl rfl (fun _ => rfl) (fun _ _ => rfl) (fun _ hv => hv) (fun hsuf => hsuf)
      fun hc => by cases hc
  | left cause frame call before world control =>
    have hleft : m.left? = some frame := by
      rw [left?, call, before]
      rfl
    rw [call, before] at hup h
    rw [hleft]
    refine wrecked_left hup h world fun hc => ?_
    rcases control with hu | ⟨-, script, hr⟩
    · rw [hc] at hu
      cases hu
    · rw [hc] at hr
      cases hr

/-- The invariant holds throughout every tame run. -/
theorem wrecked_run (host : σ) (script : Script U σ) {n : Nat} (h : (start host script).Tame n)
    (hlt : ∀ i, (start host script).reissues n i < UInt32.size) {k : Nat} (hk : k ≤ n) :
    Wrecked ((start host script).lost k) ((start host script).stuck k)
      ((start host script).run k).world ((start host script).run k).stack
      ((start host script).run k).control := by
  induction k with
  | zero =>
    exact
      { removing := .refl _
        nodup := List.nodup_nil
        destroying := fun x => by simp [start, World.empty, World.isDestroying,
          Entity.Table.isDestroying, Entity.Table.state?, Entity.Table.slot?, Entity.Table.empty,
          run, stuck, destroyed]
        apart := fun x hx => absurd hx List.not_mem_nil
        rows := fun id x hx => by simp [start, World.holds, World.empty, run] at hx
        cleared := fun hsuf => by cases List.suffix_nil.mp hsuf
        refused := fun hc => by cases hc }
  | succ k ih =>
    have hnow := ih (Nat.le_of_succ_le hk)
    have hup := upheld_of_le host script h hlt (Nat.le_of_succ_le hk)
    rw [lost_succ, stuck_succ]
    cases hstep : ((start host script).run k).step with
    | none =>
      obtain ⟨hstack, -⟩ := (step_eq_none_iff _).mp hstep
      have hleft : ((start host script).run k).left? = none := by
        rw [Option.eq_none_iff_forall_ne_some]
        intro frame hsome
        obtain ⟨-, rest, -, hcons⟩ := left?_eq_some_iff.mp hsome
        rw [hstack] at hcons
        cases hcons
      rw [run_succ, hstep, Option.getD_none, hleft]
      exact hnow
    | some m' =>
      rw [run_succ_of_run_step hstep]
      rcases move_or_fall_of_step hup.wf (h k hk) hstep with hm | hf
      · rw [left?_of_ne hm.not_unwind]
        exact wrecked_move hup hnow hm
      · exact wrecked_fall hup hnow hf

/-! ## Calls that were left -/

/-- What is asked for at the first step goes on until the second, where it is being left. -/
structure Left (m : Machine U σ) (i j : Nat) : Prop where
  lt : i < j
  during : ∀ k, i < k → k < j → (m.run i).stack.length < (m.run k).stack.length
  stack : (m.run j).stack = (m.run i).stack
  control : ∃ cause, (m.run j).control = .unwind cause

variable {host : σ} {script : Script U σ} {n : Nat}

theorem control_cascadeOn_ne_unwind (m : Machine U σ) (c : Nat) (past ahead : List Entity)
    (cause : Abort) : (m.cascadeOn c past ahead).control ≠ .unwind cause := by
  cases ahead <;> exact fun hc => by cases hc

/-- In a world in order a frame that is answered goes on. -/
theorem control_resume_ne_unwind (hwf : m.world.Wf) (frame : Frame U σ) (b : Bool) (cause : Abort) :
    (m.resume frame b).control ≠ .unwind cause := by
  have htearDown : ∀ (m : Machine U σ) e id, (m.tearDown e id).control ≠ .unwind cause := by
    intro m e id
    unfold tearDown
    split <;> exact fun hc => by cases hc
  cases frame with
  | dispatch id event e keys =>
    cases keys with
    | nil => exact fun hc => by cases hc
    | cons key keys =>
      simp only [resume, await]
      split <;> exact fun hc => by cases hc
  | teardown e id =>
    rw [resume_teardown hwf]
    exact htearDown _ e (id + 1)
  | taking kind e next =>
    obtain ⟨old, hnext⟩ := resume_taking hwf e next b
    rw [hnext]
    exact fun hc => by cases hc
  | unlinking c e => exact control_cascadeOn_ne_unwind _ c [] _ cause
  | cascade c past ahead => exact control_cascadeOn_ne_unwind _ c past ahead cause
  | _ => exact fun hc => by cases hc

/-- A frame that is left goes, and what it waited for is left before. -/
theorem run_succ_of_left? {m : Machine U σ} {k : Nat} {frame : Frame U σ}
    (h : (m.run k).left? = some frame) :
    ∃ cause rest, (m.run k).control = .unwind cause ∧ (m.run k).stack = frame :: rest ∧
      m.run (k + 1) = { m.run k with stack := rest }.abandon frame cause := by
  obtain ⟨cause, rest, hcall, hstack⟩ := left?_eq_some_iff.mp h
  refine ⟨cause, rest, hcall, hstack, run_succ_of_run_step ?_⟩
  simp only [step, hcall, hstack]

/-- Whoever was left behind being destroyed, the call that was accepted for that was left. -/
theorem mem_stuck_iff (hwf : ∀ k < n, ((start host script).run k).world.Wf) {e : Entity} :
    e ∈ (start host script).stuck n ↔ ∃ i j, j ≤ n ∧
      ((start host script).run i).accepted? = some e ∧ (start host script).Left i j := by
  rw [mem_stuck]
  constructor
  · rintro ⟨k, hkn, hk⟩
    obtain ⟨frame, hleft, hframe⟩ := Option.bind_eq_some_iff.mp hk
    cases frame with
    | teardown x id =>
      obtain rfl := Option.some.inj hframe
      obtain ⟨cause, rest, hcall, hstack, hnext⟩ := run_succ_of_left? hleft
      have hopen : (x, rest) ∈ destructions ((start host script).run k).stack :=
        hstack ▸ List.mem_cons_self
      obtain ⟨i, hik, haccepted, hbelow, hduring⟩ := exists_accepted hopen
      refine ⟨i, k + 1, hkn, haccepted, Nat.lt_succ_of_lt hik, fun l hil hlk => ?_, ?_, cause, ?_⟩
      · exact hbelow ▸ hduring l hil (Nat.le_of_lt_succ hlk)
      · rw [hnext, hbelow]
        rfl
      · rw [hnext]
        exact hcall
    | _ => cases hframe
  · rintro ⟨i, j, hjn, haccepted, hij, hduring, hstack, cause, hcontrol⟩
    obtain ⟨k, rfl⟩ := Nat.exists_eq_succ_of_ne_zero (Nat.ne_of_gt (Nat.zero_lt_of_lt hij))
    refine ⟨k, hjn, ?_⟩
    rcases Nat.lt_succ_iff_lt_or_eq.mp hij with hik | rfl
    · have hlasts : (start host script).Lasts i k :=
        ⟨hik, fun l hl hil => hduring l hil (Nat.lt_succ_of_le hl)⟩
      obtain ⟨id, hsuf⟩ := suffix_of_mem_destructions (mem_destructions_of_lasts haccepted hlasts)
      have hgone : ¬ .teardown e id :: ((start host script).run i).stack <:+
          ((start host script).run (k + 1)).stack := fun hsuf' =>
        absurd hsuf'.length_le (hstack ▸ Nat.not_succ_le_self _)
      obtain ⟨htop, ⟨b, -, hnext⟩ | ⟨cause', hcall, -⟩⟩ := told_of_gone hlasts.step hsuf hgone
      · -- whoever is answered goes on
        rw [hnext] at hcontrol
        exact absurd hcontrol (control_resume_ne_unwind (m := { (start host script).run k with
          stack := ((start host script).run i).stack }) (hwf k hjn) _ b cause)
      · rw [left?_eq_some_iff.mpr ⟨cause', _, hcall, htop⟩]
        rfl
    · rcases (turnover_succ host script i).mem_destructions_of_accepted haccepted with
        hopen | ⟨-, hreleased⟩
      · exact absurd (length_lt_of_mem_destructions hopen) (hstack ▸ Nat.lt_irrefl _)
      · obtain ⟨hanswer, -⟩ := (turnover_succ host script i).released_cases hreleased
        rw [hanswer] at hcontrol
        cases hcontrol

/-! ## Dispatches that were left -/

omit [DecidableEq U] in
/-- An announcement lies where it lay below frames that are plain. -/
theorem suffix_of_plain_removal {id : ComponentId} {e : Entity}
    {new stack below : List (Frame U σ)} (plain : ∀ f ∈ new, f.isPlain = true)
    (h : .removal id e :: below <:+ new ++ stack) : .removal id e :: below <:+ stack :=
  suffix_of_not_mem (fun hmem => by cases plain _ hmem) h

omit [DecidableEq U] in
/-- An announcement lies where it lay if another frame comes on top. -/
theorem suffix_of_cons_removal {id : ComponentId} {e : Entity} {f : Frame U σ}
    {stack below : List (Frame U σ)} (hf : f.announced? = none)
    (h : .removal id e :: below <:+ f :: stack) : .removal id e :: below <:+ stack := by
  rcases List.suffix_cons_iff.mp h with heq | hsuf
  · rw [← (List.cons.inj heq).1] at hf
    cases hf
  · exact hsuf

omit [DecidableEq U] in
theorem suffix_of_tornDown_removal {w : World (Kind U)} {id j : ComponentId} {e x : Entity}
    {rest below : List (Frame U σ)} (torn : TornDown w x j rest m')
    (h : .removal id e :: below <:+ m'.stack) : .removal id e :: below <:+ rest := by
  cases torn with
  | next pool world stack control => exact suffix_of_cons_removal rfl (stack ▸ h)
  | last pool world stack control => exact stack ▸ h

/-- An announcement that was not there before is one that is made now. -/
theorem published_of_move (hm : Move m m') {id : ComponentId} {e : Entity}
    {below : List (Frame U σ)} (hafter : .removal id e :: below <:+ m'.stack)
    (hbefore : ¬ .removal id e :: below <:+ m.stack) :
    m'.control = .publish id .destroy e ∧ m'.stack = .removal id e :: below := by
  cases hm with
  | announced j x call fresh row world stack control =>
    rw [stack] at hafter ⊢
    rcases List.suffix_cons_iff.mp hafter with heq | hsuf
    · obtain ⟨hframe, rfl⟩ := List.cons.inj heq
      obtain ⟨rfl, rfl⟩ := Frame.removal.inj hframe
      exact ⟨control, rfl⟩
    · exact absurd hsuf hbefore
  | quiet old new rest before after plain request world control =>
    rw [after] at hafter
    rw [before] at hbefore
    have hsuf := suffix_of_plain_removal
      (fun f hf => plain f (List.mem_append_right old hf)) hafter
    exact absurd (hsuf.trans (List.suffix_append old rest)) hbefore
  | created x table next call allocate world stack control => exact absurd (stack ▸ hafter) hbefore
  | placed kind j x v make next frame call accepts world plain stack control =>
    rw [stack] at hafter
    have hplain : ∀ f ∈ [frame], f.isPlain = true := by simpa using plain
    exact absurd (suffix_of_plain_removal hplain hafter) hbefore
  | asked kind j x next call number world stack control =>
    exact absurd (suffix_of_cons_removal rfl (stack ▸ hafter)) hbefore
  | begun x call alive torn => exact absurd (suffix_of_tornDown_removal torn hafter) hbefore
  | refused j x call reason world stack control => exact absurd (stack ▸ hafter) hbefore
  | finished j x b call before world control =>
    exact absurd (before ▸ hafter.trans (List.suffix_cons _ _)) hbefore
  | teardown j x b rest call before torn =>
    have hsuf := suffix_of_tornDown_removal torn hafter
    exact absurd (before ▸ hsuf.trans (List.suffix_cons _ rest)) hbefore
  | taken kind x b next script call before world control =>
    exact absurd (before ▸ hafter.trans (List.suffix_cons _ _)) hbefore

/-- Where calls are abandoned nothing is announced. -/
theorem suffix_of_fall (hf : Fall m m') {stack : List (Frame U σ)} (h : stack <:+ m'.stack) :
    stack <:+ m.stack := by
  cases hf with
  | raised cause request world same control => exact same ▸ h
  | exhausted cause next call released world same control => exact same ▸ h
  | left cause frame call before world control => exact before ▸ h.trans (List.suffix_cons frame _)

/-- Whatever is announced on the stack, a dispatch started for it, on top of the announcement. -/
theorem exists_published (h : (start host script).Tame n)
    (hlt : ∀ i, (start host script).reissues n i < UInt32.size) {k : Nat} (hk : k ≤ n)
    {id : ComponentId} {e : Entity} {below : List (Frame U σ)}
    (hsuf : .removal id e :: below <:+ ((start host script).run k).stack) :
    ∃ p ≤ k, ((start host script).run p).control = .publish id .destroy e ∧
      ((start host script).run p).stack = .removal id e :: below ∧
      ∀ l, p ≤ l → l ≤ k → .removal id e :: below <:+ ((start host script).run l).stack := by
  induction k with
  | zero => cases List.suffix_nil.mp hsuf
  | succ k ih =>
    by_cases hbefore : .removal id e :: below <:+ ((start host script).run k).stack
    · obtain ⟨p, hpk, hcall, hstack, hstays⟩ := ih (Nat.le_of_succ_le hk) hbefore
      refine ⟨p, Nat.le_succ_of_le hpk, hcall, hstack, fun l hpl hl => ?_⟩
      rcases Nat.le_succ_iff.mp hl with hlk | rfl
      · exact hstays l hpl hlk
      · exact hsuf
    · have hnow : ((start host script).run (k + 1)).control = .publish id .destroy e ∧
          ((start host script).run (k + 1)).stack = .removal id e :: below := by
        rcases move_or_fall_of_lt host script h hlt hk with heq | hm | hf
        · exact absurd (heq ▸ hsuf) hbefore
        · exact published_of_move hm hsuf hbefore
        · exact absurd (suffix_of_fall hf hsuf) hbefore
      refine ⟨k + 1, Nat.le_refl _, hnow.1, hnow.2, fun l hkl hl => ?_⟩
      obtain rfl := Nat.le_antisymm hl hkl
      exact hsuf

/-- When a dispatch is over whoever waited for it is told. -/
theorem told_of_published {m : Machine U σ} {p q : Nat} {id : ComponentId} {event : LifeEvent}
    {e : Entity} (hcall : (m.run p).control = .publish id event e) (hpq : p < q)
    (hduring : ∀ k, p < k → k < q → (m.run p).stack.length < (m.run k).stack.length)
    (hover : ¬ (m.run p).stack.length < (m.run q).stack.length) :
    (m.run q).stack = (m.run p).stack ∧
      ((∃ b, (m.run q).control = .reply b) ∨ ∃ cause, (m.run q).control = .unwind cause) := by
  have hstart := dispatching_start hcall
  obtain ⟨l, rfl⟩ := Nat.exists_eq_succ_of_ne_zero (Nat.ne_of_gt (Nat.zero_lt_of_lt hpq))
  have hpl : p < l := (Nat.lt_succ_iff_lt_or_eq.mp hpq).resolve_right fun heq =>
    hover (heq ▸ hstart.lasts.length_lt)
  have hlasts : m.Lasts p l := ⟨hpl, fun k hk hpk => hduring k hpk (Nat.lt_succ_of_le hk)⟩
  obtain ⟨above, keys, hstack, -⟩ := ((turns_come_first hstart l).2 hlasts).frame
  have hgone : ¬ .dispatch id event e keys :: (m.run p).stack <:+ (m.run (l + 1)).stack :=
    fun hsuf => hover hsuf.length_le
  obtain ⟨-, ⟨b, -, hnext⟩ | ⟨cause, hunwind, hnext⟩⟩ :=
    told_of_gone hlasts.step (hstack ▸ List.suffix_append above _) hgone
  · cases keys with
    | nil =>
      rw [hnext]
      exact ⟨rfl, .inl ⟨true, rfl⟩⟩
    | cons key keys =>
      rw [hnext] at hover
      exact absurd (Nat.lt_succ_self _) hover
  · rw [hnext]
    exact ⟨rfl, .inr ⟨cause, hunwind⟩⟩

/-- A dispatch that is over was answered at some step, or left. -/
theorem answered_or_left_of_published {m : Machine U σ} {p r : Nat} {id : ComponentId}
    {event : LifeEvent} {e : Entity} (hcall : (m.run p).control = .publish id event e) (hpr : p < r)
    (hover : ¬ (m.run p).stack.length < (m.run r).stack.length) :
    ∃ q ≤ r, (∃ b, m.Answered p q b) ∨ m.Left p q := by
  have hfirst : ∃ q, p < q ∧ ¬ (m.run p).stack.length < (m.run q).stack.length := ⟨r, hpr, hover⟩
  obtain ⟨hpq, hshort⟩ := Nat.find_spec hfirst
  have hduring : ∀ k, p < k → k < Nat.find hfirst →
      (m.run p).stack.length < (m.run k).stack.length := fun k hpk hk => by
    by_contra hlate
    exact Nat.find_min hfirst hk ⟨hpk, hlate⟩
  refine ⟨_, Nat.find_min' hfirst ⟨hpr, hover⟩, ?_⟩
  obtain ⟨hstack, ⟨b, hreply⟩ | hunwind⟩ := told_of_published hcall hpq hduring hshort
  · exact .inl ⟨b, hpq, hduring, hstack, hreply⟩
  · exact .inr ⟨hpq, hduring, hstack, hunwind⟩

/-- An announcement that is told goes. -/
theorem stack_of_told {m : Machine U σ} {k : Nat} {id : ComponentId} {e : Entity}
    {below : List (Frame U σ)} (hstack : (m.run k).stack = .removal id e :: below)
    (htold : (∃ b, (m.run k).control = .reply b) ∨ ∃ cause, (m.run k).control = .unwind cause) :
    (m.run (k + 1)).stack = below := by
  rcases htold with ⟨b, hcall⟩ | ⟨cause, hcall⟩
  · rw [run_succ_of_run_step (step_of_reply hcall hstack)]
    rfl
  · have hstep : (m.run k).step =
        some ({ m.run k with stack := below }.abandon (.removal id e) cause) := by
      simp only [step, hcall, hstack]
    rw [run_succ_of_run_step hstep]
    rfl

/-- Whatever was left behind announced, the dispatch that was for it was left. -/
theorem mem_lost_iff (h : (start host script).Tame n)
    (hlt : ∀ i, (start host script).reissues n i < UInt32.size) {id : ComponentId} {e : Entity} :
    (id, e) ∈ (start host script).lost n ↔ ∃ p q, q < n ∧
      ((start host script).run p).control = .publish id .destroy e ∧
        (start host script).Left p q := by
  rw [mem_lost]
  constructor
  · rintro ⟨q, hqn, hq⟩
    obtain ⟨frame, hleft, hframe⟩ := Option.bind_eq_some_iff.mp hq
    cases frame with
    | removal j x =>
      obtain ⟨rfl, rfl⟩ := Prod.mk.inj (Option.some.inj hframe)
      obtain ⟨cause, below, hunwind, hbelow⟩ := left?_eq_some_iff.mp hleft
      have hsuf : .removal j x :: below <:+ ((start host script).run q).stack := by rw [hbelow]
      obtain ⟨p, hpq, hcall, hstack, hstays⟩ := exists_published h hlt (Nat.le_of_lt hqn) hsuf
      have hlt : p < q := Nat.lt_of_le_of_ne hpq fun heq => by
        rw [← heq, hcall] at hunwind
        cases hunwind
      have hshort : ¬ ((start host script).run p).stack.length <
          ((start host script).run q).stack.length := by
        rw [hstack, hbelow]
        exact Nat.lt_irrefl _
      -- an announcement that was told before would not be there any more
      have htold : ∀ l ≤ q, p < l → ((start host script).run l).stack = .removal j x :: below →
          ((∃ b, ((start host script).run l).control = .reply b) ∨
            ∃ cause, ((start host script).run l).control = .unwind cause) → l = q := by
        intro l hlq hpl hsame htold
        by_contra hne
        have hsuf := hstays (l + 1) (Nat.le_succ_of_le (Nat.le_of_lt hpl))
          (Nat.lt_of_le_of_ne hlq hne)
        rw [stack_of_told hsame htold] at hsuf
        exact absurd hsuf.length_le (Nat.not_succ_le_self _)
      obtain ⟨l, hlq, ⟨b, hanswered⟩ | hover⟩ := answered_or_left_of_published hcall hlt hshort
      · obtain rfl := htold l hlq hanswered.lt (hanswered.stack.trans hstack)
          (.inl ⟨b, hanswered.control⟩)
        have hreply := hanswered.control
        rw [hunwind] at hreply
        cases hreply
      · obtain rfl := htold l hlq hover.lt (hover.stack.trans hstack) (.inr hover.control)
        exact ⟨p, l, hqn, hcall, hover⟩
    | _ => cases hframe
  · rintro ⟨p, q, hqn, hcall, hleft⟩
    obtain ⟨below, hbelow⟩ := (attended_run host script p).publish hcall
    obtain ⟨cause, hunwind⟩ := hleft.control
    refine ⟨q, hqn, ?_⟩
    rw [left?_eq_some_iff.mpr ⟨cause, below, hunwind, hleft.stack.trans hbelow⟩]
    rfl

/-! ## Between two calls -/

/-- Whoever is given up is gone, and its call answers that it was destroyed. -/
theorem gone_of_released (h : (start host script).Tame n)
    (hlt : ∀ i, (start host script).reissues n i < UInt32.size) {l : Nat} (hl : l < n) {e : Entity}
    (hreleased : ((start host script).run l).released? = some e) :
    ((start host script).run (l + 1)).world.isValid e = false ∧
      ((start host script).run (l + 1)).control = .reply true := by
  have hdead : ∀ {t : Entity.Table}, t.isAlive e = true → (t.release e).2.isAlive e = false :=
    fun ht => Bool.eq_false_iff.mpr fun hc => ((Entity.Table.isAlive_release ht e).mp hc).2 rfl
  obtain ⟨hanswer, ⟨hentities, hunder⟩ | ⟨haccepted, hentities, -⟩⟩ :=
    (turnover_succ host script l).released_cases hreleased
  · have hmem := mem_destroyed_of_mem_destructions (hunder ▸ List.mem_cons_self)
    have hup := upheld_of_le host script h hlt (Nat.le_of_lt hl)
    refine ⟨?_, hanswer⟩
    rw [World.isValid, hentities]
    exact hdead (World.isValid_of_isDestroying (hup.destroying hmem))
  · refine ⟨?_, hanswer⟩
    rw [World.isValid, hentities]
    refine hdead ?_
    rw [Entity.Table.isAlive_beginDestroy]
    exact ((World.accepts_iff _ _).mp (accepted?_eq_some haccepted).2).1

/-- Between two calls nothing is announced but what was left behind. -/
theorem mem_removing_iff (h : (start host script).Tame n)
    (hlt : ∀ i, (start host script).reissues n i < UInt32.size) {k : Nat} (hk : k ≤ n)
    (hscope : ((start host script).run k).stack.all Frame.isScope = true) {id : ComponentId}
    {e : Entity} :
    (id, e) ∈ ((start host script).run k).world.removing ↔ ∃ p q, q ≤ k ∧
      ((start host script).run p).control = .publish id .destroy e ∧
        (start host script).Left p q := by
  have hplain := Sound.isPlain_of_isScope hscope
  rw [(wrecked_run host script h hlt hk).removing.mem_iff, announced_of_plain hplain, List.nil_append,
    mem_lost_iff (h.mono hk) fun i => Nat.lt_of_le_of_lt (reissues_mono _ hk i) (hlt i)]
  constructor
  · rintro ⟨p, q, hqk, hleft⟩
    exact ⟨p, q, Nat.le_of_lt hqk, hleft⟩
  · rintro ⟨p, q, hqk, hcall, hleft⟩
    refine ⟨p, q, Nat.lt_of_le_of_ne hqk fun heq => ?_, hcall, hleft⟩
    -- a dispatch that has just been left leaves its announcement on the stack
    obtain ⟨below, hbelow⟩ := (attended_run host script p).publish hcall
    have htop := List.all_eq_true.mp hscope (.removal id e)
      (by rw [← heq, hleft.stack, hbelow]; exact List.mem_cons_self)
    cases htop

/-- Between two calls nobody is being destroyed but who was left behind. -/
theorem isDestroying_iff (h : (start host script).Tame n)
    (hlt : ∀ i, (start host script).reissues n i < UInt32.size) {k : Nat} (hk : k ≤ n)
    (hscope : ((start host script).run k).stack.all Frame.isScope = true) (e : Entity) :
    ((start host script).run k).world.isDestroying e = true ↔ ∃ i j, j ≤ k ∧
      ((start host script).run i).accepted? = some e ∧ (start host script).Left i j := by
  rw [(wrecked_run host script h hlt hk).destroying,
    destroyed_of_plain (Sound.isPlain_of_isScope hscope),
    mem_stuck_iff fun l hl => (upheld_of_le host script h hlt (Nat.le_of_lt (hl.trans_le hk))).wf]
  exact or_iff_right List.not_mem_nil

/-- A call that is accepted and answered has destroyed the entity. -/
theorem gone_of_answered (h : (start host script).Tame n)
    (hlt : ∀ i, (start host script).reissues n i < UInt32.size) {i j : Nat} (hj : j ≤ n)
    {e : Entity} {b : Bool} (haccepted : ((start host script).run i).accepted? = some e)
    (hanswered : (start host script).Answered i j b) :
    b = true ∧ ((start host script).run j).world.isValid e = false := by
  obtain ⟨l, rfl⟩ := Nat.exists_eq_succ_of_ne_zero (Nat.ne_of_gt (Nat.zero_lt_of_lt hanswered.lt))
  obtain ⟨hdead, hreply⟩ := gone_of_released h hlt hj (released?_of_answered haccepted hanswered)
  exact ⟨Control.reply.inj (hanswered.control.symm.trans hreply), hdead⟩

/-- A row goes with its entity if its removal was not left behind before, and no call is abandoned
in between. -/
theorem holds_of_answered (h : (start host script).Tame n)
    (hlt : ∀ i, (start host script).reissues n i < UInt32.size) {i j : Nat} (hj : j ≤ n)
    {e : Entity} {b : Bool} (haccepted : ((start host script).run i).accepted? = some e)
    {id : ComponentId} (hfree : (id, e) ∉ ((start host script).run i).world.removing)
    (hanswered : (start host script).Answered i j b)
    (hquiet : ∀ k, i < k → k < j → ∀ cause, ((start host script).run k).control ≠ .unwind cause) :
    ((start host script).run j).world.holds id e = false := by
  have hcall := (accepted?_eq_some haccepted).1
  have hi : i ≤ n := Nat.le_trans (Nat.le_of_lt hanswered.lt) hj
  have hbefore := wrecked_run host script h hlt hi
  have hafter := wrecked_run host script h hlt hj
  refine Bool.eq_false_iff.mpr fun hrow => ?_
  rcases hafter.rows id e hrow with hvalid | hremoving | ⟨f, rest, hstack, -, hf⟩
  · rw [(gone_of_answered h hlt hj haccepted hanswered).2] at hvalid
    cases hvalid
  · -- nothing was left behind in the meantime, and the stack is as it was
    have hsame : (start host script).lost j = (start host script).lost i :=
      lost_eq_of_quiet (Nat.le_of_lt hanswered.lt) fun k hik hkj =>
        hanswered.calm (fun _ hc => by rw [hcall] at hc; cases hc) hquiet hik (Nat.le_of_lt hkj)
    refine hfree (hbefore.removing.mem_iff.mpr ?_)
    have hmem := hafter.removing.mem_iff.mp hremoving
    rwa [hanswered.stack, hsame] at hmem
  · -- who asks for a destruction takes no component
    have hup := upheld_of_le host script h hlt hi
    have hwell := (hup.layered.shape fun _ hc => by rw [hcall] at hc; cases hc).wellstacked
      (fun _ hc => by rw [hcall] at hc; cases hc) fun _ _ hc => by rw [hcall] at hc; cases hc
    rw [← hanswered.stack, hstack] at hwell
    cases hwell with
    | plain hplain _ => exact Frame.not_removes_of_isPlain hplain hf
    | removal _ _ => exact hf

end Machine

/-- **What abandoned calls leave behind.** Handlers may abandon calls at any depth, and the run goes
on afterwards. When no call is in progress, the entities that are being destroyed are those whose
accepted destruction was left, the removals that are listed are those whose dispatch was left, once
each, and a row of an entity that is gone is one of these. Whoever is valid, is not being destroyed
and has no removal listed is destroyed by the next call that does so without one more abandoned
call: it answers that it did, and leaves no row behind. -/
theorem Machine.abandoned_calls_leave_this_behind (host : σ) (script : Script U σ) {n : Nat}
    (h : (start host script).Tame n)
    (hlt : ∀ index, (start host script).reissues n index < UInt32.size) :
    let m := start host script
    (∀ k ≤ n, (m.run k).stack.all Frame.isScope = true →
      (∀ e, (m.run k).world.isDestroying e = true ↔
        ∃ i j, j ≤ k ∧ (m.run i).accepted? = some e ∧ m.Left i j) ∧
      (m.run k).world.removing.Nodup ∧
      (∀ id e, (id, e) ∈ (m.run k).world.removing ↔
        ∃ p q, q ≤ k ∧ (m.run p).control = .publish id .destroy e ∧ m.Left p q) ∧
      ∀ id e, (m.run k).world.holds id e = true → (m.run k).world.isValid e = false →
        (id, e) ∈ (m.run k).world.removing) ∧
      ∀ i, ∀ j ≤ n, ∀ e b, (m.run i).control = .destroy e → (m.run i).world.isValid e = true →
        (m.run i).world.isDestroying e = false → (∀ id, (id, e) ∉ (m.run i).world.removing) →
        m.Answered i j b → (∀ k, i < k → k < j → ∀ cause, (m.run k).control ≠ .unwind cause) →
          b = true ∧ (m.run j).world.isValid e = false ∧
            ∀ id, (m.run j).world.holds id e = false := by
  intro m
  refine ⟨fun k hk hscope => ⟨isDestroying_iff h hlt hk hscope, ?_,
    fun id e => mem_removing_iff h hlt hk hscope, fun id e hrow hdead => ?_⟩,
    fun i j hj e b hcall hvalid hdestroying hfree hanswered hquiet => ?_⟩
  · exact (wrecked_run host script h hlt hk).nodup
  · have hunowed : ∀ id e, ¬ Owed (m.run k).world (m.run k).stack (m.run k).control id e :=
      Sound.not_owed_of_isScope hscope
    rcases (wrecked_run host script h hlt hk).rows_of_unowed hunowed hrow with hvalid | hremoving
    · rw [hdead] at hvalid
      cases hvalid
    · exact hremoving
  · have haccepted := accepted?_of_accepts hcall hvalid hdestroying
    obtain ⟨hb, hdead⟩ := gone_of_answered h hlt hj haccepted hanswered
    exact ⟨hb, hdead, fun id =>
      holds_of_answered h hlt hj haccepted (hfree id) hanswered hquiet⟩

/-- A handler gives up whenever an entity loses its links. It does so where they are taken from the
first entity, and where the second is destroyed. Then the first and the third are destroyed. -/
def wreck : Script Empty Unit :=
  Task.toScript do
    let _ ← Task.connect .node .destroy fun _ _ => .abort (.raised "stop")
    let first ← Task.create
    let second ← Task.create
    let third ← Task.create
    let _ ← Task.emplace .node first (.ok TreeNode.isolated)
    let _ ← Task.emplace .node second (.ok TreeNode.isolated)
    let _ ← Task.emplace .transform third (.ok Transform.identity)
    let _ ← Task.attempt do
      let _ ← Task.take .node first
    let _ ← Task.attempt do
      let _ ← Task.destroy second
    let _ ← Task.destroy first
    let _ ← Task.destroy third

/-- The first entity is gone with its row left behind, the second is being destroyed for good, and
the third is gone without a trace. -/
theorem Machine.abandoned_calls_leave_this_behind_wreck :
    (start () wreck).Tame 61 ∧
      (∀ index, (start () wreck).reissues 61 index < UInt32.size) ∧
      ((start () wreck).run 61).world.removing = [(0, ⟨1, .initial⟩), (0, ⟨0, .initial⟩)] ∧
      (∃ p q, q ≤ 61 ∧ ((start () wreck).run p).control = .publish 0 .destroy ⟨0, .initial⟩ ∧
        (start () wreck).Left p q) ∧
      ((start () wreck).run 61).world.holds 0 ⟨0, .initial⟩ = true ∧
      ((start () wreck).run 61).world.isValid ⟨0, .initial⟩ = false ∧
      ((start () wreck).run 61).world.isDestroying ⟨1, .initial⟩ = true ∧
      (∃ i j, j ≤ 61 ∧ ((start () wreck).run i).accepted? = some ⟨1, .initial⟩ ∧
        (start () wreck).Left i j) ∧
      ((start () wreck).run 51).world.holds 1 ⟨2, .initial⟩ = true ∧
      ((start () wreck).run 59).world.isValid ⟨2, .initial⟩ = false ∧
      ∀ id, ((start () wreck).run 59).world.holds id ⟨2, .initial⟩ = false := by
  have htame : (start () wreck).Tame 61 := by decide +kernel
  have hreissues : ∀ index, (start () wreck).reissues 61 index < UInt32.size := fun index =>
    Nat.lt_of_le_of_lt (reissues_le _ 61 index) (by decide)
  obtain ⟨hbehind, hcalls⟩ := abandoned_calls_leave_this_behind () wreck htame hreissues
  obtain ⟨hdestroying, -, hremoving, -⟩ := hbehind 61 (Nat.le_refl 61) (by decide +kernel)
  have hlisted : ((start () wreck).run 61).world.removing =
      [(0, ⟨1, .initial⟩), (0, ⟨0, .initial⟩)] := by decide +kernel
  have hstuck : ((start () wreck).run 61).world.isDestroying ⟨1, .initial⟩ = true := by
    decide +kernel
  have hordinary : ∀ k < 59, 51 < k → ((start () wreck).run k).control.isOrdinary = true := by
    decide +kernel
  have hreleased : ((start () wreck).run 58).released? = some ⟨2, .initial⟩ := by decide +kernel
  have honce : ∀ i ≤ 58, ((start () wreck).run i).accepted? = some ⟨2, .initial⟩ → i = 51 := by
    decide +kernel
  obtain ⟨i, hi, haccepted, hanswered⟩ := exists_answered_of_released hreleased
  obtain rfl := honce i hi haccepted
  obtain ⟨-, hgone⟩ := hcalls 51 59 (by decide) ⟨2, .initial⟩ true (accepted?_eq_some haccepted).1
    (by decide +kernel) (by decide +kernel)
    (fun id => by
      have hremoving : ((start () wreck).run 51).world.removing =
        [(0, ⟨1, .initial⟩), (0, ⟨0, .initial⟩)] := by decide +kernel
      rw [hremoving]
      simp) hanswered
    fun k hk hk' cause hc => by
      have hk := hordinary k hk' hk
      rw [hc] at hk
      cases hk
  exact ⟨htame, hreissues, hlisted,
    (hremoving 0 ⟨0, .initial⟩).mp (hlisted ▸ List.mem_cons_of_mem _ List.mem_cons_self),
    by decide +kernel, by decide +kernel, hstuck, (hdestroying ⟨1, .initial⟩).mp hstuck,
    by decide +kernel, hgone⟩

/-- Two components are abandoned while they are made. The removal of the first is abandoned halfway,
and a component of the third entity then takes the place that the row of the second is looked for
in. The second entity is destroyed. -/
def mislaying : Script Empty Unit :=
  Task.toScript do
    let first ← Task.create
    let second ← Task.create
    let third ← Task.create
    let _ ← Task.attempt do
      let _ ← Task.emplace .node first (.error (.raised "stop"))
    let _ ← Task.attempt do
      let _ ← Task.emplace .node second (.error (.raised "stop"))
    let _ ← Task.attempt do
      let _ ← Task.take .node first
    let _ ← Task.attempt do
      let _ ← Task.emplace .node third (.ok TreeNode.isolated)
    let _ ← Task.destroy second

/-- Where components are abandoned while they are made, a destruction can miss a row: nothing is
listed, nobody is being destroyed, the call answers that the entity is gone, and the row stays. -/
theorem Machine.unmade_values_mislay_a_row :
    (∀ index, (start () mislaying).reissues 24 index < UInt32.size) ∧
      ((start () mislaying).run 21).accepted? = some ⟨1, .initial⟩ ∧
      ((start () mislaying).run 21).world.removing = [] ∧
      (start () mislaying).Answered 21 24 true ∧
      (∀ k, 21 < k → k < 24 → ∀ cause, ((start () mislaying).run k).control ≠ .unwind cause) ∧
      ((start () mislaying).run 24).world.removing = [] ∧
      ((start () mislaying).run 24).world.isValid ⟨1, .initial⟩ = false ∧
      (((start () mislaying).run 24).world.storage? .node).map (·.entities) =
        some #[⟨1, .initial⟩, ⟨2, .initial⟩] := by
  have haccepted : ((start () mislaying).run 21).accepted? = some ⟨1, .initial⟩ := by
    decide +kernel
  have hreleased : ((start () mislaying).run 23).released? = some ⟨1, .initial⟩ := by
    decide +kernel
  have honce : ∀ i ≤ 23, ((start () mislaying).run i).accepted? = some ⟨1, .initial⟩ → i = 21 := by
    decide +kernel
  have hordinary : ∀ k < 24, 21 < k → ((start () mislaying).run k).control.isOrdinary = true := by
    decide +kernel
  obtain ⟨i, hi, hfrom, hanswered⟩ := exists_answered_of_released hreleased
  obtain rfl := honce i hi hfrom
  refine ⟨fun index => Nat.lt_of_le_of_lt (reissues_le _ 24 index) (by decide), haccepted,
    by decide +kernel, hanswered, fun k hk hk' cause hc => ?_, by decide +kernel,
    by decide +kernel, by decide +kernel⟩
  have hk := hordinary k hk' hk
  rw [hc] at hk
  cases hk

end EntityScene
