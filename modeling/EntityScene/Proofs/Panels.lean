import Mathlib.Data.List.Count
import Mathlib.Logic.Function.Basic
import EntityScene.Proofs.Guards

/-!
# Signals and the books that are kept on them

Connections are made to several signals, cut one by one or all at once, and held back by guards that
are given back in any order, also when the connection was cut long ago. A signal forgets connections
that were cut when it is connected to or dispatched, and not before. What a signal and a connection
say at any time is still what an onlooker finds who has written down what was done and nothing else.

An act is abandoned where a count, a 32-bit word, has no room for one more: the number of the next
connection, or the guards on one connection. Whoever builds the handler of a connection may be
abandoned as well. Its number is used up then, and the signal does not list it.

- `Signal.connectCyclic`: a connection whose handler is built from its own key.
- `Panel`, `Panel.Act`, `Panel.act`: several signals on one switchboard, and what is done to them.
- `Panel.Event`, `Panel.record`: what the onlooker writes down of an act.
- `made`, `taken`, `Owned`, `Cut`, `live`: who was connected, cut and held back by it.
- `Panel.Kept`: signals and switchboard agree with the history.
- `Panel.Overflows`: the acts that are abandoned, in terms of the history.
- `Panel.kept_act`, `Panel.kept_actAll`: every act keeps it so.
- `Panel.signals_act_other`, `Panel.connection?_act`: what an act leaves alone.
- `Panel.signals_keep_their_books`: what this says about all sequences of acts.
- `Panel.numbers_run_out`: a signal has numbers for so many connections and no more.
-/

namespace EntityScene

/-- What is done to one connection, by whoever has its handle or a guard on it. -/
inductive Touch
  /-- The connection is cut. -/
  | disconnect (key : ConnectionKey)
  /-- A guard is taken on the connection. -/
  | block (key : ConnectionKey)
  /-- A guard is given back. -/
  | release (guard : GuardKey)
deriving DecidableEq, Repr

namespace Switchboard

/-- Act on a connection. A count that is zero is not counted down. -/
def touch (b : Switchboard) : Touch → Except Abort Unit × Switchboard
  | .disconnect key => (.ok (), b.disconnect key)
  | .block key =>
    let (taken, b) := b.block key
    (taken.map fun _ => (), b)
  | .release guard =>
    match b.held? guard with
    | none => (.ok (), b)
    | some key =>
      if b.blocks key = 0 then (.error .countUnderflow, b) else (.ok (), (b.release guard).2)

/-- Act on connections, one act after the other, until one is abandoned. -/
def touchAll (b : Switchboard) : List Touch → Except Abort Unit × Switchboard
  | [] => (.ok (), b)
  | t :: touches =>
    match b.touch t with
    | (.ok (), b) => b.touchAll touches
    | (.error cause, b) => (.error cause, b)

/-- The acts that are done before one is abandoned. -/
def done (b : Switchboard) : List Touch → List Touch
  | [] => []
  | t :: touches =>
    match b.touch t with
    | (.ok (), b) => t :: b.done touches
    | (.error _, _) => []

variable {b b' : Switchboard} {key : ConnectionKey} {cut cut' : ConnectionKey → Prop}
variable {t : Touch} {cause : Abort}

theorem touchAll_cons_of_ok (hok : b.touch t = (.ok (), b')) (touches : List Touch) :
    b.touchAll (t :: touches) = b'.touchAll touches := by
  rw [touchAll, hok]

theorem touchAll_cons_of_error (herror : b.touch t = (.error cause, b')) (touches : List Touch) :
    b.touchAll (t :: touches) = (.error cause, b') := by
  rw [touchAll, herror]

theorem done_cons_of_ok (hok : b.touch t = (.ok (), b')) (touches : List Touch) :
    b.done (t :: touches) = t :: b'.done touches := by
  rw [done, hok]

theorem done_cons_of_error (herror : b.touch t = (.error cause, b')) (touches : List Touch) :
    b.done (t :: touches) = [] := by
  rw [done, herror]

/-- Connections change their states, but not their numbers, and some of them are cut. -/
structure Altered (b b' : Switchboard) (cut : ConnectionKey → Prop) : Prop where
  size : b'.connections.size = b.connections.size
  states : ∀ k c, b.connection? k = some c → ∃ c', b'.connection? k = some c' ∧
    c'.id = c.id ∧ (c'.connected = true ↔ c.connected = true ∧ ¬ cut k)

theorem Altered.refl (b : Switchboard) : Altered b b fun _ => False :=
  { size := rfl
    states := fun _ c hc => ⟨c, hc, rfl, by rw [and_iff_left not_false]⟩ }

theorem altered_modify (b : Switchboard) (key : ConnectionKey) {f : Connection → Connection}
    (hid : ∀ c, (f c).id = c.id) (hconnected : ∀ c, (f c).connected = c.connected) :
    Altered b (b.modify key f) fun _ => False := by
  refine
    { size := Array.size_modify ..
      states := fun k c hc => ?_ }
  by_cases hk : k = key
  · refine ⟨f c, ?_, hid c, ?_⟩
    · rw [hk, connection?_modify_self, ← hk, hc]
      rfl
    · rw [hconnected, and_iff_left not_false]
  · refine ⟨c, ?_, rfl, ?_⟩
    · rw [connection?_modify_other _ _ hk, hc]
    · rw [and_iff_left not_false]

theorem altered_disconnect (b : Switchboard) (key : ConnectionKey) :
    Altered b (b.disconnect key) (· = key) := by
  refine
    { size := Array.size_modify ..
      states := fun k c hc => ?_ }
  by_cases hk : k = key
  · refine ⟨{ c with connected := false }, ?_, rfl, ?_⟩
    · rw [disconnect, hk, connection?_modify_self, ← hk, hc]
      rfl
    · simp [hk]
  · refine ⟨c, ?_, rfl, ?_⟩
    · rw [disconnect, connection?_modify_other _ _ hk, hc]
    · rw [and_iff_left hk]

theorem altered_block (b : Switchboard) (key : ConnectionKey) :
    Altered b (b.block key).2 fun _ => False := by
  have hsame := Altered.refl b
  have hmodify : Altered b (b.modify key fun c => { c with blocks := c.blocks + 1 }) fun _ => False :=
    altered_modify b key (fun _ => rfl) fun _ => rfl
  unfold block
  split
  · exact { size := hsame.size, states := hsame.states }
  · split
    · exact { size := hmodify.size, states := hmodify.states }
    · exact hsame

theorem altered_release (b : Switchboard) (guard : GuardKey) :
    Altered b (b.release guard).2 fun _ => False := by
  unfold release
  split
  · exact .refl b
  · rename_i key _
    have h : Altered b (b.modify key fun c => { c with blocks := c.blocks - 1 }) fun _ => False :=
      altered_modify b key (fun _ => rfl) fun _ => rfl
    exact { size := h.size, states := h.states }

theorem altered_foldl_disconnect (keys : List ConnectionKey) (b : Switchboard) :
    Altered b (keys.foldl (·.disconnect ·) b) (· ∈ keys) := by
  induction keys generalizing b with
  | nil =>
    exact
      { size := rfl
        states := fun k c hc => ⟨c, hc, rfl, by simp⟩ }
  | cons key keys ih =>
    have hfirst := altered_disconnect b key
    have hrest := ih (b.disconnect key)
    refine
      { size := hrest.size.trans hfirst.size
        states := fun k c hc => ?_ }
    obtain ⟨c', hc', hid, hconnected⟩ := hfirst.states k c hc
    obtain ⟨c'', hc'', hid', hconnected'⟩ := hrest.states k c' hc'
    refine ⟨c'', hc'', hid'.trans hid, ?_⟩
    rw [hconnected', hconnected, List.mem_cons, not_or, and_assoc]

/-- A guard that is out can be given back: its connection counts it. -/
theorem touch_release {taken : List (GuardKey × ConnectionKey)} (h : Guarded b taken)
    (guard : GuardKey) : b.touch (.release guard) = (.ok (), (b.release guard).2) := by
  rw [touch]
  cases hheld : b.held? guard with
  | none => rw [release, hheld]
  | some key =>
    have hpos : 0 < b.blocks key := by
      rw [h.blocks, List.countP_pos_iff]
      exact ⟨_, (h.held guard key).mp hheld, beq_self_eq_true key⟩
    exact if_neg (Nat.ne_of_gt hpos)

end Switchboard

namespace Signal

/-- Make a connection whose handler is built from its key. While it is built the connection is there
already, but not in the list, and it stays so if the builder is abandoned. -/
def connectCyclic (s : Signal) (b : Switchboard)
    (build : ConnectionKey → Switchboard → Except Abort Unit × Switchboard) :
    Except Abort ConnectionKey × Signal × Switchboard :=
  let s := s.prune b
  if s.nextId.toNat + 1 < UInt32.size then
    let (key, b) := b.openConnection s.nextId
    let s := { s with nextId := s.nextId + 1 }
    match build key b with
    | (.ok (), b) => (.ok key, { s with slots := s.slots ++ [key] }, b)
    | (.error cause, b) => (.error cause, s, b)
  else (.error .countOverflow, s, b)

/-- A connection that needs no key to build its handler is made at once. -/
theorem connect_eq_connectCyclic (s : Signal) (b : Switchboard) :
    s.connect b = s.connectCyclic b fun _ b => (.ok (), b) := rfl

end Signal

/-- Signals by name, and the switchboard of their connections. -/
structure Panel (ι : Type) where
  signals : ι → Signal := fun _ => .empty
  board : Switchboard := .empty

namespace Panel

variable {ι : Type}

/-- Signals without connections. -/
def empty : Panel ι := {}

/-- What is done to signals. -/
inductive Act (ι : Type)
  /-- A connection is made, and acted upon while its handler is built. -/
  | connect (s : ι) (build : List Touch)
  /-- A connection is acted upon. -/
  | touch (t : Touch)
  /-- All connections of a signal are cut. -/
  | disconnectAll (s : ι)
  /-- The handlers of a signal are listed for a dispatch. -/
  | snapshot (s : ι)

/-- What an onlooker writes down. -/
inductive Event (ι : Type)
  /-- A connection was made to a signal. -/
  | made (s : ι)
  /-- A connection was acted upon. -/
  | touched (t : Touch)
  /-- The handler of a connection was not built, and the connection is not listed. -/
  | forsaken (key : ConnectionKey)
  /-- All connections of a signal were cut. -/
  | cleared (s : ι)
deriving DecidableEq

namespace Act

/-- The signal whose own record an act may change. -/
def signal? : Act ι → Option ι
  | connect s _ | disconnectAll s | snapshot s => some s
  | touch _ => none

/-- What is written down of an act that is done. To list handlers is not worth noting. -/
def events : Act ι → List (Event ι)
  | connect s build => .made s :: build.map .touched
  | touch t => [.touched t]
  | disconnectAll s => [.cleared s]
  | snapshot _ => []

end Act

/-! ## What was written down -/

/-- The signals that connections were made to. A connection has the key of its place. -/
def made (h : List (Event ι)) : List ι :=
  h.filterMap fun
    | .made s => some s
    | _ => none

/-- The connections that guards were taken on. A guard has the key of its place. -/
def taken (h : List (Event ι)) : List ConnectionKey :=
  h.filterMap fun
    | .touched (.block key) => some key
    | _ => none

/-- A connection was made to a signal, and its handler was built. -/
def Owned (h : List (Event ι)) (s : ι) (key : ConnectionKey) : Prop :=
  (made h)[key]? = some s ∧ .forsaken key ∉ h

/-- The connection was cut for itself, or was there when its signal was cleared. -/
def Cut (h : List (Event ι)) (key : ConnectionKey) : Prop :=
  .touched (.disconnect key) ∈ h ∨
    ∃ before after s, h = before ++ .cleared s :: after ∧ Owned before s key

/-- The event is about a connection. -/
def Concerns (h : List (Event ι)) (key : ConnectionKey) : Event ι → Prop
  | .made _ | .forsaken _ => False
  | .touched (.disconnect k) | .touched (.block k) => k = key
  | .touched (.release guard) => (taken h)[guard]? = some key
  | .cleared s => (made h)[key]? = some s

/-- Only connections and guards that are there are named by an event. -/
def Fits (h : List (Event ι)) : Event ι → Prop
  | .made _ | .forsaken _ | .cleared _ => True
  | .touched (.disconnect key) | .touched (.block key) => key < (made h).length
  | .touched (.release guard) => guard < (taken h).length

/-- At any time only connections and guards that were there are named. -/
def Proper (h : List (Event ι)) : Prop :=
  ∀ n, (hn : n < h.length) → Fits (h.take n) h[n]

instance (h : List (Event ι)) (e : Event ι) : Decidable (Fits h e) :=
  match e with
  | .made _ | .forsaken _ | .cleared _ => inferInstanceAs (Decidable True)
  | .touched (.disconnect key) | .touched (.block key) =>
    inferInstanceAs (Decidable (key < (made h).length))
  | .touched (.release guard) => inferInstanceAs (Decidable (guard < (taken h).length))

instance (h : List (Event ι)) : Decidable (Proper h) :=
  inferInstanceAs (Decidable (∀ n, (hn : n < h.length) → Fits (h.take n) h[n]))

/-- The connections of a signal that were not cut, in the order in which they were made. -/
structure Standing (h : List (Event ι)) (s : ι) (keys : List ConnectionKey) : Prop where
  increasing : keys.Pairwise (· < ·)
  mem_iff : ∀ key, key ∈ keys ↔ Owned h s key ∧ ¬ Cut h key

theorem made_append (h h' : List (Event ι)) : made (h ++ h') = made h ++ made h' :=
  List.filterMap_append

theorem taken_append (h h' : List (Event ι)) : taken (h ++ h') = taken h ++ taken h' :=
  List.filterMap_append

/-- The connection that was made last has the last key. -/
theorem getElem?_made_append {h : List (Event ι)} {s s' : ι} {key : ConnectionKey} :
    (made (h ++ [.made s]))[key]? = some s' ↔
      (made h)[key]? = some s' ∨ key = (made h).length ∧ s = s' := by
  have hmade : made (h ++ [.made s]) = made h ++ [s] := made_append _ _
  rw [hmade]
  rcases Nat.lt_trichotomy key (made h).length with hlt | heq | hgt
  · rw [List.getElem?_append_left hlt, or_iff_left fun hc => Nat.ne_of_lt hlt hc.1]
  · rw [heq, List.getElem?_concat_length, List.getElem?_eq_none (Nat.le_refl _)]
    simp
  · rw [List.getElem?_eq_none (by simp; omega), List.getElem?_eq_none (Nat.le_of_lt hgt)]
    simp [Nat.ne_of_gt hgt]

theorem Proper.of_append {h h' : List (Event ι)} (hp : Proper (h ++ h')) : Proper h := by
  intro n hn
  have hlt : n < (h ++ h').length := by
    rw [List.length_append]
    omega
  have hfits := hp n hlt
  rwa [List.take_append_of_le_length (Nat.le_of_lt hn), List.getElem_append_left hn] at hfits

/-- What is done last may name whatever is there by then. -/
theorem Proper.fits_last {h : List (Event ι)} {e : Event ι} (hp : Proper (h ++ [e])) : Fits h e := by
  have hfits := hp h.length (by simp)
  rwa [List.take_left, List.getElem_concat_length rfl] at hfits

/-- The last event cuts a connection, or it was cut before. -/
theorem cut_append_singleton {h : List (Event ι)} {e : Event ι} {key : ConnectionKey} :
    Cut (h ++ [e]) key ↔
      Cut h key ∨ e = .touched (.disconnect key) ∨ ∃ s, e = .cleared s ∧ Owned h s key := by
  constructor
  · rintro (hmem | ⟨before, after, s, heq, hs⟩)
    · rcases List.mem_append.mp hmem with hmem | hmem
      · exact .inl (.inl hmem)
      · exact .inr (.inl (List.mem_singleton.mp hmem).symm)
    · rcases List.eq_nil_or_concat after with rfl | ⟨after', x, rfl⟩
      · obtain ⟨rfl, hlast⟩ := List.append_inj' heq rfl
        exact .inr (.inr ⟨s, (List.cons.inj hlast).1, hs⟩)
      · rw [List.concat_eq_append, ← List.cons_append, ← List.append_assoc] at heq
        exact .inl (.inr ⟨before, after', s, (List.append_inj' heq rfl).1, hs⟩)
  · rintro ((hmem | ⟨before, after, s, rfl, hs⟩) | rfl | ⟨s, rfl, hs⟩)
    · exact .inl (List.mem_append_left _ hmem)
    · exact .inr ⟨before, after ++ [e], s, by simp, hs⟩
    · exact .inl (by simp)
    · exact .inr ⟨h, [], s, rfl, hs⟩

/-- Who is forsaken is not cut by that. -/
theorem cut_append_forsaken {h : List (Event ι)} {k key : ConnectionKey} :
    Cut (h ++ [.forsaken k]) key ↔ Cut h key := by
  rw [cut_append_singleton]
  simp

/-- A connection that is made cuts none. -/
theorem cut_append_made {h : List (Event ι)} {s : ι} {key : ConnectionKey} :
    Cut (h ++ [.made s]) key ↔ Cut h key := by
  rw [cut_append_singleton]
  simp

/-- What neither makes a connection nor forsakes one leaves everybody with their signal. -/
theorem owned_append_singleton {h : List (Event ι)} {e : Event ι} {s : ι} {key : ConnectionKey}
    (hmade : made (h ++ [e]) = made h) (he : ∀ key, e ≠ .forsaken key) :
    Owned (h ++ [e]) s key ↔ Owned h s key := by
  rw [Owned, Owned, hmade, List.mem_append, List.mem_singleton, or_iff_left (Ne.symm (he key))]

theorem owned_append_forsaken {h : List (Event ι)} {s : ι} {k key : ConnectionKey} :
    Owned (h ++ [.forsaken k]) s key ↔ Owned h s key ∧ key ≠ k := by
  have hmade : made (h ++ [.forsaken k]) = made h := (made_append _ _).trans (List.append_nil _)
  rw [Owned, Owned, hmade, List.mem_append, List.mem_singleton, Event.forsaken.injEq, not_or,
    and_assoc]

/-- A connection that is made belongs to its signal. -/
theorem owned_append_made {h : List (Event ι)} {s s' : ι} {key : ConnectionKey}
    (hlt : ∀ key, .forsaken key ∈ h → key < (made h).length) :
    Owned (h ++ [.made s]) s' key ↔ Owned h s' key ∨ key = (made h).length ∧ s = s' := by
  have hmem : .forsaken key ∉ h ++ [.made s] ↔ .forsaken key ∉ h := by simp
  rw [Owned, Owned, getElem?_made_append, hmem]
  constructor
  · rintro ⟨hold | hnew, hnot⟩
    · exact .inl ⟨hold, hnot⟩
    · exact .inr hnew
  · rintro (⟨hold, hnot⟩ | ⟨rfl, rfl⟩)
    · exact ⟨.inl hold, hnot⟩
    · exact ⟨.inr ⟨rfl, rfl⟩, fun hf => Nat.lt_irrefl _ (hlt _ hf)⟩

theorem lt_length_of_made {h : List (Event ι)} {s : ι} {key : ConnectionKey}
    (hs : (made h)[key]? = some s) : key < (made h).length :=
  (List.getElem?_eq_some_iff.mp hs).1

/-- Who was cut stays cut, whatever is written down next. -/
theorem Cut.append {h : List (Event ι)} {key : ConnectionKey} (hcut : Cut h key)
    (h' : List (Event ι)) : Cut (h ++ h') key := by
  rcases hcut with hmem | ⟨before, after, s, rfl, hs⟩
  · exact .inl (List.mem_append_left _ hmem)
  · exact .inr ⟨before, after ++ h', s, by simp, hs⟩

variable [DecidableEq ι]

/-- The guards that were not given back, each with the connection that it is on. -/
def live (h : List (Event ι)) : List (GuardKey × ConnectionKey) :=
  ((taken h).zipIdx.map fun p => (p.2, p.1)).filter fun p => .touched (.release p.1) ∉ h

theorem mem_live {h : List (Event ι)} {guard : GuardKey} {key : ConnectionKey} :
    (guard, key) ∈ live h ↔ (taken h)[guard]? = some key ∧ .touched (.release guard) ∉ h := by
  rw [live, List.mem_filter, decide_eq_true_iff, List.mem_map]
  refine and_congr_left fun _ => ?_
  constructor
  · rintro ⟨⟨k, g⟩, hmem, heq⟩
    obtain ⟨rfl, rfl⟩ := Prod.mk.inj heq
    exact List.mem_zipIdx_iff_getElem?.mp hmem
  · intro hget
    exact ⟨(key, guard), List.mem_zipIdx_iff_getElem?.mpr hget, rfl⟩

/-- To cut connections or to make one is nothing to the guards. -/
theorem live_append_singleton {h : List (Event ι)} {e : Event ι}
    (hblock : ∀ key, e ≠ .touched (.block key)) (hrelease : ∀ guard, e ≠ .touched (.release guard)) :
    taken (h ++ [e]) = taken h ∧ live (h ++ [e]) = live h := by
  have htaken : taken (h ++ [e]) = taken h := by
    rw [taken_append]
    cases e with
    | touched t =>
      cases t with
      | block key => exact absurd rfl (hblock key)
      | disconnect key => exact List.append_nil _
      | release guard => exact List.append_nil _
    | made s => exact List.append_nil _
    | forsaken key => exact List.append_nil _
    | cleared s => exact List.append_nil _
  refine ⟨htaken, ?_⟩
  rw [live, live, htaken]
  refine List.filter_congr fun p _ => ?_
  rw [decide_eq_decide, List.mem_append, List.mem_singleton, or_iff_left (Ne.symm (hrelease p.1))]

/-- A guard that is taken is the last. -/
theorem live_block {h : List (Event ι)} (key : ConnectionKey)
    (hnew : .touched (.release (taken h).length) ∉ h) :
    live (h ++ [.touched (.block key)]) = live h ++ [((taken h).length, key)] := by
  have htaken : taken (h ++ [.touched (.block key)]) = taken h ++ [key] := taken_append _ _
  have hmem : ∀ guard, .touched (.release guard) ∉ h ++ [.touched (.block key)] ↔
      .touched (.release guard) ∉ h := by
    intro guard
    rw [List.mem_append, List.mem_singleton, or_iff_left (by simp)]
  rw [live, htaken, List.zipIdx_append, List.map_append, List.filter_append]
  simp only [hmem]
  refine congrArg (live h ++ ·) ?_
  simp [hnew]

/-- A guard that is given back is one less, and no other is. -/
theorem live_release (h : List (Event ι)) (guard : GuardKey) :
    live (h ++ [.touched (.release guard)]) = (live h).filter (·.1 ≠ guard) := by
  have htaken : taken (h ++ [.touched (.release guard)]) = taken h :=
    (taken_append _ _).trans (List.append_nil _)
  rw [live, live, htaken, List.filter_filter]
  refine List.filter_congr fun p _ => ?_
  by_cases hp : p.1 = guard
  · simp [hp]
  · simp [hp]

/-! ## What is done to signals -/

/-- Exchange one signal, and the switchboard. -/
def set (p : Panel ι) (s : ι) (signal : Signal) (board : Switchboard) : Panel ι :=
  { signals := Function.update p.signals s signal, board }

/-- Act on signals. -/
def act (p : Panel ι) : Act ι → Except Abort Unit × Panel ι
  | .connect s build =>
    let (made, signal, board) :=
      (p.signals s).connectCyclic p.board fun _ board => board.touchAll build
    (made.map fun _ => (), p.set s signal board)
  | .touch t =>
    let (answer, board) := p.board.touch t
    (answer, { p with board })
  | .disconnectAll s =>
    let (signal, board) := (p.signals s).disconnectAll p.board
    (.ok (), p.set s signal board)
  | .snapshot s => (.ok (), p.set s ((p.signals s).snapshot p.board).2 p.board)

/-- What is written down of an act: what was done until it came to its end or was abandoned. -/
def record (p : Panel ι) : Act ι → List (Event ι)
  | .connect s build =>
    if (p.signals s).nextId.toNat + 1 < UInt32.size then
      let (key, board) := p.board.openConnection (p.signals s).nextId
      .made s :: (board.done build).map .touched ++
        if (board.touchAll build).1.isOk then [] else [.forsaken key]
    else []
  | .touch t => (p.board.done [t]).map .touched
  | .disconnectAll s => [.cleared s]
  | .snapshot _ => []

/-- Act on signals, one act after the other, whether acts are abandoned or not. -/
def actAll (p : Panel ι) (acts : List (Act ι)) : Panel ι := acts.foldl (fun p a => (p.act a).2) p

/-- What is written down of acts, one after the other. -/
def recordAll (p : Panel ι) : List (Act ι) → List (Event ι)
  | [] => []
  | a :: acts => p.record a ++ (p.act a).2.recordAll acts

theorem recordAll_append (p : Panel ι) (acts more : List (Act ι)) :
    p.recordAll (acts ++ more) = p.recordAll acts ++ (p.actAll acts).recordAll more := by
  induction acts generalizing p with
  | nil => rfl
  | cons a acts ih =>
    rw [List.cons_append, recordAll, recordAll, ih, List.append_assoc]
    rfl

/-- An act that takes one more guard on a connection with as many as can be counted. -/
def Full (h : List (Event ι)) : Touch → Prop
  | .block key => (live h).countP (·.2 == key) = 2 ^ 32 - 1
  | _ => False

/-- One of several acts, done one after the other, takes one guard too many. -/
def Overfull (h : List (Event ι)) : List Touch → Prop
  | [] => False
  | t :: touches => Full h t ∨ Overfull (h ++ [.touched t]) touches

/-- An act for which a count has no room: that of the connections made to a signal, or that of the
guards on a connection. -/
def Overflows (h : List (Event ι)) : Act ι → Prop
  | .connect s build => (made h).count s = 2 ^ 32 - 1 ∨ Overfull (h ++ [.made s]) build
  | .touch t => Full h t
  | _ => False

variable {h : List (Event ι)} {p p' : Panel ι} {e : Event ι} {key : ConnectionKey}
variable {board board' : Switchboard}

/-! ## Signals that agree with the history -/

/-- A signal lists its own connections, and among them all that were not cut. -/
structure Lists (h : List (Event ι)) (s : ι) (signal : Signal) : Prop where
  number : signal.nextId.toNat = (made h).count s
  increasing : signal.slots.Pairwise (· < ·)
  own : ∀ key ∈ signal.slots, Owned h s key
  all : ∀ key, Owned h s key → ¬ Cut h key → key ∈ signal.slots

/-- Signals and the states of connections agree with what was written down. -/
structure Listed (h : List (Event ι)) (p : Panel ι) : Prop where
  size : p.board.connections.size = (made h).length
  states : ∀ key s, (made h)[key]? = some s → ∃ c, p.board.connection? key = some c ∧
    c.id.toNat = ((made h).take key).count s ∧ (c.connected = true ↔ ¬ Cut h key)
  signals : ∀ s, Lists h s (p.signals s)
  cut_lt : ∀ key, Cut h key → key < (made h).length
  forsaken_lt : ∀ key, .forsaken key ∈ h → key < (made h).length

/-- Guards and the counts of connections agree with what was written down. -/
structure Counted (h : List (Event ι)) (board : Switchboard) : Prop where
  guarded : board.Guarded (live h)
  size : board.guards.size = (taken h).length
  released_lt : ∀ guard, .touched (.release guard) ∈ h → guard < (taken h).length

/-- Signals and switchboard agree with what was written down. -/
structure Kept (h : List (Event ι)) (p : Panel ι) : Prop where
  listed : Listed h p
  counted : Counted h p.board

theorem kept_empty : Kept [] (empty : Panel ι) where
  listed :=
    { size := rfl
      states := fun key s hs => by cases hs
      signals := fun s =>
        { number := rfl
          increasing := List.Pairwise.nil
          own := fun key hkey => by cases hkey
          all := fun key hs => by cases hs.1 }
      cut_lt := fun key hcut => by
        rcases hcut with hmem | ⟨before, after, s, heq, -⟩
        · cases hmem
        · exact absurd heq.symm (by simp)
      forsaken_lt := fun key hmem => by cases hmem }
  counted :=
    { guarded := Switchboard.guarded_empty
      size := rfl
      released_lt := fun guard hmem => by cases hmem }

/-- What holds of all signals still does when it holds of the one that is exchanged. -/
theorem forall_signals_set {P : ι → Signal → Prop} {s : ι} {signal : Signal} {board : Switchboard}
    (hs : P s signal) (hothers : ∀ s' ≠ s, P s' (p.signals s')) (s' : ι) :
    P s' ((p.set s signal board).signals s') := by
  show P s' (Function.update p.signals s signal s')
  by_cases heq : s' = s
  · rw [heq, Function.update_self]
    exact hs
  · rw [Function.update_of_ne heq]
    exact hothers s' heq

/-- Connections that were not cut are connected. -/
theorem Listed.isConnected_iff (hl : Listed h p) {s : ι} (hs : (made h)[key]? = some s) :
    p.board.isConnected key = true ↔ ¬ Cut h key := by
  obtain ⟨c, hc, -, hconnected⟩ := hl.states key s hs
  rw [Switchboard.isConnected, hc, Option.any_some, hconnected]

/-- Connections are cut, and their signals list them for the time being. -/
theorem Listed.altered (hl : Listed h p) (hmade : made (h ++ [e]) = made h)
    (he : ∀ key, e ≠ .forsaken key) {board : Switchboard}
    {cut : ConnectionKey → Prop} (ha : p.board.Altered board cut)
    (hcut : ∀ key, Cut (h ++ [e]) key ↔ Cut h key ∨ cut key)
    (hlt : ∀ key, cut key → key < (made h).length) : Listed (h ++ [e]) { p with board } := by
  have howned : ∀ s key, Owned (h ++ [e]) s key ↔ Owned h s key := fun _ _ =>
    owned_append_singleton hmade he
  refine
    { size := by rw [hmade]; exact ha.size.trans hl.size
      states := fun key s hs => ?_
      signals := fun s =>
        { number := by rw [hmade]; exact (hl.signals s).number
          increasing := (hl.signals s).increasing
          own := fun key hkey => (howned s key).mpr ((hl.signals s).own key hkey)
          all := fun key hs hnot => ?_ }
      cut_lt := fun key hk => ?_
      forsaken_lt := fun key hmem => ?_ }
  · rw [hmade] at hs ⊢
    obtain ⟨c, hc, hid, hconnected⟩ := hl.states key s hs
    obtain ⟨c', hc', hid', hconnected'⟩ := ha.states key c hc
    refine ⟨c', hc', (congrArg UInt32.toNat hid').trans hid, ?_⟩
    rw [hconnected', hconnected, hcut, not_or]
  · rw [hcut, not_or] at hnot
    exact (hl.signals s).all key ((howned s key).mp hs) hnot.1
  · rw [hmade]
    exact ((hcut key).mp hk).elim (hl.cut_lt key) (hlt key)
  · rw [hmade]
    rcases List.mem_append.mp hmem with hmem | hmem
    · exact hl.forsaken_lt key hmem
    · exact absurd (List.mem_singleton.mp hmem).symm (he key)

/-- A signal may forget connections that were cut. -/
theorem Listed.forget (hl : Listed h p) (s : ι) {slots : List ConnectionKey}
    (hsub : slots.Sublist (p.signals s).slots)
    (hall : ∀ key ∈ (p.signals s).slots, ¬ Cut h key → key ∈ slots) :
    Listed h (p.set s { p.signals s with slots } p.board) := by
  have hs := hl.signals s
  refine { hl with signals := forall_signals_set ?_ fun s' _ => hl.signals s' }
  exact
    { number := hs.number
      increasing := hs.increasing.sublist hsub
      own := fun key hkey => hs.own key (hsub.subset hkey)
      all := fun key hkey hnot => hall key (hs.all key hkey hnot) hnot }

/-- A signal does not list a connection whose handler was not built. -/
theorem Listed.forsake (hl : Listed h p) (s : ι) {slots : List ConnectionKey}
    (hslots : (p.signals s).slots = slots ++ [key]) :
    Listed (h ++ [.forsaken key]) (p.set s { p.signals s with slots } p.board) := by
  have hmade : made (h ++ [.forsaken key]) = made h := (made_append _ _).trans (List.append_nil _)
  have hs := hl.signals s
  obtain ⟨hkey, -⟩ := hs.own key (by rw [hslots]; exact List.mem_append_right _ List.mem_cons_self)
  have hincreasing := hs.increasing
  rw [hslots] at hincreasing
  refine
    { size := by rw [hmade]; exact hl.size
      states := fun k s' hk => ?_
      signals := forall_signals_set ?_ fun s' hne => ?_
      cut_lt := fun k hk => by rw [hmade]; exact hl.cut_lt k (cut_append_forsaken.mp hk)
      forsaken_lt := fun k hk => ?_ }
  · rw [hmade] at hk ⊢
    rw [cut_append_forsaken]
    exact hl.states k s' hk
  · refine
      { number := by rw [hmade]; exact hs.number
        increasing := hincreasing.sublist (List.sublist_append_left _ _)
        own := fun k hk => ?_
        all := fun k hk hnot => ?_ }
    -- the forsaken connection is the youngest that the signal lists, so it is none of the others
    · have hlt := (List.pairwise_append.mp hincreasing).2.2 k hk key List.mem_cons_self
      exact owned_append_forsaken.mpr
        ⟨hs.own k (by rw [hslots]; exact List.mem_append_left _ hk), Nat.ne_of_lt hlt⟩
    · obtain ⟨hk, hne⟩ := owned_append_forsaken.mp hk
      rw [cut_append_forsaken] at hnot
      have hmem := hs.all k hk hnot
      rw [hslots] at hmem
      exact (List.mem_append.mp hmem).resolve_right fun hlast => hne (List.mem_singleton.mp hlast)
  · have hs' := hl.signals s'
    refine
      { number := by rw [hmade]; exact hs'.number
        increasing := hs'.increasing
        own := fun k hk => ?_
        all := fun k hk hnot => ?_ }
    -- a connection is made to one signal, and this one was made to another
    · refine owned_append_forsaken.mpr ⟨hs'.own k hk, ?_⟩
      rintro rfl
      exact hne (Option.some.inj ((hs'.own k hk).1.symm.trans hkey))
    · rw [cut_append_forsaken] at hnot
      exact hs'.all k (owned_append_forsaken.mp hk).1 hnot
  · rw [hmade]
    rcases List.mem_append.mp hk with hk | hk
    · exact hl.forsaken_lt k hk
    · rw [Event.forsaken.inj (List.mem_singleton.mp hk)]
      exact lt_length_of_made hkey

/-- A connection that is made is the last of its signal. -/
theorem Lists.made_self {s : ι} {signal : Signal} (hs : Lists h s signal)
    (hlt : ∀ key, .forsaken key ∈ h → key < (made h).length)
    (hroom : signal.nextId.toNat + 1 < UInt32.size) :
    Lists (h ++ [.made s]) s
      { slots := signal.slots ++ [(made h).length], nextId := signal.nextId + 1 } := by
  have hmade : made (h ++ [.made s]) = made h ++ [s] := made_append _ _
  refine
    { number := ?_
      increasing := ?_
      own := fun key hkey => ?_
      all := fun key hkey hnot => ?_ }
  · rw [hmade, List.count_append, List.count_singleton_self, ← hs.number]
    exact (UInt32.toNat_add signal.nextId 1).trans (Nat.mod_eq_of_lt hroom)
  · refine List.pairwise_append.mpr ⟨hs.increasing, List.pairwise_singleton _ _, ?_⟩
    intro k hk key hkey
    rw [List.mem_singleton.mp hkey]
    exact lt_length_of_made (hs.own k hk).1
  · rw [owned_append_made hlt]
    rcases List.mem_append.mp hkey with hold | hnew
    · exact .inl (hs.own key hold)
    · exact .inr ⟨List.mem_singleton.mp hnew, rfl⟩
  · rw [cut_append_made] at hnot
    rcases (owned_append_made hlt).mp hkey with hold | ⟨rfl, -⟩
    · exact List.mem_append_left _ (hs.all key hold hnot)
    · exact List.mem_append_right _ (List.mem_singleton_self _)

/-- A connection that is made is none of another signal. -/
theorem Lists.made_other {s s' : ι} {signal : Signal} (hs : Lists h s' signal)
    (hlt : ∀ key, .forsaken key ∈ h → key < (made h).length) (hne : s' ≠ s) :
    Lists (h ++ [.made s]) s' signal := by
  have hmade : made (h ++ [.made s]) = made h ++ [s] := made_append _ _
  refine
    { number := ?_
      increasing := hs.increasing
      own := fun key hkey => (owned_append_made hlt).mpr (.inl (hs.own key hkey))
      all := fun key hkey hnot => ?_ }
  · rw [hmade, List.count_append, List.count_singleton, if_neg (by simpa using Ne.symm hne)]
    exact hs.number
  · rw [cut_append_made] at hnot
    exact hs.all key (((owned_append_made hlt).mp hkey).resolve_right fun hc => hne hc.2.symm) hnot

/-- The books of the signals when a connection is made. -/
theorem Listed.connect (hl : Listed h p) (s : ι)
    (hroom : (p.signals s).nextId.toNat + 1 < UInt32.size) :
    Listed (h ++ [.made s]) (p.set s
      { slots := (p.signals s).slots ++ [p.board.connections.size]
        nextId := (p.signals s).nextId + 1 } (p.board.openConnection (p.signals s).nextId).2) := by
  have hmade : made (h ++ [.made s]) = made h ++ [s] := made_append _ _
  have hfresh : ¬ Cut h (made h).length := fun hc => Nat.lt_irrefl _ (hl.cut_lt _ hc)
  rw [hl.size]
  refine
    { size := ?_
      states := fun key s' hs => ?_
      signals := forall_signals_set ((hl.signals s).made_self hl.forsaken_lt hroom) fun s' hne =>
        (hl.signals s').made_other hl.forsaken_lt hne
      cut_lt := fun key hk => ?_
      forsaken_lt := fun key hmem => ?_ }
  · show (p.board.connections.push _).size = _
    rw [hmade, Array.size_push, hl.size, List.length_append]
    rfl
  · show ∃ c, (p.board.connections.push { id := (p.signals s).nextId })[key]? = some c ∧ _
    rw [cut_append_made, hmade]
    rcases getElem?_made_append.mp hs with hold | ⟨rfl, rfl⟩
    · have hlt := lt_length_of_made hold
      obtain ⟨c, hc, hid, hconnected⟩ := hl.states key s' hold
      refine ⟨c, ?_, ?_, hconnected⟩
      · rw [Array.getElem?_push, if_neg (by rw [hl.size]; exact Nat.ne_of_lt hlt)]
        exact hc
      · rw [hid, List.take_append_of_le_length (Nat.le_of_lt hlt)]
    · refine ⟨{ id := (p.signals s).nextId }, ?_, ?_, iff_of_true rfl hfresh⟩
      · rw [← hl.size, Array.getElem?_push_size]
      · rw [List.take_left]
        exact (hl.signals s).number
  · rw [hmade, List.length_append]
    exact Nat.lt_add_right 1 (hl.cut_lt key (cut_append_made.mp hk))
  · rw [hmade, List.length_append]
    exact Nat.lt_add_right 1 (hl.forsaken_lt key (by simpa using hmem))

/-- To make a connection or to cut some is nothing to the guards. -/
theorem Counted.unguarded (hc : Counted h board) (hblock : ∀ key, e ≠ .touched (.block key))
    (hrelease : ∀ guard, e ≠ .touched (.release guard))
    (hu : Switchboard.Unguarded board board') : Counted (h ++ [e]) board' := by
  obtain ⟨htaken, hlive⟩ := live_append_singleton hblock hrelease
  refine
    { guarded := ?_
      size := ?_
      released_lt := fun guard hmem => ?_ }
  · rw [hlive]
    exact hc.guarded.unguarded hu
  · rw [htaken, hu.guards]
    exact hc.size
  · rw [htaken]
    rcases List.mem_append.mp hmem with hmem | hmem
    · exact hc.released_lt guard hmem
    · exact absurd (List.mem_singleton.mp hmem).symm (hrelease guard)

theorem Counted.block (hc : Counted h board) (hkey : key < board.connections.size)
    (hok : (board.block key).1 = .ok board.guards.size) :
    Counted (h ++ [.touched (.block key)]) (board.block key).2 := by
  have htaken : taken (h ++ [.touched (.block key)]) = taken h ++ [key] := taken_append _ _
  have hnew : .touched (.release (taken h).length) ∉ h := fun hmem =>
    Nat.lt_irrefl _ (hc.released_lt _ hmem)
  refine
    { guarded := ?_
      size := ?_
      released_lt := fun guard hmem => ?_ }
  · rw [live_block key hnew, ← hc.size]
    exact hc.guarded.block hkey hok
  · rw [Switchboard.size_guards_block hkey hok, htaken, hc.size, List.length_append]
    rfl
  · rw [htaken, List.length_append]
    rcases List.mem_append.mp hmem with hmem | hmem
    · exact Nat.lt_add_right 1 (hc.released_lt guard hmem)
    · exact absurd (List.mem_singleton.mp hmem) (by simp)

/-- That a handler was not built is nothing to the guards. -/
theorem Counted.forsake (hc : Counted h board) : Counted (h ++ [.forsaken key]) board :=
  hc.unguarded (by simp) (by simp) (.refl board)

theorem Counted.release (hc : Counted h board) {guard : GuardKey} (hlt : guard < (taken h).length) :
    Counted (h ++ [.touched (.release guard)]) (board.release guard).2 := by
  have htaken : taken (h ++ [.touched (.release guard)]) = taken h :=
    (taken_append _ _).trans (List.append_nil _)
  refine
    { guarded := ?_
      size := ?_
      released_lt := fun g hmem => ?_ }
  · rw [live_release]
    exact hc.guarded.release guard
  · rw [htaken, ← hc.size, Switchboard.release]
    split
    · rfl
    · exact Array.size_setIfInBounds
  · rw [htaken]
    rcases List.mem_append.mp hmem with hmem | hmem
    · exact hc.released_lt g hmem
    · have heq := List.mem_singleton.mp hmem
      rw [Event.touched.injEq, Touch.release.injEq] at heq
      rw [heq]
      exact hlt

/-! ## Every act keeps it so -/

/-- An act on a connection is abandoned where its count of guards is full, and changes its state
and nothing else where not. -/
theorem touch_cases (hk : Kept h p) (t : Touch) :
    (p.board.touch t = (.ok (), (p.board.touch t).2) ∧ ¬ Full h t ∧
        (Fits h (.touched t) →
          Kept (h ++ [.touched t]) { p with board := (p.board.touch t).2 })) ∨
      (p.board.touch t = (.error .countOverflow, p.board) ∧ Full h t) := by
  have hmade : made (h ++ [.touched t]) = made h := (made_append _ _).trans (List.append_nil _)
  have hnone : ∀ {t : Touch} (_ : ∀ key, t ≠ .disconnect key) (key : ConnectionKey),
      Cut (h ++ [.touched t]) key ↔ Cut h key ∨ False := by
    intro t hne key
    rw [cut_append_singleton]
    simp [hne]
  cases t with
  | disconnect key =>
    have hcut : ∀ k, Cut (h ++ [.touched (.disconnect key)]) k ↔ Cut h k ∨ k = key := by
      intro k
      rw [cut_append_singleton]
      simp [eq_comm]
    exact .inl ⟨rfl, id, fun hfits =>
      { listed := hk.listed.altered hmade (by simp) (Switchboard.altered_disconnect p.board key) hcut
          fun k heq => heq ▸ hfits
        counted := hk.counted.unguarded (by simp) (by simp)
          (Switchboard.unguarded_disconnect p.board key) }⟩
  | block key =>
    have hblocks := hk.counted.guarded.blocks key
    rcases p.board.block_cases_blocks key with ⟨hroom, hok⟩ | ⟨hfull, herror⟩
    · have htouch : p.board.touch (.block key) = (.ok (), (p.board.block key).2) := by
        simp only [Switchboard.touch, hok]
        rfl
      refine .inl ⟨by rw [htouch], fun hfull => ?_, fun hfits => ?_⟩
      · have hcount : (live h).countP (·.2 == key) = 2 ^ 32 - 1 := hfull
        rw [hblocks, hcount] at hroom
        exact Nat.lt_irrefl _ hroom
      · rw [htouch]
        exact
          { listed := hk.listed.altered hmade (by simp) (Switchboard.altered_block p.board key)
              (hnone (by simp)) fun k hc => hc.elim
            counted := hk.counted.block (hk.listed.size ▸ hfits) hok }
    · refine .inr ⟨?_, ?_⟩
      · simp only [Switchboard.touch, herror]
        rfl
      · show (live h).countP (·.2 == key) = 2 ^ 32 - 1
        rw [← hblocks]
        exact hfull
  | release guard =>
    -- the guards that are held are counted, so no count is zero where one is given back
    rw [Switchboard.touch_release hk.counted.guarded guard]
    exact .inl ⟨rfl, id, fun hfits =>
      { listed := hk.listed.altered hmade (by simp) (Switchboard.altered_release p.board guard)
          (hnone (by simp)) fun k hc => hc.elim
        counted := hk.counted.release hfits }⟩

/-- Acts on connections go on until one of them finds a count full. -/
theorem kept_touchAll (hk : Kept h p) {touches : List Touch}
    (hp : Proper (h ++ (p.board.done touches).map .touched)) :
    Kept (h ++ (p.board.done touches).map .touched)
        { p with board := (p.board.touchAll touches).2 } ∧
      ((p.board.touchAll touches).1 = .ok () ∧ p.board.done touches = touches ∧
          ¬ Overfull h touches ∨
        (p.board.touchAll touches).1 = .error .countOverflow ∧ Overfull h touches) := by
  induction touches generalizing h p with
  | nil =>
    rw [Switchboard.done, List.map_nil, List.append_nil]
    exact ⟨hk, .inl ⟨rfl, rfl, id⟩⟩
  | cons t touches ih =>
    rcases touch_cases hk t with ⟨hok, hnot, hkept⟩ | ⟨herror, hfull⟩
    · have hdone := Switchboard.done_cons_of_ok hok touches
      rw [hdone, List.map_cons, List.append_cons] at hp ⊢
      rw [Switchboard.touchAll_cons_of_ok hok]
      obtain ⟨hk', hanswer⟩ := ih (hkept hp.of_append.fits_last) hp
      refine ⟨hk', hanswer.imp (fun h => ⟨h.1, ?_, ?_⟩) fun h => ⟨h.1, .inr h.2⟩⟩
      · exact congrArg (t :: ·) h.2.1
      · rintro (hfull | hfull)
        · exact hnot hfull
        · exact h.2.2 hfull
    · rw [Switchboard.done_cons_of_error herror, List.map_nil, List.append_nil,
        Switchboard.touchAll_cons_of_error herror]
      exact ⟨hk, .inr ⟨rfl, .inl hfull⟩⟩

/-- A signal forgets those of its connections that were cut. -/
theorem kept_prune (hk : Kept h p) (s : ι) :
    Kept h (p.set s ((p.signals s).prune p.board) p.board) := by
  refine
    { listed := hk.listed.forget s List.filter_sublist fun key hkey hnot => ?_
      counted := hk.counted }
  obtain ⟨hs, -⟩ := (hk.listed.signals s).own key hkey
  exact List.mem_filter.mpr ⟨hkey, (hk.listed.isConnected_iff hs).mpr hnot⟩

theorem set_set (p : Panel ι) (s : ι) (signal signal' : Signal) (board board' : Switchboard) :
    (p.set s signal board).set s signal' board' = p.set s signal' board' := by
  rw [set, set, set, Function.update_idem]

/-- The panel while the handler of a connection is built, as if the signal listed it already. -/
def opened (p : Panel ι) (s : ι) : Panel ι :=
  p.set s
    { slots := ((p.signals s).prune p.board).slots ++ [p.board.connections.size]
      nextId := (p.signals s).nextId + 1 }
    (p.board.openConnection (p.signals s).nextId).2

theorem signals_opened (p : Panel ι) (s : ι) :
    (p.opened s).signals s =
      { slots := ((p.signals s).prune p.board).slots ++ [p.board.connections.size]
        nextId := (p.signals s).nextId + 1 } :=
  Function.update_self ..

theorem kept_opened (hk : Kept h p) (s : ι)
    (hroom : (p.signals s).nextId.toNat + 1 < UInt32.size) :
    Kept (h ++ [.made s]) (p.opened s) := by
  have hself : (p.set s ((p.signals s).prune p.board) p.board).signals s =
      (p.signals s).prune p.board := Function.update_self ..
  have hlisted := (kept_prune hk s).listed.connect s (by rw [hself]; exact hroom)
  rw [hself, set_set] at hlisted
  exact
    { listed := hlisted
      counted := hk.counted.unguarded (by simp) (by simp) (Switchboard.unguarded_push rfl rfl) }

/-- A signal that has no number for one more connection is left as it was, less those that were
cut. -/
theorem act_connect_of_full {s : ι} (build : List Touch)
    (hfull : ¬ (p.signals s).nextId.toNat + 1 < UInt32.size) :
    p.act (.connect s build) =
        (.error .countOverflow, p.set s ((p.signals s).prune p.board) p.board) ∧
      p.record (.connect s build) = [] := by
  have hpruned : ¬ ((p.signals s).prune p.board).nextId.toNat + 1 < UInt32.size := hfull
  constructor
  · simp only [act, Signal.connectCyclic, if_neg hpruned]
    rfl
  · simp only [record, if_neg hfull]

/-- A connection is listed when its handler is built. -/
theorem act_connect_ok {s : ι} {build : List Touch}
    (hroom : (p.signals s).nextId.toNat + 1 < UInt32.size)
    (hbuild : (p.opened s).board.touchAll build = (.ok (), board)) :
    p.act (.connect s build) = (.ok (), { p.opened s with board }) ∧
      p.record (.connect s build) =
        [.made s] ++ ((p.opened s).board.done build).map .touched := by
  have hpruned : ((p.signals s).prune p.board).nextId.toNat + 1 < UInt32.size := hroom
  have hbuild' : (p.board.openConnection (p.signals s).nextId).2.touchAll build = (.ok (), board) :=
    hbuild
  have hpruned' : (p.board.openConnection ((p.signals s).prune p.board).nextId).2.touchAll build =
      (.ok (), board) := hbuild
  constructor
  · simp only [act, Signal.connectCyclic, if_pos hpruned, hpruned']
    rfl
  · simp only [record, if_pos hroom, hbuild']
    exact List.append_nil _

/-- A connection whose handler is not built has used up a number. -/
theorem act_connect_error {s : ι} {build : List Touch} {cause : Abort}
    (hroom : (p.signals s).nextId.toNat + 1 < UInt32.size)
    (hbuild : (p.opened s).board.touchAll build = (.error cause, board)) :
    p.act (.connect s build) =
        (.error cause, p.set s
          { slots := ((p.signals s).prune p.board).slots, nextId := (p.signals s).nextId + 1 }
          board) ∧
      p.record (.connect s build) =
        [.made s] ++ ((p.opened s).board.done build).map .touched ++
          [.forsaken p.board.connections.size] := by
  have hpruned : ((p.signals s).prune p.board).nextId.toNat + 1 < UInt32.size := hroom
  have hbuild' : (p.board.openConnection (p.signals s).nextId).2.touchAll build =
      (.error cause, board) := hbuild
  have hpruned' : (p.board.openConnection ((p.signals s).prune p.board).nextId).2.touchAll build =
      (.error cause, board) := hbuild
  constructor
  · simp only [act, Signal.connectCyclic, if_pos hpruned, hpruned']
    rfl
  · simp only [record, if_pos hroom, hbuild']
    rfl

omit [DecidableEq ι] in
theorem record_touch_of_ok {t : Touch} (hok : p.board.touch t = (.ok (), board)) :
    p.record (.touch t) = [.touched t] := by
  rw [record, Switchboard.done_cons_of_ok hok]
  rfl

/-- Of a signal whose connections are all cut nothing is left in the list. -/
theorem kept_clear (hk : Kept h p) (s : ι) :
    Kept (h ++ [.cleared s]) (p.set s ((p.signals s).disconnectAll p.board).1
      ((p.signals s).disconnectAll p.board).2) := by
  have hmade : made (h ++ [.cleared s]) = made h := (made_append _ _).trans (List.append_nil _)
  have hs := hk.listed.signals s
  -- those that the signal has forgotten were cut before
  have hcut : ∀ key, Cut (h ++ [.cleared s]) key ↔ Cut h key ∨ key ∈ (p.signals s).slots := by
    intro key
    have hevent : Cut (h ++ [.cleared s]) key ↔ Cut h key ∨ Owned h s key := by
      rw [cut_append_singleton]
      simp
    rw [hevent]
    constructor
    · rintro (hc | hown)
      · exact .inl hc
      · by_cases hc : Cut h key
        · exact .inl hc
        · exact .inr (hs.all key hown hc)
    · rintro (hc | hmem)
      · exact .inl hc
      · exact .inr (hs.own key hmem)
  have hlisted := hk.listed.altered hmade (by simp)
    (Switchboard.altered_foldl_disconnect (p.signals s).slots p.board) hcut
    fun key hmem => lt_length_of_made (hs.own key hmem).1
  exact
    { listed := hlisted.forget s (List.nil_sublist _) fun key hmem hnot =>
        absurd ((hcut key).mpr (.inr hmem)) hnot
      counted := hk.counted.unguarded (by simp) (by simp)
        (Switchboard.unguarded_foldl_disconnect _ _) }

/-- Connections are numbered by how many were made to their signal, and each made one has a number. -/
theorem room_iff (hk : Kept h p) (s : ι) :
    (p.signals s).nextId.toNat + 1 < UInt32.size ↔ (made h).count s ≠ 2 ^ 32 - 1 := by
  have hword : (p.signals s).nextId.toNat < 2 ^ 32 := (p.signals s).nextId.toNat_lt
  rw [(hk.listed.signals s).number] at hword ⊢
  rw [UInt32.size]
  omega

/-- What becomes of an act: it is done, or a count has no room for it. -/
def Ends (h : List (Event ι)) (p : Panel ι) (a : Act ι) : Prop :=
  ((p.act a).1 = .ok () ∧ p.record a = a.events ∧ ¬ Overflows h a) ∨
    ((p.act a).1 = .error .countOverflow ∧ Overflows h a)

theorem kept_act_connect (hk : Kept h p) {s : ι} {build : List Touch}
    (hp : Proper (h ++ p.record (.connect s build))) :
    Kept (h ++ p.record (.connect s build)) (p.act (.connect s build)).2 ∧
      Ends h p (.connect s build) := by
  by_cases hroom : (p.signals s).nextId.toNat + 1 < UInt32.size
  · have hnumber := (room_iff hk s).mp hroom
    have hopened := kept_opened hk s hroom
    cases hanswer : (p.opened s).board.touchAll build with
    | mk answer board =>
      cases answer with
      | ok _ =>
        obtain ⟨hact, hrecord⟩ := act_connect_ok hroom hanswer
        rw [hrecord, ← List.append_assoc] at hp ⊢
        obtain ⟨hkept, hends⟩ := kept_touchAll hopened hp
        rw [hanswer] at hkept hends
        obtain ⟨-, hdone, hnot⟩ := hends.resolve_right fun hc => by cases hc.1
        rw [hact]
        refine ⟨hkept, .inl ⟨by rw [hact], ?_, ?_⟩⟩
        · rw [hrecord, hdone]
          rfl
        · rintro (hfull | hfull)
          · exact hnumber hfull
          · exact hnot hfull
      | error cause =>
        obtain ⟨hact, hrecord⟩ := act_connect_error hroom hanswer
        rw [hrecord, ← List.append_assoc, ← List.append_assoc] at hp ⊢
        obtain ⟨hkept, hends⟩ := kept_touchAll hopened hp.of_append
        rw [hanswer] at hkept hends
        obtain ⟨hcause, hfull⟩ := hends.resolve_left fun hc => by cases hc.1
        -- what the builder did stays, and the signal forgets the connection that it was to list
        have hforsaken := hkept.listed.forsake s (congrArg Signal.slots (p.signals_opened s))
        have hset : ∀ signal, Panel.set { p.opened s with board } s signal board =
            p.set s signal board := fun signal => p.set_set s _ signal board board
        rw [p.signals_opened s, hset] at hforsaken
        rw [hact]
        refine ⟨{ listed := hforsaken, counted := hkept.counted.forsake }, .inr ⟨?_, .inr hfull⟩⟩
        rw [hact]
        exact hcause
  · obtain ⟨hact, hrecord⟩ := act_connect_of_full build hroom
    rw [hrecord, List.append_nil, hact]
    refine ⟨kept_prune hk s, .inr ⟨by rw [hact], .inl ?_⟩⟩
    by_contra hnumber
    exact hroom ((room_iff hk s).mpr hnumber)

theorem kept_act (hk : Kept h p) {a : Act ι} (hp : Proper (h ++ p.record a)) :
    Kept (h ++ p.record a) (p.act a).2 ∧ Ends h p a := by
  cases a with
  | connect s build => exact kept_act_connect hk hp
  | touch t =>
    rcases touch_cases hk t with ⟨hok, hnot, hkept⟩ | ⟨herror, hfull⟩
    · have hrecord := record_touch_of_ok hok
      rw [hrecord] at hp ⊢
      refine ⟨hkept hp.fits_last, .inl ⟨?_, hrecord, hnot⟩⟩
      simp only [act]
      rw [hok]
    · have hrecord : p.record (.touch t) = [] := by
        rw [record, Switchboard.done_cons_of_error herror]
        rfl
      have hact : p.act (.touch t) = (.error .countOverflow, p) := by
        simp only [act, herror]
      rw [hrecord, List.append_nil, hact]
      exact ⟨hk, .inr ⟨by rw [hact], hfull⟩⟩
  | disconnectAll s => exact ⟨kept_clear hk s, .inl ⟨rfl, rfl, id⟩⟩
  | snapshot s =>
    have hrecord : p.record (.snapshot s) = [] := rfl
    rw [hrecord, List.append_nil]
    exact ⟨kept_prune hk s, .inl ⟨rfl, rfl, id⟩⟩

theorem kept_actAll (hk : Kept h p) {acts : List (Act ι)} (hp : Proper (h ++ p.recordAll acts)) :
    Kept (h ++ p.recordAll acts) (p.actAll acts) := by
  induction acts generalizing h p with
  | nil =>
    rw [recordAll, List.append_nil]
    exact hk
  | cons a acts ih =>
    rw [recordAll, ← List.append_assoc] at hp ⊢
    exact ih (kept_act hk hp.of_append).1 hp

/-! ## What is left alone -/

omit [DecidableEq ι] in
/-- What an event is about does not change by what is written down later. -/
theorem Concerns.append (hc : Concerns h key e) (h' : List (Event ι)) :
    Concerns (h ++ h') key e := by
  have hleft : ∀ {β : Type} {l : List β} {n : Nat} {x : β} (l' : List β),
      l[n]? = some x → (l ++ l')[n]? = some x := by
    intro β l n x l' hget
    rw [List.getElem?_append_left (List.getElem?_eq_some_iff.mp hget).1]
    exact hget
  cases e with
  | made s => exact hc
  | forsaken k => exact hc
  | touched t =>
    cases t with
    | disconnect k => exact hc
    | block k => exact hc
    | release guard =>
      show (taken (h ++ h'))[guard]? = some key
      rw [taken_append]
      exact hleft _ hc
  | cleared s =>
    show (made (h ++ h'))[key]? = some s
    rw [made_append]
    exact hleft _ hc

theorem connection?_touch (hk : Kept h p) {t : Touch} (hnot : ¬ Concerns h key (.touched t)) :
    (p.board.touch t).2.connection? key = p.board.connection? key := by
  cases t with
  | disconnect k => exact Switchboard.connection?_modify_other _ _ (Ne.symm hnot)
  | block k => exact Switchboard.connection?_block_other p.board (Ne.symm hnot)
  | release guard =>
    rw [Switchboard.touch_release hk.counted.guarded guard]
    show (p.board.release guard).2.connection? key = _
    unfold Switchboard.release
    split
    · rfl
    · rename_i k hheld
      have hne : key ≠ k := by
        rintro rfl
        exact hnot (mem_live.mp ((hk.counted.guarded.held guard key).mp hheld)).1
      exact Switchboard.connection?_modify_other p.board
        (fun c => { c with blocks := c.blocks - 1 }) hne

theorem connection?_touchAll (hk : Kept h p) {touches : List Touch}
    (hp : Proper (h ++ (p.board.done touches).map .touched))
    (hnot : ∀ t ∈ p.board.done touches,
      ¬ Concerns (h ++ (p.board.done touches).map .touched) key (.touched t)) :
    (p.board.touchAll touches).2.connection? key = p.board.connection? key := by
  induction touches generalizing h p with
  | nil => rfl
  | cons t touches ih =>
    rcases touch_cases hk t with ⟨hok, -, hkept⟩ | ⟨herror, -⟩
    · rw [Switchboard.done_cons_of_ok hok] at hp hnot
      rw [List.map_cons, List.append_cons] at hp hnot
      have hfirst : ¬ Concerns h key (.touched t) := fun hc =>
        hnot t List.mem_cons_self ((hc.append _).append _)
      rw [Switchboard.touchAll_cons_of_ok hok]
      exact (ih (hkept hp.of_append.fits_last) hp fun t' ht' =>
        hnot t' (List.mem_cons_of_mem t ht')).trans (connection?_touch hk hfirst)
    · rw [Switchboard.touchAll_cons_of_error herror]

/-- While the handler of a connection is built, whatever the builder does not touch stays. -/
theorem connection?_opened (hk : Kept h p) {s : ι} {build : List Touch}
    (hroom : (p.signals s).nextId.toNat + 1 < UInt32.size) (hkey : key < p.board.connections.size)
    (hp : Proper ((h ++ [.made s]) ++ ((p.opened s).board.done build).map .touched))
    (hnot : ∀ t ∈ (p.opened s).board.done build,
      ¬ Concerns ((h ++ [.made s]) ++ ((p.opened s).board.done build).map .touched) key
        (.touched t)) :
    ((p.opened s).board.touchAll build).2.connection? key = p.board.connection? key := by
  refine (connection?_touchAll (kept_opened hk s hroom) hp hnot).trans ?_
  show (p.board.connections.push _)[key]? = _
  rw [Array.getElem?_push, if_neg (Nat.ne_of_lt hkey)]
  rfl

/-- An act leaves every signal alone but its own. -/
theorem signals_act_other (p : Panel ι) {a : Act ι} {s : ι} (hne : a.signal? ≠ some s) :
    (p.act a).2.signals s = p.signals s := by
  have hother : ∀ {s' : ι} {signal : Signal}, some s' ≠ some s →
      Function.update p.signals s' signal s = p.signals s := fun hne =>
    Function.update_of_ne (fun heq => hne (congrArg some heq.symm)) _ _
  cases a with
  | connect s' build => exact hother hne
  | touch t => rfl
  | disconnectAll s' => exact hother hne
  | snapshot s' => exact hother hne

theorem connection?_act_connect (hk : Kept h p) {s : ι} {build : List Touch}
    (hp : Proper (h ++ p.record (.connect s build))) (hkey : key < p.board.connections.size)
    (hnot : ∀ e ∈ p.record (.connect s build),
      ¬ Concerns (h ++ p.record (.connect s build)) key e) :
    (p.act (.connect s build)).2.board.connection? key = p.board.connection? key := by
  by_cases hroom : (p.signals s).nextId.toNat + 1 < UInt32.size
  · cases hanswer : (p.opened s).board.touchAll build with
    | mk answer board =>
      have hboard : ((p.opened s).board.touchAll build).2 = board := by rw [hanswer]
      cases answer with
      | ok _ =>
        obtain ⟨hact, hrecord⟩ := act_connect_ok hroom hanswer
        rw [hrecord, ← List.append_assoc] at hp hnot
        rw [hact, ← connection?_opened hk hroom hkey hp fun t ht =>
          hnot (.touched t) (List.mem_append_right _ (List.mem_map_of_mem ht)), hboard]
      | error cause =>
        obtain ⟨hact, hrecord⟩ := act_connect_error hroom hanswer
        rw [hrecord, ← List.append_assoc, ← List.append_assoc] at hp hnot
        -- that the connection was forsaken in the end is nothing to what was touched before
        rw [hact, ← connection?_opened hk hroom hkey hp.of_append fun t ht hc =>
          hnot (.touched t) (List.mem_append_left _
            (List.mem_append_right _ (List.mem_map_of_mem ht))) (hc.append _), hboard]
        rfl
  · rw [(act_connect_of_full _ hroom).1]
    rfl

/-- An act changes connections that it is about, and no others. -/
theorem connection?_act (hk : Kept h p) {a : Act ι} (hp : Proper (h ++ p.record a))
    (hkey : key < p.board.connections.size)
    (hnot : ∀ e ∈ p.record a, ¬ Concerns (h ++ p.record a) key e) :
    (p.act a).2.board.connection? key = p.board.connection? key := by
  cases a with
  | connect s build => exact connection?_act_connect hk hp hkey hnot
  | touch t =>
    show (p.board.touch t).2.connection? key = _
    rcases touch_cases hk t with ⟨hok, -, -⟩ | ⟨herror, -⟩
    · have hrecord := record_touch_of_ok hok
      exact connection?_touch hk fun hc =>
        hnot (.touched t) (by rw [hrecord]; exact List.mem_cons_self) (hc.append _)
    · rw [herror]
  | disconnectAll s =>
    refine Switchboard.connection?_foldl_disconnect (fun hmem => ?_) _
    have hc : Concerns h key (.cleared s) := ((hk.listed.signals s).own key hmem).1
    exact hnot (.cleared s) (List.mem_singleton_self _) (hc.append _)
  | snapshot s => rfl

/-! ## What signals and connections say -/

/-- What signals and connections say, in terms of what was written down. -/
structure Tells (h : List (Event ι)) (p : Panel ι) : Prop where
  size : p.board.connections.size = (made h).length
  /-- A connection has the number of those made to its signal before, is connected unless it was
  cut, and counts the guards on it that were not given back. -/
  connection : ∀ key s, (made h)[key]? = some s → ∃ c, p.board.connection? key = some c ∧
    c.id.toNat = ((made h).take key).count s ∧ (c.connected = true ↔ ¬ Cut h key) ∧
    c.blocks.toNat = (live h).countP (·.2 == key) ∧
    (c.isBlocked = true ↔
      ∃ guard, (taken h)[guard]? = some key ∧ .touched (.release guard) ∉ h)
  number : ∀ s, (p.signals s).nextId.toNat = (made h).count s
  /-- Those that are listed for a dispatch are those that were not cut, in order, -/
  listed : ∀ s, Standing h s ((p.signals s).snapshot p.board).1
  /-- and they are counted. -/
  counted : ∀ s, (p.signals s).handlerCount p.board = ((p.signals s).snapshot p.board).1.length

theorem Kept.tells (hk : Kept h p) : Tells h p := by
  refine
    { size := hk.listed.size
      connection := fun key s hs => ?_
      number := fun s => (hk.listed.signals s).number
      listed := fun s =>
        { increasing := (hk.listed.signals s).increasing.sublist List.filter_sublist
          mem_iff := fun key => ?_ }
      counted := fun s => List.countP_eq_length_filter }
  · obtain ⟨c, hc, hid, hconnected⟩ := hk.listed.states key s hs
    have hblocks := hk.counted.guarded.blocks key
    rw [Switchboard.blocks_eq hc] at hblocks
    refine ⟨c, hc, hid, hconnected, hblocks, ?_⟩
    have hpos : (0 < c.blocks) ↔ 0 < c.blocks.toNat := UInt32.lt_iff_toNat_lt
    rw [Connection.isBlocked, decide_eq_true_iff, hpos, hblocks, List.countP_pos_iff]
    constructor
    · rintro ⟨⟨guard, k⟩, hmem, hkey⟩
      obtain rfl : k = key := eq_of_beq hkey
      exact ⟨guard, mem_live.mp hmem⟩
    · rintro ⟨guard, hguard⟩
      exact ⟨(guard, key), mem_live.mpr hguard, beq_self_eq_true key⟩
  · have hs := hk.listed.signals s
    rw [Signal.snapshot_eq_filter, List.mem_filter]
    constructor
    · rintro ⟨hmem, hconnected⟩
      have hown := hs.own key hmem
      exact ⟨hown, (hk.listed.isConnected_iff hown.1).mp hconnected⟩
    · rintro ⟨hown, hnot⟩
      exact ⟨hs.all key hown hnot, (hk.listed.isConnected_iff hown.1).mpr hnot⟩

/-- **Signals keep their books.** Whatever is done to several signals, as long as only connections
and guards are named that are there, no count is ever counted down from zero. An act is abandoned
exactly if it would make more connections to a signal, or take more guards on a connection, than a
word can count, and what was done before that is all that there is to it. Each signal numbers its
connections from zero on and uses no number twice; it counts and lists those that were cut neither
for themselves nor with all others, in order. A connection is held back exactly while some guard on
it was not given back, whether it was cut meanwhile or not. Who was cut is never connected again, and
nothing that is done changes another signal, or a connection that it is not about. -/
theorem signals_keep_their_books (acts : List (Act ι))
    (hproper : Proper ((empty : Panel ι).recordAll acts)) :
    let h := (empty : Panel ι).recordAll acts
    let p := (empty : Panel ι).actAll acts
    Tells h p ∧
      (∀ more, Proper ((empty : Panel ι).recordAll (acts ++ more)) →
        ∀ key < p.board.connections.size,
          p.board.isConnected key = false → (p.actAll more).board.isConnected key = false) ∧
      ∀ a, Proper (h ++ p.record a) → Ends h p a ∧
        (∀ s, a.signal? ≠ some s → (p.act a).2.signals s = p.signals s) ∧
        ∀ key < p.board.connections.size,
          (∀ e ∈ p.record a, ¬ Concerns (h ++ p.record a) key e) →
          (p.act a).2.board.connection? key = p.board.connection? key := by
  intro h p
  have hk : Kept h p := kept_actAll (h := []) kept_empty hproper
  refine ⟨hk.tells, fun more hmore key hkey hcut => ?_, fun a ha => ?_⟩
  · rw [recordAll_append] at hmore
    have hk' := kept_actAll hk hmore
    rw [hk.listed.size] at hkey
    obtain ⟨s, hs⟩ : ∃ s, (made h)[key]? = some s := ⟨_, List.getElem?_eq_getElem hkey⟩
    have hs' : (made (h ++ p.recordAll more))[key]? = some s := by
      rw [made_append, List.getElem?_append_left hkey, hs]
    rw [Bool.eq_false_iff, ne_eq, hk.listed.isConnected_iff hs, not_not] at hcut
    rw [Bool.eq_false_iff, ne_eq, hk'.listed.isConnected_iff hs', not_not]
    exact hcut.append _
  · exact ⟨(kept_act hk ha).2, fun s hne => p.signals_act_other hne, fun key hkey hnot =>
      connection?_act hk ha hkey hnot⟩

/-- A connection is held back and let go while its handler is built, another is cut then. A third is
cut with its whole signal while a guard is on it, which is given back later. -/
theorem signals_keep_their_books_late_guard :
    let acts : List (Act Bool) :=
      [.connect true [.block 0, .release 0], .connect false [], .connect true [.disconnect 2],
        .touch (.block 1), .disconnectAll false, .snapshot true, .connect false [],
        .touch (.release 1)]
    let p := (empty : Panel Bool).actAll acts
    Proper ((empty : Panel Bool).recordAll acts) ∧
      (p.signals true).handlerCount p.board = 1 ∧ (p.signals false).handlerCount p.board = 1 ∧
      (∃ c, p.board.connection? 1 = some c ∧ c.connected = false ∧ c.blocks.toNat = 0) ∧
      ∃ c, p.board.connection? 3 = some c ∧ c.id.toNat = 1 ∧ c.connected = true := by
  intro acts p
  have hrecord : (empty : Panel Bool).recordAll acts = acts.flatMap Act.events := by decide +kernel
  have hproper : Proper (acts.flatMap Act.events) := by decide
  obtain ⟨htells, -⟩ := signals_keep_their_books acts (hrecord ▸ hproper)
  rw [hrecord] at htells ⊢
  obtain ⟨c, hc, -, hconnected, hblocks, -⟩ := htells.connection 1 false (by decide)
  obtain ⟨c', hc', hid', hconnected', -⟩ := htells.connection 3 false (by decide)
  refine ⟨hproper, by decide +kernel, by decide +kernel, ⟨c, hc, ?_, ?_⟩, c', hc', ?_, ?_⟩
  · rw [Bool.eq_false_iff, ne_eq, hconnected, not_not]
    exact .inr ⟨[.made true, .touched (.block 0), .touched (.release 0), .made false, .made true,
      .touched (.disconnect 2), .touched (.block 1)], [.made false, .touched (.release 1)], false,
      rfl, by decide, by decide⟩
  · rw [hblocks]
    decide
  · rw [hid']
    decide
  · have hthird : p.board.isConnected 3 = true := by decide +kernel
    rwa [Switchboard.isConnected, hc'] at hthird

/-- As long as there are numbers, each connection that is made takes the next one. -/
theorem nextId_actAll_replicate (s : ι) {n : Nat} (hn : n < 2 ^ 32) :
    (((empty : Panel ι).actAll (List.replicate n (.connect s []))).signals s).nextId.toNat = n := by
  induction n with
  | zero => rfl
  | succ n ih =>
    have hlast : ∀ p : Panel ι, p.actAll (List.replicate (n + 1) (.connect s [])) =
        ((p.actAll (List.replicate n (.connect s []))).act (.connect s [])).2 := by
      intro p
      rw [List.replicate_succ', actAll, List.foldl_append]
      rfl
    have hnow := ih (Nat.lt_of_succ_lt hn)
    rw [hlast]
    generalize (empty : Panel ι).actAll (List.replicate n (.connect s [])) = p at hnow ⊢
    have hroom : (p.signals s).nextId.toNat + 1 < UInt32.size := hnow.symm ▸ hn
    rw [(act_connect_ok hroom rfl).1]
    show ((p.opened s).signals s).nextId.toNat = n + 1
    rw [signals_opened]
    exact (UInt32.toNat_add _ 1).trans ((Nat.mod_eq_of_lt hroom).trans (congrArg (· + 1) hnow))

/-- A signal has no number for the connection that is made after as many as a word can count. -/
theorem numbers_run_out :
    ((((empty : Panel Unit).actAll (List.replicate (2 ^ 32 - 1) (.connect () []))).act
      (.connect () [])).1 = .error .countOverflow) := by
  have hnext := nextId_actAll_replicate (ι := Unit) () (n := 2 ^ 32 - 1) (by decide)
  rw [(act_connect_of_full _ ?_).1]
  rw [hnext]
  decide

end Panel

end EntityScene
