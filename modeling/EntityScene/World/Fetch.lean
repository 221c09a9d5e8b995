import EntityScene.World

/-!
# Several components at once

A fetch looks up several kinds of components of one entity. Shared fetches only
read. Exclusive ones hand out every component to be changed, so no kind may be
listed twice, and they take all listed kinds into use first, whatever becomes of
the call.

- `Component`: a kind and a value of it.
- `World.fetch`: the shared form, kind by kind through `World.get?`.
- `World.fetchEdit`: the exclusive form, through the pools with the numbers that
  the registrations answered.
-/

namespace EntityScene

/-- A component: its kind and its value. -/
structure Component (K : Type) [ComponentFamily K] where
  kind : K
  value : Value kind

namespace World

variable {K : Type} [ComponentFamily K] [DecidableEq K]

/-- The components of the listed kinds that an entity has, in the order listed. -/
def fetch (w : World K) (e : Entity) (kinds : List K) : List (Option (Component K)) :=
  kinds.map fun kind => (w.get? kind e).map (Component.mk kind)

/-- The component of an entity in a given pool, read as the given kind. -/
def pooled? (w : World K) (kind : K) (id : ComponentId) (e : Entity) : Option (Component K) := do
  let pool ← w.pools[id]?
  let set ← pool.storage.asKind? kind
  (set.get? e).map (Component.mk kind)

/-- Change the component of an entity in a given pool, read as the given kind. -/
def editPooled (w : World K) (kind : K) (id : ComponentId) (e : Entity)
    (f : Value kind → Value kind) : World K :=
  w.updatePool id (·.update kind (·.modify e f))

/-- Change the components of the listed kinds that an entity has, and answer
them. All listed kinds are taken into use, in the order listed; a kind listed
twice abandons the call after that. -/
def fetchEdit (w : World K) (e : Entity) (kinds : List K)
    (f : (kind : K) → Value kind → Value kind) :
    Except Abort (List (Option (Component K))) × World K :=
  -- taking kinds into use changes no handle, so validity can be asked first
  let valid := w.isValid e
  let (ids, w) := w.registerAll kinds
  if ids.Nodup then
    if valid then
      let w := (kinds.zip ids).foldl (fun w p => w.editPooled p.1 p.2 e (f p.1)) w
      (.ok ((kinds.zip ids).map fun p => w.pooled? p.1 p.2 e), w)
    else
      (.ok (kinds.map fun _ => none), w)
  else
    (.error .repeatedKind, w)

end World

end EntityScene
