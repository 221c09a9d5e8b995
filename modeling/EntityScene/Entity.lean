/-!
# Entity handles

An entity is named by a *handle*: the index of its slot and the generation the
slot had when the handle was issued. Recycling a slot moves it to the next
generation, so a copy of an old handle no longer names anything instead of
naming whatever uses the slot now.

- `Generation`: a wrapping counter with its order.
- `Entity`: the handle; two handles are equal when both parts are.
- `Entity.null`: the handle that never names an entity. `Entity.isNull` looks at
  the index alone.
- `Entity.toBits`, `Entity.ofBits`: the packing into one 64-bit word, generation
  in the high half; `ofBits_toBits` and `toBits_ofBits` say that it is a bijection.
-/

namespace EntityScene

/-- How many times a slot has been recycled, modulo `2 ^ 32`. -/
structure Generation where
  /-- The raw count. -/
  raw : UInt32 := 0
deriving DecidableEq, Hashable, Inhabited, Repr

namespace Generation

/-- The generation of a slot that has never been recycled. -/
def initial : Generation := ⟨0⟩

/-- The generation after this one; the last is followed by the first. -/
def next (g : Generation) : Generation := ⟨g.raw + 1⟩

/-- Generations are ordered by their raw counts. -/
instance : LT Generation := ⟨fun g h => g.raw < h.raw⟩

instance (g h : Generation) : Decidable (g < h) :=
  inferInstanceAs (Decidable (g.raw < h.raw))

/-- The word `gen` followed by the raw count. -/
def describe (g : Generation) : String := "gen" ++ toString g.raw.toNat

@[simp] theorem raw_initial : initial.raw = 0 := rfl

@[simp] theorem raw_next (g : Generation) : g.next.raw = g.raw + 1 := rfl

theorem lt_iff (g h : Generation) : g < h ↔ g.raw < h.raw := Iff.rfl

/-- Short of the last generation the next one is newer. -/
theorem lt_next (g : Generation) (h : g.raw.toNat + 1 < UInt32.size) : g < g.next := by
  rw [lt_iff, raw_next, UInt32.lt_iff_toNat_lt, UInt32.toNat_add]
  simp only [UInt32.toNat_one]
  simp only [UInt32.size] at h
  omega

end Generation

/-- A handle: the index of a slot and the generation it is meant for. -/
structure Entity where
  /-- Index of the slot. -/
  index : UInt32
  /-- Generation of the slot when the handle was issued. -/
  generation : Generation
deriving DecidableEq, Hashable, Repr

namespace Entity

/-- The index that no entity has. -/
def nullIndex : UInt32 := 0xFFFFFFFF

/-- The handle that stands for no entity. -/
def null : Entity := ⟨nullIndex, .initial⟩

instance : Inhabited Entity := ⟨null⟩

/-- Whether the handle has the null index, whatever its generation. -/
def isNull (e : Entity) : Bool := e.index == nullIndex

/-- The handle as one word, generation high and index low. -/
def toBits (e : Entity) : UInt64 :=
  e.generation.raw.toUInt64 <<< 32 ||| e.index.toUInt64

/-- The handle packed into a word. -/
def ofBits (bits : UInt64) : Entity :=
  ⟨bits.toUInt32, ⟨(bits >>> 32).toUInt32⟩⟩

/-- Index and generation with a `v` between them, or `null` for the null index. -/
def display (e : Entity) : String :=
  if e.isNull then "null" else toString e.index.toNat ++ "v" ++ toString e.generation.raw.toNat

/-- The displayed handle between the parentheses of `Entity(..)`. -/
def describe (e : Entity) : String := "Entity(" ++ e.display ++ ")"

@[simp] theorem isNull_null : null.isNull = true := rfl

theorem isNull_iff (e : Entity) : e.isNull = true ↔ e.index = nullIndex := by
  simp [isNull]

theorem isNull_eq_false_iff (e : Entity) : e.isNull = false ↔ e.index ≠ nullIndex := by
  simp [isNull]

/-- The index of a handle that is not null leaves room for one more. -/
theorem index_toNat_lt {e : Entity} (h : e.isNull = false) :
    e.index.toNat < nullIndex.toNat := by
  have hne : e.index.toNat ≠ nullIndex.toNat := fun heq =>
    (isNull_eq_false_iff e).1 h (UInt32.toNat_inj.1 heq)
  have hnull : nullIndex.toNat = 2 ^ 32 - 1 := rfl
  have := e.index.toNat_lt
  omega

/-- Unpacking a packed handle gives it back. -/
theorem ofBits_toBits (e : Entity) : ofBits e.toBits = e := by
  obtain ⟨i, ⟨g⟩⟩ := e
  simp only [ofBits, toBits, mk.injEq, Generation.mk.injEq]
  constructor <;> refine UInt32.toBitVec_inj.1 (BitVec.eq_of_getLsbD_eq fun k hk => ?_)
  · simp
  · have hlow : k < 64 := by omega
    have hhigh : 32 + k < 64 := by omega
    simp [hk, hlow, hhigh]

/-- Packing an unpacked word gives it back. -/
theorem toBits_ofBits (bits : UInt64) : (ofBits bits).toBits = bits := by
  refine UInt64.toBitVec_inj.1 (BitVec.eq_of_getLsbD_eq fun k hk => ?_)
  simp only [ofBits, toBits, UInt64.toBitVec_or, UInt64.toBitVec_shiftLeft,
    UInt64.toBitVec_shiftRight, UInt32.toBitVec_toUInt64, UInt64.toBitVec_toUInt32,
    BitVec.getLsbD_or, BitVec.getLsbD_setWidth, BitVec.shiftLeft_eq', BitVec.ushiftRight_eq',
    BitVec.getLsbD_shiftLeft, BitVec.getLsbD_ushiftRight]
  by_cases h : k < 32
  · simp [h, hk]
  · have hback : 32 + (k - 32) = k := by omega
    have hlow : k - 32 < 32 := by omega
    have hhigh : k - 32 < 64 := by omega
    simp [h, hk, hback, hlow, hhigh]

end Entity

end EntityScene
