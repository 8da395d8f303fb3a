import Armature.Lower.Error

/-!
# Frames

Which slots of a frame are taken, and by which variable. A variable keeps its slots when it is bound
again, unless it needs more than it has. Slots are never given back.
-/

namespace Armature

structure Symbol where
  slot : Slot
  /-- How many slots the variable owns, from `slot` on. -/
  span : Nat
  shape : Shape
deriving DecidableEq

structure Frame where
  symbols : Bindings Symbol
  /-- The number of slots that are taken. They are the first ones. -/
  used : Nat
  /-- Slots that all print loops of the frame share. -/
  scratch : List Slot

namespace Frame

def empty : Frame := ⟨[], 0, []⟩

/-- Bytes between the frame base and the saved registers. -/
def localBytes : Nat := 64 + 8 * Resource.frameSlots.limit

/-- The outcome of taking slots, with the frame after it. A failure may have taken some. -/
abbrev Taking (α : Type) := Except Resource α × Frame

/-- The next `count` slots. -/
def reserve (f : Frame) (count : Nat) : Taking Slot :=
  if Resource.frameSlots.limit < f.used + count then
    (.error .frameSlots, f)
  else
    (.ok ⟨BitVec.ofNat 16 f.used⟩, { f with used := f.used + count })

def lookup (f : Frame) (name : String) : Option Symbol := f.symbols.get? name

def bind (f : Frame) (name : String) (symbol : Symbol) : Frame :=
  { f with symbols := f.symbols.set name symbol }

/-- A slot that no variable owns. -/
def hidden (f : Frame) : Taking Slot := f.reserve 1

/-- Binds a variable of one slot. It keeps its first slot if it has any. -/
def assign (f : Frame) (name : String) (shape : Shape) : Taking Slot :=
  let fresh :=
    match f.reserve 1 with
    | (.ok slot, f) => (.ok slot, f.bind name ⟨slot, 1, shape⟩)
    | failed => failed
  match f.lookup name with
  | some symbol =>
    if 0 < symbol.span then (.ok symbol.slot, f.bind name { symbol with shape }) else fresh
  | none => fresh

/-- Room for a composite of `count` slots: the first slot, and how many the variable will own. It
keeps its slots if they are enough. -/
def spanFor (f : Frame) (name : String) (count : Nat) : Taking (Slot × Nat) :=
  let fresh :=
    match f.reserve count with
    | (.ok slot, f) => (.ok (slot, count), f)
    | (.error r, f) => (.error r, f)
  match f.lookup name with
  | some symbol =>
    if count ≤ symbol.span ∧ 0 < symbol.span then (.ok (symbol.slot, symbol.span), f) else fresh
  | none => fresh

/-- Takes `missing` more scratch slots. -/
def growScratch : Nat → Frame → Taking Unit
  | 0, f => (.ok (), f)
  | missing + 1, f =>
    match f.hidden with
    | (.ok slot, f) => growScratch missing { f with scratch := f.scratch ++ [slot] }
    | (.error r, f) => (.error r, f)

/-- The first `count` scratch slots, which are taken when they are first asked for. -/
def scratchSlots (f : Frame) (count : Nat) : Taking (List Slot) :=
  match growScratch (count - f.scratch.length) f with
  | (.ok (), f) => (.ok (f.scratch.take count), f)
  | (.error r, f) => (.error r, f)

end Frame

end Armature
