/-!
# Names and what they are bound to

An association list keeps its entries in the order in which the names were first bound. Binding a
name again replaces its value and leaves its place. Frames, tables of functions and the fields of a
dict are all of this kind.
-/

namespace Armature

abbrev Bindings (α : Type) := List (String × α)

namespace Bindings

variable {α : Type}

def get? : Bindings α → String → Option α
  | [], _ => none
  | (n, a) :: rest, name => if n = name then some a else get? rest name

def set : Bindings α → String → α → Bindings α
  | [], name, a => [(name, a)]
  | (n, b) :: rest, name, a => if n = name then (n, a) :: rest else (n, b) :: set rest name a

def has (b : Bindings α) (name : String) : Bool := (b.get? name).isSome

/-- Binds the entries of the second list one after the other. -/
def setAll (b : Bindings α) (entries : List (String × α)) : Bindings α :=
  entries.foldl (fun b (name, a) => b.set name a) b

@[simp] theorem get?_nil (name : String) : get? ([] : Bindings α) name = none := rfl

@[simp] theorem get?_set_self (b : Bindings α) (name : String) (a : α) :
    (b.set name a).get? name = some a := by
  induction b with
  | nil => simp [set, get?]
  | cons e rest ih =>
    obtain ⟨n, c⟩ := e
    by_cases h : n = name <;> simp [set, get?, h, ih]

theorem get?_set_of_ne (b : Bindings α) {name other : String} (a : α) (h : name ≠ other) :
    (b.set name a).get? other = b.get? other := by
  induction b with
  | nil => simp [set, get?, h]
  | cons e rest ih =>
    obtain ⟨n, c⟩ := e
    by_cases hn : n = name
    · subst hn; simp [set, get?, h]
    · simp [set, get?, hn, ih]

end Bindings

end Armature
