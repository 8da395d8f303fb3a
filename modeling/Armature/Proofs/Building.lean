import Armature.Proofs.References

/-!
# When a file can be built

An image need not come from a program. Its file can be built exactly if each reference is to
something that the image has, and has an `adrp` at its site with a word behind it. Offsets in a page
always fit. Addresses are never too far away for the code, unless a list of strings was made by hand
that goes beyond the image.
-/

namespace Armature

open A64 (Instr Near decode offsetBits)
open Asm (Constant Constants Defect Image Pool Reference Target)

namespace A64

/-- The 12 bits that hold the operand of an addition, or of a load in its own units. -/
def operand (w : Word) : Nat := (w.extractLsb' 10 12).toNat

end A64

/-! ## References that can be filled in -/

namespace Asm

/-- The image that has these constants has the target. -/
def Target.Known (c : Constants) : Target → Prop
  | .constant (.string n) => n < c.stringOffsets.size
  | .constant (.double n) => 8 * n < c.doubles.length
  | .imported _ => True

/-- An addition takes its operand in bytes, a load in units of eight. -/
def Target.unit : Target → Nat
  | .constant (.string _) => 1
  | .constant (.double _) | .imported _ => 8

namespace Reference

/-- An `adrp` is at the site, and a word behind it. -/
def Formed (code : Buffer) (r : Reference) : Prop :=
  r.site + 8 ≤ code.size ∧ ∃ w rd n, code.word? r.site = some w ∧ decode w = some (.adrp rd n)

structure Sound (c : Constants) (code : Buffer) (r : Reference) : Prop where
  known : r.target.Known c
  formed : r.Formed code

/-- What is wrong with a reference. That its constant is not known comes first. -/
inductive Fault (c : Constants) (code : Buffer) (r : Reference) : Defect → Prop
  | unknown (label : Constant) (htarget : r.target = .constant label)
    (h : ¬ r.target.Known c) : Fault c code r (.constantUnknown label.name)
  | malformed (hknown : r.target.Known c) (h : ¬ r.Formed code) :
    Fault c code r (.malformedAddress r.site)

/-- The words of the two references do not overlap. -/
def Apart (r r' : Reference) : Prop := r.site + 8 ≤ r'.site ∨ r'.site + 8 ≤ r.site

variable {c : Constants} {code code' : Buffer} {r : Reference} {d : Defect}

theorem formed_congr (hsize : code'.size = code.size)
    (hword : code'.word? r.site = code.word? r.site) : r.Formed code' ↔ r.Formed code := by
  unfold Formed
  rw [hsize, hword]

theorem sound_congr (hsize : code'.size = code.size)
    (hword : code'.word? r.site = code.word? r.site) : r.Sound c code' ↔ r.Sound c code := by
  have hformed := formed_congr hsize hword
  exact ⟨fun h => ⟨h.known, hformed.mp h.formed⟩, fun h => ⟨h.known, hformed.mpr h.formed⟩⟩

theorem Fault.congr (h : r.Fault c code d) (hsize : code'.size = code.size)
    (hword : code'.word? r.site = code.word? r.site) : r.Fault c code' d := by
  cases h with
  | unknown label htarget h => exact .unknown label htarget h
  | malformed hknown h => exact .malformed hknown fun h' => h ((formed_congr hsize hword).mp h')

end Reference

end Asm

namespace MachO

/-! ## Addresses within reach -/

/-- The words at the site of a reference can form the address of its target. -/
def InReach (image : Image) (r : Reference) : Prop :=
  ∀ a, (Placement.ofImage image).address image r.target = .ok a →
    Near (imageBase + Placement.code + r.site) a

/-- What keeps a reference from being filled in. -/
def Obstacle (image : Image) (code : Buffer) (r : Reference) (d : Defect) : Prop :=
  r.Fault image.constants code d ∨
    r.Sound image.constants code ∧ ¬ InReach image r ∧ d = .malformedAddress r.site

section

variable {image : Image} {target : Target} {p : Placement}

theorem address_of_not_known (h : ¬ target.Known image.constants) :
    ∃ label, target = .constant label ∧
      p.address image target = .error (.constantUnknown label.name) := by
  cases target with
  | imported f => exact absurd trivial h
  | constant label =>
    have ho : image.constants.offset? label = none := by
      cases label with
      | string n => exact Array.getElem?_eq_none (Nat.le_of_not_lt h)
      | double n => exact if_neg h
    exact ⟨label, rfl, by simp only [Placement.address, ho]⟩

end

/-! ## One reference -/

/-- The second pair of words forms the address `a` of a target when it is run at the address `pc`.
It has the register of the first pair, and all bits but those of the operands. -/
structure Rewritten (target : Target) (pc a : Nat) (w₁ w₂ v₁ v₂ : Word) : Prop where
  first : ∃ rd n pages, decode w₁ = some (.adrp rd n) ∧ decode v₁ = some (.adrp rd pages) ∧
    (a : Int) = 4096 * (pc / 4096 + pages.toInt) + target.unit * A64.operand v₂
  second : v₂ &&& ~~~offsetBits = w₂ &&& ~~~offsetBits

/-- The words of a reference form its address in the second code, which is placed at `base`. -/
def FilledIn (image : Image) (base : Nat) (code code' : Buffer) (r : Reference) : Prop :=
  ∃ a w₁ w₂ v₁ v₂, (Placement.ofImage image).address image r.target = .ok a ∧
    code.word? r.site = some w₁ ∧ code.word? (r.site + 4) = some w₂ ∧
    code'.word? r.site = some v₁ ∧ code'.word? (r.site + 4) = some v₂ ∧
    Rewritten r.target (base + r.site) a w₁ w₂ v₁ v₂

section

variable {image : Image} {code code' code₁ : Buffer} {r : Reference} {base a : Nat}

theorem words_congr (h : ∀ i, r.site ≤ i → i < r.site + 8 → code'[i]? = code[i]?) :
    code'.word? r.site = code.word? r.site ∧ code'.word? (r.site + 4) = code.word? (r.site + 4) :=
  ⟨Buffer.word?_congr fun i hl hu => h i hl (by omega),
    Buffer.word?_congr fun i hl hu => h i (by omega) (by omega)⟩

theorem FilledIn.congr (h : FilledIn image base code code' r)
    (hcode : ∀ i, r.site ≤ i → i < r.site + 8 → code₁[i]? = code[i]?) :
    FilledIn image base code₁ code' r := by
  obtain ⟨hfirst, hsecond⟩ := words_congr hcode
  obtain ⟨a, w₁, w₂, v₁, v₂, ha, hw₁, hw₂, hrest⟩ := h
  exact ⟨a, w₁, w₂, v₁, v₂, ha, hfirst.trans hw₁, hsecond.trans hw₂, hrest⟩

theorem FilledIn.congr_right (h : FilledIn image base code code₁ r)
    (hcode : ∀ i, r.site ≤ i → i < r.site + 8 → code'[i]? = code₁[i]?) :
    FilledIn image base code code' r := by
  obtain ⟨hfirst, hsecond⟩ := words_congr hcode
  obtain ⟨a, w₁, w₂, v₁, v₂, ha, hw₁, hw₂, hv₁, hv₂, hrest⟩ := h
  exact ⟨a, w₁, w₂, v₁, v₂, ha, hw₁, hw₂, hfirst.trans hv₁, hsecond.trans hv₂, hrest⟩

/-- What filling in references has done to a code. -/
structure Filled (image : Image) (base : Nat) (references : List Reference)
    (code code' : Buffer) : Prop where
  size : code'.size = code.size
  site : ∀ r ∈ references, FilledIn image base code code' r
  reach : ∀ r ∈ references, InReach image r
  outside : ∀ i, (∀ r ∈ references, i < r.site ∨ r.site + 8 ≤ i) → code'[i]? = code[i]?

theorem FilledIn.sound (h : FilledIn image base code code' r) :
    r.Sound image.constants code := by
  obtain ⟨a, w₁, w₂, v₁, v₂, ha, hw₁, hw₂, -, -, ⟨rd, n, pages, hdecode, -⟩, -⟩ := h
  refine ⟨?_, ?_, w₁, rd, n, hw₁, hdecode⟩
  · by_contra hknown
    obtain ⟨label, -, herror⟩ := address_of_not_known (p := .ofImage image) hknown
    rw [ha] at herror
    cases herror
  · by_contra hsize
    have hnone := (code.word?_eq_none_iff (r.site + 4)).mpr (by omega)
    rw [hw₂] at hnone
    cases hnone

variable {references rest : List Reference} {d : Defect}

theorem Filled.eq_of_apart (h : Filled image base references code code')
    (hapart : ∀ r' ∈ references, r.Apart r') (i : Nat) (hl : r.site ≤ i) (hu : i < r.site + 8) :
    code'[i]? = code[i]? := by
  refine h.outside i fun r' hr' => ?_
  have hr' := hapart r' hr'
  unfold Reference.Apart at hr'
  omega

theorem Filled.cons (h : Filled image base [r] code code₁)
    (h' : Filled image base rest code₁ code') (hapart : ∀ r' ∈ rest, r.Apart r') :
    Filled image base (r :: rest) code code' where
  size := h'.size.trans h.size
  site := by
    intro r' hr'
    rcases List.mem_cons.mp hr' with rfl | hrest
    · exact (h.site r' List.mem_cons_self).congr_right (h'.eq_of_apart hapart)
    · refine (h'.site r' hrest).congr fun i hl hu => (h.eq_of_apart ?_ i hl hu).symm
      intro r₁ hr₁
      obtain rfl := List.mem_singleton.mp hr₁
      exact (hapart r' hrest).symm
  reach := by
    intro r' hr'
    rcases List.mem_cons.mp hr' with rfl | hrest
    · exact h.reach r' List.mem_cons_self
    · exact h'.reach r' hrest
  outside := by
    intro i hi
    rw [List.forall_mem_cons] at hi
    rw [h'.outside i hi.2, h.outside i (by simpa using hi.1)]

theorem Obstacle.congr (h : Obstacle image code r d) (hsize : code'.size = code.size)
    (hword : code'.word? r.site = code.word? r.site) : Obstacle image code' r d := by
  rcases h with h | ⟨hsound, hfar⟩
  · exact .inl (h.congr hsize hword)
  · exact .inr ⟨(Reference.sound_congr hsize hword).mpr hsound, hfar⟩

end

/-! ## Files -/

end MachO

end Armature
