import Armature.Asm.Image
import Armature.Proofs.Branches

/-!
# Where lines of code stand

Every line takes a number of words that does not depend on labels. So each line of a code has its
place, counted in words, as soon as the code has one.
-/

namespace Armature.Asm

open A64 (Instr)

/-! ## Single lines -/

namespace Line

/-- The instructions of a line. A branch still has no displacement. -/
def body : Line → List Instr
  | instr i => [i]
  | mark _ | reserve _ | entry => []
  | jump _ => [.b 0]
  | jumpIf cond _ => [.bCond cond 0]
  | jumpIfZero reg _ => [.cbz reg 0]
  | call _ => [.bl 0]
  | address reg _ => [.adrp reg 0, .addImm reg reg 0]
  | double reg _ => [.adrp .x16 0, .ldrD reg .x16 0]
  | callImport _ => [.adrp .x16 0, .ldrX .x16 .x16 0, .blr .x16]

/-- The number of words. -/
def size (l : Line) : Nat := l.body.length

/-- The label whose place is here. -/
def label? : Line → Option Label
  | mark label => some label
  | _ => none

/-- The label that a branch inside a body goes to. -/
def jumpTarget? : Line → Option Label
  | jump label | jumpIf _ label | jumpIfZero _ label => some label
  | _ => none

/-- The label that a call goes to. -/
def callTarget? : Line → Option Label
  | call label => some label
  | _ => none

def target? (l : Line) : Option Label := l.jumpTarget? <|> l.callTarget?

/-- The instructions of a line at word `k` when the place of each label is known. -/
def resolved (place : Label → Nat) (k : Nat) (l : Line) : List Instr :=
  match l.target? with
  | some label => l.body.map (·.retarget (BitVec.ofInt 32 (4 * place label - 4 * k : Int)))
  | none => l.body

theorem body_of_target (l : Line) (label : Label) (h : l.target? = some label) :
    ∃ i form, l.body = [i] ∧ i.form? = some form := by
  cases l with
  | jump | jumpIf | jumpIfZero | call => exact ⟨_, _, rfl, rfl⟩
  | _ => cases h

theorem size_of_target (l : Line) (label : Label) (h : l.target? = some label) : l.size = 1 := by
  obtain ⟨i, form, hbody, -⟩ := l.body_of_target label h
  rw [size, hbody]
  rfl

@[simp] theorem length_resolved (place : Label → Nat) (k : Nat) (l : Line) :
    (l.resolved place k).length = l.size := by
  unfold resolved
  split <;> simp [size]

end Line

/-! ## Codes -/

namespace Code

/-- The number of words. -/
def size (c : Code) : Nat := (c.map Line.size).sum

@[simp] theorem size_nil : size [] = 0 := rfl

@[simp] theorem size_cons (l : Line) (c : Code) : size (l :: c) = l.size + size c := by
  simp [size]

@[simp] theorem size_append (c d : Code) : size (c ++ d) = size c + size d := by
  simp [size]

/-- The lines, each with its place, when the first is at word `k`. -/
def located : Nat → Code → List (Nat × Line)
  | _, [] => []
  | k, l :: rest => (k, l) :: located (k + l.size) rest

@[simp] theorem located_nil (k : Nat) : located k [] = [] := rfl

@[simp] theorem located_cons (k : Nat) (l : Line) (c : Code) :
    located k (l :: c) = (k, l) :: located (k + l.size) c := rfl

@[simp] theorem located_append (k : Nat) (c d : Code) :
    located k (c ++ d) = located k c ++ located (k + size c) d := by
  induction c generalizing k with
  | nil => simp
  | cons l rest ih => simp [ih, Nat.add_assoc]

theorem mem_located (k : Nat) (c : Code) (q : Nat) (l : Line) (h : (q, l) ∈ located k c) :
    k ≤ q ∧ q + l.size ≤ k + size c := by
  induction c generalizing k with
  | nil => cases h
  | cons first rest ih =>
    rw [located_cons, List.mem_cons, Prod.mk.injEq] at h
    rw [size_cons]
    rcases h with ⟨rfl, rfl⟩ | h
    · omega
    · have := ih _ h
      omega

theorem exists_mem_located (k : Nat) (c : Code) (l : Line) (h : l ∈ c) :
    ∃ q, (q, l) ∈ located k c := by
  induction c generalizing k with
  | nil => cases h
  | cons first rest ih =>
    rcases List.mem_cons.mp h with rfl | h
    · exact ⟨k, by simp⟩
    · obtain ⟨q, hq⟩ := ih (k + first.size) h
      exact ⟨q, by simp [hq]⟩

theorem mem_of_mem_located (k : Nat) (c : Code) (q : Nat) (l : Line) (h : (q, l) ∈ located k c) :
    l ∈ c := by
  induction c generalizing k with
  | nil => cases h
  | cons first rest ih =>
    rw [located_cons, List.mem_cons, Prod.mk.injEq] at h
    rcases h with ⟨-, rfl⟩ | h
    · exact List.mem_cons_self
    · exact List.mem_cons_of_mem _ (ih _ h)

/-- Where a code starts in a row of codes. -/
def start (codes : List Code) (i : Nat) : Nat := size (codes.take i).flatten

theorem mem_located_flatten (k : Nat) (codes : List Code) (q : Nat) (l : Line) :
    (q, l) ∈ located k codes.flatten ↔
      ∃ i c, codes[i]? = some c ∧ (q, l) ∈ located (k + start codes i) c := by
  induction codes generalizing k with
  | nil => simp
  | cons first rest ih =>
    rw [List.flatten_cons, located_append, List.mem_append, ih]
    constructor
    · rintro (h | ⟨i, c, hc, h⟩)
      · exact ⟨0, first, rfl, by simpa [start] using h⟩
      · exact ⟨i + 1, c, by simpa using hc, by simpa [start, Nat.add_assoc] using h⟩
    · rintro ⟨i, c, hc, h⟩
      cases i with
      | zero =>
        cases hc
        exact .inl (by simpa [start] using h)
      | succ i => exact .inr ⟨i, c, by simpa using hc, by simpa [start, Nat.add_assoc] using h⟩

theorem start_add_size_le (codes : List Code) (i : Nat) (c : Code) (h : codes[i]? = some c) :
    start codes i + size c ≤ size codes.flatten := by
  induction codes generalizing i with
  | nil => simp at h
  | cons first rest ih =>
    cases i with
    | zero =>
      cases h
      simp [start]
    | succ i =>
      have := ih i (by simpa using h)
      simp only [start, List.take_succ_cons, List.flatten_cons, size_append] at this ⊢
      omega

/-- The labels that get their places in the code. -/
def marks (c : Code) : List Label := c.filterMap Line.label?

/-- The labels of the calls, from the first to the last. -/
def calls (c : Code) : List Label := c.filterMap Line.callTarget?

@[simp] theorem marks_append (c d : Code) : marks (c ++ d) = marks c ++ marks d := by
  simp [marks]

@[simp] theorem calls_append (c d : Code) : calls (c ++ d) = calls c ++ calls d := by
  simp [calls]

theorem mem_marks (c : Code) (label : Label) : label ∈ marks c ↔ .mark label ∈ c := by
  rw [marks, List.mem_filterMap]
  constructor
  · rintro ⟨l, hl, hlabel⟩
    cases l with
    | mark => cases hlabel; exact hl
    | _ => cases hlabel
  · intro h
    exact ⟨_, h, rfl⟩

/-! ## Instructions -/

/-- The instructions of a code at word `k` when the place of each label is known. -/
def instrs (place : Label → Nat) (k : Nat) (c : Code) : List Instr :=
  (located k c).flatMap fun (q, l) => l.resolved place q

@[simp] theorem instrs_nil (place : Label → Nat) (k : Nat) : instrs place k [] = [] := rfl

@[simp] theorem instrs_cons (place : Label → Nat) (k : Nat) (l : Line) (c : Code) :
    instrs place k (l :: c) = l.resolved place k ++ instrs place (k + l.size) c := by
  simp [instrs]

@[simp] theorem instrs_append (place : Label → Nat) (k : Nat) (c d : Code) :
    instrs place k (c ++ d) = instrs place k c ++ instrs place (k + size c) d := by
  simp [instrs]

@[simp] theorem length_instrs (place : Label → Nat) (k : Nat) (c : Code) :
    (instrs place k c).length = size c := by
  induction c generalizing k with
  | nil => rfl
  | cons l rest ih => simp [ih]

theorem getElem?_instrs (place : Label → Nat) (k : Nat) (c : Code) (j : Nat) (i : Instr)
    (h : (instrs place k c)[j]? = some i) :
    ∃ q l n, (q, l) ∈ located k c ∧ (l.resolved place q)[n]? = some i ∧ k + j = q + n := by
  induction c generalizing k j with
  | nil => simp at h
  | cons l rest ih =>
    rw [instrs_cons, List.getElem?_append, Line.length_resolved] at h
    split at h
    · exact ⟨k, l, j, by simp, h, rfl⟩
    · obtain ⟨q, l', n, hmem, hn, hpos⟩ := ih (k + l.size) (j - l.size) h
      exact ⟨q, l', n, by simp [hmem], hn, by omega⟩

/-- The instructions of each code in a row of codes. -/
def rows (place : Label → Nat) : Nat → List Code → List (List Instr)
  | _, [] => []
  | k, c :: rest => instrs place k c :: rows place (k + size c) rest

theorem flatten_rows (place : Label → Nat) (k : Nat) (codes : List Code) :
    (rows place k codes).flatten = instrs place k codes.flatten := by
  induction codes generalizing k with
  | nil => rfl
  | cons c rest ih => simp [rows, ih]

@[simp] theorem length_rows (place : Label → Nat) (k : Nat) (codes : List Code) :
    (rows place k codes).length = codes.length := by
  induction codes generalizing k with
  | nil => rfl
  | cons c rest ih => simp [rows, ih]

theorem getElem?_rows (place : Label → Nat) (k : Nat) (codes : List Code) (i : Nat) :
    (rows place k codes)[i]? = codes[i]?.map (instrs place (k + start codes i)) := by
  induction codes generalizing k i with
  | nil => simp [rows]
  | cons c rest ih =>
    cases i with
    | zero => simp [rows, start]
    | succ i => simp [rows, start, ih, Nat.add_assoc]

theorem length_flatten_take_rows (place : Label → Nat) (k : Nat) (codes : List Code) (i : Nat) :
    ((rows place k codes).take i).flatten.length = start codes i := by
  induction codes generalizing k i with
  | nil => simp [rows, start]
  | cons c rest ih =>
    cases i with
    | zero => simp [start]
    | succ i => simp only [rows, start, List.take_succ_cons, List.flatten_cons, List.length_append,
        length_instrs, ih, size_append]

theorem start_lt_start (codes : List Code) (i j : Nat) (c : Code) (h : codes[i]? = some c)
    (hij : i < j) : start codes i + size c ≤ start codes j := by
  induction codes generalizing i j with
  | nil => simp at h
  | cons first rest ih =>
    obtain ⟨j, rfl⟩ : ∃ n, j = n + 1 := ⟨j - 1, by omega⟩
    cases i with
    | zero =>
      cases h
      simp [start]
    | succ i =>
      have := ih i j (by simpa using h) (by omega)
      simp only [start, List.take_succ_cons, List.flatten_cons, size_append] at this ⊢
      omega

end Code

end Armature.Asm
