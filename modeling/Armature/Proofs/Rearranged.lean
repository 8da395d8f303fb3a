import Armature.Proofs.Refinement

/-!
# Where definitions stand

Functions are known everywhere, so it does not matter where among the other statements they are
defined. A program means the same as one with its functions first, be it compiled or run.
-/

namespace Armature

open Lower (isFunction)

namespace Program

/-- The same program with its functions first. -/
def sorted (p : Program) : Program where
  statements := p.statements.filter isFunction ++ p.mainStatements

/-- The functions of both are the same, in the same order, and so are the other statements. -/
structure Rearranges (p p' : Program) : Prop where
  functions : p'.statements.filter isFunction = p.statements.filter isFunction
  main : p'.mainStatements = p.mainStatements

theorem Rearranges.sorted_eq {p p' : Program} (h : p.Rearranges p') : p'.sorted = p.sorted := by
  unfold sorted
  rw [h.functions, h.main]

theorem mainStatements_sorted (p : Program) : p.sorted.mainStatements = p.mainStatements := by
  simp [mainStatements, sorted, List.filter_append, List.filter_filter]

theorem filterMap_sorted {α : Type} (p : Program) (f : Stmt → Option α) (b : Bool)
    (hf : ∀ st, isFunction st ≠ b → f st = none) :
    p.sorted.statements.filterMap f = p.statements.filterMap f := by
  have hsame (keep : Stmt → Bool) (hkeep : ∀ st, keep st = (isFunction st == b)) :
      (p.statements.filter keep).filterMap f = p.statements.filterMap f := by
    rw [List.filterMap_filter]
    congr 1
    funext st
    by_cases hst : isFunction st = b
    · simp [hkeep, hst]
    · simp [hf st hst]
  have hother (keep : Stmt → Bool) (hkeep : ∀ st, keep st = (isFunction st != b)) :
      (p.statements.filter keep).filterMap f = [] := by
    apply List.filterMap_eq_nil_iff.mpr
    intro st hst
    apply hf
    simpa [hkeep] using (List.mem_filter.mp hst).2
  unfold sorted mainStatements
  rw [List.filterMap_append]
  cases b with
  | true => rw [hsame _ (by simp), hother _ (by simp), List.append_nil]
  | false => rw [hother _ (by simp), hsame _ (by simp), List.nil_append]

end Program

/-! ## Steps that change places -/

section Folding

variable {m : Type → Type} [Monad m] [LawfulMonad m] {α β : Type} {g : β → α → m β}

theorem foldlM_past {x : α} (ys : List α)
    (hcomm : ∀ b, ∀ y ∈ ys, (do g (← g b x) y) = (do g (← g b y) x)) (b : β) :
    (do ys.foldlM g (← g b x)) = (do g (← ys.foldlM g b) x) := by
  induction ys generalizing b with
  | nil => simp
  | cons y ys ih =>
    have hrest (b : β) := ih (fun b y hy => hcomm b y (List.mem_cons_of_mem _ hy)) b
    calc (do (y :: ys).foldlM g (← g b x))
      _ = (do ys.foldlM g (← g (← g b x) y)) := by simp
      _ = (do ys.foldlM g (← g (← g b y) x)) := by
        have hswap := hcomm b y List.mem_cons_self
        simpa using congrArg (· >>= ys.foldlM g) hswap
      _ = (do g (← (y :: ys).foldlM g b) x) := by simp [hrest]

/-- If steps of one sort can change places with those of the other, one sort can go first. -/
theorem foldlM_sorted (first : α → Bool)
    (hcomm : ∀ b x y, first x = false → first y = true →
      (do g (← g b x) y) = (do g (← g b y) x)) (xs : List α) (b : β) :
    xs.foldlM g b = (xs.filter first ++ xs.filter fun x => !first x).foldlM g b := by
  induction xs generalizing b with
  | nil => rfl
  | cons x xs ih =>
    cases hx : first x with
    | true => simp [hx, ih]
    | false =>
      have hpast := foldlM_past (g := g) (xs.filter first)
        (fun b y hy => hcomm b x y hx (List.mem_filter.mp hy).2) b
      have hstart : (x :: xs).foldlM g b =
          (do (xs.filter fun x => !first x).foldlM g (← (xs.filter first).foldlM g (← g b x))) := by
        simp [ih]
      rw [hstart]
      have h' := congrArg (· >>= (xs.filter fun x => !first x).foldlM g) hpast
      simpa [hx] using h'

end Folding

/-! ## Compiling -/

namespace Lower

theorem isFunction_iff (st : Stmt) :
    isFunction st = true ↔ ∃ name params body, st = .func name params body := by
  cases st <;> simp [isFunction]

/-- What is known of functions does not depend on the enums before them, and the other way round. -/
theorem Declared.stmt_comm (d : Declared) (st f : Stmt) (hst : isFunction st = false)
    (hf : isFunction f = true) :
    (do (← d.stmt st).stmt f) = (do (← d.stmt f).stmt st) := by
  obtain ⟨name, params, body, rfl⟩ := (isFunction_iff f).mp hf
  have hfunction (enums : Bindings (List String)) (code : Asm.Code) :
      { d with enums, code }.function name ⟨params, body⟩ =
        { d.function name ⟨params, body⟩ with enums, code } := by
    unfold function
    cases d.functions.get? name <;> rfl
  have henums : (d.function name ⟨params, body⟩).enums = d.enums := by
    unfold function
    cases d.functions.get? name <;> rfl
  have hcode : (d.function name ⟨params, body⟩).code = d.code := by
    unfold function
    cases d.functions.get? name <;> rfl
  cases st with
  | func => simp [isFunction] at hst
  | enum enum cases =>
    by_cases hwide : Resource.parameters.limit < params.length
    · simp [stmt, hwide, bind, Except.bind]
    · simp only [stmt, hwide, if_false, bind, Except.bind]
      rw [hfunction, henums, hcode]
  | _ => by_cases hwide : Resource.parameters.limit < params.length <;>
      simp [stmt, hwide, bind, Except.bind]

theorem Declared.ofStatements_sorted (p : Program) :
    ofStatements p.sorted.statements = ofStatements p.statements :=
  (foldlM_sorted isFunction stmt_comm p.statements none).symm

theorem mainBody_sorted (p : Program) : mainBody p.sorted.statements = mainBody p.statements := by
  have hmain := p.mainStatements_sorted
  unfold Program.mainStatements at hmain
  unfold mainBody
  rw [hmain]

end Lower

namespace Program

theorem image_sorted (p : Program) : p.sorted.image = p.image := by
  unfold image lower
  rw [Lower.Declared.ofStatements_sorted, Lower.mainBody_sorted]

end Program

/-! ## Running -/

namespace Run

theorem program_sorted (fuel : Fuel) (p : Program) (s : State) :
    program fuel p.sorted s = program fuel p s := by
  have hdefinitions : p.sorted.statements.filterMap Stmt.definition? =
      p.statements.filterMap Stmt.definition? := by
    apply p.filterMap_sorted _ true
    intro st hst
    cases st <;> simp_all [isFunction, Stmt.definition?]
  have henumerations : p.sorted.statements.filterMap Stmt.enumeration? =
      p.statements.filterMap Stmt.enumeration? := by
    apply p.filterMap_sorted _ false
    intro st hst
    cases st <;> simp_all [isFunction, Stmt.enumeration?]
  obtain ⟨units, hdeclare⟩ := mapAll_declare p.statements s
  obtain ⟨units', hdeclare'⟩ := mapAll_declare p.sorted.statements s
  have hmain := p.mainStatements_sorted
  unfold Program.mainStatements at hmain
  rw [hdefinitions, henumerations] at hdeclare'
  unfold program
  rw [forEach_execTop, forEach_execTop, hmain]
  show Run.bind _ _ _ = Run.bind _ _ _
  unfold Run.bind
  rw [hdeclare, hdeclare']

end Run

/-- Moving the functions of a program among its other statements changes neither its image, or the
reason why it has none, nor any run of it. -/
theorem Program.rearranged {p p' : Program} (h : p.Rearranges p') :
    p'.image = p.image ∧ ∀ fuel s, Run.program fuel p' s = Run.program fuel p s := by
  constructor
  · rw [← p'.image_sorted, h.sorted_eq, p.image_sorted]
  · intro fuel s
    rw [← Run.program_sorted fuel p', h.sorted_eq, Run.program_sorted]

/-- A function is used before it is defined, and defined twice with an enum in between. -/
def scattered : Program where
  statements :=
    [.print (.call "f" [.int 2]),
      .func "f" [] [.ret (.int 1)],
      .enum "Color" ["Red", "Green"],
      .func "g" ["x"] [.print (.index (.var "Color") (.str "Green")), .ret (.var "x")],
      .decl "c" (.index (.var "Color") (.str "Red")),
      .func "f" ["x"] [.ret (.call "g" [.binary .add (.var "x") (.int 1)])],
      .print (.var "c")]

/-- The same functions after everything else. -/
def gathered : Program where
  statements :=
    [.print (.call "f" [.int 2]),
      .enum "Color" ["Red", "Green"],
      .decl "c" (.index (.var "Color") (.str "Red")),
      .print (.var "c"),
      .func "f" [] [.ret (.int 1)],
      .func "g" ["x"] [.print (.index (.var "Color") (.str "Green")), .ret (.var "x")],
      .func "f" ["x"] [.ret (.call "g" [.binary .add (.var "x") (.int 1)])]]

theorem scattered_rearranged :
    (∃ image, scattered.image = .ok image ∧ gathered.image = .ok image) ∧
    ∃ s, Run.program ⟨9, 3⟩ scattered .initial = .done () s ∧
      Run.program ⟨9, 3⟩ gathered .initial = .done () s := by
  have hmoved : scattered.Rearranges gathered := ⟨rfl, rfl⟩
  obtain ⟨himage, hrun⟩ := Program.rearranged hmoved
  rw [himage, hrun]
  constructor
  · obtain ⟨image, h⟩ := Lower.exists_image_of_small scattered (by decide +kernel)
    exact ⟨image, h, h⟩
  · have hends : (Run.program ⟨9, 3⟩ scattered .initial).printed? = some "Green\n3\nRed\n" := by
      decide +kernel
    cases h : Run.program ⟨9, 3⟩ scattered .initial with
    | done _ s => exact ⟨s, rfl, rfl⟩
    | failed e s => simp [h, Outcome.printed?] at hends
    | outOfFuel => simp [h, Outcome.printed?] at hends

end Armature
