import Armature.Proofs.Literals
import Armature.Proofs.PrintLoops
import Armature.Proofs.Rearranged

/-!
# Programs of enums

The code of a program prints an enum with the cases that are known where the code is made. A run
takes the cases from the definition that ran last. So the code does not do what the program does,
but what the program does whose references to enums are resolved beforehand. Both are the same if
all definitions of a name list the same cases.
-/

namespace Armature

open Asm (Code Label Line)

/-! ## Resolved programs -/

namespace Stmt

/-- Definitions of enums, prints of enums and of cases, and calls without arguments. No case has a
backslash or a zero. -/
def ofEnums : Stmt → Bool
  | enum _ cases => cases.all fun case => Escape.Plain case ∧ NulFree case
  | print (.var _) | print (.index (.var _) (.str _)) | expr (.call _ []) => true
  | _ => false

def ofEnumsTop : Stmt → Bool
  | func _ params body => params.isEmpty && body.all ofEnums
  | st => st.ofEnums

/-- What is left of a statement if the enums are known: a print of a text, or a call. -/
def resolved (enums : Bindings (List String)) : Stmt → List Stmt
  | enum _ _ => []
  | print (.var name) => [print (.str (Value.enum name ((enums.get? name).getD [])).text)]
  | print (.index (.var _) (.str case)) => [print (.str case)]
  | st => [st]

/-- A definition holds for the statements that come after it in the text. -/
def resolveAll : Bindings (List String) → List Stmt → List Stmt
  | _, [] => []
  | enums, st :: rest => st.resolved enums ++ resolveAll (enums.setAll st.enumeration?.toList) rest

end Stmt

/-- The enums that the body of a function defines. -/
def Function.enumerations (f : Function) : List (String × List String) :=
  f.body.filterMap Stmt.enumeration?

namespace Program

/-- Parameterless functions, and statements with nothing but enums. -/
def ofEnums (p : Program) : Bool := p.statements.all Stmt.ofEnumsTop

/-- The last definition of each function, in the order in which they are first defined. -/
def functions (p : Program) : Bindings Function := Bindings.setAll [] p.definitions

/-- The definitions of enums that are known where the code of body number `i` is made: those outside
functions, and those in the functions before. -/
def enumerations (p : Program) (i : Nat) : List (String × List String) :=
  p.statements.filterMap Stmt.enumeration? ++ (p.functions.take i).flatMap (·.2.enumerations)

def allEnumerations (p : Program) : List (String × List String) :=
  p.enumerations p.functions.length

def enumsAt (p : Program) (i : Nat) : Bindings (List String) :=
  Bindings.setAll [] (p.enumerations i)

/-- The functions, each with the enums that are known where its code is made. -/
def resolvedFunctions (p : Program) : Bindings Function :=
  p.functions.zipIdx.map fun e => (e.1.1, ⟨[], Stmt.resolveAll (p.enumsAt e.2) e.1.2.body⟩)

/-- The program with every reference to an enum replaced by the text that its code prints. -/
def resolved (p : Program) : Program where
  statements := p.resolvedFunctions.map (fun e => .func e.1 e.2.params e.2.body)
    ++ Stmt.resolveAll (p.enumsAt p.functions.length) p.mainStatements

/-- All definitions of an enum list the same cases. -/
def consistent (p : Program) : Bool :=
  p.allEnumerations.all fun e => p.allEnumerations.all fun e' => e.1 = e'.1 → e.2 = e'.2

end Program

/-! ## Code of statements -/

namespace Lower

/-- The code of a statement where no variables are in scope. -/
inductive EnumCode (callees : Bindings Callee) (enums : Bindings (List String)) :
    Stmt → Code → Prop
  | enum (name : String) (cases : List String) :
    EnumCode callees enums (.enum name cases) (cases.map fun case => .reserve (Escape.bytes case))
  | whole {name : String} {cases : List String} : enums.get? name = some cases →
    EnumCode callees enums (.print (.var name)) (printEnum cases)
  | case {name case : String} {cases : List String} : enums.get? name = some cases →
    case ∈ cases → EnumCode callees enums (.print (.index (.var name) (.str case)))
      (.address .x0 (Escape.bytes case) :: printLine .string)
  | call {name : String} {callee : Callee} : callees.get? name = some callee →
    EnumCode callees enums (.expr (.call name [])) (passArguments 0 0 ++ [.call callee.entry])

/-- The code of statements. The enums are those before the first of them. -/
inductive EnumsCode (callees : Bindings Callee) : Bindings (List String) → List Stmt → Code → Prop
  | nil (enums : Bindings (List String)) : EnumsCode callees enums [] []
  | cons {enums : Bindings (List String)} {st : Stmt} {rest : List Stmt} {c c' : Code} :
    EnumCode callees enums st c →
    EnumsCode callees (enums.setAll st.enumeration?.toList) rest c' →
    EnumsCode callees enums (st :: rest) (c ++ c')

variable {scope scope' : Scope} {st : Stmt} {c : Code}

theorem enumCode_of_stmt (hst : st.ofEnums = true) (hframe : scope.frame = .empty)
    (h : stmt st scope = .ok (c, scope')) :
    EnumCode scope.functions scope.enums st c ∧
      scope' = { scope with enums := scope.enums.setAll st.enumeration?.toList } := by
  have hshape (name : String) : scope.shape? name = none := by
    rw [Scope.shape?, hframe]
    rfl
  unfold Stmt.ofEnums at hst
  split at hst
  · cases h
    exact ⟨.enum _ _, rfl⟩
  · rename_i name
    simp only [stmt, print, printVariable, Lowering.bind_ok, Lowering.get_ok] at h
    obtain ⟨_, _, ⟨rfl, rfl⟩, h⟩ := h
    simp only [hshape] at h
    cases hcases : scope.enums.get? name with
    | some cases =>
      rw [hcases] at h
      obtain ⟨rfl, rfl⟩ := (Lowering.pure_ok _ _ _ _).mp h
      exact ⟨.whole hcases, rfl⟩
    | none =>
      rw [hcases] at h
      exact ((Lowering.refuse_ok _ _ _).mp h).elim
  · rename_i name case
    simp only [stmt, print, printElement, Lowering.bind_ok, Lowering.get_ok] at h
    obtain ⟨_, _, ⟨rfl, rfl⟩, h⟩ := h
    simp only [arrayView, hshape, printValue, Lowering.bind_ok, Lowering.value_ok,
      Lowering.pure_ok] at h
    obtain ⟨value, _, ⟨hvalue, rfl⟩, rfl, rfl⟩ := h
    simp only [expr, elementOf, hshape] at hvalue
    split at hvalue
    · rename_i cases hcases
      simp only [enumCase] at hvalue
      split at hvalue
      · rename_i hmem
        cases hvalue
        exact ⟨.case hcases (List.contains_iff_mem.mp hmem), rfl⟩
      · cases hvalue
    · cases hvalue
  · rename_i name
    simp only [stmt, Lowering.bind_ok, Lowering.value_ok, Lowering.pure_ok, expr, bind_eq_ok,
      arguments] at h
    obtain ⟨value, _, ⟨⟨callee, hcallee, _, harguments, hvalue⟩, rfl⟩, rfl, rfl⟩ := h
    cases harguments
    cases hvalue
    exact ⟨.call (callee_ok hcallee).1, rfl⟩
  · cases hst

theorem enumsCode_of_block {body : List Stmt} (hbody : body.all Stmt.ofEnums = true)
    (hframe : scope.frame = .empty) (h : block body scope = .ok (c, scope')) :
    EnumsCode scope.functions scope.enums body c ∧
      scope' = { scope with enums := scope.enums.setAll (body.filterMap Stmt.enumeration?) } := by
  induction body generalizing scope c with
  | nil =>
    obtain ⟨rfl, rfl⟩ := (Lowering.pure_ok _ _ _ _).mp h
    exact ⟨.nil _, rfl⟩
  | cons st rest ih =>
    rw [List.all_cons, Bool.and_eq_true] at hbody
    obtain ⟨c₁, c₂, scope₁, h₁, h₂, rfl⟩ := block_cons_ok st rest c scope scope' h
    obtain ⟨hcode₁, hscope₁⟩ := enumCode_of_stmt hbody.1 hframe h₁
    have hframe₁ : scope₁.frame = .empty := by rw [hscope₁, hframe]
    obtain ⟨hcode₂, hscope'⟩ := ih hbody.2 hframe₁ h₂
    rw [hscope₁] at hcode₂ hscope'
    refine ⟨.cons hcode₁ hcode₂, ?_⟩
    rw [hscope']
    cases hst : st.enumeration? with
    | none => simp [hst, Bindings.setAll]
    | some e => simp [hst, Bindings.setAll]

theorem enumsCode_of_function {session session' : Session} {name : String} {f : Function}
    (hparams : f.params = []) (hbody : f.body.all Stmt.ofEnums = true)
    (h : function name f session = .ok (c, session')) :
    (∃ callee done body, session.functions.get? name = some callee ∧
      EnumsCode session.functions session.enums f.body body ∧
      c = .mark callee.entry :: (prologue ++ (body ++ constant .x0 0 ++ [.mark done])
        ++ epilogue)) ∧
      session'.enums = session.enums.setAll f.enumerations := by
  obtain ⟨callee, scope₁, scope', params, body, hcallee, hparameters, hblock, rfl, rfl⟩ :=
    function_ok name f c session session' h
  rw [hparams] at hparameters
  obtain ⟨rfl, rfl⟩ := (Lowering.pure_ok _ _ _ _).mp hparameters
  obtain ⟨hcode, rfl⟩ := enumsCode_of_block hbody rfl hblock
  exact ⟨⟨callee, _, body, hcallee, hcode, rfl⟩, rfl⟩

end Lower

/-! ## Texts of enums -/

theorem Value.plain_commaSeparated (parts : List String) (h : ∀ part ∈ parts, Escape.Plain part) :
    Escape.Plain (commaSeparated parts) := by
  induction parts with
  | nil => decide
  | cons part rest ih =>
    have hpart := h part List.mem_cons_self
    have hrest := ih fun part hpart => h part (List.mem_cons_of_mem _ hpart)
    cases rest with
    | nil => simpa [commaSeparated] using hpart
    | cons next rest =>
      have heq : commaSeparated (part :: next :: rest) =
          part ++ (", " ++ commaSeparated (next :: rest)) := by
        simp [commaSeparated, String.append_assoc]
      rw [heq]
      exact hpart.append (.append (by decide) hrest)

theorem Value.plain_enum (name : String) (cases : List String)
    (h : ∀ case ∈ cases, Escape.Plain case) : Escape.Plain (Value.enum name cases).text := by
  rw [text, render]
  refine .append (.append (by decide) (plain_commaSeparated _ ?_)) (by decide)
  intro part hpart
  obtain ⟨case, hcase, rfl⟩ := List.mem_map.mp hpart
  have hplain := h case hcase
  exact .append (.append (.append (.append (by decide) hplain) (by decide)) (by decide)) hplain

/-! ## Steps of resolved runs -/

/-- Definitions of one name list the same cases. -/
def Consistent (known : List (String × List String)) : Prop :=
  ∀ e ∈ known, ∀ e' ∈ known, e.1 = e'.1 → e.2 = e'.2

/-- One state is from a run of the program and the other from a run of the resolved program. All
enums come from the `known` definitions. -/
structure Follows (known : List (String × List String)) (table table' : Bindings Function)
    (s t : State) : Prop where
  functions : s.functions = table
  resolved : t.functions = table'
  enums : ∀ name cases, s.enums.get? name = some cases → (name, cases) ∈ known
  output : Consistent known → t.output = s.output

variable {known : List (String × List String)} {table table' : Bindings Function}

theorem Follows.enter {s t : State} (h : Follows known table table' s t) :
    Follows known table table' (s.enter []) (t.enter []) :=
  ⟨h.functions, h.resolved, h.enums, h.output⟩

theorem Follows.leave {s t : State} (h : Follows known table table' s t) :
    Follows known table table' s.leave t.leave := by
  obtain ⟨hfunctions, henums, houtput⟩ := s.leave_fields
  obtain ⟨hfunctions', -, houtput'⟩ := t.leave_fields
  refine ⟨by rw [hfunctions, h.functions], by rw [hfunctions', h.resolved], ?_, ?_⟩
  · rw [henums]
    exact h.enums
  · rw [houtput, houtput']
    exact h.output

namespace Run

theorem forEach_append_done {α : Type} {step : α → Run Flow} {xs ys : List α} {flow : Flow}
    {s s' : State} :
    forEach step (xs ++ ys) s = .done flow s' ↔
      ∃ flow₁ s₁, forEach step xs s = .done flow₁ s₁ ∧
        (match flow₁ with
          | .next => forEach step ys
          | .returned v => pure (.returned v)) s₁ = .done flow s' := by
  induction xs generalizing s with
  | nil =>
    constructor
    · intro h
      exact ⟨.next, s, rfl, h⟩
    · rintro ⟨_, _, hnil, h⟩
      obtain ⟨rfl, rfl⟩ := (pure_done _ _ _ _).mp hnil
      exact h
  | cons x rest ih =>
    simp only [List.cons_append, forEach, bind_done]
    constructor
    · rintro ⟨flow₁, s₁, hx, h⟩
      cases flow₁ with
      | next =>
        obtain ⟨flow₂, s₂, hrest, h⟩ := ih.mp h
        exact ⟨flow₂, s₂, ⟨.next, s₁, hx, hrest⟩, h⟩
      | returned v => exact ⟨.returned v, s₁, ⟨.returned v, s₁, hx, rfl⟩, h⟩
    · rintro ⟨flow₂, s₂, ⟨flow₁, s₁, hx, hrest⟩, h⟩
      refine ⟨flow₁, s₁, hx, ?_⟩
      cases flow₁ with
      | next => exact ih.mpr ⟨flow₂, s₂, hrest, h⟩
      | returned v =>
        obtain ⟨rfl, rfl⟩ := (pure_done _ _ _ _).mp hrest
        exact h

theorem forEach_singleton_done {α : Type} {step : α → Run Flow} {x : α} {flow : Flow}
    {s s' : State} : forEach step [x] s = .done flow s' ↔ step x s = .done flow s' := by
  simp only [forEach, bind_done]
  constructor
  · rintro ⟨flow₁, s₁, hx, h⟩
    cases flow₁ <;> obtain ⟨rfl, rfl⟩ := (pure_done _ _ _ _).mp h <;> exact hx
  · intro hx
    refine ⟨flow, s', hx, ?_⟩
    cases flow <;> rfl

variable {rounds depth : Nat}

/-- A function and its resolved form, called in two states that correspond, lead to two states that
correspond. -/
def CallsFollow (known : List (String × List String)) (table table' : Bindings Function)
    (rounds depth : Nat) : Prop :=
  ∀ name f, table.get? name = some f → ∃ g, table'.get? name = some g ∧ g.params = [] ∧
    ∀ flow s s' t, Follows known table table' s t →
      inFrame [] (forEach (execWithin rounds depth) f.body) s = .done flow s' →
      ∃ flow' t', inFrame [] (forEach (execWithin rounds depth) g.body) t = .done flow' t' ∧
        Follows known table table' s' t'

/-! ### Statements that are done -/

theorem exec_print_str {source : String} {flow : Flow} {s s' : State} :
    execWithin rounds depth (.print (.str source)) s = .done flow s' ↔
      (∃ n, depth = n + 2) ∧ flow = .next ∧
        s' = { s with output := s.output ++ Escape.text source ++ "\n" } := by
  constructor
  · intro h
    match depth with
    | 0 | 1 => cases h
    | n + 2 =>
      cases h
      exact ⟨⟨n, rfl⟩, rfl, rfl⟩
  · rintro ⟨⟨n, rfl⟩, rfl, rfl⟩
    rfl

/-- Where there are no variables, a name stands for an enum. -/
theorem eval_enum {name : String} {v : Value} {s s' : State} (hlocals : s.locals = [])
    (h : evalWithin rounds depth (.var name) s = .done v s') :
    s = s' ∧ (∃ n, depth = n + 1) ∧
      ∃ cases, s.enums.get? name = some cases ∧ v = .enum name cases := by
  cases depth with
  | zero => cases h
  | succ depth =>
    rw [evalWithin, getVar_done, hlocals] at h
    obtain ⟨rfl, hget | ⟨-, hcases⟩⟩ := h
    · cases hget
    · exact ⟨rfl, ⟨depth, rfl⟩, hcases⟩

theorem exec_print_enum {name : String} {flow : Flow} {s s' : State} (hlocals : s.locals = [])
    (h : execWithin rounds depth (.print (.var name)) s = .done flow s') :
    (∃ n, depth = n + 2) ∧ flow = .next ∧
      ∃ cases, s.enums.get? name = some cases ∧
        s' = { s with output := s.output ++ (Value.enum name cases).text ++ "\n" } := by
  cases depth with
  | zero => cases h
  | succ depth =>
    obtain ⟨_, _, hv, rfl, rfl⟩ := exec_print_done h
    obtain ⟨rfl, ⟨n, rfl⟩, cases, hcases, rfl⟩ := eval_enum hlocals hv
    exact ⟨⟨n, rfl⟩, rfl, cases, hcases, rfl⟩

theorem exec_print_case {name case : String} {flow : Flow} {s s' : State}
    (hlocals : s.locals = [])
    (h : execWithin rounds depth (.print (.index (.var name) (.str case))) s = .done flow s') :
    (∃ n, depth = n + 2) ∧ flow = .next ∧
      s' = { s with output := s.output ++ Escape.text case ++ "\n" } := by
  match depth with
  | 0 | 1 => cases h
  | n + 2 =>
    obtain ⟨v, _, hv, rfl, rfl⟩ := exec_print_done h
    obtain ⟨_, _, _, ha, hb, hat⟩ := eval_index hv
    obtain ⟨rfl, ⟨n, rfl⟩, cases, -, rfl⟩ := eval_enum hlocals ha
    obtain ⟨rfl, rfl⟩ := (pure_done _ _ _ _).mp hb
    simp only [Value.at?] at hat
    split at hat
    · cases hat
      exact ⟨⟨_, rfl⟩, rfl, rfl⟩
    · cases hat

theorem exec_call_nil {name : String} {flow : Flow} {s s' : State} :
    execWithin rounds depth (.expr (.call name [])) s = .done flow s' ↔
      flow = .next ∧ ∃ n f flow', depth = n + 2 ∧ s.functions.get? name = some f ∧
        f.params = [] ∧ inFrame [] (forEach (execWithin rounds n) f.body) s = .done flow' s' := by
  constructor
  · intro h
    match depth with
    | 0 | 1 => cases h
    | n + 2 =>
      simp only [execWithin, evalWithin, mapAll, bind_done, getFunction_done, checkArity_done,
        pure_done] at h
      obtain ⟨_, _, ⟨f, _, ⟨hf, rfl⟩, _, _, ⟨hparams, rfl⟩, _, _, ⟨rfl, rfl⟩, flow', _, hbody, -,
        rfl⟩, rfl, rfl⟩ := h
      have hparams := List.length_eq_zero_iff.mp hparams
      rw [hparams] at hbody
      exact ⟨rfl, n, f, flow', rfl, hf, hparams, hbody⟩
  · rintro ⟨rfl, n, f, flow', rfl, hf, hparams, hbody⟩
    simp only [execWithin, evalWithin, mapAll, bind_done, getFunction_done, checkArity_done,
      pure_done]
    refine ⟨_, s', ⟨f, s, ⟨hf, rfl⟩, (), s, ⟨by rw [hparams]; rfl, rfl⟩, [], s, ⟨rfl, rfl⟩, flow',
      s', ?_, rfl, rfl⟩, trivial, rfl⟩
    rw [hparams]
    exact hbody

theorem locals_of_call {name : String} {flow : Flow} {s s' : State}
    (h : execWithin rounds depth (.expr (.call name [])) s = .done flow s') :
    s'.locals = s.locals := by
  cases depth with
  | zero => cases h
  | succ depth =>
    obtain ⟨v, hv, -⟩ := exec_expr_done h
    exact locals_of_eval hv

/-! ### Steps -/

section Known

variable {callees : Bindings Callee} {enums : Bindings (List String)} {st : Stmt}
  {body : List Stmt} {c : Code} {flow : Flow} {s s' t : State}
  (hplain : ∀ e ∈ known, ∀ case ∈ e.2, Escape.Plain case)
  (henums : ∀ name cases, enums.get? name = some cases → (name, cases) ∈ known)
  (hcalls : ∀ n < depth, CallsFollow known table table' rounds n)
  (hs : Follows known table table' s t) (hlocals : s.locals = [])

include hplain henums hcalls hs hlocals

theorem follows_stmt (hcode : Lower.EnumCode callees enums st c)
    (hst : ∀ e ∈ st.enumeration?, e ∈ known)
    (hrun : execWithin rounds depth st s = .done flow s') :
    flow = .next ∧ s'.locals = [] ∧
      ∃ t', forEach (execWithin rounds depth) (st.resolved enums) t = .done .next t' ∧
        Follows known table table' s' t' := by
  cases hcode with
  | enum name cases =>
    cases depth with
    | zero => cases hrun
    | succ depth =>
      obtain ⟨rfl, rfl⟩ := exec_enum_done hrun
      refine ⟨rfl, hlocals, t, rfl, hs.functions, hs.resolved, ?_, hs.output⟩
      intro other cases' hother
      by_cases heq : name = other
      · subst heq
        rw [Bindings.get?_set_self] at hother
        cases hother
        exact hst _ rfl
      · rw [Bindings.get?_set_of_ne _ _ heq] at hother
        exact hs.enums other cases' hother
  | @whole name cases hcases =>
    obtain ⟨hdepth, rfl, cases', hcases', rfl⟩ := exec_print_enum hlocals hrun
    have hknown := henums name cases hcases
    have htext : Escape.Plain (Value.enum name cases).text :=
      Value.plain_enum name cases (hplain _ hknown)
    refine ⟨rfl, hlocals, { t with output := t.output ++ (Value.enum name cases).text ++ "\n" }, ?_,
      hs.functions, hs.resolved, hs.enums, ?_⟩
    · rw [Stmt.resolved, hcases, forEach_singleton_done, exec_print_str, Option.getD_some,
        htext.text_eq]
      exact ⟨hdepth, rfl, rfl⟩
    · intro hconsistent
      have heq : cases = cases' := hconsistent _ hknown _ (hs.enums name cases' hcases') rfl
      rw [heq, hs.output hconsistent]
  | @case name case cases hcases hmem =>
    obtain ⟨hdepth, rfl, rfl⟩ := exec_print_case hlocals hrun
    refine ⟨rfl, hlocals, { t with output := t.output ++ Escape.text case ++ "\n" }, ?_,
      hs.functions, hs.resolved, hs.enums, ?_⟩
    · rw [Stmt.resolved, forEach_singleton_done, exec_print_str]
      exact ⟨hdepth, rfl, rfl⟩
    · intro hconsistent
      rw [hs.output hconsistent]
  | @call name callee hcallee =>
    have hlocals' := (locals_of_call hrun).trans hlocals
    obtain ⟨rfl, n, f, flow', rfl, hf, -, hbody⟩ := exec_call_nil.mp hrun
    rw [hs.functions] at hf
    obtain ⟨g, hg, hparams, hcall⟩ := hcalls n (by omega) name f hf
    obtain ⟨flow'', t', hbody', hfollows⟩ := hcall flow' s s' t hs hbody
    refine ⟨rfl, hlocals', t', forEach_singleton_done.mpr ?_, hfollows⟩
    exact exec_call_nil.mpr ⟨rfl, n, g, flow'', rfl, by rw [hs.resolved, hg], hparams, hbody'⟩

theorem follows_block (hcode : Lower.EnumsCode callees enums body c)
    (hbody : ∀ e ∈ body.filterMap Stmt.enumeration?, e ∈ known)
    (hrun : forEach (execWithin rounds depth) body s = .done flow s') :
    flow = .next ∧
      ∃ t', forEach (execWithin rounds depth) (Stmt.resolveAll enums body) t = .done .next t' ∧
        Follows known table table' s' t' := by
  induction hcode generalizing s t with
  | nil enums =>
    obtain ⟨rfl, rfl⟩ := (pure_done _ _ _ _).mp hrun
    exact ⟨rfl, t, rfl, hs⟩
  | @cons enums st rest c c' hst hrest ih =>
    have hfirst (e : String × List String) (he : e ∈ st.enumeration?) : e ∈ known :=
      hbody e (List.mem_filterMap.mpr ⟨st, List.mem_cons_self, he⟩)
    simp only [forEach, bind_done] at hrun
    obtain ⟨flow₁, s₁, hrun₁, hrun⟩ := hrun
    obtain ⟨rfl, hlocals₁, t₁, ht₁, hs₁⟩ :=
      follows_stmt hplain henums hcalls hs hlocals hst hfirst hrun₁
    have henums₁ (name : String) (cases : List String)
        (h : (enums.setAll st.enumeration?.toList).get? name = some cases) :
        (name, cases) ∈ known := by
      rcases Bindings.mem_of_get?_setAll h with hmem | hget
      · exact hfirst _ (Option.mem_toList.mp hmem)
      · exact henums name cases hget
    obtain ⟨rfl, t', ht', hs'⟩ := ih henums₁ hs₁ hlocals₁ (fun e he =>
      hbody e (((List.sublist_cons_self st rest).filterMap _).subset he)) hrun
    refine ⟨rfl, t', ?_, hs'⟩
    exact forEach_append_done.mpr ⟨.next, t₁, ht₁, ht'⟩

end Known

end Run

/-! ## Parts of programs -/

namespace Stmt

theorem cases_of_ofEnums {st : Stmt} (hst : st.ofEnums = true) {e : String × List String}
    (he : st.enumeration? = some e) : ∀ case ∈ e.2, Escape.Plain case ∧ NulFree case := by
  cases st with
  | enum name cases =>
    cases he
    simpa [ofEnums] using hst
  | _ => cases he

theorem mem_resolveAll {body : List Stmt} {enums : Bindings (List String)} {st : Stmt}
    (hbody : body.all ofEnums = true) (h : st ∈ resolveAll enums body) :
    (∃ source, st = print (.str source)) ∨ ∃ name, st = expr (.call name []) := by
  induction body generalizing enums with
  | nil => cases h
  | cons first rest ih =>
    rw [List.all_cons, Bool.and_eq_true] at hbody
    rw [resolveAll, List.mem_append] at h
    rcases h with h | h
    · have hfirst := hbody.1
      unfold ofEnums at hfirst
      split at hfirst
      · cases h
      · exact .inl ⟨_, List.mem_singleton.mp h⟩
      · exact .inl ⟨_, List.mem_singleton.mp h⟩
      · exact .inr ⟨_, List.mem_singleton.mp h⟩
      · cases hfirst
    · exact ih hbody.2 h

end Stmt

namespace Program

variable {p : Program} {i : Nat} {name : String} {f : Function}

theorem nodup_functions (p : Program) : (p.functions.map (·.1)).Nodup :=
  Bindings.nodup_setAll [] p.definitions List.nodup_nil

theorem statement_of_function (h : (name, f) ∈ p.functions) :
    .func name f.params f.body ∈ p.statements := by
  have hget := Bindings.get?_of_nodup p.nodup_functions h
  have hmem := (Bindings.mem_of_get?_setAll hget).resolve_right nofun
  obtain ⟨st, hst, hdef⟩ := List.mem_filterMap.mp hmem
  cases st with
  | func name params body =>
    cases hdef
    exact hst
  | _ => cases hdef

theorem ofEnums_function (hp : p.ofEnums = true) (h : (name, f) ∈ p.functions) :
    f.params = [] ∧ f.body.all Stmt.ofEnums = true := by
  have hfunction := List.all_eq_true.mp hp _ (statement_of_function h)
  simpa only [Stmt.ofEnumsTop, Bool.and_eq_true, List.isEmpty_iff] using hfunction

theorem ofEnums_main (hp : p.ofEnums = true) : p.mainStatements.all Stmt.ofEnums = true := by
  rw [List.all_eq_true]
  intro st hst
  obtain ⟨hmem, hmain⟩ := List.mem_filter.mp hst
  have htop := List.all_eq_true.mp hp st hmem
  cases st with
  | func name params body => cases hmain
  | _ => exact htop

theorem enumerations_subset (p : Program) (i : Nat) : p.enumerations i ⊆ p.allEnumerations := by
  unfold allEnumerations enumerations
  rw [List.take_length]
  refine List.append_subset.mpr ⟨List.subset_append_left _ _, ?_⟩
  refine fun e he => List.mem_append_right _ ?_
  obtain ⟨fn, hfn, he⟩ := List.mem_flatMap.mp he
  exact List.mem_flatMap.mpr ⟨fn, List.mem_of_mem_take hfn, he⟩

theorem enumerations_function (h : (name, f) ∈ p.functions) :
    f.enumerations ⊆ p.allEnumerations := by
  unfold allEnumerations enumerations
  rw [List.take_length]
  exact fun e he => List.mem_append_right _ (List.mem_flatMap.mpr ⟨_, h, he⟩)

theorem enumerations_main (p : Program) :
    p.mainStatements.filterMap Stmt.enumeration? ⊆ p.allEnumerations :=
  fun _ he => List.mem_append_left _ (((List.filter_sublist).filterMap _).subset he)

theorem cases_of_enumerations (hp : p.ofEnums = true) :
    ∀ e ∈ p.allEnumerations, ∀ case ∈ e.2, Escape.Plain case ∧ NulFree case := by
  intro e he
  rcases List.mem_append.mp he with he | he
  · obtain ⟨st, hst, hdef⟩ := List.mem_filterMap.mp he
    have htop := List.all_eq_true.mp hp st hst
    cases st with
    | enum name cases =>
      have hst : (Stmt.enum name cases).ofEnums = true := htop
      exact Stmt.cases_of_ofEnums hst hdef
    | _ => cases hdef
  · obtain ⟨⟨name, f⟩, hf, he⟩ := List.mem_flatMap.mp he
    obtain ⟨st, hst, hdef⟩ := List.mem_filterMap.mp he
    have hbody := (ofEnums_function hp (List.mem_of_mem_take hf)).2
    exact Stmt.cases_of_ofEnums (List.all_eq_true.mp hbody st hst) hdef

theorem get?_enumsAt {cases : List String} (h : (p.enumsAt i).get? name = some cases) :
    (name, cases) ∈ p.allEnumerations :=
  p.enumerations_subset i ((Bindings.mem_of_get?_setAll h).resolve_right nofun)

theorem enumsAt_succ (h : p.functions[i]? = some (name, f)) :
    p.enumsAt (i + 1) = (p.enumsAt i).setAll f.enumerations := by
  unfold enumsAt enumerations
  rw [List.take_add_one, h, Option.toList_some, List.flatMap_append, ← List.append_assoc,
    Bindings.setAll_append]
  simp

/-! ## Runs of resolved programs -/

theorem nodup_resolvedFunctions (p : Program) : (p.resolvedFunctions.map (·.1)).Nodup := by
  have hnames : p.resolvedFunctions.map (·.1) = p.functions.map (·.1) := by
    unfold resolvedFunctions
    rw [List.map_map, ← List.zipIdx_map_fst 0 p.functions, List.map_map]
    simp
  rw [hnames]
  exact p.nodup_functions

theorem get?_resolvedFunctions {g : Function} :
    p.resolvedFunctions.get? name = some g ↔
      ∃ i f, p.functions[i]? = some (name, f) ∧ g = ⟨[], Stmt.resolveAll (p.enumsAt i) f.body⟩ := by
  constructor
  · intro h
    obtain ⟨⟨⟨name', f⟩, i⟩, hmem, heq⟩ := List.mem_map.mp (Bindings.mem_of_get? _ _ _ h)
    cases heq
    exact ⟨i, f, List.mem_zipIdx_iff_getElem?.mp hmem, rfl⟩
  · rintro ⟨i, f, hf, rfl⟩
    refine Bindings.get?_of_nodup p.nodup_resolvedFunctions ?_
    exact List.mem_map.mpr ⟨((name, f), i), List.mem_zipIdx_iff_getElem?.mpr hf, rfl⟩

theorem filterMap_resolveAll {α : Type} (hp : p.ofEnums = true) (enums : Bindings (List String))
    (g : Stmt → Option α) (hprint : ∀ source, g (.print (.str source)) = none)
    (hcall : ∀ name, g (.expr (.call name [])) = none) :
    (Stmt.resolveAll enums p.mainStatements).filterMap g = [] := by
  apply List.filterMap_eq_nil_iff.mpr
  intro st hst
  obtain ⟨source, rfl⟩ | ⟨name, rfl⟩ := Stmt.mem_resolveAll (ofEnums_main hp) hst
  · exact hprint source
  · exact hcall name

theorem definitions_resolved (hp : p.ofEnums = true) :
    p.resolved.definitions = p.resolvedFunctions := by
  unfold definitions resolved
  rw [List.filterMap_append, filterMap_resolveAll hp _ _ (fun _ => rfl) (fun _ => rfl),
    List.append_nil, List.filterMap_map]
  exact List.filterMap_some

theorem enumerations_resolved (hp : p.ofEnums = true) :
    p.resolved.statements.filterMap Stmt.enumeration? = [] := by
  unfold resolved
  rw [List.filterMap_append, filterMap_resolveAll hp _ _ (fun _ => rfl) (fun _ => rfl),
    List.append_nil, List.filterMap_map]
  exact List.filterMap_eq_nil_iff.mpr fun _ _ => rfl

theorem mainStatements_resolved (hp : p.ofEnums = true) :
    p.resolved.mainStatements =
      Stmt.resolveAll (p.enumsAt p.functions.length) p.mainStatements := by
  have hfunctions : (p.resolvedFunctions.map fun e => Stmt.func e.1 e.2.params e.2.body).filter
      (fun st => !Lower.isFunction st) = [] := by
    apply List.filter_eq_nil_iff.mpr
    intro st hst
    obtain ⟨e, -, rfl⟩ := List.mem_map.mp hst
    exact Bool.false_ne_true
  change (_ ++ _ : List Stmt).filter _ = _
  rw [List.filter_append, hfunctions, List.nil_append, List.filter_eq_self]
  intro st hst
  obtain ⟨source, rfl⟩ | ⟨name, rfl⟩ := Stmt.mem_resolveAll (ofEnums_main hp) hst <;> rfl

theorem resolved_done (hp : p.ofEnums = true) {fuel : Fuel} {t : State} :
    Run.program fuel p.resolved .initial = .done () t ↔
      Run.forEach (Run.exec fuel) (Stmt.resolveAll (p.enumsAt p.functions.length) p.mainStatements)
        { State.initial with functions := p.resolvedFunctions } = .done .next t := by
  have hfunctions : Bindings.setAll [] p.resolvedFunctions = p.resolvedFunctions :=
    Bindings.setAll_of_nodup [] p.resolvedFunctions p.nodup_resolvedFunctions
  rw [Run.program_done, definitions_resolved hp, enumerations_resolved hp,
    mainStatements_resolved hp, hfunctions]
  rfl

end Program

namespace Lower

variable {p : Program} {d : Declared} {codes : List Code} {sessions : Nat → Session} {l : Asm.Listing}
  {i : Nat}

theorem Bodies.functions (h : Bodies p d codes l) (i : Nat) :
    p.functions[i]? = d.functions[i]?.map fun e => (e.1, e.2.2) := by
  rw [← List.getElem?_map, h.declared.functions]
  rfl

theorem Bodies.length_functions (h : Bodies p d codes l) :
    p.functions.length = d.functions.length := by
  unfold Program.functions
  rw [← h.declared.functions, List.length_map]

theorem Bodies.exists_code (h : Bodies p d codes l) (hi : i ≤ d.functions.length) :
    ∃ code, codes[i]? = some code :=
  ⟨_, List.getElem?_eq_getElem (by rw [h.length]; omega)⟩

theorem Lowered.enumsAt (h : Lowered p d codes sessions) (hbodies : Bodies p d codes l)
    (hp : p.ofEnums = true) (hi : i ≤ d.functions.length) : (sessions i).enums = p.enumsAt i := by
  induction i with
  | zero =>
    have henums := Declared.enums_foldlM p.statements .none d h.declared
    rw [h.start, Program.enumsAt, Program.enumerations, List.take_zero, List.flatMap_nil,
      List.append_nil]
    exact henums
  | succ i ih =>
    obtain ⟨code, hcode⟩ := hbodies.exists_code (Nat.le_of_lt hi)
    have hfunction := List.getElem?_eq_getElem hi
    generalize d.functions[i] = fn at hfunction
    obtain ⟨name, entry, f⟩ := fn
    have hf : p.functions[i]? = some (name, f) := by
      rw [hbodies.functions, hfunction]
      rfl
    obtain ⟨hparams, hbody⟩ := Program.ofEnums_function hp (List.mem_of_getElem? hf)
    have hlowers := h.function i name entry f code hfunction hcode
    rw [(enumsCode_of_function hparams hbody hlowers).2, ih (by omega), Program.enumsAt_succ hf]

theorem Lowered.enumsCode (h : Lowered p d codes sessions) (hbodies : Bodies p d codes l)
    (hp : p.ofEnums = true) {name : String} {f : Function}
    (hf : p.functions[i]? = some (name, f)) :
    ∃ entry code done body, d.functions[i]? = some (name, entry, f) ∧ codes[i]? = some code ∧
      EnumsCode d.session.functions (p.enumsAt i) f.body body ∧
      code = .mark entry :: (prologue ++ (body ++ constant .x0 0 ++ [.mark done]) ++ epilogue) := by
  have hdeclared := hbodies.functions i
  rw [hf] at hdeclared
  obtain ⟨⟨_, entry, _⟩, hfunction, heq⟩ := Option.map_eq_some_iff.mp hdeclared.symm
  obtain ⟨rfl, rfl⟩ := Prod.mk.inj heq.symm
  have hi : i ≤ d.functions.length := Nat.le_of_lt (List.getElem?_eq_some_iff.mp hfunction).1
  obtain ⟨code, hcode⟩ := hbodies.exists_code hi
  obtain ⟨hparams, hbody⟩ := Program.ofEnums_function hp (List.mem_of_getElem? hf)
  obtain ⟨callee, done, body, hcallee, henums, hshape⟩ := (enumsCode_of_function hparams hbody
    (h.function i name entry f code hfunction hcode)).1
  rw [h.functions i hi, h.enumsAt hbodies hp hi] at henums
  have hentry := hbodies.declared.entryOf (List.mem_of_getElem? hfunction)
  rw [Session.entryOf, ← h.functions i hi, hcallee] at hentry
  obtain rfl : callee.entry = entry := Option.some.inj hentry
  exact ⟨_, code, done, body, hfunction, hcode, henums, hshape⟩

theorem Lowered.enumsCode_main (h : Lowered p d codes sessions) (hbodies : Bodies p d codes l)
    (hp : p.ofEnums = true) :
    ∃ done body, codes[d.functions.length]? = some (.entry :: (prologue ++ (body ++
        (constant .x0 0 ++ [.callImport .exit]) ++ [.mark done]) ++ epilogue)) ∧
      EnumsCode d.session.functions (p.enumsAt p.functions.length) p.mainStatements body := by
  obtain ⟨code, hcode⟩ := hbodies.exists_code (Nat.le_refl d.functions.length)
  obtain ⟨session', hmain⟩ := h.main code hcode
  obtain ⟨scope', body, hblock, -, rfl⟩ := mainBody_ok p.statements code _ _ hmain
  have henums := (enumsCode_of_block (Program.ofEnums_main hp) rfl hblock).1
  refine ⟨_, body, hcode, ?_⟩
  rw [← h.functions _ (Nat.le_refl _), hbodies.length_functions,
    ← h.enumsAt hbodies hp (Nat.le_refl _)]
  exact henums

end Lower

namespace Program

open Lower (Bodies Declared Lowered)

variable {p : Program} {d : Declared} {codes : List Code} {l : Asm.Listing}

theorem callsFollow (hbodies : Bodies p d codes l) (hp : p.ofEnums = true) (rounds depth : Nat) :
    Run.CallsFollow p.allEnumerations p.functions p.resolvedFunctions rounds depth := by
  obtain ⟨sessions, hsessions⟩ := hbodies.lowered
  have hplain (e : String × List String) (he : e ∈ p.allEnumerations) (case : String)
      (hcase : case ∈ e.2) : Escape.Plain case := (cases_of_enumerations hp e he case hcase).1
  induction depth using Nat.strongRecOn with
  | ind depth ih =>
    intro name f hf
    have hmem := Bindings.mem_of_get? _ _ _ hf
    obtain ⟨i, hi⟩ := List.mem_iff_getElem?.mp hmem
    obtain ⟨-, -, done, body, -, -, hcode, -⟩ := hsessions.enumsCode hbodies hp hi
    refine ⟨_, get?_resolvedFunctions.mpr ⟨i, f, hi, rfl⟩, rfl, ?_⟩
    intro flow s s' t hs hrun
    obtain ⟨s₁, hrun₁, rfl⟩ := (Run.inFrame_done _ _ _ _ _).mp hrun
    obtain ⟨-, t₁, ht₁, hs₁⟩ := Run.follows_block hplain (fun _ _ => get?_enumsAt) ih hs.enter rfl
      hcode (enumerations_function hmem) hrun₁
    exact ⟨.next, t₁.leave, (Run.inFrame_done _ _ _ _ _).mpr ⟨t₁, ht₁, rfl⟩, hs₁.leave⟩

/-- If a program comes to its end, so does the resolved one. The two print the same if the
definitions of each enum agree. -/
theorem resolved_follows (hbodies : Bodies p d codes l) (hp : p.ofEnums = true) {fuel : Fuel}
    {s : State} (hrun : Run.program fuel p .initial = .done () s) :
    ∃ t, Run.program fuel p.resolved .initial = .done () t ∧
      (p.consistent = true → t.output = s.output) := by
  obtain ⟨sessions, hsessions⟩ := hbodies.lowered
  obtain ⟨done, body, -, hcode⟩ := hsessions.enumsCode_main hbodies hp
  have hfollows : Follows p.allEnumerations p.functions p.resolvedFunctions
      { State.initial with
        functions := Bindings.setAll [] p.definitions
        enums := Bindings.setAll [] (p.statements.filterMap Stmt.enumeration?) }
      { State.initial with functions := p.resolvedFunctions } := by
    refine ⟨rfl, rfl, ?_, fun _ => rfl⟩
    intro name cases hcases
    exact List.mem_append_left _ ((Bindings.mem_of_get?_setAll hcases).resolve_right nofun)
  obtain ⟨-, t, ht, hs⟩ := Run.follows_block
    (fun e he case hcase => (cases_of_enumerations hp e he case hcase).1) (fun _ _ => get?_enumsAt)
    (fun n _ => callsFollow hbodies hp fuel.rounds n) hfollows rfl hcode p.enumerations_main
    (Run.program_done.mp hrun)
  refine ⟨t, (resolved_done hp).mpr ht, fun hconsistent => hs.output ?_⟩
  intro e he e' he'
  have hall := List.all_eq_true.mp (List.all_eq_true.mp hconsistent e he) e' he'
  exact of_decide_eq_true hall

end Program

end Armature
