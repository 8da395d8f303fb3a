import Armature.Proofs.ProgramJson

/-!
# Programs as texts

A program without floats is read back from its text, unless the text opens too many arrays and
objects at once. A program that was read from any text is never nested that deeply.
-/

namespace Armature

/-! ## Numbers and strings of programs -/

namespace Json.Plain

variable {a b c : String} {x y z : Json}

theorem one (hx : x.Plain) : (ofMembers [(a, x)]).Plain := by
  apply Plain.object
  simp [hx]

theorem two (hx : x.Plain) (hy : y.Plain) : (ofMembers [(a, x), (b, y)]).Plain := by
  apply Plain.object
  simp [hx, hy]

theorem three (hx : x.Plain) (hy : y.Plain) (hz : z.Plain) :
    (ofMembers [(a, x), (b, y), (c, z)]).Plain := by
  apply Plain.object
  simp [hx, hy, hz]

theorem texts (texts : List String) : (textsToJson texts).Plain := by
  apply Plain.array
  intro v hv
  obtain ⟨s, -, rfl⟩ := List.mem_map.1 hv
  exact .text s

end Json.Plain

namespace Expr

open Json

mutual

theorem plain_toJson : ∀ e : Expr, e.floatFree = true → e.toJson.Plain
  | int i, _ => .one (.int i.toInt)
  | str s, _ => .one (.text s)
  | bool c, _ => .one (.bool c)
  | nil, _ => .text "nil"
  | var name, _ => .one (.text name)
  | binary op lhs rhs, h => by
    simp only [floatFree, Bool.and_eq_true] at h
    exact .one (.three (.text op.name) (plain_toJson lhs h.1) (plain_toJson rhs h.2))
  | unary op operand, h => .one (.two (.text op.name) (plain_toJson operand h))
  | call name args, h => .one (.two (.text name) (.array _ (plain_listToJson args h)))
  | array items, h => .one (.array _ (plain_listToJson items h))
  | tuple items, h => .one (.array _ (plain_listToJson items h))
  | dict entries, h => .one (.array _ (plain_entriesToJson entries h))
  | index target position, h => by
    simp only [floatFree, Bool.and_eq_true] at h
    exact .one (.two (plain_toJson target h.1) (plain_toJson position h.2))
  | interpolation parts, _ => by
    refine .one (.array _ ?_)
    intro v hv
    obtain ⟨part, -, rfl⟩ := List.mem_map.1 hv
    cases part <;> exact .one (.text _)
  | input prompt, h => .one (plain_toJson prompt h)

theorem plain_listToJson : ∀ es : List Expr, allFloatFree es = true →
    ∀ v ∈ listToJson es, v.Plain
  | [], _ => by simp [listToJson]
  | e :: es, h => by
    simp only [allFloatFree, Bool.and_eq_true] at h
    rw [listToJson, List.forall_mem_cons]
    exact ⟨plain_toJson e h.1, plain_listToJson es h.2⟩

theorem plain_entriesToJson : ∀ entries : List (Expr × Expr), entriesFloatFree entries = true →
    ∀ v ∈ entriesToJson entries, v.Plain
  | [], _ => by simp [entriesToJson]
  | (key, value) :: rest, h => by
    simp only [entriesFloatFree, Bool.and_eq_true] at h
    rw [entriesToJson, List.forall_mem_cons]
    exact ⟨.two (plain_toJson key h.1.1) (plain_toJson value h.1.2), plain_entriesToJson rest h.2⟩

end

end Expr

theorem Range.plain_toJson (range : Range) (h : range.floatFree = true) : range.toJson.Plain := by
  cases range with
  | counted start stop =>
    simp only [floatFree, Bool.and_eq_true] at h
    exact .one (.two (start.plain_toJson h.1) (stop.plain_toJson h.2))
  | collection items => exact .one (items.plain_toJson h)
  | condition test => exact .one (test.plain_toJson h)

namespace Stmt

mutual

theorem plain_toJson : ∀ s : Stmt, s.floatFree = true → s.toJson.Plain
  | print value, h => .one (value.plain_toJson h)
  | decl name value, h => .one (.two (.text name) (value.plain_toJson h))
  | loop var range body, h => by
    simp only [floatFree, Bool.and_eq_true] at h
    exact .one (.three (.text var) (range.plain_toJson h.1) (.array _ (plain_listToJson body h.2)))
  | cond test thenBody none, h => by
    simp only [floatFree, Bool.and_eq_true] at h
    exact .one (.two (test.plain_toJson h.1) (.array _ (plain_listToJson thenBody h.2)))
  | cond test thenBody (some elseBody), h => by
    simp only [floatFree, Bool.and_eq_true] at h
    exact .one (.three (test.plain_toJson h.1.1) (.array _ (plain_listToJson thenBody h.1.2))
      (.array _ (plain_listToJson elseBody h.2)))
  | func name params body, h =>
    .one (.three (.text name) (.texts params) (.array _ (plain_listToJson body h)))
  | ret value, h => .one (value.plain_toJson h)
  | enum name cases, _ => .one (.two (.text name) (.texts cases))
  | tryCatch body handler, h => by
    simp only [floatFree, Bool.and_eq_true] at h
    exact .one (.two (.array _ (plain_listToJson body h.1))
      (.array _ (plain_listToJson handler h.2)))
  | throw value, h => .one (value.plain_toJson h)
  | expr value, h => .one (value.plain_toJson h)

theorem plain_listToJson : ∀ ss : List Stmt, allFloatFree ss = true →
    ∀ v ∈ listToJson ss, v.Plain
  | [], _ => by simp [listToJson]
  | s :: ss, h => by
    simp only [allFloatFree, Bool.and_eq_true] at h
    rw [listToJson, List.forall_mem_cons]
    exact ⟨plain_toJson s h.1, plain_listToJson ss h.2⟩

end

end Stmt

/-! ## Texts -/

namespace Program

open Json

theorem ofJson?_of_read {text : String} {p : Program} (h : Program.read text = .ok p) :
    ∃ json, Json.read? text = some json ∧ ofJson? json = some p := by
  unfold Program.read at h
  split at h
  · cases h
  · rename_i json hjson
    split at h
    · cases h
    · cases h
      exact ⟨json, hjson, ‹_›⟩

theorem read_text (p : Program) (hfree : p.floatFree = true) :
    Program.read p.text = .ok p ↔ ofJson? p.toJson = some p := by
  have hplain : p.toJson.Plain := .one (.array _ (Stmt.plain_listToJson p.statements hfree))
  constructor
  · intro h
    obtain ⟨json, hjson, hp⟩ := ofJson?_of_read h
    rw [Program.text, hplain.read?_text] at hjson
    cases hjson
    exact hp
  · intro h
    simp [Program.read, Program.text, hplain.read?_text, h]

/-- Texts keep programs. A program without floats is read back from its own text, if and only if
that text opens at most 127 arrays and objects at once. The own text of a program that was read
from a text, however that one is spelled, can be read again. -/
theorem read_own_text :
    (∀ p : Program, p.floatFree = true →
      (Program.read p.text = .ok p ↔ p.toJson.depth ≤ 127)) ∧
    ∀ text p, Program.read text = .ok p → p.floatFree = true → Program.read p.text = .ok p := by
  constructor
  · intro p hfree
    rw [read_text p hfree]
    exact ⟨depth_of_ofJson? p.toJson p, ofJson?_toJson p hfree⟩
  · intro text p h hfree
    obtain ⟨json, -, hp⟩ := ofJson?_of_read h
    rw [read_text p hfree]
    exact ofJson?_toJson p hfree (depth_of_ofJson? json p hp)

/-- One of everything that a text could lose. -/
def sampler : Program where
  statements :=
    [.enum "Color" ["Red", "\"Green\""],
      .func "f" ["x", "x"] [.ret (.unary .neg (.var "x"))],
      .decl "low" (.int (-9223372036854775808)),
      .decl "grid" (.dict [(.str "a\\b", .array [.int 0, .nil]), (.bool true, .tuple [])]),
      .loop "i" (.counted (.int 1) (.call "f" [.var "low"]))
        [.cond (.binary .lt (.var "i") (.int 3)) [] none,
          .cond (.bool false) [] (some [])],
      .loop "" (.collection (.index (.var "grid") (.str "\t\x00\x1f\x7f")))
        [.tryCatch [.throw (.str "😀")] [.expr (.input (.str "/"))]],
      .loop "_" (.condition (.bool false)) [],
      .print (.interpolation [.text "low\n", .var "low"])]

/-- A program with blanks, an unknown field, fields by position and escapes. -/
def scribble : String :=
  " \x7b\"x\":[], \"statements\":[\x7b\"var_decl\":[\"a\",\x7b\"nil\":null\x7d]\x7d," ++
    "\x7b\"print\":\x7b\"str\":\"\\u0022\\ud83d\\ude00\"\x7d\x7d]\x7d"

def fairCopy : Program where
  statements := [.decl "a" .nil, .print (.str "\"😀")]

/-- Asks for the text of a prompt, and for the text of the prompt of that. -/
def prompts : Nat → Expr
  | 0 => .nil
  | n + 1 => .input (prompts n)

theorem sampler_read_own_text :
    Program.read sampler.text = .ok sampler ∧
    (Program.read (mk [.print (prompts 124)]).text = .ok ⟨[.print (prompts 124)]⟩ ∧
      Program.read (mk [.print (prompts 125)]).text ≠ .ok ⟨[.print (prompts 125)]⟩) ∧
    Program.read scribble = .ok fairCopy ∧ Program.read fairCopy.text = .ok fairCopy := by
  have hscribble : (Program.read scribble).toOption.map (fun p => (p.floatFree, p.toJson.pretty 0)) =
      some (true, fairCopy.toJson.pretty 0) := by
    decide +kernel
  obtain ⟨hwritten, hread⟩ := read_own_text
  have hcopy := (hwritten fairCopy rfl).2 (by decide)
  have hspelled : Program.read scribble = .ok fairCopy := by
    cases h : Program.read scribble with
    | error e => simp [h, Except.toOption] at hscribble
    | ok p =>
      simp only [h, Except.toOption, Option.map_some, Option.some.injEq, Prod.mk.injEq] at hscribble
      -- Both programs are read back from the same text.
      have hsame := hread scribble p h hscribble.1
      have htext : p.text = fairCopy.text := congrArg String.ofList hscribble.2
      rw [htext, hcopy] at hsame
      exact hsame.symm
  refine ⟨(hwritten sampler rfl).2 (by decide), ⟨?_, ?_⟩, hspelled, hread _ _ hspelled rfl⟩
  · exact (hwritten _ (by decide +kernel)).2 (by decide +kernel)
  · rw [Ne, hwritten _ (by decide +kernel)]
    decide +kernel

end Program

end Armature
