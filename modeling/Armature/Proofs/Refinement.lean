import Armature.Proofs.ControlFlow
import Armature.Proofs.Fuel
import Armature.Proofs.Functions

/-!
# Images of programs on integers

An image prints what the evaluator prints, and exits.
-/

namespace Armature

open Asm (Code Image Label Line Listing)

/-! ## Parts of basic programs -/

/-- The enum that a statement defines. -/
def Stmt.enumeration? : Stmt → Option (String × List String)
  | enum name cases => some (name, cases)
  | _ => none

namespace Program

variable {p : Program}

theorem basic_function (hp : p.basic = true) {name : String} {f : Function}
    (hf : p.function? name = some f) : Stmt.allBasic f.body = true := by
  have hmem := List.mem_reverse.mp (Bindings.mem_of_get? _ _ _ hf)
  obtain ⟨st, hst, hdef⟩ := List.mem_filterMap.mp hmem
  have hbasic := List.all_eq_true.mp hp st hst
  cases st with
  | func name params body =>
    cases hdef
    exact hbasic
  | _ => cases hdef

theorem allBasic_filter (statements : List Stmt) (h : statements.all Stmt.basicTop = true) :
    Stmt.allBasic (statements.filter fun st => !Lower.isFunction st) = true := by
  induction statements with
  | nil => rfl
  | cons st rest ih =>
    rw [List.all_cons, Bool.and_eq_true] at h
    cases st with
    | func name params body => exact ih h.2
    | _ =>
      rw [List.filter_cons_of_pos rfl, Stmt.allBasic, ih h.2, Bool.and_true]
      exact h.1

theorem enumerations_of_basic (hp : p.basic = true) :
    p.statements.filterMap Stmt.enumeration? = [] := by
  apply List.filterMap_eq_nil_iff.mpr
  intro st hst
  have hbasic := List.all_eq_true.mp hp st hst
  cases st with
  | enum name cases => cases hbasic
  | _ => rfl

end Program

namespace Lower

theorem Declared.enums_foldlM (statements : List Stmt) (d d' : Declared)
    (h : statements.foldlM Declared.stmt d = .ok d') :
    d'.enums = d.enums.setAll (statements.filterMap Stmt.enumeration?) := by
  induction statements generalizing d with
  | nil =>
    cases h
    rfl
  | cons st rest ih =>
    rw [List.foldlM_cons, bind_eq_ok] at h
    obtain ⟨d₁, hd₁, h⟩ := h
    rw [ih d₁ h]
    cases st with
    | func name params body =>
      simp only [Declared.stmt] at hd₁
      split at hd₁
      · cases hd₁
      · cases hd₁
        have henums : (d.function name ⟨params, body⟩).enums = d.enums := by
          unfold Declared.function
          split <;> rfl
        rw [henums]
        rfl
    | _ =>
      cases hd₁
      rfl

theorem function_enums {name : String} {f : Function} {c : Code} {s s' : Session}
    (h : function name f s = .ok (c, s')) (hbody : Stmt.allBasic f.body = true)
    (henums : s.enums = []) : s'.enums = [] := by
  obtain ⟨-, s₁, s₂, params, body, -, hparams, hblock, rfl, -⟩ := function_ok name f c s s' h
  obtain ⟨-, frame, rfl⟩ := parameters_ok 0 f.params params _ s₁ hparams
  obtain ⟨hints, -⟩ := Process.parameters_ints hparams Frame.ints_empty
  exact (block_ints f.body body _ s₂ hblock ⟨hints, henums⟩ hbody).1.enums

theorem Lowered.enums {p : Program} {d : Declared} {codes : List Code} {sessions : Nat → Session}
    {l : Listing} (h : Lowered p d codes sessions) (hbodies : Bodies p d codes l)
    (hp : p.basic = true) (i : Nat) (hi : i ≤ d.functions.length) : (sessions i).enums = [] := by
  induction i with
  | zero =>
    rw [h.start]
    rw [Declared.session, Declared.enums_foldlM p.statements .none d h.declared,
      Program.enumerations_of_basic hp]
    rfl
  | succ i ih =>
    have hlt : i < codes.length := by
      rw [hbodies.length]
      omega
    have hfunction := List.getElem?_eq_getElem hi
    generalize d.functions[i] = fn at hfunction
    obtain ⟨name, entry, f⟩ := fn
    have hlowers := h.function i name entry f _ hfunction (List.getElem?_eq_getElem hlt)
    have hbasic := Program.basic_function hp (hbodies.function_at i name entry f hfunction)
    exact function_enums hlowers hbasic (ih (by omega))

end Lower

/-! ## Runs of basic programs -/

/-- What has been printed by a run that came to its end. -/
def Outcome.printed? {α : Type} : Outcome α → Option String
  | done _ s => some s.output
  | _ => none

namespace Run

/-- Before its first statement runs, a program has bound each function and each enum to its last
definition. -/
theorem mapAll_declare (statements : List Stmt) (s : State) :
    ∃ units, mapAll declare statements s = .done units
      { s with
        functions := s.functions.setAll (statements.filterMap Stmt.definition?)
        enums := s.enums.setAll (statements.filterMap Stmt.enumeration?) } := by
  induction statements generalizing s with
  | nil => exact ⟨[], rfl⟩
  | cons st rest ih =>
    have hstep (s₁ : State) (h : declare st s = .done () s₁) :
        ∃ units, mapAll declare (st :: rest) s = .done units
          { s₁ with
            functions := s₁.functions.setAll (rest.filterMap Stmt.definition?)
            enums := s₁.enums.setAll (rest.filterMap Stmt.enumeration?) } := by
      obtain ⟨units, hrest⟩ := ih s₁
      refine ⟨() :: units, ?_⟩
      simp only [mapAll, bind_done, pure_done]
      exact ⟨(), s₁, h, units, _, hrest, rfl, rfl⟩
    cases st with
    | func name params body => exact hstep _ rfl
    | enum name cases => exact hstep _ rfl
    | _ => exact hstep s rfl

theorem forEach_execTop (fuel : Fuel) (statements : List Stmt) :
    forEach (execTop fuel) statements =
      forEach (exec fuel) (statements.filter fun st => !Lower.isFunction st) := by
  induction statements with
  | nil => rfl
  | cons st rest ih =>
    cases st with
    | func name params body => exact ih
    | _ =>
      rw [List.filter_cons_of_pos rfl, forEach, forEach, ih]
      rfl

theorem program_done {fuel : Fuel} {p : Program} {s : State} :
    program fuel p .initial = .done () s ↔
      forEach (exec fuel) p.mainStatements
        { State.initial with
          functions := Bindings.setAll [] p.definitions
          enums := Bindings.setAll [] (p.statements.filterMap Stmt.enumeration?) } =
        .done .next s := by
  obtain ⟨units, hdeclare⟩ := mapAll_declare p.statements .initial
  simp only [program, bind_done]
  constructor
  · rintro ⟨_, _, h₁, flow, _, h₂, h⟩
    rw [hdeclare] at h₁
    cases h₁
    rw [forEach_execTop] at h₂
    cases flow with
    | next =>
      obtain ⟨-, rfl⟩ := (pure_done _ _ _ _).mp h
      exact h₂
    | returned v => cases h
  · intro h
    refine ⟨units, _, hdeclare, .next, s, ?_, rfl⟩
    rw [forEach_execTop]
    exact h

end Run

/-! ## Images -/

namespace Process

open A64 (Machine)
open Lower (Bodies Declared Lowered)

variable {image : Image} {env : Process image} {place : Label → Nat} {p : Program} {d : Declared}
  {codes : List Code} {l : Listing} {callees : Bindings Callee}

theorem installed_body (hbodies : Bodies p d codes l) (hbuilt : image.Built place l.code) {i : Nat}
    {code : Code} (hi : codes[i]? = some code) :
    env.Installed place (Code.start codes i) code := fun q line hline =>
  env.installed_of_built l.code place hbuilt q line (hbodies.located_of_body i code hi q line hline)

theorem linked_of_built (hbodies : Bodies p d codes l) (hbuilt : image.Built place l.code)
    (hp : p.basic = true) :
    env.Linked place (Bindings.setAll [] p.definitions) d.session.functions := by
  intro name g callee hg hcallee
  obtain ⟨sessions, hsessions⟩ := hbodies.lowered
  have hentry : d.session.entryOf name = some callee.entry := by
    rw [Session.entryOf, hcallee]
    rfl
  obtain ⟨i, f, code, hf, hi, hhead⟩ := hbodies.exists_callee name callee.entry hentry
  have hfunction := hbodies.function_at i name callee.entry f hf
  have hg' : p.function? name = some g := by
    rw [Bindings.get?_setAll, Bindings.get?_nil, Option.or_none] at hg
    exact hg
  obtain rfl : f = g := by simpa [hfunction] using hg'
  have hle : i ≤ d.functions.length := Nat.le_of_lt (List.getElem?_eq_some_iff.mp hf).1
  refine ⟨sessions i, sessions (i + 1), code, hsessions.function i name _ f code hf hi,
    hsessions.functions i hle, hsessions.enums hbodies hp i hle, p.basic_function hp hfunction, ?_⟩
  have hinstalled : env.Installed place (Code.start codes i) code :=
    installed_body hbodies hbuilt hi
  obtain ⟨rest, rfl⟩ : ∃ rest, code = .mark callee.entry :: rest := by
    cases code with
    | nil => cases hhead
    | cons first rest =>
      cases hhead
      exact ⟨rest, rfl⟩
  rw [((installed_cons _ _ _ _).mp hinstalled).1.marked callee.entry rfl]
  exact hinstalled

/-- Where execution starts. -/
def start (env : Process image) : BitVec 64 := BitVec.ofNat 64 (env.code + image.entry)

/-- The machine has printed nothing, and its stack has room for so many frames. -/
structure Ready (env : Process image) (frames : Nat) (m : Machine) : Prop where
  aligned : m.sp.toNat % 16 = 0
  room : env.HasRoom frames m
  below : m.sp.toNat ≤ env.stackHigh
  output : m.output = []

theorem start_eq (hbodies : Bodies p d codes l) (hbuilt : image.Built place l.code) :
    env.start = env.pc (Code.start codes d.functions.length) := by
  have hentry := hbuilt.entry
  rw [hbodies.entries_eq] at hentry
  have heq : 4 * Code.start codes d.functions.length = image.entry := Option.some.inj hentry
  rw [start, pc, heq]

theorem Installed.exit {k : Nat} {m : Machine}
    (h : env.Installed place k (Lower.constant .x0 0 ++ [.callImport .exit])) :
    env.Eventually (env.Exits m.output) (env.pc k) m := by
  rw [installed_append, installed_cons] at h
  obtain ⟨hconstant, hcall, -⟩ := h
  refine Eventually.bind (hconstant.constant .x0 0 (by decide)) ?_
  rintro _ _ ⟨rfl, rfl⟩
  refine Eventually.bind hcall.callImport ?_
  rintro _ _ ⟨rfl, rfl⟩
  refine .now ⟨rfl, ?_, rfl⟩
  rw [Machine.get_put_of_ne _ _ _ _ (by decide), Machine.get_put_of_ne _ _ _ _ (by decide),
    Machine.get_put_self _ _ _ (by decide)]

theorem Executes.exits {table : Bindings Function} {f : Frame} {depth k : Nat} {done : Label}
    {body : Code} {s₀ s : State} {m : Machine} (hlocals : s₀.locals = []) (houtput : s₀.output = "")
    (h : env.Executes place table f depth 0 done body s₀ .next s)
    (hk : env.Installed place k (.entry :: (Lower.prologue ++ (body ++ (Lower.constant .x0 0 ++
      [.callImport .exit]) ++ [.mark done]) ++ Lower.epilogue)))
    (hm : env.Ready (depth + 1) m) :
    env.Eventually (env.Exits (Bytes.ofText s.output)) (env.pc k) m := by
  have hcode : Line.entry :: (Lower.prologue ++ (body ++ (Lower.constant .x0 0 ++
      [.callImport .exit]) ++ [.mark done]) ++ Lower.epilogue) =
      .entry :: (Lower.prologue ++ (body ++ ((Lower.constant .x0 0 ++ [.callImport .exit]) ++
        (.mark done :: Lower.epilogue)))) := by
    simp
  rw [hcode, installed_cons, installed_append, installed_append, installed_append] at hk
  obtain ⟨-, hprologue, hbody, hexit, -⟩ := hk
  have hbytes : frameBytes = 2208 := rfl
  have hroom := hm.room.succ
  refine Eventually.bind (hprologue.prologue hm.aligned (by omega) hm.below) ?_
  rintro _ m₁ ⟨rfl, hframe, hsp, -, -, hout⟩
  have hm₁ : m₁.output = Bytes.ofText s₀.output := by
    rw [hout, hm.output, houtput, Bytes.ofText_empty]
  refine Eventually.bind (h.code _ m₁ _ ⟨hframe, by simp [hlocals], hm₁⟩ hsp
    (by unfold HasRoom; omega) hbody) ?_
  rintro _ m₂ ⟨rfl, -, hm₂, -⟩
  rw [← hm₂.output]
  exact hexit.exit

theorem main_exits (hlinked : env.Linked place (Bindings.setAll [] p.definitions) callees)
    (hp : p.basic = true) {fuel : Fuel} {s : State}
    (hrun : Run.program fuel p .initial = .done () s) {session session' : Session} {code : Code}
    {k : Nat} (hmain : Lower.mainBody p.statements session = .ok (code, session'))
    (hcallees : session.functions = callees) (henums : session.enums = [])
    (hk : env.Installed place k code) {m : Machine} (hm : env.Ready (fuel.depth + 1) m) :
    env.Eventually (env.Exits (Bytes.ofText s.output)) (env.pc k) m := by
  obtain ⟨scope', body, hbody, -, rfl⟩ := Lower.mainBody_ok p.statements code _ _ hmain
  have hbasic : Stmt.allBasic p.mainStatements = true := Program.allBasic_filter p.statements hp
  obtain ⟨hscope', -⟩ := Lower.block_ints p.mainStatements body _ scope' hbody
    ⟨Frame.ints_empty, henums⟩ hbasic
  have hrun' := Run.program_done.mp hrun
  rw [Program.enumerations_of_basic hp] at hrun'
  have hexec : env.Executes place _ scope'.frame fuel.depth 0 (session.enter false).done body _
      .next s :=
    executes_block (all_execute hlinked fuel.depth).2 hbasic hbody hcallees (fun _ h => by cases h)
      ⟨Frame.ints_empty, henums⟩ hscope'.frame (.refl _) ⟨by simp [State.initial], rfl, rfl⟩ hrun'
  exact hexec.exits rfl rfl hk hm

theorem exists_ready (image : Image) (frames : Nat) (hframes : frames ≤ 2 ^ 16)
    (hcode : image.code.size ≤ 2 ^ 32) (hstrings : image.constants.strings.length ≤ 2 ^ 32)
    (hdoubles : image.constants.doubles.length ≤ 2 ^ 32) :
    ∃ (env : Process image) (m : Machine), env.Ready frames m := by
  obtain ⟨env, hlow, hhigh⟩ := exists_process image hcode hstrings hdoubles
  let m : Machine :=
    { x := fun _ => BitVec.ofNat 64 (2 ^ 40)
      d := fun _ => .zero false
      flags := ⟨false, false, false, false⟩
      stack := fun _ => 0
      output := [] }
  have hsp : m.sp.toNat = 2 ^ 40 := toNat_address _ (by decide)
  have hbytes : frameBytes = 2208 := rfl
  have hstack : frameBytes * frames ≤ frameBytes * 2 ^ 16 := Nat.mul_le_mul_left _ hframes
  refine ⟨env, m, by omega, ?_, by omega, rfl⟩
  unfold HasRoom
  omega

end Process

/-- The image of a program on integers prints what the evaluator prints, and exits with status
zero. The stack that it takes for this is a frame for each level of evaluation and one more. -/
theorem image_refines (p : Program) (hp : p.basic = true) (image : Image)
    (himage : p.image = .ok image) (fuel : Fuel) (s : State)
    (hrun : Run.program fuel p .initial = .done () s) (env : Process image) (m : A64.Machine)
    (hm : env.Ready (fuel.depth + 1) m) :
    env.Eventually (env.Exits (Bytes.ofText s.output)) env.start m := by
  obtain ⟨l, d, codes, place, -, hbodies, hbuilt⟩ := Lower.image_built p image himage
  obtain ⟨sessions, hsessions⟩ := hbodies.lowered
  have hlt : d.functions.length < codes.length := by
    rw [hbodies.length]
    omega
  have hcode := List.getElem?_eq_getElem hlt
  obtain ⟨session', hmain⟩ := hsessions.main _ hcode
  rw [Process.start_eq hbodies hbuilt]
  exact Process.main_exits (Process.linked_of_built hbodies hbuilt hp) hp hrun hmain
    (hsessions.functions _ (Nat.le_refl _)) (hsessions.enums hbodies hp _ (Nat.le_refl _))
    (Process.installed_body hbodies hbuilt hcode) hm

/-- The image of the program is small enough for any process. -/
def Program.small (p : Program) : Bool :=
  p.lower.toOption.any fun l => decide (4 * Code.size l.code ≤ 2 ^ 20 ∧
    l.code.pool.freeze.strings.length ≤ 2 ^ 32 ∧ l.code.pool.freeze.doubles.length ≤ 2 ^ 32)

theorem Program.exists_ready {p : Program} (hp : p.small = true) (frames : Nat)
    (hframes : frames ≤ 2 ^ 16) :
    ∃ image, p.image = .ok image ∧
      ∃ (env : Process image) (m : A64.Machine), env.Ready frames m := by
  obtain ⟨l, hlower, hsize, hstrings, hdoubles⟩ := exists_ok hp
  obtain ⟨image, himage⟩ := Lower.exists_image p l hlower hsize
  obtain ⟨l', d, codes, place, hlower', -, hbuilt⟩ := Lower.image_built p image himage
  obtain rfl : l = l' := by simpa [hlower] using hlower'
  have hcode : image.code.size = 4 * Code.size l.code := by
    rw [hbuilt.code, Buffer.size_ofWords, List.length_map, Code.length_instrs]
  exact ⟨image, himage, Process.exists_ready image frames hframes (by omega)
    (by rw [hbuilt.constants]; exact hstrings) (by rw [hbuilt.constants]; exact hdoubles)⟩

theorem Run.done_of_printed {p : Program} {fuel : Fuel} {text : String}
    (h : (Run.program fuel p .initial).printed? = some text) :
    ∃ s, Run.program fuel p .initial = .done () s ∧ s.output = text := by
  cases hrun : Run.program fuel p .initial with
  | done _ s =>
    rw [hrun] at h
    exact ⟨s, rfl, Option.some.inj h⟩
  | failed e s =>
    rw [hrun] at h
    cases h
  | outOfFuel =>
    rw [hrun] at h
    cases h

/-- Two functions that call each other, and a loop that tells the even numbers from the others. -/
def parity : Program where
  statements :=
    [.func "even" ["n"]
        [.cond (.binary .eq (.var "n") (.int 0)) [.ret (.int 1)] none,
          .ret (.call "odd" [.binary .sub (.var "n") (.int 1)])],
      .func "odd" ["n"]
        [.cond (.binary .eq (.var "n") (.int 0)) [.ret (.int 0)] none,
          .ret (.call "even" [.binary .sub (.var "n") (.int 1)])],
      .loop "i" (.counted (.int 0) (.int 3))
        [.cond (.binary .eq (.call "even" [.var "i"]) (.int 1)) [.print (.var "i")]
          (some [.print (.binary .gt (.var "i") (.int 1))])]]

theorem parity_refined :
    ∃ image, parity.image = .ok image ∧ ∃ (env : Process image) (m : A64.Machine),
      env.Ready 13 m ∧ env.Eventually (env.Exits (Bytes.ofText "0\nfalse\n2\n")) env.start m := by
  have hsmall : parity.small = true := by decide +kernel
  obtain ⟨image, himage, env, m, hm⟩ := Program.exists_ready hsmall 13 (by decide)
  obtain ⟨s, hrun, hout⟩ : ∃ s, Run.program ⟨12, 4⟩ parity .initial = .done () s ∧
      s.output = "0\nfalse\n2\n" := Run.done_of_printed (by decide +kernel)
  refine ⟨image, himage, env, m, hm, ?_⟩
  rw [← hout]
  exact image_refines parity (by decide +kernel) image himage ⟨12, 4⟩ s hrun env m hm

end Armature
