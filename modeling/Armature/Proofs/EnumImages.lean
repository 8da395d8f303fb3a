import Armature.Proofs.Enums

/-!
# Images of programs of enums

The image of a program of enums prints what the resolved program prints. It prints what the program
itself prints exactly if the two are the same.
-/

namespace Armature

open A64 (Machine XReg)
open Asm (Code Image Label Line Listing)
open Lower (Bodies Declared EnumCode EnumsCode)

namespace Process

variable {image : Image} {env : Process image} {place : Label → Nat}

/-! ## Code of enums -/

theorem formatted?_twice {argument? : Nat → Option (BitVec 64)} {w : BitVec 64}
    {before text between after : String} (hbefore : NulFree before) (hbetween : NulFree between)
    (hafter : NulFree after) (hfirst : argument? 0 = some w) (hsecond : argument? 1 = some w)
    (htext : env.string? w = some (Bytes.ofText text)) :
    env.formatted? argument? 0 ((Bytes.ofText (percentDoubled before ++ "%s" ++
        percentDoubled between ++ "%s" ++ percentDoubled after)).takeWhile (· ≠ 0)) =
      some (Bytes.ofText (before ++ text ++ between ++ text ++ after)) := by
  have hconversion : NulFree "%s" := by decide
  have hstring : Bytes.ofText "%s" = [0x25, 0x73] := by decide +kernel
  rw [((((hbefore.percentDoubled.append hconversion).append hbetween.percentDoubled).append
    hconversion).append hafter.percentDoubled).takeWhile]
  simp only [Bytes.ofText_append, List.append_assoc, formatted?_text]
  simp [hstring, formatted?, hfirst, hsecond, htext, formatted?_text, formatted?_lastText]

section Pieces

variable {k base i total : Nat} {m : Machine} {words : Slot → BitVec 64} {writes : List Slot}

theorem Installed.printTwice {format : String} {text : Bytes}
    (h : env.Installed place k
      (.instr (.strX .x0 .sp 0) :: .instr (.strX .x0 .sp 8) :: Lower.printf format))
    (hframe : env.InFrame base m)
    (htext : ∀ argument? : Nat → Option (BitVec 64), argument? 0 = some (m.get .x0) →
      argument? 1 = some (m.get .x0) →
      env.formatted? argument? 0 ((Bytes.ofText format).takeWhile (· ≠ 0)) = some text) :
    env.Leads (env.pc k) m (env.pc (k + 1 + 1 + Code.size (Lower.printf format)))
      (Printed m text) := by
  simp only [installed_cons] at h
  obtain ⟨hstore₀, hstore₁, hprintf⟩ := h
  refine (hstore₀.instr (by simp [A64.Instr.Fits]) (perform?_storeArgument hframe (i := 0)
    (by decide))).trans ?_
  rintro _ rfl
  generalize hm₁ : m.store (m.sp.toNat + 8 * 0) (m.get .x0) = m₁
  have hframe₁ : env.InFrame base m₁ := by
    subst hm₁
    exact hframe.congr rfl rfl
  have hx0 : m₁.get .x0 = m.get .x0 := by rw [← hm₁]; rfl
  have hsp₁ : m₁.sp = m.sp := by rw [← hm₁]; rfl
  refine (hstore₁.instr (by simp [A64.Instr.Fits]) (perform?_storeArgument hframe₁ (i := 1)
    (by decide))).trans ?_
  rintro _ rfl
  generalize hm₂ : m₁.store (m₁.sp.toNat + 8 * 1) (m₁.get .x0) = m₂
  have hframe₂ : env.InFrame base m₂ := by
    subst hm₂
    exact hframe₁.congr rfl rfl
  have hsp₂ : m₂.sp = m.sp := by rw [← hsp₁, ← hm₂]; rfl
  have hstack (a : Nat) : m₂.stack a =
      if a = m.sp.toNat + 8 * 1 then m.get .x0 else if a = m.sp.toNat + 8 * 0 then m.get .x0
        else m.stack a := by
    rw [← hm₂, Machine.stack_store, hsp₁, hx0, ← hm₁, Machine.stack_store]
  have harguments (j : Nat) (hj : j = 0 ∨ j = 1) : env.argument? m₂ j = some (m.get .x0) := by
    rw [argument?_stack hframe₂ (by omega), hsp₂, hstack]
    rcases hj with rfl | rfl <;> simp
  refine (hprintf.printf hframe₂.aligned (htext _ (harguments 0 (.inl rfl))
    (harguments 1 (.inr rfl)))).mono ?_
  rintro m' ⟨hsaved, hsp', hstack', houtput⟩
  rw [hsp₂] at hsp' hstack'
  have hregs : m₂.x = m.x := by rw [← hm₂, ← hm₁]; rfl
  have hout : m₂.output = m.output := by rw [← hm₂, ← hm₁]; rfl
  refine ⟨by rw [← hregs]; exact hsaved, hsp', ?_, by rw [← hout]; exact houtput⟩
  intro a ha
  rw [hstack' a ha, hstack, if_neg (by omega), if_neg (by omega)]

/-- The lines that print a case as its own key. -/
def caseCode (case before after : String) : Code :=
  .address .x0 (Escape.bytes case) :: .instr (.strX .x0 .sp 0) :: .instr (.strX .x0 .sp 8)
    :: Lower.printf (before ++ "\"%s\": %s" ++ after)

theorem prints_case {case before after : String} (hplain : Escape.Plain case)
    (hcase : NulFree case) (hbefore : NulFree before) (hafter : NulFree after)
    (hpercent : percentDoubled before = before) (hpercent' : percentDoubled after = after) :
    env.Prints place base words writes (caseCode case before after)
      (before ++ (Value.quote case ++ ": " ++ case) ++ after) := by
  intro k m hk hm hsp _
  rw [caseCode, installed_cons] at hk
  obtain ⟨a, hstring, haddress⟩ := hk.1.address (by decide)
  have hformat : before ++ "\"%s\": %s" ++ after = percentDoubled (before ++ "\"") ++ "%s" ++
      percentDoubled "\": " ++ "%s" ++ percentDoubled after := by
    have hinner : "\"%s\": %s" = percentDoubled "\"" ++ "%s" ++ percentDoubled "\": " ++ "%s" := rfl
    rw [percentDoubled_append, hpercent, hpercent', hinner]
    simp only [String.append_assoc]
  have htext : before ++ (Value.quote case ++ ": " ++ case) ++ after =
      (before ++ "\"") ++ case ++ "\": " ++ case ++ after := by
    have hcolon : "\": " = "\"" ++ ": " := rfl
    simp only [Value.quote, hcolon, String.append_assoc]
  have hwritten : env.string? a = some (Bytes.ofText case) := by
    rw [hstring.string?, Escape.bytes_eq, hplain.text_eq, hcase.takeWhile]
  rw [htext]
  refine (haddress m).trans ?_
  rintro _ rfl
  have hquiet : m.Quiet 9 (m.put .x0 a) :=
    Machine.quiet_put 9 m .x0 a (Machine.not_survives_of_lt 9 _ (by decide))
  have hx0 : (m.put .x0 a).get .x0 = a := m.get_put_self .x0 a (by decide)
  have hwrites (argument? : Nat → Option (BitVec 64))
      (hfirst : argument? 0 = some ((m.put .x0 a).get .x0))
      (hsecond : argument? 1 = some ((m.put .x0 a).get .x0)) :
      env.formatted? argument? 0 ((Bytes.ofText (before ++ "\"%s\": %s" ++ after)).takeWhile
        (· ≠ 0)) = some (Bytes.ofText ((before ++ "\"") ++ case ++ "\": " ++ case ++ after)) := by
    rw [hx0] at hfirst hsecond
    rw [hformat]
    exact formatted?_twice (hbefore.append (by decide)) (by decide) hafter hfirst hsecond hwritten
  refine ((hk.2.printTwice (hm.quiet hquiet) hwrites).mono ?_).cast ?_
  · intro m' hm'
    exact .ofPrinted (hm'.ofQuiet hquiet rfl) hsp
  · simp only [caseCode, Code.size_cons, Nat.add_assoc]
    rfl

theorem prints_cases {cases : List String}
    (hcases : ∀ case ∈ cases, Escape.Plain case ∧ NulFree case) (hne : cases ≠ [])
    (htotal : i + cases.length = total) :
    env.Prints place base words writes
      ((cases.zipIdx i).flatMap fun e => caseCode e.1 (Lower.opening "\x7b" e.2)
        (if e.2 + 1 = total then "\x7d\n" else ""))
      (Lower.opened "\x7b" i (cases.map fun c => Value.quote c ++ ": " ++ c) ++ "\x7d\n") := by
  induction cases generalizing i with
  | nil => exact absurd rfl hne
  | cons case rest ih =>
    obtain ⟨hplain, hcase⟩ := hcases case List.mem_cons_self
    have hopening : percentDoubled (Lower.opening "\x7b" i) = Lower.opening "\x7b" i := by
      unfold Lower.opening
      split <;> rfl
    have hpart (after : String) (hafter : NulFree after) (hpercent : percentDoubled after = after) :
        env.Prints place base words writes (caseCode case (Lower.opening "\x7b" i) after)
          (Lower.opening "\x7b" i ++ (Value.quote case ++ ": " ++ case) ++ after) :=
      prints_case hplain hcase (Lower.nulFree_opening (by decide) i) hafter hopening hpercent
    rw [List.zipIdx_cons, List.flatMap_cons, List.map_cons, Lower.opened]
    rw [List.length_cons] at htotal
    cases rest with
    | nil =>
      have hlast : i + 1 = total := htotal
      simpa [hlast, Lower.opened] using hpart "\x7d\n" (by decide) rfl
    | cons next rest =>
      have hmore : i + 1 ≠ total := by
        rw [List.length_cons] at htotal
        omega
      have hrest := ih (fun case hcase => hcases case (List.mem_cons_of_mem _ hcase))
        (List.cons_ne_nil _ _) (show i + 1 + (next :: rest).length = total by omega)
      have hall := (hpart "" (by decide) rfl).append hrest
      rw [String.append_empty, ← String.append_assoc] at hall
      simpa only [if_neg hmore] using hall

theorem prints_enum (name : String) {cases : List String}
    (hcases : ∀ case ∈ cases, Escape.Plain case ∧ NulFree case) :
    env.Prints place base words writes (Lower.printEnum cases)
      ((Value.enum name cases).text ++ "\n") := by
  cases cases with
  | nil => exact prints_text (by decide)
  | cons case rest =>
    have htext : (Value.enum name (case :: rest)).text ++ "\n" =
        Lower.opened "\x7b" 0 ((case :: rest).map fun c => Value.quote c ++ ": " ++ c) ++
          "\x7d\n" := by
      rw [List.map_cons, Lower.opened_zero, Value.text, Value.render, String.append_assoc]
      rfl
    rw [htext]
    exact prints_cases hcases (List.cons_ne_nil _ _) (Nat.zero_add _)

theorem prints_caseLine {case : String} (hcase : NulFree (Escape.text case)) :
    env.Prints place base words writes
      (.address .x0 (Escape.bytes case) :: Lower.printLine .string) (Escape.text case ++ "\n") := by
  intro k m hk hm hsp _
  rw [installed_cons] at hk
  obtain ⟨a, hstring, haddress⟩ := hk.1.address (by decide)
  refine (haddress m).trans ?_
  rintro _ rfl
  have hquiet : m.Quiet 9 (m.put .x0 a) :=
    Machine.quiet_put 9 m .x0 a (Machine.not_survives_of_lt 9 _ (by decide))
  have hx0 : (m.put .x0 a).get .x0 = a := m.get_put_self .x0 a (by decide)
  rw [Escape.bytes_eq] at hstring
  have hencodes : env.Encodes .string ((m.put .x0 a).get .x0) (.str (Escape.text case)) := by
    rw [hx0]
    exact hstring
  have hline : Lower.printLine .string = Lower.storeArgument .string 0 ++
      Lower.printf (percentDoubled "" ++ Lower.conversion .string ++ percentDoubled "\n") := rfl
  rw [hline] at hk ⊢
  refine ((hk.2.printBetween (hm.quiet hquiet) hencodes hcase (by decide) (by decide)).mono ?_).cast
    (by rw [Code.size_cons, ← Nat.add_assoc])
  intro m' hm'
  rw [String.empty_append] at hm'
  exact .ofPrinted (hm'.ofQuiet hquiet rfl) hsp

end Pieces

/-! ## Resolved statements -/

section Statements

variable {table : Bindings Function} {callees : Bindings Callee}
  {enums : Bindings (List String)} {f : Frame} {rounds depth : Nat} {done : Label} {st : Stmt}
  {body : List Stmt} {c : Code} {flow : Flow} {t t' : State}

theorem executes_of_prints {room used : Nat} {text : String} (ht : t.Fits table f)
    (h : ∀ base words, env.Prints place base words [] c text) :
    env.Executes place table f room used done c t .next { t with output := t.output ++ text } where
  fits := ht.of_locals rfl rfl rfl
  kind v hv := by cases hv
  code base m k hm hsp _ hk := by
    refine (h base (m.slots base) k m hk hm.frame hsp fun _ _ => rfl).mono ?_
    intro m' hm'
    have hprinted : Printed m (Bytes.ofText text) m' :=
      ⟨hm'.saved, hm'.sp, fun a ha => hm'.stack a (hsp ▸ ha) (by simp), hm'.output⟩
    obtain ⟨hrepresents, hsteady⟩ := hm.printed hsp hprinted
    exact ⟨trivial, hrepresents, hsteady⟩

theorem size_reserve (cases : List String) :
    Code.size (cases.map fun case => .reserve (Escape.bytes case)) = 0 := by
  induction cases with
  | nil => rfl
  | cons case rest ih =>
    rw [List.map_cons, Code.size_cons, ih]
    rfl

theorem executes_reserve {room used : Nat} (cases : List String) (ht : t.Fits table f) :
    env.Executes place table f room used done
      (cases.map fun case => .reserve (Escape.bytes case)) t .next t where
  fits := ht
  kind v hv := by cases hv
  code base m k hm _ _ _ := by
    rw [size_reserve]
    exact .refl ⟨trivial, hm, .refl f used base m⟩

theorem Executes.returns_nil {used : Nat} {entry : Label}
    (h : env.Executes place table f depth used done c (t.enter []) flow t')
    (hfunctions : t.functions = table) (henums : t.enums = [])
    (hk : env.Installed place (place entry) (.mark entry :: (Lower.prologue ++ (c ++
      Lower.constant .x0 0 ++ [.mark done]) ++ Lower.epilogue))) :
    env.Returns (depth + 1) (env.pc (place entry)) t [] (Run.result flow) t'.leave := by
  have hbind (base : Nat) (m : Machine) (k : Nat) (hm : env.Represents f base (t.enter []) m)
      (_ : env.Installed place k [])
      (_ : ∀ (j : Nat) v, ([] : List Value)[j]? = some v →
        m.x (XReg.argument (0 + j)).num = v.word) :
      env.Leads (env.pc k) m (env.pc (k + Code.size [])) fun m' =>
        env.Represents f base (t.enter []) m' ∧ Steady f 0 base m m' :=
    .refl ⟨hm, .refl f 0 base m⟩
  exact h.returns (by decide) hfunctions henums hbind hk

variable (hplain : ∀ name cases, enums.get? name = some cases →
    ∀ case ∈ cases, Escape.Plain case ∧ NulFree case)
  (hcalls : ∀ n < depth, CallsReturn env place table callees rounds n)
  (ht : t.Fits table f)

include hplain hcalls ht

theorem executes_enumCode (hcode : EnumCode callees enums st c)
    (hrun : Run.forEach (Run.execWithin rounds depth) (st.resolved enums) t = .done flow t') :
    flow = .next ∧ env.Executes place table f depth 0 done c t .next t' := by
  cases hcode with
  | enum name cases =>
    obtain ⟨rfl, rfl⟩ := (Run.pure_done _ _ _ _).mp hrun
    exact ⟨rfl, executes_reserve cases ht⟩
  | @whole name cases hcases =>
    have htext : Escape.Plain (Value.enum name cases).text :=
      Value.plain_enum name cases fun case hcase => (hplain name cases hcases case hcase).1
    rw [Stmt.resolved, hcases, Option.getD_some, Run.forEach_singleton_done, Run.exec_print_str,
      htext.text_eq, String.append_assoc] at hrun
    obtain ⟨-, rfl, rfl⟩ := hrun
    exact ⟨rfl, executes_of_prints ht fun base words => prints_enum name (hplain name cases hcases)⟩
  | @case name case cases hcases hmem =>
    obtain ⟨hcase, hnul⟩ := hplain name cases hcases case hmem
    rw [Stmt.resolved, Run.forEach_singleton_done, Run.exec_print_str, String.append_assoc] at hrun
    obtain ⟨-, rfl, rfl⟩ := hrun
    refine ⟨rfl, executes_of_prints ht fun base words => prints_caseLine ?_⟩
    rw [hcase.text_eq]
    exact hnul
  | @call name callee hcallee =>
    have hexec : Run.execWithin rounds depth (.expr (.call name [])) t = .done flow t' :=
      Run.forEach_singleton_done.mp hrun
    obtain ⟨rfl, n, g, flow', rfl, hg, hparams, hbody⟩ := Run.exec_call_nil.mp hexec
    rw [ht.functions] at hg
    have hreturns := hcalls n (by omega) name g callee [] flow' t t' hg hcallee
      (by rw [hparams]; rfl) (by decide) (by simp) ht.functions ht.enums
      (by rw [hparams]; exact hbody)
    have hcomputes := (stages_nil ht).call (d := 0) (by decide) (by decide) hreturns
      (Run.locals_of_call hexec)
    exact ⟨rfl, hcomputes.execute.mono⟩

theorem executes_enumsCode (hcode : EnumsCode callees enums body c)
    (hbody : body.all Stmt.ofEnums = true)
    (hrun : Run.forEach (Run.execWithin rounds depth) (Stmt.resolveAll enums body) t =
      .done flow t') :
    flow = .next ∧ env.Executes place table f depth 0 done c t .next t' := by
  induction hcode generalizing t with
  | nil enums =>
    obtain ⟨rfl, rfl⟩ := (Run.pure_done _ _ _ _).mp hrun
    exact ⟨rfl, executes_nil ht⟩
  | @cons enums st rest c c' hst hrest ih =>
    rw [List.all_cons, Bool.and_eq_true] at hbody
    obtain ⟨flow₁, t₁, hrun₁, hrun⟩ := Run.forEach_append_done.mp hrun
    obtain ⟨rfl, hexec₁⟩ := executes_enumCode hplain hcalls ht hst hrun₁
    have hplain₁ (name : String) (cases : List String)
        (h : (enums.setAll st.enumeration?.toList).get? name = some cases) :
        ∀ case ∈ cases, Escape.Plain case ∧ NulFree case := by
      rcases Bindings.mem_of_get?_setAll h with hmem | hget
      · exact Stmt.cases_of_ofEnums hbody.1 (Option.mem_toList.mp hmem)
      · exact hplain name cases hget
    obtain ⟨rfl, hexec⟩ := ih hplain₁ hexec₁.fits hbody.2 hrun
    exact ⟨rfl, hexec₁.append hexec (Nat.le_refl _)⟩

end Statements

/-! ## Images -/

section Images

variable {p : Program} {d : Declared} {codes : List Code} {l : Listing} {rounds depth : Nat}
  (hbodies : Bodies p d codes l) (hbuilt : image.Built place l.code) (hp : p.ofEnums = true)

include hbodies hbuilt hp

theorem callsReturn_resolved :
    CallsReturn env place p.resolvedFunctions d.session.functions rounds depth := by
  obtain ⟨sessions, hsessions⟩ := hbodies.lowered
  induction depth using Nat.strongRecOn with
  | ind depth ih =>
    intro name g callee args flow t t' hg hcallee hlen _ _ hfunctions henums hrun
    have hentry : d.session.entryOf name = some callee.entry := by
      rw [Session.entryOf, hcallee]
      rfl
    obtain ⟨i, f, _, hdeclared, -, -⟩ := hbodies.exists_callee name callee.entry hentry
    have hf : p.functions[i]? = some (name, f) := by
      rw [hbodies.functions, hdeclared]
      rfl
    have hresolved := Program.get?_resolvedFunctions.mpr ⟨i, f, hf, rfl⟩
    rw [hg] at hresolved
    cases hresolved
    obtain rfl : args = [] := List.length_eq_zero_iff.mp hlen.symm
    obtain ⟨entry, code, done, body, hdeclared', hcode, henumsCode, rfl⟩ :=
      hsessions.enumsCode hbodies hp hf
    rw [hdeclared] at hdeclared'
    cases hdeclared'
    have hinstalled : env.Installed place (Code.start codes i) _ :=
      installed_body hbodies hbuilt hcode
    rw [← ((installed_cons _ _ _ _).mp hinstalled).1.marked callee.entry rfl] at hinstalled
    obtain ⟨t₁, hrun₁, rfl⟩ := (Run.inFrame_done _ _ _ _ _).mp hrun
    have hfits : (t.enter []).Fits p.resolvedFunctions .empty :=
      ⟨by simp [State.enter], hfunctions, henums⟩
    have hcases := Program.cases_of_enumerations hp
    obtain ⟨rfl, hexec⟩ : flow = .next ∧ env.Executes place p.resolvedFunctions .empty depth 0 done
        body (t.enter []) .next t₁ :=
      executes_enumsCode (fun _ _ h => hcases _ (Program.get?_enumsAt h)) ih hfits henumsCode
        (Program.ofEnums_function hp (List.mem_of_getElem? hf)).2 hrun₁
    exact hexec.returns_nil hfunctions henums hinstalled

theorem resolved_exits {fuel : Fuel} {t : State}
    (ht : Run.program fuel p.resolved .initial = .done () t) {m : Machine}
    (hm : env.Ready (fuel.depth + 1) m) :
    env.Eventually (env.Exits (Bytes.ofText t.output)) env.start m := by
  obtain ⟨sessions, hsessions⟩ := hbodies.lowered
  obtain ⟨done, body, hcode, henumsCode⟩ := hsessions.enumsCode_main hbodies hp
  have hfits : State.Fits p.resolvedFunctions .empty
      { State.initial with functions := p.resolvedFunctions } :=
    ⟨by simp [State.initial], rfl, rfl⟩
  have hcases := Program.cases_of_enumerations hp
  have hexec : env.Executes place p.resolvedFunctions .empty fuel.depth 0 done body _ .next t :=
    (executes_enumsCode (fun _ _ h => hcases _ (Program.get?_enumsAt h))
      (fun n _ => callsReturn_resolved hbodies hbuilt hp) hfits henumsCode
      (Program.ofEnums_main hp) ((Program.resolved_done hp).mp ht)).2
  rw [start_eq hbodies hbuilt]
  exact hexec.exits rfl rfl (installed_body hbodies hbuilt hcode) hm

end Images

theorem Eventually.exits_unique {text text' : Bytes} {pc : BitVec 64} {m : Machine}
    (h : env.Eventually (env.Exits text) pc m) (h' : env.Eventually (env.Exits text') pc m) :
    text = text' := by
  have hstops {m m' : Machine} {pc' : BitVec 64} (hstep : env.Step env.exit m pc' m') : False := by
    generalize hpc : env.exit = pc at hstep
    cases hstep with
    | instr _ hne _ => exact hne hpc.symm
    | printf _ _ _ => exact env.imports_ne hpc.symm
  induction h with
  | now hnow =>
    obtain ⟨rfl, -, rfl⟩ := hnow
    cases h' with
    | now hnow' => exact hnow'.2.2
    | later hnext _ =>
      obtain ⟨_, _, hstep⟩ := hnext
      exact (hstops hstep).elim
  | later hnext _ ih =>
    obtain ⟨pc', m', hstep⟩ := hnext
    cases h' with
    | now hnow' =>
      obtain ⟨rfl, -, -⟩ := hnow'
      exact (hstops hstep).elim
    | later _ hall' => exact ih pc' m' hstep (hall' pc' m' hstep)

end Process

theorem Program.image_follows {p : Program} (hp : p.ofEnums = true) {image : Image}
    (himage : p.image = .ok image) {fuel : Fuel} {s : State}
    (hrun : Run.program fuel p .initial = .done () s) :
    ∃ t, Run.program fuel p.resolved .initial = .done () t ∧
      (p.consistent = true → t.output = s.output) ∧
      ∀ (env : Process image) m, env.Ready (fuel.depth + 1) m →
        env.Eventually (env.Exits (Bytes.ofText t.output)) env.start m := by
  obtain ⟨l, d, codes, place, -, hbodies, hbuilt⟩ := Lower.image_built p image himage
  obtain ⟨t, ht, hconsistent⟩ := resolved_follows hbodies hp hrun
  exact ⟨t, ht, hconsistent, fun env m hm => Process.resolved_exits hbodies hbuilt hp ht hm⟩

/-- What the image of a program of enums prints. Every reference to an enum means the cases that are
known where its code is made, and not those of the definition that ran last. So the image prints
what the evaluator prints exactly if it makes no difference to resolve the references beforehand.
This is so if all definitions of an enum list the same cases. -/
theorem enums_resolved_beforehand (p : Program) (hp : p.ofEnums = true) (image : Image)
    (himage : p.image = .ok image) (fuel : Fuel) (s : State)
    (hrun : Run.program fuel p .initial = .done () s) (env : Process image) (m : Machine)
    (hm : env.Ready (fuel.depth + 1) m) :
    ∃ t, Run.program fuel p.resolved .initial = .done () t ∧
      env.Eventually (env.Exits (Bytes.ofText t.output)) env.start m ∧
      (env.Eventually (env.Exits (Bytes.ofText s.output)) env.start m ↔ t.output = s.output) ∧
      (p.consistent = true → t.output = s.output) := by
  obtain ⟨t, ht, hconsistent, hexits⟩ := Program.image_follows hp himage hrun
  have hprints := hexits env m hm
  refine ⟨t, ht, hprints, ⟨?_, ?_⟩, hconsistent⟩
  · intro h
    exact Bytes.ofText_inj.mp (hprints.exits_unique h)
  · intro h
    rw [← h]
    exact hprints

/-! ## Two programs -/

/-- An enum that is defined in three places, always with the same cases. -/
def palette : Program where
  statements :=
    [.func "show" []
        [.enum "Hue" ["red", "blue"], .print (.var "Hue"), .expr (.call "name" [])],
      .enum "Hue" ["red", "blue"],
      .func "name" [] [.print (.index (.var "Hue") (.str "blue"))],
      .expr (.call "show" []),
      .enum "Void" [],
      .print (.var "Void"),
      .enum "Hue" ["red", "blue"]]

theorem palette_printed :
    palette.ofEnums = true ∧ palette.consistent = true ∧
      ∃ image, palette.image = .ok image ∧ ∃ (env : Process image) (m : Machine),
        env.Ready 9 m ∧ env.Eventually (env.Exits
          (Bytes.ofText "\x7b\"red\": red, \"blue\": blue\x7d\nblue\n\x7b\x7d\n")) env.start m := by
  have hp : palette.ofEnums = true := by decide +kernel
  have hconsistent : palette.consistent = true := by decide +kernel
  have hsmall : palette.small = true := by decide +kernel
  obtain ⟨image, himage, env, m, hm⟩ := Program.exists_ready hsmall 9 (by decide)
  obtain ⟨s, hrun, hout⟩ : ∃ s, Run.program ⟨8, 1⟩ palette .initial = .done () s ∧
      s.output = "\x7b\"red\": red, \"blue\": blue\x7d\nblue\n\x7b\x7d\n" :=
    Run.done_of_printed (by decide +kernel)
  obtain ⟨t, -, hexits, -, hsame⟩ := enums_resolved_beforehand palette hp image himage
    ⟨8, 1⟩ s hrun env m hm
  rw [hsame hconsistent, hout] at hexits
  exact ⟨hp, hconsistent, image, himage, env, m, hm, hexits⟩

/-- A function that prints an enum is called between two definitions of it. -/
def relabeled : Program where
  statements :=
    [.enum "A" ["a"],
      .expr (.call "f" []),
      .enum "A" ["b"],
      .func "f" [] [.print (.var "A")]]

/-- The evaluator prints the cases of the definition before the call. The image prints those of the
definition behind it. -/
theorem relabeled_differs :
    ∃ image s, relabeled.image = .ok image ∧
      Run.program ⟨5, 1⟩ relabeled .initial = .done () s ∧
      s.output = "\x7b\"a\": a\x7d\n" ∧
      ∃ (env : Process image) (m : Machine), env.Ready 6 m ∧
        env.Eventually (env.Exits (Bytes.ofText "\x7b\"b\": b\x7d\n")) env.start m ∧
        ¬ env.Eventually (env.Exits (Bytes.ofText s.output)) env.start m := by
  have hp : relabeled.ofEnums = true := by decide +kernel
  have hsmall : relabeled.small = true := by decide +kernel
  obtain ⟨image, himage, env, m, hm⟩ := Program.exists_ready hsmall 6 (by decide)
  obtain ⟨s, hrun, hout⟩ : ∃ s, Run.program ⟨5, 1⟩ relabeled .initial = .done () s ∧
      s.output = "\x7b\"a\": a\x7d\n" := Run.done_of_printed (by decide +kernel)
  obtain ⟨t, ht, hout'⟩ : ∃ t, Run.program ⟨5, 1⟩ relabeled.resolved .initial = .done () t ∧
      t.output = "\x7b\"b\": b\x7d\n" := Run.done_of_printed (by decide +kernel)
  obtain ⟨t', ht', -, hexits⟩ := Program.image_follows hp himage hrun
  rw [ht] at ht'
  cases ht'
  have hprints := hexits env m hm
  rw [hout'] at hprints
  refine ⟨image, s, himage, hrun, hout, env, m, hm, hprints, fun h => ?_⟩
  rw [hout] at h
  exact absurd (Bytes.ofText_inj.mp (hprints.exits_unique h)) (by decide)

end Armature
