import Armature.Proofs.ControlFlow
import Armature.Proofs.Expressions
import Armature.Proofs.Literals
import Armature.Proofs.Loaded
import Armature.Proofs.Slots
import Armature.Proofs.Texts

/-!
# Spellings and texts

Lowering compares the cases of enums and the keys of dicts as they are written, evaluation compares
the texts that they stand for. A case is found by evaluation exactly if its text is a case too, and
a dict has the keys of its layout exactly if their texts are distinct.
-/

namespace Armature

open Asm (Code Image Label Line)

/-! ## Cases of enums -/

theorem Lower.expr_case {scope : Scope} {enum case : String} {cases : List String} (d : Nat)
    (hshape : scope.shape? enum = none) (henum : scope.enums.get? enum = some cases)
    (hcase : case ∈ cases) :
    Lower.expr scope d (.index (.var enum) (.str case)) =
      .ok ⟨.string, [.address .x0 (Escape.bytes case)]⟩ := by
  rw [Lower.expr, Lower.elementOf]
  simp only [hshape, henum]
  rw [Lower.enumCase, if_pos (List.contains_iff_mem.mpr hcase)]

theorem Run.eval_case (fuel : Fuel) (case : String) {s : State} {enum : String}
    {cases : List String} (hlocal : s.locals.get? enum = none)
    (henum : s.enums.get? enum = some cases) (hfuel : 2 ≤ fuel.depth) :
    Run.eval fuel (.index (.var enum) (.str case)) s =
      if Escape.text case ∈ cases then .done (.str (Escape.text case)) s
      else .failed (.missingCase enum (Escape.text case)) s := by
  obtain ⟨depth, rounds⟩ := fuel
  obtain ⟨depth, rfl⟩ := Nat.exists_eq_add_of_le' hfuel
  have hvar : Run.evalWithin rounds (depth + 1) (.var enum) s = .done (.enum enum cases) s :=
    (Run.getVar_done _ _ _ _).mpr ⟨rfl, .inr ⟨hlocal, cases, henum, rfl⟩⟩
  have hindex : Run.eval ⟨depth + 2, rounds⟩ (.index (.var enum) (.str case)) s =
      Run.lift (Value.at? (.enum enum cases) (.str (Escape.text case))) s := by
    change Run.bind (Run.evalWithin rounds (depth + 1) (.var enum)) _ s = _
    rw [Run.bind, hvar]
    rfl
  rw [hindex, Value.at?]
  split <;> rfl

namespace Process

variable {image : Image} {place : Label → Nat}

theorem leads_address (env : Process image) {before after : Code} {bytes : Bytes}
    (hbuilt : image.Built place (before ++ [Line.address .x0 bytes] ++ after)) (m : A64.Machine) :
    env.Leads (env.pc before.size) m (env.pc (before ++ [Line.address .x0 bytes]).size)
      fun m' => env.StringAt (m'.get .x0) bytes := by
  have hinstalled := env.installed_of_built _ place hbuilt
  rw [installed_append, installed_append, Nat.zero_add, installed_cons] at hinstalled
  obtain ⟨a, ha, hleads⟩ := hinstalled.1.2.1.address (by decide)
  rw [Code.size_append]
  refine (hleads m).mono ?_
  rintro _ rfl
  rw [A64.Machine.get_of_ne _ _ (by decide)]
  simpa using ha

end Process

/-- Which cases of a declared enum can be selected. There is code for each, and it loads the address
of the text of the case. Evaluation gives that text exactly if it is a case as it stands, and fails
otherwise. -/
theorem declared_case_selected_iff (scope scope' : Scope) (s s' : State) (c : Code) (flow : Flow)
    (fuel : Fuel) (enum case : String) (cases : List String) (d : Nat)
    (hlower : Lower.stmt (.enum enum cases) scope = .ok (c, scope'))
    (hexec : Run.exec fuel (.enum enum cases) s = .done flow s')
    (hvariable : scope.shape? enum = none) (hlocal : s.locals.get? enum = none)
    (hcase : case ∈ cases) (hfuel : 2 ≤ fuel.depth) :
    ∃ value bytes, Lower.expr scope' d (.index (.var enum) (.str case)) = .ok value ∧
      value.kind = .string ∧
      (∀ (image : Image) (place : Label → Nat) (env : Process image) (before after : Code)
        (m : A64.Machine), image.Built place (before ++ value.code ++ after) →
        env.Leads (env.pc before.size) m (env.pc (before ++ value.code).size)
          fun m' => env.StringAt (m'.get .x0) bytes) ∧
      ((∃ text, Run.eval fuel (.index (.var enum) (.str case)) s' = .done (.str text) s' ∧
          Bytes.ofText text = bytes) ↔ Escape.text case ∈ cases) ∧
      (Escape.text case ∉ cases → Run.eval fuel (.index (.var enum) (.str case)) s' =
        .failed (.missingCase enum (Escape.text case)) s') := by
  obtain ⟨depth, rounds⟩ := fuel
  obtain ⟨depth, rfl⟩ := Nat.exists_eq_add_of_le' hfuel
  cases hlower
  cases hexec
  have heval := Run.eval_case ⟨depth + 2, rounds⟩ case
    (s := { s with enums := s.enums.set enum cases }) hlocal (Bindings.get?_set_self ..) hfuel
  refine ⟨_, Escape.bytes case, Lower.expr_case d hvariable (Bindings.get?_set_self ..) hcase, rfl,
    fun image place env before after m hbuilt => env.leads_address hbuilt m, ?_, ?_⟩
  · constructor
    · rintro ⟨text, htext, -⟩
      by_contra hmissing
      rw [heval, if_neg hmissing] at htext
      cases htext
    · intro hfound
      exact ⟨Escape.text case, by rw [heval, if_pos hfound], (Escape.bytes_eq case).symm⟩
  · intro hmissing
    rw [heval, if_neg hmissing]

/-- Nothing is declared yet. -/
def bareScope : Scope := Lower.Declared.none.session.enter false

/-- The second case is the text of the first one. -/
def lineEnds : List String := ["\\n", "\n"]

theorem lineEnds_selected :
    ∃ c scope' s', Lower.stmt (.enum "End" lineEnds) bareScope = .ok (c, scope') ∧
      Run.exec ⟨2, 0⟩ (.enum "End" lineEnds) .initial = .done .next s' ∧
      ∃ value bytes, Lower.expr scope' 0 (.index (.var "End") (.str "\\n")) = .ok value ∧
        (∀ (image : Image) (place : Label → Nat) (env : Process image) (before after : Code)
          (m : A64.Machine), image.Built place (before ++ value.code ++ after) →
          env.Leads (env.pc before.size) m (env.pc (before ++ value.code).size)
            fun m' => env.StringAt (m'.get .x0) bytes) ∧
        ∃ text, Run.eval ⟨2, 0⟩ (.index (.var "End") (.str "\\n")) s' = .done (.str text) s' ∧
          Bytes.ofText text = bytes := by
  refine ⟨_, _, _, rfl, rfl, ?_⟩
  obtain ⟨value, bytes, hvalue, -, hleads, hselected, -⟩ :=
    declared_case_selected_iff bareScope _ .initial _ _ _ ⟨2, 0⟩ "End" "\\n" lineEnds 0 rfl rfl rfl
      rfl (by decide +kernel) (Nat.le_refl _)
  exact ⟨value, bytes, hvalue, hleads, hselected.mpr (by decide +kernel)⟩

/-- A case with an escape has code and cannot be evaluated, if there is no case of its text. -/
theorem escaped_case_missing :
    ∃ c scope' s', Lower.stmt (.enum "End" ["a\\n"]) bareScope = .ok (c, scope') ∧
      Run.exec ⟨2, 0⟩ (.enum "End" ["a\\n"]) .initial = .done .next s' ∧
      (∃ value, Lower.expr scope' 0 (.index (.var "End") (.str "a\\n")) = .ok value) ∧
      Run.eval ⟨2, 0⟩ (.index (.var "End") (.str "a\\n")) s' =
        .failed (.missingCase "End" "a\n") s' := by
  refine ⟨_, _, _, rfl, rfl, ⟨_, Lower.expr_case 0 rfl rfl (List.mem_singleton.mpr rfl)⟩, ?_⟩
  have htext : Escape.text "a\\n" = "a\n" := by decide +kernel
  rw [Run.eval_case ⟨2, 0⟩ "a\\n" rfl rfl (Nat.le_refl _), htext, if_neg (by decide +kernel)]

/-! ## Keys of dicts -/

namespace Lower

theorem dictFields_nodup {name : String} {seen : List String} {entries : List (Expr × Expr)}
    {literals : List FieldLiteral} (h : dictFields name seen entries = .ok literals) :
    (∀ key ∈ seen, .str key ∉ entries.map (·.1)) ∧ (entries.map (·.1)).Nodup := by
  induction entries generalizing seen literals with
  | nil => simp
  | cons entry rest ih =>
    obtain ⟨key, e⟩ := entry
    cases key with
    | str key =>
      have hfresh : key ∉ seen := by
        intro hmem
        rw [dictFields, if_pos (List.contains_iff_mem.mpr hmem)] at h
        cases h
      obtain ⟨_, literals', -, hrest, -⟩ := dictFields_cons h
      obtain ⟨hseen, hnodup⟩ := ih hrest
      refine ⟨fun key' hkey' => ?_, List.nodup_cons.mpr ⟨hseen key List.mem_cons_self, hnodup⟩⟩
      rw [List.map_cons, List.mem_cons, not_or]
      refine ⟨?_, hseen key' (List.mem_cons_of_mem _ hkey')⟩
      rintro ⟨⟩
      exact hfresh hkey'
    | _ => cases h

theorem FieldsShaped.keys {scope : Scope} {entries : List (Expr × Expr)} {fields : List Field}
    (h : FieldsShaped scope entries fields) : entries.map (·.1) = fields.map (.str ·.key) := by
  induction h with
  | nil => rfl
  | cons _ _ ih => rw [List.map_cons, List.map_cons, ih]

theorem placeFields_slot {base : Slot} {shapes : List (String × FieldShape)} {i : Nat} {f : Field}
    (h : (placeFields base shapes)[i]? = some f) :
    f.slot = base.nth (((placeFields base shapes).take i).map (·.shape.span)).sum := by
  induction shapes generalizing base i with
  | nil => cases h
  | cons entry rest ih =>
    obtain ⟨key, shape⟩ := entry
    cases i with
    | zero =>
      cases h
      exact base.nth_zero.symm
    | succ i =>
      rw [placeFields, List.getElem?_cons_succ] at h
      rw [ih h, Slot.nth_nth, placeFields, List.take_succ_cons, List.map_cons, List.sum_cons]

end Lower

theorem Shape.field?_of_nodup {fields : List Field} {i : Nat} {f : Field}
    (hnodup : (fields.map (·.key)).Nodup) (hf : fields[i]? = some f) :
    field? fields f.key = some f := by
  induction fields generalizing i with
  | nil => cases hf
  | cons first rest ih =>
    rw [List.map_cons, List.nodup_cons] at hnodup
    cases i with
    | zero =>
      cases hf
      simp [field?]
    | succ i =>
      have hne : first.key ≠ f.key := by
        intro heq
        exact hnodup.1 (heq ▸ List.mem_map_of_mem (List.mem_of_getElem? hf))
      rw [field?, List.find?_cons_of_neg (by simpa using hne)]
      exact ih hnodup.2 hf

theorem Run.dictFields_done {rounds depth : Nat} {scope : Scope} {entries : List (Expr × Expr)}
    {fields : List Field} {given result : Bindings Value} {s s' : State}
    (hfields : Lower.FieldsShaped scope entries fields)
    (h : Run.dictFields (Run.evalWithin rounds depth) given entries s = .done result s') :
    ∃ values, Run.mapAll (Run.evalWithin rounds depth) (entries.map (·.2)) s = .done values s' ∧
      result = given.setAll ((fields.map (Escape.text ·.key)).zip values) := by
  induction hfields generalizing given s with
  | nil =>
    obtain ⟨rfl, rfl⟩ := (Run.pure_done _ _ _ _).mp h
    exact ⟨[], rfl, rfl⟩
  | @cons e f entries fields _ _ ih =>
    simp only [Run.dictFields, Run.bind_done] at h
    obtain ⟨key, s₁, hkey, text, s₂, htext, v, s₃, hv, hrest⟩ := h
    obtain rfl : s₁ = s :=
      Run.relates_callFree rounds depth (.str f.key) rfl s s₁ (by rw [hkey]; rfl)
    obtain rfl := Run.eval_literal hkey _ rfl
    obtain ⟨rfl, rfl⟩ := (Run.pure_done _ _ _ _).mp htext
    obtain ⟨values, hvalues, rfl⟩ := ih hrest
    refine ⟨v :: values, ?_, rfl⟩
    simp only [List.map_cons, Run.mapAll, Run.bind_done, Run.pure_done]
    exact ⟨v, s₃, hv, values, s', hvalues, rfl, rfl⟩

/-- The layout of a dict and its value tell the same of a literal. They have the same keys in the
same order, and each key of the literal selects the field and the value of its own entry. -/
structure KeysAgree (fields : List Field) (values : List Value) (found : Bindings Value) :
    Prop where
  order : fields.map (Escape.text ·.key) = found.map (·.1)
  selected : ∀ (i : Nat) f v, fields[i]? = some f → values[i]? = some v →
    Shape.field? fields f.key = some f ∧ found.get? (Escape.text f.key) = some v

theorem keysAgree_iff {fields : List Field} {values : List Value}
    (hspelled : (fields.map (·.key)).Nodup) (hlength : values.length = fields.length) :
    KeysAgree fields values
        (Bindings.setAll [] ((fields.map (Escape.text ·.key)).zip values)) ↔
      (fields.map (Escape.text ·.key)).Nodup := by
  have hnames : ((fields.map (Escape.text ·.key)).zip values).map (·.1) =
      fields.map (Escape.text ·.key) := List.map_fst_zip (by simp [hlength])
  constructor
  · intro h
    rw [h.order]
    exact Bindings.nodup_setAll [] _ List.nodup_nil
  · intro hnodup
    rw [Bindings.setAll_of_nodup [] _ (by rw [hnames]; exact hnodup), List.nil_append]
    refine ⟨hnames.symm, fun i f v hf hv => ⟨Shape.field?_of_nodup hspelled hf, ?_⟩⟩
    refine Bindings.get?_of_nodup (by rw [hnames]; exact hnodup) (List.mem_of_getElem? (i := i) ?_)
    rw [List.getElem?_zip_eq_some, List.getElem?_map, hf]
    exact ⟨rfl, hv⟩

/-- When the two back ends see the same dict. The layout has a field for each entry of the literal,
in order and one behind the other, and the value binds the texts of the keys to the values of the
entries. The two agree exactly if the texts are distinct. -/
theorem declared_keys_agree_iff (name : String) (entries : List (Expr × Expr)) (c : Code)
    (scope scope' : Scope) (fuel : Fuel) (v : Value) (s s' : State)
    (hlower : Lower.declareDict name entries scope = .ok (c, scope'))
    (hv : Run.eval fuel (.dict entries) s = .done v s') :
    ∃ base fields values found, scope'.shape? name = some (base, .dict fields) ∧
      Lower.FieldsShaped scope entries fields ∧
      (∀ (i : Nat) f, fields[i]? = some f →
        f.slot = base.nth ((fields.take i).map (·.shape.span)).sum) ∧
      Run.mapAll (Run.evalWithin fuel.rounds (fuel.depth - 1)) (entries.map (·.2)) s =
        .done values s' ∧
      v = .dict found ∧
      found = Bindings.setAll [] ((fields.map (Escape.text ·.key)).zip values) ∧
      (KeysAgree fields values found ↔ (Expr.dict entries).distinctKeys = true) := by
  obtain ⟨literals, shapes, kinds, code, d, hliterals, hstage, hshapes, hd, -⟩ :=
    Lower.declareDict_ok name entries c scope scope' hlower
  obtain ⟨base, span, frame, hframe, rfl, -⟩ := Lower.bindComposite_ok _ _ _ _ _ _ hd
  have hfields := Lower.fields_shaped base hliterals (Lower.stage_kinds hstage) hshapes
  obtain ⟨depth, rounds⟩ := fuel
  cases depth with
  | zero => cases hv
  | succ depth =>
    simp only [Run.eval, Run.evalWithin, Run.bind_done, Run.pure_done] at hv
    obtain ⟨found, _, hfound, rfl, rfl⟩ := hv
    obtain ⟨values, hvalues, rfl⟩ := Run.dictFields_done hfields hfound
    have hspelled : ((Lower.placeFields base shapes).map (·.key)).Nodup := by
      have hnodup := (Lower.dictFields_nodup hliterals).2
      rw [hfields.keys, ← Function.comp_def, ← List.map_map] at hnodup
      exact List.Pairwise.of_map Expr.str (fun _ _ hne heq => hne (congrArg _ heq)) hnodup
    have hlength : values.length = (Lower.placeFields base shapes).length := by
      have := congrArg List.length hfields.keys
      rw [Run.length_mapAll hvalues]
      simpa using this
    refine ⟨base, _, values, _, ?_, hfields, fun i f hf => Lower.placeFields_slot hf, hvalues, rfl,
      rfl, ?_⟩
    · simp [Scope.shape?, Frame.lookup_bind]
    · rw [keysAgree_iff hspelled hlength, Expr.distinctKeys, decide_eq_true_eq,
        keys_of_shaped hfields]

/-- Keys with and without escapes, for a value and for an array. -/
def escapedKeys : List (Expr × Expr) :=
  [(.str "a\\tb", .int 1), (.str "c", .array [.bool true, .bool false]), (.str "\\\\t", .int 3)]

theorem escapedKeys_agree :
    ∃ c scope' v, Lower.declareDict "d" escapedKeys bareScope = .ok (c, scope') ∧
      Run.eval ⟨3, 0⟩ (.dict escapedKeys) .initial = .done v .initial ∧
      ∃ base fields values found, scope'.shape? "d" = some (base, .dict fields) ∧
        v = .dict found ∧ values.length = 3 ∧ KeysAgree fields values found := by
  refine ⟨_, _, _, rfl, rfl, ?_⟩
  obtain ⟨base, fields, values, found, hshape, -, -, hvalues, hv, -, hagree⟩ :=
    declared_keys_agree_iff "d" escapedKeys _ bareScope _ ⟨3, 0⟩ _ .initial .initial rfl rfl
  exact ⟨base, fields, values, found, hshape, hv, Run.length_mapAll hvalues,
    hagree.mpr (by decide +kernel)⟩

/-- One key in two spellings, which are two fields of the layout. -/
def tabKeys : List (Expr × Expr) := [(.str "\\t", .int 1), (.str "\t", .int 2)]

/-- A layout with one key twice, where the value has it once. The first spelling selects the field
of the first entry, and the value of the second one. -/
theorem tabKeys_differ :
    ∃ c scope' base fields found,
      Lower.declareDict "d" tabKeys bareScope = .ok (c, scope') ∧
      Run.eval ⟨2, 0⟩ (.dict tabKeys) .initial = .done (.dict found) .initial ∧
      scope'.shape? "d" = some (base, .dict fields) ∧
      fields.map (Escape.text ·.key) = ["\t", "\t"] ∧ found.map (·.1) = ["\t"] ∧
      Shape.field? fields "\\t" = some ⟨"\\t", base, .scalar .int⟩ ∧
      Bindings.get? found (Escape.text "\\t") = some (.int 2) := by
  have htext : Escape.text "\\t" = "\t" := by decide +kernel
  have hplain : Escape.text "\t" = "\t" := by decide +kernel
  refine ⟨_, _, _, _, [("\t", .int 2)], rfl, ?_, rfl, by decide +kernel, rfl, rfl,
    by rw [htext]; rfl⟩
  have hfields : Run.eval ⟨2, 0⟩ (.dict tabKeys) .initial =
      .done (.dict (Bindings.set (Bindings.set [] (Escape.text "\\t") (.int 1))
        (Escape.text "\t") (.int 2))) .initial := rfl
  rw [hfields, htext, hplain]
  rfl

end Armature
