import Armature.Proofs.Discipline
import Armature.Proofs.Printing
import Armature.Proofs.Spellings
import Mathlib.Data.List.TakeWhile

/-!
# Printed strings

A string in memory ends at its first zero, so a literal is printed up to there. An interpolation is
printed by one call of `printf`. Its arguments are the variables in order, and it writes the text
that the interpolation evaluates to.
-/

namespace Armature

open A64 (Instr Machine)
open Asm (Code Image Label Line)

/-! ## Texts in memory -/

/-- The characters before the first that is zero. -/
def untilNul (text : String) : String := String.ofList (text.toList.takeWhile (· ≠ Char.ofNat 0))

theorem untilNul_eq_iff (text : String) : untilNul text = text ↔ NulFree text := by
  constructor
  · intro h hmem
    rw [← h, untilNul, String.toList_ofList] at hmem
    have hne := List.mem_takeWhile_imp hmem
    exact absurd rfl (of_decide_eq_true hne)
  · intro h
    have hall : ∀ c ∈ text.toList, decide (c ≠ Char.ofNat 0) = true := by
      intro c hc
      exact decide_eq_true fun heq => h (heq ▸ hc)
    rw [untilNul, List.takeWhile_eq_self_iff.mpr hall, String.ofList_toList]

theorem ofText_untilNul (text : String) :
    Bytes.ofText (untilNul text) = (Bytes.ofText text).takeWhile (· ≠ 0) := by
  rw [untilNul, Bytes.ofText_ofList, Bytes.ofText_eq]
  induction text.toList with
  | nil => rfl
  | cons c rest ih =>
    by_cases hc : c = Char.ofNat 0
    · subst hc
      have hzero : String.utf8EncodeChar (Char.ofNat 0) = [0] := by decide +kernel
      simp [hzero]
    · have hbytes : ∀ b ∈ String.utf8EncodeChar c, decide (b ≠ 0) = true := by
        intro b hb
        apply decide_eq_true
        rintro rfl
        exact hc (Char.toNat_inj.mp (Bytes.ascii_of_mem_encode hb (by decide)))
      have htake : (c :: rest).takeWhile (· ≠ Char.ofNat 0) =
          c :: rest.takeWhile (· ≠ Char.ofNat 0) :=
        List.takeWhile_cons_of_pos (decide_eq_true hc)
      rw [htake, List.flatMap_cons, List.flatMap_cons, List.takeWhile_append_of_pos hbytes, ih]

/-! ## Literals -/

/-- The code that prints a literal. -/
def Lower.literal (source : String) : Code :=
  .address .x0 (Escape.bytes source) :: printLine .string

theorem Lower.print_literal (source : String) (scope : Scope) :
    print (.str source) scope = .ok (literal source, scope) := rfl

namespace Process

variable {image : Image} {env : Process image} {place : Label → Nat} {k base : Nat} {m : Machine}

theorem StringAt.writes {a : BitVec 64} {text : String} (h : env.StringAt a (Bytes.ofText text)) :
    env.Writes a (untilNul text) .string := by
  rw [Writes, h.string?, ofText_untilNul]

theorem Installed.literal {source : String} (h : env.Installed place k (Lower.literal source))
    (hframe : env.InFrame base m) :
    env.Leads (env.pc k) m (env.pc (k + Code.size (Lower.literal source)))
      (Printed m (Bytes.ofText (untilNul (Escape.text source) ++ "\n"))) := by
  rw [Lower.literal, installed_cons] at h
  obtain ⟨a, hstring, haddress⟩ := h.1.address (by decide)
  rw [Escape.bytes_eq] at hstring
  refine (haddress m).trans ?_
  rintro _ rfl
  have hquiet : m.Quiet 9 (m.put .x0 a) :=
    Machine.quiet_put 9 m .x0 a (Machine.not_survives_of_lt 9 _ (by decide))
  have hx0 : (m.put .x0 a).get .x0 = a := m.get_put_self .x0 a (by decide)
  refine ((h.2.printArgument (hframe.quiet hquiet) fun argument? hargument => ?_).mono
    fun m' hprinted => hprinted.ofQuiet hquiet rfl).cast (by rw [Nat.add_assoc]; rfl)
  have hwritten : env.formatted? argument? 0 ((Bytes.ofText (percentDoubled "" ++
      Lower.conversion .string ++ percentDoubled "\n")).takeWhile (· ≠ 0)) =
      some (Bytes.ofText ("" ++ untilNul (Escape.text source) ++ "\n")) :=
    formatted?_argument (by decide) (by decide) (hx0 ▸ hargument) hstring.writes
  rwa [String.empty_append] at hwritten

theorem leads_literal (env : Process image) {before after : Code} {source : String}
    (hbuilt : image.Built place (before ++ Lower.literal source ++ after))
    (hframe : env.InFrame base m) :
    env.Leads (env.pc before.size) m (env.pc (before ++ Lower.literal source).size)
      fun m' => m'.output = m.output ++ Bytes.ofText (untilNul (Escape.text source) ++ "\n") := by
  have hinstalled := env.installed_of_built _ place hbuilt
  rw [installed_append, installed_append, Nat.zero_add] at hinstalled
  rw [Code.size_append]
  exact (hinstalled.1.2.literal hframe).mono fun m' hprinted => hprinted.output

end Process

theorem Run.exec_literal {fuel : Fuel} (hfuel : 2 ≤ fuel.depth) (source : String) (s : State) :
    Run.exec fuel (.print (.str source)) s =
      .done .next { s with output := s.output ++ (Escape.text source ++ "\n") } := by
  obtain ⟨depth, rounds⟩ := fuel
  obtain ⟨depth, rfl⟩ := Nat.exists_eq_add_of_le' hfuel
  rw [← String.append_assoc]
  rfl

/-- The code of a print statement writes the text of a literal up to its first zero, and executing
the statement writes all of it. So both write the same exactly if there is no zero in the text. -/
theorem literal_printed_iff (scope : Scope) (source : String) (s : State) (fuel : Fuel)
    (hfuel : 2 ≤ fuel.depth) :
    ∃ c, Lower.print (.str source) scope = .ok (c, scope) ∧
      (∀ (image : Image) (place : Label → Nat) (env : Process image) (before after : Code)
        (base : Nat) (m : Machine), image.Built place (before ++ c ++ after) →
        env.InFrame base m →
        env.Leads (env.pc before.size) m (env.pc (before ++ c).size) fun m' =>
          m'.output = m.output ++ Bytes.ofText (untilNul (Escape.text source) ++ "\n")) ∧
      Run.exec fuel (.print (.str source)) s =
        .done .next { s with output := s.output ++ (Escape.text source ++ "\n") } ∧
      (Bytes.ofText (untilNul (Escape.text source) ++ "\n") =
        Bytes.ofText (Escape.text source ++ "\n") ↔ NulFree (Escape.text source)) := by
  refine ⟨_, Lower.print_literal source scope, ?_, Run.exec_literal hfuel source s, ?_⟩
  · intro image place env before after base m hbuilt hframe
    exact env.leads_literal hbuilt hframe
  · rw [Bytes.ofText_append, Bytes.ofText_append, List.append_left_inj, Bytes.ofText_inj,
      untilNul_eq_iff]

/-- The line has an escape, a percent sign and a character of several bytes. -/
theorem priceLine_printed :
    ∃ c, Lower.print (.str "50%\\t\u20ac") bareScope = .ok (c, bareScope) ∧
      ∃ (image : Image) (place : Label → Nat) (env : Process image) (base : Nat) (m : Machine),
        image.Built place ([.entry] ++ c ++ []) ∧ env.InFrame base m ∧
        env.Leads (env.pc (Code.size [.entry])) m (env.pc (Code.size ([.entry] ++ c)))
          (fun m' => m'.output = Bytes.ofText "50%\t\u20ac\n") ∧
        Run.exec ⟨2, 0⟩ (.print (.str "50%\\t\u20ac")) .initial =
          .done .next { State.initial with output := "50%\t\u20ac\n" } := by
  obtain ⟨c, hprint, hleads, hexec, -⟩ :=
    literal_printed_iff bareScope "50%\\t\u20ac" .initial ⟨2, 0⟩ (Nat.le_refl 2)
  obtain rfl : Lower.literal "50%\\t\u20ac" = c := by
    cases hprint
    rfl
  obtain ⟨image, place, env, base, hbuilt, -, hmachine⟩ := Process.exists_frame_alone
    (c := Lower.literal "50%\\t\u20ac") rfl (by decide +kernel) (by decide +kernel)
  obtain ⟨m, hm, -, hout, -⟩ := hmachine fun _ => 0
  refine ⟨_, hprint, image, place, env, base, m, hbuilt, hm, ?_, hexec⟩
  refine (hleads image place env _ _ base m hbuilt hm).mono fun m' hm' => ?_
  rw [hm', hout]
  decide +kernel

/-- The escape of a zero ends the line in memory. -/
theorem nulLiteral_differs :
    Lower.print (.str "a\\0b") bareScope = .ok (Lower.literal "a\\0b", bareScope) ∧
      (∀ (image : Image) (place : Label → Nat) (env : Process image) (before after : Code)
        (base : Nat) (m : Machine), image.Built place (before ++ Lower.literal "a\\0b" ++ after) →
        env.InFrame base m →
        env.Leads (env.pc before.size) m (env.pc (before ++ Lower.literal "a\\0b").size)
          fun m' => m'.output = m.output ++ Bytes.ofText "a\n") ∧
      Run.exec ⟨2, 0⟩ (.print (.str "a\\0b")) .initial =
        .done .next { State.initial with output := "a\x00b\n" } := by
  refine ⟨Lower.print_literal _ _, ?_, ?_⟩
  · intro image place env before after base m hbuilt hframe
    have htext : untilNul (Escape.text "a\\0b") ++ "\n" = "a\n" := by decide +kernel
    exact htext ▸ env.leads_literal hbuilt hframe
  · have htext : State.initial.output ++ (Escape.text "a\\0b" ++ "\n") = "a\x00b\n" := by
      decide +kernel
    rw [Run.exec_literal (Nat.le_refl 2), htext]

/-! ## Parts -/

namespace Part

def name? : Part → Option String
  | text _ => none
  | var name => some name

/-- The text of a part where the variables have these values. -/
def textIn (locals : Locals) : Part → String
  | text source => Escape.text source
  | var name => ((locals.get? name).map Value.text).getD ""

end Part

theorem Run.mapAll_partText {parts : List Part} {s : State}
    (h : ∀ name, .var name ∈ parts → ∃ v, s.locals.get? name = some v) :
    Run.mapAll Run.partText parts s = .done (parts.map (Part.textIn s.locals)) s := by
  induction parts with
  | nil => rfl
  | cons part rest ih =>
    have hpart : Run.partText part s = .done (part.textIn s.locals) s := by
      cases part with
      | text source => rfl
      | var name =>
        obtain ⟨v, hv⟩ := h name List.mem_cons_self
        rw [Run.partText, Run.bind_done]
        exact ⟨v, s, (Run.getVar_done _ _ _ _).mpr ⟨rfl, .inl hv⟩, by simp [Part.textIn, hv]; rfl⟩
    rw [Run.mapAll, Run.bind_done]
    refine ⟨_, s, hpart, ?_⟩
    rw [Run.bind_done]
    exact ⟨_, s, ih fun name hname => h name (List.mem_cons_of_mem _ hname), rfl⟩

/-- The line neither branches nor calls. -/
def Asm.Line.still : Line → Bool
  | instr i => i.displacement?.isNone && !i.isImportCall && decide (i ≠ .ret)
  | address .. => true
  | _ => false

namespace Lower

variable {scope : Scope} {k : Nat} {parts rest : List Part} {r : String × Code}

/-- The kind of a variable that can be part of an interpolation. -/
def partKind? (scope : Scope) (name : String) : Option Scalar :=
  (scope.shape? name).bind (·.2.scalar?)

/-- What a part becomes in the format. -/
def directive (scope : Scope) : Part → String
  | .text source => percentDoubled (Escape.text source)
  | .var name => ((partKind? scope name).map conversion).getD ""

/-- The format of an interpolation on a line of its own. -/
def lineFormat (scope : Scope) (parts : List Part) : String :=
  String.join (parts.map (directive scope)) ++ "\n"

theorem lineFormat_cons (part : Part) :
    lineFormat scope (part :: rest) = directive scope part ++ lineFormat scope rest := by
  rw [lineFormat, List.map_cons, String.join_cons, String.append_assoc, lineFormat]

theorem interpolate_nil (h : interpolate scope k [] = .ok r) : r = ("\n", []) := by
  rw [interpolate, Except.ok.injEq] at h
  exact h.symm

theorem interpolate_text {source : String}
    (h : interpolate scope k (.text source :: rest) = .ok r) :
    ∃ r', interpolate scope k rest = .ok r' ∧
      r = (percentDoubled (Escape.text source) ++ r'.1, r'.2) := by
  simp only [interpolate, bind_eq_ok, pure, Except.pure, Except.ok.injEq] at h
  obtain ⟨r', hr', rfl⟩ := h
  exact ⟨r', hr', rfl⟩

theorem interpolate_var {name : String} (h : interpolate scope k (.var name :: rest) = .ok r) :
    ∃ slot shape kind r', scope.shape? name = some (slot, shape) ∧ shape.scalar? = some kind ∧
      interpolate scope (k + 1) rest = .ok r' ∧
      r = (conversion kind ++ r'.1, load kind slot :: storeArgument kind k ++ r'.2) := by
  simp only [interpolate] at h
  split at h
  · cases h
  · rename_i slot shape hshape
    split at h
    · cases h
    · rename_i kind hkind
      simp only [bind_eq_ok, pure, Except.pure, Except.ok.injEq] at h
      obtain ⟨r', hr', rfl⟩ := h
      exact ⟨slot, shape, kind, r', hshape, hkind, hr', rfl⟩

theorem interpolate_format (h : interpolate scope k parts = .ok r) :
    r.1 = lineFormat scope parts := by
  induction parts generalizing k r with
  | nil =>
    obtain rfl := interpolate_nil h
    rfl
  | cons part rest ih =>
    rw [lineFormat_cons]
    cases part with
    | text source =>
      obtain ⟨r', hr', rfl⟩ := interpolate_text h
      rw [ih hr', directive]
    | var name =>
      obtain ⟨slot, shape, kind, r', hshape, hkind, hr', rfl⟩ := interpolate_var h
      rw [ih hr', directive, partKind?, hshape, Option.bind_some, hkind]
      rfl

theorem interpolate_still (h : interpolate scope k parts = .ok r) :
    ∀ line ∈ r.2, line.still = true := by
  induction parts generalizing k r with
  | nil =>
    obtain rfl := interpolate_nil h
    simp
  | cons part rest ih =>
    cases part with
    | text source =>
      obtain ⟨r', hr', rfl⟩ := interpolate_text h
      have hrest := ih hr'
      exact hrest
    | var name =>
      obtain ⟨slot, shape, kind, r', -, -, hr', rfl⟩ := interpolate_var h
      have hfirst : ∀ line ∈ load kind slot :: storeArgument kind k, line.still = true := by
        cases kind <;> simp [load, loadX, storeArgument, boolText, Line.still, Instr.displacement?,
          Instr.isImportCall]
      intro line hline
      rcases List.mem_append.mp hline with hline | hline
      · exact hfirst line hline
      · exact ih hr' line hline

end Lower

/-! ## Arguments in memory -/

namespace Process

variable {image : Image} {env : Process image} {place : Label → Nat} {pos k base : Nat}
  {m m₁ m' : Machine} {scope : Scope} {s : State}

/-- No more than arguments have been stored, those from number `k` on. -/
structure Stored (k : Nat) (m m' : Machine) : Prop where
  saved : ∀ n : BitVec 5, 19 ≤ n.toNat → n.toNat ≤ 29 → m'.x n = m.x n
  sp : m'.sp = m.sp
  stack : ∀ a, m.sp.toNat ≤ a → a < m.sp.toNat + 8 * k ∨ m.sp.toNat + 64 ≤ a →
    m'.stack a = m.stack a
  output : m'.output = m.output

namespace Stored

theorem refl (k : Nat) (m : Machine) : Stored k m m :=
  ⟨fun _ _ _ => rfl, rfl, fun _ _ _ => rfl, rfl⟩

theorem trans {k' : Nat} (h : Stored k m m₁) (h' : Stored k' m₁ m') (hle : k ≤ k') :
    Stored k m m' where
  saved n hl hu := (h'.saved n hl hu).trans (h.saved n hl hu)
  sp := h'.sp.trans h.sp
  stack a ha hout := by
    have hsp := h.sp
    rw [h'.stack a (by rw [hsp]; exact ha) (by rw [hsp]; omega), h.stack a ha hout]
  output := h'.output.trans h.output

theorem ofQuiet (k : Nat) (h : m.Quiet 9 m') (houtput : m'.output = m.output) : Stored k m m' where
  saved _ hl hu := h.regs _ (Machine.survives_nine hl hu)
  sp := h.sp
  stack a ha _ := h.stack a ha
  output := houtput

theorem store (m : Machine) (hk : k < 8) (w : BitVec 64) :
    Stored k m (m.store (m.sp.toNat + 8 * k) w) where
  saved _ _ _ := rfl
  sp := rfl
  stack a _ hout := by rw [Machine.stack_store, if_neg (by omega)]
  output := rfl

theorem inFrame (h : Stored k m m') (hm : env.InFrame base m) : env.InFrame base m' :=
  hm.congr (h.saved 28 (by decide) (by decide)) h.sp

theorem slots (h : Stored k m m') (hm : env.InFrame base m) : m'.slots base = m.slots base := by
  funext slot
  have hbelow := hm.below
  have hdistance : slot.distance = 64 + 8 * slot.index.toNat := rfl
  exact h.stack _ (by omega) (.inr (by omega))

theorem argument? (h : Stored k m m') (hm : env.InFrame base m) {i : Nat} (hi : i < k)
    (hk : k ≤ 8) : env.argument? m' i = env.argument? m i := by
  rw [argument?_stack (h.inFrame hm) (i := i) (by omega), argument?_stack hm (i := i) (by omega),
    h.sp, h.stack _ (by omega) (.inl (by omega))]

theorem printed (h : Stored k m m₁) {text : Bytes} (h' : Printed m₁ text m') :
    Printed m text m' where
  saved n hl hu := (h'.saved n hl hu).trans (h.saved n hl hu)
  sp := h'.sp.trans h.sp
  stack a ha := by
    rw [h'.stack a (by rw [h.sp]; exact ha), h.stack a (by omega) (.inr ha)]
  output := by rw [h'.output, h.output]

end Stored

theorem argument?_store (hm : env.InFrame base m) (hk : k < 8) (w : BitVec 64) :
    env.argument? (m.store (m.sp.toNat + 8 * k) w) k = some w := by
  have hstored := argument?_stack ((Stored.store m hk w).inFrame hm) hk
  rw [Machine.stack_store] at hstored
  exact hstored.trans (congrArg some (if_pos rfl))

theorem Encodes.writes {kind : Scalar} {w : BitVec 64} {v : Value} (h : env.Encodes kind w v)
    (hkind : kind ≠ .bool) (hv : ∀ text, v = .str text → NulFree text) :
    env.Writes w v.text kind := by
  unfold Encodes at h
  split at h
  · rename_i i
    rw [h]
    exact congrArg toString (Int64.toInt_toBitVec i).symm
  · exact absurd rfl hkind
  · rename_i x
    rw [h]
    rfl
  · rename_i text
    exact h.string?.trans (congrArg some (hv text rfl).takeWhile)
  · exact h.elim

theorem Stands.storeArgument
    (h : env.Stands place pos (.instr (.strX .x0 .sp (BitVec.ofNat 16 (8 * k)))))
    (hm : env.InFrame base m) (hk : k < 8) :
    env.Leads (env.pc pos) m (env.pc (pos + 1)) fun m' =>
      Stored k m m' ∧ env.argument? m' k = some (m.get .x0) := by
  have hfits : (Instr.strX .x0 .sp (BitVec.ofNat 16 (8 * k))).Fits := by
    simp only [Instr.Fits, BitVec.toNat_ofNat]
    omega
  refine (h.instr hfits (perform?_storeArgument hm hk)).mono ?_
  rintro _ rfl
  exact ⟨.store m hk _, argument?_store hm hk _⟩

theorem Installed.storeVariable {kind : Scalar} {slot : Slot} {v : Value}
    (h : env.Installed place pos (Lower.load kind slot :: Lower.storeArgument kind k))
    (hm : env.InFrame base m) (hslot : slot.index.toNat < 256) (hk : k < 8)
    (hv : env.Encodes kind (m.slots base slot) v) (hnul : ∀ text, v = .str text → NulFree text) :
    env.Leads (env.pc pos) m
      (env.pc (pos + Code.size (Lower.load kind slot :: Lower.storeArgument kind k))) fun m' =>
      Stored k m m' ∧ ∃ w, env.argument? m' k = some w ∧ env.Writes w v.text kind := by
  let loaded := m.put .x0 (m.slots base slot)
  have hx0 : loaded.get .x0 = m.slots base slot := m.get_put_self .x0 _ (by decide)
  have hquiet : m.Quiet 9 loaded :=
    Machine.quiet_put 9 m .x0 _ (Machine.not_survives_of_lt 9 _ (by decide))
  rw [installed_cons] at h
  cases kind with
  | int | string =>
    refine (h.1.loadX hm slot hslot (by decide)).trans ?_
    rintro _ rfl
    have hstore := ((installed_cons ..).mp h.2).1
    refine (hstore.storeArgument (hm.quiet hquiet) hk).mono ?_
    rintro m' ⟨hstored, hargument⟩
    refine ⟨(Stored.ofQuiet k hquiet rfl).trans hstored (Nat.le_refl k), _, hargument, ?_⟩
    rw [hx0]
    exact hv.writes (by decide) hnul
  | bool =>
    refine (h.1.loadX hm slot hslot (by decide)).trans ?_
    rintro _ rfl
    cases v with
    | bool b =>
      have hcode := (installed_append ..).mp h.2
      have hbool : loaded.get .x0 = (Value.bool b).word :=
        hx0.trans (hv.trans (Value.word_bool b).symm)
      refine (hcode.1.boolText hbool).trans ?_
      rintro m₁ ⟨htext, hquiet₁, houtput⟩
      have hquiet₁ := hquiet.trans hquiet₁
      have hstore := ((installed_cons ..).mp hcode.2).1
      refine (hstore.storeArgument (hm.quiet hquiet₁) hk).mono ?_
      rintro m' ⟨hstored, hargument⟩
      exact ⟨(Stored.ofQuiet k hquiet₁ houtput).trans hstored (Nat.le_refl k), _, hargument, htext⟩
    | _ => exact hv.elim
  | float =>
    refine (h.1.instr (slot.fits_offset hslot) (perform?_loadDouble hm slot hslot .d0)).trans ?_
    rintro _ rfl
    have hquiet := Machine.quiet_setD 9 m .d0 (ofBits (m.slots base slot))
    have hframe := hm.quiet hquiet
    have hstore := ((installed_cons ..).mp h.2).1
    have hfits : (Instr.strD .d0 .sp (BitVec.ofNat 16 (8 * k))).Fits := by
      simp only [Instr.Fits, BitVec.toNat_ofNat]
      omega
    refine (hstore.instr hfits (perform?_storeDouble hframe hk)).mono ?_
    rintro _ rfl
    exact ⟨(Stored.ofQuiet k hquiet rfl).trans (.store _ hk _) (Nat.le_refl k), _,
      argument?_store hframe hk _, hv.writes (by decide) hnul⟩

/-! ## Interpolations -/

section Interpolation

variable (env scope s)

/-- What is known of the parts of an interpolation: their variables have values, which the slots
hold too, and there is no zero in a text. -/
structure Supplied (words : Slot → BitVec 64) (parts : List Part) : Prop where
  texts : ∀ source, .text source ∈ parts → NulFree (Escape.text source)
  vars : ∀ name, .var name ∈ parts → ∃ symbol v, scope.frame.lookup name = some symbol ∧
    s.locals.get? name = some v ∧ env.Holds words symbol.slot symbol.shape v ∧
    ∀ text, v = .str text → NulFree text

/-- Argument number `k + i` is written as the value of variable number `i`. -/
def Passes (k : Nat) (names : List String) (m : Machine) : Prop :=
  ∀ (i : Nat) name, names[i]? = some name → ∃ kind w v, Lower.partKind? scope name = some kind ∧
    env.argument? m (k + i) = some w ∧ s.locals.get? name = some v ∧ env.Writes w v.text kind

end Interpolation

variable {words : Slot → BitVec 64} {part : Part} {rest parts : List Part} {r : String × Code}

theorem Supplied.tail (h : env.Supplied scope s words (part :: rest)) :
    env.Supplied scope s words rest where
  texts source hmem := h.texts source (List.mem_cons_of_mem _ hmem)
  vars name hmem := h.vars name (List.mem_cons_of_mem _ hmem)

theorem Supplied.values (h : env.Supplied scope s words parts) (name : String)
    (hmem : .var name ∈ parts) : ∃ v, s.locals.get? name = some v := by
  obtain ⟨_, v, -, hv, -⟩ := h.vars name hmem
  exact ⟨v, hv⟩

theorem Installed.interpolate (hr : Lower.interpolate scope k parts = .ok r)
    (h : env.Installed place pos r.2) (hframe : scope.frame.Sound) (hm : env.InFrame base m)
    (hk : k + parts.countP Lower.isVar ≤ 8)
    (hsupplied : env.Supplied scope s (m.slots base) parts) :
    env.Leads (env.pc pos) m (env.pc (pos + r.2.size)) fun m' =>
      Stored k m m' ∧ env.Passes scope s k (parts.filterMap Part.name?) m' := by
  induction parts generalizing k r pos m with
  | nil =>
    obtain rfl := Lower.interpolate_nil hr
    exact .refl ⟨.refl k m, by simp [Passes]⟩
  | cons part rest ih =>
    cases part with
    | text source =>
      obtain ⟨r', hr', rfl⟩ := Lower.interpolate_text hr
      have hrest := ih hr' h hm hk hsupplied.tail
      exact hrest
    | var name =>
      obtain ⟨slot, shape, kind, r', hshape, hkind, hr', rfl⟩ := Lower.interpolate_var hr
      obtain ⟨symbol, v, hsymbol, hv, hholds, hnul⟩ := hsupplied.vars name List.mem_cons_self
      obtain ⟨rfl, rfl⟩ : symbol.slot = slot ∧ symbol.shape = shape := by
        simpa [Scope.shape?, hsymbol] using hshape
      have hslot : symbol.slot.index.toNat < 256 := by
        obtain ⟨hidden, hapart⟩ := hframe
        refine hapart.cell_lt hsymbol symbol.slot ?_
        rw [Shape.cells_scalar (by rw [hkind]; rfl)]
        exact List.mem_cons_self
      have hcount : k + 1 + rest.countP Lower.isVar ≤ 8 := by
        rw [List.countP_cons_of_pos rfl] at hk
        omega
      rw [installed_append] at h
      rw [Code.size_append, ← Nat.add_assoc]
      refine (h.1.storeVariable hm hslot (by omega) ((holds_scalar hkind).mp hholds) hnul).trans ?_
      rintro m₁ ⟨hstored, w, hargument, hwrites⟩
      have hm₁ := hstored.inFrame hm
      refine (ih hr' h.2 hm₁ hcount (by rw [hstored.slots hm]; exact hsupplied.tail)).mono ?_
      rintro m' ⟨hstored', hpasses⟩
      refine ⟨hstored.trans hstored' (Nat.le_succ k), ?_⟩
      -- this variable is number 0, and the others come one later than in the rest
      intro i other hother
      cases i with
      | zero =>
        obtain rfl : name = other := Option.some.inj hother
        refine ⟨kind, w, v, ?_, ?_, hv, hwrites⟩
        · rw [Lower.partKind?, hshape, Option.bind_some, hkind]
        · rw [← hargument]
          exact hstored'.argument? hm₁ (Nat.lt_succ_self k) (by omega)
      | succ i =>
        rw [Nat.add_comm i 1, ← Nat.add_assoc]
        exact hpasses i other hother

theorem formatted?_lineFormat
    (hpasses : env.Passes scope s k (parts.filterMap Part.name?) m) :
    env.formatted? (env.argument? m) k (Bytes.ofText (Lower.lineFormat scope parts)) =
      some (Bytes.ofText (String.join (parts.map (Part.textIn s.locals)) ++ "\n")) := by
  induction parts generalizing k with
  | nil => exact env.formatted?_lastText _ k "\n"
  | cons part rest ih =>
    rw [Lower.lineFormat_cons, Bytes.ofText_append, List.map_cons, String.join_cons,
      String.append_assoc, Bytes.ofText_append]
    cases part with
    | text source =>
      rw [Lower.directive, formatted?_text, ih hpasses]
      rfl
    | var name =>
      obtain ⟨kind, w, v, hkind, hargument, hv, hwrites⟩ := hpasses 0 name rfl
      have hrest : env.Passes scope s (k + 1) (rest.filterMap Part.name?) m := by
        intro i other hother
        rw [Nat.add_assoc, Nat.add_comm 1 i]
        exact hpasses (i + 1) other hother
      rw [Nat.add_zero] at hargument
      rw [Lower.directive, hkind, Option.map_some, Option.getD_some,
        formatted?_conversion _ hargument hwrites, ih hrest, Part.textIn, hv]
      rfl

theorem Supplied.nulFree (h : env.Supplied scope s words parts) :
    NulFree (Lower.lineFormat scope parts) := by
  induction parts with
  | nil =>
    have hnewline : NulFree "\n" := by decide
    exact hnewline
  | cons part rest ih =>
    rw [Lower.lineFormat_cons]
    refine NulFree.append ?_ (ih h.tail)
    cases part with
    | text source => exact (h.texts source List.mem_cons_self).percentDoubled
    | var name =>
      rw [Lower.directive]
      cases Lower.partKind? scope name with
      | none => decide
      | some kind => exact nulFree_conversion kind

end Process

theorem Lower.printInterpolation_ok {scope scope' : Scope} {parts : List Part} {c : Code}
    (h : print (.interpolation parts) scope = .ok (c, scope')) :
    parts.countP isVar ≤ 8 ∧
      ∃ stores, interpolate scope 0 parts = .ok (lineFormat scope parts, stores) ∧
        c = stores ++ printf (lineFormat scope parts) := by
  rw [print, printInterpolation] at h
  split at h
  · rw [Lowering.fail_ok] at h
    exact h.elim
  · rename_i hcount
    refine ⟨Nat.le_of_not_lt hcount, ?_⟩
    simp only [Lowering.bind_ok, Lowering.get_ok] at h
    obtain ⟨_, _, ⟨rfl, rfl⟩, h⟩ := h
    cases hr : interpolate scope 0 parts with
    | error e =>
      rw [hr] at h
      exact ((Lowering.refuse_ok _ _ _).mp h).elim
    | ok r =>
      obtain ⟨format, stores⟩ := r
      rw [hr] at h
      obtain ⟨rfl, -⟩ := (Lowering.pure_ok _ _ _ _).mp h
      obtain rfl : format = _ := interpolate_format hr
      exact ⟨stores, rfl, rfl⟩

theorem Run.eval_interpolation {fuel : Fuel} (hfuel : 1 ≤ fuel.depth) {parts : List Part}
    {s : State} (h : ∀ name, .var name ∈ parts → ∃ v, s.locals.get? name = some v) :
    Run.eval fuel (.interpolation parts) s =
      .done (.str (String.join (parts.map (Part.textIn s.locals)))) s := by
  obtain ⟨depth, rounds⟩ := fuel
  obtain ⟨depth, rfl⟩ := Nat.exists_eq_add_of_le' hfuel
  rw [Run.eval, Run.evalWithin, Run.bind_done]
  exact ⟨_, s, Run.mapAll_partText h, rfl⟩

open Process in
/-- The code of an interpolated print stores the variables and calls `printf` once, as its last
line. The format has one conversion for each variable, and the arguments are the variables in the
same order. What is written is the text that the interpolation evaluates to, and a newline. -/
theorem interpolation_printed {image : Image} {place : Label → Nat} {before c after : Code}
    (hbuilt : image.Built place (before ++ c ++ after)) (env : Process image)
    {scope scope' : Scope} {parts : List Part}
    (hprint : Lower.print (.interpolation parts) scope = .ok (c, scope'))
    (hframe : scope.frame.Sound) {base : Nat} {m : Machine} (hm : env.InFrame base m) {s : State}
    (hsupplied : env.Supplied scope s (m.slots base) parts) (fuel : Fuel) (hfuel : 1 ≤ fuel.depth) :
    ∃ stores text, c = stores ++ Lower.printf (Lower.lineFormat scope parts) ∧
      (∀ line ∈ stores, line.still = true) ∧
      Run.eval fuel (.interpolation parts) s = .done (.str text) s ∧
      env.Leads (env.pc before.size) m (env.pc (before ++ stores).size) fun m₁ =>
        m₁.output = m.output ∧ env.Passes scope s 0 (parts.filterMap Part.name?) m₁ ∧
        env.Leads (env.pc (before ++ stores).size) m₁ (env.pc (before ++ c).size)
          (Printed m (Bytes.ofText (text ++ "\n"))) := by
  obtain ⟨hcount, stores, hr, rfl⟩ := Lower.printInterpolation_ok hprint
  have heval := Run.eval_interpolation hfuel hsupplied.values
  refine ⟨stores, _, rfl, Lower.interpolate_still hr, heval, ?_⟩
  have hinstalled := env.installed_of_built _ place hbuilt
  rw [installed_append, installed_append, Nat.zero_add, installed_append] at hinstalled
  obtain ⟨⟨-, hstores, hprintf⟩, -⟩ := hinstalled
  rw [Code.size_append]
  refine (hstores.interpolate hr hframe hm (by omega) hsupplied).mono ?_
  rintro m₁ ⟨hstored, hpasses⟩
  refine ⟨hstored.output, hpasses, ?_⟩
  have hwritten := formatted?_lineFormat hpasses
  rw [← hsupplied.nulFree.takeWhile] at hwritten
  refine ((hprintf.printf (hstored.inFrame hm).aligned hwritten).mono fun m' hprinted =>
    hstored.printed hprinted).cast ?_
  rw [Code.size_append, Code.size_append, Nat.add_assoc]

/-- A variable of each kind. -/
def readingScope : Scope :=
  { Session.enter ⟨[], [], .empty, none⟩ false with
    frame := (Frame.History.after [.assign "n" (.scalar .int), .assign "x" (.scalar .float),
      .assign "ok" (.scalar .bool), .assign "unit" (.scalar .string),
      .assign "side" (.enumCase "Side")]).frame }

def readingState : State :=
  { State.initial with locals := [("n", .int (-7)), ("x", .float ⟨0x3FE0000000000000⟩),
      ("ok", .bool true), ("unit", .str "%s"), ("side", .str "left")] }

/-- A percent sign stands before a conversion, and one before letters that would make it another. -/
def readingParts : List Part :=
  [.text "%", .var "n", .text "%ld\\t", .var "x", .var "unit", .var "ok", .var "side"]

/-- Lines that put the strings of the state among the constants. -/
def readingTexts : Code :=
  [.entry, .address .x0 (Bytes.ofText "%s"), .address .x0 (Bytes.ofText "left")]

theorem reading_sound : readingScope.frame.Sound := by
  refine ⟨_, (Frame.History.apart_after _ ?_).frame⟩
  intro op hop
  simp only [List.mem_cons, List.not_mem_nil, or_false] at hop
  rcases hop with rfl | rfl | rfl | rfl | rfl <;> rfl

open Process in
theorem reading_supplied {image : Image} {env : Process image} {words : Slot → BitVec 64}
    (h₀ : words ⟨0⟩ = -7) (h₁ : words ⟨1⟩ = 0x3FE0000000000000) (h₂ : words ⟨2⟩ = 1)
    (h₃ : env.StringAt (words ⟨3⟩) (Bytes.ofText "%s"))
    (h₄ : env.StringAt (words ⟨4⟩) (Bytes.ofText "left")) :
    env.Supplied readingScope readingState words readingParts where
  texts source hmem := by
    simp only [readingParts, List.mem_cons, List.not_mem_nil, or_false, Part.text.injEq,
      reduceCtorEq, false_or] at hmem
    rcases hmem with rfl | rfl <;> decide +kernel
  vars name hmem := by
    simp only [readingParts, List.mem_cons, List.not_mem_nil, or_false, Part.var.injEq,
      reduceCtorEq, false_or] at hmem
    rcases hmem with rfl | rfl | rfl | rfl | rfl
    · exact ⟨⟨⟨0⟩, 1, .scalar .int⟩, .int (-7), rfl, rfl, h₀, fun _ h => by cases h⟩
    · exact ⟨⟨⟨1⟩, 1, .scalar .float⟩, .float ⟨0x3FE0000000000000⟩, rfl, rfl, h₁,
        fun _ h => by cases h⟩
    · exact ⟨⟨⟨3⟩, 1, .scalar .string⟩, .str "%s", rfl, rfl, h₃, fun _ h => by cases h; decide⟩
    · exact ⟨⟨⟨2⟩, 1, .scalar .bool⟩, .bool true, rfl, rfl, h₂, fun _ h => by cases h⟩
    · exact ⟨⟨⟨4⟩, 1, .enumCase "Side"⟩, .str "left", rfl, rfl, h₄, fun _ h => by cases h; decide⟩

theorem reading_printed : ∃ c scope',
    Lower.print (.interpolation readingParts) readingScope = .ok (c, scope') ∧
      ∃ (image : Image) (place : Label → Nat) (env : Process image) (base : Nat) (m : Machine),
        image.Built place (readingTexts ++ c ++ []) ∧ env.InFrame base m ∧
        env.Supplied readingScope readingState (m.slots base) readingParts ∧
        ∃ stores text, c = stores ++ Lower.printf "%%%ld%%ld\t%g%s%s%s\n" ∧
          Run.eval ⟨1, 0⟩ (.interpolation readingParts) readingState =
            .done (.str text) readingState ∧ text = "%-7%ld\t0.5%strueleft" ∧
          env.Leads (env.pc readingTexts.size) m (env.pc (readingTexts ++ c).size) fun m' =>
            m'.output = Bytes.ofText (text ++ "\n") := by
  have hlowered : ∃ c scope',
      Lower.print (.interpolation readingParts) readingScope = .ok (c, scope') ∧
      Asm.Listing.Labelled ⟨scope'.labels, readingTexts ++ c ++ []⟩ ∧
      Code.Small (readingTexts ++ c ++ []) := by
    refine ⟨_, _, rfl, ?_⟩
    decide +kernel
  obtain ⟨c, scope', hprint, hlabelled, hsmall⟩ := hlowered
  obtain ⟨image, place, hbuilt⟩ := hlabelled.exists_built hsmall.1
  obtain ⟨env, base, -, hframe⟩ := Process.exists_frame hbuilt hsmall
  have hinterns := (env.installed_of_built _ place hbuilt).interns
  obtain ⟨a₃, h₃⟩ := hinterns .x0 (Bytes.ofText "%s") (by simp [readingTexts])
  obtain ⟨a₄, h₄⟩ := hinterns .x0 (Bytes.ofText "left") (by simp [readingTexts])
  obtain ⟨m, hm, -, hout, hslots⟩ := hframe fun o =>
    if o = 64 then -7 else if o = 72 then 0x3FE0000000000000 else if o = 80 then 1
    else if o = 88 then a₃ else a₄
  have hsupplied : env.Supplied readingScope readingState (m.slots base) readingParts :=
    reading_supplied (hslots ⟨0⟩) (hslots ⟨1⟩) (hslots ⟨2⟩) ((hslots ⟨3⟩).symm ▸ h₃)
      ((hslots ⟨4⟩).symm ▸ h₄)
  obtain ⟨stores, text, hc, -, heval, hleads⟩ := interpolation_printed hbuilt env hprint
    reading_sound hm hsupplied ⟨1, 0⟩ (Nat.le_refl 1)
  have htext : text = "%-7%ld\t0.5%strueleft" := by
    rw [Run.eval_interpolation (Nat.le_refl 1) hsupplied.values, Outcome.done.injEq,
      Value.str.injEq] at heval
    rw [← heval.1]
    decide +kernel
  have hformat : Lower.lineFormat readingScope readingParts = "%%%ld%%ld\t%g%s%s%s\n" := by
    decide +kernel
  rw [hformat] at hc
  refine ⟨c, scope', hprint, image, place, env, base, m, hbuilt, hm, hsupplied, stores, text, hc,
    heval, htext, hleads.trans ?_⟩
  rintro m₁ ⟨-, -, hprinted⟩
  refine hprinted.mono fun m' hm' => ?_
  rw [hm'.output, hout]
  rfl

end Armature
