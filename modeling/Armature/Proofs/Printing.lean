import Armature.Lower.Print
import Armature.Proofs.Computing

/-!
# Printing values

A value is stored where `printf` expects its first argument, and a format says how to print it.
-/

namespace Armature

open A64 (Instr Machine XReg)
open Asm (Code Image Label Line)

/-- A value that `printf` can be given: not a float, and no string with a zero in it. -/
def Value.Leaf : Value → Prop
  | int _ | bool _ => True
  | str text => NulFree text
  | _ => False

namespace Process

variable {image : Image} {env : Process image} {place : Label → Nat} {k : Nat} {m : Machine}

/-! ## Formats -/

section Formats

variable (argument? : Nat → Option (BitVec 64)) (k : Nat) (rest : Bytes)

theorem formatted?_bytes {bytes : Bytes} (hbytes : 0x25 ∉ bytes) :
    env.formatted? argument? k (bytes ++ rest) =
      (env.formatted? argument? k rest).map (bytes ++ ·) := by
  induction bytes with
  | nil => simp
  | cons b bytes ih =>
    rw [List.mem_cons, not_or] at hbytes
    have hb : b ≠ 0x25 := Ne.symm hbytes.1
    rw [List.cons_append, formatted?]
    · rw [if_neg hb, ih hbytes.2]
      cases env.formatted? argument? k rest <;> rfl
    all_goals
      rintro _ rfl
      exact absurd rfl hb

theorem formatted?_text (text : String) :
    env.formatted? argument? k (Bytes.ofText (percentDoubled text) ++ rest) =
      (env.formatted? argument? k rest).map (Bytes.ofText text ++ ·) := by
  rw [percentDoubled, Bytes.ofText_ofList, Bytes.ofText_eq]
  induction text.toList with
  | nil => simp
  | cons c chars ih =>
    rw [List.flatMap_cons, List.flatMap_append, List.append_assoc, List.flatMap_cons]
    split
    · rename_i hc
      have hpercent : String.utf8EncodeChar '%' = [0x25] := by decide +kernel
      rw [hc, List.flatMap_cons, List.flatMap_cons, hpercent]
      simp only [List.flatMap_nil, List.append_nil, List.cons_append, List.nil_append]
      rw [formatted?, ih]
      cases env.formatted? argument? k rest <;> rfl
    · rename_i hc
      have hbytes : 0x25 ∉ String.utf8EncodeChar c := fun hmem =>
        hc (Char.toNat_inj.mp (Bytes.ascii_of_mem_encode hmem (by decide)))
      rw [List.flatMap_cons, List.flatMap_nil, List.append_nil, formatted?_bytes _ _ _ hbytes, ih,
        Option.map_map]
      congr 1
      funext bytes
      exact (List.append_assoc ..).symm

theorem formatted?_lastText (text : String) :
    env.formatted? argument? k (Bytes.ofText (percentDoubled text)) =
      some (Bytes.ofText text) := by
  simpa [formatted?] using env.formatted?_text argument? k [] text

end Formats

/-- What a format writes for an argument of the kind. -/
def Writes (env : Process image) (w : BitVec 64) (text : String) : Scalar → Prop
  | .int => text = toString w.toInt
  | .bool | .string => env.string? w = some (Bytes.ofText text)
  | .float => text = (ofBits w).text

theorem nulFree_conversion (kind : Scalar) : NulFree (Lower.conversion kind) := by
  cases kind <;> decide

theorem formatted?_conversion {argument? : Nat → Option (BitVec 64)} {kind : Scalar} {k : Nat}
    {w : BitVec 64} {text : String} (rest : Bytes) (hargument : argument? k = some w)
    (htext : env.Writes w text kind) :
    env.formatted? argument? k (Bytes.ofText (Lower.conversion kind) ++ rest) =
      (env.formatted? argument? (k + 1) rest).map (Bytes.ofText text ++ ·) := by
  cases kind with
  | int =>
    have hint : Bytes.ofText (Lower.conversion .int) = [0x25, 0x6C, 0x64] := by decide +kernel
    rw [hint, show text = _ from htext]
    simp only [List.cons_append, List.nil_append, formatted?, hargument]
    cases env.formatted? argument? (k + 1) rest <;> rfl
  | float =>
    have hfloat : Bytes.ofText (Lower.conversion .float) = [0x25, 0x67] := by decide +kernel
    rw [hfloat, show text = _ from htext]
    simp only [List.cons_append, List.nil_append, formatted?, hargument]
    cases env.formatted? argument? (k + 1) rest <;> rfl
  | bool | string =>
    have hstring : Bytes.ofText "%s" = [0x25, 0x73] := by decide +kernel
    have htext : env.string? w = some (Bytes.ofText text) := htext
    rw [Lower.conversion, hstring]
    simp only [List.cons_append, List.nil_append, formatted?, hargument, Option.bind_eq_bind,
      Option.bind_some, htext]
    cases env.formatted? argument? (k + 1) rest <;> rfl

theorem formatted?_argument {argument? : Nat → Option (BitVec 64)} {kind : Scalar} {w : BitVec 64}
    {before text after : String} (hbefore : NulFree before) (hafter : NulFree after)
    (hargument : argument? 0 = some w) (htext : env.Writes w text kind) :
    env.formatted? argument? 0 ((Bytes.ofText (percentDoubled before ++ Lower.conversion kind ++
        percentDoubled after)).takeWhile (· ≠ 0)) =
      some (Bytes.ofText (before ++ text ++ after)) := by
  rw [((hbefore.percentDoubled.append (nulFree_conversion kind)).append
    hafter.percentDoubled).takeWhile]
  simp only [Bytes.ofText_append, List.append_assoc, formatted?_text,
    formatted?_conversion _ hargument htext, formatted?_lastText, Option.map_some]

/-! ## Calls -/

/-- What the code of a print statement leaves as it was, and what it prints. The arguments of
`printf` are in the first 64 bytes of the stack. -/
structure Printed (m : Machine) (text : Bytes) (m' : Machine) : Prop where
  saved : ∀ n : BitVec 5, 19 ≤ n.toNat → n.toNat ≤ 29 → m'.x n = m.x n
  sp : m'.sp = m.sp
  stack : ∀ a, m.sp.toNat + 64 ≤ a → m'.stack a = m.stack a
  output : m'.output = m.output ++ text

theorem Printed.ofQuiet {m₁ m' : Machine} {text : Bytes} (h : Printed m₁ text m')
    (hquiet : m.Quiet 9 m₁) (houtput : m₁.output = m.output) : Printed m text m' where
  saved n hl hu := by
    rw [h.saved n hl hu, hquiet.regs n (Machine.survives_nine hl hu)]
  sp := h.sp.trans hquiet.sp
  stack a ha := by
    rw [h.stack a (by rw [hquiet.sp]; exact ha), hquiet.stack a (by omega)]
  output := by rw [h.output, houtput]

theorem Installed.printf {format : String} {text : Bytes}
    (h : env.Installed place k (Lower.printf format)) (haligned : m.sp.toNat % 16 = 0)
    (htext : env.formatted? (env.argument? m) 0 ((Bytes.ofText format).takeWhile (· ≠ 0)) =
      some text) :
    env.Leads (env.pc k) m (env.pc (k + Code.size (Lower.printf format))) (Printed m text) := by
  simp only [Lower.printf, installed_cons] at h
  obtain ⟨haddress, hcall, -⟩ := h
  obtain ⟨a, hstring, haddress⟩ := haddress.address (by decide)
  refine (haddress m).trans ?_
  rintro _ rfl
  have hsp : (m.put .x0 a).sp = m.sp := m.sp_put_of_ne .x0 a (by decide)
  have hprinted : env.printed? (m.put .x0 a) = some text := by
    have hx0 : (m.put .x0 a).get .x0 = a := m.get_put_self .x0 a (by decide)
    rw [printed?, hsp, if_pos haligned, hx0, hstring.string?, argument?_put m .x0 a (by decide)]
    exact htext
  refine (hcall.callPrintf hprinted).mono ?_
  rintro m' ⟨hkept, houtput⟩
  refine ⟨?_, hkept.sp.trans hsp, ?_, houtput⟩
  · intro n hl hu
    rw [hkept.saved n hl hu, m.x_put_of_ne]
    rintro rfl
    exact absurd hl (by decide)
  · intro a ha
    exact hkept.stack a (by rw [hsp]; omega)

/-! ## Arguments -/

section Arguments

variable {base i : Nat} (hframe : env.InFrame base m) (hi : i < 8)

include hframe hi

theorem toNat_argumentAddress :
    (m.sp + BitVec.ofNat 64 (8 * i)).toNat = m.sp.toNat + 8 * i := by
  have hbelow := hframe.below
  have hhigh := hframe.high
  have hle := env.stack_le
  have hbytes : Frame.localBytes = 2112 := rfl
  rw [BitVec.toNat_add, BitVec.toNat_ofNat]
  omega

theorem argument?_stack : env.argument? m i = some (m.stack (m.sp.toNat + 8 * i)) := by
  have haddress := toNat_argumentAddress hframe hi
  have haligned := hframe.aligned
  have hlow := hframe.low
  have hbelow := hframe.below
  have hhigh := hframe.high
  have hbytes : Frame.localBytes = 2112 := rfl
  rw [argument?, env.load?_stack m _ (by omega) (by omega) (by omega), haddress]

theorem store?_argument (v : BitVec 64) :
    env.store? m (m.sp + (BitVec.ofNat 16 (8 * i)).setWidth 64) v =
      some (m.store (m.sp.toNat + 8 * i) v) := by
  have haddress := toNat_argumentAddress hframe hi
  have haligned := hframe.aligned
  have hlow := hframe.low
  have hbelow := hframe.below
  have hhigh := hframe.high
  have hbytes : Frame.localBytes = 2112 := rfl
  have hoffset : (BitVec.ofNat 16 (8 * i)).setWidth 64 = BitVec.ofNat 64 (8 * i) := by
    apply BitVec.eq_of_toNat_eq
    rw [BitVec.toNat_setWidth, BitVec.toNat_ofNat, BitVec.toNat_ofNat]
    omega
  rw [hoffset, env.store?_stack m _ _ (by omega) (by omega) (by omega), haddress]

theorem perform?_storeArgument :
    env.perform? m (.strX .x0 .sp (BitVec.ofNat 16 (8 * i))) =
      some (m.store (m.sp.toNat + 8 * i) (m.get .x0)) := by
  simp only [perform?, base?_sp m hframe.aligned, Option.bind_eq_bind, Option.bind_some,
    store?_argument hframe hi]

theorem perform?_storeDouble :
    env.perform? m (.strD .d0 .sp (BitVec.ofNat 16 (8 * i))) =
      some (m.store (m.sp.toNat + 8 * i) (m.getD .d0).bits.toBitVec) := by
  simp only [perform?, base?_sp m hframe.aligned, Option.bind_eq_bind, Option.bind_some,
    store?_argument hframe hi]

end Arguments

theorem Installed.printArgument {base : Nat} {format : String} {text : Bytes}
    (h : env.Installed place k (.instr (.strX .x0 .sp 0) :: Lower.printf format))
    (hframe : env.InFrame base m)
    (htext : ∀ argument? : Nat → Option (BitVec 64), argument? 0 = some (m.get .x0) →
      env.formatted? argument? 0 ((Bytes.ofText format).takeWhile (· ≠ 0)) = some text) :
    env.Leads (env.pc k) m (env.pc (k + 1 + Code.size (Lower.printf format)))
      (Printed m text) := by
  rw [installed_cons] at h
  refine (h.1.instr (by simp [Instr.Fits]) (perform?_storeArgument hframe (i := 0)
    (by decide))).trans ?_
  rintro _ rfl
  have hframe' : env.InFrame base (m.store m.sp.toNat (m.get .x0)) := hframe.congr rfl rfl
  have hargument : env.argument? (m.store m.sp.toNat (m.get .x0)) 0 = some (m.get .x0) := by
    have hstored := argument?_stack hframe' (i := 0) (by decide)
    rw [Machine.stack_store] at hstored
    exact hstored.trans (congrArg some (if_pos rfl))
  refine (h.2.printf hframe'.aligned (htext _ hargument)).mono ?_
  rintro m' ⟨hsaved, hsp', hstack, houtput⟩
  refine ⟨hsaved, hsp', ?_, houtput⟩
  intro a ha
  have hsp : (m.store m.sp.toNat (m.get .x0)).sp = m.sp := rfl
  rw [hstack a ha, Machine.stack_store, if_neg (by omega)]

/-! ## Lines -/

theorem Installed.boolText {b : Bool} (h : env.Installed place k Lower.boolText)
    (hx0 : m.get .x0 = (Value.bool b).word) :
    env.Leads (env.pc k) m (env.pc (k + Code.size Lower.boolText)) fun m' =>
      env.string? (m'.get .x0) = some (Bytes.ofText (Value.boolText b)) ∧ m.Quiet 9 m' ∧
        m'.output = m.output := by
  have htext (b : Bool) : (Bytes.ofText (Value.boolText b)).takeWhile (· ≠ 0) =
      Bytes.ofText (Value.boolText b) := by
    cases b <;> decide +kernel
  have hfree (n : BitVec 5) (hn : n.toNat < 19) : ¬ Machine.Survives 9 n :=
    Machine.not_survives_of_lt 9 n hn
  simp only [Lower.boolText, installed_cons] at h
  obtain ⟨hcmp, htrue, hfalse, hcsel, -⟩ := h
  refine (hcmp.instr (by simp [Instr.Fits]) rfl).trans ?_
  rintro _ rfl
  obtain ⟨a₁, hstring₁, htrue⟩ := htrue.address (by decide)
  obtain ⟨a₀, hstring₀, hfalse⟩ := hfalse.address (by decide)
  refine (htrue _).trans ?_
  rintro _ rfl
  refine (hfalse _).trans ?_
  rintro _ rfl
  refine (hcsel.instr trivial rfl).mono ?_
  rintro _ rfl
  let m₁ := ((m.compare (.ofWords (m.x 0) 0)).put .x16 a₁).put .x17 a₀
  have hx16 : m₁.get .x16 = a₁ := by
    rw [Machine.get_put_of_ne _ _ _ _ (by decide), Machine.get_put_self _ _ _ (by decide)]
  have hx17 : m₁.get .x17 = a₀ := Machine.get_put_self _ _ _ (by decide)
  have hquiet : m.Quiet 9 m₁ := ((Machine.quiet_compare 9 m _).trans
    (Machine.quiet_put 9 _ .x16 a₁ (hfree _ (by decide)))).trans
    (Machine.quiet_put 9 _ .x17 a₀ (hfree _ (by decide)))
  refine ⟨?_, hquiet.trans (Machine.quiet_put 9 m₁ .x0 _ (hfree _ (by decide))), rfl⟩
  have hflags : m₁.flags = .ofWords (Value.bool b).word 0 := congrArg (A64.Flags.ofWords · 0) hx0
  change env.string? ((m₁.put .x0 (if A64.Cond.ne.holds m₁.flags then m₁.get .x16
    else m₁.get .x17)).get .x0) = _
  rw [Machine.get_put_self _ _ _ (by decide), hflags, hx16, hx17]
  cases b with
  | true => exact hstring₁.string?.trans (congrArg some (htext true))
  | false => exact hstring₀.string?.trans (congrArg some (htext false))

theorem Installed.printBetween {base : Nat} {kind : Scalar} {v : Value} {before after : String}
    (h : env.Installed place k (Lower.storeArgument kind 0 ++
      Lower.printf (percentDoubled before ++ Lower.conversion kind ++ percentDoubled after)))
    (hframe : env.InFrame base m) (hx0 : env.Encodes kind (m.get .x0) v) (hv : v.Leaf)
    (hbefore : NulFree before) (hafter : NulFree after) :
    env.Leads (env.pc k) m (env.pc (k + Code.size (Lower.storeArgument kind 0 ++
      Lower.printf (percentDoubled before ++ Lower.conversion kind ++ percentDoubled after))))
      (Printed m (Bytes.ofText (before ++ v.text ++ after))) := by
  have hwrites {m : Machine} {text : String} (htext : env.Writes (m.get .x0) text kind)
      (argument? : Nat → Option (BitVec 64)) (hargument : argument? 0 = some (m.get .x0)) :=
    formatted?_argument hbefore hafter hargument htext
  cases kind with
  | int =>
    cases v with
    | int i =>
      refine (h.printArgument hframe (hwrites ?_)).cast (by rw [Nat.add_assoc]; rfl)
      rw [show m.get .x0 = i.toBitVec from hx0]
      exact congrArg toString (Int64.toInt_toBitVec i).symm
    | _ => exact hx0.elim
  | string =>
    cases v with
    | str text =>
      refine (h.printArgument hframe (hwrites ?_)).cast (by rw [Nat.add_assoc]; rfl)
      have htext : NulFree text := hv
      exact (StringAt.string? hx0).trans (congrArg some htext.takeWhile)
    | _ => exact hx0.elim
  | bool =>
    cases v with
    | bool b =>
      simp only [Lower.storeArgument, List.append_assoc, List.singleton_append] at h ⊢
      rw [installed_append] at h
      rw [Code.size_append, ← Nat.add_assoc]
      refine (h.1.boolText (hx0.trans (Value.word_bool b).symm)).trans ?_
      rintro m₁ ⟨hstring, hquiet, houtput⟩
      refine ((h.2.printArgument (hframe.quiet hquiet) (hwrites hstring)).mono ?_).cast ?_
      · exact fun m' hprinted => hprinted.ofQuiet hquiet houtput
      · rw [Nat.add_assoc]
        rfl
    | _ => exact hx0.elim
  | float =>
    cases v with
    | float x => exact hv.elim
    | _ => exact hx0.elim

theorem Installed.printLine {base : Nat} {kind : Scalar} {v : Value}
    (h : env.Installed place k (Lower.printLine kind)) (hframe : env.InFrame base m)
    (hv : v.HasWord kind) (hx0 : m.get .x0 = v.word) :
    env.Leads (env.pc k) m (env.pc (k + Code.size (Lower.printLine kind)))
      (Printed m (Bytes.ofText (v.text ++ "\n"))) := by
  have hcode : Lower.printLine kind = Lower.storeArgument kind 0 ++
      Lower.printf (percentDoubled "" ++ Lower.conversion kind ++ percentDoubled "\n") := by
    cases kind <;> rfl
  have hleaf : v.Leaf := by
    unfold Value.HasWord at hv
    split at hv
    · trivial
    · trivial
    · exact hv.elim
  have hencodes := hx0 ▸ encodes_word env hv
  rw [hcode] at h ⊢
  have hleads := h.printBetween hframe hencodes hleaf (by decide) (by decide)
  rwa [String.empty_append] at hleads

theorem Installed.printPart {base : Nat} {kind : Scalar} {v : Value} {before after : String}
    (h : env.Installed place k (Lower.printPart kind before after))
    (hframe : env.InFrame base m) (hx0 : env.Encodes kind (m.get .x0) v) (hv : v.Leaf)
    (hbefore : NulFree before) (hafter : NulFree after) :
    env.Leads (env.pc k) m (env.pc (k + Code.size (Lower.printPart kind before after)))
      (Printed m (Bytes.ofText (before ++ v.repr ++ after))) := by
  have hplain (hkind : kind ≠ .string) (hrepr : v.repr = v.text) :
      env.Leads (env.pc k) m (env.pc (k + Code.size (Lower.printPart kind before after)))
        (Printed m (Bytes.ofText (before ++ v.repr ++ after))) := by
    have hcode : Lower.printPart kind before after = Lower.storeArgument kind 0 ++
        Lower.printf (percentDoubled before ++ Lower.conversion kind ++ percentDoubled after) := by
      cases kind with
      | string => exact absurd rfl hkind
      | _ => rfl
    rw [hcode] at h ⊢
    rw [hrepr]
    exact h.printBetween hframe hx0 hv hbefore hafter
  cases v with
  | int | bool =>
    refine hplain ?_ (by simp [Value.repr, Value.text, Value.render])
    rintro rfl
    exact hx0
  | str text =>
    cases kind with
    | string =>
      have hquote : NulFree "\"" := by decide
      have hcode : Lower.printPart .string before after = Lower.storeArgument .string 0 ++
          Lower.printf (percentDoubled (before ++ "\"") ++ Lower.conversion .string ++
            percentDoubled ("\"" ++ after)) := by
        have hinner : Lower.innerConversion .string =
          percentDoubled "\"" ++ Lower.conversion .string ++ percentDoubled "\"" := rfl
        rw [Lower.printPart, hinner]
        simp only [percentDoubled_append, String.append_assoc]
      have htext : before ++ (Value.str text).repr ++ after =
          (before ++ "\"") ++ (Value.str text).text ++ ("\"" ++ after) := by
        simp [Value.repr, Value.text, Value.render, Value.quote, String.append_assoc]
      rw [hcode] at h ⊢
      rw [htext]
      exact h.printBetween hframe hx0 hv (hbefore.append hquote) (hquote.append hafter)
    | _ => exact hx0.elim
  | _ => exact hv.elim

theorem Installed.printText {text : String} (h : env.Installed place k (Lower.printText text))
    (haligned : m.sp.toNat % 16 = 0) (htext : NulFree text) :
    env.Leads (env.pc k) m (env.pc (k + Code.size (Lower.printText text)))
      (Printed m (Bytes.ofText text)) := by
  refine h.printf haligned ?_
  rw [htext.percentDoubled.takeWhile]
  exact env.formatted?_lastText (env.argument? m) 0 text

end Process

end Armature
