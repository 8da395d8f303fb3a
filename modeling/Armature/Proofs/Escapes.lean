import Armature.Eval.Run
import Armature.Lower.Program
import Armature.Proofs.Assembled
import Armature.Proofs.Texts
import Mathlib.Algebra.Ring.Parity
import Mathlib.Data.List.DropRight

/-!
# Escapes

The bytes of a literal are those of a text, the one that evaluation has for it. Two texts can be
expanded one by one if the first does not end inside an escape, which is told by the number of
backslashes at its end.
-/

namespace Armature

open Asm (Assembly)

namespace Escape

/-! ## Ends of a text -/

/-- Whether an escape has begun, after one more character. -/
def opens (begun : Bool) (c : Char) : Bool := c = '\\' && !begun

/-- Whether the text ends inside an escape. -/
def pending (source : List Char) : Bool := source.foldl opens false

theorem pending_escape (c : Char) (rest : List Char) :
    pending ('\\' :: c :: rest) = pending rest := by
  simp [pending, opens]

theorem pending_plain {c : Char} (hc : c ≠ '\\') (rest : List Char) :
    pending (c :: rest) = pending rest := by
  simp [pending, opens, hc]

theorem pending_concat (source : List Char) (c : Char) :
    pending (source ++ [c]) = opens (pending source) c := by
  simp [pending]

/-- How many backslashes stand at the end. -/
def trailing (source : List Char) : Nat := (source.rtakeWhile (· = '\\')).length

/-- In a run of backslashes every second one ends an escape. -/
theorem pending_iff_odd (source : List Char) : pending source = true ↔ Odd (trailing source) := by
  induction source using List.reverseRecOn with
  | nil => simp [pending, trailing]
  | append_singleton source c ih =>
    rw [pending_concat, trailing]
    by_cases hc : c = '\\'
    · rw [List.rtakeWhile_concat_pos _ _ _ (by simpa using hc), List.length_append,
        List.length_singleton, Nat.odd_add_one]
      rw [trailing] at ih
      simp [opens, hc, ← ih]
    · rw [List.rtakeWhile_concat_neg _ _ _ (by simpa using hc)]
      simp [opens, hc]

/-! ## Texts one behind the other -/

theorem chars_plain {c : Char} (hc : c ≠ '\\') (rest : List Char) :
    chars (c :: rest) = c :: chars rest := by
  rw [chars]
  · intro h
    exact absurd h hc
  · intro _ _ h
    exact absurd h hc

theorem chars_append {a : List Char} (h : pending a = false) (b : List Char) :
    chars (a ++ b) = chars a ++ chars b := by
  -- an escape of the first text is read whole, since that text does not end inside it
  fun_induction chars a with
  | case1 => rfl
  | case2 => cases h
  | case3 c rest m hm ih =>
    rw [pending_escape] at h
    simp [chars, hm, ih h]
  | case4 c rest hm ih =>
    rw [pending_escape] at h
    simp [chars, hm, ih h]
  | case5 c rest hlast hpair ih =>
    have hc : c ≠ '\\' := by
      rintro rfl
      cases rest with
      | nil => exact hlast rfl rfl
      | cons c rest => exact hpair c rest rfl rfl
    rw [pending_plain hc] at h
    rw [List.cons_append, chars_plain hc, ih h, List.cons_append]

theorem utf8_append {a : List Char} (h : pending a = false) (b : List Char) :
    utf8 (a ++ b) = utf8 a ++ utf8 b := by
  rw [utf8_eq, utf8_eq, utf8_eq, chars_append h, List.flatMap_append]

theorem exists_concat_of_pending {source : List Char} (h : pending source = true) :
    ∃ a, source = a ++ ['\\'] ∧ pending a = false := by
  rcases source.eq_nil_or_concat with rfl | ⟨a, c, rfl⟩
  · cases h
  · rw [List.concat_eq_append] at h ⊢
    rw [pending_concat, opens, Bool.and_eq_true, decide_eq_true_eq, Bool.not_eq_true'] at h
    obtain ⟨rfl, ha⟩ := h
    exact ⟨a, rfl, ha⟩

/-- The letter behind a text is taken into the escape that the text ends in. -/
theorem utf8_append_n {a : List Char} (h : pending a = true) :
    utf8 (a ++ ['n']) ≠ utf8 a ++ utf8 ['n'] := by
  obtain ⟨a, rfl, ha⟩ := exists_concat_of_pending h
  rw [List.append_assoc, utf8_append ha, utf8_append ha, List.append_assoc]
  intro heq
  exact absurd (List.append_cancel_left heq) (by decide +kernel)

theorem bytes_append_iff (a : String) :
    (∀ b, bytes (a ++ b) = bytes a ++ bytes b) ↔ ¬ Odd (trailing a.toList) := by
  simp only [bytes, String.toList_append, ← pending_iff_odd, Bool.not_eq_true]
  constructor
  · intro h
    by_contra hpending
    exact utf8_append_n (by simpa using hpending) (h "n")
  · exact fun h b => utf8_append h b.toList

/-! ## Bytes and text of a literal -/

theorem fromUTF8?_bytes (source : String) :
    String.fromUTF8? (bytes source).toByteArray = some (text source) := by
  have hbytes : (bytes source).toByteArray = (text source).toByteArray := by
    rw [bytes_eq, Bytes.ofText_eq_data]
    apply ByteArray.ext
    rw [List.data_toByteArray, Array.toArray_toList]
  rw [hbytes, String.fromUTF8?, dif_pos (text source).isValidUTF8]
  rfl

end Escape

theorem Asm.Assembly.line_address (a : Assembly) (reg : A64.XReg) (bytes : Bytes) :
    ∃ a' n, a.line (.address reg bytes) = .ok a' ∧ a'.pool.strings[n]? = some bytes ∧
      a'.references = a.references.push ⟨a.code.size, .constant (.string n)⟩ :=
  ⟨_, _, rfl, (a.pool.internString_spec bytes).2, rfl⟩

/-- Expanded literals are well-formed, and the same on both ways. Their bytes are UTF-8, evaluation
has the text that they stand for, and code interns the bytes of that text. Two texts are expanded
one by one, whatever the second is, exactly if the first does not end in an odd number of
backslashes. -/
theorem expansion_compositional :
    (∀ source, String.fromUTF8? (Escape.bytes source).toByteArray = some (Escape.text source)) ∧
    (∀ (source : String) (fuel : Fuel) (s : State) (scope : Scope) (d : Nat) (a : Assembly),
      0 < fuel.depth → ∃ text line a' n,
        Run.eval fuel (.str source) s = .done (.str text) s ∧
        Lower.expr scope d (.str source) = .ok ⟨.string, [line]⟩ ∧ a.line line = .ok a' ∧
        a'.references = a.references.push ⟨a.code.size, .constant (.string n)⟩ ∧
        a'.pool.strings[n]? = some (Bytes.ofText text) ∧
        Bytes.ofText text = Escape.bytes source) ∧
    ∀ a, (∀ b, Escape.bytes (a ++ b) = Escape.bytes a ++ Escape.bytes b) ↔
      ¬ Odd (Escape.trailing a.toList) := by
  refine ⟨Escape.fromUTF8?_bytes, fun source fuel s scope d a hfuel => ?_, Escape.bytes_append_iff⟩
  obtain ⟨a', n, hline, hcontent, hreference⟩ := a.line_address .x0 (Escape.bytes source)
  obtain ⟨depth, rounds⟩ := fuel
  obtain ⟨depth, rfl⟩ := Nat.exists_eq_add_of_le' hfuel
  exact ⟨Escape.text source, _, a', n, rfl, rfl, hline, hreference,
    by rw [hcontent, Escape.bytes_eq], (Escape.bytes_eq source).symm⟩

/-- An unknown escape of a character that is two bytes, and texts that end in two backslashes and
in three. -/
theorem accents_expanded :
    String.fromUTF8? (Escape.bytes "\\é\\n").toByteArray = some "\\é\n" ∧
    (∃ line a', ∃ n : Nat,
      Run.eval ⟨1, 0⟩ (.str "\\é\\n") .initial = .done (.str "\\é\n") .initial ∧
      Lower.expr (Lower.Declared.none.session.enter false) 0 (.str "\\é\\n") = .ok ⟨.string, [line]⟩ ∧
      (Assembly.start .empty).line line = .ok a' ∧
      a'.pool.strings[n]? = some (Bytes.ofText "\\é\n")) ∧
    Escape.bytes ("é\\\\" ++ "n") = Escape.bytes "é\\\\" ++ Escape.bytes "n" ∧
    ∃ b, Escape.bytes ("é\\\\\\" ++ b) ≠ Escape.bytes "é\\\\\\" ++ Escape.bytes b := by
  obtain ⟨hvalid, hliteral, happend⟩ := expansion_compositional
  have htext : Escape.text "\\é\\n" = "\\é\n" := by decide +kernel
  obtain ⟨text, line, a', n, heval, hexpr, hline, -, hcontent, -⟩ :=
    hliteral "\\é\\n" ⟨1, 0⟩ .initial (Lower.Declared.none.session.enter false) 0 (.start .empty)
      (by decide)
  obtain rfl : Escape.text "\\é\\n" = text := by
    cases heval
    rfl
  rw [htext] at heval hcontent
  refine ⟨by rw [hvalid, htext], ⟨line, a', n, heval, hexpr, hline, hcontent⟩,
    (happend _).mpr (by decide +kernel) _, ?_⟩
  by_contra hall
  exact absurd ((happend _).mp (by simpa using hall)) (by decide +kernel)

end Armature
