import Armature.Proofs.Layout
import Armature.Proofs.Words

/-!
# What the assembler makes of a code

The words of the code one after the other, a place for each label that is marked, a fixup for each
branch, and a reference for each use of a constant or of a pointer.
-/

namespace Armature.Asm

open A64 (Instr)

/-! ## Labels -/

namespace LabelTable

/-- The place of a label, in bytes. -/
def offset? (t : LabelTable) (label : Label) : Option Nat :=
  t.entries[label.id]?.bind (·.offset)

/-- The label has been created and has no place yet. -/
def Open (t : LabelTable) (label : Label) : Prop :=
  ∃ entry, t.entries[label.id]? = some entry ∧ entry.offset = none

theorem define_open (t : LabelTable) (label : Label) (offset : Nat) (h : t.Open label) :
    ∃ t', t.define label offset = .ok t' := by
  obtain ⟨entry, hentry, hnone⟩ := h
  unfold define
  rw [hentry]
  simp [hnone]

theorem open_of_define (t t' : LabelTable) (label : Label) (offset : Nat)
    (h : t.define label offset = .ok t') : t.Open label := by
  unfold define at h
  split at h
  · cases h
  · rename_i entry hentry
    refine ⟨entry, hentry, ?_⟩
    split at h
    · cases h
    · simpa using ‹¬ entry.offset.isSome = true›

theorem define_spec (t t' : LabelTable) (label : Label) (offset : Nat)
    (h : t.define label offset = .ok t') :
    t'.fixups = t.fixups ∧ t'.entries.size = t.entries.size ∧ t'.offset? label = some offset ∧
      ∀ other, other ≠ label → t'.entries[other.id]? = t.entries[other.id]? := by
  unfold define at h
  split at h
  · cases h
  · rename_i entry hentry
    split at h
    · cases h
    · cases h
      have hlt : label.id < t.entries.size := by
        obtain ⟨hlt, -⟩ := Array.getElem?_eq_some_iff.mp hentry
        exact hlt
      refine ⟨rfl, by simp, by simp [offset?, hlt], ?_⟩
      intro other hne
      have hid : label.id ≠ other.id := by
        intro heq
        exact hne (by cases other; cases label; simp_all)
      simp [Array.getElem?_setIfInBounds_ne hid]

end LabelTable

/-! ## Constants -/

/-- What the address that a line forms is that of. -/
inductive Datum where
  | string (bytes : Bytes)
  | double (bits : UInt64)
  | pointer (f : Import)

def Line.datum? : Line → Option Datum
  | address _ bytes => some (.string bytes)
  | double _ bits => some (.double bits)
  | callImport f => some (.pointer f)
  | _ => none

namespace Pool

/-- The target stands for the datum. -/
def Holds (p : Pool) : Target → Datum → Prop
  | .constant (.string n), .string bytes => p.strings[n]? = some bytes
  | .constant (.double n), .double bits => p.doubles[n]? = some bits
  | .imported f, .pointer g => f = g
  | _, _ => False

/-- All constants of the first pool have the same numbers in the second. -/
def Within (p q : Pool) : Prop :=
  (∀ (n : Nat) bytes, p.strings[n]? = some bytes → q.strings[n]? = some bytes) ∧
    ∀ (n : Nat) bits, p.doubles[n]? = some bits → q.doubles[n]? = some bits

theorem Within.refl (p : Pool) : p.Within p := ⟨fun _ _ h => h, fun _ _ h => h⟩

theorem Within.trans {p q r : Pool} (hpq : p.Within q) (hqr : q.Within r) : p.Within r :=
  ⟨fun n b h => hqr.1 n b (hpq.1 n b h), fun n b h => hqr.2 n b (hpq.2 n b h)⟩

theorem Holds.mono {p q : Pool} {target : Target} {d : Datum} (h : p.Holds target d)
    (hpq : p.Within q) : q.Holds target d := by
  unfold Holds at *
  split at h
  · exact hpq.1 _ _ h
  · exact hpq.2 _ _ h
  · exact h
  · exact h.elim

theorem getElem?_push_of_some {α : Type} (xs : Array α) (n : Nat) (a b : α)
    (h : xs[n]? = some a) : (xs.push b)[n]? = some a := by
  obtain ⟨hlt, rfl⟩ := Array.getElem?_eq_some_iff.mp h
  rw [Array.getElem?_push_lt hlt]

theorem eq_of_views {p q : Pool} (h : p.toViews = q.toViews) : p = q := by
  cases p
  cases q
  cases h
  rfl

theorem internString_cases (p : Pool) (bytes : Bytes) :
    (∃ n, p.internString bytes = (n, p) ∧ p.strings[n]? = some bytes) ∨
      bytes ∉ p.strings ∧ ∃ q, p.internString bytes = (p.strings.size, q) ∧
        q.strings = p.strings.push bytes ∧ q.doubles = p.doubles := by
  have hnumber : (p.internString bytes).1 = (p.toViews.internString bytes).1 := rfl
  have hviews : (p.internString bytes).2.toViews = (p.toViews.internString bytes).2 := rfl
  rcases p.agree.internString_cases bytes with ⟨n, hfound, hn⟩ | ⟨hnew, hadded⟩
  · rw [hfound] at hnumber hviews
    exact .inl ⟨n, Prod.ext hnumber (eq_of_views hviews), by simpa [strings] using hn⟩
  · rw [hadded] at hnumber hviews
    refine .inr ⟨by simpa [strings] using hnew, _, Prod.ext ?_ rfl, ?_, by rw [hviews]⟩
    · rw [hnumber, strings, List.size_toArray]
    · rw [strings, hviews]
      simp [strings, Views.texts]

theorem internDouble_cases (p : Pool) (bits : UInt64) :
    (∃ n, p.internDouble bits = (n, p) ∧ p.doubles[n]? = some bits) ∨
      bits ∉ p.doubles ∧ ∃ q, p.internDouble bits = (p.doubles.size, q) ∧
        q.strings = p.strings ∧ q.doubles = p.doubles.push bits := by
  have hnumber : (p.internDouble bits).1 = (p.toViews.internDouble bits).1 := rfl
  have hviews : (p.internDouble bits).2.toViews = (p.toViews.internDouble bits).2 := rfl
  rcases p.agree.internDouble_cases bits with ⟨n, hfound, hn⟩ | ⟨hnew, hadded⟩
  · rw [hfound] at hnumber hviews
    exact .inl ⟨n, Prod.ext hnumber (eq_of_views hviews), hn⟩
  · rw [hadded] at hnumber hviews
    refine .inr ⟨by simpa using hnew, _, Prod.ext hnumber rfl, ?_, by rw [hviews]⟩
    rw [strings, hviews]
    rfl

theorem internString_spec (p : Pool) (bytes : Bytes) :
    p.Within (p.internString bytes).2 ∧
      (p.internString bytes).2.strings[(p.internString bytes).1]? = some bytes := by
  rcases p.internString_cases bytes with ⟨n, hfound, hn⟩ | ⟨-, q, hadded, hstrings, hdoubles⟩
  · rw [hfound]
    exact ⟨.refl p, hn⟩
  · rw [hadded]
    refine ⟨⟨fun n b h => ?_, fun n b h => by rwa [hdoubles]⟩, by simp [hstrings]⟩
    rw [hstrings]
    exact getElem?_push_of_some _ n b bytes h

theorem internDouble_spec (p : Pool) (bits : UInt64) :
    p.Within (p.internDouble bits).2 ∧
      (p.internDouble bits).2.doubles[(p.internDouble bits).1]? = some bits := by
  rcases p.internDouble_cases bits with ⟨n, hfound, hn⟩ | ⟨-, q, hadded, hstrings, hdoubles⟩
  · rw [hfound]
    exact ⟨.refl p, hn⟩
  · rw [hadded]
    refine ⟨⟨fun n b h => by rwa [hstrings], fun n b h => ?_⟩, by simp [hdoubles]⟩
    rw [hdoubles]
    exact getElem?_push_of_some _ n b bits h

end Pool

/-- The pool after a line. -/
def Line.intern (p : Pool) : Line → Pool
  | address _ bytes | reserve bytes => (p.internString bytes).2
  | double _ bits => (p.internDouble bits).2
  | _ => p

/-- The constants of a code. -/
def Code.pool (c : Code) : Pool := c.foldl Line.intern .empty

/-! ## Lines -/

/-- The place of a line where execution starts. -/
def Line.isEntry : Line → Bool
  | entry => true
  | _ => false

namespace Code

/-- The words of a code whose branches have no displacement yet. -/
def words (c : Code) : List Word := (c.flatMap Line.body).map Instr.encode

@[simp] theorem words_append (c d : Code) : words (c ++ d) = words c ++ words d := by
  simp [words]

@[simp] theorem length_words (c : Code) : (words c).length = size c := by
  induction c with
  | nil => rfl
  | cons l rest ih => simp_all [words, Line.size]

/-- A fixup for each branch of a code at word `k`. -/
def fixups (k : Nat) (c : Code) : List Fixup :=
  (located k c).filterMap fun (q, l) => l.target?.map (⟨4 * q, ·⟩)

/-- The byte offsets of the uses of constants and pointers. -/
def sites (k : Nat) (c : Code) : List Nat :=
  (located k c).filterMap fun (q, l) => l.datum?.map fun _ => 4 * q

/-- The byte offsets where execution starts. -/
def entries (k : Nat) (c : Code) : List Nat :=
  (located k c).filterMap fun (q, l) => if l.isEntry then some (4 * q) else none

@[simp] theorem fixups_append (k : Nat) (c d : Code) :
    fixups k (c ++ d) = fixups k c ++ fixups (k + size c) d := by
  simp [fixups]

@[simp] theorem sites_append (k : Nat) (c d : Code) :
    sites k (c ++ d) = sites k c ++ sites (k + size c) d := by
  simp [sites]

@[simp] theorem entries_append (k : Nat) (c d : Code) :
    entries k (c ++ d) = entries k c ++ entries (k + size c) d := by
  simp [entries]

end Code

namespace Assembly

/-- What has been added to an assembly, which had the words `ws`, by the lines of a code. -/
structure Extended (a : Assembly) (ws : List Word) (c : Code) (a' : Assembly) : Prop where
  code : a'.code = .ofWords (ws ++ c.words)
  fixups : a'.labels.fixups.toList = a.labels.fixups.toList ++ Code.fixups ws.length c
  created : a'.labels.entries.size = a.labels.entries.size
  placed : ∀ k label, (k, .mark label) ∈ Code.located ws.length c →
    a'.labels.offset? label = some (4 * k)
  kept : ∀ label offset, a.labels.offset? label = some offset →
    a'.labels.offset? label = some offset
  others : ∀ label, label ∉ c.marks →
    a'.labels.entries[label.id]? = a.labels.entries[label.id]?
  pool : a.pool.Within a'.pool
  sites : a'.references.toList.map (·.site) =
    a.references.toList.map (·.site) ++ Code.sites ws.length c
  older : ∀ r ∈ a.references, r ∈ a'.references
  referred : ∀ k l d, (k, l) ∈ Code.located ws.length c → l.datum? = some d →
    ∃ r ∈ a'.references, r.site = 4 * k ∧ a'.pool.Holds r.target d
  entry : a'.entry = (Code.entries ws.length c).getLast?.or a.entry

theorem Extended.refl (a : Assembly) (ws : List Word) (h : a.code = .ofWords ws) :
    a.Extended ws [] a where
  code := by simpa [Code.words] using h
  fixups := by simp [Code.fixups]
  created := rfl
  placed := by simp
  kept := fun _ _ h => h
  others := fun _ _ => rfl
  pool := .refl _
  sites := by simp [Code.sites]
  older := fun _ h => h
  referred := by simp
  entry := by simp [Code.entries]

theorem Extended.trans {a b e : Assembly} {ws : List Word} {c d : Code} (h : a.Extended ws c b)
    (h' : b.Extended (ws ++ c.words) d e) : a.Extended ws (c ++ d) e := by
  have hlen : (ws ++ c.words).length = ws.length + Code.size c := by simp
  have hplaced := h'.placed
  have hreferred := h'.referred
  have hfixups := h'.fixups
  have hsites := h'.sites
  have hentry := h'.entry
  rw [hlen] at hplaced hreferred hfixups hsites hentry
  constructor
  · rw [h'.code, Code.words_append, List.append_assoc]
  · rw [hfixups, h.fixups, Code.fixups_append, List.append_assoc]
  · rw [h'.created, h.created]
  · intro k label hk
    rw [Code.located_append, List.mem_append] at hk
    rcases hk with hk | hk
    · exact h'.kept _ _ (h.placed k label hk)
    · exact hplaced k label hk
  · intro label offset ho
    exact h'.kept _ _ (h.kept _ _ ho)
  · intro label hl
    rw [Code.marks_append, List.mem_append, not_or] at hl
    rw [h'.others label hl.2, h.others label hl.1]
  · exact h.pool.trans h'.pool
  · rw [hsites, h.sites, Code.sites_append, List.append_assoc]
  · intro r hr
    exact h'.older r (h.older r hr)
  · intro k l datum hk hl
    rw [Code.located_append, List.mem_append] at hk
    rcases hk with hk | hk
    · obtain ⟨r, hr, hsite, hholds⟩ := h.referred k l datum hk hl
      exact ⟨r, h'.older r hr, hsite, hholds.mono h'.pool⟩
    · exact hreferred k l datum hk hl
  · rw [hentry, h.entry, Code.entries_append, List.getLast?_append, Option.or_assoc]

theorem extended_line (a a' : Assembly) (ws : List Word) (l : Line) (hl : l.label? = none)
    (hcode : a'.code = .ofWords (ws ++ l.body.map Instr.encode))
    (hfixups : a'.labels.fixups.toList =
      a.labels.fixups.toList ++ (l.target?.map (⟨4 * ws.length, ·⟩)).toList)
    (hentries : a'.labels.entries = a.labels.entries) (hpool : a.pool.Within a'.pool)
    (hrefs : (l.datum? = none ∧ a'.references = a.references) ∨
      ∃ d target, l.datum? = some d ∧ a'.pool.Holds target d ∧
        a'.references = a.references.push ⟨4 * ws.length, target⟩)
    (hentry : a'.entry = if l.isEntry then some (4 * ws.length) else a.entry) :
    a.Extended ws [l] a' := by
  have hoffset (label : Label) : a'.labels.offset? label = a.labels.offset? label := by
    rw [LabelTable.offset?, hentries, LabelTable.offset?]
  constructor
  · simpa [Code.words] using hcode
  · rw [hfixups]
    cases h : l.target? <;> simp [Code.fixups, h]
  · rw [hentries]
  · intro k label hk
    simp only [Code.located_cons, Code.located_nil, List.mem_singleton, Prod.mk.injEq] at hk
    rw [← hk.2] at hl
    cases hl
  · intro label offset ho
    rw [hoffset, ho]
  · intro label _
    rw [hentries]
  · exact hpool
  · rcases hrefs with ⟨hd, hrefs⟩ | ⟨d, target, hd, -, hrefs⟩ <;> simp [hrefs, Code.sites, hd]
  · intro r hr
    rcases hrefs with ⟨-, hrefs⟩ | ⟨d, target, -, -, hrefs⟩ <;> simp [hrefs, hr]
  · intro k l' d hk hd
    simp only [Code.located_cons, Code.located_nil, List.mem_singleton, Prod.mk.injEq] at hk
    obtain ⟨rfl, rfl⟩ := hk
    rcases hrefs with ⟨hd', -⟩ | ⟨d', target, hd', hholds, hrefs⟩
    · rw [hd] at hd'
      cases hd'
    · rw [hd] at hd'
      cases hd'
      exact ⟨_, by rw [hrefs]; exact Array.mem_push_self, rfl, hholds⟩
  · rw [hentry]
    cases h : l.isEntry <;> simp [Code.entries, h]

theorem line_mark (a a' : Assembly) (label : Label) (h : a.line (.mark label) = .ok a') :
    ∃ t, a.labels.define label a.code.size = .ok t ∧ { a with labels := t } = a' := by
  cases ht : a.labels.define label a.code.size with
  | error e => simp [line, ht, bind, Except.bind] at h
  | ok t => exact ⟨t, rfl, by simpa [line, ht, bind, Except.bind, pure, Except.pure] using h⟩

theorem line_extended (a a' : Assembly) (ws : List Word) (l : Line) (hcode : a.code = .ofWords ws)
    (h : a.line l = .ok a') : a.Extended ws [l] a' := by
  have hsize : a.code.size = 4 * ws.length := by rw [hcode, Buffer.size_ofWords]
  have hpush (ws : List Word) (i : Instr) :
      Buffer.pushWord (.ofWords ws) i.encode = .ofWords (ws ++ [i.encode]) :=
    Buffer.pushWord_ofWords ws i.encode
  cases l with
  | mark label =>
    obtain ⟨t, ht, rfl⟩ := a.line_mark a' label h
    obtain ⟨hfix, hcreated, hplaced, hothers⟩ := a.labels.define_spec t label _ ht
    obtain ⟨entry, hentry, hnone⟩ := a.labels.open_of_define t label _ ht
    constructor
    · simpa [Code.words, Line.body] using hcode
    · simp [hfix, Code.fixups, Line.target?, Line.jumpTarget?, Line.callTarget?]
    · exact hcreated
    · intro k label' hk
      simp only [Code.located_cons, Code.located_nil, List.mem_singleton, Prod.mk.injEq,
        Line.mark.injEq] at hk
      obtain ⟨rfl, rfl⟩ := hk
      rw [hplaced, hsize]
    · intro label' offset ho
      by_cases heq : label' = label
      · subst heq
        simp [LabelTable.offset?, hentry, hnone] at ho
      · rw [LabelTable.offset?, hothers label' heq]
        exact ho
    · intro label' hl
      simp only [Code.marks, Line.label?, List.filterMap_cons, List.filterMap_nil,
        List.mem_singleton] at hl
      exact hothers label' hl
    · exact .refl _
    · simp [Code.sites, Line.datum?]
    · exact fun _ h => h
    · intro k l' d hk hd
      simp only [Code.located_cons, Code.located_nil, List.mem_singleton, Prod.mk.injEq] at hk
      rw [hk.2] at hd
      cases hd
    · simp [Code.entries, Line.isEntry]
  | instr i =>
    cases h
    exact extended_line _ _ _ _ rfl (by simp [emit, hcode, hpush, Line.body])
      (by simp [emit, Line.target?, Line.jumpTarget?, Line.callTarget?]) rfl (.refl _)
      (.inl ⟨rfl, rfl⟩) rfl
  | jump | jumpIf | jumpIfZero | call =>
    cases h
    exact extended_line _ _ _ _ rfl (by simp [branch, emit, hcode, hpush, Line.body])
      (by simp [branch, emit, LabelTable.reference, hsize, Line.target?, Line.jumpTarget?,
        Line.callTarget?]) rfl (.refl _) (.inl ⟨rfl, rfl⟩) rfl
  | address reg bytes =>
    cases h
    obtain ⟨hwithin, hholds⟩ := a.pool.internString_spec bytes
    refine extended_line _ _ _ _ rfl (by simp [emit, refer, hcode, hpush, Line.body])
      (by simp [emit, refer, Line.target?, Line.jumpTarget?, Line.callTarget?]) rfl hwithin
      (.inr ⟨_, .constant (.string _), rfl, hholds, ?_⟩) rfl
    rw [← hsize]
    rfl
  | double reg bits =>
    cases h
    obtain ⟨hwithin, hholds⟩ := a.pool.internDouble_spec bits
    refine extended_line _ _ _ _ rfl (by simp [emit, refer, hcode, hpush, Line.body])
      (by simp [emit, refer, Line.target?, Line.jumpTarget?, Line.callTarget?]) rfl hwithin
      (.inr ⟨_, .constant (.double _), rfl, hholds, ?_⟩) rfl
    rw [← hsize]
    rfl
  | callImport f =>
    cases h
    refine extended_line _ _ _ _ rfl (by simp [emit, refer, hcode, hpush, Line.body])
      (by simp [emit, refer, Line.target?, Line.jumpTarget?, Line.callTarget?]) rfl (.refl _)
      (.inr ⟨_, .imported f, rfl, rfl, ?_⟩) rfl
    simp [emit, refer, hsize]
  | reserve bytes =>
    cases h
    exact extended_line _ _ _ _ rfl (by simp [hcode, Line.body])
      (by simp [Line.target?, Line.jumpTarget?, Line.callTarget?]) rfl
      (a.pool.internString_spec bytes).1 (.inl ⟨rfl, rfl⟩) rfl
  | entry =>
    cases h
    exact extended_line _ _ _ _ rfl (by simp [hcode, Line.body])
      (by simp [Line.target?, Line.jumpTarget?, Line.callTarget?]) rfl (.refl _)
      (.inl ⟨rfl, rfl⟩) (by simp [Line.isEntry, hsize])

theorem lines_cons (a : Assembly) (l : Line) (c : Code) :
    a.lines (l :: c) = (a.line l).bind fun b => b.lines c := rfl

theorem lines_extended (a a' : Assembly) (ws : List Word) (c : Code) (hcode : a.code = .ofWords ws)
    (h : a.lines c = .ok a') : a.Extended ws c a' := by
  induction c generalizing a ws with
  | nil =>
    cases h
    exact .refl _ ws hcode
  | cons l rest ih =>
    rw [lines_cons] at h
    cases hl : a.line l with
    | error e =>
      rw [hl] at h
      cases h
    | ok b =>
      rw [hl] at h
      have hline := a.line_extended b ws l hcode hl
      exact hline.trans (ih b _ hline.code h)

theorem line_pool (a a' : Assembly) (l : Line) (h : a.line l = .ok a') :
    a'.pool = l.intern a.pool := by
  cases l with
  | mark label =>
    obtain ⟨t, -, rfl⟩ := a.line_mark a' label h
    rfl
  | _ =>
    cases h
    rfl

theorem lines_pool (a a' : Assembly) (c : Code) (h : a.lines c = .ok a') :
    a'.pool = c.foldl Line.intern a.pool := by
  induction c generalizing a with
  | nil =>
    cases h
    rfl
  | cons l rest ih =>
    rw [lines_cons] at h
    cases hl : a.line l with
    | error e =>
      rw [hl] at h
      cases h
    | ok b =>
      rw [hl] at h
      rw [ih b h, a.line_pool b l hl]
      rfl

theorem exists_lines (a : Assembly) (ws : List Word) (c : Code) (hcode : a.code = .ofWords ws)
    (hnodup : c.marks.Nodup) (hopen : ∀ label ∈ c.marks, a.labels.Open label) :
    ∃ a', a.lines c = .ok a' := by
  induction c generalizing a ws with
  | nil => exact ⟨a, rfl⟩
  | cons l rest ih =>
    rw [← List.singleton_append, Code.marks_append] at hnodup hopen
    obtain ⟨b, hb⟩ : ∃ b, a.line l = .ok b := by
      cases l with
      | mark label =>
        have hlabel := hopen label (by simp [Code.marks, Line.label?])
        obtain ⟨t, ht⟩ := a.labels.define_open label a.code.size hlabel
        exact ⟨{ a with labels := t }, by simp [line, ht, bind, Except.bind, pure, Except.pure]⟩
      | _ => exact ⟨_, rfl⟩
    have hline := a.line_extended b ws l hcode hb
    have hrest : ∀ label ∈ Code.marks rest, b.labels.Open label := by
      intro label hlabel
      have hnot : label ∉ Code.marks [l] := by
        intro hmem
        exact (List.nodup_append.mp hnodup).2.2 label hmem label hlabel rfl
      obtain ⟨entry, hentry, hnone⟩ := hopen label (List.mem_append_right _ hlabel)
      exact ⟨entry, by rw [hline.others label hnot, hentry], hnone⟩
    obtain ⟨a', ha'⟩ := ih b _ hline.code (List.nodup_append.mp hnodup).2.1 hrest
    refine ⟨a', ?_⟩
    rw [lines_cons, hb]
    exact ha'

end Assembly

end Armature.Asm
