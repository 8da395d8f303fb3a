import Armature.Proofs.Assembled

/-!
# Resolved branches

When every label has its place, resolving gives each branch its displacement, or stops at one that
does not reach its label.
-/

namespace Armature.Asm

open A64 (BranchForm Instr)

namespace Line

/-- How a branch holds its displacement. -/
def form? : Line → Option BranchForm
  | jump _ | call _ => some .imm26
  | jumpIf .. | jumpIfZero .. => some .imm19
  | _ => none

theorem body_of_form (l : Line) (form : BranchForm) (h : l.form? = some form) :
    ∃ i, l.body = [i] ∧ i.form? = some form := by
  cases l with
  | jump | jumpIf | jumpIfZero | call => cases h; exact ⟨_, rfl, rfl⟩
  | _ => cases h

theorem form_of_target (l : Line) (label : Label) (h : l.target? = some label) :
    ∃ form, l.form? = some form := by
  cases l with
  | jump | jumpIf | jumpIfZero | call => exact ⟨_, rfl⟩
  | _ => cases h

/-- A branch at word `k` reaches its label. -/
def Reaches (place : Label → Nat) (k : Nat) (l : Line) : Prop :=
  ∀ label form, l.target? = some label → l.form? = some form →
    form.Reaches (4 * place label - 4 * k : Int)

end Line

namespace LabelTable

theorem exists_entry (t : LabelTable) (label : Label) (offset : Nat)
    (h : t.offset? label = some offset) :
    ∃ entry, t.entries[label.id]? = some entry ∧ entry.offset = some offset := by
  exact Option.bind_eq_some_iff.mp h

theorem patched_encode (t : LabelTable) (ws rest : List Word) (i : Instr) (form : BranchForm)
    (hform : i.form? = some form) (label : Label) (q : Nat)
    (hplace : t.offset? label = some (4 * q)) (hinside : q ≤ (ws ++ i.encode :: rest).length) :
    let d : Int := 4 * q - 4 * ws.length
    (form.Reaches d ∧ t.patched (.ofWords (ws ++ i.encode :: rest)) ⟨4 * ws.length, label⟩ =
      .ok (i.retarget (BitVec.ofInt 32 d)).encode) ∨
    ¬ form.Reaches d ∧ ∃ name, t.patched (.ofWords (ws ++ i.encode :: rest)) ⟨4 * ws.length, label⟩ =
      .error (.outOfReach name (4 * ws.length) d form.reach) := by
  intro d
  obtain ⟨entry, hentry, hoffset⟩ := t.exists_entry label _ hplace
  have hd : displacement (Buffer.ofWords (ws ++ i.encode :: rest)).size (4 * q)
      (4 * ws.length) = d := by
    rw [displacement, if_pos (by rw [Buffer.size_ofWords]; omega)]
    omega
  unfold patched
  simp only [hentry, hoffset, Buffer.word?_split, A64.branchForm?_encode i form hform, hd]
  by_cases hreach : form.Reaches d
  · left
    rw [A64.patchBranch_encode i form hform d hreach]
    exact ⟨hreach, rfl⟩
  · right
    rw [A64.patchBranch_encode_none i form hform d hreach]
    exact ⟨hreach, _, rfl⟩

/-- How resolving the branches of a code behind the words `ws` may end: all of them are filled in,
or there is one that does not reach its label. -/
def Resolution (place : Label → Nat) (ws : List Word) (c : Code) (r : Buffer × Except Defect Unit) :
    Prop :=
  ((∀ q l, (q, l) ∈ Code.located ws.length c → l.Reaches place q) ∧
    r = (.ofWords (ws ++ (Code.instrs place ws.length c).map Instr.encode), .ok ())) ∨
  ∃ q l label form name, (q, l) ∈ Code.located ws.length c ∧ l.target? = some label ∧
    l.form? = some form ∧ ¬ form.Reaches (4 * place label - 4 * q : Int) ∧
    r.2 = .error (.outOfReach name (4 * q) (4 * place label - 4 * q) form.reach)

theorem Resolution.cons {place : Label → Nat} {ws : List Word} {l : Line} {c : Code}
    {r : Buffer × Except Defect Unit} (hl : l.Reaches place ws.length)
    (h : Resolution place (ws ++ (l.resolved place ws.length).map Instr.encode) c r) :
    Resolution place ws (l :: c) r := by
  have hlen : (ws ++ (l.resolved place ws.length).map Instr.encode).length = ws.length + l.size := by
    simp
  unfold Resolution at h
  rw [hlen] at h
  rcases h with ⟨hreach, hr⟩ | ⟨q, l', label, form, name, hmem, hrest⟩
  · refine .inl ⟨?_, by simpa using hr⟩
    intro q l' hmem
    rw [Code.located_cons, List.mem_cons, Prod.mk.injEq] at hmem
    rcases hmem with ⟨rfl, rfl⟩ | hmem
    · exact hl
    · exact hreach q l' hmem
  · exact .inr ⟨q, l', label, form, name, List.mem_cons_of_mem _ hmem, hrest⟩

theorem resolveAll_fixups (t : LabelTable) (place : Label → Nat) (ws : List Word) (c : Code)
    (hplace : ∀ l ∈ c, ∀ label, l.target? = some label →
      t.offset? label = some (4 * place label) ∧ place label ≤ ws.length + c.size) :
    Resolution place ws c
      (t.resolveAll (Code.fixups ws.length c) (.ofWords (ws ++ c.words))) := by
  induction c generalizing ws with
  | nil => left; simp [Code.fixups, Code.words, resolveAll]
  | cons l rest ih =>
    have hrest := ih (ws ++ (l.resolved place ws.length).map Instr.encode) (by
      intro l' hl' label hlabel
      obtain ⟨hoffset, hinside⟩ := hplace l' (List.mem_cons_of_mem _ hl') label hlabel
      rw [Code.size_cons] at hinside
      refine ⟨hoffset, ?_⟩
      rw [List.length_append, List.length_map, Line.length_resolved]
      omega)
    simp only [List.length_append, List.length_map, Line.length_resolved, List.append_assoc]
      at hrest
    cases htarget : l.target? with
    | none =>
      have hl : l.Reaches place ws.length := by
        intro label form hlabel
        rw [htarget] at hlabel
        cases hlabel
      have hbody : l.resolved place ws.length = l.body := by rw [Line.resolved, htarget]
      have hfixups : Code.fixups ws.length (l :: rest) =
          Code.fixups (ws.length + l.size) rest := by
        simp [Code.fixups, htarget]
      apply Resolution.cons hl
      rw [hfixups]
      simpa [hbody, Code.words] using hrest
    | some label =>
      obtain ⟨form, hform⟩ := l.form_of_target label htarget
      obtain ⟨i, hbody, hi⟩ := l.body_of_form form hform
      have hwords : Code.words (l :: rest) = i.encode :: Code.words rest := by
        simp [Code.words, hbody]
      have hfixups : Code.fixups ws.length (l :: rest) =
          ⟨4 * ws.length, label⟩ :: Code.fixups (ws.length + l.size) rest := by
        simp [Code.fixups, htarget]
      rw [hwords, hfixups, resolveAll]
      obtain ⟨hoffset, hinside⟩ := hplace l List.mem_cons_self label htarget
      rw [← Code.length_words, hwords, ← List.length_append] at hinside
      rcases t.patched_encode ws (Code.words rest) i form hi label (place label) hoffset hinside
        with ⟨hreach, hp⟩ | ⟨hnot, name, hp⟩
      · have hl : l.Reaches place ws.length := by
          intro label' form' hlabel' hform'
          rw [htarget] at hlabel'
          rw [hform] at hform'
          cases hlabel'
          cases hform'
          exact hreach
        apply Resolution.cons hl
        rw [hp]
        simp only
        rw [Buffer.overwrite_ofWords _ _ _ (by simp)]
        simpa [Line.resolved, htarget, hbody] using hrest
      · rw [hp]
        exact .inr ⟨ws.length, l, label, form, name, by simp, htarget, hform, hnot, rfl⟩

end LabelTable

/-! ## Listings -/

/-- A place for each label, such that the code can start at word 0. -/
def Code.Placed (place : Label → Nat) (c : Code) : Prop :=
  ∀ q label, (q, .mark label) ∈ located 0 c → place label = q

/-- What an image consists of when each label has its place. -/
structure Image.Built (image : Image) (place : Label → Nat) (c : Code) : Prop where
  placed : c.Placed place
  code : image.code = .ofWords ((c.instrs place 0).map Instr.encode)
  reaches : ∀ q l, (q, l) ∈ Code.located 0 c → l.Reaches place q
  entry : (Code.entries 0 c).getLast? = some image.entry
  sites : image.references.toList.map (·.site) = Code.sites 0 c
  constants : image.constants = c.pool.freeze
  referred : ∀ k l d, (k, l) ∈ Code.located 0 c → l.datum? = some d →
    ∃ r ∈ image.references, r.site = 4 * k ∧ c.pool.Holds r.target d

theorem Image.Built.size_code {image : Image} {place : Label → Nat} {c : Code}
    (h : image.Built place c) : image.code.size = 4 * c.size := by
  rw [h.code, Buffer.size_ofWords, List.length_map, Code.length_instrs]

namespace Listing

/-- The labels of a listing are in order, and there is a place where execution starts. -/
structure Labelled (l : Listing) : Prop where
  fixups : l.labels.fixups = #[]
  nodup : l.code.marks.Nodup
  opened : ∀ label ∈ l.code.marks, l.labels.Open label
  targets : ∀ line ∈ l.code, ∀ label, line.target? = some label → label ∈ l.code.marks
  entry : Code.entries 0 l.code ≠ []

theorem labelled_iff (l : Listing) :
    l.Labelled ↔ l.labels.fixups.size = 0 ∧ l.code.marks.Nodup ∧
      (∀ label ∈ l.code.marks, (l.labels.entries[label.id]?).map (·.offset) = some none) ∧
      (∀ line ∈ l.code, ∀ label ∈ line.target?, label ∈ l.code.marks) ∧
      Code.entries 0 l.code ≠ [] := by
  constructor
  · intro h
    exact ⟨by rw [h.fixups]; rfl, h.nodup,
      fun label hlabel => Option.map_eq_some_iff.mpr (h.opened label hlabel), h.targets, h.entry⟩
  · rintro ⟨hfixups, hnodup, hopened, htargets, hentry⟩
    exact ⟨Array.eq_empty_of_size_eq_zero hfixups, hnodup,
      fun label hlabel => Option.map_eq_some_iff.mp (hopened label hlabel), htargets, hentry⟩

instance (l : Listing) : Decidable l.Labelled := decidable_of_iff _ l.labelled_iff.symm

theorem Labelled.exists_lines {l : Listing} (h : l.Labelled) :
    ∃ a place, (Assembly.start l.labels).lines l.code = .ok a ∧
      (Assembly.start l.labels).Extended [] l.code a ∧ l.code.Placed place ∧
      ∀ label ∈ l.code.marks, a.labels.offset? label = some (4 * place label) := by
  obtain ⟨a, ha⟩ := (Assembly.start l.labels).exists_lines [] l.code rfl h.nodup h.opened
  have hext := (Assembly.start l.labels).lines_extended a [] l.code rfl ha
  refine ⟨a, fun label => (a.labels.offset? label).getD 0 / 4, ha, hext, ?_, ?_⟩
  · intro q label hq
    simp [hext.placed q label hq]
  · intro label hlabel
    obtain ⟨q, hq⟩ := Code.exists_mem_located 0 l.code _ ((Code.mem_marks _ _).mp hlabel)
    simp [hext.placed q label hq]

theorem Labelled.assemble_cases {l : Listing} (h : l.Labelled) :
    (∃ image place, l.assemble = .ok image ∧ image.Built place l.code) ∨
    ∃ place q line label form name, l.code.Placed place ∧ (q, line) ∈ Code.located 0 l.code ∧
      line.target? = some label ∧ line.form? = some form ∧
      ¬ form.Reaches (4 * place label - 4 * q : Int) ∧
      l.assemble = .error (.outOfReach name (4 * q) (4 * place label - 4 * q) form.reach) := by
  obtain ⟨a, place, ha, hext, hplaced, hoffset⟩ := h.exists_lines
  have hstart : (Assembly.start l.labels).labels.fixups.toList = [] := by
    simp [Assembly.start, h.fixups]
  have hfixups : a.labels.fixups.toList = Code.fixups 0 l.code := by
    simpa [hstart] using hext.fixups
  have hcode : a.code = .ofWords l.code.words := by simpa using hext.code
  have hentry : a.entry = (Code.entries 0 l.code).getLast? := by
    simpa [Assembly.start] using hext.entry
  have hassemble : l.assemble = a.finish := by
    simp [assemble, ha, bind, Except.bind]
  have hres := a.labels.resolveAll_fixups place [] l.code (by
    intro line hline label hlabel
    have hmark := h.targets line hline label hlabel
    obtain ⟨q, hq⟩ := Code.exists_mem_located 0 l.code _ ((Code.mem_marks _ _).mp hmark)
    have hinside := (Code.mem_located 0 l.code q _ hq).2
    refine ⟨hoffset label hmark, ?_⟩
    rw [hplaced q label hq, List.length_nil]
    omega)
  have hresolve : a.labels.resolve a.code =
      a.labels.resolveAll (Code.fixups 0 l.code) (.ofWords l.code.words) := by
    rw [LabelTable.resolve, hfixups, hcode]
  rw [hassemble, Assembly.finish, hresolve]
  rcases hres with ⟨hreach, hres⟩ | ⟨q, line, label, form, name, hmem, htarget, hform, hnot, hres⟩
  · left
    simp only [List.nil_append, List.length_nil] at hres hreach
    obtain ⟨entry, hlast⟩ : ∃ entry, (Code.entries 0 l.code).getLast? = some entry :=
      Option.ne_none_iff_exists'.mp (by simpa using h.entry)
    have hpool : a.pool = l.code.pool := Assembly.lines_pool _ a l.code ha
    have hreferred := hext.referred
    rw [hpool] at hreferred
    refine ⟨⟨.ofWords ((l.code.instrs place 0).map Instr.encode), entry, a.pool.freeze,
      a.references⟩, place, ?_, ?_⟩
    · rw [hres, hentry, hlast]
      rfl
    · exact ⟨hplaced, rfl, hreach, hlast, by simpa [Assembly.start] using hext.sites,
        by rw [hpool], hreferred⟩
  · right
    refine ⟨place, q, line, label, form, name, hplaced, hmem, htarget, hform, hnot, ?_⟩
    simp only [List.nil_append, List.length_nil] at hres
    simp [hres, bind, Except.bind]

theorem Labelled.exists_built {l : Listing} (h : l.Labelled) (hsize : l.code.size ≤ 2 ^ 16) :
    ∃ (image : Image) (place : Label → Nat), image.Built place l.code := by
  rcases h.assemble_cases with ⟨image, place, -, hbuilt⟩ |
    ⟨place, q, line, label, form, _, hplaced, hline, htarget, -, hnot, -⟩
  · exact ⟨image, place, hbuilt⟩
  · have hmark := h.targets line (Code.mem_of_mem_located 0 _ q line hline) label htarget
    obtain ⟨p, hp⟩ := Code.exists_mem_located 0 l.code _ ((Code.mem_marks _ _).mp hmark)
    have hq := Code.mem_located 0 _ q line hline
    have hlabel := Code.mem_located 0 _ p _ hp
    rw [hplaced p label hp] at hnot
    refine absurd ⟨by omega, ?_, ?_⟩ hnot
    all_goals
      cases form with
      | imm26 | imm19 =>
        simp only [A64.BranchForm.reach]
        omega

theorem exists_built_alone (c : Code) (hmarks : c.marks = [])
    (htargets : ∀ line ∈ c, line.target? = none) :
    ∃ (image : Image) (place : Label → Nat), image.Built place (.entry :: c) := by
  have hfree : ∀ line ∈ Line.entry :: c, line.target? = none :=
    List.forall_mem_cons.mpr ⟨rfl, htargets⟩
  have hlabelled : Labelled ⟨.empty, .entry :: c⟩ := by
    have hmarks' : Code.marks (.entry :: c) = [] := hmarks
    constructor
    · rfl
    · simp [hmarks']
    · simp [hmarks']
    · intro line hline label hlabel
      simp [hfree line hline] at hlabel
    · exact List.cons_ne_nil _ _
  rcases hlabelled.assemble_cases with ⟨image, place, -, hbuilt⟩ | ⟨_, q, line, label, _, _, h⟩
  · exact ⟨image, place, hbuilt⟩
  · have hline := hfree line (Code.mem_of_mem_located 0 _ q line h.2.1)
    simp [hline] at h

end Listing

end Armature.Asm
