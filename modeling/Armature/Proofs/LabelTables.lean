import Armature.Proofs.Assembled
import Armature.Proofs.BranchWords

/-!
# Label tables

What a label table makes of a code, whatever was done to the table before. A label has the place of
its one definition. Resolving retargets the branch at each site and changes nothing else, a second
time nothing at all, and it stops at the first fixup that cannot be applied.
-/

namespace Armature.Asm

open A64 (BranchOp Retargeted branchOp?)

/-! ## Histories of a table -/

inductive Action where
  | create (purpose : Purpose)
  | define (label : Label) (offset : Nat)
  | reference (site : Nat) (label : Label)

def Action.fixup? : Action → Option Fixup
  | reference site label => some ⟨site, label⟩
  | _ => none

/-- A table, with the definitions that it accepted. -/
structure History where
  table : LabelTable
  defined : List (Label × Nat)

namespace History

def act (h : History) : Action → History
  | .create purpose => { h with table := (h.table.create purpose).2 }
  | .define label offset =>
    match h.table.define label offset with
    | .ok table => ⟨table, h.defined ++ [(label, offset)]⟩
    | .error _ => h
  | .reference site label => { h with table := h.table.reference site label }

def after (actions : List Action) : History := actions.foldl act ⟨.empty, []⟩

theorem after_snoc (actions : List Action) (a : Action) :
    after (actions ++ [a]) = (after actions).act a := by
  simp [after]

/-- The accepted definitions are of different labels, and are the places of the table. -/
structure Consistent (h : History) : Prop where
  once : (h.defined.map Prod.fst).Nodup
  place : ∀ label offset, h.table.offset? label = some offset ↔ (label, offset) ∈ h.defined

theorem consistent_empty : Consistent ⟨.empty, []⟩ := by
  refine ⟨List.nodup_nil, fun label offset => ?_⟩
  simp [LabelTable.offset?, LabelTable.empty]

end History

namespace LabelTable

theorem offset?_create (t : LabelTable) (purpose : Purpose) (label : Label) :
    (t.create purpose).2.offset? label = t.offset? label := by
  unfold create offset?
  rw [Array.getElem?_push]
  split
  · simp [*]
  · rfl

theorem Open.offset? {t : LabelTable} {label : Label} (h : t.Open label) :
    t.offset? label = none := by
  obtain ⟨entry, hentry, hnone⟩ := h
  rw [LabelTable.offset?, hentry, Option.bind_some, hnone]

end LabelTable

namespace History

/-- A definition is accepted only of a label that has no place, so it is the only one of it. -/
theorem Consistent.define {h : History} (hh : h.Consistent) {label : Label} {offset : Nat}
    {t : LabelTable} (hdefine : h.table.define label offset = .ok t) :
    Consistent ⟨t, h.defined ++ [(label, offset)]⟩ := by
  have hnone := (h.table.open_of_define t label offset hdefine).offset?
  have hnew (o : Nat) : (label, o) ∉ h.defined := by
    intro hmem
    rw [← hh.place, hnone] at hmem
    cases hmem
  obtain ⟨-, -, hplace, hothers⟩ := h.table.define_spec t label offset hdefine
  constructor
  · rw [List.map_append, List.map_singleton, List.nodup_append]
    refine ⟨hh.once, by simp, fun a hmem b hb heq => ?_⟩
    obtain ⟨⟨first, o⟩, hdefined, rfl⟩ := List.mem_map.mp hmem
    obtain rfl : first = label := heq.trans (List.mem_singleton.mp hb)
    exact hnew o hdefined
  · intro other o
    rw [List.mem_append, List.mem_singleton, Prod.mk.injEq]
    by_cases heq : other = label
    · subst heq
      rw [hplace, Option.some.injEq]
      simp [hnew o, eq_comm]
    · have hsame : t.offset? other = h.table.offset? other := by
        rw [LabelTable.offset?, hothers other heq, LabelTable.offset?]
      rw [hsame, hh.place]
      simp [heq]

theorem Consistent.act {h : History} (hh : h.Consistent) (a : Action) : (h.act a).Consistent := by
  cases a with
  | create purpose =>
    refine ⟨hh.once, fun label offset => ?_⟩
    have hsame := h.table.offset?_create purpose label
    simp only [History.act, hsame, hh.place]
  | define label offset =>
    rw [History.act]
    split
    · exact hh.define ‹_›
    · exact hh
  | reference site label => exact ⟨hh.once, hh.place⟩

theorem Consistent.foldl {h : History} (hh : h.Consistent) (actions : List Action) :
    (actions.foldl History.act h).Consistent := by
  induction actions generalizing h with
  | nil => exact hh
  | cons a rest ih => exact ih (hh.act a)

theorem consistent_after (actions : List Action) : (after actions).Consistent :=
  consistent_empty.foldl actions

theorem fixups_act (h : History) (a : Action) :
    (h.act a).table.fixups.toList = h.table.fixups.toList ++ a.fixup?.toList := by
  cases a with
  | create purpose => simp [act, LabelTable.create, Action.fixup?]
  | define label offset =>
    rw [act]
    split
    · obtain ⟨hfixups, -⟩ := h.table.define_spec _ label offset ‹_›
      simp [hfixups, Action.fixup?]
    · simp [Action.fixup?]
  | reference site label => simp [act, LabelTable.reference, Action.fixup?]

theorem fixups_after (actions : List Action) :
    (after actions).table.fixups.toList = actions.filterMap Action.fixup? := by
  have hfold (h : History) : (actions.foldl act h).table.fixups.toList =
      h.table.fixups.toList ++ actions.filterMap Action.fixup? := by
    induction actions generalizing h with
    | nil => simp
    | cons a rest ih =>
      rw [List.foldl_cons, ih, fixups_act, List.append_assoc]
      cases hfixup : a.fixup? <;> simp [hfixup]
  exact hfold ⟨.empty, []⟩

theorem mem_defined {actions : List Action} {label : Label} {offset : Nat}
    (hmem : (label, offset) ∈ (after actions).defined) : .define label offset ∈ actions := by
  have hfold (h : History) : (label, offset) ∈ (actions.foldl act h).defined →
      (label, offset) ∈ h.defined ∨ .define label offset ∈ actions := by
    clear hmem
    induction actions generalizing h with
    | nil => exact .inl
    | cons a rest ih =>
      intro hmem
      rcases ih (h.act a) hmem with hdefined | hrest
      · cases a with
        | create purpose => exact .inl hdefined
        | reference site label => exact .inl hdefined
        | define label' offset' =>
          rw [act] at hdefined
          split at hdefined
          · rcases List.mem_append.mp hdefined with hdefined | hlast
            · exact .inl hdefined
            · cases List.mem_singleton.mp hlast
              exact .inr List.mem_cons_self
          · exact .inl hdefined
      · exact .inr (List.mem_cons_of_mem _ hrest)
  exact (hfold ⟨.empty, []⟩ hmem).resolve_left List.not_mem_nil

theorem size_entries_act (h : History) (a : Action) :
    (h.act a).table.entries.size ≤ h.table.entries.size + 1 := by
  cases a with
  | create purpose => simp [act, LabelTable.create]
  | define label offset =>
    rw [act]
    split
    · have hsize := (h.table.define_spec _ label offset ‹_›).2.1
      simp only [hsize]
      omega
    · omega
  | reference site label => exact Nat.le_succ _

theorem size_entries_after (actions : List Action) :
    (after actions).table.entries.size ≤ actions.length := by
  have hfold (h : History) : (actions.foldl act h).table.entries.size ≤
      h.table.entries.size + actions.length := by
    induction actions generalizing h with
    | nil => exact Nat.le_refl _
    | cons a rest ih =>
      have hstep := h.size_entries_act a
      have hrest := ih (h.act a)
      rw [List.foldl_cons, List.length_cons]
      omega
  have hempty : LabelTable.empty.entries.size = 0 := rfl
  have hall := hfold ⟨.empty, []⟩
  rwa [hempty, Nat.zero_add] at hall

end History

/-! ## One fixup -/

namespace LabelTable

variable {t : LabelTable} {f : Fixup} {code code' : Buffer}

theorem toInt_sub_ofNat {target site : Nat} (htarget : target < 2 ^ 63) (hsite : site < 2 ^ 63) :
    (Int64.ofNat target - Int64.ofNat site).toInt = target - site := by
  rw [Int64.toInt_sub, Int64.toInt_ofNat_of_lt htarget, Int64.toInt_ofNat_of_lt hsite]
  exact Int.bmod_eq_of_le (by omega) (by omega)

/-- A code that fits in the memory has all displacements in 64-bit arithmetic. -/
theorem displacement_eq_toInt {size target site : Nat} (hsize : size < 2 ^ 63)
    (hsite : site ≤ size) :
    displacement size target site = (Int64.ofNat target - Int64.ofNat site).toInt := by
  unfold displacement
  split
  · rw [toInt_sub_ofNat (by omega) (by omega)]
  · rfl

/-- The displacement is the difference of the offsets, unless a target is so far away that it looks
negative. -/
theorem displacement_eq {size target site : Nat} (htarget : target < 2 ^ 63) (hsite : site ≤ size) :
    displacement size target site = target - site := by
  unfold displacement
  split
  · rfl
  · exact toInt_sub_ofNat htarget (by omega)

/-- Why a fixup cannot be applied to a code. -/
inductive Fault (t : LabelTable) (code : Buffer) (f : Fixup) : Prop where
  | undefined (h : t.offset? f.label = none)
  | outside (h : ¬ f.site + 4 ≤ code.size)
  | notBranch (w : Word) (hw : code.word? f.site = some w) (h : branchOp? w = none)
  | outOfRange (w : Word) (op : BranchOp) (offset : Nat) (hw : code.word? f.site = some w)
      (hop : branchOp? w = some op) (hoffset : t.offset? f.label = some offset)
      (h : ¬ op.form.InRange (displacement code.size offset f.site))

theorem not_fault {w : Word} {op : BranchOp} {offset : Nat} (hw : code.word? f.site = some w)
    (hop : branchOp? w = some op) (hoffset : t.offset? f.label = some offset)
    (hrange : op.form.InRange (displacement code.size offset f.site)) : ¬ t.Fault code f := by
  intro hfault
  cases hfault with
  | undefined h =>
    rw [hoffset] at h
    cases h
  | outside h =>
    rw [← Buffer.word?_eq_none_iff, hw] at h
    cases h
  | notBranch w' hw' h =>
    obtain rfl := Option.some.inj (hw.symm.trans hw')
    rw [hop] at h
    cases h
  | outOfRange w' op' offset' hw' hop' hoffset' h =>
    obtain rfl := Option.some.inj (hw.symm.trans hw')
    obtain rfl := Option.some.inj (hop.symm.trans hop')
    obtain rfl := Option.some.inj (hoffset.symm.trans hoffset')
    exact h hrange

theorem Fault.congr (h : t.Fault code f) (hsize : code'.size = code.size)
    (hsite : (code'.word? f.site).map branchOp? = (code.word? f.site).map branchOp?) :
    t.Fault code' f := by
  have hword {w : Word} {r : Option BranchOp} (hw : code.word? f.site = some w)
      (hop : branchOp? w = r) : ∃ w', code'.word? f.site = some w' ∧ branchOp? w' = r := by
    rw [hw, Option.map_some, hop] at hsite
    exact Option.map_eq_some_iff.mp hsite
  cases h with
  | undefined h => exact .undefined h
  | outside h =>
    rw [← Buffer.word?_eq_none_iff] at h
    rw [h, Option.map_none] at hsite
    exact .outside ((code'.word?_eq_none_iff _).mp (Option.map_eq_none_iff.mp hsite))
  | notBranch w hw h =>
    obtain ⟨w', hw', hop⟩ := hword hw h
    exact .notBranch w' hw' hop
  | outOfRange w op offset hw hop hoffset h =>
    obtain ⟨w', hw', hop'⟩ := hword hw hop
    rw [← hsize] at h
    exact .outOfRange w' op offset hw' hop' hoffset h

/-- The branch at the site of a fixup goes to its label, and is otherwise as in the first code. -/
def Resolves (t : LabelTable) (f : Fixup) (code code' : Buffer) : Prop :=
  ∃ w w' offset, code.word? f.site = some w ∧ code'.word? f.site = some w' ∧
    t.offset? f.label = some offset ∧ Retargeted w w' (displacement code.size offset f.site)

theorem patched_cases (t : LabelTable) (code : Buffer) (f : Fixup) :
    (t.Fault code f ∧ ∃ d, t.patched code f = .error d) ∨
      ¬ t.Fault code f ∧ ∃ w w' offset, t.patched code f = .ok w' ∧
        code.word? f.site = some w ∧ t.offset? f.label = some offset ∧
        Retargeted w w' (displacement code.size offset f.site) := by
  unfold patched
  cases hentry : t.entries[f.label.id]? with
  | none => exact .inl ⟨.undefined (by rw [offset?, hentry, Option.bind_none]), _, rfl⟩
  | some entry =>
  cases hplace : entry.offset with
  | none =>
    exact .inl ⟨.undefined (by rw [offset?, hentry, Option.bind_some, hplace]), by simp [hplace]⟩
  | some offset =>
  have hoffset : t.offset? f.label = some offset := by
    rw [offset?, hentry, Option.bind_some, hplace]
  cases hw : code.word? f.site with
  | none => exact .inl ⟨.outside ((code.word?_eq_none_iff _).mp hw), by simp [hplace]⟩
  | some w =>
  cases hop : branchOp? w with
  | none =>
    exact .inl ⟨.notBranch w hw hop, by simp [hplace, A64.branchForm?_eq, hop]⟩
  | some op =>
  by_cases hrange : op.form.InRange (displacement code.size offset f.site)
  · refine .inr ⟨not_fault hw hop hoffset hrange, w, _, offset, ?_, rfl, hoffset,
      A64.retargeted_of_branch? hop (A64.branch?_put hop hrange)⟩
    simp [hplace, A64.branchForm?_eq, hop, A64.patchBranch_of_inRange hop hrange]
  · refine .inl ⟨.outOfRange w op offset hw hop hoffset hrange, ?_⟩
    simp [hplace, A64.branchForm?_eq, hop, A64.patchBranch_of_not_inRange hop hrange]

/-! ## Many fixups -/

/-- What applying fixups has done to a code. The last one at a site decides. -/
structure Applied (t : LabelTable) (fixups : List Fixup) (code code' : Buffer) : Prop where
  faultless : ∀ f ∈ fixups, ¬ t.Fault code f
  size : code'.size = code.size
  site : ∀ before f after, fixups = before ++ f :: after → (∀ g ∈ after, g.site ≠ f.site) →
    t.Resolves f code code'
  outside : ∀ i, (∀ f ∈ fixups, i < f.site ∨ f.site + 4 ≤ i) → code'[i]? = code[i]?

theorem exists_last {fixups : List Fixup} {site : Nat} (h : ∃ f ∈ fixups, f.site = site) :
    ∃ before f after, fixups = before ++ f :: after ∧ f.site = site ∧
      ∀ g ∈ after, g.site ≠ f.site := by
  induction fixups with
  | nil =>
    obtain ⟨f, hf, -⟩ := h
    cases hf
  | cons first rest ih =>
    by_cases hrest : ∃ f ∈ rest, f.site = site
    · obtain ⟨before, f, after, rfl, hsite, hlast⟩ := ih hrest
      exact ⟨first :: before, f, after, rfl, hsite, hlast⟩
    · obtain ⟨f, hf, hsite⟩ := h
      rcases List.mem_cons.mp hf with rfl | hf
      · exact ⟨[], f, rest, rfl, hsite, fun g hg heq => hrest ⟨g, hg, heq.trans hsite⟩⟩
      · exact absurd ⟨f, hf, hsite⟩ hrest

theorem applied_nil (t : LabelTable) (code : Buffer) : t.Applied [] code code where
  faultless := by simp
  size := rfl
  site := by simp
  outside := fun _ _ => rfl

theorem applied_singleton {w w' : Word} {offset : Nat} (hfault : ¬ t.Fault code f)
    (hw : code.word? f.site = some w) (hoffset : t.offset? f.label = some offset)
    (h : Retargeted w w' (displacement code.size offset f.site)) :
    t.Applied [f] code (code.overwrite f.site w'.bytes) where
  faultless := by simpa using hfault
  size := Buffer.size_overwrite ..
  site := by
    intro before g after hsplit _
    obtain ⟨rfl, rfl, rfl⟩ : before = [] ∧ f = g ∧ after = [] := by
      cases before <;> simp_all
    have hinside : f.site + 4 ≤ code.size := by
      by_contra hsize
      rw [← Buffer.word?_eq_none_iff, hw] at hsize
      cases hsize
    exact ⟨w, w', offset, hw, code.word?_overwrite_self _ _ hinside, hoffset, h⟩
  outside := by
    intro i hi
    rcases hi f List.mem_cons_self with hlt | hge
    · exact code.getElem?_overwrite_of_lt _ _ _ hlt
    · exact code.getElem?_overwrite_of_ge _ _ _ (by simpa using hge)

section

variable {xs ys fixups : List Fixup} {code₁ code₂ code₃ : Buffer}

theorem Applied.word?_eq (h : t.Applied fixups code code') (hsites : ∀ f ∈ fixups, 4 ∣ f.site)
    {pos : Nat} (hpos : 4 ∣ pos) (hnone : ∀ f ∈ fixups, f.site ≠ pos) :
    code'.word? pos = code.word? pos := by
  refine Buffer.word?_congr fun i hl hu => h.outside i fun f hf => ?_
  have hsite := hsites f hf
  have hne := hnone f hf
  omega

theorem Applied.branchOp?_eq (h : t.Applied fixups code code')
    (hsites : ∀ f ∈ fixups, 4 ∣ f.site) {pos : Nat} (hpos : 4 ∣ pos) :
    (code'.word? pos).map branchOp? = (code.word? pos).map branchOp? := by
  by_cases hsome : ∃ f ∈ fixups, f.site = pos
  · obtain ⟨before, f, after, hsplit, rfl, hlast⟩ := exists_last hsome
    obtain ⟨w, w', offset, hw, hw', -, hretargeted⟩ := h.site before f after hsplit hlast
    rw [hw, hw', Option.map_some, Option.map_some, hretargeted.branchOp?_eq]
  · rw [h.word?_eq hsites hpos fun f hf heq => hsome ⟨f, hf, heq⟩]

theorem mem_either_of_split {before after : List Fixup} (h : xs ++ ys = before ++ f :: after) :
    (∃ as, ys = as ++ f :: after) ∨ ∃ bs, xs = before ++ f :: bs ∧ after = bs ++ ys := by
  rcases List.append_eq_append_iff.mp h with ⟨as, -, hys⟩ | ⟨bs, hxs, hafter⟩
  · exact .inl ⟨as, hys⟩
  · cases bs with
    | nil => exact .inl ⟨[], hafter.symm⟩
    | cons g bs =>
      obtain ⟨rfl, rfl⟩ := List.cons.inj hafter
      exact .inr ⟨bs, hxs, rfl⟩

theorem Applied.append (h : t.Applied xs code₁ code₂) (h' : t.Applied ys code₂ code₃)
    (hxs : ∀ f ∈ xs, 4 ∣ f.site) (hys : ∀ f ∈ ys, 4 ∣ f.site) :
    t.Applied (xs ++ ys) code₁ code₃ where
  faultless := by
    intro f hf hfault
    rcases List.mem_append.mp hf with hf | hf
    · exact h.faultless f hf hfault
    · exact h'.faultless f hf (hfault.congr h.size (h.branchOp?_eq hxs (hys f hf)))
  size := h'.size.trans h.size
  site := by
    intro before f after hsplit hlast
    rcases mem_either_of_split hsplit with ⟨as, hys'⟩ | ⟨bs, hxs', rfl⟩
    · obtain ⟨w, w', offset, hw, hw', hoffset, hretargeted⟩ := h'.site as f after hys' hlast
      have hop := h.branchOp?_eq hxs (hys f (by simp [hys']))
      rw [hw, Option.map_some] at hop
      obtain ⟨w₁, hw₁, hop⟩ := Option.map_eq_some_iff.mp hop.symm
      rw [h.size] at hretargeted
      exact ⟨w₁, w', offset, hw₁, hw', hoffset, hretargeted.congr_left hop.symm⟩
    · obtain ⟨w, w', offset, hw, hw', hrest⟩ := h.site before f bs hxs'
        fun g hg => hlast g (List.mem_append_left _ hg)
      have hkept := h'.word?_eq hys (hxs f (by simp [hxs']))
        fun g hg => hlast g (List.mem_append_right _ hg)
      exact ⟨w, w', offset, hw, hkept.trans hw', hrest⟩
  outside := by
    intro i hi
    rw [h'.outside i fun f hf => hi f (List.mem_append_right _ hf),
      h.outside i fun f hf => hi f (List.mem_append_left _ hf)]

/-! ## Resolving -/

theorem resolveAll_cases (t : LabelTable) (code : Buffer) (hsites : ∀ f ∈ fixups, 4 ∣ f.site) :
    (∃ code', t.resolveAll fixups code = (code', .ok ()) ∧ t.Applied fixups code code') ∨
      ∃ code' d before f after, t.resolveAll fixups code = (code', .error d) ∧
        fixups = before ++ f :: after ∧ t.Applied before code code' ∧ t.Fault code f := by
  induction fixups generalizing code with
  | nil => exact .inl ⟨code, rfl, t.applied_nil code⟩
  | cons f rest ih =>
    rw [resolveAll]
    rcases t.patched_cases code f with ⟨hfault, d, hp⟩ | ⟨hfault, w, w', offset, hp, hw, hoffset, h⟩
    · rw [hp]
      exact .inr ⟨code, d, [], f, rest, rfl, rfl, t.applied_nil code, hfault⟩
    · rw [hp]
      have hf : ∀ g ∈ [f], 4 ∣ g.site := by
        intro g hg
        obtain rfl := List.mem_singleton.mp hg
        exact hsites g List.mem_cons_self
      have hfirst := applied_singleton hfault hw hoffset h
      have hrest : ∀ g ∈ rest, 4 ∣ g.site := fun g hg => hsites g (List.mem_cons_of_mem f hg)
      rcases ih _ hrest with ⟨code', hrun, happlied⟩ |
        ⟨code', d, before, g, after, hrun, rfl, happlied, hfault⟩
      · exact .inl ⟨code', hrun, hfirst.append happlied hf hrest⟩
      · have hbefore : ∀ h ∈ before, 4 ∣ h.site := fun h hh => hrest h (List.mem_append_left _ hh)
        refine .inr ⟨code', d, f :: before, g, after, hrun, rfl,
          hfirst.append happlied hf hbefore, hfault.congr hfirst.size.symm ?_⟩
        exact (hfirst.branchOp?_eq hf (hrest g (by simp))).symm

theorem Applied.eq_self (h : t.Applied fixups code₁ code₂) (h' : t.Applied fixups code₂ code₃) :
    code₃ = code₂ := by
  apply Array.ext_getElem?
  intro i
  by_cases hin : ∃ f ∈ fixups, f.site ≤ i ∧ i < f.site + 4
  · obtain ⟨f, hf, hl, hu⟩ := hin
    obtain ⟨before, g, after, hsplit, hg, hlast⟩ := exists_last ⟨f, hf, rfl⟩
    obtain ⟨w₁, w₂, offset, -, hw₂, hoffset, hfirst⟩ := h.site before g after hsplit hlast
    obtain ⟨w, w₃, offset', hw, hw₃, hoffset', hsecond⟩ := h'.site before g after hsplit hlast
    obtain rfl := Option.some.inj (hw₂.symm.trans hw)
    obtain rfl := Option.some.inj (hoffset.symm.trans hoffset')
    rw [h.size] at hsecond
    rw [hfirst.eq_self hsecond] at hw₃
    have hbyte := (Buffer.word?_eq_some_iff _ _ _).mp hw₂ (i - g.site) (by omega)
    have hbyte' := (Buffer.word?_eq_some_iff _ _ _).mp hw₃ (i - g.site) (by omega)
    rw [Nat.add_sub_cancel' (by omega)] at hbyte hbyte'
    rw [hbyte, hbyte']
  · refine h'.outside i fun f hf => ?_
    by_contra hcontra
    exact hin ⟨f, hf, by omega⟩

theorem Applied.resolveAll_eq (h : t.Applied fixups code code')
    (hsites : ∀ f ∈ fixups, 4 ∣ f.site) : t.resolveAll fixups code' = (code', .ok ()) := by
  rcases t.resolveAll_cases code' hsites with
    ⟨code'', hrun, happlied⟩ | ⟨code'', d, before, f, after, -, hsplit, -, hfault⟩
  · rw [hrun, h.eq_self happlied]
  · have hf : f ∈ fixups := by simp [hsplit]
    exact absurd (hfault.congr h.size.symm (h.branchOp?_eq hsites (hsites f hf)).symm)
      (h.faultless f hf)

end

/-- A table gives each label the place of its only definition. Resolving its fixups retargets the
branch at each site and changes nothing else, and doing so again changes nothing. It fails if and
only if some fixup has a fault, and then the fixups before the first such one have been applied.
Displacements are 64-bit differences. Each branch goes from its site to its label if all labels have
places below `2 ^ 63`, and labels fit in 32 bits while there are no more steps than that. -/
theorem resolve_exact (actions : List Action) (code : Buffer)
    (hsites : ∀ f ∈ actions.filterMap Action.fixup?, 4 ∣ f.site) :
    let h := History.after actions
    let fixups := actions.filterMap Action.fixup?
    h.Consistent ∧
    (∀ label offset d, h.table.define label offset = .error d →
      History.after (actions ++ [.define label offset]) = h) ∧
    (actions.length < 2 ^ 32 → ∀ purpose, (h.table.create purpose).1.id < 2 ^ 32) ∧
    (code.size < 2 ^ 63 → ∀ target site, site ≤ code.size →
      displacement code.size target site = (Int64.ofNat target - Int64.ofNat site).toInt) ∧
    ((∀ label offset, .define label offset ∈ actions → offset < 2 ^ 63) →
      ∀ label offset site, h.table.offset? label = some offset → site ≤ code.size →
        displacement code.size offset site = offset - site) ∧
    (∀ code', h.table.resolve code = (code', .ok ()) →
      h.table.Applied fixups code code' ∧ h.table.resolve code' = (code', .ok ())) ∧
    ((∃ code' d, h.table.resolve code = (code', .error d)) ↔
      ∃ f ∈ fixups, h.table.Fault code f) ∧
    ∀ code' d, h.table.resolve code = (code', .error d) →
      ∃ before f after, fixups = before ++ f :: after ∧ h.table.Applied before code code' ∧
        h.table.Fault code f := by
  intro h fixups
  have hsites : ∀ f ∈ fixups, 4 ∣ f.site := hsites
  have hresolve (c : Buffer) : h.table.resolve c = h.table.resolveAll fixups c := by
    rw [resolve, History.fixups_after]
  have hdefine (label : Label) (offset : Nat) (d : Defect)
      (herror : h.table.define label offset = .error d) :
      History.after (actions ++ [.define label offset]) = h := by
    rw [History.after_snoc, History.act, herror]
  have hconsistent : h.Consistent := History.consistent_after actions
  have hcount : h.table.entries.size ≤ actions.length := History.size_entries_after actions
  refine ⟨hconsistent, hdefine, fun hlength purpose => Nat.lt_of_le_of_lt hcount hlength,
    fun hsize target site => displacement_eq_toInt hsize,
    fun hbounded label offset site hoffset hsite =>
      displacement_eq (hbounded label offset (History.mem_defined
        ((hconsistent.place label offset).mp hoffset))) hsite, ?_⟩
  simp only [hresolve]
  rcases h.table.resolveAll_cases code hsites with
    ⟨code₁, hrun, happlied⟩ | ⟨code₁, d₁, before, f, after, hrun, hsplit, happlied, hfault⟩
  · simp only [hrun, Prod.mk.injEq]
    refine ⟨?_, ⟨?_, ?_⟩, ?_⟩
    · rintro code' ⟨rfl, -⟩
      exact ⟨happlied, happlied.resolveAll_eq hsites⟩
    · rintro ⟨code', d, -, herror⟩
      cases herror
    · rintro ⟨f, hf, hfault⟩
      exact absurd hfault (happlied.faultless f hf)
    · rintro code' d ⟨-, herror⟩
      cases herror
  · simp only [hrun, Prod.mk.injEq]
    refine ⟨?_, ⟨?_, ?_⟩, ?_⟩
    · rintro code' ⟨-, hok⟩
      cases hok
    · rintro -
      exact ⟨f, by simp [fixups, hsplit], hfault⟩
    · rintro -
      exact ⟨code₁, d₁, rfl, rfl⟩
    · rintro code' d ⟨rfl, -⟩
      exact ⟨before, f, after, hsplit, happlied, hfault⟩

/-- Two fixups at one site, and a second definition that is not accepted. -/
theorem resolve_exact_twice :
    let actions : List Action := [.create .loopTop, .create .skip, .define ⟨0⟩ 0, .reference 4 ⟨0⟩,
      .reference 4 ⟨1⟩, .reference 8 ⟨0⟩, .define ⟨0⟩ 8, .define ⟨1⟩ 12]
    let h := History.after actions
    let fixups : List Fixup := [⟨4, ⟨0⟩⟩, ⟨4, ⟨1⟩⟩, ⟨8, ⟨0⟩⟩]
    let code := Buffer.ofWords [0xD503201F, 0x54000001, 0x14000000]
    let code' := Buffer.ofWords [0xD503201F, 0x54000041, 0x17FFFFFE]
    (∀ f ∈ fixups, 4 ∣ f.site) ∧ h.table.resolve code = (code', .ok ()) ∧
      h.defined = [(⟨0⟩, 0), (⟨1⟩, 12)] ∧ h.table.Applied fixups code code' ∧
      h.table.resolve code' = (code', .ok ()) := by
  intro actions h fixups code code'
  have hsites : ∀ f ∈ fixups, 4 ∣ f.site := by decide
  have hrun : h.table.resolve code = (code', .ok ()) := by
    subst code code' h actions
    exact Prod.ext (by decide +kernel) (by rfl)
  obtain ⟨-, -, -, -, -, hok, -⟩ := resolve_exact actions code hsites
  exact ⟨hsites, hrun, rfl, hok code' hrun⟩

/-- A label almost `2 ^ 64` bytes ahead is taken for one eight bytes back, and a branch goes there. -/
theorem farLabel_resolved :
    let h := History.after [.create .skip, .define ⟨0⟩ (2 ^ 64 - 8), .reference 0 ⟨0⟩]
    h.table.offset? ⟨0⟩ = some (2 ^ 64 - 8) ∧
      ¬ A64.BranchForm.imm26.InRange ((2 ^ 64 - 8 : ℕ) - (0 : ℕ)) ∧
      h.table.resolve (.ofWords [0x14000000]) = (.ofWords [0x17FFFFFE], .ok ()) ∧
      A64.branch? 0x17FFFFFE = some (.b, -8) := by
  intro h
  refine ⟨by rfl, by decide, Prod.ext (by decide +kernel) (by rfl), by decide +kernel⟩

end LabelTable

end Armature.Asm
