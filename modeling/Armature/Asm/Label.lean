import Armature.A64.Patch
import Armature.Asm.Defect

/-!
# Labels

A branch is emitted before its displacement is known, and a fixup records where it goes. Once every
label has its place, resolving patches one branch after the other and stops at the first that is
wrong.
-/

namespace Armature.Asm

structure Label where
  id : Nat
deriving DecidableEq

inductive Purpose where
  | loopTop | loopEnd | otherwise | endIf | function | functionReturn | skip
deriving DecidableEq

namespace Purpose

def all : List Purpose :=
  [.loopTop, .loopEnd, .otherwise, .endIf, .function, .functionReturn, .skip]

def name : Purpose → String
  | loopTop => "loop_top"
  | loopEnd => "loop_end"
  | otherwise => "else"
  | endIf => "end_if"
  | function => "func"
  | functionReturn => "ret"
  | skip => "skip"

def ofName? (name : String) : Option Purpose := all.find? (·.name = name)

end Purpose

structure LabelEntry where
  purpose : Purpose
  /-- The byte offset in the code, once the label is defined. -/
  offset : Option Nat

/-- The branch at byte offset `site` goes to a label. -/
structure Fixup where
  site : Nat
  label : Label

structure LabelTable where
  entries : Array LabelEntry
  fixups : Array Fixup

namespace LabelTable

def empty : LabelTable := ⟨#[], #[]⟩

/-- A new label, which has no place yet. -/
def create (t : LabelTable) (purpose : Purpose) : Label × LabelTable :=
  (⟨t.entries.size⟩, { t with entries := t.entries.push ⟨purpose, none⟩ })

def nameOf (label : Label) (entry : LabelEntry) : String :=
  "L" ++ entry.purpose.name ++ "_" ++ toString label.id

/-- Gives a label its place. It must not have one yet. -/
def define (t : LabelTable) (label : Label) (offset : Nat) : Except Defect LabelTable :=
  match t.entries[label.id]? with
  | none => .error (.labelUnknown label.id)
  | some entry =>
    if entry.offset.isSome then
      .error (.labelTwice (nameOf label entry))
    else
      .ok { t with entries := t.entries.setIfInBounds label.id { entry with offset := some offset } }

def reference (t : LabelTable) (site : Nat) (label : Label) : LabelTable :=
  { t with fixups := t.fixups.push ⟨site, label⟩ }

/-- How far it is from a site in a code of `size` bytes to its target. Offsets have 64 bits and are
subtracted as signed numbers, which makes a difference for targets far beyond the code. -/
def displacement (size target site : Nat) : Int :=
  if target ≤ size then (target : Int) - site
  else (Int64.ofNat target - Int64.ofNat site).toInt

/-- The word that a fixup puts in the place of the branch at its site. -/
def patched (t : LabelTable) (code : Buffer) (fixup : Fixup) : Except Defect Word :=
  match t.entries[fixup.label.id]? with
  | none => .error (.labelUnknown fixup.label.id)
  | some entry =>
    match entry.offset with
    | none => .error (.labelUndefined (nameOf fixup.label entry))
    | some target =>
      match code.word? fixup.site with
      | none => .error (.siteOutside fixup.site)
      | some w =>
        match A64.branchForm? w with
        | none => .error (.notABranch w fixup.site)
        | some form =>
          let displacement := displacement code.size target fixup.site
          match A64.patchBranch w displacement with
          | none =>
            .error (.outOfReach (nameOf fixup.label entry) fixup.site displacement form.reach)
          | some w => .ok w

/-- Applies the fixups in order, up to the first that is wrong. -/
def resolveAll (t : LabelTable) : List Fixup → Buffer → Buffer × Except Defect Unit
  | [], code => (code, .ok ())
  | fixup :: rest, code =>
    match t.patched code fixup with
    | .error defect => (code, .error defect)
    | .ok w => resolveAll t rest (code.overwrite fixup.site w.bytes)

/-- The code with its branches patched, and whether all of them were. -/
def resolve (t : LabelTable) (code : Buffer) : Buffer × Except Defect Unit :=
  t.resolveAll t.fixups.toList code

end LabelTable

end Armature.Asm
