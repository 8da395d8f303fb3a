import Armature.MachO.File
import Armature.Proofs.Words

/-!
# Reading executable files

What a loader reads in a file: load commands one after the other, the segments among them, and the
sections of each segment.
-/

namespace Armature

/-! ## Parts of a file -/

namespace Bytes

/-- So many bytes, from `pos` on. -/
def slice (file : Bytes) (pos count : Nat) : Bytes := (file.drop pos).take count

def u32 (file : Bytes) (pos : Nat) : Nat := Bytes.toNat (slice file pos 4)

def u64 (file : Bytes) (pos : Nat) : Nat := Bytes.toNat (slice file pos 8)

/-- The file has these bytes from `pos` on. -/
def At (file : Bytes) (pos : Nat) (bytes : Bytes) : Prop := bytes <+: file.drop pos

variable {file bytes : Bytes} {pos n : Nat}

theorem at_append (xs ys : Bytes) :
    At file pos (xs ++ ys) ↔ At file pos xs ∧ At file (pos + xs.length) ys := by
  unfold At
  rw [← List.drop_drop]
  constructor
  · rintro ⟨rest, h⟩
    rw [← h, List.append_assoc]
    exact ⟨List.prefix_append _ _, by rw [List.drop_left]; exact List.prefix_append _ _⟩
  · rintro ⟨⟨rest, h⟩, hys⟩
    rw [← h, List.drop_left] at hys
    rw [← h]
    exact (List.prefix_append_right_inj xs).mpr hys

theorem At.slice (h : At file pos bytes) : slice file pos bytes.length = bytes :=
  (List.prefix_iff_eq_take.mp h).symm

theorem At.u32 (h : At file pos (le32 n)) (hn : n < 2 ^ 32) : u32 file pos = n := by
  have hslice := h.slice
  rw [show (le32 n).length = 4 from length_le 4 n] at hslice
  rw [Bytes.u32, hslice, toNat_le32, Nat.mod_eq_of_lt hn]

theorem At.u64_mod (h : At file pos (le64 n)) : u64 file pos = n % 2 ^ 64 := by
  have hslice := h.slice
  rw [show (le64 n).length = 8 from length_le 8 n] at hslice
  rw [Bytes.u64, hslice, toNat_le64]

theorem At.u64 (h : At file pos (le64 n)) (hn : n < 2 ^ 64) : u64 file pos = n := by
  rw [h.u64_mod, Nat.mod_eq_of_lt hn]

end Bytes

namespace MachO

@[simp] theorem length_name16 (name : String) : (name16 name).length = 16 := by
  rw [name16, Bytes.padTo, List.length_append, Bytes.length_zeros, List.length_take]
  omega

/-! ## Records -/

/-- A section as it is read. -/
structure SectionRecord where
  name : Bytes
  segment : Bytes
  addr : Nat
  size : Nat
  offset : Nat

/-- A segment as it is read. -/
structure SegmentRecord where
  name : Bytes
  addr : Nat
  size : Nat
  fileOffset : Nat
  fileSize : Nat
  sections : List SectionRecord

def readSection (file : Bytes) (pos : Nat) : SectionRecord where
  name := file.slice pos 16
  segment := file.slice (pos + 16) 16
  addr := file.u64 (pos + 32)
  size := file.u64 (pos + 40)
  offset := file.u32 (pos + 48)

/-- The sections stand behind the segment. -/
def readSegment (file : Bytes) (pos : Nat) : SegmentRecord where
  name := file.slice (pos + 8) 16
  addr := file.u64 (pos + 24)
  size := file.u64 (pos + 32)
  fileOffset := file.u64 (pos + 40)
  fileSize := file.u64 (pos + 48)
  sections := (List.range (file.u32 (pos + 64))).map fun i => readSection file (pos + 72 + 80 * i)

/-- Where so many load commands stand, and where the last one ends. Each says how long it is. -/
def walk (file : Bytes) : Nat → Nat → List Nat × Nat
  | 0, pos => ([], pos)
  | count + 1, pos =>
    let (rest, stop) := walk file count (pos + file.u32 (pos + 4))
    (pos :: rest, stop)

/-- Where the load commands stand. The header is 32 bytes long. -/
def commandsOf (file : Bytes) : List Nat := (walk file (file.u32 16) 32).1

def segmentsOf (file : Bytes) : List SegmentRecord :=
  ((commandsOf file).filter fun pos => file.u32 pos = 0x19).map (readSegment file)

def sectionsOf (file : Bytes) : List SectionRecord := (segmentsOf file).flatMap (·.sections)

/-- Where in the file execution starts. -/
def entryOf? (file : Bytes) : Option Nat :=
  ((commandsOf file).find? fun pos => file.u32 pos = 0x80000028).map fun pos => file.u64 (pos + 8)

/-! ## Reading what was written -/

def Section.record (s : Section) : SectionRecord :=
  ⟨name16 s.name, name16 s.segment, s.addr, s.size, s.offset⟩

def Segment.record (s : Segment) : SegmentRecord :=
  ⟨name16 s.name, s.addr, s.size, s.fileOffset, s.fileSize, s.sections.map Section.record⟩

/-- All numbers fit into their fields. -/
structure Section.Fits (s : Section) : Prop where
  addr : s.addr < 2 ^ 64
  size : s.size < 2 ^ 64
  offset : s.offset < 2 ^ 32

structure Segment.Fits (s : Segment) : Prop where
  addr : s.addr < 2 ^ 64
  size : s.size < 2 ^ 64
  fileOffset : s.fileOffset < 2 ^ 64
  fileSize : s.fileSize < 2 ^ 64
  count : s.sections.length < 2 ^ 16
  sections : ∀ c ∈ s.sections, c.Fits

open Bytes (at_append)

variable {file : Bytes} {pos : Nat}

@[simp] theorem length_sectionBytes (s : Section) : s.bytes.length = 80 := by
  simp [Section.bytes, Bytes.le32, Bytes.le64]

theorem length_sections (sections : List Section) :
    (sections.flatMap Section.bytes).length = 80 * sections.length := by
  induction sections with
  | nil => rfl
  | cons s rest ih =>
    rw [List.flatMap_cons, List.length_append, ih, length_sectionBytes, List.length_cons]
    omega

theorem readSection_at (s : Section) (h : file.At pos s.bytes) (hs : s.Fits) :
    readSection file pos = s.record := by
  simp only [Section.bytes, at_append, List.length_append, length_name16, Bytes.le64, Bytes.le32,
    Bytes.length_le, Nat.reduceAdd] at h
  obtain ⟨⟨⟨⟨⟨⟨⟨⟨hname, hsegment⟩, haddr⟩, hsize⟩, hoffset⟩, -⟩, -⟩, -⟩, -⟩ := h
  have hname := hname.slice
  have hsegment := hsegment.slice
  rw [length_name16] at hname hsegment
  rw [readSection, hname, hsegment, haddr.u64 hs.addr, hsize.u64 hs.size, hoffset.u32 hs.offset,
    Section.record]

theorem readSections_at (sections : List Section) (h : file.At pos (sections.flatMap Section.bytes))
    (hs : ∀ c ∈ sections, c.Fits) :
    (List.range sections.length).map (fun i => readSection file (pos + 80 * i)) =
      sections.map Section.record := by
  induction sections generalizing pos with
  | nil => rfl
  | cons s rest ih =>
    rw [List.forall_mem_cons] at hs
    rw [List.flatMap_cons, at_append, length_sectionBytes] at h
    rw [List.length_cons, List.range_succ_eq_map, List.map_cons, List.map_map, List.map_cons,
      ← ih h.2 hs.2]
    refine List.cons_eq_cons.mpr ⟨readSection_at s h.1 hs.1, List.map_congr_left fun i _ => ?_⟩
    show readSection file (pos + 80 * (i + 1)) = readSection file (pos + 80 + 80 * i)
    congr 1
    omega

theorem readSegment_at (s : Segment) (h : file.At pos (Command.segment s).bytes) (hs : s.Fits) :
    readSegment file pos = s.record := by
  have hcount := hs.count
  simp only [Command.bytes, Command.body, at_append, List.length_append, length_name16, Bytes.le64,
    Bytes.le32, Bytes.length_le, Nat.reduceAdd, Nat.add_assoc] at h
  obtain ⟨-, ⟨⟨⟨⟨⟨⟨⟨⟨⟨hname, haddr⟩, hsize⟩, hoffset⟩, hfile⟩, -⟩, -⟩, hcount'⟩, -⟩, hsections⟩⟩ := h
  have hname := hname.slice
  rw [length_name16] at hname
  have hsections := readSections_at s.sections hsections hs.sections
  rw [readSegment, hname, haddr.u64 hs.addr, hsize.u64 hs.size, hoffset.u64 hs.fileOffset,
    hfile.u64 hs.fileSize, hcount'.u32 (by omega), hsections, Segment.record]

/-- The command can be read again: its length and its numbers fit, and its code tells it from other
commands. -/
structure Command.Readable (c : Command) : Prop where
  code : c.code < 2 ^ 32
  length : c.bytes.length < 2 ^ 32
  segment : c.code = 0x19 → ∃ s, c = .segment s ∧ s.Fits
  entryPoint : c.code = 0x80000028 → ∃ offset size, c = .entryPoint offset size

namespace Command

def segment? : Command → Option Segment
  | segment s => some s
  | _ => none

def entry? : Command → Option Nat
  | entryPoint offset _ => some offset
  | _ => none

end Command

/-- Where commands stand that are written one after the other. -/
def positions (pos : Nat) : List Command → List Nat
  | [] => []
  | c :: rest => pos :: positions (pos + c.bytes.length) rest

theorem Command.length_pathBody {size : Nat} {fields : List Nat} {path : String}
    (h : 4 * fields.length + (Bytes.ofText path).length ≤ size - 8) :
    (pathBody size fields path).length = size - 8 := by
  have hfields : (fields.flatMap Bytes.le32).length = 4 * fields.length := by
    clear h
    induction fields with
    | nil => rfl
    | cons field fields ih =>
      rw [List.flatMap_cons, List.length_append, ih, Bytes.le32, Bytes.length_le, List.length_cons]
      omega
  simp only [pathBody, Bytes.padTo, List.length_append, hfields, Bytes.length_zeros]
  omega

/-- The size that a command gives is how long it is. In particular, paths fit in their commands. -/
theorem Command.length_bytes (c : Command) : c.bytes.length = c.size := by
  have hcount : c.bytes.length = 8 + c.body.length := by
    simp [Command.bytes, Bytes.le32]
    omega
  rw [hcount]
  cases c with
  | segment s =>
    simp only [body, size, segmentSize, List.length_append, length_name16, Bytes.le64, Bytes.le32,
      Bytes.length_le, length_sections]
    omega
  | linkerData => simp [body, size, linkerDataSize, Bytes.le32]
  | symbols => simp [body, size, symbolsSize, Bytes.le32]
  | dynamicSymbols => simp [body, size, dynamicSymbolsSize]
  | dynamicLinker =>
    rw [body, length_pathBody (by decide +kernel)]
    rfl
  | buildVersion => simp [body, size, buildVersionSize, Bytes.le32]
  | entryPoint => simp [body, size, entryPointSize, Bytes.le64]
  | systemLibrary =>
    rw [body, length_pathBody (by decide +kernel)]
    rfl

theorem command_at {c : Command} (h : file.At pos c.bytes) (hc : c.Readable) :
    file.u32 pos = c.code ∧ file.u32 (pos + 4) = c.bytes.length := by
  have hlength := hc.length
  rw [c.length_bytes] at hlength ⊢
  simp only [Command.bytes, at_append, List.length_append, Bytes.le32, Bytes.length_le] at h
  exact ⟨h.1.1.u32 hc.code, h.1.2.u32 hlength⟩

theorem walk_at {commands : List Command} (h : file.At pos (commands.flatMap Command.bytes))
    (hc : ∀ c ∈ commands, c.Readable) :
    walk file commands.length pos =
      (positions pos commands, pos + (commands.flatMap Command.bytes).length) := by
  induction commands generalizing pos with
  | nil => rfl
  | cons c rest ih =>
    rw [List.forall_mem_cons] at hc
    rw [List.flatMap_cons, at_append] at h
    rw [List.length_cons, walk, (command_at h.1 hc.1).2, ih h.2 hc.2, positions, List.flatMap_cons,
      List.length_append, Nat.add_assoc]

theorem segments_at {commands : List Command} (h : file.At pos (commands.flatMap Command.bytes))
    (hc : ∀ c ∈ commands, c.Readable) :
    ((positions pos commands).filter fun pos => file.u32 pos = 0x19).map (readSegment file) =
      (commands.filterMap Command.segment?).map Segment.record := by
  induction commands generalizing pos with
  | nil => rfl
  | cons c rest ih =>
    rw [List.forall_mem_cons] at hc
    rw [List.flatMap_cons, at_append] at h
    have hcode := (command_at h.1 hc.1).1
    have hrest := ih h.2 hc.2
    by_cases heq : c.code = 0x19
    · obtain ⟨s, rfl, hs⟩ := hc.1.segment heq
      rw [positions, List.filter_cons_of_pos (by simpa [heq] using hcode), List.map_cons, hrest,
        readSegment_at s h.1 hs]
      rfl
    · have hnone : c.segment? = none := by
        cases c with
        | segment s => exact absurd rfl heq
        | _ => rfl
      rw [positions, List.filter_cons_of_neg (by simpa [hcode] using heq), hrest,
        List.filterMap_cons_none hnone]

theorem entry_at {commands : List Command} (h : file.At pos (commands.flatMap Command.bytes))
    (hc : ∀ c ∈ commands, c.Readable) :
    ((positions pos commands).find? fun pos => file.u32 pos = 0x80000028).map
        (fun pos => file.u64 (pos + 8)) =
      (commands.findSome? Command.entry?).map (· % 2 ^ 64) := by
  induction commands generalizing pos with
  | nil => rfl
  | cons c rest ih =>
    rw [List.forall_mem_cons] at hc
    rw [List.flatMap_cons, at_append] at h
    have hcode := (command_at h.1 hc.1).1
    by_cases heq : c.code = 0x80000028
    · obtain ⟨offset, size, rfl⟩ := hc.1.entryPoint heq
      rw [positions, List.find?_cons_of_pos (by simpa [heq] using hcode)]
      have hentry := h.1
      simp only [Command.bytes, Command.body, at_append, List.length_append, Bytes.le32,
        Bytes.length_le] at hentry
      exact congrArg some hentry.2.1.u64_mod
    · have hnone : c.entry? = none := by
        cases c with
        | entryPoint => exact absurd rfl heq
        | _ => rfl
      rw [positions, List.find?_cons_of_neg (by simpa [hcode] using heq), ih h.2 hc.2,
        List.findSome?_cons_of_isNone (by simp [hnone])]

end MachO

end Armature
