import Armature.Proofs.Inversion
import Armature.Proofs.Reading

/-!
# Files that can be read back

The load commands of a file describe the file that they are in: the parts of the image are where the
sections say.
-/

namespace Armature.MachO

open Asm (Defect Image Reference)
open Bytes (at_append)

/-! ## Sizes -/

theorem le_alignUp (n alignment : Nat) (h : 0 < alignment) : n ≤ alignUp n alignment := by
  have hdiv := Nat.div_add_mod (n + alignment - 1) alignment
  have hmod := Nat.mod_lt (n + alignment - 1) h
  rw [Nat.mul_comm] at hdiv
  unfold alignUp
  omega

theorem alignUp_mod (n alignment : Nat) : alignUp n alignment % alignment = 0 :=
  Nat.mul_mod_left _ _

theorem length_textSections (p : Placement) : (textSections p).length ≤ 3 := by
  unfold textSections
  split <;> split <;> simp

theorem length_commands (p : Placement) (entry : Nat) :
    (commands p entry).length = commandCount p ∧
      ((commands p entry).flatMap Command.bytes).length = commandsSize p := by
  constructor
  · simp [commands, commandCount]
  · have hsegments : ((segments p).map (Command.size ∘ Command.segment)).sum =
        (segments p).foldr (Command.segmentSize · + ·) 0 := by
      rw [List.sum_eq_foldr, List.foldr_map]
      rfl
    have hlengths : (fun c : Command => c.bytes.length) = Command.size :=
      funext Command.length_bytes
    rw [List.length_flatMap, hlengths, commands, List.map_append, List.map_map, List.sum_append,
      hsegments]
    simp only [List.map_cons, List.map_nil, List.sum_cons, List.sum_nil, Command.size, commandsSize]
    omega

theorem commandsSize_eq (p : Placement) : commandsSize p = 640 + 80 * (textSections p).length := by
  simp only [commandsSize, segments, Command.segmentSize, Command.linkerDataSize,
    Command.symbolsSize, Command.dynamicSymbolsSize, Command.dynamicLinkerSize,
    Command.buildVersionSize, Command.entryPointSize, Command.systemLibrarySize, List.foldr_cons,
    List.foldr_nil, List.length_cons, List.length_nil]
  omega

theorem commands_le (p : Placement) : headerSize + commandsSize p ≤ Placement.code := by
  have hsections := length_textSections p
  rw [commandsSize_eq]
  unfold headerSize Placement.code pageSize
  omega

theorem size_resolveReferences {p : Placement} {image : Image} {references : List Reference}
    {code code' : Buffer} (h : resolveReferences p image references code = .ok code') :
    code'.size = code.size := by
  induction references generalizing code with
  | nil =>
    cases h
    rfl
  | cons r rest ih =>
    rw [resolveReferences] at h
    split at h
    · cases h
    · split at h
      · cases h
      · rw [ih h, Buffer.size_overwrite]

/-! ## Where everything is -/

/-- Where the parts of an image are in a file. The code has its references filled in. -/
structure Laid (image : Image) (p : Placement) (code : Buffer) (file : Bytes) : Prop where
  resolved : resolveReferences p image image.references.toList image.code = .ok code
  size : code.size = image.code.size
  start : file.At 0 (headerAndCommands p image.entry)
  code : file.At Placement.code code.toList
  strings : file.At p.strings image.constants.strings
  doubles : file.At p.doubles image.constants.doubles
  pointers : file.At p.pointers importPointers
  length : file.length = p.linkerData + ((chainedFixups p.pointers).length + exports.length)

theorem Placement.bounds (p : Placement) :
    Placement.code ≤ p.strings ∧ p.strings + p.stringsSize ≤ p.doubles ∧
      p.doubles + p.doublesSize ≤ p.pointers := by
  refine ⟨Nat.le_add_right _ _, ?_, ?_⟩
  · exact le_alignUp _ _ (by decide)
  · exact le_alignUp _ _ (by decide)

theorem at_padTo {file bytes : Bytes} {pos size : Nat} (h : file.At pos (Bytes.padTo size bytes)) :
    file.At pos bytes := ((at_append _ _).mp h).1

theorem length_padTo {bytes : Bytes} {size : Nat} (h : bytes.length ≤ size) :
    (Bytes.padTo size bytes).length = size := by
  rw [Bytes.padTo, List.length_append, Bytes.length_zeros]
  omega

theorem length_header (count size : Nat) : (header count size).length = headerSize := rfl

theorem length_headerAndCommands (p : Placement) (entry : Nat) :
    (headerAndCommands p entry).length ≤ Placement.code := by
  rw [headerAndCommands, List.length_append, length_header, (length_commands p entry).2]
  exact commands_le p

/-- Only references can keep a file from being built. -/
theorem file_eq (image : Image) : MachO.file image =
    (resolveReferences (.ofImage image) image image.references.toList image.code).map
      (contents image) := by
  rw [MachO.file]
  simp only [if_neg (Nat.not_lt.mpr (commands_le (.ofImage image)))]
  cases resolveReferences (.ofImage image) image image.references.toList image.code <;> rfl

theorem exists_file {image : Image} {code : Buffer}
    (h : resolveReferences (.ofImage image) image image.references.toList image.code = .ok code) :
    ∃ file, MachO.file image = .ok file := ⟨_, by rw [file_eq, h]; rfl⟩

theorem file_laid {image : Image} {file : Bytes} (h : MachO.file image = .ok file) :
    ∃ code, Laid image (.ofImage image) code file := by
  obtain ⟨code, hcode, h⟩ : ∃ code, resolveReferences (.ofImage image) image
      image.references.toList image.code = .ok code ∧ contents image code = file := by
    rw [file_eq] at h
    cases hcode : resolveReferences (.ofImage image) image image.references.toList image.code with
    | error d =>
      rw [hcode] at h
      cases h
    | ok code =>
      rw [hcode] at h
      exact ⟨code, rfl, Except.ok.inj h⟩
  unfold contents at h
  obtain ⟨hstrings, hdoubles, hpointers⟩ := (Placement.ofImage image).bounds
  have hsize := size_resolveReferences hcode
  have hcodeSize : (Placement.ofImage image).codeSize = image.code.size := rfl
  have hstringsSize : (Placement.ofImage image).stringsSize = image.constants.strings.length := rfl
  have hdoublesSize : (Placement.ofImage image).doublesSize = image.constants.doubles.length := rfl
  generalize Placement.ofImage image = p at *
  have hstrings' : p.strings = Placement.code + p.codeSize := rfl
  have hlinker : p.linkerData = p.pointers + pageSize := rfl
  -- the parts that are filled up with zeros
  have hstart := length_padTo (length_headerAndCommands p image.entry)
  have hlower : (code.toList ++ image.constants.strings).length ≤ p.doubles - Placement.code := by
    rw [List.length_append, Array.length_toList]
    omega
  have htext : (Bytes.padTo (p.doubles - Placement.code) (code.toList ++ image.constants.strings) ++
      image.constants.doubles).length ≤ p.pointers - Placement.code := by
    rw [List.length_append, length_padTo hlower]
    omega
  have himports : importPointers.length ≤ pageSize := by decide
  have hat (bytes : Bytes) (hbytes : bytes = file) : file.At 0 bytes :=
    hbytes ▸ List.prefix_rfl
  have hat := hat _ h
  rw [at_append, at_append, at_append, at_append, hstart, List.length_append, hstart,
    length_padTo htext] at hat
  obtain ⟨⟨⟨⟨hheader, htextAt⟩, himportsAt⟩, -⟩, -⟩ := hat
  have htextAt := at_padTo htextAt
  rw [at_append, length_padTo hlower] at htextAt
  obtain ⟨hcodeAt, hdoublesAt⟩ := htextAt
  have hcodeAt := at_padTo hcodeAt
  rw [at_append, Array.length_toList] at hcodeAt
  rw [Nat.zero_add] at hcodeAt hdoublesAt himportsAt
  have hdoublesEq : Placement.code + (p.doubles - Placement.code) = p.doubles := by omega
  have hpointersEq : Placement.code + (p.pointers - Placement.code) = p.pointers := by omega
  have hstringsEq : Placement.code + code.size = p.strings := by omega
  rw [hdoublesEq] at hdoublesAt
  rw [hpointersEq] at himportsAt
  rw [hstringsEq] at hcodeAt
  refine ⟨code, hcode, hsize, at_padTo hheader, hcodeAt.1, hcodeAt.2, hdoublesAt,
    at_padTo himportsAt, ?_⟩
  rw [← h]
  simp only [List.length_append, hstart, length_padTo htext, length_padTo himports, hlinker]
  omega

/-! ## Load commands read back -/

/-- A file that is not too large to be described by its own commands. -/
structure Placement.Small (p : Placement) : Prop where
  pointers : p.pointers + pageSize < 2 ^ 32
  linkerSize : (chainedFixups p.pointers).length + exports.length < 2 ^ 32

theorem Laid.small {image : Image} {p : Placement} {code : Buffer} {file : Bytes}
    (h : Laid image p code file) (hsize : file.length < 2 ^ 32) : p.Small := by
  have hlength := h.length
  have hlinker : p.linkerData = p.pointers + pageSize := rfl
  constructor <;> omega

theorem alignUp_lt (n alignment : Nat) (h : 0 < alignment) : alignUp n alignment < n + alignment := by
  have hdiv := Nat.div_add_mod (n + alignment - 1) alignment
  rw [Nat.mul_comm] at hdiv
  unfold alignUp
  omega

theorem textSections_fit {p : Placement} (hp : p.Small) : ∀ c ∈ textSections p, c.Fits := by
  obtain ⟨hstrings, hdoubles, hpointers⟩ := p.bounds
  have hsmall := hp.pointers
  have hbase : imageBase = 2 ^ 32 := rfl
  have hstrings' : p.strings = Placement.code + p.codeSize := rfl
  intro c hc
  simp only [textSections, List.mem_append, List.mem_cons, List.mem_ite_nil_left,
    List.not_mem_nil, or_false] at hc
  obtain (rfl | ⟨-, rfl⟩) | ⟨-, rfl⟩ := hc
  all_goals constructor <;> dsimp only <;> omega

theorem segments_fit {p : Placement} (hp : p.Small) : ∀ s ∈ segments p, s.Fits := by
  have hsections := length_textSections p
  have htext := textSections_fit hp
  have hsmall := hp.pointers
  have hlinker := hp.linkerSize
  have hlinkerData : p.linkerData = p.pointers + pageSize := rfl
  have hbase : imageBase = 2 ^ 32 := rfl
  have hpage : pageSize = 2 ^ 14 := rfl
  have hround := alignUp_lt ((chainedFixups p.pointers).length + exports.length) pageSize (by decide)
  have himports : importPointers.length = 16 := by decide
  simp only [segments, List.forall_mem_cons]
  refine ⟨⟨?_, ?_, ?_, ?_, ?_, nofun⟩, ⟨?_, ?_, ?_, ?_, ?_, htext⟩, ⟨?_, ?_, ?_, ?_, ?_, ?_⟩,
    ⟨?_, ?_, ?_, ?_, ?_, nofun⟩, nofun⟩
  case refine_16 =>
    simp only [List.forall_mem_singleton]
    constructor <;> dsimp only <;> omega
  all_goals
    simp only [List.length_nil, List.length_cons]
    omega

theorem readable_segment {s : Segment} (hs : s.Fits) : (Command.segment s).Readable where
  code := by simp [Command.code]
  length := by
    have hcount := hs.count
    rw [Command.length_bytes, Command.size, Command.segmentSize]
    omega
  segment := fun _ => ⟨s, rfl, hs⟩
  entryPoint := fun h => absurd h (by simp [Command.code])

theorem commands_readable {p : Placement} (hp : p.Small) (entry : Nat) :
    ∀ c ∈ commands p entry, c.Readable := by
  intro c hc
  rcases List.mem_append.mp hc with hc | hc
  · obtain ⟨s, hs, rfl⟩ := List.mem_map.mp hc
    exact readable_segment (segments_fit hp s hs)
  · simp only [List.mem_cons, List.not_mem_nil, or_false] at hc
    obtain rfl | rfl | rfl | rfl | rfl | rfl | rfl | rfl := hc
    all_goals
      refine ⟨?_, by rw [Command.length_bytes, Command.size]; decide, ?_, ?_⟩ <;>
        simp [Command.code, Command.chainedFixupsCode, Command.exportsCode]

theorem Laid.commands_at {image : Image} {p : Placement} {code : Buffer} {file : Bytes}
    (h : Laid image p code file) :
    file.u32 16 = 12 ∧ file.u32 20 = commandsSize p ∧
      file.At 32 ((commands p image.entry).flatMap Command.bytes) := by
  have hstart := h.start
  rw [headerAndCommands, at_append, length_header, Nat.zero_add] at hstart
  obtain ⟨hheader, hcommands⟩ := hstart
  have hle := commands_le p
  simp only [header, at_append, List.length_append, Bytes.le32, Bytes.length_le, Nat.reduceAdd,
    Nat.zero_add] at hheader
  obtain ⟨⟨⟨⟨-, hcount⟩, hsize⟩, -⟩, -⟩ := hheader
  unfold headerSize Placement.code pageSize at hle
  have hnumber : commandCount p = 12 := rfl
  exact ⟨hcount.u32 (by omega), hsize.u32 (by omega), hcommands⟩

theorem Laid.read {image : Image} {p : Placement} {code : Buffer} {file : Bytes}
    (h : Laid image p code file) (hsize : file.length < 2 ^ 32) :
    walk file (file.u32 16) 32 = (positions 32 (commands p image.entry), 32 + file.u32 20) ∧
      32 + file.u32 20 ≤ pageSize ∧
      segmentsOf file = (segments p).map Segment.record ∧
      entryOf? file = some ((Placement.code + image.entry) % 2 ^ 64) := by
  obtain ⟨hcount, hbytes, hcommands⟩ := h.commands_at
  have hreadable := commands_readable (h.small hsize) image.entry
  have hwalk := walk_at hcommands hreadable
  have hlength : (commands p image.entry).length = 12 := rfl
  rw [hlength, (length_commands p image.entry).2, ← hcount, ← hbytes] at hwalk
  have hpositions : commandsOf file = positions 32 (commands p image.entry) :=
    congrArg Prod.fst hwalk
  refine ⟨hwalk, ?_, ?_, ?_⟩
  · rw [hbytes]
    exact commands_le p
  · rw [segmentsOf, hpositions, segments_at hcommands hreadable]
    rfl
  · rw [entryOf?, hpositions, entry_at hcommands hreadable]
    rfl

/-! ## Consistent files -/

/-- Each segment starts in the file where the one before it ends. -/
def Tiles (start stop : Nat) : List SegmentRecord → Prop
  | [] => start = stop
  | s :: rest => s.fileOffset = start ∧ Tiles (start + s.fileSize) stop rest

/-- The segment has the same layout in the file and in memory, and its sections are apart. -/
structure SegmentRecord.Consistent (s : SegmentRecord) : Prop where
  addr : s.addr = imageBase + s.fileOffset
  inFile : ∀ c ∈ s.sections,
    s.fileOffset ≤ c.offset ∧ c.offset + c.size ≤ s.fileOffset + s.fileSize
  inMemory : ∀ c ∈ s.sections, s.addr ≤ c.addr ∧ c.addr + c.size ≤ s.addr + s.size
  same : ∀ c ∈ s.sections, c.addr - s.addr = c.offset - s.fileOffset
  apart : s.sections.Pairwise fun c d => c.offset + c.size ≤ d.offset

/-- The file is as its load commands say. -/
structure Consistent (file : Bytes) : Prop where
  walked : (walk file (file.u32 16) 32).2 = 32 + file.u32 20
  room : 32 + file.u32 20 ≤ 0x4000
  tiles : ∃ zero rest, segmentsOf file = zero :: rest ∧ zero.name = name16 "__PAGEZERO" ∧
    Tiles 0 file.length rest ∧ ∀ s ∈ rest, s.Consistent

/-- The contents of all sections, with their names. -/
def contentsOf (file : Bytes) : List (Bytes × Bytes) :=
  (sectionsOf file).map fun c => (c.name, file.slice c.offset c.size)

/-- What an image has in its sections. -/
def imageContents (image : Image) (code : Buffer) : List (String × Bytes) :=
  ("__text", code.toList)
    :: (if image.constants.strings = [] then [] else [("__cstring", image.constants.strings)])
    ++ (if image.constants.doubles = [] then [] else [("__const", image.constants.doubles)])
    ++ [("__got", importPointers)]

theorem textSections_apart (p : Placement) :
    ((textSections p).map Section.record).Pairwise fun c d => c.offset + c.size ≤ d.offset := by
  obtain ⟨hstrings, hdoubles, hpointers⟩ := p.bounds
  have hstrings' : p.strings = Placement.code + p.codeSize := rfl
  unfold textSections
  split <;> split <;> simp [Section.record] <;> omega

theorem text_consistent (p : Placement) :
    SegmentRecord.Consistent ⟨name16 "__TEXT", imageBase, p.pointers, 0, p.pointers,
      (textSections p).map Section.record⟩ := by
  obtain ⟨hstrings, hdoubles, hpointers⟩ := p.bounds
  have hstrings' : p.strings = Placement.code + p.codeSize := rfl
  have hsections (c : SectionRecord) (hc : c ∈ (textSections p).map Section.record) :
      c.addr = imageBase + c.offset ∧ c.offset + c.size ≤ p.pointers := by
    obtain ⟨s, hs, rfl⟩ := List.mem_map.mp hc
    simp only [textSections, List.mem_append, List.mem_cons, List.mem_ite_nil_left,
      List.not_mem_nil, or_false] at hs
    obtain (rfl | ⟨-, rfl⟩) | ⟨-, rfl⟩ := hs
    all_goals exact ⟨rfl, by dsimp only [Section.record]; omega⟩
  refine ⟨rfl, ?_, ?_, ?_, textSections_apart p⟩
  all_goals
    intro c hc
    have := hsections c hc
    dsimp only
    omega

theorem contents_text {image : Image} {code : Buffer} {file : Bytes}
    (h : Laid image (.ofImage image) code file) :
    ((textSections (.ofImage image)).map Section.record).map
        (fun c => (c.name, file.slice c.offset c.size)) ++
      [(name16 "__got", importPointers)] =
      (imageContents image code).map fun (name, bytes) => (name16 name, bytes) := by
  have hcode := h.code.slice
  rw [Array.length_toList, h.size] at hcode
  have hcode : file.slice Placement.code (Placement.ofImage image).codeSize = code.toList := hcode
  have hstrings : file.slice (Placement.ofImage image).strings
    (Placement.ofImage image).stringsSize = image.constants.strings := h.strings.slice
  have hdoubles : file.slice (Placement.ofImage image).doubles
    (Placement.ofImage image).doublesSize = image.constants.doubles := h.doubles.slice
  have hnoStrings : (Placement.ofImage image).stringsSize = 0 ↔ image.constants.strings = [] :=
    List.length_eq_zero_iff
  have hnoDoubles : (Placement.ofImage image).doublesSize = 0 ↔ image.constants.doubles = [] :=
    List.length_eq_zero_iff
  unfold textSections imageContents
  simp only [hnoStrings, hnoDoubles]
  split <;> split <;> simp [Section.record, hcode, hstrings, hdoubles]

theorem Laid.consistent {image : Image} {p : Placement} {code : Buffer} {file : Bytes}
    (h : Laid image p code file) (hsize : file.length < 2 ^ 32) : Consistent file := by
  obtain ⟨hwalk, hroom, hsegments, -⟩ := h.read hsize
  have himports : importPointers.length ≤ pageSize := by decide
  refine ⟨congrArg Prod.snd hwalk, hroom, _, _, hsegments, rfl, ?_, ?_⟩
  · refine ⟨rfl, (Nat.zero_add p.pointers).symm, ?_, ?_⟩
    · show p.pointers + pageSize = 0 + p.pointers + pageSize
      rw [Nat.zero_add]
    · show 0 + p.pointers + pageSize + _ = file.length
      rw [h.length, Nat.zero_add]
      rfl
  · simp only [List.map_cons, List.map_nil, List.forall_mem_cons]
    refine ⟨text_consistent p, ⟨rfl, ?_, ?_, ?_, ?_⟩, ⟨rfl, nofun, nofun, nofun, .nil⟩, nofun⟩
    · simpa [Segment.record, Section.record] using himports
    · simpa [Segment.record, Section.record] using himports
    · simp [Segment.record, Section.record]
    · simp [Segment.record]

/-- The section of the pointers to imports. -/
def pointersRecord (p : Placement) : SectionRecord :=
  ⟨name16 "__got", name16 "__DATA_CONST", imageBase + p.pointers, importPointers.length, p.pointers⟩

theorem Laid.sections {image : Image} {p : Placement} {code : Buffer} {file : Bytes}
    (h : Laid image p code file) (hsize : file.length < 2 ^ 32) :
    sectionsOf file = (textSections p).map Section.record ++ [pointersRecord p] := by
  obtain ⟨-, -, hsegments, -⟩ := h.read hsize
  rw [sectionsOf, hsegments]
  simp [segments, Segment.record, Section.record, pointersRecord]

theorem Laid.contents {image : Image} {code : Buffer} {file : Bytes}
    (h : Laid image (.ofImage image) code file) (hsize : file.length < 2 ^ 32) :
    contentsOf file = (imageContents image code).map fun (name, bytes) => (name16 name, bytes) := by
  have hpointers := h.pointers.slice
  rw [← contents_text h, contentsOf, h.sections hsize, List.map_append, List.map_singleton,
    pointersRecord, hpointers]

theorem doubles_aligned {p : Placement} {c : SectionRecord}
    (hc : c ∈ (textSections p).map Section.record ++ [pointersRecord p])
    (hname : c.name = name16 "__const") : c.offset % 8 = 0 := by
  have htext : name16 "__text" ≠ name16 "__const" := by decide +kernel
  have hstrings : name16 "__cstring" ≠ name16 "__const" := by decide +kernel
  have hpointers : name16 "__got" ≠ name16 "__const" := by decide +kernel
  rcases List.mem_append.mp hc with hc | hc
  · obtain ⟨s, hs, rfl⟩ := List.mem_map.mp hc
    simp only [textSections, List.mem_append, List.mem_cons, List.mem_ite_nil_left,
      List.not_mem_nil, or_false] at hs
    obtain (rfl | ⟨-, rfl⟩) | ⟨-, rfl⟩ := hs
    · exact absurd hname htext
    · exact absurd hname hstrings
    · exact alignUp_mod _ 8
  · obtain rfl := List.mem_singleton.mp hc
    exact absurd hname hpointers

/-- A file that is smaller than 4 GiB can be read back. Its load commands describe the whole file,
its sections are those parts of the image that are not empty, and execution starts in the code. -/
theorem file_parsed (image : Image) (file : Bytes) (h : MachO.file image = .ok file)
    (hsize : file.length < 2 ^ 32) :
    Consistent file ∧
      (∃ code, resolveReferences (.ofImage image) image image.references.toList image.code =
          .ok code ∧
        contentsOf file =
          (imageContents image code).map fun (name, bytes) => (name16 name, bytes)) ∧
      (∀ c ∈ sectionsOf file, c.name = name16 "__const" → c.offset % 8 = 0) ∧
      ∃ c ∈ sectionsOf file, c.name = name16 "__text" ∧
        entryOf? file = some ((c.offset + image.entry) % 2 ^ 64) := by
  obtain ⟨code, hlaid⟩ := file_laid h
  obtain ⟨-, -, -, hentry⟩ := hlaid.read hsize
  have hsections := hlaid.sections hsize
  refine ⟨hlaid.consistent hsize, ⟨code, hlaid.resolved, hlaid.contents hsize⟩, ?_, ?_⟩
  · intro c hc
    rw [hsections] at hc
    exact doubles_aligned hc
  · rw [hsections]
    exact ⟨_, List.mem_append_left _ (List.mem_map_of_mem List.mem_cons_self), rfl, hentry⟩

/-- An image with code that refers to a string, and with no doubles. -/
def greeting : Image where
  code := Buffer.ofWords [(A64.Instr.adrp .x0 0).encode, (A64.Instr.addImm .x0 .x0 0).encode,
    A64.Instr.ret.encode]
  entry := 8
  constants := ⟨[104, 105, 0], #[0], []⟩
  references := #[⟨0, .constant (.string 0)⟩]

theorem greeting_parsed : ∃ file, MachO.file greeting = .ok file ∧ file.length < 2 ^ 32 ∧
    Consistent file ∧ (contentsOf file).map (·.1) =
      [name16 "__text", name16 "__cstring", name16 "__got"] ∧
    entryOf? file = some 0x4008 := by
  obtain ⟨file, hfile⟩ : ∃ file, MachO.file greeting = .ok file := by
    obtain ⟨code, hcode⟩ : ∃ code, resolveReferences (.ofImage greeting) greeting
        greeting.references.toList greeting.code = .ok code :=
      exists_ok_of_isOk (by decide +kernel)
    exact exists_file hcode
  obtain ⟨code, hlaid⟩ := file_laid hfile
  have hsize : file.length < 2 ^ 32 := by
    rw [hlaid.length]
    decide +kernel
  obtain ⟨hconsistent, ⟨code', -, hcontents⟩, -, -⟩ :=
    file_parsed greeting file hfile hsize
  refine ⟨file, hfile, hsize, hconsistent, ?_, ?_⟩
  · rw [hcontents]
    rfl
  · exact (hlaid.read hsize).2.2.2

end Armature.MachO
