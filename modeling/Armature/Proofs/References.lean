import Armature.Proofs.Addresses

/-!
# References in finished files

When a file is loaded, its code forms the addresses of the constants that it was written with, and
of the pointers to imports.
-/

namespace Armature

open A64 (Instr offsetBits pageBits)
open Asm (Code Datum Image Line Listing Pool Reference Target)

namespace Bytes

variable {file contents bytes : Bytes} {pos o : Nat}

theorem At.trans (h : file.At pos contents) (ho : o ≤ contents.length)
    (hbytes : contents.At o bytes) : file.At (pos + o) bytes := by
  obtain ⟨rest, hrest⟩ := h
  unfold At
  rw [← List.drop_drop, ← hrest, List.drop_append_of_le_length ho]
  exact List.IsPrefix.trans hbytes (List.prefix_append _ _)

theorem At.length_le (h : contents.At o bytes) (ho : o ≤ contents.length) :
    o + bytes.length ≤ contents.length := by
  have hle := List.IsPrefix.length_le h
  rw [List.length_drop] at hle
  omega

end Bytes

theorem Buffer.at_ofWords {ws : List Word} {k : Nat} {w : Word} (h : ws[k]? = some w) :
    Bytes.At (ofWords ws).toList (4 * k) w.bytes := by
  obtain ⟨xs, w', ys, rfl, rfl⟩ := exists_split ws k (List.getElem?_eq_some_iff.mp h).1
  obtain rfl : w' = w := by simpa using h
  refine ⟨ys.flatMap Word.bytes, ?_⟩
  have hlist : (ofWords (xs ++ w' :: ys)).toList =
      xs.flatMap Word.bytes ++ (w'.bytes ++ ys.flatMap Word.bytes) := by
    simp [ofWords]
  rw [hlist, List.drop_left' (length_flatMap_bytes xs)]

namespace MachO

/-! ## What is in memory -/

/-- The length of the file of an image. -/
def fileSize (image : Image) : Nat :=
  (Placement.ofImage image).linkerData +
    ((chainedFixups (Placement.ofImage image).pointers).length + exports.length)

/-- When the file is loaded, these bytes are at the address `a`, in the section of that name. -/
def Mapped (file : Bytes) (name : String) (a : Nat) (bytes : Bytes) : Prop :=
  ∃ c ∈ sectionsOf file, c.name = name16 name ∧ c.addr ≤ a ∧
    a + bytes.length ≤ c.addr + c.size ∧ file.At (c.offset + (a - c.addr)) bytes

/-- When the file is loaded, the datum is at the address `a`. The pointer to an import has the
number of the import in its low 24 bits, and its high bit is set. -/
def Stored (file : Bytes) (a : Nat) : Datum → Prop
  | .string bytes => Mapped file "__cstring" a (bytes ++ [0])
  | .double bits => a % 8 = 0 ∧ Mapped file "__const" a (Bytes.le64 bits.toNat)
  | .pointer f => ∃ c ∈ sectionsOf file, c.name = name16 "__got" ∧ a = c.addr + 8 * f.index ∧
    ∃ entry, Mapped file "__got" a (Bytes.le64 entry) ∧ entry % 2 ^ 24 = f.index ∧
      2 ^ 63 ≤ entry ∧ entry < 2 ^ 64

theorem importPointers_at (f : Asm.Import) : ∃ entry, importPointers.At (8 * f.index)
    (Bytes.le64 entry) ∧ entry % 2 ^ 24 = f.index ∧ 2 ^ 63 ≤ entry ∧ entry < 2 ^ 64 := by
  cases f with
  | printf =>
    refine ⟨2 <<< 51 + 1 <<< 63, ?_, by decide, by decide, by decide⟩
    exact List.prefix_append _ _
  | exit =>
    refine ⟨1 + 1 <<< 63, ?_, by decide, by decide, by decide⟩
    exact List.prefix_rfl

/-! ## Addresses of data -/

/-- The place of a datum, when the parts of an image are placed. -/
def Placement.Has (p : Placement) (image : Image) (a : Nat) : Datum → Prop
  | .string bytes => ∃ o ≤ p.stringsSize, a = imageBase + p.strings + o ∧
    image.constants.strings.At o (bytes ++ [0])
  | .double bits => ∃ o ≤ p.doublesSize, o % 8 = 0 ∧ a = imageBase + p.doubles + o ∧
    image.constants.doubles.At o (Bytes.le64 bits.toNat)
  | .pointer f => a = imageBase + p.pointers + 8 * f.index

theorem Placement.stringAddress_of_le {p : Placement} {o : Nat} (h : o ≤ p.stringsSize) :
    p.stringAddress o = imageBase + p.strings + o := if_pos h

section

variable {image : Image} {pool : Pool} {target : Target} {d : Datum} {a : Nat}

theorem exists_address (hpool : image.constants = pool.freeze) (h : pool.Holds target d) :
    ∃ a, (Placement.ofImage image).address image target = .ok a ∧
      (Placement.ofImage image).Has image a d := by
  unfold Pool.Holds at h
  split at h
  · rename_i n bytes
    obtain ⟨o, rest, ho, hdrop⟩ := pool.freeze_string n bytes h
    rw [← hpool] at ho hdrop
    have hlt : o < image.constants.strings.length := by
      have := congrArg List.length hdrop
      simp only [List.length_drop, List.length_append, List.length_cons] at this
      omega
    have hle : o ≤ (Placement.ofImage image).stringsSize := Nat.le_of_lt hlt
    refine ⟨_, by simp only [Placement.address, ho], o, hle, Placement.stringAddress_of_le hle,
      rest, ?_⟩
    rw [hdrop, List.append_assoc, List.singleton_append]
  · rename_i n bits
    obtain ⟨ho, hle, htake⟩ := pool.freeze_double n bits h
    rw [← hpool] at ho hle htake
    refine ⟨_, by simp only [Placement.address, ho], 8 * n, ?_, by omega, rfl, ?_⟩
    · show 8 * n ≤ image.constants.doubles.length
      omega
    · rw [← htake]
      exact List.take_prefix _ _
  · subst h
    exact ⟨_, rfl, rfl⟩
  · exact h.elim

theorem Placement.Has.aligned {p : Placement} (h : p.Has image a d) : d.Aligned a := by
  have hbase : imageBase % 8 = 0 := by decide
  have hdoubles : p.doubles % 8 = 0 := alignUp_mod _ _
  have hpointers : p.pointers % pageSize = 0 := alignUp_mod _ _
  unfold pageSize at hpointers
  cases d with
  | string => trivial
  | double =>
    obtain ⟨o, -, ho, rfl, -⟩ := h
    show _ % 8 = 0
    omega
  | pointer f =>
    cases h
    show _ % 8 = 0
    omega

theorem Placement.Has.bounds {p : Placement} (h : p.Has image a d) :
    imageBase ≤ a ∧ a < imageBase + p.linkerData := by
  obtain ⟨hstrings, hdoubles, hpointers⟩ := p.bounds
  have hlinker : p.linkerData = p.pointers + pageSize := rfl
  unfold pageSize at hlinker
  cases d with
  | string =>
    obtain ⟨o, ho, rfl, -⟩ := h
    omega
  | double =>
    obtain ⟨o, ho, -, rfl, -⟩ := h
    omega
  | pointer f =>
    cases h
    have hindex : f.index ≤ 1 := by cases f <;> decide
    omega

variable {code : Buffer} {file : Bytes}

/-- The record of a section that starts at `offset` in the file. -/
def partRecord (segment name : String) (offset size : Nat) : SectionRecord :=
  ⟨name16 name, name16 segment, imageBase + offset, size, offset⟩

theorem Laid.mem_sections {p : Placement} (h : Laid image p code file)
    (hsize : file.length < 2 ^ 32) :
    partRecord "__TEXT" "__text" Placement.code p.codeSize ∈ sectionsOf file ∧
      (p.stringsSize ≠ 0 →
        partRecord "__TEXT" "__cstring" p.strings p.stringsSize ∈ sectionsOf file) ∧
      (p.doublesSize ≠ 0 →
        partRecord "__TEXT" "__const" p.doubles p.doublesSize ∈ sectionsOf file) ∧
      partRecord "__DATA_CONST" "__got" p.pointers importPointers.length ∈ sectionsOf file := by
  have htext (s : Section) (hs : s ∈ textSections p) : s.record ∈ sectionsOf file := by
    rw [h.sections hsize]
    exact List.mem_append_left _ (List.mem_map_of_mem hs)
  refine ⟨htext _ List.mem_cons_self, ?_, ?_, ?_⟩
  · intro hstrings
    refine htext ⟨"__TEXT", "__cstring", imageBase + p.strings, p.stringsSize, p.strings, 0, 2⟩ ?_
    simp [textSections, hstrings]
  · intro hdoubles
    refine htext ⟨"__TEXT", "__const", imageBase + p.doubles, p.doublesSize, p.doubles, 3, 0⟩ ?_
    simp [textSections, hdoubles]
  · rw [h.sections hsize]
    exact List.mem_append_right _ List.mem_cons_self

theorem Laid.nodup_names {p : Placement} (h : Laid image p code file)
    (hsize : file.length < 2 ^ 32) : ((sectionsOf file).map (·.name)).Nodup := by
  have hall : ["__text", "__cstring", "__const", "__got"].map name16 |>.Nodup := by decide +kernel
  refine List.Nodup.sublist ?_ hall
  rw [h.sections hsize]
  unfold textSections
  split <;> split <;> simp [Section.record, pointersRecord]

theorem mapped_part {segment name : String} {offset o : Nat} {contents bytes : Bytes}
    (hc : partRecord segment name offset contents.length ∈ sectionsOf file)
    (hcontents : file.At offset contents) (ho : o ≤ contents.length)
    (hbytes : contents.At o bytes) : Mapped file name (imageBase + offset + o) bytes := by
  have hle := hbytes.length_le ho
  refine ⟨_, hc, rfl, Nat.le_add_right _ _, ?_, ?_⟩
  · simp only [partRecord]
    omega
  · simp only [partRecord, Nat.add_sub_cancel_left]
    exact hcontents.trans ho hbytes

theorem Laid.stored (h : Laid image (.ofImage image) code file) (hsize : file.length < 2 ^ 32)
    (ha : (Placement.ofImage image).Has image a d) : Stored file a d := by
  obtain ⟨-, hstrings, hdoubles, hpointers⟩ := h.mem_sections hsize
  have haligned := ha.aligned
  cases d with
  | string bytes =>
    obtain ⟨o, ho, rfl, hbytes⟩ := ha
    have hle := hbytes.length_le ho
    rw [List.length_append, List.length_singleton] at hle
    refine mapped_part (hstrings ?_) h.strings ho hbytes
    show image.constants.strings.length ≠ 0
    omega
  | double bits =>
    obtain ⟨o, ho, -, rfl, hbytes⟩ := ha
    have hle := hbytes.length_le ho
    rw [Bytes.le64, Bytes.length_le] at hle
    refine ⟨haligned, mapped_part (hdoubles ?_) h.doubles ho hbytes⟩
    show image.constants.doubles.length ≠ 0
    omega
  | pointer f =>
    cases ha
    obtain ⟨entry, hbytes, hentry⟩ := importPointers_at f
    have ho : 8 * f.index ≤ importPointers.length := by cases f <;> decide
    exact ⟨_, hpointers, rfl, rfl, entry, mapped_part hpointers h.pointers ho hbytes, hentry⟩

end

/-! ## Code with its addresses -/

/-- The address that the code at word `q` has to form. -/
def destination (p : Placement) (image : Image) (q : Nat) : Nat :=
  match image.references.toList.find? (·.site = 4 * q) with
  | some r => (p.address image r.target).toOption.getD 0
  | none => 0

section

variable {image : Image} {place : Asm.Label → Nat} {c : Code}

theorem destination_eq (h : image.Built place c) {p : Placement} {r : Reference} {q a : Nat}
    (hr : r ∈ image.references.toList) (hsite : r.site = 4 * q)
    (ha : p.address image r.target = .ok a) : destination p image q = a := by
  have hfind := h.find?_reference hr
  rw [hsite] at hfind
  rw [destination, hfind]
  simp only [ha]
  rfl

theorem holds_of_site (h : image.Built place c) {r : Reference} {q : Nat} {l : Line} {d : Datum}
    (hr : r ∈ image.references.toList) (hsite : r.site = 4 * q) (hmem : (q, l) ∈ Code.located 0 c)
    (hd : l.datum? = some d) : c.pool.Holds r.target d := by
  obtain ⟨r', hr', hsite', hholds⟩ := h.referred q l d hmem hd
  have hfind := h.find?_reference hr
  have hfind' := h.find?_reference (r := r') (by simpa using hr')
  rw [hsite] at hfind
  rw [hsite', hfind] at hfind'
  cases hfind'
  exact hholds

theorem addressed_of_built (h : image.Built place c) (hsize : fileSize image < 2 ^ 32) {q : Nat}
    {l : Line} {d : Datum} (hmem : (q, l) ∈ Code.located 0 c) (hd : l.datum? = some d)
    {r : Reference} (hr : r ∈ image.references.toList) (hsite : r.site = 4 * q) :
    Addressed (.ofImage image) image c.pool r d (destination (.ofImage image) image q) ∧
      (Placement.ofImage image).Has image (destination (.ofImage image) image q) d := by
  have hholds := holds_of_site h hr hsite hmem hd
  obtain ⟨a, ha, hhas⟩ := exists_address h.constants hholds
  rw [destination_eq h hr hsite ha]
  refine ⟨⟨hholds, ha, ?_, hhas.aligned⟩, hhas⟩
  have hcode := h.size_code
  have hq := (Code.mem_located 0 c q l hmem).2
  have hpos := l.size_of_datum d hd
  obtain ⟨hlow, hhigh⟩ := hhas.bounds
  obtain ⟨hstrings, hdoubles, hpointers⟩ := (Placement.ofImage image).bounds
  have hstart : (Placement.ofImage image).strings = Placement.code + image.code.size := rfl
  have hlinker : (Placement.ofImage image).linkerData =
    (Placement.ofImage image).pointers + pageSize := rfl
  have hbase : imageBase = 2 ^ 32 := rfl
  -- code and data lie in the same 4 GiB, so their pages are less than 2 ^ 20 apart
  unfold fileSize at hsize
  unfold A64.Near
  omega

/-- The code of an image with all its addresses. -/
def linkedCode (image : Image) (place : Asm.Label → Nat) (c : Code) : Buffer :=
  .ofWords ((c.linked place (imageBase + Placement.code)
    (destination (.ofImage image) image) 0).map Instr.encode)

theorem resolveReferences_built (h : image.Built place c) (hsize : fileSize image < 2 ^ 32) :
    resolveReferences (.ofImage image) image image.references.toList image.code =
      .ok (linkedCode image place c) := by
  rw [h.code]
  exact resolveReferences_code [] c _ h.sites fun q l d hmem hd r hr hsite =>
    (addressed_of_built h hsize hmem hd hr hsite).1

/-! ## Finished files -/

/-- The words at the address `pc` form the address of a datum, and the datum is there. -/
def FormedAt (file : Bytes) (pc : Nat) (d : Datum) : Prop :=
  ∃ (w₁ w₂ : Word) (i₁ i₂ : Instr) (a : Nat), Mapped file "__text" pc w₁.bytes ∧
    Mapped file "__text" (pc + 4) w₂.bytes ∧ A64.decode w₁ = some i₁ ∧ A64.decode w₂ = some i₂ ∧
    Asm.Forms pc a d i₁ i₂ ∧ Stored file a d

/-- The word `w` at `site` is still there in `w'`, but for the operands that form an address. -/
def Kept (sites : List Nat) (site : Nat) (w w' : Word) : Prop :=
  w' = w ∨ site ∈ sites ∧ w' &&& ~~~pageBits = w &&& ~~~pageBits ∨
    ∃ s ∈ sites, site = s + 4 ∧ w' &&& ~~~offsetBits = w &&& ~~~offsetBits

/-- The code of the file is that of the image, with the addresses that its lines ask for. -/
structure LinkedFile (image : Image) (l : Listing) (file : Bytes) (text : SectionRecord) :
    Prop where
  names : ((sectionsOf file).map (·.name)).Nodup
  found : text ∈ sectionsOf file ∧ text.name = name16 "__text" ∧ text.size = image.code.size
  /-- There are references where there is an `adrp`, and nowhere else. -/
  sites : ∀ site, site ∈ image.references.toList.map (·.site) ↔ site % 4 = 0 ∧
    ∃ w rd pages, image.code.word? site = some w ∧ A64.decode w = some (.adrp rd pages)
  constants : image.constants = l.code.pool.freeze
  formed : ∀ r ∈ image.references, ∃ q line d, (q, line) ∈ Code.located 0 l.code ∧
    r.site = 4 * q ∧ line.datum? = some d ∧ l.code.pool.Holds r.target d ∧
    FormedAt file (text.addr + r.site) d
  words : image.code.size % 4 = 0
  kept : ∀ site w, site % 4 = 0 → image.code.word? site = some w →
    ∃ w', Mapped file "__text" (text.addr + site) w'.bytes ∧
      Kept (image.references.toList.map (·.site)) site w w'

theorem Laid.mapped_line {file : Bytes}
    (h : Laid image (.ofImage image) (linkedCode image place c) file) (hsize : file.length < 2 ^ 32)
    {q n : Nat} {l : Line} {i : Instr} (hmem : (q, l) ∈ Code.located 0 c)
    (hi : (l.linked place (imageBase + Placement.code)
      (destination (.ofImage image) image) q)[n]? = some i) :
    Mapped file "__text" (imageBase + Placement.code + 4 * (q + n)) i.encode.bytes := by
  have hn : n < l.size := by
    rw [← Line.length_linked]
    exact (List.getElem?_eq_some_iff.mp hi).1
  have hinstr := Code.getElem?_located (fun q l => l.linked place (imageBase + Placement.code)
    (destination (.ofImage image) image) q) (fun _ _ => Line.length_linked) 0 c q l n hmem hn
  rw [hi, Nat.sub_zero] at hinstr
  have hword : ((c.linked place (imageBase + Placement.code)
      (destination (.ofImage image) image) 0).map Instr.encode)[q + n]? = some i.encode := by
    rw [List.getElem?_map, Code.linked, hinstr]
    rfl
  have hlt := (List.getElem?_eq_some_iff.mp hword).1
  have htext : partRecord "__TEXT" "__text" Placement.code
      (linkedCode image place c).toList.length ∈ sectionsOf file := by
    rw [Array.length_toList, h.size]
    exact (h.mem_sections hsize).1
  refine mapped_part htext h.code ?_ (Buffer.at_ofWords hword)
  rw [Array.length_toList, linkedCode, Buffer.size_ofWords]
  omega

theorem exists_word (h : image.Built place c) {k : Nat} {w : Word}
    (hw : image.code.word? (4 * k) = some w) :
    ∃ i q l n, (q, l) ∈ Code.located 0 c ∧ (l.resolved place q)[n]? = some i ∧ k = q + n ∧
      w = i.encode := by
  rw [h.code, Buffer.word?_ofWords, List.getElem?_map, Option.map_eq_some_iff] at hw
  obtain ⟨i, hi, rfl⟩ := hw
  obtain ⟨q, l, n, hmem, hn, hk⟩ := Code.getElem?_instrs place 0 c k i hi
  exact ⟨i, q, l, n, hmem, hn, by omega, rfl⟩

theorem mem_sites (h : image.Built place c) (site : Nat) :
    site ∈ image.references.toList.map (·.site) ↔
      ∃ q l d, (q, l) ∈ Code.located 0 c ∧ l.datum? = some d ∧ site = 4 * q := by
  rw [h.sites, Code.sites, List.mem_filterMap]
  constructor
  · rintro ⟨⟨q, l⟩, hmem, hsome⟩
    obtain ⟨d, hd, rfl⟩ := Option.map_eq_some_iff.mp hsome
    exact ⟨q, l, d, hmem, hd, rfl⟩
  · rintro ⟨q, l, d, hmem, hd, rfl⟩
    exact ⟨(q, l), hmem, by simp [hd]⟩

theorem mem_sites_iff_adrp (h : image.Built place c)
    (hexplicit : ∀ q l, (q, l) ∈ Code.located 0 c → l.explicit = true) (site : Nat) :
    site ∈ image.references.toList.map (·.site) ↔ site % 4 = 0 ∧
      ∃ w rd pages, image.code.word? site = some w ∧ A64.decode w = some (.adrp rd pages) := by
  rw [mem_sites h]
  constructor
  · rintro ⟨q, l, d, hmem, hd, rfl⟩
    have hpos : 0 < (l.resolved place q).length := by
      rw [Line.length_resolved]
      exact l.size_of_datum d hd
    have hi := List.getElem?_eq_getElem hpos
    have hadrp := (Line.isAdrp_resolved (hexplicit q l hmem) hi).mpr ⟨rfl, by simp [hd]⟩
    obtain ⟨rd, pages, hdecode⟩ := A64.exists_decode_adrp hadrp
    refine ⟨by omega, _, rd, pages, ?_, hdecode⟩
    have hword := Code.getElem?_instrs_of_mem place 0 c q l 0 _ hmem hi
    rw [Nat.sub_zero, Nat.add_zero] at hword
    rw [h.code, Buffer.word?_ofWords, List.getElem?_map, hword]
    rfl
  · rintro ⟨hsite, w, rd, pages, hword, hdecode⟩
    obtain ⟨k, rfl⟩ := Nat.dvd_of_mod_eq_zero hsite
    obtain ⟨i, q, l, n, hmem, hi, rfl, rfl⟩ := exists_word h hword
    obtain ⟨rfl, hsome⟩ := (Line.isAdrp_resolved (hexplicit q l hmem) hi).mp
      (A64.isAdrp_of_decode hdecode)
    obtain ⟨d, hd⟩ := Option.isSome_iff_exists.mp hsome
    exact ⟨q, l, d, hmem, hd, rfl⟩

theorem Laid.formed {file : Bytes}
    (h : Laid image (.ofImage image) (linkedCode image place c) file) (hbuilt : image.Built place c)
    (hsize : file.length < 2 ^ 32) {r : Reference} (hr : r ∈ image.references.toList) :
    ∃ q l d, (q, l) ∈ Code.located 0 c ∧ r.site = 4 * q ∧ l.datum? = some d ∧
      c.pool.Holds r.target d ∧ FormedAt file (imageBase + Placement.code + r.site) d := by
  obtain ⟨q, l, d, hmem, hd, hsite⟩ := (mem_sites hbuilt _).mp (List.mem_map_of_mem hr)
  have hlength : file.length = fileSize image := h.length
  obtain ⟨haddressed, hhas⟩ := addressed_of_built hbuilt (hlength ▸ hsize) hmem hd hr hsite
  have hnear := haddressed.near
  rw [hsite] at hnear ⊢
  obtain ⟨i₁, i₂, hi₁, hi₂, hdecode₁, hdecode₂, hforms⟩ :=
    Line.linked_forms place hd hnear haddressed.aligned
  exact ⟨q, l, d, hmem, rfl, hd, haddressed.holds, _, _, i₁, i₂, _, h.mapped_line hsize hmem hi₁,
    h.mapped_line hsize hmem hi₂, hdecode₁, hdecode₂, hforms, h.stored hsize hhas⟩

theorem Laid.kept {file : Bytes}
    (h : Laid image (.ofImage image) (linkedCode image place c) file) (hbuilt : image.Built place c)
    (hsize : file.length < 2 ^ 32) {k : Nat} {w : Word} (hw : image.code.word? (4 * k) = some w) :
    ∃ w', Mapped file "__text" (imageBase + Placement.code + 4 * k) w'.bytes ∧
      Kept (image.references.toList.map (·.site)) (4 * k) w w' := by
  obtain ⟨i, q, l, n, hmem, hi, rfl, rfl⟩ := exists_word hbuilt hw
  obtain ⟨i', hi', hbits⟩ := Line.linked_bits (imageBase + Placement.code)
    (destination (.ofImage image) image) hi
  have hsites (hsome : l.datum?.isSome) : 4 * q ∈ image.references.toList.map (·.site) := by
    obtain ⟨d, hd⟩ := Option.isSome_iff_exists.mp hsome
    exact (mem_sites hbuilt _).mpr ⟨q, l, d, hmem, hd, rfl⟩
  refine ⟨i'.encode, h.mapped_line hsize hmem hi', ?_⟩
  rcases hbits with rfl | ⟨hsome, rfl, hbits⟩ | ⟨hsome, rfl, hbits⟩
  · exact .inl rfl
  · exact .inr (.inl ⟨hsites hsome, hbits⟩)
  · exact .inr (.inr ⟨4 * q, hsites hsome, Nat.mul_add 4 q 1, hbits⟩)

theorem exists_linkedFile {l : Listing} (h : image.Built place l.code)
    (hexplicit : ∀ q line, (q, line) ∈ Code.located 0 l.code → line.explicit = true)
    (hsize : fileSize image < 2 ^ 32) :
    ∃ file text, MachO.file image = .ok file ∧ file.length = fileSize image ∧
      LinkedFile image l file text := by
  have hresolved := resolveReferences_built h hsize
  obtain ⟨file, hfile⟩ : ∃ file, MachO.file image = .ok file :=
    exists_file hresolved
  obtain ⟨code, hlaid⟩ := file_laid hfile
  obtain rfl : linkedCode image place l.code = code :=
    Except.ok.inj (hresolved.symm.trans hlaid.resolved)
  have hlength : file.length = fileSize image := hlaid.length
  have hsmall : file.length < 2 ^ 32 := by omega
  refine ⟨file, partRecord "__TEXT" "__text" Placement.code image.code.size, hfile, hlength,
    hlaid.nodup_names hsmall, ⟨(hlaid.mem_sections hsmall).1, rfl, rfl⟩,
    mem_sites_iff_adrp h hexplicit, h.constants, ?_, ?_, ?_⟩
  · intro r hr
    exact hlaid.formed h hsmall (by simpa using hr)
  · rw [h.size_code]
    exact Nat.mul_mod_right _ _
  · intro site w hsite hw
    obtain ⟨k, rfl⟩ := Nat.dvd_of_mod_eq_zero hsite
    exact hlaid.kept h hsmall hw

end

end MachO

/-- A program whose file is smaller than 4 GiB is compiled, and the code of the file forms the
addresses of what its lines were written with. -/
theorem Program.compile_linked (p : Program) (image : Image) (h : p.image = .ok image)
    (hsize : MachO.fileSize image < 2 ^ 32) :
    ∃ file l text, p.compile = .ok file ∧ file.length = MachO.fileSize image ∧ p.lower = .ok l ∧
      MachO.LinkedFile image l file text := by
  obtain ⟨l, d, codes, place, hlower, hbodies, hbuilt⟩ := Lower.image_built p image h
  obtain ⟨file, text, hfile, hlength, hlinked⟩ :=
    MachO.exists_linkedFile hbuilt (fun _ _ => hbodies.explicit) hsize
  refine ⟨file, l, text, ?_, hlength, hlower, hlinked⟩
  simp [compile, h, hfile, Except.mapError, bind, Except.bind]

/-- Prints a text and a double. -/
def ratio : Program where
  statements := [.print (.str "ratio"), .print (.float ⟨0x3FF8000000000000⟩)]

/-- The targets of the references in its code. -/
def ratioTargets : List Target :=
  [.constant (.string 0), .constant (.string 1), .imported .printf, .constant (.double 0),
    .constant (.string 2), .imported .printf, .imported .exit]

theorem ratio_linked : ∃ image file l text, ratio.image = .ok image ∧
    image.references.toList.map (·.target) = ratioTargets ∧ MachO.fileSize image < 2 ^ 32 ∧
    ratio.compile = .ok file ∧ ratio.lower = .ok l ∧ MachO.LinkedFile image l file text := by
  obtain ⟨image, himage, htargets, hsize⟩ : ∃ image, ratio.image = .ok image ∧
      image.references.toList.map (·.target) = ratioTargets ∧ MachO.fileSize image < 2 ^ 32 :=
    exists_ok (by decide +kernel)
  obtain ⟨file, l, text, hcompile, -, hlower, hlinked⟩ := ratio.compile_linked image himage hsize
  exact ⟨image, file, l, text, himage, htargets, hsize, hcompile, hlower, hlinked⟩

end Armature
