import Armature.Cli.Run
import Armature.Proofs.Installing

/-!
# What a build does to its input

Without an output path, a build writes beside its input, under the name that is left when the
extension is cut off. An input with an extension is safe from it, whatever fails. One without is
replaced.
-/

namespace Armature

/-! ## What steps change -/

/-- The paths that a step names. -/
def FileStep.paths : FileStep → List String
  | create path | write path _ | sync path | setMode path _ | remove path => [path]
  | rename source target => [source, target]

namespace Disk

variable {d d' : Disk} {fault : FileStep → Option Fault}

/-- Only files that the paths lead to have changed. -/
structure ChangesOnly (paths : List String) (d d' : Disk) : Prop where
  directories : SameDirectories d d'
  elsewhere : ∀ place, (∀ path ∈ paths, d.filePlace path ≠ .ok place) →
    d'.entry? place = d.entry? place

namespace ChangesOnly

variable {paths : List String}

theorem refl (paths : List String) (d : Disk) : ChangesOnly paths d d :=
  ⟨.refl d, fun _ _ => rfl⟩

theorem put {path : String} (hpath : path ∈ paths) {place : Place}
    (hplace : d.filePlace path = .ok place) (bytes : Bytes) (mode : Nat) :
    ChangesOnly paths d (d.put place (.file bytes mode)) := by
  have hentry := (filePlace_eq_ok.mp hplace).2
  refine ⟨.put hentry bytes mode, fun other hother => ?_⟩
  rw [d.entry?_put (d.isFixed_eq_false hentry), if_neg]
  rintro rfl
  exact hother path hpath hplace

theorem erase {path : String} (hpath : path ∈ paths) {place : Place}
    (hplace : d.filePlace path = .ok place) : ChangesOnly paths d (d.erase place) := by
  have hentry := (filePlace_eq_ok.mp hplace).2
  refine ⟨.erase hentry, fun other hother => ?_⟩
  rw [d.entry?_erase (d.isFixed_eq_false hentry), if_neg]
  rintro rfl
  exact hother path hpath hplace

theorem trans {d'' : Disk} (h : ChangesOnly paths d d') (h' : ChangesOnly paths d' d'') :
    ChangesOnly paths d d'' := by
  constructor
  · intro place
    rw [h'.directories place, h.directories place]
  · intro place hplace
    rw [h'.elsewhere place fun path hpath => ?_, h.elsewhere place hplace]
    rw [ne_eq, h.directories.filePlace]
    exact hplace path hpath

theorem mono {paths' : List String} (h : ChangesOnly paths d d') (hsub : paths ⊆ paths') :
    ChangesOnly paths' d d' :=
  ⟨h.directories, fun place hplace => h.elsewhere place fun path hpath => hplace path (hsub hpath)⟩

end ChangesOnly

theorem changes_of_written {paths : List String} {path : String} (hpath : path ∈ paths)
    (h : Written path d d') : ChangesOnly paths d d' := by
  cases h with
  | untouched => exact .refl _ _
  | written hplace => exact .put hpath hplace _ _

theorem trial_changes (fault : FileStep → Option Fault) (s : FileStep) (d : Disk) :
    ChangesOnly s.paths d (trial fault s d).2 := by
  cases hs : s.exposed? with
  | some path =>
    have hpath : path ∈ s.paths := by
      cases s <;> cases hs <;> exact List.mem_cons_self
    exact changes_of_written hpath (written_trial fault hs d)
  | none =>
    cases htrial : trial fault s d with
    | mk result d' =>
      cases result with
      | error e =>
        rw [eq_of_trial_eq_error hs htrial]
        exact .refl _ _
      | ok u =>
        have hperform := (trial_eq_ok.mp htrial).2
        cases s with
        | create | write | sync | setMode => cases hs
        | rename source target =>
          obtain ⟨place, bytes, mode, hfile, place', htarget, rfl⟩ := perform_rename.mp hperform
          have herase : ChangesOnly [source, target] d (d.erase place) :=
            .erase List.mem_cons_self (filePlace_of_file hfile)
          have hplace : (d.erase place).filePlace target = .ok place' := by
            rw [herase.directories.filePlace]
            exact (target_eq_ok.mp htarget).2
          exact herase.trans (.put (List.mem_cons_of_mem _ List.mem_cons_self) hplace _ _)
        | remove path =>
          obtain ⟨place, bytes, mode, hfile, rfl⟩ := perform_remove.mp hperform
          exact .erase List.mem_cons_self (filePlace_of_file hfile)

theorem ChangesOnly.file {paths : List String} (h : ChangesOnly paths d d') {file : String}
    {place : Place} {bytes : Bytes} {mode : Nat} (hfile : d.file file = .ok (place, bytes, mode))
    (hpaths : ∀ path ∈ paths, Path.lastSegment path ≠ Path.lastSegment file) :
    d'.file file = .ok (place, bytes, mode) := by
  obtain ⟨hplace, hentry⟩ := file_eq_ok.mp hfile
  obtain ⟨-, above, rfl⟩ := filePlace_eq_cons (filePlace_of_file hfile)
  rw [file_eq_ok, h.directories.place, h.elsewhere]
  · exact ⟨hplace, hentry⟩
  · intro path hpath hother
    obtain ⟨-, above', heq⟩ := filePlace_eq_cons hother
    exact hpaths path hpath (List.cons.inj heq).1.symm

theorem trials_changes (fault : FileStep → Option Fault) {paths : List String}
    {steps : List FileStep} (hsteps : ∀ s ∈ steps, s.paths ⊆ paths) (d : Disk) :
    ChangesOnly paths d (trials fault steps d).2 := by
  induction steps generalizing d with
  | nil => exact .refl _ _
  | cons s rest ih =>
    have hfirst := (trial_changes fault s d).mono (hsteps s List.mem_cons_self)
    rw [trials]
    cases htrial : trial fault s d with
    | mk result d' =>
      rw [htrial] at hfirst
      cases result with
      | ok u => exact hfirst.trans (ih (fun s hs => hsteps s (List.mem_cons_of_mem _ hs)) d')
      | error e => exact hfirst

end Disk

theorem paths_subset_of_mem_installSteps (temporary output : String) (bytes : Bytes) :
    ∀ s ∈ installSteps temporary output bytes, s.paths ⊆ [temporary, output] := by
  simp [installSteps, FileStep.paths]

namespace Program

variable {fault : FileStep → Option Fault} {number : Nat} {p : Program} {output : String} {d : Disk}

theorem build_changes_of_error {e : BuildError}
    (h : (p.build (Disk.unreliable fault) number output d).1 = .error e) :
    d.ChangesOnly [temporaryPath output number]
      (p.build (Disk.unreliable fault) number output d).2 := by
  cases hcompile : p.compile with
  | error e =>
    rw [build_of_compile_eq_error hcompile]
    exact .refl _ _
  | ok bytes =>
    rw [build_of_compile_eq_ok hcompile] at h ⊢
    cases htrials :
      Disk.trials fault (installSteps (temporaryPath output number) output bytes) d with
    | mk result d' =>
      rw [htrials] at h
      cases result with
      | ok u => cases h
      | error e =>
        have hwritten := Disk.written_of_trials_eq_error htrials
        exact (Disk.changes_of_written List.mem_cons_self hwritten).trans
          (Disk.trial_changes fault (.remove _) d')

theorem build_changes (fault : FileStep → Option Fault) (number : Nat) (p : Program)
    (output : String) (d : Disk) :
    d.ChangesOnly [temporaryPath output number, output]
      (p.build (Disk.unreliable fault) number output d).2 := by
  cases hbuild : (p.build (Disk.unreliable fault) number output d).1 with
  | error e => exact (build_changes_of_error hbuild).mono (by simp)
  | ok u =>
    obtain ⟨bytes, hcompile, -⟩ := build_eq_ok.mp ⟨hbuild, rfl⟩
    rw [build_of_compile_eq_ok hcompile] at hbuild ⊢
    have hchanges := Disk.trials_changes fault
      (paths_subset_of_mem_installSteps (temporaryPath output number) output bytes) d
    cases htrials :
      Disk.trials fault (installSteps (temporaryPath output number) output bytes) d with
    | mk result d' =>
      rw [htrials] at hbuild hchanges
      cases result with
      | ok u => exact hchanges
      | error e => cases hbuild

end Program

/-! ## Names of outputs -/

namespace Path

theorem slash_not_mem_fileName {path name : String} (h : fileName? path = some name) :
    '/' ∉ name.toList := by
  unfold fileName? at h
  split at h
  · cases h
  · rename_i s rest htrimmed
    split at h
    · cases h
      have hs : s ∈ segments path.toList := by
        rw [← List.mem_reverse]
        exact (trimmed_spec _).1 s (by rw [htrimmed]; exact List.mem_cons_self)
      rw [String.toList_ofList]
      exact slash_not_mem hs
    · cases h

theorem slash_not_mem_lastSegment (path : String) : '/' ∉ lastSegment path := by
  obtain ⟨above, habove⟩ := exists_segments path
  have hmem : lastSegment path ∈ segments path.toList := by simp [habove]
  exact slash_not_mem hmem

theorem eq_of_append_dot_eq {before before' extension extension' : List Char}
    (h : '.' ∉ extension) (h' : '.' ∉ extension')
    (heq : before ++ '.' :: extension = before' ++ '.' :: extension') : before = before' := by
  rcases List.append_eq_append_iff.mp heq with ⟨middle, rfl, hmiddle⟩ | ⟨middle, rfl, hmiddle⟩
  · cases middle with
    | nil => simp
    | cons c rest =>
      obtain ⟨-, rfl⟩ := List.cons.inj hmiddle
      simp at h
  · cases middle with
    | nil => simp
    | cons c rest =>
      obtain ⟨-, rfl⟩ := List.cons.inj hmiddle
      simp at h'

end Path

theorem lastSegment_temporaryPath (output : String) (number : Nat) :
    Path.lastSegment (temporaryPath output number) =
      '.' :: ((Path.fileName? output).getD defaultName).toList ++ '.' :: Nat.toDigits 10 number ++
        '.' :: ['t', 'm', 'p'] := by
  have hname : '/' ∉ ((Path.fileName? output).getD defaultName).toList := by
    cases h : Path.fileName? output with
    | none => decide
    | some name => exact Path.slash_not_mem_fileName h
  have hdigits : '/' ∉ Nat.toDigits 10 number := by
    intro h
    have := Nat.isDigit_of_mem_toDigits (by decide) (by decide) h
    exact absurd this (by decide)
  have htext : ("." ++ (Path.fileName? output).getD defaultName ++ "." ++ toString number ++
      ".tmp").toList = '.' :: ((Path.fileName? output).getD defaultName).toList ++
        '.' :: Nat.toDigits 10 number ++ '.' :: ['t', 'm', 'p'] := by
    simp [Nat.toList_repr]
  rw [temporaryPath, Path.lastSegment_withFileName, htext]
  rw [htext]
  simp [hname, hdigits]

theorem hasExtension_temporaryPath (output : String) (number : Nat) :
    Path.hasExtension (Path.lastSegment (temporaryPath output number)) = true := by
  simp [lastSegment_temporaryPath, Path.hasExtension]

namespace Cli

section Names

variable {file : String} (hname : Path.isName (Path.lastSegment file) = true)
include hname

theorem defaultOutput_eq :
    defaultOutput file =
      Path.withFileName file (Path.stem (String.ofList (Path.lastSegment file))) := by
  rw [defaultOutput, Path.fileName?_of_isName hname]

theorem lastSegment_defaultOutput (hext : Path.hasExtension (Path.lastSegment file) = true) :
    ∃ extension, '.' ∉ extension ∧
      Path.lastSegment file = Path.lastSegment (defaultOutput file) ++ '.' :: extension := by
  have hname' : Path.hasExtension (String.ofList (Path.lastSegment file)).toList = true := by
    rw [String.toList_ofList]
    exact hext
  obtain ⟨extension, hextension, hsplit⟩ := Path.stem_of_hasExtension hname'
  rw [String.toList_ofList] at hsplit
  have hslash : '/' ∉ (Path.stem (String.ofList (Path.lastSegment file))).toList := by
    intro h
    apply Path.slash_not_mem_lastSegment file
    rw [hsplit]
    exact List.mem_append_left _ h
  rw [defaultOutput_eq hname, Path.lastSegment_withFileName _ hslash]
  exact ⟨extension, hextension, hsplit⟩

theorem lastSegment_defaultOutput_ne (hext : Path.hasExtension (Path.lastSegment file) = true) :
    Path.lastSegment (defaultOutput file) ≠ Path.lastSegment file := by
  obtain ⟨extension, -, hsplit⟩ := lastSegment_defaultOutput hname hext
  intro heq
  have hlength := congrArg List.length hsplit
  rw [heq, List.length_append, List.length_cons] at hlength
  omega

theorem lastSegment_temporaryPath_ne (hext : Path.hasExtension (Path.lastSegment file) = true)
    (number : Nat) :
    Path.lastSegment (temporaryPath (defaultOutput file) number) ≠ Path.lastSegment file := by
  obtain ⟨extension, hextension, hsplit⟩ := lastSegment_defaultOutput hname hext
  rw [hsplit, lastSegment_temporaryPath]
  intro heq
  have hstem := Path.eq_of_append_dot_eq (by decide) hextension heq
  have hdigits : 0 < (Nat.toDigits 10 number).length :=
    List.length_pos_iff.mpr Nat.toDigits_ne_nil
  have hlength := congrArg List.length hstem
  simp only [List.length_append, List.length_cons] at hlength
  by_cases hstemName : Path.isName (Path.lastSegment (defaultOutput file)) = true
  · rw [Path.fileName?_of_isName hstemName, Option.getD_some, String.toList_ofList] at hlength
    omega
  · -- only dots are left of the name, which is too short
    have hshort : (Path.lastSegment (defaultOutput file)).length ≤ 2 := by
      by_contra hlong
      apply hstemName
      have hne : ∀ s : Path.Segment, s.length ≤ 2 → Path.lastSegment (defaultOutput file) ≠ s := by
        rintro s hs rfl
        exact hlong hs
      simp [Path.isName, hne [] (by decide), hne Path.dot (by decide), hne Path.dotDot (by decide)]
    omega

end Names

/-! ## Commands on a desk -/

/-- A tool that signs a file, or says why it cannot. It changes no other file. -/
structure Signer where
  sign : String → Disk → Except String Unit × Disk
  changes : ∀ (path : String) (d : Disk), d.ChangesOnly [path] (sign path d).2

namespace Signer

/-- The disk when an output was signed, or removed because it could not be. -/
def finish (signer : Signer) (fault : FileStep → Option Fault) (output : String) (d : Disk) : Disk :=
  match signer.sign output d with
  | (.ok (), d') => d'
  | (.error _, d') => (Disk.trial fault (.remove output) d').2

theorem finish_changes (signer : Signer) (fault : FileStep → Option Fault) (output : String)
    (d : Disk) : d.ChangesOnly [output] (signer.finish fault output d) := by
  have hsigned := signer.changes output d
  unfold finish
  cases hsign : signer.sign output d with
  | mk result d' =>
    rw [hsign] at hsigned
    cases result with
    | ok u => exact hsigned
    | error reason => exact hsigned.trans (Disk.trial_changes fault (.remove output) d')

def missing : Signer where
  sign _ d := (.error FileError.notFound.message, d)
  changes path d := .refl [path] d

end Signer

namespace Desk

/-- Something that is done on the disk of a desk. -/
def onDisk {α : Type} (act : StateM Disk α) : StateM Desk α := fun desk =>
  ((act desk.disk).1, { desk with disk := (act desk.disk).2 })

/-- A desk whose disk is unreliable, with a tool to sign. -/
def equipped (fault : FileStep → Option Fault) (signer : Signer) : Host (StateM Desk) where
  readText := host.readText
  perform s := onDisk (Disk.unreliable fault s)
  sign path := onDisk (signer.sign path)
  print := host.print
  report := host.report

section OnDisk

variable (perform : Performer (StateM Disk))

theorem attempt_onDisk (steps : List FileStep) :
    attempt (fun s => onDisk (perform s)) steps = onDisk (attempt perform steps) := by
  induction steps with
  | nil => rfl
  | cons s rest ih =>
    funext desk
    simp only [attempt, ih, bind, StateT.bind, onDisk]
    cases perform s desk.disk with
    | mk result d => cases result <;> rfl

theorem install_onDisk (temporary output : String) (bytes : Bytes) :
    install (fun s => onDisk (perform s)) temporary output bytes =
      onDisk (install perform temporary output bytes) := by
  funext desk
  simp only [install, attempt_onDisk, bind, StateT.bind, onDisk]
  cases attempt perform (installSteps temporary output bytes) desk.disk with
  | mk result d => cases result <;> rfl

theorem build_onDisk (p : Program) (number : Nat) (output : String) :
    p.build (fun s => onDisk (perform s)) number output =
      onDisk (p.build perform number output) := by
  funext desk
  unfold Program.build
  cases p.compile with
  | error e => rfl
  | ok bytes =>
    simp only [install_onDisk]
    rfl

end OnDisk

theorem host_eq : host = equipped (fun _ => none) .missing := by
  have hperform : perform = fun s => onDisk (Disk.unreliable (fun _ => none) s) := by
    funext s desk
    simp only [perform, onDisk, Disk.unreliable, Disk.trial]
    cases desk.disk.perform s <;> rfl
  rw [host, equipped, hperform]
  rfl

theorem bind_apply {α β : Type} (x : StateM Desk α) (f : α → StateM Desk β) (desk : Desk) :
    (x >>= f) desk = f (x desk).1 (x desk).2 := rfl

end Desk

section Builds

variable {fault : FileStep → Option Fault} {signer : Signer} {file : String} {desk : Desk}

theorem reportAll_disk (lines : List String) (desk : Desk) :
    (reportAll (Desk.equipped fault signer) lines desk).2.disk = desk.disk := by
  induction lines generalizing desk with
  | nil => rfl
  | cons line rest ih => exact ih _

theorem fail_apply (file : String) (f : Failure) (desk : Desk) :
    (fail (Desk.equipped fault signer) file f desk).1 = failure ∧
      (fail (Desk.equipped fault signer) file f desk).2.disk = desk.disk :=
  ⟨rfl, reportAll_disk (("error: " ++ f.message) :: f.notes file) desk⟩

theorem signOutput_disk (fault : FileStep → Option Fault) (signer : Signer) (output : String)
    (sign : Bool) (desk : Desk) :
    (signOutput (Desk.equipped fault signer) output sign desk).2.disk =
      if sign then signer.finish fault output desk.disk else desk.disk := by
  cases sign with
  | false => rfl
  | true =>
    simp only [signOutput, if_true, Desk.bind_apply, Desk.equipped, Desk.onDisk, Signer.finish]
    cases signer.sign output desk.disk with
    | mk result d => cases result <;> rfl

theorem load_apply (file : String) (desk : Desk) :
    load (Desk.equipped fault signer) file desk =
      (match Desk.readText file desk.disk with
        | .error e => .error (.unreadable file e)
        | .ok text => (Program.read text).mapError .invalid, desk) := by
  simp only [load, Desk.bind_apply, Desk.equipped, Desk.host]
  cases Desk.readText file desk.disk <;> rfl

theorem load_eq_ok {p : Program} (h : (load (Desk.equipped fault signer) file desk).1 = .ok p) :
    ∃ text, Desk.readText file desk.disk = .ok text ∧ Program.read text = .ok p := by
  rw [load_apply] at h
  cases htext : Desk.readText file desk.disk with
  | error e =>
    rw [htext] at h
    cases h
  | ok text =>
    simp only [htext] at h
    cases hread : Program.read text with
    | error e =>
      rw [hread] at h
      cases h
    | ok p' =>
      rw [hread] at h
      cases h
      exact ⟨text, rfl, hread⟩

theorem load_snd (file : String) (desk : Desk) :
    (load (Desk.equipped fault signer) file desk).2 = desk := by
  rw [load_apply]

/-- A build command stops before the disk is changed, or it builds the program that was read. After
that, only signing changes the disk. -/
theorem build_cases {number : Nat} {output? : Option String} {sign : Bool} {after : Nat × Desk}
    (h : build (Desk.equipped fault signer) number file output? sign desk = after) :
    (after.1 = failure ∧ after.2.disk = desk.disk) ∨
      ∃ text p, Desk.readText file desk.disk = .ok text ∧ Program.read text = .ok p ∧
        ∃ result d, p.build (Disk.unreliable fault) number (output?.getD (defaultOutput file))
            desk.disk = (result, d) ∧
          ((∃ e, result = .error e) ∧ after.1 = failure ∧ after.2.disk = d ∨
            result = .ok () ∧ (sign = false → after.1 = success) ∧ after.2.disk =
              if sign then signer.finish fault (output?.getD (defaultOutput file)) d else d) := by
  have hfail {f : Failure} {desk : Desk}
      (h : fail (Desk.equipped fault signer) file f desk = after) :
      after.1 = failure ∧ after.2.disk = desk.disk := by
    subst h
    exact fail_apply file f desk
  rw [build, Desk.bind_apply, load_snd] at h
  cases hload : (load (Desk.equipped fault signer) file desk).1 with
  | error f =>
    rw [hload] at h
    exact .inl (hfail h)
  | ok p =>
    obtain ⟨text, htext, hread⟩ := load_eq_ok hload
    refine .inr ⟨text, p, htext, hread, ?_⟩
    have hperform : (Desk.equipped fault signer).perform =
      fun s => Desk.onDisk (Disk.unreliable fault s) := rfl
    simp only [hload, Desk.bind_apply, hperform, Desk.build_onDisk, Desk.onDisk] at h
    generalize output?.getD (defaultOutput file) = output at h ⊢
    cases hbuild : p.build (Disk.unreliable fault) number output desk.disk with
    | mk result d =>
      refine ⟨result, d, rfl, ?_⟩
      rw [hbuild] at h
      cases result with
      | error e => exact .inl ⟨⟨e, rfl⟩, hfail h⟩
      | ok u =>
        have hdisk := signOutput_disk fault signer output sign ⟨d, desk.output, desk.errors⟩
        simp only [Desk.bind_apply] at h
        cases hsign : signOutput (Desk.equipped fault signer) output sign
            ⟨d, desk.output, desk.errors⟩ with
        | mk signed desk' =>
          rw [hsign] at h hdisk
          refine .inr ⟨rfl, fun hunsigned => ?_, ?_⟩
          · rw [hunsigned] at hsign
            cases hsign
            exact congrArg Prod.fst h.symm
          · rw [← hdisk]
            cases signed with
            | error f => exact (hfail h).2
            | ok u => exact congrArg (·.2.disk) h.symm

end Builds

/-! ## Inputs -/

theorem fromUTF8?_of_readText {d : Disk} {file text : String} {place : Place} {bytes : Bytes}
    {mode : Nat} (hfile : d.file file = .ok (place, bytes, mode))
    (h : Desk.readText file d = .ok text) : String.fromUTF8? ⟨bytes.toArray⟩ = some text := by
  rw [Desk.readText, Disk.read, hfile] at h
  simp only [bind, Except.bind, pure, Except.pure] at h
  split at h
  · rename_i text' htext
    cases h
    exact htext
  · cases h

section Inputs

variable {fault : FileStep → Option Fault} {number : Nat} {p : Program} {d d' : Disk}
  {file : String} {place : Place} {bytes : Bytes} {mode : Nat}
  (hfile : d.file file = .ok (place, bytes, mode))
include hfile

theorem file_of_hasExtension {result : Except BuildError Unit}
    (hext : Path.hasExtension (Path.lastSegment file) = true)
    (hbuild : p.build (Disk.unreliable fault) number (defaultOutput file) d = (result, d'))
    {d'' : Disk} (hsigned : d'.ChangesOnly [defaultOutput file] d'') :
    d''.file file = .ok (place, bytes, mode) := by
  have hname := (Disk.filePlace_eq_cons (Disk.filePlace_of_file hfile)).1
  have houtput := lastSegment_defaultOutput_ne hname hext
  have hbuilt := p.build_changes fault number (defaultOutput file) d
  rw [hbuild] at hbuilt
  have hkept := hbuilt.file hfile
    (by simp [houtput, lastSegment_temporaryPath_ne hname hext number])
  exact hsigned.file hkept (by simpa using houtput)

variable (hext : Path.hasExtension (Path.lastSegment file) = false)
include hext

/-- The temporary file is no input without an extension. -/
theorem file_of_build_eq_error {e : BuildError} {output : String}
    (hbuild : p.build (Disk.unreliable fault) number output d = (.error e, d')) :
    d'.file file = .ok (place, bytes, mode) := by
  have hchanges : d.ChangesOnly [temporaryPath output number] d' := by
    have herror : (p.build (Disk.unreliable fault) number output d).1 = .error e := by rw [hbuild]
    have := Program.build_changes_of_error herror
    rwa [hbuild] at this
  refine hchanges.file hfile fun path hpath heq => ?_
  have htemporary := hasExtension_temporaryPath output number
  rw [← List.mem_singleton.mp hpath, heq, hext] at htemporary
  cases htemporary

theorem place_defaultOutput {place' : Place} (hplace' : d.place (defaultOutput file) = .ok place') :
    place' = place := by
  have hname := (Disk.filePlace_eq_cons (Disk.filePlace_of_file hfile)).1
  obtain ⟨above, habove⟩ := Path.exists_segments file
  have hstem : Path.stem (String.ofList (Path.lastSegment file)) =
      String.ofList (Path.lastSegment file) :=
    Path.stem_of_not_hasExtension (by rw [String.toList_ofList]; exact hext)
  have hslash : '/' ∉ (String.ofList (Path.lastSegment file)).toList := by
    rw [String.toList_ofList]
    exact Path.slash_not_mem_lastSegment file
  obtain ⟨ss, hss, hreach⟩ := (bind_eq_ok _ _ _).mp (Disk.file_eq_ok.mp hfile).1
  obtain ⟨ss', hss', hreach'⟩ := (bind_eq_ok _ _ _).mp hplace'
  rw [Disk.segments_eq_ok hss, habove] at hreach
  rw [Disk.segments_eq_ok hss', defaultOutput_eq hname, hstem,
    Path.segments_withFileName hslash hname habove, String.toList_ofList, Disk.reach_trimmed,
    List.reverse_reverse, hreach] at hreach'
  exact (Except.ok.inj hreach').symm

theorem file_of_build_eq_ok
    (hbuild : p.build (Disk.unreliable fault) number (defaultOutput file) d = (.ok (), d')) :
    ∃ executable, p.compile = .ok executable ∧
      d'.file file = .ok (place, executable, executableMode) := by
  obtain ⟨executable, hcompile, -, hidden, hhidden, place', htarget, rfl⟩ :=
    Program.build_eq_ok.mp ⟨congrArg Prod.fst hbuild, congrArg Prod.snd hbuild⟩
  obtain ⟨hplace', hentry'⟩ := Disk.filePlace_eq_ok.mp (Disk.target_eq_ok.mp htarget).2
  obtain rfl := place_defaultOutput hfile hext hplace'
  have herased := Disk.SameDirectories.erase (Disk.filePlace_eq_ok.mp hhidden).2
  refine ⟨executable, hcompile, Disk.file_put ?_ ?_ executable executableMode⟩
  · rw [herased.place]
    exact (Disk.file_eq_ok.mp hfile).1
  · rw [ne_eq, herased]
    exact hentry'

end Inputs

/-- A build that names no output leaves its input alone if that has an extension. Otherwise it fails
with the input as it was, or it makes an executable in place of the input. That is what is signed,
and what is removed when it cannot be signed. -/
theorem build_input (fault : FileStep → Option Fault) (signer : Signer) (number : Nat)
    {args : List String} {file : String} {sign : Bool} {desk : Desk} {place : Place} {bytes : Bytes}
    {mode : Nat} (hargs : Request.ofArgs args = .ok (.build file none sign))
    (hfile : desk.disk.file file = .ok (place, bytes, mode)) :
    let after := execute (Desk.equipped fault signer) number args desk
    (Path.hasExtension (Path.lastSegment file) = true →
        after.2.disk.file file = .ok (place, bytes, mode)) ∧
      (Path.hasExtension (Path.lastSegment file) = false →
        (after.1 = failure ∧ after.2.disk.file file = .ok (place, bytes, mode)) ∨
          ∃ text p executable d, String.fromUTF8? ⟨bytes.toArray⟩ = some text ∧
            Program.read text = .ok p ∧ p.compile = .ok executable ∧
            d.file file = .ok (place, executable, 0o755) ∧ (sign = false → after.1 = success) ∧
              after.2.disk = if sign then signer.finish fault (defaultOutput file) d else d) := by
  intro after
  have hafter : build (Desk.equipped fault signer) number file none sign desk = after := by
    simp only [after, execute, hargs]
  rcases build_cases hafter with
    ⟨hcode, hdisk⟩ | ⟨text, p, htext, hread, result, d, hbuild, hfailed | hbuilt⟩
  · rw [hdisk, hcode]
    exact ⟨fun _ => hfile, fun _ => .inl ⟨rfl, hfile⟩⟩
  · obtain ⟨⟨e, rfl⟩, hcode, hdisk⟩ := hfailed
    rw [hdisk, hcode]
    exact ⟨fun hext => file_of_hasExtension hfile hext hbuild (.refl _ _),
      fun hext => .inl ⟨rfl, file_of_build_eq_error hfile hext hbuild⟩⟩
  · obtain ⟨rfl, hcode, hdisk⟩ := hbuilt
    refine ⟨fun hext => ?_, fun hext => .inr ?_⟩
    · refine file_of_hasExtension hfile hext hbuild ?_
      rw [hdisk]
      split
      · exact signer.finish_changes fault _ d
      · exact .refl _ _
    · obtain ⟨executable, hcompile, hreplaced⟩ := file_of_build_eq_ok hfile hext hbuild
      exact ⟨text, p, executable, d, fromUTF8?_of_readText hfile htext, hread, hcompile, hreplaced,
        hcode, hdisk⟩

/-- The bytes of a program without statements. -/
def emptyProgram : Bytes := "\x7b\"statements\": []\x7d".toUTF8.data.toList

/-- A desk with such a program in a file. -/
def Desk.withProgram (file : String) : Desk := .ofDisk (Disk.empty.withFile file emptyProgram)

theorem file_withProgram_json :
    (Desk.withProgram "prog.json").disk.file "prog.json" =
      .ok (["prog.json".toList], emptyProgram, Disk.newMode) := by
  rw [Disk.file_eq_ok]
  decide +kernel

/-- The input is as before when the output was made, and when that was removed unsigned. -/
theorem build_json_input :
    (execute Desk.host 7 ["build", "prog.json"] (.withProgram "prog.json")).1 = success ∧
      (execute Desk.host 7 ["build", "prog.json"] (.withProgram "prog.json")).2.disk.file
        "prog.json" = (Desk.withProgram "prog.json").disk.file "prog.json" ∧
      (execute Desk.host 7 ["build", "prog.json", "--sign"] (.withProgram "prog.json")).1 =
        failure ∧
      (execute Desk.host 7 ["build", "prog.json", "--sign"] (.withProgram "prog.json")).2.disk.file
        "prog.json" = (Desk.withProgram "prog.json").disk.file "prog.json" := by
  have hext : Path.hasExtension (Path.lastSegment "prog.json") = true := by decide +kernel
  have hplain : Request.ofArgs ["build", "prog.json"] = .ok (.build "prog.json" none false) := by
    decide +kernel
  have hsign : Request.ofArgs ["build", "prog.json", "--sign"] =
      .ok (.build "prog.json" none true) := by
    decide +kernel
  have hkept := (build_input (fun _ => none) .missing 7 hplain file_withProgram_json).1 hext
  have hunsigned := (build_input (fun _ => none) .missing 7 hsign file_withProgram_json).1 hext
  rw [← Desk.host_eq] at hkept hunsigned
  exact ⟨by decide +kernel, hkept.trans file_withProgram_json.symm, by decide +kernel,
    hunsigned.trans file_withProgram_json.symm⟩

/-- An input without an extension is replaced, and it is gone if it should have been signed. -/
theorem build_replaces_input :
    let desk := Desk.withProgram "noext"
    (desk.disk.read "noext").toOption = some emptyProgram ∧
      ((execute Desk.host 7 ["build", "noext"] desk).2.disk.read "noext").toOption ≠
        some emptyProgram ∧
      ((execute Desk.host 7 ["build", "noext", "--sign"] desk).2.disk.read "noext").toOption =
        none := by
  decide +kernel

end Cli

end Armature
