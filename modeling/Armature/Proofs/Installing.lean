import Armature.Proofs.Disks

/-!
# All or nothing

An executable is installed on a disk on which any step may fail. Until the temporary file is moved,
nothing but that file has changed, so removing it undoes everything.
-/

namespace Armature

/-! ## Unreliable disks -/

/-- How a step fails. -/
structure Fault where
  error : FileError
  /-- The contents and the mode that the file of the step is left with, if it is not left alone. -/
  left : Option (Bytes × Nat)

/-- The file that a step may have changed when it fails. Moving and removing a file are done at once
or not at all. -/
def FileStep.exposed? : FileStep → Option String
  | create path | write path _ | sync path | setMode path _ => some path
  | rename .. | remove _ => none

namespace Disk

/-- What a failed step leaves. -/
def damaged (d : Disk) (s : FileStep) (f : Fault) : Disk :=
  match s.exposed?, f.left with
  | some path, some (bytes, mode) =>
    match d.filePlace path with
    | .ok place => d.put place (.file bytes mode)
    | .error _ => d
  | _, _ => d

/-- The outcome of a step when some steps fail, besides those that cannot be done. -/
def trial (fault : FileStep → Option Fault) (s : FileStep) (d : Disk) :
    Except FileError Unit × Disk :=
  match fault s with
  | some f => (.error f.error, d.damaged s f)
  | none =>
    match d.perform s with
    | .ok d' => (.ok (), d')
    | .error e => (.error e, d)

def unreliable (fault : FileStep → Option Fault) : Performer (StateM Disk) := fun s => trial fault s

variable {fault : FileStep → Option Fault} {d d' : Disk}

theorem trial_eq_ok {s : FileStep} :
    trial fault s d = (.ok (), d') ↔ fault s = none ∧ d.perform s = .ok d' := by
  unfold trial
  cases fault s with
  | some f => simp
  | none => cases d.perform s <;> simp

theorem eq_of_trial_eq_error {s : FileStep} {e : FileError} (hs : s.exposed? = none)
    (h : trial fault s d = (.error e, d')) : d' = d := by
  unfold trial at h
  cases hfault : fault s with
  | some f =>
    simp only [hfault, damaged, hs, Prod.mk.injEq] at h
    exact h.2.symm
  | none =>
    rw [hfault] at h
    simp only at h
    split at h
    · cases h
    · exact (Prod.mk.inj h).2.symm

/-- The outcome of steps up to the first that fails. -/
def trials (fault : FileStep → Option Fault) : List FileStep → Disk → Except FileError Unit × Disk
  | [], d => (.ok (), d)
  | s :: rest, d =>
    match trial fault s d with
    | (.ok (), d') => trials fault rest d'
    | (.error e, d') => (.error e, d')

theorem trials_append (xs ys : List FileStep) (d : Disk) :
    trials fault (xs ++ ys) d =
      match trials fault xs d with
      | (.ok (), d') => trials fault ys d'
      | (.error e, d') => (.error e, d') := by
  induction xs generalizing d with
  | nil => rfl
  | cons s rest ih =>
    rw [List.cons_append, trials, trials]
    cases trial fault s d with
    | mk result d' =>
      cases result with
      | ok u => exact ih d'
      | error e => rfl

theorem attempt_unreliable (steps : List FileStep) (d : Disk) :
    attempt (unreliable fault) steps d = trials fault steps d := by
  induction steps generalizing d with
  | nil => rfl
  | cons s rest ih =>
    rw [trials]
    simp only [attempt, unreliable, bind, StateT.bind]
    cases h : trial fault s d with
    | mk result d' =>
      cases result with
      | ok u => exact ih d'
      | error e => rfl

theorem install_unreliable (temporary output : String) (bytes : Bytes) (d : Disk) :
    install (unreliable fault) temporary output bytes d =
      match trials fault (installSteps temporary output bytes) d with
      | (.ok (), d') => (.ok (), d')
      | (.error e, d') => (.error e, (trial fault (.remove temporary) d').2) := by
  simp only [install, bind, StateT.bind, attempt_unreliable]
  cases h : trials fault (installSteps temporary output bytes) d with
  | mk result d' => cases result <;> rfl

/-! ## Up to the move -/

/-- A path leads to no entry. -/
def Vacant (d : Disk) (path : String) : Prop :=
  ∀ place, d.place path = .ok place → d.entry? place = none

/-- The disk is as it was, but for a file that may have been written where a path leads. -/
inductive Written (path : String) (d : Disk) : Disk → Prop
  | untouched : Written path d d
  | written {place : Place} {bytes : Bytes} {mode : Nat} : d.filePlace path = .ok place →
    Written path d (d.put place (.file bytes mode))

namespace Written

variable {path : String}

theorem sameDirectories (h : Written path d d') : SameDirectories d d' := by
  cases h with
  | untouched => exact .refl d
  | written hplace => exact .put (filePlace_eq_ok.mp hplace).2 _ _

theorem trans {d'' : Disk} (h : Written path d d') (h' : Written path d' d'') :
    Written path d d'' := by
  cases h' with
  | untouched => exact h
  | @written place bytes mode hplace =>
    rw [h.sameDirectories.filePlace] at hplace
    cases h with
    | untouched => exact .written hplace
    | @written place' _ _ hplace' =>
      obtain rfl : place = place' := by simpa [hplace] using hplace'
      rw [put_put]
      exact .written hplace

theorem remove (hvacant : d.Vacant path) (h : Written path d d')
    (hfault : fault (.remove path) = none) : (Disk.trial fault (.remove path) d').2 = d := by
  unfold Disk.trial
  rw [hfault]
  simp only
  cases h with
  | untouched =>
    cases hperform : d.perform (.remove path) with
    | error e => rfl
    | ok d'' =>
      obtain ⟨place, bytes, mode, hfile, -⟩ := perform_remove.mp hperform
      obtain ⟨hplace, hentry⟩ := file_eq_ok.mp hfile
      rw [hvacant place hplace] at hentry
      cases hentry
  | @written place bytes mode hplace =>
    obtain ⟨hreach, hfree⟩ := filePlace_eq_ok.mp hplace
    rw [perform_remove.mpr ⟨place, bytes, mode, file_put hreach hfree bytes mode, rfl⟩]
    exact (d.erase_put place _).trans (d.erase_of_vacant (hvacant place hreach))

end Written

theorem written_of_perform {s : FileStep} {path : String} (hs : s.exposed? = some path)
    (h : d.perform s = .ok d') : Written path d d' := by
  cases s with
  | create =>
    cases hs
    obtain ⟨place, hplace, rfl⟩ := perform_create.mp h
    exact .written hplace
  | write =>
    cases hs
    obtain ⟨place, old, mode, hfile, rfl⟩ := perform_write.mp h
    exact .written (filePlace_of_file hfile)
  | sync =>
    cases hs
    obtain ⟨_, _, _, _, rfl⟩ := perform_sync.mp h
    exact .untouched
  | setMode =>
    cases hs
    obtain ⟨place, bytes, old, hfile, rfl⟩ := perform_setMode.mp h
    exact .written (filePlace_of_file hfile)
  | rename => cases hs
  | remove => cases hs

theorem written_damaged {s : FileStep} {path : String} (hs : s.exposed? = some path) (f : Fault) :
    Written path d (d.damaged s f) := by
  simp only [damaged, hs]
  cases f.left with
  | none => exact .untouched
  | some left =>
    obtain ⟨bytes, mode⟩ := left
    simp only
    cases hplace : d.filePlace path with
    | error e => exact .untouched
    | ok place => exact .written hplace

theorem written_trial (fault : FileStep → Option Fault) {s : FileStep} {path : String}
    (hs : s.exposed? = some path) (d : Disk) : Written path d (trial fault s d).2 := by
  unfold trial
  cases fault s with
  | some f => exact written_damaged hs f
  | none =>
    simp only
    cases hperform : d.perform s with
    | ok d' => exact written_of_perform hs hperform
    | error e => exact .untouched

theorem written_trials (fault : FileStep → Option Fault) {path : String} {steps : List FileStep}
    (hsteps : ∀ s ∈ steps, s.exposed? = some path) (d : Disk) :
    Written path d (trials fault steps d).2 := by
  induction steps generalizing d with
  | nil => exact .untouched
  | cons s rest ih =>
    have hfirst := written_trial fault (hsteps s List.mem_cons_self) d
    rw [trials]
    cases htrial : trial fault s d with
    | mk result d' =>
      rw [htrial] at hfirst
      cases result with
      | ok u => exact hfirst.trans (ih (fun s hs => hsteps s (List.mem_cons_of_mem _ hs)) d')
      | error e => exact hfirst

/-! ## After the move -/

theorem trials_eq_ok {steps : List FileStep} :
    trials fault steps d = (.ok (), d') ↔
      (∀ s ∈ steps, fault s = none) ∧ steps.foldlM perform d = .ok d' := by
  induction steps generalizing d with
  | nil => simp [trials, pure, Except.pure]
  | cons s rest ih =>
    rw [trials, List.foldlM_cons, bind_eq_ok, List.forall_mem_cons]
    constructor
    · intro h
      split at h
      · rename_i d₁ htrial
        obtain ⟨hfault, hperform⟩ := trial_eq_ok.mp htrial
        obtain ⟨hfaults, hrest⟩ := ih.mp h
        exact ⟨⟨hfault, hfaults⟩, d₁, hperform, hrest⟩
      · cases h
    · rintro ⟨⟨hfault, hfaults⟩, d₁, hperform, hrest⟩
      rw [trial_eq_ok.mpr ⟨hfault, hperform⟩]
      exact ih.mpr ⟨hfaults, hrest⟩

/-- The steps before the move. -/
def prepareSteps (temporary : String) (bytes : Bytes) : List FileStep :=
  [.create temporary, .write temporary bytes, .sync temporary, .setMode temporary executableMode]

theorem installSteps_eq (temporary output : String) (bytes : Bytes) :
    installSteps temporary output bytes =
      prepareSteps temporary bytes ++ [.rename temporary output] := rfl

theorem exposed?_of_mem_prepareSteps (temporary : String) (bytes : Bytes) :
    ∀ s ∈ prepareSteps temporary bytes, s.exposed? = some temporary := by
  simp [prepareSteps, FileStep.exposed?]

section Steps

variable {temporary output : String} {bytes : Bytes} {place : Place}

theorem foldlM_prepareSteps (hplace : d.filePlace temporary = .ok place) :
    (prepareSteps temporary bytes).foldlM perform d =
      .ok (d.put place (.file bytes executableMode)) := by
  obtain ⟨hreach, hfree⟩ := filePlace_eq_ok.mp hplace
  have hfile := file_put hreach hfree
  have hcreate := perform_create.mpr ⟨place, hplace, rfl⟩
  have hwrite := perform_write.mpr
    ⟨place, [], d.createdMode place, hfile _ _,
      d.put_put place _ (.file bytes (d.createdMode place))⟩
  have hsync := perform_sync.mpr ⟨place, bytes, d.createdMode place, hfile _ _, rfl⟩
  have hmode := perform_setMode.mpr
    ⟨place, bytes, d.createdMode place, hfile _ _, d.put_put place _ (.file bytes executableMode)⟩
  simp only [prepareSteps, List.foldlM_cons, List.foldlM_nil, bind_eq_ok]
  exact ⟨_, hcreate, _, hwrite, _, hsync, _, hmode, rfl⟩

theorem perform_rename_put (hplace : d.filePlace temporary = .ok place) {mode : Nat} :
    (d.put place (.file bytes mode)).perform (.rename temporary output) = .ok d' ↔
      ∃ place', d.target output = .ok place' ∧
        (d.erase place).put place' (.file bytes mode) = d' := by
  obtain ⟨hreach, hfree⟩ := filePlace_eq_ok.mp hplace
  simp only [perform_rename, file_put hreach hfree, (SameDirectories.put hfree _ _).target,
    Except.ok.injEq, Prod.mk.injEq]
  constructor
  · rintro ⟨_, _, _, ⟨rfl, rfl, rfl⟩, place', htarget, rfl⟩
    exact ⟨place', htarget, by rw [erase_put]⟩
  · rintro ⟨place', htarget, rfl⟩
    exact ⟨place, bytes, mode, ⟨rfl, rfl, rfl⟩, place', htarget, by rw [erase_put]⟩

theorem foldlM_installSteps :
    (installSteps temporary output bytes).foldlM perform d = .ok d' ↔
      ∃ place, d.filePlace temporary = .ok place ∧ ∃ place', d.target output = .ok place' ∧
        (d.erase place).put place' (.file bytes executableMode) = d' := by
  rw [installSteps_eq, List.foldlM_append, bind_eq_ok]
  simp only [List.foldlM_cons, List.foldlM_nil, bind_pure]
  constructor
  · rintro ⟨d₁, hprepare, hrename⟩
    obtain ⟨d₂, hcreate, -⟩ := (bind_eq_ok _ _ _).mp hprepare
    obtain ⟨place, hplace, -⟩ := perform_create.mp hcreate
    rw [foldlM_prepareSteps hplace, Except.ok.injEq] at hprepare
    subst hprepare
    exact ⟨place, hplace, (perform_rename_put hplace).mp hrename⟩
  · rintro ⟨place, hplace, hmoved⟩
    exact ⟨_, foldlM_prepareSteps hplace, (perform_rename_put hplace).mpr hmoved⟩

theorem written_of_trials_eq_error {e : FileError}
    (h : trials fault (installSteps temporary output bytes) d = (.error e, d')) :
    Written temporary d d' := by
  rw [installSteps_eq, trials_append] at h
  have hprepared := written_trials fault (exposed?_of_mem_prepareSteps temporary bytes) d
  cases htrials : trials fault (prepareSteps temporary bytes) d with
  | mk result d₁ =>
    rw [htrials] at h hprepared
    cases result with
    | error e' =>
      cases h
      exact hprepared
    | ok u =>
      -- a move that fails leaves the file where it was
      obtain rfl : d' = d₁ := by
        cases hmove : trial fault (.rename temporary output) d₁ with
        | mk result d₂ =>
          simp only [trials, hmove] at h
          cases result with
          | ok u => cases h
          | error e' =>
            cases h
            exact eq_of_trial_eq_error rfl hmove
      exact hprepared

end Steps

end Disk

/-! ## Building -/

namespace Program

variable {fault : FileStep → Option Fault} {number : Nat} {p : Program} {output : String} {d : Disk}

theorem build_of_compile_eq_error {e : CompileError} (h : p.compile = .error e) :
    p.build (Disk.unreliable fault) number output d = (.error (.compile e), d) := by
  rw [build, h]
  rfl

theorem build_of_compile_eq_ok {bytes : Bytes} (h : p.compile = .ok bytes) :
    p.build (Disk.unreliable fault) number output d =
      match Disk.trials fault (installSteps (temporaryPath output number) output bytes) d with
      | (.ok (), d') => (.ok (), d')
      | (.error e, d') =>
        (.error (.file e), (Disk.trial fault (.remove (temporaryPath output number)) d').2) := by
  rw [build, h]
  simp only [bind, StateT.bind, Disk.install_unreliable]
  cases Disk.trials fault (installSteps (temporaryPath output number) output bytes) d with
  | mk result d' => cases result <;> rfl

theorem build_undone {e : BuildError} (hvacant : d.Vacant (temporaryPath output number))
    (h : (p.build (Disk.unreliable fault) number output d).1 = .error e)
    (hremove : fault (.remove (temporaryPath output number)) = none) :
    (p.build (Disk.unreliable fault) number output d).2 = d := by
  cases hcompile : p.compile with
  | error e => rw [build_of_compile_eq_error hcompile]
  | ok bytes =>
    rw [build_of_compile_eq_ok hcompile] at h ⊢
    cases htrials :
      Disk.trials fault (installSteps (temporaryPath output number) output bytes) d with
    | mk result d' =>
      rw [htrials] at h
      cases result with
      | ok u => cases h
      | error e => exact (Disk.written_of_trials_eq_error htrials).remove hvacant hremove

theorem build_eq_ok {d' : Disk} :
    (p.build (Disk.unreliable fault) number output d).1 = .ok () ∧
        (p.build (Disk.unreliable fault) number output d).2 = d' ↔
      ∃ bytes, p.compile = .ok bytes ∧
        (∀ s ∈ installSteps (temporaryPath output number) output bytes, fault s = none) ∧
          ∃ place, d.filePlace (temporaryPath output number) = .ok place ∧
            ∃ place', d.target output = .ok place' ∧
              (d.erase place).put place' (.file bytes executableMode) = d' := by
  cases hcompile : p.compile with
  | error e =>
    rw [build_of_compile_eq_error hcompile]
    simp
  | ok bytes =>
    simp only [Except.ok.injEq, exists_eq_left']
    rw [build_of_compile_eq_ok hcompile, ← Disk.foldlM_installSteps, ← Disk.trials_eq_ok]
    cases Disk.trials fault (installSteps (temporaryPath output number) output bytes) d with
    | mk result d' => cases result <;> simp

/-- A program is compiled to a file or nothing happens, whichever steps fail in between. -/
theorem build_all_or_nothing (fault : FileStep → Option Fault) (number : Nat) (p : Program)
    (output : String) (d : Disk) (hvacant : d.Vacant (temporaryPath output number)) :
    let temporary := temporaryPath output number
    let after := p.build (Disk.unreliable fault) number output d
    (∀ e, after.1 = .error e → fault (.remove temporary) = none → after.2 = d) ∧
      (after.1 = .ok () → ∃ bytes place, p.compile = .ok bytes ∧
        after.2.file output = .ok (place, bytes, 0o755) ∧
          ∀ other, other ≠ place → Disk.entry? after.2 other = d.entry? other) ∧
      (after.1 = .ok () ↔ (∃ bytes, p.compile = .ok bytes ∧
        ∀ s ∈ installSteps temporary output bytes, fault s = none) ∧
          (∃ place, d.filePlace temporary = .ok place) ∧ ∃ place, d.target output = .ok place) := by
  intro temporary after
  refine ⟨fun e h => build_undone hvacant h, fun h => ?_, fun h => ?_, fun h => ?_⟩
  · obtain ⟨bytes, hcompile, -, place, hplace, place', htarget, hafter⟩ := build_eq_ok.mp ⟨h, rfl⟩
    obtain ⟨hreach, hentry⟩ := Disk.filePlace_eq_ok.mp (Disk.target_eq_ok.mp htarget).2
    rw [d.erase_of_vacant (hvacant place (Disk.filePlace_eq_ok.mp hplace).1)] at hafter
    refine ⟨bytes, place', hcompile, ?_, fun other hother => ?_⟩
    · rw [← hafter]
      exact Disk.file_put hreach hentry bytes executableMode
    · rw [← hafter, d.entry?_put (d.isFixed_eq_false hentry), if_neg hother]
  · obtain ⟨bytes, hcompile, hfaults, place, hplace, place', htarget, -⟩ :=
      build_eq_ok.mp ⟨h, rfl⟩
    exact ⟨⟨bytes, hcompile, hfaults⟩, ⟨place, hplace⟩, place', htarget⟩
  · obtain ⟨⟨bytes, hcompile, hfaults⟩, ⟨place, hplace⟩, place', htarget⟩ := h
    exact (build_eq_ok.mpr ⟨bytes, hcompile, hfaults, place, hplace, place', htarget, rfl⟩).1

/-- A disk with one file. -/
def drawer : Disk := Disk.empty.withFile "prog" [1, 2, 3]

/-- Waiting for the contents fails, and half of them are lost. -/
def tornSync : FileStep → Option Fault
  | .sync _ => some ⟨.other "Input/output error (os error 5)", some ([0xCF, 0xFA], Disk.newMode)⟩
  | _ => none

/-- The old file survives a torn one, and is replaced if all goes well. -/
theorem drawer_all_or_nothing :
    (∃ e, (build (Disk.unreliable tornSync) 7 ⟨[]⟩ "prog" drawer).1 = .error e) ∧
      (build (Disk.unreliable tornSync) 7 ⟨[]⟩ "prog" drawer).2 = drawer ∧
      (build (Disk.unreliable fun _ => none) 7 ⟨[]⟩ "prog" drawer).1 = .ok () ∧
      ∃ bytes place, compile ⟨[]⟩ = .ok bytes ∧
        (build (Disk.unreliable fun _ => none) 7 ⟨[]⟩ "prog" drawer).2.file "prog" =
          .ok (place, bytes, 0o755) := by
  have htemporary : drawer.place (temporaryPath "prog" 7) = .ok [".prog.7.tmp".toList] := by
    decide +kernel
  have htarget : drawer.target "prog" = .ok ["prog".toList] := by decide +kernel
  have hvacant : drawer.Vacant (temporaryPath "prog" 7) := by
    intro place hplace
    rw [htemporary] at hplace
    cases hplace
    decide +kernel
  obtain ⟨bytes, hcompile⟩ : ∃ bytes, compile ⟨[]⟩ = .ok bytes :=
    exists_ok_of_isOk (by decide +kernel)
  obtain ⟨hundone, -, htorn⟩ := build_all_or_nothing tornSync 7 ⟨[]⟩ "prog" drawer hvacant
  obtain ⟨-, hdone, hwhole⟩ := build_all_or_nothing (fun _ => none) 7 ⟨[]⟩ "prog" drawer hvacant
  have hfails : ∃ e, (build (Disk.unreliable tornSync) 7 ⟨[]⟩ "prog" drawer).1 = .error e := by
    cases h : (build (Disk.unreliable tornSync) 7 ⟨[]⟩ "prog" drawer).1 with
    | error e => exact ⟨e, rfl⟩
    | ok u =>
      obtain ⟨⟨_, -, hfaults⟩, -⟩ := htorn.mp h
      have := hfaults (.sync (temporaryPath "prog" 7)) (by simp [installSteps])
      cases this
  have hsucceeds := hwhole.mpr ⟨⟨bytes, hcompile, fun _ _ => rfl⟩,
    ⟨_, Disk.filePlace_eq_ok.mpr ⟨htemporary, by rw [hvacant _ htemporary]; nofun⟩⟩, _, htarget⟩
  obtain ⟨bytes, place, hcompile, hfile, -⟩ := hdone hsucceeds
  obtain ⟨e, he⟩ := hfails
  exact ⟨⟨e, he⟩, hundone e he rfl, hsucceeds, bytes, place, hcompile, hfile⟩

end Program

end Armature
