import Armature.Files.Install
import Armature.Proofs.Inversion
import Armature.Proofs.Paths
import Mathlib.Data.List.TakeDrop

/-!
# Changes of a disk

Files come and go, but no step makes or removes a directory, so paths lead to the same places before
and after it. Steps of an unreliable disk may fail at any time, and leave what they had begun.
-/

namespace Armature

/-! ## Entries -/

namespace Disk

variable (d : Disk)

theorem isFixed_eq_false {place : Place} (h : d.entry? place ≠ some .directory) :
    place.isFixed = false := by
  by_contra hfixed
  exact h (if_pos (by simpa using hfixed))

theorem lookup_filter_ne (entries : List (Place × Entry)) (place other : Place)
    (h : other ≠ place) :
    (entries.filter (·.1 ≠ place)).lookup other = entries.lookup other := by
  induction entries with
  | nil => rfl
  | cons first rest ih =>
    obtain ⟨p, e⟩ := first
    by_cases hp : p = place
    · have hother : (other == p) = false := by simpa [hp] using h
      rw [List.filter_cons_of_neg (by simpa using hp), ih, List.lookup_cons, hother]
    · rw [List.filter_cons_of_pos (by simpa using hp), List.lookup_cons, List.lookup_cons, ih]

theorem lookup_filter_self (entries : List (Place × Entry)) (place : Place) :
    (entries.filter (·.1 ≠ place)).lookup place = none := by
  rw [List.lookup_eq_none_iff]
  intro e he
  have hne : e.1 ≠ place := of_decide_eq_true (List.mem_filter.mp he).2
  simpa using hne.symm

theorem entry?_erase {place : Place} (hfixed : place.isFixed = false) (other : Place) :
    Disk.entry? (d.erase place) other = if other = place then none else d.entry? other := by
  unfold entry? erase
  by_cases hother : other = place
  · rw [hother, if_pos rfl, hfixed]
    exact lookup_filter_self _ _
  · rw [if_neg hother, lookup_filter_ne _ _ _ hother]

theorem entry?_put {place : Place} (hfixed : place.isFixed = false) (e : Entry) (other : Place) :
    Disk.entry? (d.put place e) other = if other = place then some e else d.entry? other := by
  by_cases hother : other = place
  · rw [if_pos hother, hother, entry?, hfixed]
    simp [put]
  · have hne : (other == place) = false := by simpa using hother
    have herase := d.entry?_erase hfixed other
    rw [if_neg hother] at herase ⊢
    rw [← herase]
    simp [ entry?, put, List.lookup_cons, hne]

theorem erase_of_vacant {place : Place} (h : d.entry? place = none) : d.erase place = d := by
  have hfixed := d.isFixed_eq_false (by rw [h]; nofun)
  rw [ entry?, hfixed, if_neg (by decide), List.lookup_eq_none_iff] at h
  unfold erase
  congr 1
  rw [List.filter_eq_self]
  intro e he
  have hne : place ≠ e.1 := by simpa using h e he
  simpa using hne.symm

theorem erase_put (place : Place) (e : Entry) : (d.put place e).erase place = d.erase place := by
  simp [put, erase]

theorem put_put (place : Place) (e e' : Entry) : (d.put place e).put place e' = d.put place e' := by
  rw [put, erase_put, put]

/-! ## Ways to a place -/

variable {d}

theorem follow_cons_eq_ok {here place : Place} {s : Path.Segment} {rest : List Path.Segment} :
    d.follow here (s :: rest) = .ok place ↔ d.entry? here = some .directory ∧
      (String.ofList s).utf8ByteSize ≤ nameLimit ∧ d.follow (here.step s) rest = .ok place := by
  rw [follow]
  cases d.entry? here with
  | none => simp
  | some e =>
    cases e with
    | file => simp
    | directory =>
      by_cases hlong : nameLimit < (String.ofList s).utf8ByteSize
      · simp [hlong, Nat.not_le.mpr hlong]
      · simp [hlong, Nat.not_lt.mp hlong]

theorem follow_append (d : Disk) (here : Place) (ss ts : List Path.Segment) :
    d.follow here (ss ++ ts) = (d.follow here ss).bind fun place => d.follow place ts := by
  induction ss generalizing here with
  | nil => rfl
  | cons s rest ih =>
    rw [List.cons_append, follow, follow]
    split
    · split
      · rfl
      · exact ih _
    · rfl
    · rfl

theorem follow_skip (d : Disk) (here : Place) {s : Path.Segment} (hs : s = [] ∨ s = Path.dot)
    (t : Path.Segment) : d.follow here [s, t] = d.follow here [t] := by
  have hstay : here.step s = here := if_pos hs
  have hshort : ¬ nameLimit < (String.ofList s).utf8ByteSize := by
    rcases hs with rfl | rfl <;> decide
  rw [follow, hstay, if_neg hshort]
  cases hentry : d.entry? here with
  | none => simp [follow, hentry]
  | some e => cases e <;> simp [follow, hentry]

theorem reach_cons (d : Disk) (s : Path.Segment) {rest : List Path.Segment} (h : rest ≠ []) :
    d.reach (s :: rest) = if s = [] then d.follow .root rest else d.follow [] (s :: rest) := by
  cases s with
  | nil =>
    cases rest with
    | nil => exact absurd rfl h
    | cons t rest => rfl
  | cons c s => rfl

theorem reach_skip (d : Disk) {ss : List Path.Segment} (hss : ss ≠ []) {s : Path.Segment}
    (hs : s = [] ∨ s = Path.dot) (t : Path.Segment) :
    d.reach (ss ++ [s, t]) = d.reach (ss ++ [t]) := by
  cases ss with
  | nil => exact absurd rfl hss
  | cons first rest =>
    rw [List.cons_append, List.cons_append, reach_cons d first (by simp),
      reach_cons d first (by simp), ← List.cons_append, ← List.cons_append]
    simp only [follow_append, follow_skip d _ hs]

theorem reach_trimmed (d : Disk) (ss : List Path.Segment) (s : Path.Segment) :
    d.reach ((Path.trimmed ss).reverse ++ [s]) = d.reach (ss.reverse ++ [s]) := by
  induction ss with
  | nil => rfl
  | cons u rest ih =>
    cases rest with
    | nil => rfl
    | cons t rest =>
      rw [Path.trimmed]
      · split
        · rename_i hskip
          have hsplit : (u :: t :: rest).reverse ++ [s] = (t :: rest).reverse ++ [u, s] := by simp
          rw [ih, hsplit]
          exact (d.reach_skip (by simp) hskip s).symm
        · rfl
      · simp

/-- The same places are directories. -/
def SameDirectories (d d' : Disk) : Prop :=
  ∀ place, d'.entry? place = some .directory ↔ d.entry? place = some .directory

namespace SameDirectories

variable {d' : Disk}

theorem refl (d : Disk) : SameDirectories d d := fun _ => .rfl

theorem put {place : Place} (h : d.entry? place ≠ some .directory) (bytes : Bytes) (mode : Nat) :
    SameDirectories d (d.put place (.file bytes mode)) := by
  intro other
  rw [d.entry?_put (d.isFixed_eq_false h)]
  by_cases hother : other = place
  · simp [hother, h]
  · simp [hother]

theorem erase {place : Place} (h : d.entry? place ≠ some .directory) :
    SameDirectories d (d.erase place) := by
  intro other
  rw [d.entry?_erase (d.isFixed_eq_false h)]
  by_cases hother : other = place
  · simp [hother, h]
  · simp [hother]

theorem follow (h : SameDirectories d d') (here place : Place) (segments : List Path.Segment) :
    d'.follow here segments = .ok place ↔ d.follow here segments = .ok place := by
  induction segments generalizing here with
  | nil => rfl
  | cons s rest ih => rw [follow_cons_eq_ok, follow_cons_eq_ok, h here, ih]

theorem reach (h : SameDirectories d d') (place : Place) (segments : List Path.Segment) :
    d'.reach segments = .ok place ↔ d.reach segments = .ok place := by
  unfold Disk.reach
  split
  · rfl
  · exact h.follow _ _ _
  · exact h.follow _ _ _

theorem place (h : SameDirectories d d') (path : String) (place : Place) :
    d'.place path = .ok place ↔ d.place path = .ok place := by
  simp only [Disk.place, bind_eq_ok, h.reach]

end SameDirectories

/-! ## Files -/

theorem segments_eq_ok {path : String} {s : List Path.Segment} (h : segments path = .ok s) :
    s = Path.segments path.toList := by
  unfold segments at h
  split at h
  · cases h
  split at h
  · cases h
  · exact (Except.ok.inj h).symm

theorem file_eq_ok {path : String} {place : Place} {bytes : Bytes} {mode : Nat} :
    d.file path = .ok (place, bytes, mode) ↔
      d.place path = .ok place ∧ d.entry? place = some (.file bytes mode) := by
  rw [file, bind_eq_ok]
  constructor
  · rintro ⟨p, hp, h⟩
    split at h
    · rename_i hentry
      cases h
      exact ⟨hp, hentry⟩
    · cases h
    · cases h
  · rintro ⟨hplace, hentry⟩
    exact ⟨place, hplace, by rw [hentry]; rfl⟩

theorem file_put {path : String} {place : Place} (hplace : d.place path = .ok place)
    (hentry : d.entry? place ≠ some .directory) (bytes : Bytes) (mode : Nat) :
    (d.put place (.file bytes mode)).file path = .ok (place, bytes, mode) := by
  rw [file_eq_ok, (SameDirectories.put hentry bytes mode).place]
  exact ⟨hplace, by rw [d.entry?_put (d.isFixed_eq_false hentry), if_pos rfl]⟩

theorem unless_directory_eq_ok {p place : Place} {e : FileError} :
    (if d.entry? p = some .directory then .error e else pure p) = Except.ok place ↔
      p = place ∧ d.entry? place ≠ some .directory := by
  by_cases hdirectory : d.entry? p = some .directory
  · rw [if_pos hdirectory]
    simp only [reduceCtorEq, false_iff, not_and, not_not]
    rintro rfl
    exact hdirectory
  · rw [if_neg hdirectory]
    simp only [pure, Except.pure, Except.ok.injEq]
    constructor
    · rintro rfl
      exact ⟨rfl, hdirectory⟩
    · exact And.left

theorem filePlace_eq_ok {path : String} {place : Place} :
    d.filePlace path = .ok place ↔
      d.place path = .ok place ∧ d.entry? place ≠ some .directory := by
  simp only [filePlace, bind_eq_ok, unless_directory_eq_ok]
  constructor
  · rintro ⟨p, hp, rfl, hentry⟩
    exact ⟨hp, hentry⟩
  · rintro ⟨hplace, hentry⟩
    exact ⟨place, hplace, rfl, hentry⟩

theorem filePlace_of_file {path : String} {place : Place} {bytes : Bytes} {mode : Nat}
    (h : d.file path = .ok (place, bytes, mode)) : d.filePlace path = .ok place := by
  obtain ⟨hplace, hentry⟩ := file_eq_ok.mp h
  exact filePlace_eq_ok.mpr ⟨hplace, by rw [hentry]; nofun⟩

theorem target_eq_ok {path : String} {place : Place} :
    d.target path = .ok place ↔
      Path.isName (Path.lastSegment path) = true ∧ d.filePlace path = .ok place := by
  obtain ⟨above, habove⟩ := Path.exists_segments path
  rw [filePlace_eq_ok, target, Disk.place]
  cases hsegments : segments path with
  | error e => simp [bind, Except.bind]
  | ok s =>
    obtain rfl : s = above ++ [Path.lastSegment path] := by
      rw [← habove]
      exact segments_eq_ok hsegments
    simp only [bind, Except.bind, List.span_eq_takeWhile_dropWhile, List.reverse_append,
      List.reverse_singleton, List.singleton_append]
    generalize Path.lastSegment path = last
    by_cases hempty : last = []
    · have hname : Path.isName last = false := by simp [Path.isName, hempty]
      have hslashes : (last :: above.reverse).takeWhile (· = []) ≠ [] := by simp [hempty]
      simp only [hname, Bool.false_eq_true, false_and, iff_false]
      split
      · simp
      · split
        · simp
        · split
          · simp
          · simp
    · have htake : (last :: above.reverse).takeWhile (· = []) = [] := by simp [hempty]
      have hdrop : (last :: above.reverse).dropWhile (· = []) = last :: above.reverse := by
        simp [hempty]
      simp only [htake, hdrop, List.reverse_cons, List.reverse_reverse]
      cases d.reach (above ++ [last]) with
      | error e => simp
      | ok p =>
        by_cases hdots : last = Path.dot ∨ last = Path.dotDot
        · have hname : Path.isName last = false := by rcases hdots with rfl | rfl <;> rfl
          simp [hname, hdots]
        · have hname : Path.isName last = true := by
            rw [not_or] at hdots
            simp [Path.isName, hempty, hdots]
          simp only [hname, true_and, Except.ok.injEq]
          rw [if_neg hdots, if_neg (by simp)]
          exact unless_directory_eq_ok

namespace SameDirectories

variable {d' : Disk} (h : SameDirectories d d')
include h

theorem filePlace (path : String) (place : Place) :
    d'.filePlace path = .ok place ↔ d.filePlace path = .ok place := by
  rw [filePlace_eq_ok, filePlace_eq_ok, h.place, ne_eq, h place]

theorem target (path : String) (place : Place) :
    d'.target path = .ok place ↔ d.target path = .ok place := by
  rw [target_eq_ok, target_eq_ok, h.filePlace]

end SameDirectories

/-! ## Steps -/

/-- The mode of the file at a place after it was created. -/
def createdMode (d : Disk) (place : Place) : Nat :=
  match d.entry? place with
  | some (.file _ mode) => mode
  | _ => newMode

theorem perform_create {path : String} {d' : Disk} :
    d.perform (.create path) = .ok d' ↔ ∃ place, d.filePlace path = .ok place ∧
      d.put place (.file [] (d.createdMode place)) = d' := by
  simp only [perform, bind_eq_ok]
  refine exists_congr fun place => and_congr_right fun _ => ?_
  unfold createdMode
  cases d.entry? place with
  | none => simp [pure, Except.pure]
  | some e => cases e <;> simp [pure, Except.pure]

theorem perform_write {path : String} {bytes : Bytes} {d' : Disk} :
    d.perform (.write path bytes) = .ok d' ↔ ∃ place old mode,
      d.file path = .ok (place, old, mode) ∧ d.put place (.file bytes mode) = d' := by
  simp [perform, bind_eq_ok, pure, Except.pure]

theorem perform_sync {path : String} {d' : Disk} :
    d.perform (.sync path) = .ok d' ↔ ∃ place bytes mode,
      d.file path = .ok (place, bytes, mode) ∧ d = d' := by
  simp [perform, bind_eq_ok, pure, Except.pure]

theorem perform_setMode {path : String} {mode : Nat} {d' : Disk} :
    d.perform (.setMode path mode) = .ok d' ↔ ∃ place bytes old,
      d.file path = .ok (place, bytes, old) ∧ d.put place (.file bytes mode) = d' := by
  simp [perform, bind_eq_ok, pure, Except.pure]

theorem perform_rename {source target : String} {d' : Disk} :
    d.perform (.rename source target) = .ok d' ↔ ∃ place bytes mode,
      d.file source = .ok (place, bytes, mode) ∧ ∃ place', d.target target = .ok place' ∧
        (d.erase place).put place' (.file bytes mode) = d' := by
  simp [perform, bind_eq_ok, pure, Except.pure]

theorem perform_remove {path : String} {d' : Disk} :
    d.perform (.remove path) = .ok d' ↔ ∃ place bytes mode,
      d.file path = .ok (place, bytes, mode) ∧ d.erase place = d' := by
  simp [perform, bind_eq_ok, pure, Except.pure]

/-! ## Where paths end -/

/-- A place that paths can lead to: all names in it are in directories. -/
inductive Reached (d : Disk) : Place → Prop
  | fixed {here : Place} : here.isFixed = true → Reached d here
  | name {here : Place} {s : Path.Segment} : Path.isName s = true →
    d.entry? here = some .directory → Reached d here → Reached d (s :: here)

theorem entry?_of_isFixed {here : Place} (h : here.isFixed = true) :
    d.entry? here = some .directory := if_pos h

theorem Reached.dotDot {here : Place} (h : Reached d here) :
    Reached d (here.step Path.dotDot) ∧
      d.entry? (here.step Path.dotDot) = some .directory := by
  have hfixed {p : Place} (hp : p.isFixed = true) :
      Reached d p ∧ d.entry? p = some .directory := ⟨.fixed hp, entry?_of_isFixed hp⟩
  unfold Place.step
  rw [if_neg (by decide), if_pos rfl]
  cases h with
  | fixed hhere =>
    cases here with
    | nil => exact hfixed rfl
    | cons top rest =>
      simp only
      split
      · exact hfixed hhere
      · rename_i hroot
        have hdots : (top :: rest).all (· = Path.dotDot) = true := by
          simpa [Place.isFixed, hroot] using hhere
        have htop : top = Path.dotDot := by
          simp only [List.all_cons, Bool.and_eq_true, decide_eq_true_eq] at hdots
          exact hdots.1
        rw [if_pos htop]
        exact hfixed (by rw [Place.isFixed, List.all_cons, hdots]; rfl)
  | @name here s hs hdirectory hhere =>
    have hdots : s ≠ Path.dotDot := by
      rintro rfl
      exact absurd hs (by decide)
    simp only [if_neg hdots]
    split
    · rename_i hroot
      exact hfixed (by rw [hroot]; rfl)
    · exact ⟨hhere, hdirectory⟩

theorem Place.step_of_isName {here : Place} {s : Path.Segment} (hs : Path.isName s = true) :
    here.step s = s :: here := by
  have hname : s ≠ [] ∧ s ≠ Path.dot ∧ s ≠ Path.dotDot := by simpa [Path.isName] using hs
  unfold Place.step
  rw [if_neg (not_or.mpr ⟨hname.1, hname.2.1⟩), if_neg hname.2.2]

theorem Reached.step {here : Place} (h : Reached d here)
    (hdirectory : d.entry? here = some .directory) (s : Path.Segment) :
    Reached d (here.step s) ∧
      (Path.isName s = false → d.entry? (here.step s) = some .directory) := by
  by_cases hs : Path.isName s = true
  · rw [Place.step_of_isName hs]
    exact ⟨.name hs hdirectory h, by simp [hs]⟩
  · by_cases hdots : s = Path.dotDot
    · subst hdots
      exact ⟨h.dotDot.1, fun _ => h.dotDot.2⟩
    · have hskip : s = [] ∨ s = Path.dot := by
        by_contra hskip
        rw [not_or] at hskip
        simp [Path.isName, hskip, hdots] at hs
      have hstay : here.step s = here := if_pos hskip
      rw [hstay]
      exact ⟨h, fun _ => hdirectory⟩

theorem follow_concat {here place : Place} {above : List Path.Segment} {s : Path.Segment}
    (hhere : Reached d here) (h : d.follow here (above ++ [s]) = .ok place) :
    ∃ directory, Reached d directory ∧ d.entry? directory = some .directory ∧
      place = directory.step s := by
  induction above generalizing here with
  | nil =>
    obtain ⟨hdirectory, -, hplace⟩ := follow_cons_eq_ok.mp h
    exact ⟨here, hhere, hdirectory, (Except.ok.inj hplace).symm⟩
  | cons first rest ih =>
    obtain ⟨hdirectory, -, hrest⟩ := follow_cons_eq_ok.mp h
    exact ih (hhere.step hdirectory first).1 hrest

theorem place_eq_step {path : String} {place : Place} (h : d.place path = .ok place) :
    ∃ directory, Reached d directory ∧ d.entry? directory = some .directory ∧
      place = directory.step (Path.lastSegment path) := by
  obtain ⟨above, habove⟩ := Path.exists_segments path
  unfold Disk.place at h
  cases hsegments : segments path with
  | error e => simp [hsegments, bind, Except.bind] at h
  | ok s =>
    simp only [hsegments, bind, Except.bind] at h
    rw [segments_eq_ok hsegments, habove] at h
    unfold reach at h
    split at h
    · cases h
    · rename_i rest hne hrest
      cases above with
      | nil => exact (hne (List.cons.inj hrest).2.symm).elim
      | cons first above =>
        rw [List.cons_append, List.cons.injEq] at hrest
        exact follow_concat (.fixed rfl) (hrest.2 ▸ h)
    · exact follow_concat (.fixed rfl) h

theorem filePlace_eq_cons {path : String} {place : Place} (h : d.filePlace path = .ok place) :
    Path.isName (Path.lastSegment path) = true ∧
      ∃ directory, place = Path.lastSegment path :: directory := by
  obtain ⟨hplace, hentry⟩ := filePlace_eq_ok.mp h
  obtain ⟨directory, hreached, hdirectory, rfl⟩ := place_eq_step hplace
  have hname : Path.isName (Path.lastSegment path) = true := by
    by_contra hname
    exact hentry ((hreached.step hdirectory _).2 (by simpa using hname))
  exact ⟨hname, directory, Place.step_of_isName hname⟩

end Disk

end Armature
