import Armature.Files.Path
import Mathlib.Data.List.TakeWhile

/-!
# Names at the end of paths

The last segment of a path decides which file of a directory it names. Giving a path another file
name sets the last segment, and cutting off an extension shortens it.
-/

namespace Armature.Path

/-! ## Segments -/

theorem segments_ne_nil (cs : List Char) : segments cs ≠ [] := by
  cases cs with
  | nil => nofun
  | cons c rest =>
    rw [segments]
    split
    · nofun
    · split
      · nofun
      · nofun

theorem segments_cons_of_ne {c : Char} (hc : c ≠ '/') (rest : List Char) :
    ∃ s more, segments rest = s :: more ∧ segments (c :: rest) = (c :: s) :: more := by
  cases hrest : segments rest with
  | nil => exact absurd hrest (segments_ne_nil rest)
  | cons s more => exact ⟨s, more, rfl, by rw [segments, if_neg hc, hrest]⟩

theorem slash_not_mem {cs : List Char} {s : Segment} (hs : s ∈ segments cs) : '/' ∉ s := by
  induction cs generalizing s with
  | nil =>
    obtain rfl : s = [] := by simpa [segments] using hs
    nofun
  | cons c rest ih =>
    by_cases hc : c = '/'
    · rw [segments, if_pos hc, List.mem_cons] at hs
      rcases hs with rfl | hs
      · nofun
      · exact ih hs
    · obtain ⟨first, more, hrest, hcons⟩ := segments_cons_of_ne hc rest
      rw [hcons, List.mem_cons] at hs
      rcases hs with rfl | hs
      · have := ih (s := first) (by rw [hrest]; exact List.mem_cons_self)
        rw [List.mem_cons, not_or]
        exact ⟨Ne.symm hc, this⟩
      · exact ih (by rw [hrest]; exact List.mem_cons_of_mem _ hs)

theorem segments_append (a b : List Char) :
    segments (a ++ '/' :: b) = segments a ++ segments b := by
  induction a with
  | nil => rfl
  | cons c rest ih =>
    by_cases hc : c = '/'
    · simp only [List.cons_append, segments, if_pos hc, ih]
    · obtain ⟨s, more, hrest, hcons⟩ := segments_cons_of_ne hc rest
      obtain ⟨s', more', hrest', hcons'⟩ := segments_cons_of_ne hc (rest ++ '/' :: b)
      rw [ih, hrest, List.cons_append, List.cons.injEq] at hrest'
      rw [List.cons_append, hcons, hcons', ← hrest'.1, ← hrest'.2, List.cons_append]

theorem segments_of_no_slash {s : Segment} (h : '/' ∉ s) : segments s = [s] := by
  induction s with
  | nil => rfl
  | cons c rest ih =>
    rw [List.mem_cons, not_or] at h
    rw [segments, if_neg (Ne.symm h.1), ih h.2]

theorem segments_join (ss : List Segment) (hne : ss ≠ []) (h : ∀ s ∈ ss, '/' ∉ s) :
    segments (join ss) = ss := by
  induction ss with
  | nil => exact absurd rfl hne
  | cons s rest ih =>
    have hs := segments_of_no_slash (h s List.mem_cons_self)
    cases rest with
    | nil => exact hs
    | cons s' rest =>
      rw [join, segments_append, hs, ih nofun fun t ht => h t (List.mem_cons_of_mem _ ht)]
      · rfl
      · nofun

/-! ## The last segment -/

def lastSegment (path : String) : Segment := (segments path.toList).getLast?.getD []

theorem exists_segments (path : String) :
    ∃ above, segments path.toList = above ++ [lastSegment path] := by
  have hlast := List.getLast?_eq_some_getLast (segments_ne_nil path.toList)
  rw [lastSegment, hlast]
  exact ⟨_, (List.dropLast_concat_getLast (segments_ne_nil _)).symm⟩

theorem lastSegment_eq {path : String} (above : List Segment) {s : Segment}
    (h : segments path.toList = above ++ [s]) : lastSegment path = s := by
  simp [lastSegment, h]

theorem trimmed_cons_of_isName {s : Segment} (hs : isName s = true) (rest : List Segment) :
    trimmed (s :: rest) = s :: rest := by
  have hname : s ≠ [] ∧ s ≠ dot ∧ s ≠ dotDot := by simpa [isName] using hs
  cases rest with
  | nil => rfl
  | cons s' rest => rw [trimmed, if_neg (not_or.mpr ⟨hname.1, hname.2.1⟩)]; nofun

theorem fileName?_of_isName {path : String} (h : isName (lastSegment path) = true) :
    fileName? path = some (String.ofList (lastSegment path)) := by
  obtain ⟨above, habove⟩ := exists_segments path
  rw [fileName?, habove, List.reverse_append, List.reverse_singleton, List.singleton_append,
    trimmed_cons_of_isName h]
  exact if_pos h

/-! ## Other file names -/

theorem segments_append_name (directory : List Char) {name : String} (hname : '/' ∉ name.toList) :
    ∃ above, segments (append directory name).toList = above ++ [name.toList] ∧
      ((segments directory).getLast? ≠ some [] → above = segments directory) := by
  have hown := segments_of_no_slash hname
  rcases List.eq_nil_or_concat directory with rfl | ⟨front, c, rfl⟩
  · exact ⟨[], hown, fun h => absurd rfl h⟩
  · rw [List.concat_eq_append, append, List.getLast?_concat]
    by_cases hc : c = '/'
    · subst hc
      refine ⟨segments front, ?_, fun h => absurd ?_ h⟩
      · simp [segments_append, hown]
      · rw [segments_append, segments]
        simp
    · refine ⟨segments (front ++ [c]), ?_, fun _ => rfl⟩
      split
      · rename_i h
        cases h
      · rename_i h
        exact absurd (Option.some.inj h) hc
      · have htext : (String.ofList (front ++ [c]) ++ "/" ++ name).toList =
            (front ++ [c]) ++ '/' :: name.toList := by simp
        rw [htext, segments_append, hown]

theorem lastSegment_withFileName (path : String) {name : String} (hname : '/' ∉ name.toList) :
    lastSegment (withFileName path name) = name.toList := by
  unfold withFileName
  split
  · exact lastSegment_eq [] (segments_of_no_slash hname)
  · split
    · obtain ⟨above, habove, -⟩ := segments_append_name (directoryPath _) hname
      exact lastSegment_eq above habove
    · obtain ⟨above, habove, -⟩ := segments_append_name path.toList hname
      exact lastSegment_eq above habove

/-- What trimming leaves ends in a segment that means something, unless one is all there is. -/
theorem trimmed_spec (ss : List Segment) :
    (∀ s ∈ trimmed ss, s ∈ ss) ∧ ∀ s t rest, trimmed ss = s :: t :: rest → s ≠ [] := by
  induction ss with
  | nil => exact ⟨fun s hs => hs, nofun⟩
  | cons s rest ih =>
    cases rest with
    | nil => exact ⟨fun s hs => hs, nofun⟩
    | cons t rest =>
      rw [trimmed]
      · split
        · exact ⟨fun u hu => List.mem_cons_of_mem _ (ih.1 u hu), ih.2⟩
        · rename_i hskip
          refine ⟨fun u hu => hu, fun u v more h => ?_⟩
          obtain ⟨rfl, -⟩ := List.cons.inj h
          exact fun hempty => hskip (.inl hempty)
      · nofun

theorem segments_withFileName {path name : String} {above : List Segment}
    (hname : '/' ∉ name.toList) (hlast : isName (lastSegment path) = true)
    (habove : segments path.toList = above ++ [lastSegment path]) :
    segments (withFileName path name).toList =
      (trimmed above.reverse).reverse ++ [name.toList] := by
  have hown := segments_of_no_slash hname
  rw [withFileName, habove, List.reverse_append, List.reverse_singleton, List.singleton_append,
    trimmed_cons_of_isName hlast]
  simp only [hlast, if_true]
  obtain ⟨hmem, hhead⟩ := trimmed_spec above.reverse
  have hslash : ∀ s ∈ (trimmed above.reverse).reverse, '/' ∉ s := by
    intro s hs
    have := List.mem_reverse.mp (hmem s (List.mem_reverse.mp hs))
    have hs' : s ∈ segments path.toList := by rw [habove]; exact List.mem_append_left _ this
    exact slash_not_mem hs'
  unfold directoryPath
  split
  · rename_i htrimmed
    rw [htrimmed]
    simp [append, segments, hown]
  · rename_i htrimmed
    cases hcut : trimmed above.reverse with
    | nil => simp [join, append, hown]
    | cons s rest =>
      rw [hcut] at hslash htrimmed hhead
      have hjoin := segments_join (s :: rest).reverse (by simp) hslash
      have hs : s ≠ [] := by
        cases rest with
        | nil => exact fun h => htrimmed (by rw [h])
        | cons t rest => exact hhead s t rest rfl
      obtain ⟨front, hfront, heq⟩ := segments_append_name (join (s :: rest).reverse) hname
      rw [hfront, heq (by rw [hjoin]; simpa using hs), hjoin]

/-! ## Extensions -/

/-- A dot that is not at the start of a name begins an extension. -/
def hasExtension (name : List Char) : Bool := name.tail.contains '.'

theorem dropWhile_reverse (cs : List Char) (h : '.' ∈ cs) :
    ∃ before extension, '.' ∉ extension ∧ cs = before ++ '.' :: extension ∧
      cs.reverse.dropWhile (· ≠ '.') = '.' :: before.reverse := by
  obtain ⟨front, back, hreverse, hfront⟩ := List.eq_append_cons_of_mem (List.mem_reverse.mpr h)
  refine ⟨back.reverse, front.reverse, by simpa using hfront, ?_, ?_⟩
  · rw [← List.reverse_reverse cs, hreverse]
    simp
  · have hskip : ∀ c ∈ front, decide (c ≠ '.') = true := by
      intro c hc
      exact decide_eq_true fun heq => hfront (heq ▸ hc)
    rw [hreverse, List.dropWhile_append_of_pos hskip, List.reverse_reverse]
    rfl

theorem stem_of_not_hasExtension {name : String} (h : hasExtension name.toList = false) :
    stem name = name := by
  unfold stem
  by_cases hdot : '.' ∈ name.toList
  · obtain ⟨before, extension, -, hname, hdrop⟩ := dropWhile_reverse _ hdot
    cases before with
    | nil => rw [hdrop]; rfl
    | cons c rest => simp [hasExtension, hname] at h
  · have hskip : ∀ c ∈ name.toList.reverse, decide (c ≠ '.') = true := by
      intro c hc
      exact decide_eq_true fun heq => hdot (heq ▸ List.mem_reverse.mp hc)
    rw [List.dropWhile_eq_nil_iff.mpr hskip]

theorem stem_of_hasExtension {name : String} (h : hasExtension name.toList = true) :
    ∃ extension, '.' ∉ extension ∧ name.toList = (stem name).toList ++ '.' :: extension := by
  have hdot : '.' ∈ name.toList := List.mem_of_mem_tail (by simpa [hasExtension] using h)
  obtain ⟨before, extension, hextension, hname, hdrop⟩ := dropWhile_reverse _ hdot
  refine ⟨extension, hextension, ?_⟩
  cases before with
  | nil => simp [hasExtension, hname, hextension] at h
  | cons c rest =>
    have hstem : stem name = String.ofList (c :: rest) := by
      rw [stem, hdrop]
      cases hrev : (c :: rest).reverse with
      | nil => simp at hrev
      | cons x xs => rw [← hrev]; simp
    rw [hstem, String.toList_ofList]
    exact hname

end Armature.Path
