import Armature.Proofs.Evaluation
import Armature.Proofs.Fuel

/-!
# Counted loops

A counted loop keeps its counter in a variable of the frame, and reads it anew before and after
each execution of its body. If the body does not bind that variable, the loop visits exactly the
numbers of its range, in order, and no increment wraps.
-/

namespace Armature

/-! ## What a block binds -/

namespace Stmt

mutual

/-- The statement binds `x` in its own frame, or has a statement inside it that does. The body of a
function has a frame of its own. -/
def rebinds (x : String) : Stmt → Bool
  | decl name _ => name == x
  | loop _ (.condition _) body => anyRebinds x body
  | loop var _ body => var == x || anyRebinds x body
  | cond _ thenBody none => anyRebinds x thenBody
  | cond _ thenBody (some elseBody) => anyRebinds x thenBody || anyRebinds x elseBody
  | _ => false

def anyRebinds (x : String) : List Stmt → Bool
  | [] => false
  | st :: rest => st.rebinds x || anyRebinds x rest

end

variable {x : String}

theorem anyRebinds_eq_false {body : List Stmt} :
    anyRebinds x body = false ↔ ∀ st ∈ body, st.rebinds x = false := by
  induction body with
  | nil => simp [anyRebinds]
  | cons st rest ih => simp [anyRebinds, ih]

theorem not_mem_binds {st : Stmt} (h : st.rebinds x = false) : x ∉ st.binds := by
  cases st with
  | decl name value =>
    simp only [rebinds, beq_eq_false_iff_ne] at h
    simpa [binds] using h.symm
  | loop var range body =>
    cases range with
    | condition test => exact List.not_mem_nil
    | counted | collection =>
      simp only [rebinds, Bool.or_eq_false_iff, beq_eq_false_iff_ne] at h
      simpa [binds] using h.1.symm
  | _ => exact List.not_mem_nil

theorem not_rebinds_blocks {st : Stmt} (h : st.rebinds x = false) :
    ∀ body ∈ st.blocks, anyRebinds x body = false := by
  cases st with
  | loop var range body =>
    have hbody : anyRebinds x body = false := by
      cases range with
      | condition test => exact h
      | counted | collection =>
        simp only [rebinds, Bool.or_eq_false_iff] at h
        exact h.2
    simpa [blocks] using hbody
  | cond test thenBody elseBody =>
    cases elseBody with
    | none =>
      have hthen : anyRebinds x thenBody = false := h
      simpa [blocks, anyRebinds] using hthen
    | some elseBody =>
      simp only [rebinds, Bool.or_eq_false_iff] at h
      simpa [blocks] using h
  | _ => simp [blocks]

end Stmt

/-- The variable has the same value, or has none in both states. -/
def State.SameVariable (x : String) (s s' : State) : Prop := s'.locals.get? x = s.locals.get? x

namespace Run

open State (SameVariable)

variable {x : String}

theorem lasting_sameVariable (x : String) : Lasting (SameVariable x) where
  refl _ := rfl
  trans _ _ _ h h' := h'.trans h

theorem relates_sameVariable (rounds depth : Nat) (st : Stmt) (h : st.rebinds x = false) :
    Relates (SameVariable x) (execWithin rounds depth st) := by
  induction depth generalizing st with
  | zero => exact relates_cutShort
  | succ depth ih =>
    have hR := lasting_sameVariable x
    refine relates_exec_succ hR st ?_ ?_ ?_ ?_ ?_ ?_
    · intro e
      refine ((frames_kept rounds depth).1 e).mono fun s s' hsame => ?_
      rw [SameVariable, hsame.locals]
    · intro body hbody
      have hinner := Stmt.anyRebinds_eq_false.mp (Stmt.not_rebinds_blocks h body hbody)
      exact relates_forEach hR _ body fun st hst => ih st (hinner st hst)
    · intro name hname v
      have hne : name ≠ x := fun heq => Stmt.not_mem_binds h (heq ▸ hname)
      exact relates_update _ fun s => Bindings.get?_set_of_ne s.locals v hne
    · exact fun text => relates_update _ fun _ => rfl
    · exact fun name f => relates_update _ fun _ => rfl
    · exact fun name cases => relates_update _ fun _ => rfl

theorem Finishes.sameVariable {body : List Stmt} {s s' : State} (h : Finishes body s s')
    (hbody : Stmt.anyRebinds x body = false) : SameVariable x s s' := by
  obtain ⟨fuel, h⟩ := h
  have hkept (st : Stmt) (hst : st ∈ body) : Relates (SameVariable x) (exec fuel st) :=
    relates_sameVariable _ _ st (Stmt.anyRebinds_eq_false.mp hbody st hst)
  refine relates_forEach (lasting_sameVariable x) _ body hkept s s' ?_
  rw [h]
  rfl

/-! ## Rounds -/

variable {stop : Int64} {body : List Stmt}

/-- A counted loop that comes to its end. The list has the states in which the body is executed, one
after the other. -/
inductive Rounds (x : String) (stop : Int64) (body : List Stmt) :
    State → List State → State → Prop
  | stop {s i} : s.locals.get? x = some (.int i) → stop ≤ i → Rounds x stop body s [] s
  | round {s i s₁ j starts s'} : s.locals.get? x = some (.int i) → i < stop →
      Finishes body s s₁ → s₁.locals.get? x = some (.int j) →
      Rounds x stop body { s₁ with locals := s₁.locals.set x (.int (j + 1)) } starts s' →
      Rounds x stop body s (s :: starts) s'

theorem Rounds.unique {s s' t : State} {starts starts' : List State}
    (h : Rounds x stop body s starts s') (h' : Rounds x stop body s starts' t) :
    starts' = starts ∧ t = s' := by
  induction h generalizing starts' t with
  | stop hi hle =>
    cases h' with
    | stop => exact ⟨rfl, rfl⟩
    | round hi' hlt =>
      rw [hi] at hi'
      cases hi'
      exact absurd hle (Int64.not_le.mpr hlt)
  | round hi hlt hbody hj _ ih =>
    cases h' with
    | stop hi' hle =>
      rw [hi] at hi'
      cases hi'
      exact absurd hle (Int64.not_le.mpr hlt)
    | round _ _ hbody' hj' hrest =>
      obtain rfl := hbody.unique hbody'
      rw [hj] at hj'
      cases hj'
      obtain ⟨rfl, rfl⟩ := ih hrest
      exact ⟨rfl, rfl⟩

theorem countedStep_stop {body : Run Flow} {s : State} {i : Int64}
    (hi : s.locals.get? x = some (.int i)) (hstop : stop ≤ i) :
    countedStep x stop body s = .done (some .next) s := by
  rw [countedStep, bind_done]
  refine ⟨i, s, (getCounter_done _ _ _ _).mpr ⟨hi, rfl⟩, ?_⟩
  rw [if_pos hstop]
  rfl

theorem countedStep_round {body : Run Flow} {s s₁ : State} {i j : Int64}
    (hi : s.locals.get? x = some (.int i)) (hstop : i < stop) (hbody : body s = .done .next s₁)
    (hj : s₁.locals.get? x = some (.int j)) :
    countedStep x stop body s =
      .done none { s₁ with locals := s₁.locals.set x (.int (j + 1)) } := by
  rw [countedStep, bind_done]
  refine ⟨i, s, (getCounter_done _ _ _ _).mpr ⟨hi, rfl⟩, ?_⟩
  rw [if_neg (Int64.not_le.mpr hstop), bind_done]
  refine ⟨.next, s₁, hbody, ?_⟩
  rw [bind_done]
  exact ⟨j, s₁, (getCounter_done _ _ _ _).mpr ⟨hj, rfl⟩, rfl⟩

theorem Rounds.repeated_done {s s' : State} {starts : List State}
    (h : Rounds x stop body s starts s') :
    ∃ enough : Fuel, ∀ fuel, enough ≤ fuel → ∀ n, starts.length < n →
      repeated (countedStep x stop (forEach (exec fuel) body)) n s = .done .next s' := by
  induction h with
  | @stop s i hi hstop =>
    refine ⟨⟨0, 0⟩, fun fuel _ n hn => ?_⟩
    obtain ⟨n, rfl⟩ := Nat.exists_eq_add_one_of_ne_zero (Nat.ne_of_gt hn)
    rw [repeated, bind_done]
    exact ⟨_, _, countedStep_stop hi hstop, rfl⟩
  | @round s i s₁ j starts s' hi hstop hbody hj _ ih =>
    obtain ⟨fuel₁, hbody⟩ := hbody
    obtain ⟨fuel₂, hrest⟩ := ih
    obtain ⟨enough, hle₁, hle₂⟩ := Fuel.exists_ge fuel₁ fuel₂
    refine ⟨enough, fun fuel hle n hn => ?_⟩
    obtain ⟨n, rfl⟩ := Nat.exists_eq_add_one_of_ne_zero (Nat.ne_zero_of_lt hn)
    have hbody := (below_block (Fuel.le_trans hle₁ hle) body).done hbody
    rw [repeated, bind_done]
    exact ⟨_, _, countedStep_round hi hstop hbody hj,
      hrest fuel (Fuel.le_trans hle₂ hle) n (Nat.lt_of_succ_lt_succ hn)⟩

theorem rounds_of_repeated {fuel : Fuel} {n : Nat} {s s' : State}
    (h : repeated (countedStep x stop (forEach (exec fuel) body)) n s = .done .next s') :
    ∃ starts, Rounds x stop body s starts s' := by
  induction n generalizing s with
  | zero => cases h
  | succ n ih =>
    rcases repeated_done _ _ _ _ _ h with ⟨s₁, hstep, hrest⟩ | hstep
    · obtain ⟨i, hi, ⟨-, hr, -⟩ | ⟨-, _, -, hr⟩ | ⟨hlt, s₂, j, hbody, hj, -, rfl⟩⟩ :=
        countedStep_done _ _ _ _ _ _ hstep
      · cases hr
      · cases hr
      · obtain ⟨starts, hstarts⟩ := ih hrest
        exact ⟨s :: starts, .round hi (Int64.not_le.mp hlt) ⟨fuel, hbody⟩ hj hstarts⟩
    · obtain ⟨i, hi, ⟨hle, -, rfl⟩ | ⟨-, _, -, hr⟩ | ⟨-, _, _, -, -, hr, -⟩⟩ :=
        countedStep_done _ _ _ _ _ _ hstep
      · exact ⟨[], .stop hi hle⟩
      · cases hr
      · cases hr

theorem exec_counted_iff {start stop : Expr} {s s' : State} :
    (∃ fuel, exec fuel (.loop x (.counted start stop) body) s = .done .next s') ↔
      ∃ i s₁ j s₂ starts, Evaluates start s (.int i) s₁ ∧
        Evaluates stop { s₁ with locals := s₁.locals.set x (.int i) } (.int j) s₂ ∧
        Rounds x j body s₂ starts s' := by
  constructor
  · rintro ⟨⟨depth, rounds⟩, h⟩
    cases depth with
    | zero => cases h
    | succ depth =>
      obtain ⟨i, s₁, j, s₂, hi, hj, hrounds⟩ := exec_loop_done h
      have hrounds : repeated (countedStep x j (forEach (exec ⟨depth, rounds⟩) body)) rounds s₂ =
          .done .next s' := hrounds
      obtain ⟨starts, hstarts⟩ := rounds_of_repeated hrounds
      exact ⟨i, s₁, j, s₂, starts, ⟨⟨depth, rounds⟩, hi⟩, ⟨⟨depth, rounds⟩, hj⟩, hstarts⟩
  · rintro ⟨i, s₁, j, s₂, starts, ⟨fuel₁, hi⟩, ⟨fuel₂, hj⟩, hrounds⟩
    obtain ⟨fuel₃, hrounds⟩ := hrounds.repeated_done
    -- one amount of fuel for both ends of the range, for every execution of the body and for all
    -- the rounds
    obtain ⟨bounds, hle₁, hle₂⟩ := Fuel.exists_ge fuel₁ fuel₂
    obtain ⟨executions, hbounds, hle₃⟩ := Fuel.exists_ge bounds fuel₃
    obtain ⟨fuel, hexecutions, hle⟩ := Fuel.exists_ge executions ⟨0, starts.length + 1⟩
    have hbounds := Fuel.le_trans hbounds hexecutions
    have hi := (below_eval (Fuel.le_trans hle₁ hbounds) start).done hi
    have hj := (below_eval (Fuel.le_trans hle₂ hbounds) stop).done hj
    have hrounds := hrounds fuel (Fuel.le_trans hle₃ hexecutions) fuel.rounds hle.2
    refine ⟨⟨fuel.depth + 1, fuel.rounds⟩, (bind_done _ _ _ _ _).mpr ⟨_, _, hi, ?_⟩⟩
    simp only [bind_done, asBound_done, setVar_done]
    exact ⟨i, s₁, ⟨rfl, rfl⟩, (), _, rfl, _, s₂, hj, j, s₂, ⟨rfl, rfl⟩, hrounds⟩

/-! ## Counting -/

/-- The states in which a counted loop compares its counter with the end of the range. -/
inductive LoopHead (x : String) (stop : Int64) (body : List Stmt) (s₀ : State) : State → Prop
  | first : LoopHead x stop body s₀ s₀
  | next {s i s₁ j} : LoopHead x stop body s₀ s → s.locals.get? x = some (.int i) → i < stop →
      Finishes body s s₁ → s₁.locals.get? x = some (.int j) →
      LoopHead x stop body s₀ { s₁ with locals := s₁.locals.set x (.int (j + 1)) }

/-- The body is executed with the counter at `n` and leaves it there, and there is a next number. -/
def CountsAt (x : String) (body : List Stmt) (n : Int) (s : State) : Prop :=
  ∃ i s', s.locals.get? x = some (.int i) ∧ i.toInt = n ∧ Finishes body s s' ∧
    s'.locals.get? x = some (.int i) ∧ (i + 1).toInt = n + 1

theorem toInt_succ {i : Int64} (h : i < stop) : (i + 1).toInt = i.toInt + 1 := by
  have hlt := Int64.lt_iff_toInt_lt.mp h
  have hmax := stop.toInt_lt
  have hmin := i.le_toInt
  rw [Int64.toInt_add, Int.bmod_eq_of_le]
  · rfl
  · change _ ≤ i.toInt + 1
    omega
  · change i.toInt + 1 < _
    omega

theorem max_eq_left_of_le {i : Int64} (h : stop ≤ i) : max i stop = i := by
  by_cases hle : i ≤ stop
  · exact (if_pos hle).trans (Int64.le_antisymm h hle)
  · exact if_neg hle

variable {s₀ : State}
  (hbody : Stmt.anyRebinds x body = false)
  (hnormal : ∀ s i, LoopHead x stop body s₀ s → s.locals.get? x = some (.int i) → i < stop →
    ∃ s', Finishes body s s')

include hbody hnormal

/-- An execution of the body leaves the counter where it is, so that it goes on to the next
number. -/
theorem LoopHead.round {s : State} {i : Int64} (hs : LoopHead x stop body s₀ s)
    (hi : s.locals.get? x = some (.int i)) (hlt : i < stop) :
    ∃ s₁, Finishes body s s₁ ∧ s₁.locals.get? x = some (.int i) ∧
      LoopHead x stop body s₀ { s₁ with locals := s₁.locals.set x (.int (i + 1)) } := by
  obtain ⟨s₁, hs₁⟩ := hnormal s i hs hi hlt
  have hi₁ : s₁.locals.get? x = some (.int i) := (hs₁.sameVariable hbody).trans hi
  exact ⟨s₁, hs₁, hi₁, hs.next hi hlt hs₁ hi₁⟩

theorem LoopHead.rounds {s : State} {i : Int64} (hs : LoopHead x stop body s₀ s)
    (hi : s.locals.get? x = some (.int i)) :
    ∃ starts s', Rounds x stop body s starts s' ∧
      starts.length = (stop.toInt - i.toInt).toNat ∧
      (∀ (k : Nat) s₁, starts[k]? = some s₁ → CountsAt x body (i.toInt + k) s₁) ∧
      s'.locals.get? x = some (.int (max i stop)) := by
  -- by induction on how many numbers are left
  generalize hn : (stop.toInt - i.toInt).toNat = n
  induction n generalizing s i with
  | zero =>
    have hle : stop ≤ i := by
      rw [Int64.le_iff_toInt_le]
      omega
    refine ⟨[], s, .stop hi hle, rfl, nofun, ?_⟩
    rw [hi, max_eq_left_of_le hle]
  | succ n ih =>
    have hlt : i < stop := by
      rw [Int64.lt_iff_toInt_lt]
      omega
    have hsucc := toInt_succ hlt
    obtain ⟨s₁, hs₁, hi₁, hs₂⟩ := hs.round hbody hnormal hi hlt
    have hi₂ := Bindings.get?_set_self s₁.locals x (.int (i + 1))
    obtain ⟨starts, s', hrounds, hlength, hstarts, hend⟩ := ih hs₂ hi₂ (by omega)
    have hle : i + 1 ≤ stop := by
      rw [Int64.le_iff_toInt_le, hsucc]
      exact Int64.lt_iff_toInt_lt.mp hlt
    refine ⟨s :: starts, s', .round hi hlt hs₁ hi₁ hrounds, congrArg (· + 1) hlength, ?_, ?_⟩
    · intro k s₃ hk
      cases k with
      | zero =>
        cases hk
        exact ⟨i, s₁, hi, (Int.add_zero _).symm, hs₁, hi₁, by simpa using hsucc⟩
      | succ k =>
        have hcounts := hstarts k s₃ hk
        rw [hsucc, Int.add_assoc, Int.add_comm 1] at hcounts
        exact hcounts
    · have hmax : max (i + 1) stop = stop := if_pos hle
      have hmax' : max i stop = stop := if_pos (Int64.le_of_lt hlt)
      rw [hend, hmax, hmax']

omit hbody hnormal

/-- A counted loop goes over its range. If its body does not bind the counter and every execution of
it that the loop comes to finishes, then the body is executed once for each number from the start up
to the end, in order, and the loop finishes with the counter at the larger of the two. The numbers
are those of mathematics: no increment wraps. -/
theorem counted_exact {x : String} {start stop : Expr} {body : List Stmt} {s s₁ s₂ : State}
    {i j : Int64} (hstart : Evaluates start s (.int i) s₁)
    (hstop : Evaluates stop { s₁ with locals := s₁.locals.set x (.int i) } (.int j) s₂)
    (hbody : Stmt.anyRebinds x body = false)
    (hnormal : ∀ s n, LoopHead x j body s₂ s → s.locals.get? x = some (.int n) → n < j →
      ∃ s', Finishes body s s') :
    ∃ starts s', (∀ starts' t, Rounds x j body s₂ starts' t ↔ starts' = starts ∧ t = s') ∧
      starts.length = (max 0 (j.toInt - i.toInt)).toNat ∧
      (∀ (k : Nat) s, starts[k]? = some s → CountsAt x body (i.toInt + k) s) ∧
      s'.locals.get? x = some (.int (max i j)) ∧
      ∃ enough, ∀ fuel, enough ≤ fuel →
        exec fuel (.loop x (.counted start stop) body) s = .done .next s' := by
  have hi : s₂.locals.get? x = some (.int i) := by
    obtain ⟨fuel, hstop⟩ := hstop
    have hsame := (frames_kept _ _).1 stop _ s₂ (congrArg Outcome.state? hstop)
    rw [hsame.locals, Bindings.get?_set_self]
  obtain ⟨starts, s', hrounds, hlength, hcounts, hend⟩ :=
    LoopHead.first.rounds hbody hnormal hi
  obtain ⟨enough, hexec⟩ :=
    exec_counted_iff.mpr ⟨i, s₁, j, s₂, starts, hstart, hstop, hrounds⟩
  refine ⟨starts, s', fun starts' t => ⟨hrounds.unique, ?_⟩, ?_, hcounts, hend, enough, ?_⟩
  · rintro ⟨rfl, rfl⟩
    exact hrounds
  · rw [hlength]
    omega
  · exact fun fuel hle => (below_exec hle _).done hexec

/-- A function has a parameter that is named as the counter, and binds it. -/
def shadowing (locals : Locals) : State :=
  { State.initial with
    functions := [("shadow", ⟨["i"], [.decl "i" (.int 0), .ret (.var "i")]⟩)]
    locals }

/-- Calls the function, and reads the counter inside a loop of its own. -/
def busyBody : List Stmt :=
  [.decl "zero" (.call "shadow" [.var "i"]),
    .loop "k" (.counted (.var "zero") (.int 2))
      [.cond (.binary .eq (.var "k") (.int 1)) [.decl "last" (.var "i")] none]]

/-- The state after an execution of the body. -/
def busyEnd (i last : Int64) : State :=
  shadowing [("i", .int i), ("zero", .int 0), ("k", .int 2), ("last", .int last)]

theorem busy_finishes (locals : Locals) (i : Int64)
    (h : locals = [("i", .int i)] ∨ ∃ last, locals = (busyEnd i last).locals) :
    Finishes busyBody (shadowing locals) (busyEnd i i) := by
  refine ⟨⟨6, 3⟩, ?_⟩
  rcases h with rfl | ⟨last, rfl⟩
  · rfl
  · rfl

theorem busy_head {i j : Int64} {s : State}
    (h : LoopHead "i" j busyBody (shadowing [("i", .int i)]) s) :
    ∃ n locals, s = shadowing locals ∧ (locals = [("i", .int n)] ∨
      ∃ last, locals = (busyEnd n last).locals) := by
  induction h with
  | first => exact ⟨i, _, rfl, .inl rfl⟩
  | @next s m s₁ n _ hm hlt hs₁ hn ih =>
    obtain ⟨n', locals, rfl, hlocals⟩ := ih
    obtain rfl := hs₁.unique (busy_finishes locals n' hlocals)
    exact ⟨n + 1, _, rfl, .inr ⟨n', rfl⟩⟩

/-- The range ends at the largest of all numbers. -/
theorem busy_counted :
    ∃ starts s', Rounds "i" 9223372036854775807 busyBody
        (shadowing [("i", .int 9223372036854775805)]) starts s' ∧
      starts.length = 2 ∧
      (∀ (k : Nat) s, starts[k]? = some s → CountsAt "i" busyBody (9223372036854775805 + k) s) ∧
      s'.locals.get? "i" = some (.int 9223372036854775807) ∧
      ∃ enough, ∀ fuel, enough ≤ fuel →
        exec fuel (.loop "i" (.counted (.int 9223372036854775805) (.int 9223372036854775807))
          busyBody) (shadowing []) = .done .next s' := by
  have hstart : Evaluates (.int 9223372036854775805) (shadowing [])
      (.int 9223372036854775805) (shadowing []) := ⟨⟨1, 0⟩, rfl⟩
  have hstop : Evaluates (.int 9223372036854775807) (shadowing [("i", .int 9223372036854775805)])
      (.int 9223372036854775807) (shadowing [("i", .int 9223372036854775805)]) := ⟨⟨1, 0⟩, rfl⟩
  have hbody : Stmt.anyRebinds "i" busyBody = false := by decide
  obtain ⟨starts, s', hrounds, hlength, hcounts, hend, hexec⟩ :=
    counted_exact hstart hstop hbody fun s n hs _ _ => by
      obtain ⟨n, locals, rfl, hlocals⟩ := busy_head hs
      exact ⟨_, busy_finishes locals n hlocals⟩
  exact ⟨starts, s', (hrounds _ _).mpr ⟨rfl, rfl⟩, hlength, hcounts, hend, hexec⟩

end Run

end Armature
