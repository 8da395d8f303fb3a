import Armature.Proofs.Reachable

/-!
# Keys of dicts

No dict has a key twice, wherever it is: in a variable of any open call or inside another value. A
literal gives each of its keys the place of its first entry and the value of its last.
-/

namespace Armature

/-! ## Distinct keys -/

namespace Value

/-- `w` is the value itself, or stands somewhere inside it. -/
inductive Inside (w : Value) : Value → Prop
  | self : Inside w w
  | item {v items} : v ∈ items → Inside w v → Inside w (.array items)
  | component {v items} : v ∈ items → Inside w v → Inside w (.tuple items)
  | field {e fields} : e ∈ fields → Inside w e.2 → Inside w (.dict fields)

/-- No dict inside the value has a key twice. -/
def Distinct (v : Value) : Prop := ∀ fields, Inside (.dict fields) v → (fields.map (·.1)).Nodup

theorem inherited_distinct : Inherited Distinct where
  simple v hv := by
    intro fields h
    cases h with
    | self => cases hv
    | item | component | field => cases hv
  array items := by
    constructor
    · exact fun h v hv fields hin => h fields (.item hv hin)
    · intro h fields hin
      cases hin with
      | item hv hin => exact h _ hv fields hin
  tuple items := by
    constructor
    · exact fun h v hv fields hin => h fields (.component hv hin)
    · intro h fields hin
      cases hin with
      | component hv hin => exact h _ hv fields hin
  dict entries h := by
    have hnodup := Bindings.nodup_setAll [] entries List.nodup_nil
    intro fields hin
    cases hin with
    | self => exact hnodup
    | @field e _ he hin =>
      have hget := Bindings.get?_of_nodup hnodup he
      have hmem := (Bindings.mem_of_get?_setAll hget).resolve_right nofun
      exact h e hmem fields hin
  field fields h e he := fun fields' hin => h fields' (.field he hin)

end Value

/-! ## Literals -/

/-- The fields have the keys of the entries, in the order in which they first occur, and each has
the value with which it occurs last. -/
structure Collected (entries fields : Bindings Value) : Prop where
  order : fields.map (·.1) = (entries.map (·.1)).eraseDups
  last : ∀ key, fields.get? key = Bindings.get? entries.reverse key

theorem Bindings.eq_of_get? {α : Type} {b c : Bindings α} (hnames : b.map (·.1) = c.map (·.1))
    (hnodup : (b.map (·.1)).Nodup) (h : ∀ name, b.get? name = c.get? name) : b = c := by
  refine List.ext_getElem? fun i => ?_
  have hname : (b.map (·.1))[i]? = (c.map (·.1))[i]? := congrArg (·[i]?) hnames
  rw [List.getElem?_map, List.getElem?_map] at hname
  cases hb : b[i]? with
  | none =>
    rw [hb] at hname
    exact (Option.map_eq_none_iff.mp hname.symm).symm
  | some e =>
    rw [hb] at hname
    obtain ⟨e', he', hfst⟩ := Option.map_eq_some_iff.mp hname.symm
    have hget := get?_of_nodup hnodup (List.mem_of_getElem? hb)
    have hget' := get?_of_nodup (hnames ▸ hnodup) (List.mem_of_getElem? he')
    rw [hfst, ← h, hget] at hget'
    rw [he']
    exact congrArg some (Prod.ext hfst.symm (Option.some.inj hget'))

theorem collected_iff {entries fields : Bindings Value} :
    Collected entries fields ↔ fields = Bindings.setAll [] entries := by
  have hlast (key : String) : (Bindings.setAll [] entries).get? key =
      Bindings.get? entries.reverse key := by
    rw [Bindings.get?_setAll, Bindings.get?_nil, Option.or_none]
  constructor
  · rintro ⟨horder, h⟩
    have hnames := horder.trans (Bindings.names_setAll entries).symm
    refine Bindings.eq_of_get? hnames ?_ fun key => (h key).trans (hlast key).symm
    rw [hnames]
    exact Bindings.nodup_setAll [] entries List.nodup_nil
  · rintro rfl
    exact ⟨Bindings.names_setAll entries, hlast⟩

namespace Run

theorem asKey_done (v : Value) (key : String) (s s' : State) :
    asKey v s = .done key s' ↔ v = .str key ∧ s = s' := by
  cases v with
  | str text => simp [asKey, pure_done]
  | _ => simp [asKey, fail_done]

theorem dictFields_done_iff (f : Expr → Run Value) (given fields : Bindings Value)
    (entries : List (Expr × Expr)) (s s' : State) :
    dictFields f given entries s = .done fields s' ↔
      ∃ pairs : Bindings Value, mapAll f (entries.flatMap fun e => [e.1, e.2]) s =
          .done (pairs.flatMap fun p => [.str p.1, p.2]) s' ∧ fields = given.setAll pairs := by
  induction entries generalizing given s with
  | nil =>
    simp only [dictFields, List.flatMap_nil, mapAll, pure_done]
    constructor
    · rintro ⟨rfl, rfl⟩
      exact ⟨[], ⟨rfl, rfl⟩, rfl⟩
    · rintro ⟨pairs, ⟨hpairs, rfl⟩, rfl⟩
      cases pairs with
      | nil => exact ⟨rfl, rfl⟩
      | cons => cases hpairs
  | cons entry rest ih =>
    simp only [dictFields, List.flatMap_cons, List.cons_append, List.nil_append, mapAll, bind_done,
      asKey_done, pure_done]
    constructor
    · rintro ⟨_, s₁, hkey, key, _, ⟨rfl, rfl⟩, v, s₂, hv, hrest⟩
      obtain ⟨pairs, hpairs, rfl⟩ := (ih _ _).mp hrest
      refine ⟨(key, v) :: pairs, ⟨_, s₁, hkey, _, s', ?_, rfl, rfl⟩, rfl⟩
      exact ⟨v, s₂, hv, _, s', hpairs, rfl, rfl⟩
    · rintro ⟨pairs, ⟨w, s₁, hkey, _, _, ⟨v, s₂, hv, vs, _, hvs, rfl, rfl⟩, hpairs, rfl⟩, rfl⟩
      cases pairs with
      | nil => cases hpairs
      | cons pair pairs =>
        cases hpairs
        exact ⟨_, s₁, hkey, pair.1, s₁, ⟨rfl, rfl⟩, pair.2, s₂, hv,
          (ih _ _).mpr ⟨pairs, hvs, rfl⟩⟩

theorem eval_dict_done_iff (rounds depth : Nat) (entries : List (Expr × Expr)) (v : Value)
    (s s' : State) :
    evalWithin rounds (depth + 1) (.dict entries) s = .done v s' ↔
      ∃ (pairs fields : Bindings Value),
        mapAll (evalWithin rounds depth) (entries.flatMap fun e => [e.1, e.2]) s =
          .done (pairs.flatMap fun p => [.str p.1, p.2]) s' ∧
        Collected pairs fields ∧ v = .dict fields := by
  change (dictFields (evalWithin rounds depth) [] entries >>= fun fields => pure (.dict fields)) s =
    .done v s' ↔ _
  simp only [bind_done, pure_done, dictFields_done_iff, collected_iff]
  constructor
  · rintro ⟨fields, _, ⟨pairs, hpairs, rfl⟩, rfl, rfl⟩
    exact ⟨pairs, _, hpairs, rfl, rfl⟩
  · rintro ⟨pairs, _, hpairs, rfl, rfl⟩
    exact ⟨_, s', ⟨pairs, hpairs, rfl⟩, rfl, rfl⟩

end Run

/-- Dicts have distinct keys: in every variable of every open call, wherever a session comes, and in
the value of every expression that is evaluated there. A literal has the keys of its entries in the
order in which they first occur, each with the last of its values, and evaluates all keys and values
once, as they are written. -/
theorem dict_keys_distinct :
    (∀ s, Session.Reachable s → s.All Value.Distinct ∧
      ∀ e v s', Run.Evaluates e s v s' → v.Distinct) ∧
    ∀ rounds depth entries v s s',
      Run.evalWithin rounds (depth + 1) (.dict entries) s = .done v s' ↔
        ∃ (pairs fields : Bindings Value),
          Run.mapAll (Run.evalWithin rounds depth) (entries.flatMap fun e => [e.1, e.2]) s =
            .done (pairs.flatMap fun p => [.str p.1, p.2]) s' ∧
          Collected pairs fields ∧ v = .dict fields := by
  constructor
  · intro s hs
    have hall := hs.all Value.inherited_distinct
    exact ⟨hall, fun e v s' h => (h.all Value.inherited_distinct hall).1⟩
  · exact Run.eval_dict_done_iff

/-- Puts a dict that it gets into another one. -/
def wrap : Function where
  params := ["d"]
  body := [.decl "e" (.dict [(.str "k", .int 1), (.str "k", .array [.var "d"])]), .ret (.var "e")]

/-- Both literals have a key twice. -/
def catalogue : Program where
  statements :=
    [.func "wrap" wrap.params wrap.body,
      .decl "x" (.call "wrap" [.dict [(.str "k", .int 1), (.str "k", .int 2)]])]

/-- What the program makes of its two literals. -/
def wrapped : Value := .dict [("k", .array [.dict [("k", .int 2)]])]

def cataloguing (locals : Locals) (callers : List Locals) : State :=
  { State.initial with functions := [("wrap", wrap)], locals, callers }

/-- The state inside the call, after the first statement of the function. -/
def wrapping : State := cataloguing [("d", .dict [("k", .int 2)]), ("e", wrapped)] [[]]

theorem catalogue_keys :
    Session.Reachable wrapping ∧ wrapping.All Value.Distinct ∧ wrapped.Distinct := by
  have hreach : Session.Reachable wrapping := by
    have hdeclare : Run.mapAll Run.declare catalogue.statements .initial =
        .done [(), ()] (cataloguing [] []) := rfl
    have hskip : Run.execTop ⟨0, 0⟩ (.func "wrap" wrap.params wrap.body) (cataloguing [] []) =
        .done .next (cataloguing [] []) := rfl
    have hargs : Run.mapAll (Run.eval ⟨3, 0⟩) [.dict [(.str "k", .int 1), (.str "k", .int 2)]]
        (cataloguing [] []) = .done [.dict [("k", .int 2)]] (cataloguing [] []) := rfl
    have hdecl : (Run.exec ⟨4, 0⟩
        (.decl "e" (.dict [(.str "k", .int 1), (.str "k", .array [.var "d"])]))
        (cataloguing [("d", .dict [("k", .int 2)])] [[]])).state? = some wrapping := rfl
    refine ⟨⟨0, 0⟩, [], .initial, rfl, .run catalogue, ?_⟩
    refine .within (.run hdeclare) (.within (.topOn hskip) (.within (.top rfl) ?_))
    exact .within (.subject rfl) (.within (.call rfl rfl hargs) (.within .first (.executed hdecl)))
  obtain ⟨hall, hvalue⟩ := dict_keys_distinct.1 wrapping hreach
  exact ⟨hreach, hall, hvalue (.var "e") wrapped wrapping ⟨⟨1, 0⟩, rfl⟩⟩

end Armature
