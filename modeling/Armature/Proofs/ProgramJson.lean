import Armature.Proofs.JsonText
import Armature.Syntax.Json

/-!
# Programs as JSON values

A program without floats is read back from its JSON value, if the budget allows for the arrays and
objects of that value. What is read within a budget can be written within the same budget.
-/

namespace Armature

variable {α : Type}

namespace Json

/-! ## Depth -/

mutual

/-- How many arrays and objects the text of a value opens at once. -/
def depth : Json → Nat
  | array items => depthOfItems items + 1
  | object members => depthOfMembers members + 1
  | _ => 0

def depthOfItems : List Json → Nat
  | [] => 0
  | v :: vs => max (depth v) (depthOfItems vs)

def depthOfMembers : List (JsonText × Json) → Nat
  | [] => 0
  | (_, v) :: members => max (depth v) (depthOfMembers members)

end

@[simp] theorem depth_ofText (text : String) : (ofText text).depth = 0 := rfl

@[simp] theorem depth_array (items : List Json) :
    (array items).depth = depthOfItems items + 1 := by
  rw [depth]

@[simp] theorem depth_ofMembers (members : List (String × Json)) :
    (ofMembers members).depth =
      depthOfMembers (members.map fun m => (some m.1, m.2)) + 1 := by
  rw [ofMembers, depth]

theorem exists_succ_of_ofMembers {b : Nat} {members : List (String × Json)}
    (h : (ofMembers members).depth ≤ b) : ∃ k, b = k + 1 := by
  rw [depth_ofMembers] at h
  exact ⟨b - 1, by omega⟩

@[simp] theorem depthOfMembers_nil : depthOfMembers [] = 0 := by
  rw [depthOfMembers]

@[simp] theorem depthOfMembers_cons (m : JsonText × Json) (members : List (JsonText × Json)) :
    depthOfMembers (m :: members) = max m.2.depth (depthOfMembers members) := by
  rw [depthOfMembers]

/-! ## Leaves and fields -/

theorem two?_object {a b : String} (h : a ≠ b) (x y : Json) :
    two? a b (object [(some a, x), (some b, y)]) = some (x, y) := by
  simp [two?, fields?, addField, h, h.symm]

theorem three?_object {a b c : String} (hab : a ≠ b) (hac : a ≠ c) (hbc : b ≠ c) (x y z : Json) :
    three? a b c (object [(some a, x), (some b, y), (some c, z)]) = some (x, y, z) := by
  simp [three?, fields?, addField, hab, hac, hbc, hab.symm, hac.symm, hbc.symm]

theorem asInt?_ofInt (i : Int64) : asInt? (number (.ofInt i.toInt)) = some i := by
  have hmin := i.minValue_le_toInt
  have hmax := i.toInt_le
  have hsigned : (if (Numeral.ofInt i.toInt).negative then -(i.toInt.natAbs : Int)
      else i.toInt.natAbs) = i.toInt := by
    simp only [Numeral.ofInt, decide_eq_true_eq]
    split <;> omega
  have hinteger : (Numeral.ofInt i.toInt).isInteger = true := rfl
  have hzero : ((Numeral.ofInt i.toInt).negative && i.toInt.natAbs = 0) = false := by
    simp only [Numeral.ofInt, Bool.and_eq_false_iff, decide_eq_false_iff_not]
    omega
  unfold asInt?
  simp only [Numeral.coefficient_ofInt, hsigned, hinteger, hzero]
  rw [if_neg, Int64.ofInt_toInt]
  simp only [Bool.not_true, Bool.or_false, Bool.false_or, Bool.or_eq_true, decide_eq_true_eq]
  omega

variable {b : Nat} {read : Json → Option α} {toJson : α → Json}

theorem mapM_map_toJson {xs : List α} (hdepth : depthOfItems (xs.map toJson) ≤ b)
    (hread : ∀ x ∈ xs, (toJson x).depth ≤ b → read (toJson x) = some x) :
    (xs.map toJson).mapM read = some xs := by
  induction xs with
  | nil => rfl
  | cons x xs ih =>
    rw [List.map_cons, depthOfItems, Nat.max_le] at hdepth
    have hx := hread x (by simp) hdepth.1
    have hxs := ih hdepth.2 fun y hy => hread y (List.mem_cons_of_mem x hy)
    simp [hx, hxs]

theorem itemsOf?_toJson {xs : List α} (hdepth : depthOfItems (xs.map toJson) ≤ b)
    (hread : ∀ x ∈ xs, (toJson x).depth ≤ b → read (toJson x) = some x) :
    (array (xs.map toJson)).itemsOf? read = some xs :=
  mapM_map_toJson hdepth hread

theorem depth_itemsOf? (hread : ∀ v x, read v = some x → (toJson x).depth ≤ b) {json : Json}
    {xs : List α} (hjson : json.itemsOf? read = some xs) : depthOfItems (xs.map toJson) ≤ b := by
  obtain ⟨items, -, h⟩ := Option.bind_eq_some_iff.1 hjson
  clear hjson
  induction items generalizing xs with
  | nil =>
    cases h
    simp [depthOfItems]
  | cons v items ih =>
    simp only [List.mapM_cons, bind, Option.bind_eq_some_iff, pure, Option.some.injEq] at h
    obtain ⟨x, hx, ys, hys, rfl⟩ := h
    rw [List.map_cons, depthOfItems, Nat.max_le]
    exact ⟨hread v x hx, ih hys⟩

@[simp] theorem depth_textsToJson (texts : List String) : (textsToJson texts).depth = 1 := by
  induction texts with
  | nil => rfl
  | cons text texts ih => simpa [textsToJson, depthOfItems] using ih

theorem listOf?_textsToJson (texts : List String) (h : 0 < b) :
    (textsToJson texts).listOf? b asText? = some texts := by
  have hopen := depth_textsToJson texts
  rw [textsToJson, depth_array] at hopen
  rw [listOf?, if_neg (Nat.ne_of_gt h)]
  exact itemsOf?_toJson (show _ ≤ 0 by omega) fun _ _ _ => rfl

theorem pos_of_listOf? {json : Json} {xs : List α} (h : json.listOf? b read = some xs) : 0 < b := by
  unfold listOf? at h
  split at h
  · cases h
  · omega

theorem exists_of_optional? {json : Option Json} {x : α} (h : optional? read json = some (some x)) :
    ∃ v, read v = some x := by
  unfold optional? at h
  split at h
  · cases h
  · cases h
  · obtain ⟨y, hy, hx⟩ := Option.map_eq_some_iff.1 h
    cases hx
    exact ⟨_, hy⟩

end Json

/-! ## Operators and parts -/

theorem BinaryOp.read?_ofText (b : Nat) (op : BinaryOp) :
    BinaryOp.read? b (Json.ofText op.name) = some op := by
  cases op <;> rfl

theorem UnaryOp.read?_ofText (b : Nat) (op : UnaryOp) :
    UnaryOp.read? b (Json.ofText op.name) = some op := by
  cases op <;> rfl

theorem Part.read?_toJson (b : Nat) (part : Part) (h : part.toJson.depth ≤ b) :
    Part.read? b part.toJson = some part := by
  cases part <;> simp [toJson] at h <;>
    simp [toJson, Json.ofMembers, Part.read?, Json.ofText, Json.asText?, Nat.ne_of_gt h]

theorem Part.depth_of_read? (b : Nat) (json : Json) (part : Part)
    (h : Part.read? b json = some part) : part.toJson.depth ≤ b := by
  unfold Part.read? at h
  split at h
  · split at h
    · cases h
    · cases part <;> simp [toJson] <;> omega
  · cases h

/-! ## Expressions -/

namespace Expr

open Json

mutual

def floatFree : Expr → Bool
  | float _ => false
  | int _ | str _ | bool _ | nil | var _ | interpolation _ => true
  | binary _ lhs rhs => lhs.floatFree && rhs.floatFree
  | unary _ operand => operand.floatFree
  | call _ args => allFloatFree args
  | array items => allFloatFree items
  | tuple items => allFloatFree items
  | dict entries => entriesFloatFree entries
  | index target position => target.floatFree && position.floatFree
  | input prompt => prompt.floatFree

def allFloatFree : List Expr → Bool
  | [] => true
  | e :: es => e.floatFree && allFloatFree es

def entriesFloatFree : List (Expr × Expr) → Bool
  | [] => true
  | (key, value) :: rest => key.floatFree && value.floatFree && entriesFloatFree rest

end

theorem listToJson_eq (es : List Expr) : listToJson es = es.map toJson := by
  induction es with
  | nil => rfl
  | cons e es ih => simp [listToJson, ih]

def entryToJson (entry : Expr × Expr) : Json :=
  ofMembers [("key", entry.1.toJson), ("value", entry.2.toJson)]

theorem entriesToJson_eq (entries : List (Expr × Expr)) :
    entriesToJson entries = entries.map entryToJson := by
  induction entries with
  | nil => rfl
  | cons e entries ih => simp [entriesToJson, entryToJson, ih]

theorem allFloatFree_iff (es : List Expr) :
    allFloatFree es = true ↔ ∀ e ∈ es, e.floatFree = true := by
  induction es with
  | nil => simp [allFloatFree]
  | cons e es ih => simp [allFloatFree, ih]

theorem entriesFloatFree_iff (entries : List (Expr × Expr)) :
    entriesFloatFree entries = true ↔
      ∀ e ∈ entries, e.1.floatFree = true ∧ e.2.floatFree = true := by
  induction entries with
  | nil => simp [entriesFloatFree]
  | cons e entries ih => simp [entriesFloatFree, ih, and_assoc]

section

variable {b : Nat} {read : Json → Option Expr} {v : Json} {e : Expr}

theorem readPair?_toJson (entry : Expr × Expr)
    (hread : ∀ e : Expr, e.floatFree = true → e.toJson.depth ≤ b → read e.toJson = some e)
    (hfree : entry.1.floatFree = true ∧ entry.2.floatFree = true)
    (h : (entryToJson entry).depth ≤ b + 1) : readPair? read (entryToJson entry) = some entry := by
  simp [entryToJson] at h
  have hkey := hread entry.1 hfree.1 (by omega)
  have hvalue := hread entry.2 hfree.2 (by omega)
  simp [entryToJson, ofMembers, readPair?, two?_object, hkey, hvalue]

variable (hread : ∀ v e, read v = some e → e.toJson.depth ≤ b)

include hread

theorem depth_readBinary? (h : readBinary? b read v = some e) : e.toJson.depth ≤ b + 2 := by
  simp [readBinary?, Option.bind_eq_some_iff] at h
  obtain ⟨_, _, _, _, op, _, lhs, hlhs, rhs, hrhs, rfl⟩ := h
  have hl := hread _ _ hlhs
  have hr := hread _ _ hrhs
  simp [toJson]
  omega

theorem depth_readUnary? (h : readUnary? b read v = some e) : e.toJson.depth ≤ b + 2 := by
  simp [readUnary?, Option.bind_eq_some_iff] at h
  obtain ⟨_, _, _, op, _, operand, hoperand, rfl⟩ := h
  have hdepth := hread _ _ hoperand
  simp [toJson]
  omega

theorem depth_readCall? (h : readCall? read v = some e) : e.toJson.depth ≤ b + 3 := by
  simp [readCall?, Option.bind_eq_some_iff] at h
  obtain ⟨_, _, _, name, _, args, hargs, rfl⟩ := h
  have hdepth := depth_itemsOf? hread hargs
  simp [toJson, listToJson_eq]
  omega

theorem depth_readPair? {entry : Expr × Expr} (h : readPair? read v = some entry) :
    (entryToJson entry).depth ≤ b + 1 := by
  simp [readPair?, Option.bind_eq_some_iff] at h
  obtain ⟨_, _, _, key, hkey, value, hvalue, rfl⟩ := h
  have h₁ := hread _ _ hkey
  have h₂ := hread _ _ hvalue
  simp [entryToJson]
  omega

theorem depth_readIndex? (h : readIndex? read v = some e) : e.toJson.depth ≤ b + 2 := by
  simp [readIndex?, Option.bind_eq_some_iff] at h
  obtain ⟨_, _, _, target, htarget, position, hposition, rfl⟩ := h
  have ht := hread _ _ htarget
  have hp := hread _ _ hposition
  simp [toJson]
  omega

omit hread

theorem depth_of_items {read : Json → Option α} {item : α → Json} {make : List α → Expr}
    (hmake : ∀ xs, (make xs).toJson.depth = depthOfItems (xs.map item) + 2)
    (hread : ∀ v x, read v = some x → (item x).depth ≤ b)
    (h : (v.itemsOf? read).map make = some e) : e.toJson.depth ≤ b + 2 := by
  obtain ⟨xs, hxs, rfl⟩ := Option.map_eq_some_iff.1 h
  have hdepth := depth_itemsOf? hread hxs
  rw [hmake]
  omega

theorem depth_array (items : List Expr) :
    (array items).toJson.depth = depthOfItems (items.map toJson) + 2 := by
  simp [toJson, listToJson_eq]

theorem depth_tuple (items : List Expr) :
    (tuple items).toJson.depth = depthOfItems (items.map toJson) + 2 := by
  simp [toJson, listToJson_eq]

theorem depth_dict (entries : List (Expr × Expr)) :
    (dict entries).toJson.depth = depthOfItems (entries.map entryToJson) + 2 := by
  simp [toJson, entriesToJson_eq]

theorem depth_interpolation (parts : List Part) :
    (interpolation parts).toJson.depth = depthOfItems (parts.map Part.toJson) + 2 := by
  simp [toJson]

theorem depth_of_leaf {x : Option α} {make : α → Expr} (hmake : ∀ a, (make a).toJson.depth = 1)
    (h : x.map make = some e) : e.toJson.depth ≤ b + 1 := by
  obtain ⟨a, -, rfl⟩ := Option.map_eq_some_iff.1 h
  have := hmake a
  omega

theorem depth_float (x : Double) : (float x).toJson.depth = 1 := by
  cases hx : x.toNumeral? <;> simp [toJson, depth, hx]

end

theorem read?_toJson (b : Nat) (e : Expr) (hfree : e.floatFree = true) (h : e.toJson.depth ≤ b) :
    Expr.read? b e.toJson = some e := by
  -- The induction is on the budget: every expression inside is read with a smaller one.
  induction b using Nat.strongRecOn generalizing e with
  | ind b ih =>
    cases e with
    | nil => simp [toJson, ofText, read?]
    | float x => simp [floatFree] at hfree
    | int i =>
      obtain ⟨b, rfl⟩ := exists_succ_of_ofMembers h
      simp [toJson, ofMembers, read?, asInt?_ofInt]
    | str text | bool value | var name =>
      obtain ⟨b, rfl⟩ := exists_succ_of_ofMembers h
      simp [toJson, ofMembers, read?, ofText, asText?, asBool?]
    | binary op lhs rhs =>
      simp [toJson] at h
      obtain ⟨b, rfl⟩ : ∃ k, b = k + 2 := ⟨b - 2, by omega⟩
      simp [floatFree] at hfree
      have hlhs := ih b (by omega) lhs hfree.1 (by omega)
      have hrhs := ih b (by omega) rhs hfree.2 (by omega)
      simp [toJson, ofMembers, read?, readBinary?, three?_object, BinaryOp.read?_ofText, hlhs, hrhs]
    | unary op operand =>
      simp [toJson] at h
      obtain ⟨b, rfl⟩ : ∃ k, b = k + 2 := ⟨b - 2, by omega⟩
      have hoperand := ih b (by omega) operand hfree (by omega)
      simp [toJson, ofMembers, read?, readUnary?, two?_object, UnaryOp.read?_ofText, hoperand]
    | call name args =>
      simp [toJson, listToJson_eq] at h
      obtain ⟨b, rfl⟩ : ∃ k, b = k + 3 := ⟨b - 3, by omega⟩
      have hargs := itemsOf?_toJson (show depthOfItems (args.map toJson) ≤ b by omega)
        fun e he => ih b (by omega) e ((allFloatFree_iff args).1 hfree e he)
      simp [toJson, listToJson_eq, ofMembers, read?, readCall?, two?_object, ofText, asText?, hargs]
    | array items | tuple items =>
      simp [toJson, listToJson_eq] at h
      obtain ⟨b, rfl⟩ : ∃ k, b = k + 2 := ⟨b - 2, by omega⟩
      have hitems := itemsOf?_toJson (show depthOfItems (items.map toJson) ≤ b by omega)
        fun e he => ih b (by omega) e ((allFloatFree_iff items).1 hfree e he)
      simp [toJson, listToJson_eq, ofMembers, read?, hitems]
    | dict entries =>
      simp [toJson, entriesToJson_eq] at h
      cases entries with
      | nil =>
        obtain ⟨b, rfl⟩ : ∃ k, b = k + 2 := ⟨b - 2, by omega⟩
        cases b <;> simp [toJson, entriesToJson, ofMembers, read?, itemsOf?, items?]
      | cons entry entries =>
        have hopen : 3 ≤ b := by
          simp [depthOfItems, entryToJson] at h
          omega
        obtain ⟨b, rfl⟩ : ∃ k, b = k + 3 := ⟨b - 3, by omega⟩
        have hentries := itemsOf?_toJson (show _ ≤ b + 1 by omega) fun e he =>
          readPair?_toJson e (ih b (by omega)) ((entriesFloatFree_iff _).1 hfree e he)
        simp only [toJson, entriesToJson_eq, ofMembers, List.map_cons, List.map_nil, read?]
        exact congrArg (Option.map dict) hentries
    | index target position =>
      simp [toJson] at h
      obtain ⟨b, rfl⟩ : ∃ k, b = k + 2 := ⟨b - 2, by omega⟩
      simp [floatFree] at hfree
      have htarget := ih b (by omega) target hfree.1 (by omega)
      have hposition := ih b (by omega) position hfree.2 (by omega)
      simp [toJson, ofMembers, read?, readIndex?, two?_object, htarget, hposition]
    | interpolation parts =>
      simp [toJson] at h
      obtain ⟨b, rfl⟩ : ∃ k, b = k + 2 := ⟨b - 2, by omega⟩
      have hparts := itemsOf?_toJson (show depthOfItems (parts.map Part.toJson) ≤ b by omega)
        fun p _ => Part.read?_toJson b p
      simp [toJson, ofMembers, read?, hparts]
    | input prompt =>
      simp [toJson] at h
      obtain ⟨b, rfl⟩ : ∃ k, b = k + 1 := ⟨b - 1, by omega⟩
      have hprompt := ih b (by omega) prompt hfree (by omega)
      simp [toJson, ofMembers, read?, hprompt]

/-- However an expression was spelled, its own value needs no larger budget. -/
theorem depth_of_read? (b : Nat) (j : Json) (e : Expr) (h : Expr.read? b j = some e) :
    e.toJson.depth ≤ b := by
  induction b using Nat.strongRecOn generalizing j e with
  | ind b ih =>
    unfold read? at h
    split at h
    · split at h <;> cases h
      simp [toJson]
    · rename_i b tag v
      split at h
      · split at h <;> cases h
        simp [toJson]
      · exact depth_of_leaf (fun i => by simp [toJson, depth]) h
      · exact depth_of_leaf depth_float h
      · exact depth_of_leaf (fun text => by simp [toJson]) h
      · exact depth_of_leaf (fun value => by simp [toJson, depth]) h
      · exact depth_of_leaf (fun name => by simp [toJson]) h
      · obtain ⟨prompt, hprompt, rfl⟩ := Option.map_eq_some_iff.1 h
        simpa [toJson] using ih b (by omega) _ _ hprompt
      · split at h
        · cases h
        · rename_i b
          have hread := ih b (by omega)
          split at h
          · exact depth_readBinary? hread h
          · exact depth_readUnary? hread h
          · split at h
            · cases h
            · exact depth_readCall? (ih _ (by omega)) h
          · exact depth_of_items depth_array hread h
          · exact depth_of_items depth_tuple hread h
          · split at h
            · exact depth_of_items depth_dict (fun v entry h => by cases h) h
            · exact depth_of_items depth_dict (fun v entry => depth_readPair? (ih _ (by omega))) h
          · exact depth_readIndex? hread h
          · exact depth_of_items depth_interpolation (Part.depth_of_read? b) h
          · cases h
    · cases h

end Expr

namespace Range

open Json

def floatFree : Range → Bool
  | counted start stop => start.floatFree && stop.floatFree
  | collection items => items.floatFree
  | condition test => test.floatFree

theorem read?_toJson (b : Nat) (range : Range) (hfree : range.floatFree = true)
    (h : range.toJson.depth ≤ b) : Range.read? b range.toJson = some range := by
  cases range with
  | counted start stop =>
    simp [toJson] at h
    obtain ⟨b, rfl⟩ : ∃ k, b = k + 2 := ⟨b - 2, by omega⟩
    simp [floatFree] at hfree
    have hstart := start.read?_toJson b hfree.1 (by omega)
    have hstop := stop.read?_toJson b hfree.2 (by omega)
    simp [toJson, ofMembers, read?, two?_object, hstart, hstop]
  | collection items =>
    simp [toJson] at h
    obtain ⟨b, rfl⟩ : ∃ k, b = k + 1 := ⟨b - 1, by omega⟩
    simp [toJson, ofMembers, read?, items.read?_toJson b hfree (by omega)]
  | condition test =>
    simp [toJson] at h
    obtain ⟨b, rfl⟩ : ∃ k, b = k + 1 := ⟨b - 1, by omega⟩
    simp [toJson, ofMembers, read?, test.read?_toJson b hfree (by omega)]

theorem depth_of_read? (b : Nat) (json : Json) (range : Range)
    (h : Range.read? b json = some range) : range.toJson.depth ≤ b := by
  unfold read? at h
  split at h
  · rename_i b tag v
    split at h
    · split at h
      · cases h
      · simp [Option.bind_eq_some_iff] at h
        obtain ⟨_, _, _, start, hstart, stop, hstop, rfl⟩ := h
        have h₁ := Expr.depth_of_read? _ _ _ hstart
        have h₂ := Expr.depth_of_read? _ _ _ hstop
        simp [toJson]
        omega
    · obtain ⟨items, hitems, rfl⟩ := Option.map_eq_some_iff.1 h
      simpa [toJson] using Expr.depth_of_read? _ _ _ hitems
    · obtain ⟨test, htest, rfl⟩ := Option.map_eq_some_iff.1 h
      simpa [toJson] using Expr.depth_of_read? _ _ _ htest
    · cases h
  · cases h

end Range

/-! ## Statements -/

namespace Stmt

open Json

mutual

def floatFree : Stmt → Bool
  | print value | decl _ value | ret value | throw value | expr value => value.floatFree
  | loop _ range body => range.floatFree && allFloatFree body
  | cond test thenBody none => test.floatFree && allFloatFree thenBody
  | cond test thenBody (some elseBody) =>
    test.floatFree && allFloatFree thenBody && allFloatFree elseBody
  | func _ _ body => allFloatFree body
  | enum .. => true
  | tryCatch body handler => allFloatFree body && allFloatFree handler

def allFloatFree : List Stmt → Bool
  | [] => true
  | s :: ss => s.floatFree && allFloatFree ss

end

theorem listToJson_eq (ss : List Stmt) : listToJson ss = ss.map toJson := by
  induction ss with
  | nil => rfl
  | cons s ss ih => simp [listToJson, ih]

theorem allFloatFree_iff (ss : List Stmt) :
    allFloatFree ss = true ↔ ∀ s ∈ ss, s.floatFree = true := by
  induction ss with
  | nil => simp [allFloatFree]
  | cons s ss ih => simp [allFloatFree, ih]

section

variable {b : Nat} {read : Json → Option Stmt} {v : Json} {s : Stmt}

theorem depth_readDecl? (h : readDecl? b v = some s) : s.toJson.depth ≤ b + 2 := by
  simp [readDecl?, Option.bind_eq_some_iff] at h
  obtain ⟨_, _, _, name, _, value, hvalue, rfl⟩ := h
  have hdepth := Expr.depth_of_read? _ _ _ hvalue
  simp [toJson]
  omega

theorem depth_readEnum? (h : readEnum? b v = some s) : s.toJson.depth ≤ b + 2 := by
  simp [readEnum?, Option.bind_eq_some_iff] at h
  obtain ⟨_, _, _, name, _, cases, hcases, rfl⟩ := h
  have hopen := pos_of_listOf? hcases
  simp [toJson]
  omega

variable (hread : ∀ v s, read v = some s → s.toJson.depth ≤ b)

include hread

theorem depth_readLoop? (h : readLoop? (b + 1) read v = some s) : s.toJson.depth ≤ b + 3 := by
  simp [readLoop?, Option.bind_eq_some_iff] at h
  obtain ⟨_, _, _, _, var, _, range, hrange, body, hbody, rfl⟩ := h
  have h₁ := Range.depth_of_read? _ _ _ hrange
  have h₂ := depth_itemsOf? hread hbody
  simp [toJson, listToJson_eq]
  omega

theorem depth_readCond? (h : readCond? (b + 1) read v = some s) : s.toJson.depth ≤ b + 3 := by
  obtain ⟨fields, -, h⟩ := Option.bind_eq_some_iff.1 h
  split at h
  · simp [Option.bind_eq_some_iff] at h
    obtain ⟨test, htest, thenBody, hthen, elseBody, helse, rfl⟩ := h
    have h₁ := Expr.depth_of_read? _ _ _ htest
    have h₂ := depth_itemsOf? hread hthen
    cases elseBody with
    | none =>
      simp [toJson, listToJson_eq]
      omega
    | some elseBody =>
      obtain ⟨v, hv⟩ := exists_of_optional? helse
      have h₃ := depth_itemsOf? hread hv
      simp [toJson, listToJson_eq]
      omega
  · cases h

theorem depth_readFunc? (h : readFunc? (b + 1) read v = some s) : s.toJson.depth ≤ b + 3 := by
  simp [readFunc?, Option.bind_eq_some_iff] at h
  obtain ⟨_, _, _, _, name, _, params, hparams, body, hbody, rfl⟩ := h
  have hdepth := depth_itemsOf? hread hbody
  simp [toJson, listToJson_eq]
  omega

theorem depth_readTry? (h : readTry? read v = some s) : s.toJson.depth ≤ b + 3 := by
  simp [readTry?, Option.bind_eq_some_iff] at h
  obtain ⟨_, _, _, body, hbody, handler, hhandler, rfl⟩ := h
  have h₁ := depth_itemsOf? hread hbody
  have h₂ := depth_itemsOf? hread hhandler
  simp [toJson, listToJson_eq]
  omega

omit hread

theorem depth_of_simple {b : Nat} {make : Expr → Stmt}
    (hmake : ∀ e, (make e).toJson.depth = e.toJson.depth + 1)
    (h : (Expr.read? b v).map make = some s) : s.toJson.depth ≤ b + 1 := by
  obtain ⟨value, hvalue, rfl⟩ := Option.map_eq_some_iff.1 h
  rw [hmake]
  exact Nat.succ_le_succ (Expr.depth_of_read? _ _ _ hvalue)

end

theorem read?_toJson (b : Nat) (s : Stmt) (hfree : s.floatFree = true) (h : s.toJson.depth ≤ b) :
    Stmt.read? b s.toJson = some s := by
  induction b using Nat.strongRecOn generalizing s with
  | ind b ih =>
    have hblock {k : Nat} (hk : k < b) {ss : List Stmt} (hss : allFloatFree ss = true)
        (h : depthOfItems (ss.map toJson) ≤ k) :
        (Json.array (ss.map toJson)).itemsOf? (Stmt.read? k) = some ss :=
      itemsOf?_toJson h fun s hs => ih k hk s ((allFloatFree_iff ss).1 hss s hs)
    cases s with
    | print value | ret value | throw value | expr value =>
      simp [toJson] at h
      obtain ⟨b, rfl⟩ : ∃ k, b = k + 1 := ⟨b - 1, by omega⟩
      simp [toJson, ofMembers, read?, value.read?_toJson b hfree (by omega)]
    | decl name value =>
      simp [toJson] at h
      obtain ⟨b, rfl⟩ : ∃ k, b = k + 2 := ⟨b - 2, by omega⟩
      have hvalue := value.read?_toJson b hfree (by omega)
      simp [toJson, ofMembers, read?, readDecl?, two?_object, ofText, asText?, hvalue]
    | loop var range body =>
      simp [toJson, listToJson_eq] at h
      obtain ⟨b, rfl⟩ : ∃ k, b = k + 3 := ⟨b - 3, by omega⟩
      simp [floatFree] at hfree
      have hrange := range.read?_toJson (b + 1) hfree.1 (by omega)
      have hbody := hblock (show b < b + 3 by omega) hfree.2 (by omega)
      simp [toJson, listToJson_eq, ofMembers, read?, readLoop?, three?_object, ofText, asText?,
        hrange, hbody]
    | cond test thenBody elseBody =>
      cases elseBody with
      | none =>
        simp [toJson, listToJson_eq] at h
        obtain ⟨b, rfl⟩ : ∃ k, b = k + 3 := ⟨b - 3, by omega⟩
        simp [floatFree] at hfree
        have htest := test.read?_toJson (b + 1) hfree.1 (by omega)
        have hthen := hblock (show b < b + 3 by omega) hfree.2 (by omega)
        simp [toJson, listToJson_eq, ofMembers, read?, readCond?, fields?, addField, optional?,
          htest, hthen]
      | some elseBody =>
        simp [toJson, listToJson_eq] at h
        obtain ⟨b, rfl⟩ : ∃ k, b = k + 3 := ⟨b - 3, by omega⟩
        simp [floatFree] at hfree
        have htest := test.read?_toJson (b + 1) hfree.1.1 (by omega)
        have hthen := hblock (show b < b + 3 by omega) hfree.1.2 (by omega)
        have helse := hblock (show b < b + 3 by omega) hfree.2 (by omega)
        simp [toJson, listToJson_eq, ofMembers, read?, readCond?, fields?, addField, optional?,
          htest, hthen, helse]
    | func name params body =>
      simp [toJson, listToJson_eq] at h
      obtain ⟨b, rfl⟩ : ∃ k, b = k + 3 := ⟨b - 3, by omega⟩
      have hparams := listOf?_textsToJson params (show 0 < b + 1 by omega)
      have hbody := hblock (show b < b + 3 by omega) hfree (by omega)
      simp [toJson, listToJson_eq, ofMembers, read?, readFunc?, three?_object, ofText, asText?,
        hparams, hbody]
    | enum name cases =>
      simp [toJson] at h
      obtain ⟨b, rfl⟩ : ∃ k, b = k + 2 := ⟨b - 2, by omega⟩
      have hcases := listOf?_textsToJson cases (show 0 < b by omega)
      simp [toJson, ofMembers, read?, readEnum?, two?_object, ofText, asText?, hcases]
    | tryCatch body handler =>
      simp [toJson, listToJson_eq] at h
      obtain ⟨b, rfl⟩ : ∃ k, b = k + 3 := ⟨b - 3, by omega⟩
      simp [floatFree] at hfree
      have hbody := hblock (show b < b + 3 by omega) hfree.1 (by omega)
      have hhandler := hblock (show b < b + 3 by omega) hfree.2 (by omega)
      simp [toJson, listToJson_eq, ofMembers, read?, readTry?, two?_object, hbody, hhandler]

theorem depth_of_read? (b : Nat) (j : Json) (s : Stmt) (h : Stmt.read? b j = some s) :
    s.toJson.depth ≤ b := by
  induction b using Nat.strongRecOn generalizing j s with
  | ind b ih =>
    unfold read? at h
    split at h
    · split at h
      · exact depth_of_simple (fun e => by simp [toJson]) h
      · exact depth_of_simple (fun e => by simp [toJson]) h
      · exact depth_of_simple (fun e => by simp [toJson]) h
      · exact depth_of_simple (fun e => by simp [toJson]) h
      · split at h
        · cases h
        · split at h
          · exact depth_readDecl? h
          · exact depth_readEnum? h
          · split at h
            · cases h
            · rename_i b
              have hread := ih b (by omega)
              split at h
              · exact depth_readLoop? hread h
              · exact depth_readCond? hread h
              · exact depth_readFunc? hread h
              · exact depth_readTry? hread h
              · cases h
    · cases h

end Stmt

/-! ## Programs -/

namespace Program

open Json

def floatFree (p : Program) : Bool := Stmt.allFloatFree p.statements

theorem ofJson?_toJson (p : Program) (hfree : p.floatFree = true) (h : p.toJson.depth ≤ openLimit) :
    ofJson? p.toJson = some p := by
  simp [toJson, Stmt.listToJson_eq] at h
  have hstatements := itemsOf?_toJson
    (show depthOfItems (p.statements.map Stmt.toJson) ≤ openLimit - 2 by omega)
    fun s hs => s.read?_toJson (openLimit - 2) ((Stmt.allFloatFree_iff _).1 hfree s hs)
  have hlist : listOf? (openLimit - 1) (Stmt.read? (openLimit - 2))
      (.array (p.statements.map Stmt.toJson)) = some p.statements := by
    rw [listOf?, if_neg (by decide)]
    exact hstatements
  simp [toJson, Stmt.listToJson_eq, ofMembers, ofJson?, fields?, addField, hlist]

theorem depth_of_ofJson? (json : Json) (p : Program) (h : ofJson? json = some p) :
    p.toJson.depth ≤ openLimit := by
  unfold ofJson? at h
  split at h
  · rename_i body _
    obtain ⟨statements, hlist, rfl⟩ := Option.map_eq_some_iff.1 h
    rw [listOf?, if_neg (by decide)] at hlist
    have hdepth := depth_itemsOf? (Stmt.depth_of_read? (openLimit - 2)) hlist
    simp [toJson, Stmt.listToJson_eq, openLimit] at hdepth ⊢
    omega
  · cases h

end Program

end Armature
