/-
Formula/Proofs/Glossary.lean

A dictionary is one map.  Its three tables never hold the same label twice, and none of them
holds a predefined label; so they are the three views of one glossary (`Views`).  Every update
of a dictionary looks at several tables, in an order of its own, before it changes one; the
same update of the glossary looks at one entry.  They are refused together and for the same
reason, and otherwise lead to views again (`Agree`), one lemma for each update.

Main statement: `performAll_eq_glossary`.
-/
import Formula.Glossary
import Formula.Proofs.Labels
import Formula.Proofs.Updates

namespace Formula

variable {V ω : Type}

/-! ### Views -/

/-- The table holds under every label what one view tells of its entry. -/
def Table.Shows {α : Type} (t : Table α) (view : Entry V ω → Option α) (G : Glossary V ω) : Prop :=
  ∀ l, t.get? l = (G.entry l).bind view

namespace Table.Shows

variable {α : Type} {t : Table α} {view : Entry V ω → Option α} {G : Glossary V ω}
  {label : String}

theorem insert (h : t.Shows view G) (hplain : isPredefined label = false) {e : Entry V ω} {a : α}
    (he : view e = some a) : (t.insert label a).Shows view (G.give label hplain e) := by
  intro l
  rw [get?_insert, Glossary.give_entry]
  split
  · exact he.symm
  · exact h l

theorem erase (h : t.Shows view G) : (t.erase label).Shows view (G.forget label) := by
  intro l
  rw [get?_erase, Glossary.forget_entry]
  split
  · rfl
  · exact h l

/-- A table stays as it is where its view tells nothing of the old entry and of the new one. -/
theorem give (h : t.Shows view G) (hplain : isPredefined label = false) {e : Entry V ω}
    (hold : (G.entry label).bind view = none) (he : view e = none) :
    t.Shows view (G.give label hplain e) := by
  intro l
  rw [Glossary.give_entry]
  split
  · next heq => rw [h l, heq, hold, Option.bind_some, he]
  · exact h l

theorem forget (h : t.Shows view G) (hold : (G.entry label).bind view = none) :
    t.Shows view (G.forget label) := by
  intro l
  rw [Glossary.forget_entry]
  split
  · next heq => rw [h l, heq, hold, Option.bind_none]
  · exact h l

end Table.Shows

namespace Dictionary

/-- The three tables are the views of the glossary. -/
structure Views (D : Dictionary V ω) (G : Glossary V ω) : Prop where
  operators : D.operators.Shows Entry.slots? G
  functions : D.functions.Shows Entry.function? G
  constants : D.constants.Shows Entry.constant? G

/-- An update of a dictionary and one of a glossary are both refused, for the same reason, or
lead to a glossary and to its views. -/
inductive Agree : Except Objection (Dictionary V ω) → Except Objection (Glossary V ω) → Prop
  | refused (r : Objection) : Agree (.error r) (.error r)
  | done {D : Dictionary V ω} {G : Glossary V ω} : D.Views G → Agree (.ok D) (.ok G)

section

variable {D : Dictionary V ω} {G : Glossary V ω}

theorem views_empty : (empty : Dictionary V ω).Views .empty :=
  ⟨fun _ => rfl, fun _ => rfl, fun _ => rfl⟩

/-- The tables that hold a label. -/
theorem Views.contains (h : D.Views G) (label : String) :
    D.operators.contains label = ((G.entry label).bind Entry.slots?).isSome ∧
      D.functions.contains label = ((G.entry label).bind Entry.function?).isSome ∧
        D.constants.contains label = ((G.entry label).bind Entry.constant?).isSome := by
  simp only [Table.contains_eq_isSome, h.operators label, h.functions label, h.constants label,
    and_self]

/-- The slots of a label without operators are free. -/
theorem Views.slots (h : D.Views G) (label : String) :
    D.slots label = ((G.entry label).bind Entry.slots?).getD {} := by
  rw [Dictionary.slots, h.operators label]

/-! ### Updates -/

/-- Operators go to a label without a function and without a constant. -/
theorem Views.giveOperators (h : D.Views G) {label : String} (hplain : isPredefined label = false)
    (hfunction : (G.entry label).bind Entry.function? = none)
    (hconstant : (G.entry label).bind Entry.constant? = none) (s : Slots ω) (hs : s ≠ {}) :
    Views { D with operators := D.operators.insert label s }
      (G.give label hplain (.operators s hs)) :=
  ⟨h.operators.insert hplain rfl, h.functions.give hplain hfunction rfl,
    h.constants.give hplain hconstant rfl⟩

theorem Views.registerOperator (h : D.Views G) (op : Placed (Operator ω)) :
    Agree ((D.registerOperator op).mapError fun e => .error e.kind) (G.registerOperator op) := by
  rw [Dictionary.registerOperator, operatorObstacle, Glossary.registerOperator]
  by_cases hvalid : isOperatorLabel op.item.label.toList = true
  · by_cases hplain : isPredefined op.item.label = true
    · simp only [hvalid, hplain]
      exact .refused _
    · rw [Bool.not_eq_true] at hplain
      have hgive := h.giveOperators hplain
      simp only [hvalid, hplain, h.contains, h.slots]
      cases hentry : G.entry op.item.label with
      | none =>
        rw [hentry] at hgive
        simp only [Option.bind_none, Option.getD_none, Slots.get_empty]
        exact .done (hgive rfl rfl _ _)
      | some e =>
        rw [hentry] at hgive
        cases e with
        | function f => exact .refused _
        | constant v => exact .refused _
        | operators s hs =>
          simp only [Option.bind_some, Entry.slots?, Option.getD_some]
          by_cases htaken : (s.get op.item.slot).isSome = true
          · simp only [htaken]
            exact .refused _
          · simp only [htaken]
            exact .done (hgive rfl rfl _ _)
  · simp only [hvalid]
    exact .refused _

/-- A function is given to a name without an entry. -/
theorem Views.registerFunction (h : D.Views G) (f : Placed (Function ω)) :
    Agree ((D.registerFunction f).mapError fun e => .error e.kind) (G.registerFunction f) := by
  rw [Dictionary.registerFunction, functionObstacle, Glossary.registerFunction]
  by_cases hcount : f.item.parameters < anyNumber
  · rw [if_pos hcount, if_pos hcount]
    exact .refused _
  rw [if_neg hcount, if_neg hcount]
  by_cases hname : isName f.item.label.toList = true
  · have hplain := isPredefined_of_isName hname
    simp only [hname, hplain, h.contains]
    cases hentry : G.entry f.item.label with
    | none =>
      exact .done ⟨h.operators.give hplain (by rw [hentry]; rfl) rfl,
        h.functions.insert hplain rfl, h.constants.give hplain (by rw [hentry]; rfl) rfl⟩
    | some e => cases e <;> exact .refused _
  · simp only [hname]
    exact .refused _

theorem Views.addConstant (h : D.Views G) (label : String) (value : V) :
    Agree ((D.addConstant label value).mapError fun e => .error e.kind)
      (G.addConstant label value) := by
  rw [Dictionary.addConstant, constantObstacle, Glossary.addConstant]
  by_cases hname : isName label.toList = true
  · have hplain := isPredefined_of_isName hname
    simp only [hname, hplain, h.contains]
    cases hentry : G.entry label with
    | none =>
      exact .done ⟨h.operators.give hplain (by rw [hentry]; rfl) rfl,
        h.functions.give hplain (by rw [hentry]; rfl) rfl, h.constants.insert hplain rfl⟩
    | some e => cases e <;> exact .refused _
  · simp only [hname]
    exact .refused _

theorem Views.unregister (h : D.Views G) (label : String) :
    Agree ((D.unregister label).mapError fun e => .error e.kind) (G.unregister label) := by
  rw [Dictionary.unregister, Glossary.unregister]
  by_cases hplain : isPredefined label = true
  · rw [if_pos hplain, if_pos hplain]
    exact .refused _
  rw [if_neg hplain, if_neg hplain]
  simp only [h.contains]
  cases hentry : G.entry label with
  | none => exact .refused _
  | some e =>
    cases e with
    | function f =>
      exact .done ⟨h.operators.forget (by rw [hentry]; rfl), h.functions.erase,
        h.constants.forget (by rw [hentry]; rfl)⟩
    | constant v => exact .refused _
    | operators s hs =>
      exact .done ⟨h.operators.erase, h.functions.forget (by rw [hentry]; rfl),
        h.constants.forget (by rw [hentry]; rfl)⟩

theorem Views.removeConstant (h : D.Views G) (label : String) :
    Agree ((D.removeConstant label).mapError fun e => .error e.kind)
      (G.removeConstant label) := by
  rw [Dictionary.removeConstant, Glossary.removeConstant]
  simp only [h.contains]
  cases hentry : G.entry label with
  | none => exact .refused _
  | some e =>
    cases e with
    | constant v =>
      exact .done ⟨h.operators.forget (by rw [hentry]; rfl),
        h.functions.forget (by rw [hentry]; rfl), h.constants.erase⟩
    | function f => exact .refused _
    | operators s hs => exact .refused _

/-! ### Calls -/

theorem mapError_mapError {α β γ δ : Type} (x : Except α δ) (f : α → β) (g : β → γ) :
    (x.mapError f).mapError g = x.mapError fun a => g (f a) := by
  cases x <;> rfl

/-- The dictionary and the glossary agree on every call. -/
theorem Views.perform (h : D.Views G) (call : Call V ω) :
    Agree (D.perform call) (G.perform call) := by
  cases call with
  | register token =>
    obtain ⟨l, p⟩ := token
    cases l with
    | operator op =>
      rw [Dictionary.perform, register, mapError_mapError]
      exact h.registerOperator ⟨op, p⟩
    | function f =>
      rw [Dictionary.perform, register, mapError_mapError]
      exact h.registerFunction ⟨f, p⟩
    | _ => exact .refused .unfit
  | unregister label => exact h.unregister label
  | addConstant label value => exact h.addConstant label value
  | removeConstant label => exact h.removeConstant label

/-- They agree on every sequence of calls. -/
theorem Views.performAll (h : D.Views G) (calls : List (Call V ω)) :
    (performAll Dictionary.perform D calls).1 = (performAll Glossary.perform G calls).1 ∧
      (performAll Dictionary.perform D calls).2.Views (performAll Glossary.perform G calls).2 := by
  induction calls generalizing D G with
  | nil => exact ⟨rfl, h⟩
  | cons call calls ih =>
    have hcall := h.perform call
    rw [Formula.performAll, Formula.performAll]
    generalize D.perform call = d at hcall ⊢
    generalize G.perform call = g at hcall ⊢
    cases hcall with
    | refused r => exact ⟨congrArg (some r :: ·) (ih h).1, (ih h).2⟩
    | done h' => exact ⟨congrArg (none :: ·) (ih h').1, (ih h').2⟩

/-! ### Answers -/

theorem Views.lookup (h : D.Views G) (label : String) : D.lookup label = G.lookup label := by
  simp only [Dictionary.lookup, Glossary.lookup, h.contains]
  cases hplain : isPredefined label with
  | true => rfl
  | false =>
    cases G.entry label with
    | none => rfl
    | some e => cases e <;> rfl

theorem Views.operator? (h : D.Views G) (label : String) (slot : Slot) :
    D.operator? label slot = G.operator? label slot := by
  rw [Dictionary.operator?, h.operators label]
  rfl

/-- The labels are the only list of what the glossary lists. -/
theorem Views.labels (h : D.Views G) (ls : List String) : G.Lists ls ↔ ls = D.labels := by
  have hD : G.Lists D.labels := by
    refine ⟨D.ordered_labels, ?_⟩
    intro l
    rw [mem_labels_iff_lookup, h.lookup]
  constructor
  · rintro ⟨hordered, hmem⟩
    exact Ordered.ext hordered hD.1 fun l => (hmem l).trans (hD.2 l).symm
  · rintro rfl
    exact hD

end

end Dictionary

/-- **A dictionary is one map from labels to entries.**  Whatever calls are made, one after
the other from an empty dictionary on, each one is refused exactly if the glossary refuses it,
and for the same reason; and afterwards every question gets the answer of the glossary: what a
label is, which operator it has in a slot, which function, and which constant, and which labels
there are in which order. -/
theorem performAll_eq_glossary (calls : List (Call V ω)) :
    let d := performAll Dictionary.perform .empty calls
    let g := performAll Glossary.perform .empty calls
    d.1 = g.1 ∧
      (∀ label, d.2.lookup label = g.2.lookup label) ∧
      (∀ label slot, d.2.operator? label slot = g.2.operator? label slot) ∧
      (∀ label, d.2.function? label = g.2.function? label) ∧
      (∀ label, d.2.constants.get? label = g.2.constant? label) ∧
      ∀ ls, g.2.Lists ls ↔ ls = d.2.labels := by
  obtain ⟨hanswers, hviews⟩ := Dictionary.views_empty.performAll calls
  exact ⟨hanswers, hviews.lookup, hviews.operator?, hviews.functions, hviews.constants,
    hviews.labels⟩

example : (performAll Dictionary.perform (.empty : Dictionary Int String)
    [.addConstant "n" 3, .register ⟨.function ⟨"n", 1, .custom "n", none⟩, -1⟩,
      .unregister "n", .removeConstant "n"]).1 =
    [none, some (.error .duplicateLabel), some (.error .notFound), none] := by decide

end Formula
