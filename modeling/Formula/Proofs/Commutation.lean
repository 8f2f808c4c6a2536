/-
Formula/Proofs/Commutation.lean

Updates of different labels do not disturb each other.  Whether a call is made or refused, and
what it leaves behind, depends on what the three tables hold under its own label and on nothing
else (`perform_congr`); and it changes nothing under other labels (`holdings_of_perform`).  So
of two calls with different labels, each one finds what it would find if it were the first, and
leaves what it would leave.

A dictionary is asked label by label, too, except for the list of its labels; but they are
listed in one order, so the list is determined by which labels there are
(`labels_congr`).  Hence dictionaries that hold the same give the same answers.

Main statement: `performAll_comm`.
-/
import Formula.Proofs.Glossary

namespace Formula

variable {V ω : Type}

/-- The label that a call is about. -/
def Call.label : Call V ω → String
  | register token => token.item.label
  | unregister label | addConstant label _ | removeConstant label => label

/-- What is held under one label. -/
structure Holdings (V ω : Type) where
  operators : Option (Slots ω)
  function : Option (Placed (Function ω))
  constant : Option V

namespace Dictionary

/-- What the tables hold under a label. -/
def holdings (D : Dictionary V ω) (label : String) : Holdings V ω :=
  ⟨D.operators.get? label, D.functions.get? label, D.constants.get? label⟩

section

variable {D E : Dictionary V ω} {label l : String}

theorem holdings_eq_iff : D.holdings l = E.holdings l ↔
    D.operators.get? l = E.operators.get? l ∧ D.functions.get? l = E.functions.get? l ∧
      D.constants.get? l = E.constants.get? l := by
  rw [holdings, holdings, Holdings.mk.injEq]

theorem contains_congr (h : D.holdings l = E.holdings l) :
    D.operators.contains l = E.operators.contains l ∧
      D.functions.contains l = E.functions.contains l ∧
        D.constants.contains l = E.constants.contains l := by
  obtain ⟨hoperators, hfunctions, hconstants⟩ := holdings_eq_iff.1 h
  simp only [Table.contains_eq_isSome, hoperators, hfunctions, hconstants, and_self]

theorem slots_congr (h : D.holdings l = E.holdings l) : D.slots l = E.slots l := by
  rw [slots, slots, (holdings_eq_iff.1 h).1]

/-! ### Other labels -/

theorem mapError_eq_ok {ε ε' α : Type} {x : Except ε α} {f : ε → ε'} {a : α} :
    x.mapError f = .ok a ↔ x = .ok a := by
  cases x with
  | error e => exact ⟨nofun, nofun⟩
  | ok b =>
    constructor <;> intro h <;> exact congrArg Except.ok (Except.ok.inj h)

/-- A call that is made changes nothing under other labels than its own. -/
theorem holdings_of_perform {call : Call V ω} (h : D.perform call = .ok E) (hl : l ≠ call.label) :
    E.holdings l = D.holdings l := by
  rw [holdings_eq_iff]
  cases call with
  | register token =>
    rcases of_register (mapError_eq_ok.1 h) with ⟨op, slots, hop, -, -, rfl⟩ | ⟨f, hf, -, rfl⟩
    · rw [Call.label, hop] at hl
      exact ⟨(Table.get?_insert ..).trans (if_neg hl), rfl, rfl⟩
    · rw [Call.label, hf] at hl
      exact ⟨rfl, (Table.get?_insert ..).trans (if_neg hl), rfl⟩
  | unregister label =>
    obtain ⟨-, ⟨-, rfl⟩ | ⟨-, -, rfl⟩⟩ := of_unregister (mapError_eq_ok.1 h)
    · exact ⟨rfl, (Table.get?_erase ..).trans (if_neg hl), rfl⟩
    · exact ⟨(Table.get?_erase ..).trans (if_neg hl), rfl, rfl⟩
  | addConstant label value =>
    obtain ⟨-, rfl⟩ := of_addConstant (mapError_eq_ok.1 h)
    exact ⟨rfl, rfl, (Table.get?_insert ..).trans (if_neg hl)⟩
  | removeConstant label =>
    obtain ⟨-, rfl⟩ := of_removeConstant (mapError_eq_ok.1 h)
    exact ⟨rfl, rfl, (Table.get?_erase ..).trans (if_neg hl)⟩

/-! ### The label of a call -/

/-- Two updates are refused for the same reason, or both are made and hold the same under the
label afterwards. -/
inductive Alike {ε : Type} (label : String) :
    Except ε (Dictionary V ω) → Except ε (Dictionary V ω) → Prop
  | refused (e : ε) : Alike label (.error e) (.error e)
  | made {D E : Dictionary V ω} : D.holdings label = E.holdings label →
      Alike label (.ok D) (.ok E)

theorem Alike.mapError {ε ε' : Type} {d e : Except ε (Dictionary V ω)} (h : Alike label d e)
    (f : ε → ε') : Alike label (d.mapError f) (e.mapError f) := by
  cases h with
  | refused r => exact .refused (f r)
  | made h => exact .made h

theorem operatorObstacle_congr {op : Operator ω} (h : D.holdings op.label = E.holdings op.label) :
    D.operatorObstacle op = E.operatorObstacle op := by
  obtain ⟨-, hfunctions, hconstants⟩ := contains_congr h
  rw [operatorObstacle, operatorObstacle, hfunctions, hconstants, slots_congr h]

theorem functionObstacle_congr {f : Function ω} (h : D.holdings f.label = E.holdings f.label) :
    D.functionObstacle f = E.functionObstacle f := by
  obtain ⟨hoperators, hfunctions, hconstants⟩ := contains_congr h
  rw [functionObstacle, functionObstacle, hoperators, hfunctions, hconstants]

theorem constantObstacle_congr (h : D.holdings label = E.holdings label) :
    D.constantObstacle label = E.constantObstacle label := by
  obtain ⟨hoperators, hfunctions, hconstants⟩ := contains_congr h
  rw [constantObstacle, constantObstacle, hoperators, hfunctions, hconstants]

theorem registerOperator_congr (op : Placed (Operator ω))
    (h : D.holdings op.item.label = E.holdings op.item.label) :
    Alike op.item.label (D.registerOperator op) (E.registerOperator op) := by
  obtain ⟨-, hfunctions, hconstants⟩ := holdings_eq_iff.1 h
  rw [registerOperator, registerOperator, operatorObstacle_congr h, slots_congr h]
  cases E.operatorObstacle op.item with
  | some e => exact .refused _
  | none =>
    refine .made (holdings_eq_iff.2 ⟨?_, hfunctions, hconstants⟩)
    simp only [Table.get?_insert, if_true]

theorem registerFunction_congr (f : Placed (Function ω))
    (h : D.holdings f.item.label = E.holdings f.item.label) :
    Alike f.item.label (D.registerFunction f) (E.registerFunction f) := by
  obtain ⟨hoperators, -, hconstants⟩ := holdings_eq_iff.1 h
  rw [registerFunction, registerFunction, functionObstacle_congr h]
  cases E.functionObstacle f.item with
  | some e => exact .refused _
  | none =>
    refine .made (holdings_eq_iff.2 ⟨hoperators, ?_, hconstants⟩)
    simp only [Table.get?_insert, if_true]

theorem addConstant_congr (value : V) (h : D.holdings label = E.holdings label) :
    Alike label (D.addConstant label value) (E.addConstant label value) := by
  obtain ⟨hoperators, hfunctions, -⟩ := holdings_eq_iff.1 h
  rw [addConstant, addConstant, constantObstacle_congr h]
  cases E.constantObstacle label with
  | some e => exact .refused _
  | none =>
    refine .made (holdings_eq_iff.2 ⟨hoperators, hfunctions, ?_⟩)
    simp only [Table.get?_insert, if_true]

theorem unregister_congr (h : D.holdings label = E.holdings label) :
    Alike label (D.unregister label) (E.unregister label) := by
  obtain ⟨hoperators, hfunctions, hconstants⟩ := holdings_eq_iff.1 h
  obtain ⟨hoperator, hfunction, -⟩ := contains_congr h
  rw [unregister, unregister, hoperator, hfunction]
  cases isPredefined label with
  | true => exact .refused _
  | false =>
    cases E.functions.contains label with
    | true =>
      refine .made (holdings_eq_iff.2 ⟨hoperators, ?_, hconstants⟩)
      simp only [Table.get?_erase, if_true]
    | false =>
      cases E.operators.contains label with
      | true =>
        refine .made (holdings_eq_iff.2 ⟨?_, hfunctions, hconstants⟩)
        simp only [Table.get?_erase, if_true]
      | false => exact .refused _

theorem removeConstant_congr (h : D.holdings label = E.holdings label) :
    Alike label (D.removeConstant label) (E.removeConstant label) := by
  obtain ⟨hoperators, hfunctions, -⟩ := holdings_eq_iff.1 h
  obtain ⟨-, -, hconstant⟩ := contains_congr h
  rw [removeConstant, removeConstant, hconstant]
  cases E.constants.contains label with
  | true =>
    refine .made (holdings_eq_iff.2 ⟨hoperators, hfunctions, ?_⟩)
    simp only [Table.get?_erase, if_true]
  | false => exact .refused _

/-- What a call does depends only on what is held under its label. -/
theorem perform_congr {call : Call V ω} (h : D.holdings call.label = E.holdings call.label) :
    Alike call.label (D.perform call) (E.perform call) := by
  cases call with
  | register token =>
    obtain ⟨t, p⟩ := token
    cases t with
    | operator op => exact ((registerOperator_congr ⟨op, p⟩ h).mapError Sum.inl).mapError _
    | function f => exact ((registerFunction_congr ⟨f, p⟩ h).mapError Sum.inl).mapError _
    | _ => exact Alike.refused Objection.unfit
  | unregister label => exact (unregister_congr h).mapError _
  | addConstant label value => exact (addConstant_congr value h).mapError _
  | removeConstant label => exact (removeConstant_congr h).mapError _

/-! ### Answers -/

theorem lookup_congr (h : D.holdings label = E.holdings label) :
    D.lookup label = E.lookup label := by
  obtain ⟨hoperators, hfunctions, hconstants⟩ := contains_congr h
  rw [lookup, lookup, hoperators, hfunctions, hconstants]

theorem operator?_congr (h : D.holdings label = E.holdings label) (slot : Slot) :
    D.operator? label slot = E.operator? label slot := by
  rw [operator?, operator?, (holdings_eq_iff.1 h).1]

/-- Dictionaries that hold the same list the same labels. -/
theorem labels_congr (h : ∀ l, D.holdings l = E.holdings l) : D.labels = E.labels := by
  refine Ordered.ext D.ordered_labels E.ordered_labels fun l => ?_
  obtain ⟨hoperators, hfunctions, -⟩ := holdings_eq_iff.1 (h l)
  rw [Dictionary.mem_labels, Dictionary.mem_labels, hoperators, function?, function?, hfunctions]

end

end Dictionary

/-! ### Calls, refused or not -/

namespace Dictionary

/-- Why a call is refused, if it is. -/
def objection? (D : Dictionary V ω) (call : Call V ω) : Option Objection :=
  match D.perform call with
  | .error r => some r
  | .ok _ => none

/-- The dictionary behind a call: the old one, if the call is refused. -/
def after (D : Dictionary V ω) (call : Call V ω) : Dictionary V ω :=
  match D.perform call with
  | .error _ => D
  | .ok D' => D'

theorem performAll_cons (D : Dictionary V ω) (call : Call V ω) (calls : List (Call V ω)) :
    performAll perform D (call :: calls) =
      (performAll perform (D.after call) calls).map (D.objection? call :: ·) id := by
  rw [performAll, objection?, after]
  cases D.perform call <;> rfl

section

variable {D E : Dictionary V ω} {call : Call V ω} {l : String}

theorem holdings_after_of_ne (D : Dictionary V ω) (hl : l ≠ call.label) :
    (D.after call).holdings l = D.holdings l := by
  rw [after]
  cases h : D.perform call with
  | error r => rfl
  | ok D' => exact holdings_of_perform h hl

theorem objection?_congr (h : D.holdings call.label = E.holdings call.label) :
    D.objection? call = E.objection? call := by
  have halike := perform_congr h
  rw [objection?, objection?]
  generalize D.perform call = d at halike ⊢
  generalize E.perform call = e at halike ⊢
  cases halike <;> rfl

theorem holdings_after_congr (h : D.holdings call.label = E.holdings call.label) :
    (D.after call).holdings call.label = (E.after call).holdings call.label := by
  have halike := perform_congr h
  rw [after, after]
  generalize D.perform call = d at halike ⊢
  generalize E.perform call = e at halike ⊢
  cases halike with
  | refused r => exact h
  | made hmade => exact hmade

/-! ### Two calls -/

/-- A call does not notice a call of another label before it. -/
theorem objection?_after {c d : Call V ω} (h : c.label ≠ d.label) (D : Dictionary V ω) :
    (D.after c).objection? d = D.objection? d :=
  objection?_congr (holdings_after_of_ne D h.symm)

/-- Calls of different labels leave the same in either order. -/
theorem holdings_after_comm {c d : Call V ω} (h : c.label ≠ d.label) (D : Dictionary V ω)
    (l : String) : ((D.after c).after d).holdings l = ((D.after d).after c).holdings l := by
  by_cases hc : l = c.label
  · subst hc
    rw [holdings_after_of_ne _ h]
    exact holdings_after_congr (holdings_after_of_ne D h).symm
  · rw [holdings_after_of_ne _ hc]
    by_cases hd : l = d.label
    · subst hd
      exact holdings_after_congr (holdings_after_of_ne D hc)
    · rw [holdings_after_of_ne _ hd, holdings_after_of_ne _ hd, holdings_after_of_ne _ hc]

end

/-- Two dictionaries give the same answers. -/
structure SameAnswers (D E : Dictionary V ω) : Prop where
  lookup : ∀ label, D.lookup label = E.lookup label
  operator? : ∀ label slot, D.operator? label slot = E.operator? label slot
  function? : ∀ label, D.function? label = E.function? label
  labels : D.labels = E.labels
  constant? : ∀ label, D.constants.get? label = E.constants.get? label

theorem sameAnswers_of_holdings {D E : Dictionary V ω} (h : ∀ l, D.holdings l = E.holdings l) :
    D.SameAnswers E where
  lookup l := lookup_congr (h l)
  operator? l slot := operator?_congr (h l) slot
  function? l := (holdings_eq_iff.1 (h l)).2.1
  labels := labels_congr h
  constant? l := (holdings_eq_iff.1 (h l)).2.2

end Dictionary

/-- **Updates of different labels commute.**  Whichever of two calls with different labels is
made first, each one is refused in both orders, for the same reason, or in none; and the
dictionaries that are left give the same answers. -/
theorem performAll_comm (D : Dictionary V ω) {c d : Call V ω} (h : c.label ≠ d.label) :
    ∃ a b, (performAll Dictionary.perform D [c, d]).1 = [a, b] ∧
      (performAll Dictionary.perform D [d, c]).1 = [b, a] ∧
      (performAll Dictionary.perform D [c, d]).2.SameAnswers
        (performAll Dictionary.perform D [d, c]).2 := by
  simp only [Dictionary.performAll_cons, Dictionary.objection?_after h,
    Dictionary.objection?_after h.symm]
  exact ⟨D.objection? c, D.objection? d, rfl, rfl,
    Dictionary.sameAnswers_of_holdings (Dictionary.holdings_after_comm h D)⟩

/-- A constant that is refused, and an operator that is not. -/
theorem performAll_comm_refusedMaximum :
    let D : Dictionary Int String :=
      ⟨.empty, .ofList [("max", ⟨⟨"max", anyNumber, .custom "max", none⟩, -1⟩)], .empty⟩
    let c : Call Int String := .addConstant "max" 3
    let d : Call Int String :=
      .register ⟨.operator ⟨"<", .infixOp, 0, .none, .custom "less"⟩, -1⟩
    c.label ≠ d.label ∧
      (performAll Dictionary.perform D [c, d]).1 = [some (.error .duplicateLabel), none] ∧
      (performAll Dictionary.perform D [d, c]).1 = [none, some (.error .duplicateLabel)] ∧
      (performAll Dictionary.perform D [c, d]).2.SameAnswers
        (performAll Dictionary.perform D [d, c]).2 := by
  intro D c d
  have hne : c.label ≠ d.label := by decide
  obtain ⟨a, b, -, -, hsame⟩ := performAll_comm D hne
  exact ⟨hne, by decide, by decide, hsame⟩

end Formula
