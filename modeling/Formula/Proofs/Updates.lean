/-
Formula/Proofs/Updates.lean

What the updates of a dictionary do.  An update that is not refused found nothing in its
way and changed one of the three tables; there is one lemma for each update that says so
(`of_register` and the like).  What is known of all dictionaries that can be reached from
the empty one follows from these lemmas by induction.

Main statements: `Reachable.function` (a function is found under its own label, and this is a
name), `Reachable.constant` (so is the label of a constant), `Reachable.operators` (operators of
users are found under their own label, too, and this is no predefined one) and
`Reachable.operator` (an operator is found in its own slot).
-/
import Formula.Dictionary

namespace Formula

variable {V ω : Type}

/-! ### Filled slots -/

/-- The slots of a label hold operators with this label, each in its own slot, and at least
one. -/
structure Slots.Filled (label : String) (s : Slots ω) : Prop where
  own : ∀ slot op, s.get slot = some op → op.item.label = label ∧ op.item.slot = slot
  inhabited : ∃ slot op, s.get slot = some op

theorem Slots.Filled.set {label : String} {s : Slots ω} {op : Placed (Operator ω)}
    (hs : ∀ slot o, s.get slot = some o → o.item.label = label ∧ o.item.slot = slot)
    (hop : op.item.label = label) : (s.set op op.item.slot).Filled label := by
  refine ⟨?_, op.item.slot, op, by rw [get_set, if_pos rfl]⟩
  intro slot o ho
  rw [get_set] at ho
  split at ho
  · next hslot =>
    rw [← Option.some.inj ho, hslot]
    exact ⟨hop, rfl⟩
  · exact hs slot o ho

/-- Predefined operators carry their labels, and none of them is the implied multiplication. -/
theorem of_predefined? {label : String} {s : Slots ω} {slot : Slot} {op : Placed (Operator ω)}
    (hs : predefined? label = some s) (hop : s.get slot = some op) :
    op.item.label = label ∧ op.item.slot = slot ∧ op.item ≠ .juxtaposition := by
  have hlabel := mem_predefinedLabels hs
  simp only [predefinedLabels, List.mem_cons, List.not_mem_nil, or_false] at hlabel
  rcases hlabel with rfl | rfl | rfl | rfl | rfl | rfl <;> obtain rfl := Option.some.inj hs <;>
    cases slot <;> cases hop <;> refine ⟨rfl, rfl, ?_⟩ <;> intro heq <;>
      cases congrArg Operator.operation heq

namespace Dictionary

/-! ### Dictionaries that can be reached -/

/-- Dictionaries made from the empty one by updates that were not refused. -/
inductive Reachable : Dictionary V ω → Prop
  | empty : Reachable .empty
  | register {D D' : Dictionary V ω} (token : Token V ω) :
      Reachable D → D.register token = .ok D' → Reachable D'
  | unregister {D D' : Dictionary V ω} (label : String) :
      Reachable D → D.unregister label = .ok D' → Reachable D'
  | addConstant {D D' : Dictionary V ω} (label : String) (value : V) :
      Reachable D → D.addConstant label value = .ok D' → Reachable D'
  | removeConstant {D D' : Dictionary V ω} (label : String) :
      Reachable D → D.removeConstant label = .ok D' → Reachable D'

/-! ### Updates that are not refused -/

section

variable {D D' : Dictionary V ω} {label : String}

/-- A token that is registered is an operator, which fills a slot, or a function. -/
theorem of_register {token : Token V ω} (h : D.register token = .ok D') :
    (∃ op slots, token.item = .operator op ∧ D.operatorObstacle op = none ∧
      slots = (D.slots op.label).set ⟨op, token.position⟩ op.slot ∧
        D' = { D with operators := D.operators.insert op.label slots }) ∨
    ∃ f, token.item = .function f ∧ D.functionObstacle f = none ∧
      D' = { D with functions := D.functions.insert f.label ⟨f, token.position⟩ } := by
  obtain ⟨l, p⟩ := token
  cases l with
  | operator op =>
    left
    simp only [register, registerOperator] at h
    split at h
    · cases h
    · next hnone => exact ⟨op, _, rfl, hnone, rfl, (Except.ok.inj h).symm⟩
  | function f =>
    right
    simp only [register, registerFunction] at h
    split at h
    · cases h
    · next hnone => exact ⟨f, rfl, hnone, (Except.ok.inj h).symm⟩
  | _ => cases h

/-- What is removed is the function of a label or, if there is none, its operators. -/
theorem of_unregister (h : D.unregister label = .ok D') :
    isPredefined label = false ∧
      (D.functions.contains label = true ∧ D' = { D with functions := D.functions.erase label } ∨
        D.functions.contains label = false ∧ D.operators.contains label = true ∧
          D' = { D with operators := D.operators.erase label }) := by
  rw [unregister] at h
  split at h
  · cases h
  · next hpredefined =>
    refine ⟨by simpa using hpredefined, ?_⟩
    split at h
    · next hfunction => exact .inl ⟨hfunction, (Except.ok.inj h).symm⟩
    · next hfunction =>
      split at h
      · next hoperator =>
        exact .inr ⟨by simpa using hfunction, hoperator, (Except.ok.inj h).symm⟩
      · cases h

theorem of_addConstant {value : V} (h : D.addConstant label value = .ok D') :
    D.constantObstacle label = none ∧
      D' = { D with constants := D.constants.insert label value } := by
  rw [addConstant] at h
  split at h
  · cases h
  · next hnone => exact ⟨hnone, (Except.ok.inj h).symm⟩

theorem of_removeConstant (h : D.removeConstant label = .ok D') :
    D.constants.contains label = true ∧
      D' = { D with constants := D.constants.erase label } := by
  rw [removeConstant] at h
  split at h
  · next hconstant => exact ⟨hconstant, (Except.ok.inj h).symm⟩
  · cases h

theorem guard_eq_none {α : Type} {c : Prop} [Decidable c] {a : α} {o : Option α} :
    (if c then some a else o) = none ↔ ¬ c ∧ o = none := by
  split <;> simp [*]

/-- Nothing stands in the way of a function with a name that means nothing yet. -/
theorem functionObstacle_eq_none {f : Function ω} :
    D.functionObstacle f = none ↔
      ¬ f.parameters < anyNumber ∧ isName f.label.toList = true ∧
        isPredefined f.label = false ∧ D.functions.contains f.label = false ∧
          D.operators.contains f.label = false ∧ D.constants.contains f.label = false := by
  simp only [functionObstacle, guard_eq_none]
  simp

/-- Nothing stands in the way of an operator with a label that users may give a meaning, if
its slot is free. -/
theorem operatorObstacle_eq_none {op : Operator ω} :
    D.operatorObstacle op = none ↔
      isOperatorLabel op.label.toList = true ∧ isPredefined op.label = false ∧
        D.functions.contains op.label = false ∧ D.constants.contains op.label = false ∧
          (D.slots op.label).get op.slot = none := by
  simp only [operatorObstacle, guard_eq_none]
  simp

/-- Nothing stands in the way of a constant with a name that means nothing yet. -/
theorem constantObstacle_eq_none :
    D.constantObstacle label = none ↔
      isName label.toList = true ∧ isPredefined label = false ∧
        D.functions.contains label = false ∧ D.operators.contains label = false ∧
          D.constants.contains label = false := by
  simp only [constantObstacle, guard_eq_none]
  simp

end

/-! ### Functions -/

/-- A function is found under its own label, and this is a name. -/
theorem Reachable.function {D : Dictionary V ω} (h : D.Reachable) {label : String}
    {f : Placed (Function ω)} (hf : D.function? label = some f) :
    f.item.label = label ∧ isName label.toList = true := by
  induction h with
  | empty => cases hf
  | register token _ hupdate ih =>
    rcases of_register hupdate with ⟨op, slots, -, -, -, rfl⟩ | ⟨g, -, hnone, rfl⟩
    · exact ih hf
    · rw [function?, Table.get?_insert] at hf
      split at hf
      · next hlabel =>
        rw [hlabel, ← Option.some.inj hf]
        exact ⟨rfl, (functionObstacle_eq_none.1 hnone).2.1⟩
      · exact ih hf
  | unregister l _ hupdate ih =>
    obtain ⟨-, ⟨-, rfl⟩ | ⟨-, -, rfl⟩⟩ := of_unregister hupdate
    · rw [function?, Table.get?_erase] at hf
      split at hf
      · cases hf
      · exact ih hf
    · exact ih hf
  | addConstant l v _ hupdate ih =>
    obtain ⟨-, rfl⟩ := of_addConstant hupdate
    exact ih hf
  | removeConstant l _ hupdate ih =>
    obtain ⟨-, rfl⟩ := of_removeConstant hupdate
    exact ih hf

/-! ### Constants -/

/-- The label of a constant is a name. -/
theorem Reachable.constant {D : Dictionary V ω} (h : D.Reachable) {label : String} {v : V}
    (hv : D.constants.get? label = some v) : isName label.toList = true := by
  induction h with
  | empty => cases hv
  | register token _ hupdate ih =>
    rcases of_register hupdate with ⟨op, slots, -, -, -, rfl⟩ | ⟨f, -, -, rfl⟩ <;> exact ih hv
  | unregister l _ hupdate ih =>
    obtain ⟨-, ⟨-, rfl⟩ | ⟨-, -, rfl⟩⟩ := of_unregister hupdate <;> exact ih hv
  | addConstant l w _ hupdate ih =>
    obtain ⟨hnone, rfl⟩ := of_addConstant hupdate
    rw [Table.get?_insert] at hv
    split at hv
    · next hlabel =>
      rw [hlabel]
      exact (constantObstacle_eq_none.1 hnone).1
    · exact ih hv
  | removeConstant l _ hupdate ih =>
    obtain ⟨-, rfl⟩ := of_removeConstant hupdate
    rw [Table.get?_erase] at hv
    split at hv
    · cases hv
    · exact ih hv

/-! ### Operators -/

/-- Operators of users are found under their own label, which is no predefined one. -/
theorem Reachable.operators {D : Dictionary V ω} (h : D.Reachable) {label : String}
    {s : Slots ω} (hs : D.operators.get? label = some s) :
    isOperatorLabel label.toList = true ∧ isPredefined label = false ∧ s.Filled label := by
  induction h generalizing s with
  | empty => cases hs
  | @register D _ token _ hupdate ih =>
    rcases of_register hupdate with ⟨op, slots, -, hnone, hslots, rfl⟩ | ⟨f, -, -, rfl⟩
    · rw [Table.get?_insert] at hs
      split at hs
      · next hlabel =>
        obtain ⟨hvalid, hplain, -⟩ := operatorObstacle_eq_none.1 hnone
        rw [hlabel, ← Option.some.inj hs, hslots]
        refine ⟨hvalid, hplain, Slots.Filled.set ?_ rfl⟩
        -- the slots before the update are empty or hold operators of this label
        intro slot o ho
        rw [Dictionary.slots] at ho
        cases hget : D.operators.get? op.label with
        | none =>
          rw [hget] at ho
          cases slot <;> cases ho
        | some s₀ =>
          rw [hget] at ho
          rw [← hlabel] at hget
          rw [← hlabel]
          exact (ih hget).2.2.own slot o ho
      · exact ih hs
    · exact ih hs
  | unregister l _ hupdate ih =>
    obtain ⟨-, ⟨-, rfl⟩ | ⟨-, -, rfl⟩⟩ := of_unregister hupdate
    · exact ih hs
    · rw [Table.get?_erase] at hs
      split at hs
      · cases hs
      · exact ih hs
  | addConstant l v _ hupdate ih =>
    obtain ⟨-, rfl⟩ := of_addConstant hupdate
    exact ih hs
  | removeConstant l _ hupdate ih =>
    obtain ⟨-, rfl⟩ := of_removeConstant hupdate
    exact ih hs

/-- A label that has operators has no function. -/
theorem Reachable.function?_of_operators {D : Dictionary V ω} (h : D.Reachable) {label : String}
    {s : Slots ω} (hs : D.operators.get? label = some s) : D.function? label = none := by
  have of_contains : ∀ {E : Dictionary V ω}, E.functions.contains label = false →
      E.function? label = none := by
    intro E hE
    rwa [Table.contains_eq_isSome, Option.isSome_eq_false_iff, Option.isNone_iff_eq_none] at hE
  induction h generalizing s with
  | empty => cases hs
  | register token _ hupdate ih =>
    rcases of_register hupdate with ⟨op, slots, -, hnone, -, rfl⟩ | ⟨f, -, hnone, rfl⟩
    · rw [Table.get?_insert] at hs
      split at hs
      · next hlabel =>
        rw [hlabel] at of_contains ⊢
        exact of_contains (operatorObstacle_eq_none.1 hnone).2.2.1
      · exact ih hs
    · rw [function?, Table.get?_insert]
      split
      · next hlabel =>
        have hfree := (functionObstacle_eq_none.1 hnone).2.2.2.2.1
        rw [Table.contains_eq_isSome, ← hlabel, hs] at hfree
        cases hfree
      · exact ih hs
  | unregister l _ hupdate ih =>
    obtain ⟨-, ⟨-, rfl⟩ | ⟨-, -, rfl⟩⟩ := of_unregister hupdate
    · rw [function?, Table.get?_erase]
      split
      · rfl
      · exact ih hs
    · rw [Table.get?_erase] at hs
      split at hs
      · cases hs
      · exact ih hs
  | addConstant l v _ hupdate ih =>
    obtain ⟨-, rfl⟩ := of_addConstant hupdate
    exact ih hs
  | removeConstant l _ hupdate ih =>
    obtain ⟨-, rfl⟩ := of_removeConstant hupdate
    exact ih hs

/-- An operator is found under its own label and in its own slot, and it is never the implied
multiplication. -/
theorem Reachable.operator {D : Dictionary V ω} (h : D.Reachable) {label : String} {slot : Slot}
    {op : Placed (Operator ω)} (hop : D.operator? label slot = some op) :
    op.item.label = label ∧ op.item.slot = slot ∧ op.item ≠ .juxtaposition := by
  rw [operator?] at hop
  split at hop
  · next s hs => exact of_predefined? hs hop
  · obtain ⟨s, hs, hop⟩ := Option.bind_eq_some_iff.1 hop
    obtain ⟨-, hplain, hfilled⟩ := h.operators hs
    obtain ⟨hlabel, hslot⟩ := hfilled.own slot op hop
    refine ⟨hlabel, hslot, ?_⟩
    -- the implied multiplication has the label of the written one
    intro hjuxtaposition
    have hstar : label = "*" := by
      rw [← hlabel, hjuxtaposition]
      rfl
    rw [hstar] at hplain
    exact absurd hplain (by decide)

end Dictionary

end Formula
