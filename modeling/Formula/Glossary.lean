/-
Formula/Glossary.lean

Dictionaries as users see them: one map from labels to entries.  A label means one thing at
most, a function, a constant, or operators, and a predefined label has no entry.  A
dictionary keeps three tables instead; that it answers and refuses like one map is shown in
`Formula.Proofs.Glossary`.

Updates are `Call`s.  A call that is refused changes nothing, and the next call finds what
the ones before it have left.

Design.  An `Entry` for operators holds at least one, and the `plain` field keeps predefined
labels free; so nothing here has to be checked again, and every update is one look at the
label's entry.
-/
import Formula.Dictionary

namespace Formula

variable {V ω : Type}

/-! ### Calls -/

/-- The updates of a dictionary. -/
inductive Call (V ω : Type) where
  | register (token : Token V ω)
  | unregister (label : String)
  | addConstant (label : String) (value : V)
  | removeConstant (label : String)

/-- Why a call is refused. -/
inductive Objection where
  /-- An error of the dictionary. -/
  | error (kind : ErrorKind)
  /-- A token that is neither an operator nor a function. -/
  | unfit
  deriving DecidableEq, Repr

/-- Makes the calls one after the other.  The answers say of every call why it was refused,
if it was; a refused call leaves the state as it is. -/
def performAll {S : Type} (perform : S → Call V ω → Except Objection S) :
    S → List (Call V ω) → List (Option Objection) × S
  | s, [] => ([], s)
  | s, c :: cs =>
    match perform s c with
    | .error r => (performAll perform s cs).map (some r :: ·) id
    | .ok s' => (performAll perform s' cs).map (none :: ·) id

/-- Makes one call. -/
def Dictionary.perform (D : Dictionary V ω) : Call V ω → Except Objection (Dictionary V ω)
  | .register token =>
    (D.register token).mapError fun
      | .inl e => .error e.kind
      | .inr _ => .unfit
  | .unregister label => (D.unregister label).mapError fun e => .error e.kind
  | .addConstant label value => (D.addConstant label value).mapError fun e => .error e.kind
  | .removeConstant label => (D.removeConstant label).mapError fun e => .error e.kind

/-! ### Entries -/

/-- What a label means. -/
inductive Entry (V ω : Type) where
  | function (f : Placed (Function ω))
  | constant (value : V)
  | operators (slots : Slots ω) (filled : slots ≠ {})

namespace Entry

/-- The function that is meant. -/
def function? : Entry V ω → Option (Placed (Function ω))
  | function f => some f
  | _ => none

/-- The constant that is meant. -/
def constant? : Entry V ω → Option V
  | constant v => some v
  | _ => none

/-- The operators that are meant. -/
def slots? : Entry V ω → Option (Slots ω)
  | operators s _ => some s
  | _ => none

/-- What kind of thing is meant. -/
def kind : Entry V ω → LabelKind
  | function _ => .function
  | constant _ => .constant
  | operators _ _ => .operator

end Entry

theorem Slots.get_empty (slot : Slot) : ({} : Slots ω).get slot = none := by
  cases slot <;> rfl

theorem Slots.set_ne_empty (s : Slots ω) (op : Placed (Operator ω)) (slot : Slot) :
    s.set op slot ≠ {} := by
  intro h
  cases slot with
  | before => cases congrArg Slots.before h
  | after => cases congrArg Slots.after h

/-! ### Glossaries -/

/-- At most one entry for every label that is not predefined. -/
structure Glossary (V ω : Type) where
  entry : String → Option (Entry V ω)
  plain : ∀ label, isPredefined label = true → entry label = none

theorem isPredefined_of_isName {label : String} (h : isName label.toList = true) :
    isPredefined label = false := by
  rw [← Bool.not_eq_true]
  intro hpredefined
  have hmem : label ∈ predefinedLabels := by simpa [isPredefined] using hpredefined
  simp only [predefinedLabels, List.mem_cons, List.not_mem_nil, or_false] at hmem
  rcases hmem with rfl | rfl | rfl | rfl | rfl | rfl <;> exact absurd h (by decide)

namespace Glossary

/-- No entries. -/
def empty : Glossary V ω := ⟨fun _ => none, fun _ _ => rfl⟩

/-- Gives a label an entry, in the place of the old one if there is one. -/
def give (G : Glossary V ω) (label : String) (h : isPredefined label = false)
    (e : Entry V ω) : Glossary V ω where
  entry l := if l = label then some e else G.entry l
  plain l hl := by
    split
    · next heq =>
      rw [heq, h] at hl
      cases hl
    · exact G.plain l hl

/-- Takes the entry of a label away. -/
def forget (G : Glossary V ω) (label : String) : Glossary V ω where
  entry l := if l = label then none else G.entry l
  plain l hl := by
    split
    · rfl
    · exact G.plain l hl

section

variable (G : Glossary V ω) (label l : String)

theorem give_entry (h : isPredefined label = false) (e : Entry V ω) :
    (G.give label h e).entry l = if l = label then some e else G.entry l := rfl

theorem forget_entry :
    (G.forget label).entry l = if l = label then none else G.entry l := rfl

end

/-! ### Updates -/

/-- Adds an operator: its label must be one for operators and not predefined, and mean
nothing or operators, with the slot still free. -/
def registerOperator (G : Glossary V ω) (op : Placed (Operator ω)) :
    Except Objection (Glossary V ω) :=
  if isOperatorLabel op.item.label.toList = false then .error (.error .invalidLabel)
  else if h : isPredefined op.item.label = false then
    match G.entry op.item.label with
    | none => .ok (G.give op.item.label h (.operators _ (Slots.set_ne_empty {} op op.item.slot)))
    | some (.operators s _) =>
      if (s.get op.item.slot).isSome then .error (.error .duplicateLabel)
      else .ok (G.give op.item.label h (.operators _ (s.set_ne_empty op op.item.slot)))
    | some _ => .error (.error .duplicateLabel)
  else .error (.error .protectedEntry)

/-- Adds a function: its parameters must be countable, or any number, and its label a name
without an entry. -/
def registerFunction (G : Glossary V ω) (f : Placed (Function ω)) :
    Except Objection (Glossary V ω) :=
  if f.item.parameters < anyNumber then .error (.error .invalidArity)
  else if h : isName f.item.label.toList = true then
    match G.entry f.item.label with
    | none => .ok (G.give f.item.label (isPredefined_of_isName h) (.function f))
    | some _ => .error (.error .duplicateLabel)
  else .error (.error .invalidLabel)

/-- Adds a constant: its label must be a name without an entry. -/
def addConstant (G : Glossary V ω) (label : String) (value : V) :
    Except Objection (Glossary V ω) :=
  if h : isName label.toList = true then
    match G.entry label with
    | none => .ok (G.give label (isPredefined_of_isName h) (.constant value))
    | some _ => .error (.error .duplicateLabel)
  else .error (.error .invalidLabel)

/-- Removes a function, or all operators of a label. -/
def unregister (G : Glossary V ω) (label : String) : Except Objection (Glossary V ω) :=
  if isPredefined label then .error (.error .protectedEntry)
  else
    match G.entry label with
    | some (.function _) | some (.operators _ _) => .ok (G.forget label)
    | _ => .error (.error .notFound)

/-- Removes a constant. -/
def removeConstant (G : Glossary V ω) (label : String) : Except Objection (Glossary V ω) :=
  match G.entry label with
  | some (.constant _) => .ok (G.forget label)
  | _ => .error (.error .notFound)

/-- Makes one call. -/
def perform (G : Glossary V ω) : Call V ω → Except Objection (Glossary V ω)
  | .register ⟨.operator op, p⟩ => G.registerOperator ⟨op, p⟩
  | .register ⟨.function f, p⟩ => G.registerFunction ⟨f, p⟩
  | .register _ => .error .unfit
  | .unregister label => G.unregister label
  | .addConstant label value => G.addConstant label value
  | .removeConstant label => G.removeConstant label

/-! ### Answers -/

/-- What kind of thing the label means. -/
def lookup (G : Glossary V ω) (label : String) : LabelKind :=
  if isPredefined label then .operator
  else
    match G.entry label with
    | some e => e.kind
    | none => .absent

/-- The operator of a label in a slot. -/
def operator? (G : Glossary V ω) (label : String) (slot : Slot) :
    Option (Placed (Operator ω)) :=
  match predefined? label with
  | some slots => slots.get slot
  | none => ((G.entry label).bind Entry.slots?).bind fun slots => slots.get slot

/-- The function of a label. -/
def function? (G : Glossary V ω) (label : String) : Option (Placed (Function ω)) :=
  (G.entry label).bind Entry.function?

/-- The value of a constant. -/
def constant? (G : Glossary V ω) (label : String) : Option V :=
  (G.entry label).bind Entry.constant?

/-- The list holds the labels of operators and of functions and no others, each once, longer
ones first and labels of one length in alphabetical order. -/
def Lists (G : Glossary V ω) (ls : List String) : Prop :=
  ls.Pairwise (fun a b => comesBefore a b = true) ∧
    ∀ label, label ∈ ls ↔ G.lookup label = .operator ∨ G.lookup label = .function

end Glossary

end Formula
