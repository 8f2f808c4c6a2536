/-
Formula/Dictionary.lean

A dictionary says what the labels of a text mean: which are operators, which
functions, which constants.  The predefined operators belong to every dictionary
and cannot be changed; users register operators and functions of their own and
add constants.

A label may carry two operators, one that is read where an operand is expected
and one that is read after an operand, and the *slots* of the label hold them.
Otherwise a label has one meaning: an update first looks for an obstacle among the
predefined operators, the functions, the operators and the constants, and changes
the dictionary only if there is none.

Design.  An update either gives the new dictionary or says why there is none, so
that a refused update leaves the old dictionary in the hands of the caller.
-/
import Formula.Error
import Formula.Table
import Formula.Text.Blank
import Formula.Text.Digit
import Formula.Text.Quoted
import Formula.Token.Predefined

namespace Formula

variable {V ω : Type}

/-! ### Slots -/

/-- The two places that a label has for an operator. -/
inductive Slot where
  /-- Where an operand is expected. -/
  | before
  /-- After an operand. -/
  | after
  deriving DecidableEq, Repr

/-- The name of a slot in messages. -/
def Slot.name : Slot → String
  | before => "prefix"
  | after => "infix"

/-- The slot that an operator goes into. -/
def Operator.slot (op : Operator ω) : Slot := if op.isPrefix then .before else .after

/-- The operators of one label. -/
structure Slots (ω : Type) where
  before : Option (Placed (Operator ω)) := none
  after : Option (Placed (Operator ω)) := none
  deriving DecidableEq, Repr

namespace Slots

/-- The operator in a slot. -/
def get (s : Slots ω) : Slot → Option (Placed (Operator ω))
  | .before => s.before
  | .after => s.after

/-- Puts an operator into a slot. -/
def set (s : Slots ω) (op : Placed (Operator ω)) : Slot → Slots ω
  | .before => { s with before := some op }
  | .after => { s with after := some op }

theorem get_set (s : Slots ω) (op : Placed (Operator ω)) (slot slot' : Slot) :
    (s.set op slot).get slot' = if slot' = slot then some op else s.get slot' := by
  cases slot <;> cases slot' <;> rfl

end Slots

/-- The operators of a predefined label. -/
def predefined? (label : String) : Option (Slots ω) :=
  if label = "+" then some ⟨some ⟨.unaryPlus, -1⟩, some ⟨.addition, -1⟩⟩
  else if label = "-" then some ⟨some ⟨.unaryMinus, -1⟩, some ⟨.subtraction, -1⟩⟩
  else if label = "*" then some ⟨none, some ⟨.multiplication, -1⟩⟩
  else if label = "/" then some ⟨none, some ⟨.division, -1⟩⟩
  else if label = "%" then some ⟨none, some ⟨.modulo, -1⟩⟩
  else if label = "^" then some ⟨none, some ⟨.exponentiation, -1⟩⟩
  else none

/-- The labels of the predefined operators. -/
def predefinedLabels : List String := ["+", "-", "*", "/", "%", "^"]

/-- Is the label one of a predefined operator? -/
def isPredefined (label : String) : Bool := predefinedLabels.contains label

theorem isSome_predefined? (label : String) :
    (predefined? label : Option (Slots ω)).isSome = isPredefined label := by
  by_cases h : label ∈ predefinedLabels
  · have : isPredefined label = true := by simpa [isPredefined] using h
    rw [this]
    simp only [predefinedLabels, List.mem_cons, List.not_mem_nil, or_false] at h
    rcases h with rfl | rfl | rfl | rfl | rfl | rfl <;> rfl
  · have : isPredefined label = false := by simpa [isPredefined] using h
    rw [this]
    simp only [predefinedLabels, List.mem_cons, List.not_mem_nil, or_false, not_or] at h
    simp [predefined?, h]

theorem mem_predefinedLabels {label : String} {slots : Slots ω}
    (h : predefined? label = some slots) : label ∈ predefinedLabels := by
  have hsome : (predefined? label : Option (Slots ω)).isSome = isPredefined label :=
    isSome_predefined? label
  rw [h] at hsome
  simpa [isPredefined] using hsome.symm

/-! ### Labels -/

/-- Letters that a name may start with. -/
def startsName (c : Char) : Bool :=
  ('A' ≤ c && c ≤ 'Z') || ('a' ≤ c && c ≤ 'z') || c == '_'

/-- Characters that a name may go on with. -/
def continuesName (c : Char) : Bool := startsName c || ('0' ≤ c && c ≤ '9')

/-- Names of functions and constants: ASCII letters, underscores, and digits
other than in the first place. -/
def isName : List Char → Bool
  | [] => false
  | c :: cs => startsName c && cs.all continuesName

/-- Labels of operators: no digit and no point in the first place, and no blank
and no structural mark in any. -/
def isOperatorLabel : List Char → Bool
  | [] => false
  | c :: cs => !Text.isDigitLike c && c != '.' &&
      (c :: cs).all fun x => !Text.isBlank x && !isStructural x

/-- Longer labels come first, and of two of one length the lesser. -/
def comesBefore (a b : String) : Bool :=
  b.length < a.length || (a.length == b.length && a < b)

/-- Inserts a label in order, unless it is there. -/
def insertLabel (label : String) : List String → List String
  | [] => [label]
  | l :: ls =>
    if label = l then l :: ls
    else if comesBefore label l then label :: l :: ls
    else l :: insertLabel label ls

/-! ### Dictionaries -/

/-- What a label is. -/
inductive LabelKind where
  | absent
  | operator
  | function
  | constant
  deriving DecidableEq, Repr

/-- The meanings of the labels that users gave one, and the values of the
constants. -/
structure Dictionary (V ω : Type) where
  operators : Table (Slots ω)
  functions : Table (Placed (Function ω))
  constants : Table V

/-- What stands in the way of an update. -/
inductive DictionaryError where
  /-- Not a label for an operator. -/
  | operatorLabel (label : String)
  /-- Not a name for a function or a constant. -/
  | name (kind : LabelKind) (label : String)
  /-- A parameter count below the one that stands for any number. -/
  | parameters (label : String) (count : Int)
  /-- The label of a predefined operator, to be given another meaning. -/
  | predefinedMeaning (label : String)
  /-- The label of a predefined operator, to be removed. -/
  | predefinedRemoval (label : String)
  /-- The label has a meaning already. -/
  | taken (label : String) (meaning : LabelKind)
  /-- The slot of the label has an operator already. -/
  | slotTaken (label : String) (slot : Slot)
  /-- The constant has a value already. -/
  | constantTaken (label : String)
  /-- No operator and no function to be removed. -/
  | noOperation (label : String)
  /-- No constant to be removed. -/
  | noConstant (label : String)
  deriving DecidableEq, Repr

namespace Dictionary

/-- The dictionary with the predefined operators only. -/
def empty : Dictionary V ω := ⟨.empty, .empty, .empty⟩

/-! ### Looking up -/

/-- What the label is. -/
def lookup (D : Dictionary V ω) (label : String) : LabelKind :=
  if isPredefined label || D.operators.contains label then .operator
  else if D.functions.contains label then .function
  else if D.constants.contains label then .constant
  else .absent

/-- The operator of a label in a slot. -/
def operator? (D : Dictionary V ω) (label : String) (slot : Slot) :
    Option (Placed (Operator ω)) :=
  match predefined? label with
  | some slots => slots.get slot
  | none => (D.operators.get? label).bind fun slots => slots.get slot

/-- The function of a label. -/
def function? (D : Dictionary V ω) (label : String) : Option (Placed (Function ω)) :=
  D.functions.get? label

/-- The labels of operators and functions, longest first. -/
def labels (D : Dictionary V ω) : List String :=
  (predefinedLabels ++ D.operators.labels ++ D.functions.labels).foldr insertLabel []

/-- The user's operators of a label. -/
def slots (D : Dictionary V ω) (label : String) : Slots ω :=
  (D.operators.get? label).getD {}

/-! ### What stands in the way of an update -/

/-- Why an operator cannot be registered, if it cannot. -/
def operatorObstacle (D : Dictionary V ω) (op : Operator ω) : Option DictionaryError :=
  if !isOperatorLabel op.label.toList then some (.operatorLabel op.label)
  else if isPredefined op.label then some (.predefinedMeaning op.label)
  else if D.functions.contains op.label then some (.taken op.label .function)
  else if D.constants.contains op.label then some (.taken op.label .constant)
  else if ((D.slots op.label).get op.slot).isSome then some (.slotTaken op.label op.slot)
  else none

/-- Why a function cannot be registered, if it cannot. -/
def functionObstacle (D : Dictionary V ω) (f : Function ω) : Option DictionaryError :=
  if f.parameters < anyNumber then some (.parameters f.label f.parameters)
  else if !isName f.label.toList then some (.name .function f.label)
  else if isPredefined f.label then some (.predefinedMeaning f.label)
  else if D.functions.contains f.label then some (.taken f.label .function)
  else if D.operators.contains f.label then some (.taken f.label .operator)
  else if D.constants.contains f.label then some (.taken f.label .constant)
  else none

/-- Why a constant cannot be added, if it cannot. -/
def constantObstacle (D : Dictionary V ω) (label : String) : Option DictionaryError :=
  if !isName label.toList then some (.name .constant label)
  else if isPredefined label then some (.predefinedMeaning label)
  else if D.functions.contains label then some (.taken label .function)
  else if D.operators.contains label then some (.taken label .operator)
  else if D.constants.contains label then some (.constantTaken label)
  else none

/-! ### Updates -/

/-- Adds an operator of the user's. -/
def registerOperator (D : Dictionary V ω) (op : Placed (Operator ω)) :
    Except DictionaryError (Dictionary V ω) :=
  match D.operatorObstacle op.item with
  | some e => .error e
  | none =>
    let slots := (D.slots op.item.label).set op op.item.slot
    .ok { D with operators := D.operators.insert op.item.label slots }

/-- Adds a function of the user's. -/
def registerFunction (D : Dictionary V ω) (f : Placed (Function ω)) :
    Except DictionaryError (Dictionary V ω) :=
  match D.functionObstacle f.item with
  | some e => .error e
  | none => .ok { D with functions := D.functions.insert f.item.label f }

/-- Gives a constant its value. -/
def addConstant (D : Dictionary V ω) (label : String) (value : V) :
    Except DictionaryError (Dictionary V ω) :=
  match D.constantObstacle label with
  | some e => .error e
  | none => .ok { D with constants := D.constants.insert label value }

/-- Removes the function or all operators of a label. -/
def unregister (D : Dictionary V ω) (label : String) :
    Except DictionaryError (Dictionary V ω) :=
  if isPredefined label then .error (.predefinedRemoval label)
  else if D.functions.contains label then .ok { D with functions := D.functions.erase label }
  else if D.operators.contains label then .ok { D with operators := D.operators.erase label }
  else .error (.noOperation label)

/-- Takes a constant away. -/
def removeConstant (D : Dictionary V ω) (label : String) :
    Except DictionaryError (Dictionary V ω) :=
  if D.constants.contains label then .ok { D with constants := D.constants.erase label }
  else .error (.noConstant label)

/-- Adds the operator or the function that a token is.  There is nothing to add
for other tokens. -/
def register (D : Dictionary V ω) (token : Token V ω) :
    Except (DictionaryError ⊕ Lexeme V ω) (Dictionary V ω) :=
  match token.item with
  | .operator op => (D.registerOperator ⟨op, token.position⟩).mapError .inl
  | .function f => (D.registerFunction ⟨f, token.position⟩).mapError .inl
  | other => .error (.inr other)

end Dictionary

/-! ### Messages -/

/-- The name of a meaning in messages. -/
def LabelKind.name : LabelKind → String
  | absent => "entry"
  | operator => "operator"
  | function => "function"
  | constant => "constant"

namespace DictionaryError

/-- The label that an error is about. -/
def label : DictionaryError → String
  | operatorLabel l | name _ l | parameters l _ | predefinedMeaning l | predefinedRemoval l
  | taken l _ | slotTaken l _ | constantTaken l | noOperation l | noConstant l => l

/-- The kind of an error. -/
def kind : DictionaryError → ErrorKind
  | operatorLabel _ | name _ _ => .invalidLabel
  | parameters _ _ => .invalidArity
  | predefinedMeaning _ | predefinedRemoval _ => .protectedEntry
  | taken _ _ | slotTaken _ _ | constantTaken _ => .duplicateLabel
  | noOperation _ | noConstant _ => .notFound

/-- The message of an error. -/
def message : DictionaryError → String
  | operatorLabel l => "Not a valid operator label: " ++ Text.quote l
  | name k l => "Not a valid " ++ k.name ++ " name: " ++ Text.quote l
  | parameters l n =>
    "Invalid number of parameters for " ++ Text.quote l ++ ": " ++ toString n
  | predefinedMeaning l => "Cannot override predefined entry " ++ Text.quote l
  | predefinedRemoval l => "Cannot remove predefined entry " ++ Text.quote l
  | taken l k =>
    Text.quote l ++ " is already defined as " ++
      (if k = .operator then "an " else "a ") ++ k.name
  | slotTaken l s =>
    "A " ++ s.name ++ " operator " ++ Text.quote l ++ " is already defined"
  | constantTaken l => "Constant " ++ Text.quote l ++ " is already defined"
  | noOperation l => "No operator or function named " ++ Text.quote l
  | noConstant l => "No constant named " ++ Text.quote l

/-- The report of an error. -/
def diagnosis (e : DictionaryError) : Diagnosis :=
  { kind := e.kind, message := e.message, label := some e.label }

end DictionaryError

end Formula
