/-
Formula/Workspace.lean

A workspace holds dictionaries, readers and expressions under names and carries
out commands on them one after the other.  Readers may share a dictionary: a name
leads to a place in the store, and what one name changes, every name for the same
place sees.  All evaluations in a workspace count their ticks together.
-/
import Formula.Routine
import Formula.Scalar.Hook

namespace Formula

/-- How a reader is set up. -/
structure Settings where
  kind : Scalar.Kind := .integer
  /-- The conversion of literals; a reader cannot do without one. -/
  conversion : Option Scalar.Conversion := some .plain
  format : Scalar.Format := .plain
  patterns : List Matcher := Matcher.defaults
  /-- Does the reader give an account of its work? -/
  verbose : Bool := false

namespace Workspace

/-- The dictionaries of a workspace. -/
abbrev Words := Dictionary Scalar Routine

/-- What can be asked of a workspace. -/
inductive Command where
  | newDictionary (name : String)
  | newReader (name : String) (settings : Settings) (shared : Option String)
  /-- The token may have failed to be read; that is a refusal, too. -/
  | register (dictionary : String) (token : Except Fault (Token Scalar Routine))
  | unregister (dictionary label : String)
  /-- The value may have failed to be read; that is a refusal before any other. -/
  | addConstant (dictionary label : String) (value : Except Fault Scalar)
  | removeConstant (dictionary label : String)
  | query (dictionary label : String)
  | labels (dictionary : String)
  | build (reader text name : String)
  /-- The values of the variables are texts, read as the reader of the expression
  reads operands. -/
  | evaluate (name : String) (given : Option (List (String × String)))
  | text (name : String)
  | constants (name : String)
  | tree (name : String)

/-- What a dictionary says about a label. -/
structure Entry where
  kind : LabelKind
  before : Option (Token Scalar Routine)
  after : Option (Token Scalar Routine)
  function : Option (Token Scalar Routine)
  isPredefined : Bool

/-- What a command answers. -/
inductive Reply where
  | done
  /-- The state of a dictionary after an update, and why it was refused if so. -/
  | updated (refusal : Option Fault) (labels : List String) (constants : Table Scalar)
  | entry (e : Entry)
  | labels (labels : List String)
  /-- How the expression shows itself, and the account of a verbose reader. -/
  | built (shown : Except Fault String) (progress : Option (List String))
  | value (v : Scalar)
  | text (s : String)
  | constants (t : Table Scalar)
  | tree (t : Option (Tree Scalar Routine))

end Workspace

/-- Named dictionaries, readers and expressions. -/
structure Workspace where
  store : List Workspace.Words := []
  places : Table Nat := .empty
  readers : Table (Settings × Nat) := .empty
  expressions : Table (Scalar.Kind × Expression Scalar Routine) := .empty
  ticks : Nat := 0

/-! ### Readers and evaluations of scalars -/

/-- The reader with the given settings over a dictionary, if they name a
conversion. -/
def Settings.reader? (s : Settings) (D : Workspace.Words) : Option (Reader Scalar Routine) :=
  s.conversion.map fun conversion =>
    { dictionary := D
      convert := fun literal => conversion.apply s.kind literal
      patterns := s.patterns
      write := fun v => s.format.apply v }

/-- What is said to settings without a conversion. -/
def noConversion : Fault :=
  .misuse "Pass string_to_operand or override ExpressionBuilder.string_to_operand"

/-- Reads the values of variables. -/
def readVariables (kind : Scalar.Kind) (given : List (String × String)) :
    Except Failure (Table Scalar) := do
  let entries ← given.mapM fun (label, text) => do return (label, ← Scalar.read kind text)
  return .ofList entries

/-- The value of an expression of scalars, and the ticks counted by then. -/
def Expression.valueOf (e : Expression Scalar Routine) (given : Option (Table Scalar))
    (ticks : Nat) : Except Fault Scalar × Nat :=
  let (result, ticks) := (e.evaluate Routine.interpretation given).run.run ticks
  (result.mapError fun error => error.fault Refusal.fault, ticks)

/-- The report of an error in writing an expression. -/
def writingFault (e : EvaluationError Empty) : Fault := e.fault nofun

/-- The report of an error in reading an expression of scalars. -/
def readingFault (e : ReadError Scalar Routine) : Fault := e.fault Scalar.described

/-- The report of a refused registration. -/
def registrationFault : DictionaryError ⊕ Lexeme Scalar Routine → Fault
  | .inl e => .engine e.diagnosis
  | .inr l => .misuse ("Only operators and functions can be registered, got " ++
      l.spelledOut Scalar.described)

namespace Workspace

/-! ### Looking up -/

/-- What is said to a name that leads nowhere. -/
def unknownName : Fault := .foreign ⟨.key, ""⟩

/-- What a table has under a name. -/
def named {α : Type} (t : Table α) (name : String) : Except Fault α :=
  match t.get? name with
  | some a => .ok a
  | none => .error unknownName

/-- The dictionary in a place. -/
def wordsAt (w : Workspace) (place : Nat) : Words := w.store.getD place .empty

/-- Puts a new dictionary into the store, under a name. -/
def addDictionary (w : Workspace) (name : String) : Workspace :=
  { w with store := w.store ++ [.empty], places := w.places.insert name w.store.length }

/-- Updates the dictionary under a name.  A refused update changes nothing; the
reply shows the state either way. -/
def update (w : Workspace) (name : String) (f : Words → Except Fault Words) :
    Except Fault (Reply × Workspace) := do
  let place ← named w.places name
  let D := w.wordsAt place
  match f D with
  | .ok D => return (.updated none D.labels D.constants, { w with store := w.store.set place D })
  | .error e => return (.updated (some e) D.labels D.constants, w)

/-- What a dictionary says about a label. -/
def describe (D : Words) (label : String) : Entry :=
  { kind := D.lookup label
    before := (D.operator? label .before).map fun op => ⟨.operator op.item, op.position⟩
    after := (D.operator? label .after).map fun op => ⟨.operator op.item, op.position⟩
    function := (D.function? label).map fun f => ⟨.function f.item, f.position⟩
    isPredefined := isPredefined label }

/-! ### Commands -/

/-- Adds a reader.  Its name leads to its dictionary, too. -/
def addReader (w : Workspace) (name : String) (settings : Settings) (shared : Option String) :
    Except Fault Workspace := do
  let w ← match shared with
    | none => pure (w.addDictionary name)
    | some other => do
      let place ← named w.places other
      pure { w with places := w.places.insert name place }
  if settings.conversion.isNone then throw noConversion
  let place ← named w.places name
  return { w with readers := w.readers.insert name (settings, place) }

/-- Reads an expression and keeps it under a name.  If there is an error, the name
keeps what it had. -/
def build (w : Workspace) (reader text name : String) : Except Fault (Reply × Workspace) := do
  let (settings, place) ← named w.readers reader
  match settings.reader? (w.wordsAt place) with
  | none => throw noConversion
  | some R =>
    let progress := if settings.verbose then some (R.progress text) else none
    match R.read text with
    | .error e => return (.built (.error (readingFault e)) progress, w)
    | .ok e =>
      return (.built (e.described.mapError writingFault) progress,
        { w with expressions := w.expressions.insert name (settings.kind, e) })

/-- Evaluates the expression under a name. -/
def evaluate (w : Workspace) (name : String) (given : Option (List (String × String))) :
    Except Fault Reply × Workspace :=
  match named w.expressions name with
  | .error e => (.error e, w)
  | .ok (kind, e) =>
    match given.mapM (readVariables kind) with
    | .error f => (.error (.foreign f), w)
    | .ok bindings =>
      let (result, ticks) := e.valueOf bindings w.ticks
      (result.map .value, { w with ticks })

/-- Carries out a command.  An error leaves the workspace as it was, apart from the
ticks counted. -/
def run (w : Workspace) (command : Command) : Except Fault Reply × Workspace :=
  match command with
  | .newDictionary name => (.ok .done, w.addDictionary name)
  | .newReader name settings shared =>
    keep w (do return (.done, ← w.addReader name settings shared))
  | .register name token =>
    keep w (w.update name fun D => do (D.register (← token)).mapError registrationFault)
  | .unregister name label =>
    keep w (w.update name fun D => (D.unregister label).mapError fun e => .engine e.diagnosis)
  | .addConstant name label value =>
    keep w (w.update name fun D => do
      (D.addConstant label (← value)).mapError fun e => .engine e.diagnosis)
  | .removeConstant name label =>
    keep w (w.update name fun D =>
      (D.removeConstant label).mapError fun e => .engine e.diagnosis)
  | .query name label => ask w do
    let place ← named w.places name
    return .entry (describe (w.wordsAt place) label)
  | .labels name => ask w do
    let place ← named w.places name
    return .labels (w.wordsAt place).labels
  | .build reader text name => keep w (w.build reader text name)
  | .evaluate name given => w.evaluate name given
  | .text name => ask w do
    let (_, e) ← named w.expressions name
    return .text (← e.text.mapError writingFault)
  | .constants name => ask w do
    let (_, e) ← named w.expressions name
    return .constants e.constants
  | .tree name => ask w do
    let (_, e) ← named w.expressions name
    return .tree e.root
where
  keep (w : Workspace) : Except Fault (Reply × Workspace) → Except Fault Reply × Workspace
    | .ok (reply, w') => (.ok reply, w')
    | .error e => (.error e, w)
  ask (w : Workspace) (answer : Except Fault Reply) : Except Fault Reply × Workspace :=
    (answer, w)

end Workspace

end Formula
