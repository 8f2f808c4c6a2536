/-
Formula/Token/Lexer.lean

From a text to its tokens.  At every place that is not blank the lexer reads, in
this order: a literal that a pattern matches, the longest label of an operator or
a function, a name (which is a variable), or a structural mark.

Two things depend on the token before.  A label with two operators means the one
for its context: the operator before an operand where an operand is expected, and
the other one elsewhere.  And where one operand ends and the next begins with
nothing between them, the multiplication implied by juxtaposition is put in, at
the position of its successor.

Design.  `scan` walks the characters one by one and carries the number of
characters that the last token still covers, so it is a structural recursion on
the text.  The whole text is at hand, too, for a pattern may look at what stands in
front of a literal.  Positions count characters.  What one word can be is listed in `Finds`;
`next` reads just that (`next_eq_ok`), and what holds of the tokens of a text is shown
word by word (`scan_induction`).  What a label can mean is listed in `Meaning`.
-/
import Formula.Dictionary
import Formula.Pattern.Matcher

namespace Formula

variable {V ω : Type}

/-- What a text is read with: the meanings of labels, the patterns of literals,
and the conversion of literals to operands. -/
structure Lexicon (V ω : Type) where
  dictionary : Dictionary V ω
  convert : String → Except Failure V
  patterns : List Matcher := Matcher.defaults

/-- Why a text has no tokens. -/
inductive LexicalError where
  /-- Nothing can be read at this character. -/
  | unexpected (c : Char) (position : Nat)
  /-- A literal that could not be converted. -/
  | literal (literal : String) (cause : Failure) (position : Nat)
  /-- A conversion failed for a reason other than its literal. -/
  | interrupted (failure : Failure)
  /-- A label without an operator; no dictionary lists one. -/
  | meaningless (label : String) (position : Nat)
  deriving DecidableEq, Repr

/-! ### One token -/

/-- The first of the labels that the text starts with.  Labels come longest
first, so this is the longest. -/
def label? (labels : List String) (s : List Char) : Option String :=
  labels.find? fun l => l.toList.isPrefixOf s

/-- The name at the front of a text, or nothing. -/
def nameAt : List Char → List Char
  | [] => []
  | c :: s => if startsName c then c :: s.takeWhile continuesName else []

/-- The name at the front of a text is a name. -/
theorem of_nameAt {c n : Char} {s ns : List Char} (h : nameAt (c :: s) = n :: ns) :
    isName (n :: ns) = true ∧ n :: ns <+: c :: s := by
  rw [nameAt] at h
  split at h
  · next hc =>
    obtain ⟨rfl, rfl⟩ := List.cons.inj h
    refine ⟨?_, List.cons_prefix_cons.2 ⟨rfl, List.takeWhile_prefix _⟩⟩
    rw [isName, hc, Bool.true_and, List.all_eq_true]
    exact fun d hd => List.all_eq_true.1 List.all_takeWhile d hd
  · cases h

/-- Is an operand expected after the token before, if there is one? -/
def expectsOperand : Option (Lexeme V ω) → Bool
  | none => true
  | some t => t.expectsOperand

/-- Has an operand ended with the token before, if there is one? -/
def endsOperand : Option (Lexeme V ω) → Bool
  | none => false
  | some t => t.endsOperand

theorem expectsOperand_operator {op : Operator ω} (h : op.isPostfix = false) :
    expectsOperand (some (.operator op : Lexeme V ω)) = true := by
  simp [expectsOperand, Lexeme.expectsOperand, h]

/-- The other slot. -/
def Slot.other : Slot → Slot
  | before => after
  | after => before

/-- What a label means after the token before: its function, or else its operator
for this context, or else the operator it has. -/
def Dictionary.resolve (D : Dictionary V ω) (label : String)
    (previous : Option (Lexeme V ω)) : Option (Lexeme V ω) :=
  match D.function? label with
  | some f => some (.function f.item)
  | none =>
    let slot := if expectsOperand previous then Slot.before else Slot.after
    match D.operator? label slot with
    | some op => some (.operator op.item)
    | none => (D.operator? label slot.other).map fun op => .operator op.item

/-- The slot in which an operator is looked for first, after the token before. -/
def Slot.expected (previous : Option (Lexeme V ω)) : Slot :=
  if expectsOperand previous then before else after

/-- The lexeme is what the label means after the token before: its function, or its operator in
the slot for the place, or its other operator if this slot is empty. -/
inductive Dictionary.Meaning (D : Dictionary V ω) (label : String)
    (previous : Option (Lexeme V ω)) : Lexeme V ω → Prop
  | function {f : Placed (Function ω)} : D.function? label = some f →
      Meaning D label previous (.function f.item)
  | operator {op : Placed (Operator ω)} {slot : Slot} : D.operator? label slot = some op →
      (slot = .expected previous ∨ D.operator? label (.expected previous) = none) →
        Meaning D label previous (.operator op.item)

theorem Dictionary.meaning_of_resolve {D : Dictionary V ω} {label : String}
    {previous : Option (Lexeme V ω)} {t : Lexeme V ω} (h : D.resolve label previous = some t) :
    D.Meaning label previous t := by
  simp only [resolve] at h
  split at h
  · next f hf =>
    obtain rfl := Option.some.inj h
    exact .function hf
  · split at h
    · next op hop =>
      obtain rfl := Option.some.inj h
      exact .operator hop (.inl rfl)
    · next hempty =>
      obtain ⟨op, hop, rfl⟩ := Option.map_eq_some_iff.1 h
      exact .operator hop (.inr hempty)

namespace Lexicon

/-- Converts a literal.  A failure that is about the literal is reported there. -/
def operand (L : Lexicon V ω) (literal : List Char) (position : Nat) :
    Except LexicalError (Lexeme V ω) :=
  match L.convert (String.ofList literal) with
  | .ok v => .ok (.operand v)
  | .error f =>
    if f.kind.refusesLiteral then .error (.literal (String.ofList literal) f position)
    else .error (.interrupted f)

/-- The lexeme at the front of the text `c :: s`, and how many characters it
covers.  `labels` are the labels of the dictionary, longest first, and `before` is
the text up to `position`, where this lexeme begins. -/
def next (L : Lexicon V ω) (labels : List String) (before : List Char)
    (previous : Option (Lexeme V ω)) (position : Nat) (c : Char) (s : List Char) :
    Except LexicalError (Lexeme V ω × Nat) :=
  match Matcher.literal? L.patterns before (c :: s) with
  | some literal => (L.operand literal position).map fun t => (t, literal.length)
  | none =>
    match label? labels (c :: s) with
    | some label =>
      match L.dictionary.resolve label previous with
      | some t => .ok (t, label.length)
      | none => .error (.meaningless label position)
    | none =>
      match nameAt (c :: s) with
      | n :: ns => .ok (.var (String.ofList (n :: ns)), ns.length + 1)
      | [] =>
        if isStructural c then .ok (.punctuation (String.singleton c), 1)
        else .error (.unexpected c position)

/-- What can be found at the front of the text `c :: s`, behind the characters `before` and
after the token before, and how many characters it covers. -/
inductive Finds (L : Lexicon V ω) (labels : List String) (before : List Char)
    (previous : Option (Lexeme V ω)) (c : Char) (s : List Char) : Lexeme V ω → Nat → Prop
  | operand {literal : List Char} {v : V} :
      Matcher.literal? L.patterns before (c :: s) = some literal →
      L.convert (String.ofList literal) = .ok v →
      Finds L labels before previous c s (.operand v) literal.length
  | label {label : String} {t : Lexeme V ω} :
      Matcher.literal? L.patterns before (c :: s) = none →
      label? labels (c :: s) = some label → L.dictionary.resolve label previous = some t →
      Finds L labels before previous c s t label.length
  | name {n : Char} {ns : List Char} : Matcher.literal? L.patterns before (c :: s) = none →
      label? labels (c :: s) = none → nameAt (c :: s) = n :: ns →
      Finds L labels before previous c s (.var (String.ofList (n :: ns))) (ns.length + 1)
  | mark : Matcher.literal? L.patterns before (c :: s) = none → label? labels (c :: s) = none →
      nameAt (c :: s) = [] → isStructural c = true →
      Finds L labels before previous c s (.punctuation (String.singleton c)) 1

section

variable {L : Lexicon V ω} {labels : List String} {before : List Char}
  {previous : Option (Lexeme V ω)} {position length : Nat} {c : Char} {s : List Char}
  {t : Lexeme V ω}

theorem operand_eq_ok {literal : List Char} :
    L.operand literal position = .ok t ↔
      ∃ v, L.convert (String.ofList literal) = .ok v ∧ t = .operand v := by
  rw [operand]
  constructor
  · intro h
    split at h
    · next v hv => exact ⟨v, hv, (Except.ok.inj h).symm⟩
    · split at h <;> cases h
  · rintro ⟨v, hv, rfl⟩
    rw [hv]

theorem finds_of_next (h : L.next labels before previous position c s = .ok (t, length)) :
    L.Finds labels before previous c s t length := by
  simp only [next] at h
  split at h
  · next literal hliteral =>
    cases hoperand : L.operand literal position with
    | error e =>
      rw [hoperand] at h
      cases h
    | ok u =>
      rw [hoperand] at h
      obtain ⟨rfl, rfl⟩ := Prod.mk.inj (Except.ok.inj h)
      obtain ⟨v, hv, rfl⟩ := operand_eq_ok.1 hoperand
      exact .operand hliteral hv
  · next hliteral =>
    split at h
    · next hlabel =>
      split at h
      · next hresolve =>
        obtain ⟨rfl, rfl⟩ := Prod.mk.inj (Except.ok.inj h)
        exact .label hliteral hlabel hresolve
      · cases h
    · next hlabel =>
      split at h
      · next hname =>
        obtain ⟨rfl, rfl⟩ := Prod.mk.inj (Except.ok.inj h)
        exact .name hliteral hlabel hname
      · next hname =>
        split at h
        · next hmark =>
          obtain ⟨rfl, rfl⟩ := Prod.mk.inj (Except.ok.inj h)
          exact .mark hliteral hlabel hname hmark
        · cases h

theorem Finds.next (h : L.Finds labels before previous c s t length) :
    L.next labels before previous position c s = .ok (t, length) := by
  cases h with
  | operand hliteral hv =>
    simp only [Lexicon.next, hliteral, operand_eq_ok.2 ⟨_, hv, rfl⟩]
    rfl
  | label hliteral hlabel hresolve => simp only [Lexicon.next, hliteral, hlabel, hresolve]
  | name hliteral hlabel hname => simp only [Lexicon.next, hliteral, hlabel, hname]
  | mark hliteral hlabel hname hmark =>
    simp only [Lexicon.next, hliteral, hlabel, hname, hmark, if_true]

/-- **The lexer reads what can be found.** -/
theorem next_eq_ok : L.next labels before previous position c s = .ok (t, length) ↔
    L.Finds labels before previous c s t length :=
  ⟨finds_of_next, Finds.next⟩

end

/-! ### All tokens -/

/-- The multiplication that is put in front of `t`, if one is implied there. -/
def implied (previous : Option (Lexeme V ω)) (t : Lexeme V ω) (position : Nat) :
    List (Token V ω) :=
  if endsOperand previous && t.beginsOperand then [⟨.operator .juxtaposition, position⟩]
  else []

theorem eq_of_mem_implied {previous : Option (Lexeme V ω)} {t : Lexeme V ω} {position : Nat}
    {u : Token V ω} (h : u ∈ implied previous t position) :
    u = ⟨.operator .juxtaposition, position⟩ := by
  rw [implied] at h
  split at h
  · exact List.mem_singleton.1 h
  · cases h

/-- The tokens of what is left of `text` from `position` on, after the token before.  The first
`covered` characters belong to that token. -/
def scan (L : Lexicon V ω) (labels : List String) (text : List Char)
    (previous : Option (Lexeme V ω)) :
    (covered position : Nat) → List Char → Except LexicalError (List (Token V ω))
  | _, _, [] => .ok []
  | covered + 1, position, _ :: s => scan L labels text previous covered (position + 1) s
  | 0, position, c :: s =>
    if Text.isBlank c then scan L labels text previous 0 (position + 1) s
    else
      match L.next labels (text.take position) previous position c s with
      | .error e => .error e
      | .ok (t, length) =>
        match scan L labels text (some t) (length - 1) (position + 1) s with
        | .error e => .error e
        | .ok ts => .ok (implied previous t position ++ ⟨t, position⟩ :: ts)

/-- The characters that a token covers are passed over. -/
theorem scan_covered {L : Lexicon V ω} {previous : Option (Lexeme V ω)} (labels : List String)
    (text s rest : List Char) (position : Nat) :
    L.scan labels text previous s.length position (s ++ rest) =
      L.scan labels text previous 0 (position + s.length) rest := by
  induction s generalizing position with
  | nil => rfl
  | cons c s ih =>
    rw [List.length_cons, List.cons_append, scan, ih, Nat.add_right_comm]
    rfl

/-- A word is passed over, and reading goes on behind it. -/
theorem scan_word {L : Lexicon V ω} {labels : List String} {previous : Option (Lexeme V ω)}
    {position : Nat} {c : Char} {text u rest : List Char} {l : Lexeme V ω}
    (hblank : Text.isBlank c = false)
    (hnext : L.next labels (text.take position) previous position c (u ++ rest) =
      .ok (l, u.length + 1)) :
    L.scan labels text previous 0 position (c :: (u ++ rest)) =
      (L.scan labels text (some l) 0 (position + (u.length + 1)) rest).map
        fun ts => implied previous l position ++ ⟨l, position⟩ :: ts := by
  rw [scan, if_neg (by simp [hblank]), hnext]
  simp only [Nat.add_sub_cancel, scan_covered, Nat.add_assoc, Nat.add_comm 1]
  cases L.scan labels text (some l) 0 (position + (u.length + 1)) rest with
  | error e => rfl
  | ok ts => rfl

/-- Induction over the tokens of a text, each after the token before it. -/
theorem scan_induction {L : Lexicon V ω} {labels : List String} {text : List Char}
    {motive : Option (Lexeme V ω) → List (Token V ω) → Prop}
    (done : ∀ previous, motive previous [])
    (word : ∀ {previous : Option (Lexeme V ω)} {position : Nat} {c : Char} {s : List Char}
      {t : Lexeme V ω} {length : Nat} {ts : List (Token V ω)}, Text.isBlank c = false →
        L.next labels (text.take position) previous position c s = .ok (t, length) →
          motive (some t) ts →
            motive previous (implied previous t position ++ ⟨t, position⟩ :: ts))
    {previous : Option (Lexeme V ω)} {covered position : Nat} {s : List Char}
    {ts : List (Token V ω)} (h : L.scan labels text previous covered position s = .ok ts) :
    motive previous ts := by
  induction s generalizing previous covered position ts with
  | nil =>
    rw [scan] at h
    rw [← Except.ok.inj h]
    exact done previous
  | cons c s ih =>
    cases covered with
    | succ n => exact ih h
    | zero =>
      rw [scan] at h
      split at h
      · exact ih h
      · next hblank =>
        split at h
        · cases h
        · next t length hnext =>
          split at h
          · cases h
          · next us hus =>
            rw [← Except.ok.inj h]
            exact word (by simpa using hblank) hnext (ih hus)

/-- The tokens of a text. -/
def tokens (L : Lexicon V ω) (text : String) : Except LexicalError (List (Token V ω)) :=
  L.scan L.dictionary.labels text.toList none 0 0 text.toList

end Lexicon

/-! ### Messages -/

namespace LexicalError

/-- The report of an error, or the failure that passed through. -/
def fault : LexicalError → Fault
  | unexpected c p =>
    .engine
      { kind := .tokenization, position := some p
        message := "Unexpected character: " ++ Text.quote (String.singleton c) }
  | literal l cause p =>
    .engine
      { kind := .tokenization, position := some p, cause := some cause.kind
        message := "Invalid literal " ++ Text.quote l ++ ": " ++ cause.text }
  | interrupted f => .foreign f
  | meaningless _ _ => .foreign ⟨.type, ""⟩

end LexicalError

end Formula
