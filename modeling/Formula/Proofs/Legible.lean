/-
Formula/Proofs/Legible.lean

What the reader of integers reads, if users registered no operators.  Its tokens are
`Legible`: natural numbers (a literal begins with a digit or a point, so it has no sign),
names that no function's label begins, registered functions, and the predefined operators.
A formula of such tokens has a tree that can be written down again.

Main statement: `printable_of_tree`.
-/
import Formula.Proofs.Acceptance
import Formula.Proofs.Printing

namespace Formula

variable {ω : Type}

/-! ### Numbers -/

/-- A margin at the end only is no reason to change the beginning. -/
theorem Text.trimMargin_cons {c : Char} (h : isMargin c = false) (s : List Char) :
    ∃ u, trimMargin (c :: s) = c :: u := by
  rw [trimMargin, List.dropWhile_cons_of_neg (by simp [h]), List.reverse_cons,
    List.dropWhile_append]
  split
  · rw [List.dropWhile_cons_of_neg (by simp [h])]
    exact ⟨[], rfl⟩
  · exact ⟨_, by rw [List.reverse_append, List.reverse_singleton, List.singleton_append]⟩

/-- A literal without a sign is a natural number. -/
theorem Numeral.integer_nonneg {c : Char} {s : List Char} {n : Int}
    (hmargin : Text.isMargin c = false) (hminus : c ≠ '-')
    (h : integer (String.ofList (c :: s)) = .ok n) : ∃ m : Nat, n = m := by
  obtain ⟨u, hu⟩ := Text.trimMargin_cons hmargin s
  have hsign : (sign (c :: u)).1 = false := by
    rw [sign.eq_def]
    split
    · next heq => exact absurd (List.cons.inj heq).1 hminus
    · rfl
    · rfl
  rw [integer, String.toList_ofList, hu] at h
  simp only [hsign] at h
  split at h
  · cases h
  · cases h
  · exact ⟨_, (Except.ok.inj h).symm⟩

/-! ### Legible tokens -/

/-- What the reader of integers reads. -/
inductive Legible (D : Dictionary Scalar ω) : Lexeme Scalar ω → Prop
  | number (n : Nat) : Legible D (.operand (.integer n))
  | var {label : String} : isName label.toList = true →
      (∀ k f, D.function? k = some f → ¬ k.toList <+: label.toList) → Legible D (.var label)
  | function {f : Placed (Function ω)} :
      D.function? f.item.label = some f → Legible D (.function f.item)
  | operator {op : Operator ω} : op ∈ Operator.written ∨ op ∈ Operator.signs →
      Legible D (.operator op)
  | juxtaposition : Legible D (.operator .juxtaposition)
  | mark (m : String) : Legible D (.punctuation m)

/-- The operators of a predefined label are written, or they are signs. -/
theorem mem_of_predefined? {label : String} {slots : Slots ω} {slot : Slot}
    {op : Placed (Operator ω)} (hslots : predefined? label = some slots)
    (h : slots.get slot = some op) : op.item ∈ Operator.written ∨ op.item ∈ Operator.signs := by
  have hlabel := mem_predefinedLabels hslots
  simp only [predefinedLabels, List.mem_cons, List.not_mem_nil, or_false] at hlabel
  rcases hlabel with rfl | rfl | rfl | rfl | rfl | rfl <;> obtain rfl := Option.some.inj hslots <;>
    cases slot <;> cases h <;> simp [Operator.written, Operator.signs]

namespace Dictionary

variable {D : Dictionary Scalar ω}

/-- Without operators of users, every operator is predefined. -/
theorem Plain.operator?_eq_some (hD : D.Plain) {label : String} {slot : Slot}
    {op : Placed (Operator ω)} (h : D.operator? label slot = some op) :
    op.item ∈ Operator.written ∨ op.item ∈ Operator.signs := by
  rw [operator?, hD.operators] at h
  split at h
  · next slots hslots =>
    exact mem_of_predefined? hslots h
  · cases h

/-- What a label means is legible. -/
theorem Plain.legible_resolve (hD : D.Plain) {label : String}
    {previous : Option (Lexeme Scalar ω)} {l : Lexeme Scalar ω}
    (h : D.resolve label previous = some l) : Legible D l := by
  cases meaning_of_resolve h with
  | function hf => exact .function (by rwa [(hD.reachable.function hf).1])
  | operator hop _ => exact .operator (hD.operator?_eq_some hop)

end Dictionary

namespace Lexicon

variable {D : Dictionary Scalar ω} {previous : Option (Lexeme Scalar ω)}

/-- The numbers of literals are natural numbers. -/
theorem legible_operand {c : Char} {s : List Char} {v : Scalar}
    (hmargin : Text.isMargin c = false) (hminus : c ≠ '-')
    (h : (integers D).convert (String.ofList (c :: s)) = .ok v) : Legible D (.operand v) := by
  rw [convert_integers, Scalar.read] at h
  cases hn : Numeral.integer (String.ofList (c :: s)) with
  | error e =>
    rw [hn] at h
    cases h
  | ok n =>
    rw [hn] at h
    obtain ⟨m, rfl⟩ := Numeral.integer_nonneg hmargin hminus hn
    rw [← Except.ok.inj h]
    exact .number m

/-- Where no label is found, no function's label begins the name. -/
theorem legible_name {c n : Char} {s ns : List Char} (hlabel : label? D.labels (c :: s) = none)
    (hname : nameAt (c :: s) = n :: ns) : Legible D (.var (String.ofList (n :: ns))) := by
  obtain ⟨hisName, hprefix⟩ := of_nameAt hname
  refine .var ?_ ?_
  · rwa [String.toList_ofList]
  · intro k f hf hk
    rw [String.toList_ofList] at hk
    have hmem : k ∈ D.labels := Dictionary.mem_labels.2 (.inr (.inr ⟨f, hf⟩))
    have hnone := List.find?_eq_none.1 hlabel k hmem
    exact hnone (List.isPrefixOf_iff_prefix.2 (hk.trans hprefix))

theorem legible_next (hD : D.Plain) {before s : List Char} {position : Nat} {c : Char}
    {l : Lexeme Scalar ω} {length : Nat} (hblank : Text.isBlank c = false)
    (h : (integers D).next D.labels before previous position c s = .ok (l, length)) :
    Legible D l := by
  cases next_eq_ok.1 h with
  | operand hliteral hv =>
    obtain ⟨u, rfl, -⟩ := Matcher.literal?_eq_some hliteral
    have hmargin : Text.isMargin c = false := by
      rw [Text.isMargin, hblank, Bool.false_and]
    -- a literal has no sign, so its number is not negative
    have hminus : c ≠ '-' := by
      rintro rfl
      have hnone : Matcher.literal? (integers D).patterns before ('-' :: s) = none :=
        Matcher.literal?_eq_none (by decide) (by decide)
      rw [hnone] at hliteral
      cases hliteral
    exact legible_operand hmargin hminus hv
  | label _ _ hresolve => exact hD.legible_resolve hresolve
  | name _ hlabel hname => exact legible_name hlabel hname
  | mark _ _ _ _ => exact .mark _

theorem legible_implied {l : Lexeme Scalar ω} {position : Nat} :
    ∀ t ∈ implied previous l position, Legible D t.item := by
  intro t ht
  rw [eq_of_mem_implied ht]
  exact .juxtaposition

/-- All tokens of a text are legible. -/
theorem legible_tokens (hD : D.Plain) {text : String} {ts : List (Token Scalar ω)}
    (h : (integers D).tokens text = .ok ts) : ∀ t ∈ ts, Legible D t.item := by
  refine scan_induction (motive := fun _ ts => ∀ t ∈ ts, Legible D t.item) (by simp) ?_ h
  intro _ _ _ _ l _ ts hblank hnext hts
  have hl : Legible D l := legible_next hD hblank hnext
  exact List.forall_mem_append.2 ⟨legible_implied, List.forall_mem_cons.2 ⟨hl, hts⟩⟩

end Lexicon

/-! ### Trees of legible tokens -/

/-- A formula of legible tokens has a tree that can be written down. -/
theorem Tree.Grown.printable {D : Dictionary Scalar ω} {t : Tree Scalar ω}
    (h : t.Grown fun t => Legible D t.item) : Printable D t := by
  induction h with
  | @operand v p hlegible =>
    cases hlegible with
    | number n => exact .number n p
  | @var label p hlegible =>
    cases hlegible with
    | var hname hfree => exact .var p hname hfree
  | @call f p xs hlegible hadmits _ ih =>
    cases hlegible with
    | function hf => exact .call p hf hadmits ih
  | @before op p x hlegible hop _ ih =>
    cases hlegible with
    | operator hmem =>
      rcases hmem with hmem | hmem
      -- of the operators that are legible, only signs stand before their operand
      · rw [Operator.isPrefix_of_isBinary (isBinary_of_written hmem)] at hop
        cases hop
      · exact .sign p hmem ih
    | juxtaposition => cases hop
  | @after op p x hlegible hop _ _ =>
    cases hlegible with
    | operator hmem =>
      rw [not_isPostfix_of_predefined hmem] at hop
      cases hop
    | juxtaposition => cases hop
  | @between op p x y hlegible hop _ _ ihx ihy =>
    cases hlegible with
    | operator hmem =>
      rcases hmem with hmem | hmem
      · exact .between p hmem ihx ihy
      · rw [Operator.isBinary_of_isPrefix (isPrefix_of_signs hmem)] at hop
        cases hop
    | juxtaposition => exact .juxtaposed p ihx ihy

/-- **The tree of a text can be written down again.** -/
theorem printable_of_tree {D : Dictionary Scalar ω} (hD : D.Plain) {text : String}
    {t : Tree Scalar ω} (h : (Reader.integers D).tree text = .ok t) : Printable D t := by
  obtain ⟨ts, ps, hts, hparse, hbuild⟩ := Reader.tree_eq_ok.1 h
  have hderives := derives_of_ofPostfix (Lexicon.apart_tokens hts) hparse hbuild
  obtain ⟨u, hgrown, hparse', hbuild'⟩ := toPostfix_of_derives hderives
  rw [hparse] at hparse'
  rw [Except.ok.inj hparse', hbuild'] at hbuild
  obtain rfl : u = t := Except.ok.inj hbuild
  exact (hgrown.mono (Lexicon.legible_tokens hD hts)).printable

end Formula
