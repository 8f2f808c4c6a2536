/-
Formula/Proofs/Relevance.lean

Which part of a dictionary matters for a text.  The lexer goes through all the labels that
there are, longest first, and labels that have nothing to do with the text stand before and
between those that do.  But it takes a label only where the text goes on with it, so a label
that is not a part of the text is passed over everywhere.

Two dictionaries `AgreeAt` a label if they give it the same function and the same operators.
If they agree at all parts of a text, then at every place the same labels begin the rest of
it; both lists of labels are in one order, so the first of these is the same
(`Ordered.label?_congr`), and it means the same (`AgreeAt.resolve`).

Main statement: `tokens_eq_of_agreeAt`.
-/
import Formula.Proofs.Coverage

namespace Formula

variable {V ω : Type}

/-! ### Labels at the front of a text -/

/-- Of two lists of labels in order, the same label is found if the same ones begin the text. -/
theorem Ordered.label?_congr {ls ks : List String} {s : List Char} (hls : Ordered ls)
    (hks : Ordered ks) (h : ∀ l : String, l.toList <+: s → (l ∈ ls ↔ l ∈ ks)) :
    label? ls s = label? ks s := by
  have hfilter : (ls.filter fun l => l.toList.isPrefixOf s) =
      ks.filter fun l => l.toList.isPrefixOf s := by
    refine Ordered.ext (hls.filter _) (hks.filter _) ?_
    intro l
    simp only [List.mem_filter, List.isPrefixOf_iff_prefix]
    exact and_congr_left (h l)
  rw [label?, label?, ← List.head?_filter, hfilter, List.head?_filter]

/-! ### Dictionaries that agree -/

namespace Dictionary

/-- The dictionaries give the label the same function, if any, and the same operator in each
slot.  A function or an operator may have been registered with another position. -/
structure AgreeAt (D E : Dictionary V ω) (label : String) : Prop where
  function : (D.function? label).map (·.item) = (E.function? label).map (·.item)
  operator : ∀ slot, (D.operator? label slot).map (·.item) = (E.operator? label slot).map (·.item)

section

variable {D E : Dictionary V ω} {label : String}

/-- A label is listed if it has a function, or an operator in one of its slots. -/
theorem Reachable.mem_labels_iff (hD : D.Reachable) :
    label ∈ D.labels ↔
      (D.function? label).isSome = true ∨ ∃ slot, (D.operator? label slot).isSome = true := by
  simp only [Option.isSome_iff_exists]
  constructor
  · intro h
    rcases mem_labels.1 h with h | ⟨s, hs⟩ | hf
    · -- every predefined label has an operator that is read after an operand
      simp only [predefinedLabels, List.mem_cons, List.not_mem_nil, or_false] at h
      rcases h with rfl | rfl | rfl | rfl | rfl | rfl <;> exact .inr ⟨.after, _, rfl⟩
    · obtain ⟨-, hplain, hfilled⟩ := hD.operators hs
      obtain ⟨slot, op, hop⟩ := hfilled.inhabited
      have hnone : (predefined? label : Option (Slots ω)) = none := by
        rw [← Option.isNone_iff_eq_none, ← Option.isSome_eq_false_iff, isSome_predefined?, hplain]
      refine .inr ⟨slot, op, ?_⟩
      simp only [operator?, hnone, hs, Option.bind_some, hop]
    · exact .inl hf
  · rintro (hf | ⟨slot, op, hop⟩)
    · exact mem_labels.2 (.inr (.inr hf))
    · exact mem_labels_of_operator? hop

theorem AgreeAt.mem_labels (h : D.AgreeAt E label) (hD : D.Reachable) (hE : E.Reachable) :
    label ∈ D.labels ↔ label ∈ E.labels := by
  have hfunction : (D.function? label).isSome = (E.function? label).isSome := by
    simpa using congrArg Option.isSome h.function
  have hoperator : ∀ slot, (D.operator? label slot).isSome = (E.operator? label slot).isSome := by
    intro slot
    simpa using congrArg Option.isSome (h.operator slot)
  rw [hD.mem_labels_iff, hE.mem_labels_iff, hfunction]
  simp only [hoperator]

/-- What a label means is the item of its function or, if it has none, of the first operator
that is found. -/
theorem resolve_eq (D : Dictionary V ω) (label : String) (previous : Option (Lexeme V ω)) :
    D.resolve label previous =
      let slot := if expectsOperand previous then Slot.before else Slot.after
      ((((D.function? label).map (·.item)).map .function).or
        (((D.operator? label slot).map (·.item)).map .operator)).or
          (((D.operator? label slot.other).map (·.item)).map .operator) := by
  rw [resolve]
  cases D.function? label with
  | some f => rfl
  | none =>
    dsimp only
    generalize (if expectsOperand previous then Slot.before else Slot.after) = slot
    cases D.operator? label slot with
    | some op => rfl
    | none => cases D.operator? label slot.other <;> rfl

theorem AgreeAt.resolve (h : D.AgreeAt E label) (previous : Option (Lexeme V ω)) :
    D.resolve label previous = E.resolve label previous := by
  simp only [resolve_eq, h.function, h.operator]

end

end Dictionary

/-! ### Texts -/

namespace Lexicon

variable {L : Lexicon V ω} {E : Dictionary V ω}

/-- At every place of the text the same is read, whatever the tokens before have left. -/
theorem next_eq_of_agreeAt (hD : L.dictionary.Reachable) (hE : E.Reachable) {c : Char}
    {s : List Char} (h : ∀ label : String, label.toList <+: c :: s → L.dictionary.AgreeAt E label)
    (before : List Char) (previous : Option (Lexeme V ω)) (position : Nat) :
    L.next L.dictionary.labels before previous position c s =
      { L with dictionary := E }.next E.labels before previous position c s := by
  have hlabel : label? L.dictionary.labels (c :: s) = label? E.labels (c :: s) :=
    Ordered.label?_congr L.dictionary.ordered_labels E.ordered_labels
      fun l hl => (h l hl).mem_labels hD hE
  rw [next, next, hlabel]
  cases hliteral : Matcher.literal? L.patterns before (c :: s) with
  | some literal => rfl
  | none =>
    cases hfound : label? E.labels (c :: s) with
    | none => rfl
    | some label =>
      have hprefix := (of_label? hfound).2
      simp only [(h label hprefix).resolve previous]

theorem scan_eq_of_agreeAt (hD : L.dictionary.Reachable) (hE : E.Reachable) {s : List Char}
    (h : ∀ label : String, label.toList <:+: s → L.dictionary.AgreeAt E label)
    (text : List Char) (previous : Option (Lexeme V ω)) (covered position : Nat) :
    L.scan L.dictionary.labels text previous covered position s =
      { L with dictionary := E }.scan E.labels text previous covered position s := by
  induction s generalizing previous covered position with
  | nil => cases covered <;> rfl
  | cons c s ih =>
    have ih := ih fun label hlabel => h label (hlabel.trans (List.suffix_cons c s).isInfix)
    cases covered with
    | succ n => exact ih previous n (position + 1)
    | zero =>
      rw [scan, scan, next_eq_of_agreeAt hD hE (fun label hlabel => h label hlabel.isInfix)]
      simp only [ih]

/-- **Labels that do not occur in a text cannot change how it is read.**  Two dictionaries that
agree at every label that is a part of the text give it the same tokens, or the same error at
the same place, whatever else they hold. -/
theorem tokens_eq_of_agreeAt (hD : L.dictionary.Reachable) (hE : E.Reachable) {text : String}
    (h : ∀ label : String, label.toList <:+: text.toList → L.dictionary.AgreeAt E label) :
    L.tokens text = { L with dictionary := E }.tokens text :=
  scan_eq_of_agreeAt hD hE h _ none 0 0

end Lexicon

/-! ### A sine among strangers -/

/-- A function of one argument. -/
def sine : Function String := ⟨"sin", 1, .custom "sin", none⟩

/-- Its label begins with that of `sine`. -/
def hyperbolicSine : Function String := ⟨"sinh", 1, .custom "sinh", none⟩

/-- The integers with a sine. -/
def sines : Lexicon Int String where
  dictionary := ⟨.empty, .ofList [("sin", ⟨sine, -1⟩)], .empty⟩
  convert := Numeral.integer

/-- A dictionary in which foreign labels stand before and behind that of the sine. -/
def strangers : Dictionary Int String :=
  ⟨.ofList [("!", { after := some ⟨factorial 6, -1⟩ })],
    .ofList [("sin", ⟨sine, 7⟩), ("sinh", ⟨hyperbolicSine, -1⟩)], .ofList [("y", 3)]⟩

theorem reachable_sines : sines.dictionary.Reachable := by
  have hnone : (Dictionary.empty : Dictionary Int String).functionObstacle sine = none :=
    Dictionary.functionObstacle_eq_none.2 ⟨by decide, by decide, by decide, rfl, rfl, rfl⟩
  refine .register ⟨.function sine, -1⟩ .empty ?_
  simp only [Dictionary.register, Dictionary.registerFunction, hnone]
  rfl

theorem reachable_strangers : strangers.Reachable := by
  let D : Dictionary Int String := (factorials 6).dictionary
  let D₁ : Dictionary Int String := { D with functions := .ofList [("sin", ⟨sine, 7⟩)] }
  let D₂ : Dictionary Int String := { strangers with constants := .empty }
  have hsine : D.functionObstacle sine = none :=
    Dictionary.functionObstacle_eq_none.2 ⟨by decide, by decide, by decide, rfl, rfl, rfl⟩
  have hsinh : D₁.functionObstacle hyperbolicSine = none :=
    Dictionary.functionObstacle_eq_none.2 ⟨by decide, by decide, by decide, rfl, rfl, rfl⟩
  have hconstant : D₂.constantObstacle "y" = none := by rfl
  have hD₁ : D₁.Reachable := by
    refine .register ⟨.function sine, 7⟩ (D := D) (reachable_factorials 6) ?_
    simp only [Dictionary.register, Dictionary.registerFunction, hsine]
    rfl
  have hD₂ : D₂.Reachable := by
    refine .register ⟨.function hyperbolicSine, -1⟩ hD₁ ?_
    simp only [Dictionary.register, Dictionary.registerFunction, hsinh]
    rfl
  refine .addConstant "y" 3 hD₂ ?_
  simp only [Dictionary.addConstant, hconstant]
  rfl

/-- In `2sin(x)` neither `sinh` nor `!` occurs. -/
theorem tokens_eq_of_agreeAt_strangers :
    sines.dictionary.Reachable ∧ strangers.Reachable ∧
      (∀ label : String, label.toList <:+: "2sin(x)".toList →
        sines.dictionary.AgreeAt strangers label) ∧
      sines.tokens "2sin(x)" = { sines with dictionary := strangers }.tokens "2sin(x)" := by
  have hagree : ∀ label : String, label.toList <:+: "2sin(x)".toList →
      sines.dictionary.AgreeAt strangers label := by
    intro label hlabel
    have hsinh : label ≠ "sinh" := by
      rintro rfl
      have hmem : 'h' ∈ "2sin(x)".toList := hlabel.subset (by decide)
      exact absurd hmem (by decide)
    have hmark : label ≠ "!" := by
      rintro rfl
      have hmem : '!' ∈ "2sin(x)".toList := hlabel.subset (by decide)
      exact absurd hmem (by decide)
    refine ⟨?_, ?_⟩
    · have hfunctions : strangers.functions =
          (Table.empty.insert "sin" ⟨sine, 7⟩).insert "sinh" ⟨hyperbolicSine, -1⟩ := rfl
      have hsines : sines.dictionary.functions = Table.empty.insert "sin" ⟨sine, -1⟩ := rfl
      rw [Dictionary.function?, Dictionary.function?, hfunctions, hsines, Table.get?_insert,
        Table.get?_insert, Table.get?_insert, if_neg hsinh]
      split <;> rfl
    · intro slot
      have hoperators : strangers.operators =
          Table.empty.insert "!" { after := some ⟨factorial 6, -1⟩ } := rfl
      have hsines : sines.dictionary.operators = Table.empty := rfl
      rw [Dictionary.operator?, Dictionary.operator?, hoperators, hsines, Table.get?_insert,
        if_neg hmark]
  exact ⟨reachable_sines, reachable_strangers, hagree,
    Lexicon.tokens_eq_of_agreeAt reachable_sines reachable_strangers hagree⟩

end Formula
