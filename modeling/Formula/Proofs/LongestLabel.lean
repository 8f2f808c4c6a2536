/-
Formula/Proofs/LongestLabel.lean

Where the label of an operator or of a function begins what is left of a text, it is read as this
label and as nothing else.  A literal would be tried before it, but no label begins as a literal
does; a name is tried after it, even where the name goes on behind the label.  And if several
labels begin the rest, the longest one is read (`Dictionary.label?_labels`).

The label that is found has a meaning at that place, whatever token stands before.  Updates may
have filled and emptied its slots in any order, but a label without a function and without an
operator is not listed (`Reachable.mem_labels_iff`), and an operator that is not in the slot for
the place is found in the other one (`Reachable.exists_meaning`).

Main statements: `next_longest` for one place of a text, whatever has been read before, and
`followsLabels_tokens` for all the tokens of a text.
-/
import Formula.Proofs.Relevance
import Formula.Proofs.Vocabulary

namespace Formula

variable {V ω : Type}

/-! ### The longest label -/

namespace Dictionary

/-- An operator or a function is looked up under the label. -/
def HasOperation (D : Dictionary V ω) (label : String) : Prop :=
  D.lookup label = .operator ∨ D.lookup label = .function

/-- Of the labels of operators and functions that begin the text, the longest one. -/
structure Longest (D : Dictionary V ω) (s : List Char) (label : String) : Prop where
  hasOperation : D.HasOperation label
  begins : label.toList <+: s
  longest : ∀ l, D.HasOperation l → l.toList <+: s → l.length ≤ label.length

section

variable {D : Dictionary V ω} {l label : String} {s : List Char}

theorem Longest.mem_labels (h : D.Longest s label) : label ∈ D.labels :=
  mem_labels_iff_lookup.2 h.hasOperation

/-- The first label in the list that fits is the longest one that begins the text. -/
theorem label?_labels : label? D.labels s = some label ↔ D.Longest s label := by
  constructor
  · intro h
    obtain ⟨hmem, hbegins⟩ := of_label? h
    refine ⟨mem_labels_iff_lookup.1 hmem, hbegins, ?_⟩
    intro l hl hfits
    exact length_le_of_label? D.longestFirst_labels h (mem_labels_iff_lookup.2 hl) hfits
  · intro h
    refine label?_eq_some D.longestFirst_labels h.mem_labels h.begins ?_
    intro l hl hfits
    exact h.longest l (mem_labels_iff_lookup.1 hl) hfits

theorem exists_longest (hl : D.HasOperation l) (hbegins : l.toList <+: s) :
    ∃ label, D.Longest s label := by
  cases hfound : label? D.labels s with
  | none => exact absurd hbegins (label?_eq_none_iff.1 hfound l (mem_labels_iff_lookup.2 hl))
  | some label => exact ⟨label, label?_labels.1 hfound⟩

end

end Dictionary

/-! ### What a label means -/

theorem Slot.eq_or_eq_other (slot first : Slot) : slot = first ∨ slot = first.other := by
  cases slot <;> cases first <;> decide

namespace Dictionary

section

variable {D : Dictionary V ω} {label : String} {previous : Option (Lexeme V ω)}

/-- Only a label without a function and without an operator has no meaning. -/
theorem resolve_eq_none_iff :
    D.resolve label previous = none ↔
      D.function? label = none ∧ ∀ slot, D.operator? label slot = none := by
  rw [resolve_eq]
  dsimp only
  generalize (if expectsOperand previous then Slot.before else Slot.after) = first
  simp only [Option.or_eq_none_iff, Option.map_eq_none_iff]
  constructor
  · rintro ⟨⟨hfunction, hfirst⟩, hother⟩
    refine ⟨hfunction, ?_⟩
    intro slot
    rcases slot.eq_or_eq_other first with rfl | rfl
    · exact hfirst
    · exact hother
  · rintro ⟨hfunction, hoperator⟩
    exact ⟨⟨hfunction, hoperator first⟩, hoperator first.other⟩

/-- **A label that is looked up as an operator or a function means one**, after every token. -/
theorem Reachable.exists_meaning (hD : D.Reachable) (h : D.HasOperation label)
    (previous : Option (Lexeme V ω)) :
    ∃ t, D.resolve label previous = some t ∧ D.Meaning label previous t := by
  cases hresolve : D.resolve label previous with
  | some t => exact ⟨t, rfl, meaning_of_resolve hresolve⟩
  | none =>
    obtain ⟨hfunction, hoperator⟩ := resolve_eq_none_iff.1 hresolve
    rcases hD.mem_labels_iff.1 (mem_labels_iff_lookup.2 h) with hf | ⟨slot, hop⟩
    · rw [hfunction] at hf
      cases hf
    · rw [hoperator slot] at hop
      cases hop

end

end Dictionary

/-! ### At one place of a text -/

namespace Lexicon

section

variable {L : Lexicon V ω} {previous : Option (Lexeme V ω)} {label : String} {t : Lexeme V ω}
  {c : Char} {before s : List Char} {n : Nat}

theorem Standard.finds_longest (hL : L.Standard) (h : L.dictionary.Longest (c :: s) label)
    (ht : L.dictionary.resolve label previous = some t) :
    L.Finds L.dictionary.labels before previous c s t label.length :=
  .label (hL.literal?_label h.mem_labels h.begins) (Dictionary.label?_labels.2 h) ht

/-- Where a label begins the text, what is found is what the longest one means. -/
theorem Standard.meaning_of_finds (hL : L.Standard)
    (hfinds : L.Finds L.dictionary.labels before previous c s t n)
    (h : L.dictionary.Longest (c :: s) label) : L.dictionary.Meaning label previous t := by
  obtain ⟨u, hu, hmeaning⟩ := hL.reachable.exists_meaning h.hasOperation previous
  have hnext : L.next L.dictionary.labels before previous 0 c s = .ok (u, label.length) :=
    (hL.finds_longest h hu).next
  rw [hfinds.next] at hnext
  obtain ⟨rfl, -⟩ := Prod.mk.inj (Except.ok.inj hnext)
  exact hmeaning

/-- **Labels win over literals and names, and the longest one wins.**  At every place of a text
where the label of an operator or a function begins the rest, and whatever token has been read
before, the lexer reads the longest of these labels, and this label is not empty.  What it finds
is the function or an operator of the label: the operator for the place, if there is one. -/
theorem next_longest (hD : L.dictionary.Reachable) (hpatterns : L.patterns = Matcher.defaults)
    {text l : String} {position : Nat} (hl : L.dictionary.HasOperation l)
    (hbegins : l.toList <+: text.toList.drop position) (previous : Option (Lexeme V ω)) :
    ∃ c s label t, text.toList.drop position = c :: s ∧ L.dictionary.Longest (c :: s) label ∧
      L.dictionary.Meaning label previous t ∧ t.label = label ∧ 1 ≤ label.length ∧
        L.next L.dictionary.labels (text.toList.take position) previous position c s =
          .ok (t, label.length) := by
  have hL : L.Standard := ⟨hD, hpatterns⟩
  obtain ⟨label, hlongest⟩ := Dictionary.exists_longest hl hbegins
  obtain ⟨t, ht, hmeaning⟩ := hD.exists_meaning hlongest.hasOperation previous
  have hlabel : t.label = label := by
    rcases hD.of_resolve ht with ⟨f, rfl, hf⟩ | ⟨op, rfl, hop, -⟩
    · exact hf
    · exact hop
  obtain ⟨c, u, hletters, -⟩ := hD.first_letter hlongest.mem_labels
  have hlength : 1 ≤ label.length := by
    rw [← String.length_toList, hletters]
    exact Nat.succ_pos _
  obtain ⟨rest, hrest⟩ := hlongest.begins
  rw [hletters, List.cons_append] at hrest
  rw [← hrest] at hlongest ⊢
  exact ⟨c, u ++ rest, label, t, rfl, hlongest, hmeaning, hlabel, hlength,
    (hL.finds_longest hlongest ht).next⟩

end

/-! ### In a whole text -/

section

variable [DecidableEq ω] {L : Lexicon V ω} {position : Nat} {ts : List (Token V ω)}

/-- The tokens follow the labels in the text `s`, which begins at `position`: where a label begins
the rest of the text, the token that is written there is what the longest one means. -/
def FollowsLabels (L : Lexicon V ω) (position : Nat) (s : List Char) (ts : List (Token V ω)) :
    Prop :=
  ∀ t ∈ written ts, ∃ n : Nat, t.position = position + n ∧
    ∀ label, L.dictionary.Longest (s.drop n) label →
      ∃ previous, L.dictionary.Meaning label previous t.item

/-- The places are counted from further left. -/
theorem FollowsLabels.shift {u s : List Char} (h : L.FollowsLabels (position + u.length) s ts) :
    L.FollowsLabels position (u ++ s) ts := by
  intro t ht
  obtain ⟨n, hposition, hlabels⟩ := h t ht
  refine ⟨u.length + n, ?_, ?_⟩
  · rw [hposition, Int.natCast_add, Int.natCast_add, Int.add_assoc]
  · rwa [List.drop_length_add_append]

theorem FollowsLabels.word (hL : L.Standard) {previous : Option (Lexeme V ω)} {c : Char}
    {u rest : List Char} {l : Lexeme V ω}
    (hfinds : L.Finds L.dictionary.labels before previous c (u ++ rest) l (u.length + 1))
    (h : L.FollowsLabels (position + (u.length + 1)) rest ts) :
    L.FollowsLabels position (c :: (u ++ rest))
      (implied previous l position ++ ⟨l, position⟩ :: ts) := by
  intro t ht
  rw [written_implied (hfinds.ne_juxtaposition hL.reachable)] at ht
  rcases List.mem_cons.1 ht with rfl | ht
  · exact ⟨0, rfl, fun label hlabel => ⟨previous, hL.meaning_of_finds hfinds hlabel⟩⟩
  · exact FollowsLabels.shift (u := c :: u) h t ht

/-- **All tokens of a text follow the labels in it.** -/
theorem Standard.followsLabels_tokens (hL : L.Standard) {text : String}
    (h : L.tokens text = .ok ts) : L.FollowsLabels 0 text.toList ts := by
  refine words_induction (motive := fun _ => L.FollowsLabels) hL.reachable.empty_not_mem_labels
    ?_ ?_ ?_ h
  · intro previous position t ht
    cases ht
  · intro previous position c s ts _ ih
    exact FollowsLabels.shift (u := [c]) ih
  · intro previous position c u rest l ts _ hfinds ih
    exact FollowsLabels.word hL hfinds ih

end

end Lexicon

/-! ### A hyperbolic sine -/

/-- The integers with a sine, a hyperbolic sine and a factorial. -/
def hyperbolics : Lexicon Int String := { sines with dictionary := strangers }

/-- In `2sinhx`, behind the `2`, two labels begin the rest, which is a name. -/
theorem next_longest_hyperbolicSine :
    hyperbolics.dictionary.Reachable ∧ hyperbolics.patterns = Matcher.defaults ∧
      hyperbolics.dictionary.HasOperation "sin" ∧
      "sin".toList <+: "2sinhx".toList.drop 1 ∧
      ∃ c s label t, "2sinhx".toList.drop 1 = c :: s ∧
        hyperbolics.dictionary.Longest (c :: s) label ∧
        hyperbolics.dictionary.Meaning label (some (.operand 2)) t ∧ t.label = label ∧
        1 ≤ label.length ∧
        hyperbolics.next hyperbolics.dictionary.labels ("2sinhx".toList.take 1)
          (some (.operand 2)) 1 c s =
          .ok (t, label.length) := by
  have hsine : hyperbolics.dictionary.HasOperation "sin" := .inr (by rfl)
  have hbegins : "sin".toList <+: "2sinhx".toList.drop 1 := by decide
  exact ⟨reachable_strangers, rfl, hsine, hbegins,
    Lexicon.next_longest reachable_strangers rfl hsine hbegins _⟩

/-- It is the longer one, and a factorial is found even where an operand is expected. -/
example : hyperbolics.next hyperbolics.dictionary.labels ['2'] (some (.operand 2)) 1 's'
      "inhx".toList = .ok (.function hyperbolicSine, 4) ∧
    hyperbolics.next hyperbolics.dictionary.labels [] none 0 '!' "x".toList =
      .ok (.operator (factorial 6), 1) := by decide

end Formula
