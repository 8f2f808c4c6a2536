/-
Formula/Proofs/Composition.lean

Texts are put together from texts.  In front of a break a text is scanned as it is scanned
alone, from where it stands (`lexes_tokens`), and its tokens are read as they are read alone,
whatever waits before them (`readsWhole_of_items`).  So a text between parentheses is an operand
like any other, whose tree is that of the text alone.

`Makes` holds both together for a part of a text.  Each way of putting texts together is one
lemma about it, and there is a lemma to get into `Makes` from a text that has a tree, and one
to get out of it.

Main statement: `builds_composite`.
-/
import Formula.Proofs.Acceptance
import Formula.Proofs.Relocation
import Formula.Proofs.Spacing
import Formula.Proofs.Vocabulary
import Mathlib.Tactic.Choose

namespace Formula

variable {V ω : Type}

/-! ### The tokens of a text in another place -/

theorem Dictionary.resolve_congr {D : Dictionary V ω} {p q : Option (Lexeme V ω)}
    (h : expectsOperand p = expectsOperand q) (label : String) :
    D.resolve label p = D.resolve label q := by
  rw [resolve, resolve, h]

namespace Lexicon

/-- Of the token before, it matters only whether an operand has ended and whether one is
expected. -/
theorem scan_congr (L : Lexicon V ω) (labels : List String) (text : List Char)
    {p q : Option (Lexeme V ω)} (hends : endsOperand p = endsOperand q)
    (hexpects : expectsOperand p = expectsOperand q) (position : Nat) (s : List Char) :
    L.scan labels text p 0 position s = L.scan labels text q 0 position s := by
  induction s generalizing position with
  | nil => rfl
  | cons c s ih =>
    have hnext : L.next labels (text.take position) p position c s =
        L.next labels (text.take position) q position c s := by
      simp only [next, Dictionary.resolve_congr hexpects]
    have himplied : ∀ t : Lexeme V ω, implied p t position = implied q t position := by
      intro t
      rw [implied, implied, hends]
    rw [scan, scan, ih, hnext]
    simp only [himplied]

end Lexicon

theorem expectsOperand_of_endsOperand {previous : Option (Lexeme V ω)}
    (h : endsOperand previous = true) : expectsOperand previous = false := by
  cases hexpects : expectsOperand previous with
  | false => rfl
  | true =>
    rw [endsOperand_of_expectsOperand hexpects] at h
    cases h

/-- Every phrase has a last token, and it ends an operand. -/
theorem Derives.ends {c : Phrase} {s : List (Token V ω)} (h : Derives c s) :
    ∃ u t, s = u ++ [t] ∧ t.item.endsOperand = true := by
  induction h with
  | operand v p | var l p => exact ⟨[], _, rfl, rfl⟩
  | group p q _ _ => exact ⟨_ :: _, _, rfl, rfl⟩
  | emptyCall p q r _ => exact ⟨[_, _], _, rfl, rfl⟩
  | call p q r _ _ _ => exact ⟨_ :: _ :: _, _, rfl, rfl⟩
  | suffixed _ ih | term _ ih | formula _ ih | argument _ ih => exact ih
  | after p _ hop _ => exact ⟨_, _, rfl, hop⟩
  | before p _ _ ih =>
    obtain ⟨u, t, rfl, ht⟩ := ih
    exact ⟨_ :: u, t, rfl, ht⟩
  | @between op s r p _ _ _ _ ih | @another n s r p _ _ _ ih =>
    obtain ⟨u, t, rfl, ht⟩ := ih
    exact ⟨s ++ _ :: u, t, by rw [List.append_assoc, List.cons_append], ht⟩

/-- **In front of a break a formula is scanned as it is alone**, wherever an operand is
expected. -/
theorem Lexicon.Standard.lexes_tokens {L : Lexicon V ω} (hL : L.Standard) {text : String}
    {ts : List (Token V ω)} (h : L.tokens text = .ok ts) (hts : Derives .formula ts) :
    Lexes L text.toList (ts.map (·.item)) where
  begins := by
    obtain ⟨t, us, rfl, ht⟩ := hts.begins
    exact ⟨t.item, _, rfl, ht⟩
  scans previous rest hprev hrest := by
    obtain ⟨us, t, rfl, ht⟩ := hts.ends
    have hstands : Formula.Stands true (lastItem previous (us ++ [t])) := by
      rw [lastItem_concat]
      have hends : endsOperand (some t.item) = true := ht
      exact ⟨hends, expectsOperand_of_endsOperand hends⟩
    refine ⟨_, hstands, fun text' position =>
      ⟨(us ++ [t]).map (Placed.later position), ?_, ?_⟩⟩
    · rw [List.map_map]
      rfl
    · have hscan := Lexicon.scan_later hL.unbroken text' position h
      rw [Nat.zero_add, Lexicon.scan_congr L _ _ (p := none) (q := previous)
        hprev.ends.symm hprev.expects.symm] at hscan
      have happend := Lexicon.scan_append hL.unbroken hrest hscan
      rw [happend]
      congr 2
      rw [List.map_append, List.map_singleton, lastItem_concat, lastItem_concat]
      rfl

/-! ### Texts that make trees -/

/-- Wherever an operand is expected, and in front of a break, the characters `s` are scanned as
the lexemes `ls`, and tokens with these lexemes are read as the formula `x`. -/
structure Makes (L : Lexicon V ω) (s : List Char) (ls : List (Lexeme V ω)) (x : Tree V ω) :
    Prop where
  lexes : Lexes L s ls
  reads : ∀ ts : List (Token V ω), ts.map (·.item) = ls → ReadsWhole ts x

/-- Reading the text gives the tree, up to positions. -/
def Reader.Builds (R : Reader V ω) (text : String) (x : Tree V ω) : Prop :=
  ∃ y, R.tree text = .ok y ∧ y.unplaced = x.unplaced

theorem Reader.makes {R : Reader V ω} (hR : R.Standard) {text : String} {x : Tree V ω}
    (h : R.tree text = .ok x) : ∃ ls, Makes R.toLexicon text.toList ls x := by
  obtain ⟨ts, ps, hts, hparse, hbuild⟩ := Reader.tree_eq_ok.1 h
  have hderives := derives_of_ofPostfix (Lexicon.apart_tokens hts) hparse hbuild
  exact ⟨_, hR.lexes_tokens hts hderives, fun us hus =>
    readsWhole_of_items hderives hparse hbuild hus⟩

section

variable {L : Lexicon V ω} {s u : List Char} {ls ks : List (Lexeme V ω)} {x y : Tree V ω}
  {label : String} {p : Int}

/-- The tokens of a text that is scanned as `ls`. -/
theorem Lexes.tokens {text : String} (h : Lexes L text.toList ls) :
    ∃ ts : List (Token V ω), ts.map (·.item) = ls ∧ L.tokens text = .ok ts := by
  obtain ⟨next, -, hscans⟩ := h.scans none [] stands_none broken_nil
  exact hscans.tokens

/-- The tree of a text whose tokens are read as the formula `x`. -/
theorem ReadsWhole.builds {R : Reader V ω} {text : String} {ts : List (Token V ω)}
    (h : ReadsWhole ts x) (htokens : R.toLexicon.tokens text = .ok ts) : R.Builds text x := by
  obtain ⟨K, z, hreads, hx⟩ := h
  exact ⟨_, Reader.tree_eq_ok.2 ⟨ts, _, htokens, hreads.toPostfix,
    Tree.ofPostfix_postorder hreads.grown.saturated⟩, hx⟩

theorem Makes.builds {R : Reader V ω} {text : String} (h : Makes R.toLexicon text.toList ls x) :
    R.Builds text x := by
  obtain ⟨ts, hts, htokens⟩ := h.lexes.tokens
  exact (h.reads ts hts).builds htokens

/-- Between parentheses the tokens are an atom. -/
theorem Makes.readsAs (h : Makes L s ls x) {ts : List (Token V ω)}
    (hts : ts.map (·.item) = .leftParenthesis :: (ls ++ [.rightParenthesis])) : ReadsAs ts x := by
  obtain ⟨p, us, q, rfl, hus⟩ := items_eq_group hts
  refine (h.reads us hus).group ?_
  obtain ⟨l, ks, rfl, hl⟩ := h.lexes.begins
  obtain ⟨r, vs, rfl, -⟩ := items_eq_cons hus
  exact ⟨_, vs, rfl, hl⟩

/-- A text between parentheses. -/
theorem Makes.group (hL : L.Standard) (h : Makes L s ls x) :
    Makes L ('(' :: (s ++ [')'])) (.leftParenthesis :: (ls ++ [.rightParenthesis])) x where
  lexes := h.lexes.group hL
  reads _ hts := (h.readsAs hts).whole

/-- A minus in front of a text between parentheses. -/
theorem Makes.negated (hL : L.Standard) (h : Makes L s ls x) :
    Makes L ('-' :: '(' :: (s ++ [')']))
      (.operator .unaryMinus :: .leftParenthesis :: (ls ++ [.rightParenthesis]))
      (.node ⟨.operator .unaryMinus, p⟩ [x]) where
  lexes := by
    have hop : L.dictionary.operator? "-" .before = some ⟨.unaryMinus, -1⟩ := rfl
    refine Lexes.before hL hop (fun rest => ?_) (h.lexes.group hL)
    exact hL.reachable.label?_self (Dictionary.mem_labels_of_operator? hop)
      (broken_cons (c := '(') (by decide) _)
  reads ts hts := by
    obtain ⟨q, us, rfl, hus⟩ := items_eq_cons hts
    exact (((h.readsAs hus).behind _).before p rfl).whole

/-- An operator between two texts between parentheses. -/
theorem Makes.between (hL : L.Standard) {op : Placed (Operator ω)}
    (hop : L.dictionary.operator? label .after = some op) (hbinary : op.item.isBinary = true)
    (h : Makes L s ls x) (hu : Makes L u ks y) :
    Makes L ('(' :: (s ++ [')']) ++ ' ' :: (label.toList ++ ' ' :: '(' :: (u ++ [')'])))
      (.leftParenthesis :: (ls ++ [.rightParenthesis]) ++
        .operator op.item :: .leftParenthesis :: (ks ++ [.rightParenthesis]))
      (.node ⟨.operator op.item, p⟩ [x, y]) where
  lexes := (h.lexes.group hL).between hL hop hbinary (hu.lexes.group hL)
  reads ts hts := by
    obtain ⟨us, q, vs, rfl, hus, hvs⟩ := items_eq_between hts
    exact (h.readsAs hus).between p hbinary (hu.readsAs hvs)

section

variable {f : Placed (Function ω)} {α : Type} {as : List α} {write : α → List Char}
  {spell : α → List (Lexeme V ω)} {value : α → Tree V ω}

/-- The tokens of a call are an atom. -/
theorem Makes.readsAs_call (hadmits : f.item.admits as.length = true)
    (h : ∀ a ∈ as, Makes L (write a) (spell a) (value a)) {ts : List (Token V ω)}
    (hts : ts.map (·.item) = .function f.item :: .leftParenthesis ::
      (listed (as.map spell) ++ [.rightParenthesis])) :
    ReadsAs ts (callOf f.item p (as.map value)) :=
  Formula.readsAs_call p hadmits (fun a ha => (h a ha).lexes.begins) (fun a ha => (h a ha).reads)
    hts

/-- A call of a function with texts as arguments. -/
theorem Makes.call (hL : L.Standard) (hf : L.dictionary.function? label = some f)
    (hadmits : f.item.admits as.length = true)
    (h : ∀ a ∈ as, Makes L (write a) (spell a) (value a)) :
    Makes L (label.toList ++ '(' :: ([',', ' '].intercalate (as.map write) ++ [')']))
      (.function f.item :: .leftParenthesis :: (listed (as.map spell) ++ [.rightParenthesis]))
      (callOf f.item p (as.map value)) where
  lexes := .call hL hf fun a ha => (h a ha).lexes
  reads _ hts := (readsAs_call hadmits h hts).whole

end

end

/-- **Building is compositional in the text.**  Up to positions, texts between parentheses
build what they build alone, a minus or an operator over them builds a node over their trees,
and so does a call of a function with texts as arguments. -/
theorem builds_composite {R : Reader V ω} (hD : R.dictionary.Reachable)
    (hpatterns : R.patterns = Matcher.defaults) :
    (∀ s x, R.tree s = .ok x → R.Builds ("(" ++ s ++ ")") x) ∧
    (∀ s x, R.tree s = .ok x →
      R.Builds ("-(" ++ s ++ ")") (.node ⟨.operator .unaryMinus, -1⟩ [x])) ∧
    (∀ s u x y label op, R.tree s = .ok x → R.tree u = .ok y →
      R.dictionary.operator? label .after = some op → op.item.isBinary = true →
        R.Builds ("(" ++ s ++ ") " ++ label ++ " (" ++ u ++ ")")
          (.node ⟨.operator op.item, -1⟩ [x, y])) ∧
    ∀ (parts : List (String × Tree V ω)) label f, (∀ part ∈ parts, R.tree part.1 = .ok part.2) →
      R.dictionary.function? label = some f → f.item.admits parts.length = true →
        R.Builds (label ++ "(" ++ ", ".intercalate (parts.map Prod.fst) ++ ")")
          (callOf f.item (-1) (parts.map Prod.snd)) := by
  have hR : R.Standard := ⟨hD, hpatterns⟩
  refine ⟨?_, ?_, ?_, ?_⟩
  · intro s x hs
    obtain ⟨ls, h⟩ := Reader.makes hR hs
    have := h.group hR
    exact Makes.builds (by simpa using this)
  · intro s x hs
    obtain ⟨ls, h⟩ := Reader.makes hR hs
    have := h.negated hR (p := -1)
    exact Makes.builds (by simpa using this)
  · intro s u x y label op hs hu hop hbinary
    obtain ⟨ls, h⟩ := Reader.makes hR hs
    obtain ⟨ks, hk⟩ := Reader.makes hR hu
    have := h.between hR hop hbinary hk (p := -1)
    exact Makes.builds (by simpa using this)
  · intro parts label f hparts hf hadmits
    have hmakes : ∀ part ∈ parts, ∃ ls, Makes R.toLexicon part.1.toList ls part.2 :=
      fun part hpart => Reader.makes hR (hparts part hpart)
    choose! spell hspell using hmakes
    have := Makes.call hR hf hadmits hspell (p := -1)
    exact Makes.builds (by simpa [Function.comp_def] using this)

/-! ### Comparisons and maxima -/

/-- A comparison; it binds less tightly than all predefined operators. -/
def lessThan : Operator String := ⟨"<", .infixOp, 0, .none, .custom "less"⟩

/-- The greatest of any number of arguments. -/
def maximum : Function String := ⟨"max", anyNumber, .custom "max", none⟩

/-- The integers with comparisons and maxima. -/
def comparisons : Reader Int String where
  dictionary :=
    ⟨.ofList [("<", { after := some ⟨lessThan, -1⟩ })], .ofList [("max", ⟨maximum, -1⟩)], .empty⟩
  convert := Numeral.integer
  write n := toString n

theorem reachable_comparisons : comparisons.dictionary.Reachable := by
  let D : Dictionary Int String :=
    ⟨.ofList [("<", { after := some ⟨lessThan, -1⟩ })], .empty, .empty⟩
  have hoperator : (Dictionary.empty : Dictionary Int String).operatorObstacle lessThan = none :=
    Dictionary.operatorObstacle_eq_none.2 ⟨by decide, by decide, rfl, rfl, rfl⟩
  have hfunction : D.functionObstacle maximum = none :=
    Dictionary.functionObstacle_eq_none.2 ⟨by decide, by decide, by decide, rfl, rfl, rfl⟩
  have hD : D.Reachable := by
    refine .register ⟨.operator lessThan, -1⟩ .empty ?_
    simp only [Dictionary.register, Dictionary.registerOperator, hoperator]
    rfl
  refine .register ⟨.function maximum, -1⟩ hD ?_
  simp only [Dictionary.register, Dictionary.registerFunction, hfunction]
  rfl

/-- The tree of `2 - x`. -/
def difference : Tree Int String :=
  .node ⟨.operator .subtraction, 2⟩ [.node ⟨.operand 2, 0⟩ [], .node ⟨.var "x", 4⟩ []]

/-- The tree of `max(y) 3 < x`. -/
def comparison : Tree Int String :=
  .node ⟨.operator lessThan, 9⟩
    [.node ⟨.operator .juxtaposition, 7⟩
      [callOf maximum 0 [.node ⟨.var "y", 4⟩ []], .node ⟨.operand 3, 7⟩ []],
    .node ⟨.var "x", 11⟩ []]

theorem builds_composite_comparisons :
    comparisons.dictionary.Reachable ∧ comparisons.patterns = Matcher.defaults ∧
      comparisons.tree "2 - x" = .ok difference ∧
      comparisons.tree "max(y) 3 < x" = .ok comparison ∧
      comparisons.Builds "(max(y) 3 < x)" comparison ∧
      comparisons.Builds "-(max(y) 3 < x)" (.node ⟨.operator .unaryMinus, -1⟩ [comparison]) ∧
      comparisons.Builds "(2 - x) < (max(y) 3 < x)"
        (.node ⟨.operator lessThan, -1⟩ [difference, comparison]) ∧
      comparisons.Builds "max(2 - x, max(y) 3 < x)"
        (callOf maximum (-1) [difference, comparison]) ∧
      comparisons.Builds "max()" (callOf maximum (-1) []) := by
  have hdifference : comparisons.tree "2 - x" = .ok difference :=
    Reader.tree_eq_ok.2 ⟨[⟨.operand 2, 0⟩, ⟨.operator .subtraction, 2⟩, ⟨.var "x", 4⟩],
      difference.postorder, by rfl, by rfl, by rfl⟩
  have hcomparison : comparisons.tree "max(y) 3 < x" = .ok comparison :=
    Reader.tree_eq_ok.2 ⟨[⟨.function maximum, 0⟩, ⟨.leftParenthesis, 3⟩, ⟨.var "y", 4⟩,
      ⟨.rightParenthesis, 5⟩, ⟨.operator .juxtaposition, 7⟩, ⟨.operand 3, 7⟩,
      ⟨.operator lessThan, 9⟩, ⟨.var "x", 11⟩], comparison.postorder, by rfl, by rfl, by rfl⟩
  obtain ⟨hgroup, hnegated, hbetween, hcall⟩ :=
    builds_composite (R := comparisons) reachable_comparisons rfl
  refine ⟨reachable_comparisons, rfl, hdifference, hcomparison,
    hgroup "max(y) 3 < x" _ hcomparison, hnegated "max(y) 3 < x" _ hcomparison,
    hbetween "2 - x" "max(y) 3 < x" _ _ "<" ⟨lessThan, -1⟩ hdifference hcomparison rfl rfl,
    ?_, hcall [] "max" ⟨maximum, -1⟩ (by simp) rfl rfl⟩
  refine hcall [("2 - x", difference), ("max(y) 3 < x", comparison)] "max" ⟨maximum, -1⟩ ?_ rfl rfl
  simp [hdifference, hcomparison]

end Formula
