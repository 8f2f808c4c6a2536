/-
Formula/Proofs/Constants.lean

Which constants can be read.  The name of a constant may be any that means nothing yet, and it
is compared with labels as a whole.  A text is read otherwise: the labels of operators and
functions are tried before names, and the longest one that begins the text is taken, even where
a name would go on behind it.

So the name of a constant is read as the constant exactly if no label begins it, no matter
whether the label was registered before the constant was added or afterwards.  If one does, the
operator or the function is found instead, and it stands in the tree, if there is a tree
(`exists_acceptsChildren_of_label`).

Main statement: `read_constant`.
-/
import Formula.Proofs.Bindings
import Formula.Proofs.Composition
import Formula.Proofs.LongestLabel

namespace Formula

variable {V ω : Type}

/-! ### The first token -/

/-- A label means an operator or a function. -/
theorem Dictionary.Meaning.acceptsChildren {D : Dictionary V ω} {label : String}
    {previous : Option (Lexeme V ω)} {t : Lexeme V ω} (h : D.Meaning label previous t) :
    t.acceptsChildren = true := by
  cases h with
  | function _ | operator _ _ => rfl

namespace Lexicon

section

variable {L : Lexicon V ω} {label : String} {text : String} {ts : List (Token V ω)}

/-- A name that no label begins is one token. -/
theorem Standard.tokens_name (hL : L.Standard) (hname : isName label.toList = true)
    (hfree : ∀ l ∈ L.dictionary.labels, ¬ l.toList <+: label.toList) :
    L.tokens label = .ok [⟨.var label, 0⟩] := by
  have hword : String.ofList label.toList = label := String.ofList_toList
  rw [tokens]
  cases hletters : label.toList with
  | nil =>
    rw [hletters] at hname
    cases hname
  | cons c s =>
    have hnameAt : nameAt (label.toList ++ []) = label.toList := nameAt_append hname (by simp)
    rw [hletters, List.append_nil] at hnameAt
    rw [hletters] at hname hfree hword
    simp only [isName, Bool.and_eq_true] at hname
    have hliteral : Matcher.literal? L.patterns [] (c :: s) = none := by
      rw [hL.patterns]
      exact literal?_name hname.1 [] s
    have hfinds : L.Finds L.dictionary.labels [] none c (s ++ []) (.var label) (s.length + 1) := by
      rw [List.append_nil, ← hword]
      exact .name hliteral (label?_eq_none hfree) hnameAt
    rw [← List.append_nil s, scan_word (isBlank_of_startsName hname.1) hfinds.next]
    rfl

/-- Where a label begins the text, the first token is an operator or a function. -/
theorem Standard.tokens_label (hL : L.Standard) (hlabel : label ∈ L.dictionary.labels)
    (hpre : label.toList <+: text.toList) (h : L.tokens text = .ok ts) :
    ∃ t us, ts = t :: us ∧ t.item.acceptsChildren = true := by
  obtain ⟨c, u, hletters, hblank, -⟩ := hL.reachable.first_letter hlabel
  obtain ⟨longest, hlongest⟩ :=
    Dictionary.exists_longest (Dictionary.mem_labels_iff_lookup.1 hlabel) hpre
  obtain ⟨rest, hrest⟩ := hpre
  rw [hletters, List.cons_append] at hrest
  rw [← hrest] at hlongest
  rw [tokens, ← hrest, scan, if_neg (by simp [hblank])] at h
  split at h
  · cases h
  · next t length hnext =>
    split at h
    · cases h
    · next us hus =>
      refine ⟨⟨t, 0⟩, us, (Except.ok.inj h).symm, ?_⟩
      exact (hL.meaning_of_finds (finds_of_next hnext) hlongest).acceptsChildren

end

end Lexicon

/-! ### The tree -/

/-- Operators and functions come through the yard. -/
theorem exists_acceptsChildren_of_toPostfix {t : Token V ω} {ts ps : List (Token V ω)}
    (ht : t.item.acceptsChildren = true) (h : toPostfix (t :: ts) = .ok ps) :
    ∃ u ∈ ps, u.item.acceptsChildren = true := by
  have hcounted : ∃ u ∈ counted (t :: ts), u.item.acceptsChildren = true := by
    obtain ⟨l, p⟩ := t
    cases l with
    | operator op => exact ⟨_, List.mem_cons_self .., rfl⟩
    | function f => exact ⟨_, List.mem_cons_self .., rfl⟩
    | _ => cases ht
  obtain ⟨u, hu, haccepts⟩ := hcounted
  exact ⟨u, (perm_counted_of_toPostfix h).symm.subset hu, haccepts⟩

namespace Reader

variable {R : Reader V ω} {label text : String} {x : Tree V ω}

/-- Where a label begins the text, there is an operator or a function in the tree. -/
theorem exists_acceptsChildren_of_label (hR : R.Standard) (hlabel : label ∈ R.dictionary.labels)
    (hpre : label.toList <+: text.toList) (h : R.tree text = .ok x) :
    ∃ t ∈ x.postorder, t.item.acceptsChildren = true := by
  obtain ⟨ts, ps, htokens, hparse, hbuild⟩ := tree_eq_ok.1 h
  obtain ⟨t, us, rfl, ht⟩ := hR.tokens_label hlabel hpre htokens
  obtain ⟨rfl, -⟩ := Tree.postorder_of_ofPostfix hbuild
  exact exists_acceptsChildren_of_toPostfix ht hparse

/-- A name is read as a variable exactly if no label begins it. -/
theorem tree_name (hR : R.Standard) (hname : isName text.toList = true) :
    ((∀ l ∈ R.dictionary.labels, ¬ l.toList <+: text.toList) →
        R.tree text = .ok (.node ⟨.var text, 0⟩ [])) ∧
      ((∃ p, R.tree text = .ok (.node ⟨.var text, p⟩ [])) →
        ∀ l ∈ R.dictionary.labels, ¬ l.toList <+: text.toList) := by
  constructor
  · intro hfree
    exact tree_eq_ok.2 ⟨_, [⟨.var text, 0⟩], hR.tokens_name hname hfree, rfl, rfl⟩
  · rintro ⟨p, htree⟩ l hl hpre
    obtain ⟨t, ht, haccepts⟩ := exists_acceptsChildren_of_label hR hl hpre htree
    obtain rfl := List.mem_singleton.1 ht
    cases haccepts

/-- **A constant is read by its name exactly if no label begins the name.**  Then the name is
the variable alone, and has the constant's value where the caller gives no values; and if a
label begins it, reading the name does not give the variable. -/
theorem read_constant {v : V} (hD : R.dictionary.Reachable)
    (hpatterns : R.patterns = Matcher.defaults)
    (hv : R.dictionary.constants.get? label = some v) :
    ((∀ l ∈ R.dictionary.labels, ¬ l.toList <+: label.toList) →
      ∃ e, R.read label = .ok e ∧ e.root = some (.node ⟨.var label, 0⟩ []) ∧
        ∀ {ε σ : Type} (I : Interpretation V ω ε σ), e.evaluate I none = pure v) ∧
    ((∃ e p, R.read label = .ok e ∧ e.root = some (.node ⟨.var label, p⟩ [])) →
      ∀ l ∈ R.dictionary.labels, ¬ l.toList <+: label.toList) := by
  obtain ⟨hreads, hfree⟩ := tree_name (R := R) ⟨hD, hpatterns⟩ (hD.constant hv)
  constructor
  · intro h
    refine ⟨_, read_eq_ok.2 ⟨_, hreads h, rfl⟩, rfl, ?_⟩
    intro ε σ I
    rw [Expression.evaluate_of_root rfl, Tree.eval_leaf rfl]
    show Tree.leafValue R.dictionary.constants (.var label) = pure v
    simp only [Tree.leafValue, Lexeme.label, hv]
  · rintro ⟨e, p, hread, hroot⟩
    obtain ⟨x, htree, rfl⟩ := read_eq_ok.1 hread
    obtain rfl := Option.some.inj hroot
    exact hfree ⟨p, htree⟩

end Reader

/-! ### A maximum -/

/-- The integers with maxima, a constant whose name begins like a maximum, and another one. -/
def maxima : Reader Int String :=
  { comparisons with
    dictionary :=
      { comparisons.dictionary with constants := .ofList [("maximum", 7), ("m", 2)] } }

theorem reachable_maxima : maxima.dictionary.Reachable := by
  let D : Dictionary Int String :=
    { comparisons.dictionary with constants := .ofList [("maximum", 7)] }
  have hD : D.Reachable := by
    refine .addConstant "maximum" 7 reachable_comparisons ?_
    rfl
  refine .addConstant "m" 2 hD ?_
  rfl

/-- No label begins `m`. -/
theorem read_constant_m :
    maxima.dictionary.Reachable ∧ maxima.patterns = Matcher.defaults ∧
      maxima.dictionary.constants.get? "m" = some 2 ∧
      ∃ e, maxima.read "m" = .ok e ∧ e.root = some (.node ⟨.var "m", 0⟩ []) ∧
        ∀ {ε σ : Type} (I : Interpretation Int String ε σ), e.evaluate I none = pure 2 := by
  have hv : maxima.dictionary.constants.get? "m" = some 2 := by rfl
  refine ⟨reachable_maxima, rfl, hv, ?_⟩
  exact (Reader.read_constant reachable_maxima rfl hv).1 (by decide)

/-- The label of the function begins `maximum`, and the function has no arguments there. -/
theorem read_maximum :
    maxima.dictionary.Reachable ∧ maxima.patterns = Matcher.defaults ∧
      maxima.dictionary.constants.get? "maximum" = some 7 ∧
      maxima.read "maximum" = .error (.parse (.bareFunction "max" 0)) := by
  refine ⟨reachable_maxima, rfl, rfl, ?_⟩
  rfl

end Formula
