/-
Formula/Proofs/LongestLiteral.lean

The default patterns find the longest literal.  They are tried in order, and each prefers the
first way to match that succeeds, which need not be the longest one for patterns in general.
Here it is, for two reasons.  Both patterns end with a repetition of digits, and it gives none
back, so a literal that is found stops in front of something that is no digit
(`isDigit_of_run_plus`).  And a literal that is longer would have to go on with a digit there,
with one exception: digits alone may go on with a point and more digits.  But the digits in
front of a point are taken first as a whole, with the point behind them, and only if this fails
without it.

Scientific notation has a mark that decimals lack, so the first pattern is never the shorter one.

Main statement: `literal?_defaults`.
-/
import Formula.Pattern.Language
import Formula.Proofs.Literals

namespace Formula.Pattern

variable {before s t u v w y : List Char} {c : Char}

/-! ### The shapes of literals -/

/-- Digits and points. -/
def isFigure (c : Char) : Bool := Text.isDigit c || c == '.'

theorem isDigit_point : Text.isDigit '.' = false := by decide

/-- The mark of an exponent is no figure. -/
theorem isFigure_mark (h : c = 'e' ∨ c = 'E') : isFigure c = false := by
  rcases h with rfl | rfl <;> decide

/-- A decimal is a run of digits, or it ends with a point and such a run. -/
theorem matches_decimal : decimal.Matches s ↔
    ∃ a b, (∀ c ∈ a, Text.isDigit c = true) ∧ (b ≠ [] ∧ ∀ c ∈ b, Text.isDigit c = true) ∧
      (s = a ++ '.' :: b ∨ s = a ++ b) := by
  constructor
  · rintro ⟨a, _, rfl, ha, p, b, rfl, hp, hb⟩
    refine ⟨a, b, matches_star_one.1 ha, matches_plus_one.1 hb, ?_⟩
    rcases matches_opt_char.1 hp with rfl | rfl
    · exact .inl rfl
    · exact .inr rfl
  · rintro ⟨a, b, ha, hb, rfl | rfl⟩
    · exact ⟨a, _, rfl, matches_star_one.2 ha, ['.'], b, rfl, matches_opt_char.2 (.inl rfl),
        matches_plus_one.2 hb⟩
    · exact ⟨a, _, rfl, matches_star_one.2 ha, [], b, rfl, matches_opt_char.2 (.inr rfl),
        matches_plus_one.2 hb⟩

theorem within_decimal : decimal.Within isFigure := by
  simp +contextual [Within, decimal, plus, opt, char, digit, isFigure]

/-- Scientific notation: digits and points, the mark of the exponent, and behind it at least
one character, and from the second on digits. -/
theorem of_matches_scientific (h : scientific.Matches s) :
    ∃ m e b ds, s = m ++ e :: b :: ds ∧ (∀ c ∈ m, isFigure c = true) ∧ (e = 'e' ∨ e = 'E') ∧
      ∀ c ∈ ds, Text.isDigit c = true := by
  obtain ⟨m, _, rfl, hm, _, x, rfl, ⟨e, he, rfl⟩, hx⟩ := h
  have hfigures : ∀ c ∈ m, isFigure c = true := by
    refine within_of_matches ?_ hm
    simp +contextual [Within, plus, opt, char, digit, isFigure]
  have hmark : e = 'e' ∨ e = 'E' := by simpa using he
  obtain ⟨g, ds, rfl, hg, hds⟩ := hx
  obtain ⟨hne, hds⟩ := matches_plus_one.1 hds
  obtain ⟨d, ds, rfl⟩ := List.exists_cons_of_ne_nil hne
  obtain ⟨hd, hds⟩ := List.forall_mem_cons.1 hds
  rcases hg with ⟨b, -, rfl⟩ | rfl
  · exact ⟨m, e, b, d :: ds, rfl, hfigures, hmark, List.forall_mem_cons.2 ⟨hd, hds⟩⟩
  · exact ⟨m, e, d, ds, rfl, hfigures, hmark, hds⟩

theorem ne_nil_of_matches_defaults {p : Pattern} (hp : p ∈ defaults) (h : p.Matches s) :
    s ≠ [] := by
  rintro rfl
  simp only [defaults, List.mem_cons, List.not_mem_nil, or_false] at hp
  rcases hp with rfl | rfl
  · obtain ⟨m, e, b, ds, hs, -⟩ := of_matches_scientific h
    simp at hs
  · obtain ⟨a, b, -, ⟨hb, -⟩, hs | hs⟩ := matches_decimal.1 h
    · simp at hs
    · simp [hb] at hs

/-! ### Where a literal stops -/

/-- A run of digits is not cut short. -/
theorem isDigit_of_run_plus (h : (plus digit).run t some = some v) :
    ∀ c ∈ v.head?, Text.isDigit c = false := by
  obtain ⟨_, t, rfl, -, hstar⟩ := of_run_seq_eq_some h
  have hstop : ∀ c ∈ (t.dropWhile Text.isDigit).head?, Text.isDigit c = false := by
    intro c hc
    have := List.head?_dropWhile_not Text.isDigit t
    rw [hc] at this
    simpa using this
  have hrun := run_star_one (u := t.takeWhile Text.isDigit) (k := some)
    (List.all_eq_true.1 List.all_takeWhile) hstop nofun
  rw [List.takeWhile_append_dropWhile] at hrun
  rw [digit, hrun] at hstar
  rwa [← Option.some.inj hstar]

theorem isDigit_of_scientific (h : scientific.rest? s = some v) :
    ∀ c ∈ v.head?, Text.isDigit c = false := by
  obtain ⟨_, _, -, -, h⟩ := of_run_seq_eq_some h
  obtain ⟨_, _, -, -, h⟩ := of_run_seq_eq_some h
  obtain ⟨_, _, -, -, h⟩ := of_run_seq_eq_some h
  exact isDigit_of_run_plus h

theorem isDigit_of_decimal (h : decimal.rest? s = some v) :
    ∀ c ∈ v.head?, Text.isDigit c = false := by
  obtain ⟨_, _, -, -, h⟩ := of_run_seq_eq_some h
  obtain ⟨_, _, -, -, h⟩ := of_run_seq_eq_some h
  exact isDigit_of_run_plus h

/-! ### How a literal could go on -/

theorem dropWhile_figures {a : Char → Bool} {m : List Char} (hm : ∀ c ∈ m, a c = true)
    (hc : a c = false) : (m ++ c :: s).dropWhile a = c :: s := by
  rw [List.dropWhile_append_of_pos hm, List.dropWhile_cons_of_neg (by simp [hc])]

/-- Scientific notation goes on with digits only. -/
theorem isDigit_of_scientific_append (hu : scientific.Matches u)
    (huy : scientific.Matches (u ++ y)) : ∀ c ∈ y, Text.isDigit c = true := by
  obtain ⟨m, e, b, ds, rfl, hm, he, -⟩ := of_matches_scientific hu
  obtain ⟨m', e', b', ds', heq, hm', he', hds'⟩ := of_matches_scientific huy
  -- both are the same up to the mark, which is the first character that is no figure
  have hdrop := congrArg (List.dropWhile isFigure) heq
  rw [List.append_assoc, List.cons_append, List.cons_append,
    dropWhile_figures hm (isFigure_mark he), dropWhile_figures hm' (isFigure_mark he')] at hdrop
  simp only [List.cons.injEq] at hdrop
  rw [← hdrop.2.2] at hds'
  exact fun c hc => hds' c (List.mem_append_right _ hc)

/-- A decimal goes on with digits, or it consists of digits and goes on with a point and
digits. -/
theorem of_decimal_append (hu : decimal.Matches u) (huy : decimal.Matches (u ++ c :: y))
    (hc : Text.isDigit c = false) :
    (∀ d ∈ u, Text.isDigit d = true) ∧ c = '.' ∧ (plus digit).Matches y := by
  obtain ⟨a', b', ha', hb', heq | heq⟩ := matches_decimal.1 huy
  · have hdrop := congrArg (List.dropWhile Text.isDigit) heq
    rw [dropWhile_figures ha' isDigit_point] at hdrop
    obtain ⟨a, b, ha, ⟨-, hb⟩, rfl | rfl⟩ := matches_decimal.1 hu
    · -- the digits behind the only point would go on with `c`
      rw [List.append_assoc, List.cons_append, dropWhile_figures ha isDigit_point] at hdrop
      have hmem : c ∈ b' := by
        rw [← (List.cons.inj hdrop).2]
        simp
      rw [hb'.2 c hmem] at hc
      cases hc
    · have hdigits : ∀ d ∈ a ++ b, Text.isDigit d = true := List.forall_mem_append.2 ⟨ha, hb⟩
      rw [dropWhile_figures hdigits hc] at hdrop
      obtain ⟨rfl, rfl⟩ := List.cons.inj hdrop
      exact ⟨hdigits, rfl, matches_plus_one.2 hb'⟩
  · have hmem : c ∈ a' ++ b' := heq ▸ (by simp)
    rw [List.forall_mem_append.2 ⟨ha', hb'.2⟩ c hmem] at hc
    cases hc

/-! ### The preferred literals -/

/-- Of two opening parts of a text, the longer one goes on where the shorter one ends. -/
theorem exists_cons_of_longer (hw : w <+: u ++ v) (h : u.length < w.length) :
    ∃ c y, w = u ++ c :: y ∧ c :: y <+: v := by
  obtain ⟨y, rfl⟩ := List.prefix_of_prefix_length_le (List.prefix_append u v) hw (Nat.le_of_lt h)
  have hy := (List.prefix_append_right_inj u).1 hw
  cases y with
  | nil => simp at h
  | cons c y => exact ⟨c, y, rfl, hy⟩

theorem head?_of_begins (h : c :: y <+: v) : v.head? = some c := by
  obtain ⟨z, rfl⟩ := h
  rfl

/-- Scientific notation is found in full length. -/
theorem length_le_of_scientific (h : scientific.match? s = some u) (hw : w <+: s)
    (hmatch : scientific.Matches w) : w.length ≤ u.length := by
  obtain ⟨v, rfl, hu, hrest⟩ := match?_eq_some_iff.1 h
  refine Nat.le_of_not_lt fun hlt => ?_
  obtain ⟨c, y, rfl, hy⟩ := exists_cons_of_longer hw hlt
  have hdigit := isDigit_of_scientific_append hu hmatch c (List.mem_cons_self ..)
  rw [isDigit_of_scientific hrest c (head?_of_begins hy)] at hdigit
  cases hdigit

/-- No decimal reaches beyond the mark of an exponent. -/
theorem length_le_of_scientific_decimal (h : scientific.match? s = some u) (hw : w <+: s)
    (hmatch : decimal.Matches w) : w.length ≤ u.length := by
  obtain ⟨v, rfl, hu, -⟩ := match?_eq_some_iff.1 h
  refine Nat.le_of_not_lt fun hlt => ?_
  obtain ⟨c, y, rfl, -⟩ := exists_cons_of_longer hw hlt
  obtain ⟨m, e, b, ds, rfl, -, he, -⟩ := of_matches_scientific hu
  have hfigure := within_of_matches within_decimal hmatch e (by simp)
  rw [isFigure_mark he] at hfigure
  cases hfigure

/-- A decimal is found in full length. -/
theorem length_le_of_decimal (h : decimal.match? s = some u) (hw : w <+: s)
    (hmatch : decimal.Matches w) : w.length ≤ u.length := by
  obtain ⟨v, rfl, hu, hrest⟩ := match?_eq_some_iff.1 h
  refine Nat.le_of_not_lt fun hlt => ?_
  obtain ⟨c, y, rfl, hy⟩ := exists_cons_of_longer hw hlt
  have hstop := isDigit_of_decimal hrest
  obtain ⟨hdigits, rfl, hplus⟩ :=
    of_decimal_append hu hmatch (hstop c (head?_of_begins hy))
  -- behind all the digits the point and more digits are found, so something is taken there
  let tail : Pattern := seq (opt (char '.')) (plus digit)
  have htail : tail.Matches ('.' :: y) :=
    ⟨['.'], y, rfl, matches_opt_char.2 (.inl rfl), hplus⟩
  have hfound : tail.run v some ≠ none := by
    obtain ⟨z, rfl⟩ := hy
    exact run_ne_none htail nofun
  have hrun : tail.run v some = some v := by
    rw [← hrest]
    exact (run_star_one (k := fun t => tail.run t some) hdigits hstop hfound).symm
  obtain ⟨x, v', hv, ⟨g, ds, rfl, -, hds⟩, hv'⟩ := of_run_eq_some hrun
  obtain rfl : v' = v := Option.some.inj hv'
  have hlength := congrArg List.length hv
  have hpos := List.length_pos_iff.2 (matches_plus_one.1 hds).1
  simp only [List.length_append] at hlength
  omega

/-! ### Longest literals -/

/-- At the front of `s` stands `u`, which is not empty and a text of one of the patterns, and
no longer such text stands there. -/
structure Longest (ps : List Pattern) (s u : List Char) : Prop where
  ne_nil : u ≠ []
  isPrefix : u <+: s
  matched : ∃ p ∈ ps, p.Matches u
  longest : ∀ w, w <+: s → (∃ p ∈ ps, p.Matches w) → w.length ≤ u.length

theorem Longest.eq {ps : List Pattern} (hu : Longest ps s u) (hw : Longest ps s w) : u = w := by
  have hlength := Nat.le_antisymm (hw.longest u hu.isPrefix hu.matched)
    (hu.longest w hw.isPrefix hw.matched)
  exact (List.prefix_of_prefix_length_le hu.isPrefix hw.isPrefix
    (Nat.le_of_eq hlength)).eq_of_length hlength

/-- The default patterns are tried one after the other. -/
theorem literal?_defaults_eq_or :
    Matcher.literal? Matcher.defaults before s =
      (scientific.match? s).or (decimal.match? s) := by
  have hfilter : ∀ p ∈ defaults, (p.match? s).filter (fun l => !l.isEmpty) = p.match? s := by
    intro p hp
    cases hmatch : p.match? s with
    | none => rfl
    | some l =>
      obtain ⟨-, -, hl, -⟩ := match?_eq_some_iff.1 hmatch
      simpa using ne_nil_of_matches_defaults hp hl
  rw [Matcher.defaults, Matcher.literal?_map, defaults, List.findSome?_cons,
    List.findSome?_cons, List.findSome?_nil, hfilter scientific (by simp [defaults]),
    hfilter decimal (by simp [defaults])]
  cases scientific.match? s <;> cases decimal.match? s <;> rfl

theorem longest_of_literal? (h : Matcher.literal? Matcher.defaults before s = some u) :
    Longest defaults s u := by
  have hlongest : ∀ p ∈ defaults, p.match? s = some u →
      (∀ w, w <+: s → scientific.Matches w → w.length ≤ u.length) →
        (∀ w, w <+: s → decimal.Matches w → w.length ≤ u.length) → Longest defaults s u := by
    intro p hp hmatch hscientific hdecimal
    obtain ⟨v, rfl, hu, -⟩ := match?_eq_some_iff.1 hmatch
    refine ⟨ne_nil_of_matches_defaults hp hu, List.prefix_append .., ⟨p, hp, hu⟩, ?_⟩
    rintro w hw ⟨q, hq, hmatches⟩
    simp only [defaults, List.mem_cons, List.not_mem_nil, or_false] at hq
    rcases hq with rfl | rfl
    · exact hscientific w hw hmatches
    · exact hdecimal w hw hmatches
  rw [literal?_defaults_eq_or] at h
  cases hscientific : scientific.match? s with
  | some l =>
    rw [hscientific] at h
    obtain rfl : l = u := Option.some.inj h
    exact hlongest scientific (by simp [defaults]) hscientific
      (fun w => length_le_of_scientific hscientific)
      fun w => length_le_of_scientific_decimal hscientific
  | none =>
    rw [hscientific] at h
    exact hlongest decimal (by simp [defaults]) h
      (fun w hw hmatch => absurd hmatch (match?_eq_none_iff.1 hscientific w hw))
      fun w => length_le_of_decimal h

theorem literal?_defaults_eq_none : Matcher.literal? Matcher.defaults before s = none ↔
    ∀ u, u <+: s → u ≠ [] → ∀ p ∈ defaults, ¬ p.Matches u := by
  rw [literal?_defaults_eq_or, Option.or_eq_none_iff, match?_eq_none_iff, match?_eq_none_iff]
  constructor
  · rintro ⟨hscientific, hdecimal⟩ u hu - p hp
    simp only [defaults, List.mem_cons, List.not_mem_nil, or_false] at hp
    rcases hp with rfl | rfl
    · exact hscientific u hu
    · exact hdecimal u hu
  · intro h
    have hnone : ∀ p ∈ defaults, ∀ u, u <+: s → ¬ p.Matches u := fun p hp u hu hmatch =>
      h u hu (ne_nil_of_matches_defaults hp hmatch) p hp hmatch
    exact ⟨hnone scientific (by simp [defaults]), hnone decimal (by simp [defaults])⟩

theorem literal?_of_longest (h : Longest defaults s u) :
    Matcher.literal? Matcher.defaults before s = some u := by
  cases hfound : Matcher.literal? Matcher.defaults before s with
  | none =>
    obtain ⟨p, hp, hmatch⟩ := h.matched
    exact absurd hmatch (literal?_defaults_eq_none.1 hfound u h.isPrefix h.ne_nil p hp)
  | some w => rw [(longest_of_literal? hfound).eq h]

/-- **Literals of the default patterns are the longest ones.**  Of what is left of a text, at
any place, the lexer takes the longest opening part that is a text of one of the two patterns,
and it finds nothing if and only if no opening part is one, apart from the empty one.  What
stands in front of the place does not matter. -/
theorem literal?_defaults (before s : List Char) :
    (∀ u, Matcher.literal? Matcher.defaults before s = some u ↔ Longest defaults s u) ∧
      (Matcher.literal? Matcher.defaults before s = none ↔
        ∀ u, u <+: s → u ≠ [] → ∀ p ∈ defaults, ¬ p.Matches u) :=
  ⟨fun _ => ⟨longest_of_literal?, literal?_of_longest⟩, literal?_defaults_eq_none⟩

/-- A point without digits behind it is left, and so is a mark without an exponent. -/
example : Matcher.literal? Matcher.defaults [] "12.e+x".toList = some ['1', '2'] ∧
    Matcher.literal? Matcher.defaults [] "1.e5.2".toList = some ['1', '.', 'e', '5'] ∧
      Matcher.literal? Matcher.defaults [] "1.5.2".toList = some ['1', '.', '5'] := by decide

/-! ### Whole numbers -/

/-- A run of digits is a decimal. -/
theorem matches_digits (hne : s ≠ []) (hs : ∀ c ∈ s, Text.isDigit c = true) : decimal.Matches s :=
  matches_decimal.2 ⟨[], s, by simp, ⟨hne, hs⟩, .inr rfl⟩

/-- A run of digits fits a decimal. -/
theorem fits_decimal (hne : s ≠ []) (hs : ∀ c ∈ s, Text.isDigit c = true) :
    decimal.fits s = true :=
  fits_eq_true_iff.2 (matches_digits hne hs)

/-- A run of digits that nothing continues is one literal. -/
theorem literal?_digits {ds rest : List Char} (hne : ds ≠ [])
    (hds : ∀ c ∈ ds, Text.isDigit c = true)
    (h : ∀ c ∈ rest.head?, Text.isDigit c = false ∧ c ≠ '.' ∧ c ≠ 'e' ∧ c ≠ 'E') :
    Matcher.literal? Matcher.defaults before (ds ++ rest) = some ds := by
  have hdecimal := matches_digits hne hds
  refine literal?_of_longest
    ⟨hne, List.prefix_append .., ⟨decimal, by simp [defaults], hdecimal⟩, ?_⟩
  rintro w hw ⟨p, hp, hmatch⟩
  refine Nat.le_of_not_lt fun hlt => ?_
  obtain ⟨c, y, rfl, hy⟩ := exists_cons_of_longer hw hlt
  obtain ⟨hdigit, hpoint, hmark⟩ := h c (head?_of_begins hy)
  simp only [defaults, List.mem_cons, List.not_mem_nil, or_false] at hp
  rcases hp with rfl | rfl
  · -- the first character that is no figure would have to be the mark
    obtain ⟨m, e, b, ds', heq, hm, he, -⟩ := of_matches_scientific hmatch
    have hfigures : ∀ d ∈ ds, isFigure d = true := fun d hd => by rw [isFigure, hds d hd]; rfl
    have hfigure : isFigure c = false := by simp [isFigure, hdigit, hpoint]
    have hdrop := congrArg (List.dropWhile isFigure) heq
    rw [dropWhile_figures hfigures hfigure, dropWhile_figures hm (isFigure_mark he)] at hdrop
    obtain ⟨rfl, -⟩ := List.cons.inj hdrop
    exact he.elim hmark.1 hmark.2
  · exact hpoint (of_decimal_append hdecimal hmatch hdigit).2.1

end Formula.Pattern
