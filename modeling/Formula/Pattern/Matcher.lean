/-
Formula/Pattern/Matcher.lean

What is asked of a pattern for literals.  A lexer asks it for the part of a text that
it matches at some place, and a printer asks it whether it matches a whole text.  The
patterns of callers are not all built as in `Pattern`: one may depend on what stands in
front of the place (a boundary of words, an anchor, a condition on the characters
before) or on what follows the part that it matches, and it may prefer a shorter part
to a longer one.  So a `Matcher` is any answer to the two questions.  It is known only
that what is matched at a place begins there and lies in the text.

A place in a text is given by the characters on its two sides, `before` and `after`;
there is no offset that could lead out of the text.
-/
import Formula.Pattern.Catalogue

namespace Formula

/-- A pattern, as far as it is asked: any answers will do, as long as what is matched lies in the
text. -/
structure Matcher where
  /-- The part that is matched at the front of `after`, where `before` stands in front of it. -/
  match? : (before after : List Char) → Option (List Char)
  /-- Is the whole text matched? -/
  fits : List Char → Bool
  begins : ∀ {before after l : List Char}, match? before after = some l → l <+: after

/-- A pattern that is built from characters does not look back. -/
def Pattern.matcher (p : Pattern) : Matcher where
  match? _ after := p.match? after
  fits := p.fits
  begins := match?_begins

namespace Matcher

/-- The patterns in use where none are given. -/
def defaults : List Matcher := Pattern.defaults.map Pattern.matcher

/-- The pattern where what it matches is taken only if the characters on its two sides pass a
test. -/
def guarded (m : Matcher) (test : (before rest : List Char) → Bool) : Matcher where
  match? before after :=
    (m.match? before after).filter fun l => test before (after.drop l.length)
  fits s := m.fits s && test [] []
  begins h := m.begins (Option.filter_eq_some_iff.1 h).1

/-- The literal at the front of `after`: what the first pattern matches that matches
something at all. -/
def literal? (ms : List Matcher) (before after : List Char) : Option (List Char) :=
  ms.findSome? fun m => (m.match? before after).filter fun l => !l.isEmpty

/-- A literal begins where it is found, and is a part of the text. -/
theorem literal?_eq_some {ms : List Matcher} {before s l : List Char} {c : Char}
    (h : literal? ms before (c :: s) = some l) : ∃ u, l = c :: u ∧ u <+: s := by
  obtain ⟨m, -, hm⟩ := List.exists_of_findSome?_eq_some h
  obtain ⟨hmatch, hne⟩ := Option.filter_eq_some_iff.1 hm
  cases l with
  | nil => cases hne
  | cons d u =>
    obtain ⟨rfl, hu⟩ := List.cons_prefix_cons.1 (m.begins hmatch)
    exact ⟨u, rfl, hu⟩

/-- For patterns that do not look back, only the rest of the text matters. -/
theorem literal?_map (ps : List Pattern) (before s : List Char) :
    literal? (ps.map Pattern.matcher) before s =
      ps.findSome? fun p => (p.match? s).filter fun l => !l.isEmpty := by
  rw [literal?, List.findSome?_map]
  rfl

end Matcher

end Formula
