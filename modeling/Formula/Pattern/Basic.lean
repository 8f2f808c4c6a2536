/-
Formula/Pattern/Basic.lean

Patterns for literals, and how they match.  A pattern is built from single
characters by sequence, choice and repetition; optional parts and non-empty
repetitions are derived.

Matching is ordered: the first alternative is tried before the second, and a
repetition tries another round before it stops.  `run p s k` walks the text `s`
with `p` and hands every possible rest, in that order, to the continuation `k`,
until `k` accepts one.  The two questions asked of a pattern differ in their
continuation only:

* `match?` accepts the first rest, so it finds the *preferred* opening part of
  a text that fits;
* `fits` accepts the empty rest only, so it asks whether the *whole* text fits.

A round of a repetition that consumes nothing is the last one: what it leaves is
handed to `k`, and only then a shorter repetition is tried.  Where the body of a
repetition can match nothing, the preferred match depends on this.

Design.  Every other round leaves less than the one before, so no more rounds are
needed than there are characters left.  This bound makes `run` a structural
recursion on the pattern.
-/
namespace Formula

/-- Ordered patterns over characters. -/
inductive Pattern where
  | empty
  | one (accepts : Char → Bool)
  | seq (first second : Pattern)
  | alt (first second : Pattern)
  | star (body : Pattern)

namespace Pattern

variable {α : Type}

/-! ### Derived forms -/

/-- A single given character. -/
def char (c : Char) : Pattern := one (· == c)

/-- A given word. -/
def word : List Char → Pattern
  | [] => empty
  | c :: cs => seq (char c) (word cs)

/-- The body, once or more often. -/
def plus (p : Pattern) : Pattern := seq p (star p)

/-- The body, or nothing. -/
def opt (p : Pattern) : Pattern := alt p empty

/-! ### Matching -/

/-- At most `rounds` rounds of `step`, as many as possible first.  A round that leaves all of `s`
is the last one. -/
def rounds (step : List Char → (List Char → Option α) → Option α) :
    Nat → List Char → (List Char → Option α) → Option α
  | 0, s, k => k s
  | n + 1, s, k => (step s fun t => if t.length < s.length then rounds step n t k else k t) <|> k s

/-- Offers the rests that `p` can leave of `s` to `k`, preferred ones first. -/
def run : Pattern → List Char → (List Char → Option α) → Option α
  | empty, s, k => k s
  | one _, [], _ => none
  | one accepts, c :: s, k => if accepts c then k s else none
  | seq p q, s, k => p.run s fun t => q.run t k
  | alt p q, s, k => p.run s k <|> q.run s k
  | star p, s, k => rounds p.run s.length s k

/-- The rest that the preferred match of `p` at the front of `s` leaves. -/
def rest? (p : Pattern) (s : List Char) : Option (List Char) := p.run s some

/-- The preferred opening part of `s` that `p` matches. -/
def match? (p : Pattern) (s : List Char) : Option (List Char) :=
  (p.rest? s).map fun rest => s.take (s.length - rest.length)

/-- Does `p` match the whole of `s`? -/
def fits (p : Pattern) (s : List Char) : Bool :=
  (p.run s fun rest => if rest.isEmpty then some () else none).isSome

/-- What is matched is an opening part of the text. -/
theorem match?_begins {p : Pattern} {s l : List Char} (h : p.match? s = some l) : l <+: s := by
  obtain ⟨rest, -, rfl⟩ := Option.map_eq_some_iff.1 h
  exact List.take_prefix ..

end Pattern

end Formula
