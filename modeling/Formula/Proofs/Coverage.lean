/-
Formula/Proofs/Coverage.lean

The lexer loses nothing of a text and makes nothing up.  What it finds at a character that
is not blank is a word: the letters that the token covers, at least one (`Finds.word`).  Of
the patterns of literals no more is used than that what they match lies there, so it may
depend on all of the text.  A text is read word by word, each from the place where the one
before it ends (`scan_word_induction`, and `words_induction` for a text that has tokens), and
the text is nothing but its words with blanks between them.

The lexer puts in implied multiplications; they stand for no word.  All other tokens stand
for one each, in the order of the text, and have its place as their position.

Main statement: `tokens_cover`.
-/
import Formula.Number.Numeral
import Formula.Proofs.Labels
import Formula.Proofs.Updates
import Mathlib.Data.List.Forall2

namespace Formula

variable {V ω : Type}

/-! ### Labels that can be found -/

/-- The labels of a dictionary that can be reached are not empty. -/
theorem Dictionary.Reachable.empty_not_mem_labels {D : Dictionary V ω} (hD : D.Reachable) :
    "" ∉ D.labels := by
  intro hmem
  rcases Dictionary.mem_labels.1 hmem with hmem | ⟨s, hs⟩ | ⟨f, hf⟩
  · exact absurd hmem (by decide)
  · exact absurd (hD.operators hs).1 (by decide)
  · exact absurd (hD.function hf).2 (by decide)

/-- A label means a function or an operator that carries it. -/
theorem Dictionary.Reachable.of_resolve {D : Dictionary V ω} (hD : D.Reachable) {label : String}
    {previous : Option (Lexeme V ω)} {l : Lexeme V ω} (h : D.resolve label previous = some l) :
    (∃ f, l = .function f ∧ f.label = label) ∨
      ∃ op, l = .operator op ∧ op.label = label ∧ op ≠ .juxtaposition := by
  cases meaning_of_resolve h with
  | function hf => exact .inl ⟨_, rfl, (hD.function hf).1⟩
  | operator hop _ =>
    obtain ⟨hlabel, -, hne⟩ := hD.operator hop
    exact .inr ⟨_, rfl, hlabel, hne⟩

/-! ### Words -/

/-- A word of a text, with the blanks in front of it. -/
structure Word where
  blanks : List Char
  letters : List Char
  isBlank_of_mem : ∀ c ∈ blanks, Text.isBlank c = true
  letters_ne_nil : letters ≠ []

namespace Word

/-- The part of the text that a word takes up with the blanks in front of it. -/
def text (w : Word) : List Char := w.blanks ++ w.letters

/-- The places where words begin if the blanks of the first one begin at `position`. -/
def places : Int → List Word → List Int
  | _, [] => []
  | position, w :: ws => (position + w.blanks.length) :: places (position + w.text.length) ws

/-- The word with one more blank in front of it. -/
def indent (w : Word) {c : Char} (hc : Text.isBlank c = true) : Word where
  blanks := c :: w.blanks
  letters := w.letters
  isBlank_of_mem := List.forall_mem_cons.2 ⟨hc, w.isBlank_of_mem⟩
  letters_ne_nil := w.letters_ne_nil

theorem places_indent (w : Word) (ws : List Word) {c : Char} (hc : Text.isBlank c = true)
    (position : Int) :
    places position (w.indent hc :: ws) = places (position + 1) (w :: ws) := by
  have hplace : position + (w.indent hc).blanks.length = position + 1 + w.blanks.length := by
    simp only [indent, List.length_cons]
    omega
  have hend : position + (w.indent hc).text.length = position + 1 + w.text.length := by
    simp only [indent, text, List.length_append, List.length_cons]
    omega
  rw [places, places, hplace, hend]

end Word

namespace Lexicon

/-- The word `s` is read as the lexeme: it is a literal, the label of an operator or of a
function, a name, or a structural mark. -/
inductive Stands (L : Lexicon V ω) (s : List Char) : Lexeme V ω → Prop
  | operand {v : V} : L.convert (String.ofList s) = .ok v → Stands L s (.operand v)
  | operator {op : Operator ω} : op.label = String.ofList s → Stands L s (.operator op)
  | function {f : Function ω} : f.label = String.ofList s → Stands L s (.function f)
  | var : Stands L s (.var (String.ofList s))
  | mark : Stands L s (.punctuation (String.ofList s))

section

variable {L : Lexicon V ω} {labels : List String} {text before s u rest : List Char}
  {previous : Option (Lexeme V ω)} {c : Char} {l : Lexeme V ω} {n : Nat}

/-- What is found covers at least one character, and only characters that are there. -/
theorem Finds.word (hlabels : "" ∉ labels) (h : L.Finds labels before previous c s l n) :
    ∃ u, u <+: s ∧ n = u.length + 1 := by
  cases h with
  | operand hliteral _ =>
    obtain ⟨u, rfl, hu⟩ := Matcher.literal?_eq_some hliteral
    exact ⟨u, hu, rfl⟩
  | @label label l _ hlabel _ =>
    obtain ⟨hmem, hprefix⟩ := of_label? hlabel
    rw [← String.length_toList]
    cases htoList : label.toList with
    | nil =>
      rw [String.toList_eq_nil_iff.1 htoList] at hmem
      exact absurd hmem hlabels
    | cons d u =>
      rw [htoList] at hprefix
      exact ⟨u, (List.cons_prefix_cons.1 hprefix).2, rfl⟩
  | @name m ns _ _ hname =>
    exact ⟨ns, (List.cons_prefix_cons.1 (of_nameAt hname).2).2, rfl⟩
  | mark => exact ⟨[], List.nil_prefix, rfl⟩

/-- Two openings of a text of one length are the same. -/
theorem eq_of_prefix_append {t : List Char} (h : t <+: u ++ rest) (hlength : t.length = u.length) :
    t = u :=
  (List.prefix_of_prefix_length_le h (List.prefix_append u rest)
    (Nat.le_of_eq hlength)).eq_of_length hlength

/-- The word that is covered is read as the lexeme that is found. -/
theorem Finds.stands (hD : L.dictionary.Reachable)
    (h : L.Finds L.dictionary.labels before previous c (u ++ rest) l (u.length + 1)) :
    L.Stands (c :: u) l := by
  generalize hn : u.length + 1 = n at h
  cases h with
  | operand hliteral hv =>
    obtain ⟨t, rfl, ht⟩ := Matcher.literal?_eq_some hliteral
    rw [eq_of_prefix_append ht (by simpa using hn.symm)] at hv
    exact .operand hv
  | @label label l _ hlabel hresolve =>
    have hletters : label.toList = c :: u := by
      refine eq_of_prefix_append (of_label? hlabel).2 ?_
      rw [String.length_toList, ← hn, List.length_cons]
    have heq : label = String.ofList (c :: u) := by
      rw [← hletters, String.ofList_toList]
    rcases hD.of_resolve hresolve with ⟨f, rfl, hf⟩ | ⟨op, rfl, hop, -⟩
    · exact .function (hf.trans heq)
    · exact .operator (hop.trans heq)
  | @name m ns _ _ hname =>
    have hletters : m :: ns = c :: u :=
      eq_of_prefix_append (of_nameAt hname).2 hn.symm
    rw [hletters]
    exact .var
  | mark =>
    obtain rfl := List.length_eq_zero_iff.1 (Nat.succ.inj hn)
    exact .mark

/-- No word is read as an implied multiplication. -/
theorem Finds.ne_juxtaposition (hD : L.dictionary.Reachable)
    (h : L.Finds L.dictionary.labels before previous c s l n) : l ≠ .operator .juxtaposition := by
  cases h with
  | label _ _ hresolve =>
    rcases hD.of_resolve hresolve with ⟨f, rfl, -⟩ | ⟨op, rfl, -, hne⟩
    · nofun
    · intro heq
      exact hne (Lexeme.operator.inj heq)
  | _ => nofun

/-! ### Reading word by word -/

/-- Induction over the reading of a text: over a blank, and over a word with its token and the
multiplication that is implied in front of it.  Reading ends with the text, or where nothing
can be read. -/
theorem scan_word_induction
    {motive : Option (Lexeme V ω) → Nat → List Char →
      Except LexicalError (List (Token V ω)) → Prop}
    (hlabels : "" ∉ labels) (done : ∀ previous position, motive previous position [] (.ok []))
    (stop : ∀ {previous position c s e}, Text.isBlank c = false →
      L.next labels (text.take position) previous position c s = .error e →
        motive previous position (c :: s) (.error e))
    (blank : ∀ {previous position c s r}, Text.isBlank c = true →
      motive previous (position + 1) s r → motive previous position (c :: s) r)
    (word : ∀ {previous position c u rest l r}, Text.isBlank c = false →
      L.Finds labels (text.take position) previous c (u ++ rest) l (u.length + 1) →
        motive (some l) (position + (u.length + 1)) rest r →
          motive previous position (c :: (u ++ rest))
            (r.map fun ts => implied previous l position ++ ⟨l, position⟩ :: ts))
    (previous : Option (Lexeme V ω)) (position : Nat) (s : List Char) :
    motive previous position s (L.scan labels text previous 0 position s) := by
  induction hlength : s.length using Nat.strongRecOn generalizing previous position s with
  | ind m ih =>
    cases s with
    | nil => exact done previous position
    | cons c s =>
      have hm : s.length < m := by
        rw [← hlength]
        exact Nat.lt_succ_self _
      cases hblank : Text.isBlank c with
      | true =>
        rw [scan, if_pos hblank]
        exact blank hblank (ih _ hm previous (position + 1) s rfl)
      | false =>
        cases hnext : L.next labels (text.take position) previous position c s with
        | error e =>
          rw [scan, if_neg (by simp [hblank]), hnext]
          exact stop hblank hnext
        | ok found =>
          obtain ⟨l, n⟩ := found
          have hfinds := finds_of_next hnext
          obtain ⟨u, ⟨rest, rfl⟩, rfl⟩ := hfinds.word hlabels
          rw [scan_word hblank hnext]
          refine word hblank hfinds (ih _ ?_ _ _ _ rfl)
          rw [List.length_append] at hm
          omega

/-- Induction over a text that has tokens. -/
theorem words_induction {motive : Option (Lexeme V ω) → Nat → List Char → List (Token V ω) → Prop}
    (hlabels : "" ∉ labels) (done : ∀ previous position, motive previous position [] [])
    (blank : ∀ {previous position c s ts}, Text.isBlank c = true →
      motive previous (position + 1) s ts → motive previous position (c :: s) ts)
    (word : ∀ {previous position c u rest l ts}, Text.isBlank c = false →
      L.Finds labels (text.take position) previous c (u ++ rest) l (u.length + 1) →
        motive (some l) (position + (u.length + 1)) rest ts →
          motive previous position (c :: (u ++ rest))
            (implied previous l position ++ ⟨l, position⟩ :: ts))
    {position : Nat} {s : List Char} {ts : List (Token V ω)}
    (h : L.scan labels text previous 0 position s = .ok ts) : motive previous position s ts := by
  refine scan_word_induction
    (motive := fun previous position s r => ∀ ts, r = .ok ts → motive previous position s ts)
    hlabels ?_ ?_ ?_ ?_ previous position s ts h
  · intro previous position ts hts
    rw [← Except.ok.inj hts]
    exact done previous position
  · intro previous position c s e _ _ ts hts
    cases hts
  · intro previous position c s r hblank ih ts hts
    exact blank hblank (ih ts hts)
  · intro previous position c u rest l r hblank hfinds ih ts hts
    cases r with
    | error e => cases hts
    | ok us =>
      rw [← Except.ok.inj hts]
      exact word hblank hfinds (ih us rfl)

end

/-! ### All words -/

variable [DecidableEq ω]

/-- The tokens that are written in the text: all but the implied multiplications. -/
def written (ts : List (Token V ω)) : List (Token V ω) :=
  ts.filter fun t => !t.item.isJuxtaposition

theorem isJuxtaposition_iff {l : Lexeme V ω} :
    l.isJuxtaposition = true ↔ l = .operator .juxtaposition := by
  cases l with
  | operator op => simp [Lexeme.isJuxtaposition, Operator.isJuxtaposition]
  | _ => simp [Lexeme.isJuxtaposition]

/-- Of a token and the multiplication implied in front of it, the token is written. -/
theorem written_implied {previous : Option (Lexeme V ω)} {l : Lexeme V ω} {position : Nat}
    {ts : List (Token V ω)} (hl : l ≠ .operator .juxtaposition) :
    written (implied previous l position ++ ⟨l, position⟩ :: ts) = ⟨l, position⟩ :: written ts := by
  have himplied : written (implied previous l position) = [] := by
    rw [implied]
    split
    · simp [written, isJuxtaposition_iff]
    · rfl
  have hfalse : l.isJuxtaposition = false := by
    rw [← Bool.not_eq_true, isJuxtaposition_iff]
    exact hl
  rw [written, List.filter_append, List.filter_cons_of_pos (by simp [hfalse])]
  exact congrArg (· ++ _) himplied

/-- The text `s` from `position` on is words and, at the end, blanks, and the tokens stand
for the words. -/
def Covers (L : Lexicon V ω) (position : Nat) (s : List Char) (ts : List (Token V ω)) : Prop :=
  ∃ (ws : List Word) (last : List Char),
    s = ws.flatMap Word.text ++ last ∧ (∀ c ∈ last, Text.isBlank c = true) ∧
      (written ts).map (·.position) = Word.places position ws ∧
      List.Forall₂ (fun w t => L.Stands w.letters t.item) ws (written ts)

section

variable {L : Lexicon V ω} {position : Nat} {s : List Char} {ts : List (Token V ω)}

theorem covers_nil : Covers L position [] [] :=
  ⟨[], [], rfl, by simp, rfl, .nil⟩

/-- A blank goes to the blanks of the first word, or of the end. -/
theorem Covers.blank {c : Char} (hc : Text.isBlank c = true) (h : L.Covers (position + 1) s ts) :
    L.Covers position (c :: s) ts := by
  obtain ⟨ws, last, rfl, hlast, hplaces, hstands⟩ := h
  cases ws with
  | nil => exact ⟨[], c :: last, rfl, List.forall_mem_cons.2 ⟨hc, hlast⟩, hplaces, hstands⟩
  | cons w ws =>
    obtain ⟨t, us, hw, hws, heq⟩ := List.forall₂_cons_left_iff.1 hstands
    refine ⟨w.indent hc :: ws, last, rfl, hlast, ?_, ?_⟩
    · rw [hplaces, Word.places_indent]
      rfl
    · rw [heq]
      exact .cons hw hws

/-- A word begins where it is found. -/
theorem Covers.word {previous : Option (Lexeme V ω)} {c : Char} {u rest : List Char}
    {l : Lexeme V ω} (hl : l ≠ .operator .juxtaposition) (hstands : L.Stands (c :: u) l)
    (h : L.Covers (position + (u.length + 1)) rest ts) :
    L.Covers position (c :: (u ++ rest)) (implied previous l position ++ ⟨l, position⟩ :: ts) := by
  obtain ⟨ws, last, rfl, hlast, hplaces, hws⟩ := h
  refine ⟨⟨[], c :: u, by simp, by simp⟩ :: ws, last, ?_, hlast, ?_, ?_⟩
  · simp [Word.text]
  · rw [written_implied hl, List.map_cons, hplaces]
    simp [Word.places, Word.text]
  · rw [written_implied hl]
    exact .cons hstands hws

/-- **A text is its words with blanks between them**, and the tokens that are written in it
stand for the words, in order and at their places. -/
theorem tokens_cover (hD : L.dictionary.Reachable) {text : String} (h : L.tokens text = .ok ts) :
    ∃ (ws : List Word) (last : List Char),
      text.toList = ws.flatMap Word.text ++ last ∧ (∀ c ∈ last, Text.isBlank c = true) ∧
        (written ts).map (·.position) = Word.places 0 ws ∧
        List.Forall₂ (fun w t => L.Stands w.letters t.item) ws (written ts) :=
  words_induction (motive := fun _ => Covers L) hD.empty_not_mem_labels (fun _ _ => covers_nil)
    (fun hc h => h.blank hc)
    (fun _ hfinds h => h.word (hfinds.ne_juxtaposition hD) (hfinds.stands hD)) h

end

end Lexicon

/-! ### A factorial -/

/-- A factorial of the given precedence; it stands after its operand. -/
def factorial (precedence : Int) : Operator String :=
  ⟨"!", .postfixOp, precedence, .left, .custom "factorial"⟩

/-- The integers with the predefined operators and a factorial. -/
def factorials (precedence : Int) : Lexicon Int String where
  dictionary := ⟨.ofList [("!", { after := some ⟨factorial precedence, -1⟩ })], .empty, .empty⟩
  convert := Numeral.integer

theorem reachable_factorials (precedence : Int) :
    (factorials precedence).dictionary.Reachable := by
  have hlabel : isOperatorLabel "!".toList = true := by decide
  have hplain : isPredefined "!" = false := by decide
  have hnone : (Dictionary.empty : Dictionary Int String).operatorObstacle
      (factorial precedence) = none :=
    Dictionary.operatorObstacle_eq_none.2 ⟨hlabel, hplain, rfl, rfl, rfl⟩
  refine .register ⟨.operator (factorial precedence), -1⟩ .empty ?_
  simp only [Dictionary.register, Dictionary.registerOperator, hnone]
  rfl

/-- The tokens of ` 2x! (y)`, two of which are implied. -/
def impliedTwice : List (Token Int String) :=
  [⟨.operand 2, 1⟩, ⟨.operator .juxtaposition, 2⟩, ⟨.var "x", 2⟩, ⟨.operator (factorial 6), 3⟩,
    ⟨.operator .juxtaposition, 5⟩, ⟨.punctuation "(", 5⟩, ⟨.var "y", 6⟩, ⟨.punctuation ")", 7⟩]

theorem tokens_cover_impliedTwice :
    (factorials 6).dictionary.Reachable ∧ (factorials 6).tokens " 2x! (y)" = .ok impliedTwice ∧
      ∃ (ws : List Word) (last : List Char),
        " 2x! (y)".toList = ws.flatMap Word.text ++ last ∧
          (∀ c ∈ last, Text.isBlank c = true) ∧
          (Lexicon.written impliedTwice).map (·.position) = Word.places 0 ws ∧
          List.Forall₂ (fun w t => (factorials 6).Stands w.letters t.item) ws
            (Lexicon.written impliedTwice) := by
  have htokens : (factorials 6).tokens " 2x! (y)" = .ok impliedTwice := by rfl
  exact ⟨reachable_factorials 6, htokens,
    Lexicon.tokens_cover (reachable_factorials 6) htokens⟩

/-- A digit with no `!` in front of it and no `x` behind it. -/
def guardedDigit : Matcher :=
  Pattern.digit.matcher.guarded fun before rest =>
    before.getLast? != some '!' && rest.head? != some 'x'

/-- Patterns see both sides of a place, so a digit may be a literal here and none there. -/
example : let L : Lexicon Int String := { factorials 6 with patterns := [guardedDigit] }
    L.tokens "2!3" = .error (.unexpected '3' 2) ∧ L.tokens "1 3x" = .error (.unexpected '3' 2) ∧
      L.tokens "2! 3" = .ok [⟨.operand 2, 0⟩, ⟨.operator (factorial 6), 1⟩,
        ⟨.operator .juxtaposition, 3⟩, ⟨.operand 3, 3⟩] := by decide

end Formula
