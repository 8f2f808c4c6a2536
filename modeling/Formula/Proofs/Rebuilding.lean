/-
Formula/Proofs/Rebuilding.lean

The text of a tree can always be read.  Whatever the printer and the lexer do to each
other between two factors, the lexemes of a printable tree are a formula, and they go on a
formula if they come after one: either a multiplication is put in between, or a sign is
taken for an operator between two operands, and what it was the sign of is a formula, too
(`Forms`).

Main statement: `exists_tree_text`.
-/
import Formula.Proofs.Legible

namespace Formula

variable {V ω : Type}

/-! ### Formulas -/

/-- A formula goes on after an operator. -/
theorem Derives.join {op : Operator ω} {s u : List (Token V ω)} (p : Int)
    (h : Derives .formula s) (hop : op.isBinary = true) (hu : Derives .formula u) :
    Derives .formula (s ++ ⟨.operator op, p⟩ :: u) := by
  generalize hc : Phrase.formula = c at hu
  induction hu with
  | formula hterm => exact .between p h hop hterm
  | between q _ hop' hterm ih _ =>
    have hleft := ih hc
    have hjoined := Derives.between q hleft hop' hterm
    rwa [List.append_assoc, List.cons_append] at hjoined
  | _ => cases hc

/-- A formula is one with an operator in front of it. -/
theorem Derives.prefixed {op : Operator ω} {s : List (Token V ω)} (p : Int)
    (hop : op.isPrefix = true) (h : Derives .formula s) :
    Derives .formula (⟨.operator op, p⟩ :: s) := by
  generalize hc : Phrase.formula = c at h
  induction h with
  | formula hterm => exact .formula (.before p hop hterm)
  | between q _ hop' hterm ih _ => exact .between q (ih hc) hop' hterm
  | _ => cases hc

theorem Derives.of_atom {s : List (Token V ω)} (h : Derives .atom s) : Derives .formula s :=
  .formula (.term (.suffixed h))

/-- The lexemes are a formula, alone and after another formula. -/
structure Forms (ls : List (Lexeme V ω)) : Prop where
  nonempty : ls ≠ []
  alone : ∀ ts : List (Token V ω), ts.map (·.item) = ls → Derives .formula ts
  after : ∀ us ts : List (Token V ω), Derives .formula us → ts.map (·.item) = joined ls →
    Derives .formula (us ++ ts)

namespace Forms

variable {ls ks : List (Lexeme V ω)} {op : Operator ω}

/-- After a formula, a multiplication is put in front of an atom. -/
theorem of_atom (hne : ls ≠ []) (hjoined : joined ls = .operator .juxtaposition :: ls)
    (h : ∀ ts : List (Token V ω), ts.map (·.item) = ls → Derives .atom ts) : Forms ls where
  nonempty := hne
  alone ts hts := (h ts hts).of_atom
  after us ts hus hts := by
    rw [hjoined] at hts
    obtain ⟨p, vs, rfl, hvs⟩ := items_eq_cons hts
    exact hus.join p rfl (h vs hvs).of_atom

theorem group (h : Forms ls) :
    Forms (.leftParenthesis :: (ls ++ [.rightParenthesis]) : List (Lexeme V ω)) := by
  refine .of_atom (List.cons_ne_nil _ _) rfl ?_
  intro ts hts
  obtain ⟨p, us, q, rfl, hus⟩ := items_eq_group hts
  exact .group p q (h.alone us hus)

theorem enclosed (h : Forms ls) (b : Bool) : Forms (Formula.enclosed b ls) := by
  cases b with
  | true => exact h.group
  | false => exact h

/-- After a formula, a sign is an operator between two operands. -/
theorem sign (hop : op ∈ Operator.signs) (h : Forms ls) : Forms (.operator op :: ls) where
  nonempty := List.cons_ne_nil _ _
  alone ts hts := by
    obtain ⟨p, us, rfl, hus⟩ := items_eq_cons hts
    exact (h.alone us hus).prefixed p (isPrefix_of_signs hop)
  after us ts hus hts := by
    obtain ⟨p, vs, rfl, hvs⟩ := items_eq_cons hts
    exact hus.join p (isBinary_of_written (Operator.afterOperand_mem op)) (h.alone vs hvs)

theorem between (hop : op.isBinary = true) (h : Forms ls) (hu : Forms ks) :
    Forms (ls ++ .operator op :: ks) where
  nonempty := by simp
  alone ts hts := by
    obtain ⟨us, p, vs, rfl, hus, hvs⟩ := items_eq_between hts
    exact (h.alone us hus).join p hop (hu.alone vs hvs)
  after us ts hus hts := by
    rw [joined_append h.nonempty] at hts
    obtain ⟨vs, p, ws, rfl, hvs, hws⟩ := items_eq_between hts
    rw [← List.append_assoc]
    exact (h.after us vs hus hvs).join p hop (hu.alone ws hws)

/-- With a blank between two factors. -/
theorem spaced (h : Forms ls) (hu : Forms ks) : Forms (ls ++ joined ks) where
  nonempty := by simp [h.nonempty]
  alone ts hts := by
    obtain ⟨us, vs, rfl, hus, hvs⟩ := List.map_eq_append_iff.1 hts
    exact hu.after us vs (h.alone us hus) hvs
  after us ts hus hts := by
    rw [joined_append h.nonempty] at hts
    obtain ⟨vs, ws, rfl, hvs, hws⟩ := List.map_eq_append_iff.1 hts
    rw [← List.append_assoc]
    exact hu.after _ ws (h.after us vs hus hvs) hws

/-- Lexemes with separators between them are arguments. -/
theorem arguments {ls : List (Lexeme V ω)} {lss : List (List (Lexeme V ω))}
    (h : ∀ ks ∈ ls :: lss, Forms ks) {ts : List (Token V ω)}
    (hts : ts.map (·.item) = listed (ls :: lss)) : Derives (.arguments (ls :: lss).length) ts := by
  rw [← List.map_id (ls :: lss)] at hts
  refine listed_induction (P := fun kss us => Derives (.arguments kss.length) us) ?_ ?_ hts
  · intro us hus
    exact .argument ((h ls (List.mem_cons_self ..)).alone us hus)
  · intro ks hks done us vs p hus hvs
    rw [List.length_append]
    exact hus.another p ((h ks (List.mem_cons_of_mem _ hks)).alone vs hvs)

theorem call {f : Function ω} {lss : List (List (Lexeme V ω))} (hf : f.admits lss.length = true)
    (h : ∀ ls ∈ lss, Forms ls) :
    Forms (.function f :: .leftParenthesis :: (listed lss ++ [.rightParenthesis])) := by
  refine .of_atom (List.cons_ne_nil _ _) rfl ?_
  intro ts hts
  obtain ⟨p, us, rfl, hus⟩ := items_eq_cons hts
  obtain ⟨q, ws, r, rfl, hws⟩ := items_eq_group hus
  cases lss with
  | nil =>
    obtain rfl := List.map_eq_nil_iff.1 hws
    exact .emptyCall p q r hf
  | cons ls lss => exact .call p q r hf (arguments h hws)

end Forms

/-! ### Printed trees -/

variable [DecidableEq ω] {D : Dictionary Scalar ω}

/-- The lexemes of a printable tree are a formula. -/
theorem Printable.forms {t : Tree Scalar ω} (h : Printable D t) : Forms (t.lexemes D) := by
  induction h with
  | number n p =>
    refine .of_atom (List.cons_ne_nil _ _) rfl ?_
    intro ts hts
    obtain ⟨q, rfl⟩ := items_eq_singleton hts
    exact .operand _ q
  | var p _ _ =>
    refine .of_atom (List.cons_ne_nil _ _) rfl ?_
    intro ts hts
    obtain ⟨q, rfl⟩ := items_eq_singleton hts
    exact .var _ q
  | @call f cs p hf hadmits _ ih =>
    rw [Tree.lexemes_callOf hf]
    refine .call (by rwa [List.length_map]) ?_
    intro ls hls
    obtain ⟨c, hc, rfl⟩ := List.mem_map.1 hls
    exact ih c hc
  | @sign op c p hop _ ih =>
    rw [Tree.lexemes_sign]
    exact .sign hop (ih.enclosed _)
  | @juxtaposed l r p _ _ ihl ihr =>
    cases hspaced : (Tree.node ⟨.operator .juxtaposition, p⟩ [l, r]).isSpaced with
    | true =>
      rw [Tree.lexemes_spaced hspaced]
      exact (ihl.enclosed _).spaced (ihr.enclosed _)
    | false =>
      rw [Tree.lexemes_between hspaced, Tree.writtenFor_juxtaposition]
      exact .between rfl (ihl.enclosed _) (ihr.enclosed _)
  | @between op l r p hop _ _ ihl ihr =>
    have hjuxtaposition := isJuxtaposition_of_written hop
    have hspaced : (Tree.node ⟨.operator op, p⟩ [l, r]).isSpaced = false :=
      Tree.isSpaced_of_not_isJuxtaposition hjuxtaposition
    rw [Tree.lexemes_between hspaced, Tree.writtenFor_of_not_isJuxtaposition hjuxtaposition]
    exact .between (isBinary_of_written hop) (ihl.enclosed _) (ihr.enclosed _)

/-- **The text of a printable tree is read**, as a tree of just its lexemes. -/
theorem exists_tree_text (hD : D.Plain) {t : Tree Scalar ω} (h : Printable D t) :
    ∃ (ts : List (Token Scalar ω)) (t' : Tree Scalar ω), ts.map (·.item) = t.lexemes D ∧
      toPostfix ts = .ok t'.postorder ∧
        (Reader.integers D).tree (t.text plainSpelling) = .ok t' := by
  obtain ⟨ts, hts, htokens⟩ := tokens_text hD h
  obtain ⟨t', -, hparse, hbuild⟩ := toPostfix_of_derives (h.forms.alone ts hts)
  exact ⟨ts, t', hts, hparse, Reader.tree_eq_ok.2 ⟨ts, _, htokens, hparse, hbuild⟩⟩

end Formula
