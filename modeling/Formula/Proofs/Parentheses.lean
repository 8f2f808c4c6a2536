/-
Formula/Proofs/Parentheses.lean

When the parentheses of a printed tree suffice, with operators of users.  A binary operation is
put in parentheses wherever it is an operand, and what is printed bare is an atom behind
operators that stand before it.  These operators are still open where the text ends: at an
operator that comes next, the stack decides which of them take their operand before it.

So a text restores its tree just if every operator that stands open in front of a left operand
goes before the operation (`Guarded`).  The printer compares precedences, and only those of the
operation and of the outermost open operator; the stack also looks at the direction in which
chains group, and at all open operators.

Where an open operator does not go before the operation, it has the operation under it.  So
what is read there has an operator before its operand for its root, and is another tree
(`Prints.kept_between`).

Main statement: `tree_render_iff_guarded`.
-/
import Formula.Proofs.Composition
import Formula.Proofs.RoundTrip

namespace Formula

variable {V ω : Type}

/-! ### Open operators -/

namespace Tree

variable [DecidableEq ω]

mutual

/-- The operators in front of the text of a tree whose operands end where the text ends, the
innermost first. -/
def openers : Tree V ω → List (Operator ω)
  | node t cs =>
    match t.item with
    | .operator op =>
      if op.isPrefix then (if op.isSign then headOpeners cs else []) ++ [op] else []
    | _ => []

/-- Those in front of the text of the first tree. -/
def headOpeners : List (Tree V ω) → List (Operator ω)
  | [] => []
  | t :: _ => openers t

end

/-- The operators that are open in front of the left operand `l` of `op`, as it is printed. -/
def exposed (op : Operator ω) (l : Tree V ω) : List (Operator ω) :=
  if needsParentheses op l then [] else l.openers

/-- All operators that are open in front of a left operand go before the operation. -/
def Guarded (t : Tree V ω) : Prop :=
  ∀ op p l r, node ⟨.operator op, p⟩ [l, r] ∈ t.preorder →
    ∀ q ∈ exposed op l, Yard.popsBefore q op = true

section

variable {t : Token V ω} {c l r : Tree V ω} {cs : List (Tree V ω)} {op q : Operator ω} {p : Int}

theorem openers_sign (h : op.isSign = true) :
    (node ⟨.operator op, p⟩ [c]).openers = c.openers ++ [op] := by
  have hfront := isPrefix_of_signs (Operator.isSign_iff.1 h)
  simp [openers, headOpeners, hfront, h]

theorem openers_before (hfront : op.isPrefix = true) (h : op.isSign = false) :
    (node ⟨.operator op, p⟩ cs).openers = [op] := by
  simp [openers, hfront, h]

theorem openers_eq_nil (h : ∀ op, c.lexeme = .operator op → op.isPrefix = false) :
    c.openers = [] := by
  obtain ⟨⟨l, p⟩, cs⟩ := c
  cases l with
  | operator op =>
    have hfront := h op rfl
    simp [openers, hfront]
  | _ => simp [openers]

theorem isPrefix_of_mem_openers (h : q ∈ c.openers) : q.isPrefix = true := by
  induction c using Tree.induction with
  | step t cs ih =>
    rw [openers] at h
    split at h
    · next op =>
      split at h
      · next hfront =>
        rcases List.mem_append.1 h with h | h
        · split at h
          · cases cs with
            | nil => cases h
            | cons c cs => exact ih c (List.mem_cons_self ..) h
          · cases h
        · rwa [List.mem_singleton.1 h]
      · cases h
    · cases h

theorem isPrefix_of_mem_exposed (h : q ∈ exposed op l) : q.isPrefix = true := by
  rw [exposed] at h
  split at h
  · cases h
  · exact isPrefix_of_mem_openers h

theorem guarded_between :
    (node ⟨.operator op, p⟩ [l, r]).Guarded ↔
      (∀ q ∈ exposed op l, Yard.popsBefore q op = true) ∧ l.Guarded ∧ r.Guarded := by
  constructor
  · intro h
    refine ⟨h op p l r (mem_preorder_node.2 (.inl rfl)), ?_, ?_⟩
    · exact fun o i x y hmem => h o i x y (mem_preorder_node.2 (.inr ⟨l, by simp, hmem⟩))
    · exact fun o i x y hmem => h o i x y (mem_preorder_node.2 (.inr ⟨r, by simp, hmem⟩))
  · rintro ⟨hexposed, hl, hr⟩ o i x y hmem
    rcases mem_preorder_node.1 hmem with heq | ⟨c, hc, hchild⟩
    · cases heq
      exact hexposed
    · simp only [List.mem_cons, List.not_mem_nil, or_false] at hc
      rcases hc with rfl | rfl
      · exact hl o i x y hchild
      · exact hr o i x y hchild

/-- Any other tree is guarded if its children are. -/
theorem guarded_node (h : ∀ op p l r, node t cs ≠ node ⟨.operator op, p⟩ [l, r]) :
    (node t cs).Guarded ↔ ∀ c ∈ cs, c.Guarded := by
  constructor
  · intro hguarded c hc o i x y hmem
    exact hguarded o i x y (mem_preorder_node.2 (.inr ⟨c, hc, hmem⟩))
  · intro hguarded o i x y hmem
    rcases mem_preorder_node.1 hmem with heq | ⟨c, hc, hmem⟩
    · exact absurd heq.symm (h o i x y)
    · exact hguarded c hc o i x y hmem

end

end Tree

/-! ### Signs -/

/-- No label of a user's operator begins with a sign. -/
def Dictionary.SignsApart (D : Dictionary V ω) : Prop :=
  ∀ label s, D.operators.get? label = some s → ∀ c ∈ label.toList.head?, c ≠ '+' ∧ c ≠ '-'

/-- A sign is found in front of anything. -/
theorem Dictionary.Reachable.label?_sign {D : Dictionary V ω} (hD : D.Reachable)
    (hsigns : D.SignsApart) {op : Operator ω} (hop : op ∈ Operator.signs) (s : List Char) :
    label? D.labels (op.label.toList ++ s) = some op.label := by
  have hpredefined := Operator.label_of_predefined (.inr hop)
  have hletter : ∃ c, op.label.toList = [c] ∧ (c = '+' ∨ c = '-') := by
    simp only [Operator.signs, List.mem_cons, List.not_mem_nil, or_false] at hop
    rcases hop with rfl | rfl
    · exact ⟨'+', (by decide : "+".toList = ['+']), .inl rfl⟩
    · exact ⟨'-', (by decide : "-".toList = ['-']), .inr rfl⟩
  obtain ⟨c, hc, hsign⟩ := hletter
  refine label?_eq_some D.longestFirst_labels (Dictionary.mem_labels.2 (.inl hpredefined))
    (List.prefix_append ..) fun l hl hpre => ?_
  rw [← String.length_toList, ← String.length_toList, hc]
  rw [hc] at hpre
  -- whatever label begins with the sign is a predefined one, and those are single symbols
  rcases Dictionary.mem_labels.1 hl with h | ⟨slots, h⟩ | ⟨f, h⟩
  · obtain ⟨d, -, hd⟩ := symbol_of_predefined l h
    rw [hd]
    exact Nat.le_refl _
  · obtain ⟨d, u, hletters, -⟩ := hD.first_letter hl
    rw [hletters] at hpre
    obtain ⟨rfl, -⟩ := List.cons_prefix_cons.1 hpre
    obtain ⟨hplus, hminus⟩ := hsigns l slots h d (by rw [hletters]; rfl)
    exact absurd hsign (not_or.2 ⟨hplus, hminus⟩)
  · have hname := (hD.function h).2
    obtain ⟨d, u, hletters, -⟩ := hD.first_letter hl
    rw [hletters] at hpre hname
    obtain ⟨rfl, -⟩ := List.cons_prefix_cons.1 hpre
    simp only [isName, Bool.and_eq_true] at hname
    rcases hsign with rfl | rfl <;> exact absurd hname.1 (by decide)

/-- No label leads to the implied multiplication. -/
theorem Dictionary.Reachable.isJuxtaposition_of_operator? [DecidableEq ω] {D : Dictionary V ω}
    (hD : D.Reachable) {label : String} {slot : Slot} {op : Placed (Operator ω)}
    (h : D.operator? label slot = some op) : op.item.isJuxtaposition = false := by
  rw [Operator.isJuxtaposition, beq_eq_false_iff_ne]
  exact (hD.operator h).2.2

/-! ### Trees that can be written down -/

/-- Trees without implied multiplications that can be written down: of natural numbers, of names
that no label begins, of registered functions, and of operators before and between operands. -/
inductive Writable (D : Dictionary Scalar ω) : Tree Scalar ω → Prop
  | number (n : Nat) (p : Int) : Writable D (.node ⟨.operand (.integer n), p⟩ [])
  | var {label : String} (p : Int) : isName label.toList = true →
      (∀ l ∈ D.labels, ¬ l.toList <+: label.toList) → Writable D (.node ⟨.var label, p⟩ [])
  | call {f : Placed (Function ω)} {cs : List (Tree Scalar ω)} (p : Int) :
      D.function? f.item.label = some f → f.item.admits cs.length = true →
      (∀ c ∈ cs, Writable D c) → Writable D (callOf f.item p cs)
  | before {op : Operator ω} {q : Int} {c : Tree Scalar ω} (p : Int) :
      D.operator? op.label .before = some ⟨op, q⟩ → Writable D c →
      Writable D (.node ⟨.operator op, p⟩ [c])
  | between {op : Operator ω} {q : Int} {l r : Tree Scalar ω} (p : Int) :
      D.operator? op.label .after = some ⟨op, q⟩ → op.isBinary = true →
      Writable D l → Writable D r → Writable D (.node ⟨.operator op, p⟩ [l, r])

section

variable [DecidableEq ω] {D : Dictionary Scalar ω} {c l r x y : Tree Scalar ω} {s u : String}
  {w : List Char} {ls ks : List (Lexeme Scalar ω)}

/-- The characters `w` are the text of `t`.  They are scanned as `ls` and read as `x`, behind
the openers of `t` if `t` can stand there without parentheses; and this is `t`, up to positions,
just if `t` is guarded. -/
structure Prints (D : Dictionary Scalar ω) (t : Tree Scalar ω) (w : List Char)
    (ls : List (Lexeme Scalar ω)) (x : Tree Scalar ω) : Prop where
  makes : Makes (.integers D) w ls x
  operand : t.isExplicit = false → ∀ (K : List (Hole Scalar ω)) (ts : List (Token Scalar ω)),
    ts.map (·.item) = ls → ReadsBehind K ts t.openers x
  kept : x.unplaced = t.unplaced ↔ t.Guarded

namespace Prints

theorem of_atom {t : Tree Scalar ω} (ht : ∀ op, t.lexeme ≠ .operator op)
    (hlexes : Lexes (.integers D) w ls)
    (hreads : ∀ ts : List (Token Scalar ω), ts.map (·.item) = ls → ReadsAs ts x)
    (hkept : x.unplaced = t.unplaced ↔ t.Guarded) : Prints D t w ls x where
  makes := ⟨hlexes, fun ts hts => (hreads ts hts).whole⟩
  operand _ K ts hts := by
    rw [Tree.openers_eq_nil fun op hop => absurd hop (ht op)]
    exact (hreads ts hts).behind K
  kept := hkept

/-- A single word. -/
theorem leaf {l : Lexeme Scalar ω} (p : Int) (hl : ∀ op, l ≠ .operator op)
    (hlexes : Lexes (.integers D) w [l]) (hreads : ∀ q, ReadsAtom [⟨l, q⟩] (.node ⟨l, q⟩ [])) :
    Prints D (.node ⟨l, p⟩ []) w [l] (.node ⟨l, p⟩ []) := by
  refine .of_atom hl hlexes ?_ ?_
  · intro ts hts
    obtain ⟨q, rfl⟩ := items_eq_singleton hts
    exact ⟨_, hreads q, rfl⟩
  · rw [Tree.guarded_node (by simp)]
    simp

/-- An operand, in parentheses if it needs them. -/
theorem enclosed (h : Prints D c w ls x) {b : Bool} (hb : b = false → c.isExplicit = false)
    {K : List (Hole Scalar ω)} {ts : List (Token Scalar ω)}
    (hts : ts.map (·.item) = Formula.enclosed b ls) :
    ReadsBehind K ts (if b then [] else c.openers) x := by
  cases b with
  | true => exact (h.makes.readsAs hts).behind K
  | false => exact h.operand (hb rfl) K ts hts

/-- An operator in front of its operand. -/
theorem before {op : Operator ω} (hop : op.isPrefix = true) (p : Int) (h : Prints D c w ls x)
    {b : Bool} (hb : b = false → c.isExplicit = false)
    (hopeners : (Tree.node ⟨.operator op, p⟩ [c]).openers =
      (if b then [] else c.openers) ++ [op])
    {v : List Char} (hlexes : Lexes (.integers D) v (.operator op :: Formula.enclosed b ls)) :
    Prints D (.node ⟨.operator op, p⟩ [c]) v (.operator op :: Formula.enclosed b ls)
      (.node ⟨.operator op, p⟩ [x]) := by
  have hoperand : ∀ (K : List (Hole Scalar ω)) (ts : List (Token Scalar ω)),
      ts.map (·.item) = .operator op :: Formula.enclosed b ls →
        ReadsBehind K ts (Tree.node ⟨.operator op, p⟩ [c]).openers
          (.node ⟨.operator op, p⟩ [x]) := by
    intro K ts hts
    obtain ⟨q, us, rfl, hus⟩ := items_eq_cons hts
    rw [hopeners]
    exact (h.enclosed hb hus).before p hop
  refine ⟨⟨hlexes, fun ts hts => (hoperand [] ts hts).whole⟩, fun _ => hoperand, ?_⟩
  rw [Tree.unplaced_node_inj, Tree.guarded_node (by simp)]
  simp [h.kept]

/-- A sign in front of its operand. -/
theorem sign (hD : D.Reachable) (hsigns : D.SignsApart) {op : Operator ω} {i : Int}
    (hop : D.operator? op.label .before = some ⟨op, i⟩) (hsign : op.isSign = true) (p : Int)
    (h : Prints D c s.toList ls x) :
    ∃ ks, Prints D (.node ⟨.operator op, p⟩ [c]) (Tree.unaryText op c s).toList ks
      (.node ⟨.operator op, p⟩ [x]) := by
  have hL : (Lexicon.integers D).Standard := ⟨hD, rfl⟩
  have hmem := Operator.isSign_iff.1 hsign
  rw [unaryText_sign hmem, String.toList_append]
  refine ⟨_, h.before (hD.isPrefix_of_before hop) p (b := c.needsParenthesesAfterSign) ?_ ?_ ?_⟩
  · exact fun hb => (Tree.of_needsParenthesesAfterSign hb).1
  · rw [Tree.openers_sign hsign]
    split
    · next hb =>
      -- only operators stand in parentheses, and no prefix operators
      rw [Tree.openers_eq_nil fun inner hinner => ?_]
      simpa [Tree.needsParenthesesAfterSign, hinner] using hb
    · rfl
  · exact (h.makes.lexes.enclosed hL _).before hL hop fun rest => hD.label?_sign hsigns hmem _

/-- Another operator in front of its operand. -/
theorem marked (hD : D.Reachable) {op : Operator ω} {i : Int}
    (hop : D.operator? op.label .before = some ⟨op, i⟩) (hsign : op.isSign = false) (p : Int)
    (h : Prints D c s.toList ls x) :
    ∃ ks, Prints D (.node ⟨.operator op, p⟩ [c]) (Tree.unaryText op c s).toList ks
      (.node ⟨.operator op, p⟩ [x]) := by
  have hL : (Lexicon.integers D).Standard := ⟨hD, rfl⟩
  have hfront : op.isPrefix = true := hD.isPrefix_of_before hop
  have hmem := Dictionary.mem_labels_of_operator? hop
  refine ⟨_, h.before hfront p (b := c.lexeme.acceptsChildren) ?_ ?_ ?_⟩
  · intro hb
    cases hl : c.lexeme with
    | operator inner => simp [hl, Lexeme.acceptsChildren] at hb
    | _ => simp [Tree.isExplicit, hl]
  · rw [Tree.openers_before hfront hsign]
    split
    · rfl
    · next hb =>
      rw [Tree.openers_eq_nil fun inner hinner => ?_, List.nil_append]
      simp [hinner, Lexeme.acceptsChildren] at hb
  · rw [Tree.unaryText, hsign, if_neg Bool.false_ne_true, if_pos hfront, if_pos hfront]
    cases hb : c.lexeme.acceptsChildren with
    | true =>
      have hgroup := (h.makes.lexes.group hL).before hL hop fun rest =>
        hD.label?_self hmem (broken_cons (c := '(') (by decide) _)
      simpa [Tree.parenthesised, Formula.enclosed] using hgroup
    | false =>
      have hspaced := h.makes.lexes.indent.before hL hop fun rest =>
        hD.label?_self hmem (broken_cons (c := ' ') (by decide) _)
      simpa [Formula.enclosed] using hspaced

/-- What is read for an operation is the operation just if it is guarded: if some open operator
does not go before it, then the root is such an operator and no operator between operands. -/
theorem kept_between {op : Operator ω} {z : Tree Scalar ω} {v : List Char}
    (hbinary : op.isBinary = true) (p : Int) (hl : Prints D l w ls x) (hr : Prints D r v ks y)
    (hall : (∀ o ∈ Tree.exposed op l, Yard.popsBefore o op = true) →
      z.unplaced = (Tree.node ⟨.operator op, p⟩ [x, y]).unplaced)
    (hsome : (¬ ∀ o ∈ Tree.exposed op l, Yard.popsBefore o op = true) →
      ∃ o ∈ Tree.exposed op l, z.lexeme = .operator o) :
    z.unplaced = (Tree.node ⟨.operator op, p⟩ [l, r]).unplaced ↔
      (Tree.node ⟨.operator op, p⟩ [l, r]).Guarded := by
  rw [Tree.guarded_between]
  by_cases hexposed : ∀ o ∈ Tree.exposed op l, Yard.popsBefore o op = true
  · rw [hall hexposed, Tree.unplaced_node_inj, and_iff_right hexposed]
    simp [hl.kept, hr.kept]
  · refine iff_of_false (fun hsame => ?_) (fun h => hexposed h.1)
    obtain ⟨o, ho, hroot⟩ := hsome hexposed
    have hlexeme := congrArg Tree.lexeme hsame
    rw [Tree.lexeme_unplaced, Tree.lexeme_unplaced, hroot] at hlexeme
    have hfront := Tree.isPrefix_of_mem_exposed ho
    rw [Lexeme.operator.inj hlexeme, Operator.isPrefix_of_isBinary hbinary] at hfront
    cases hfront

/-- An operator between its operands. -/
theorem between (hD : D.Reachable) {op : Operator ω} {i : Int}
    (hop : D.operator? op.label .after = some ⟨op, i⟩) (hbinary : op.isBinary = true) (p : Int)
    (hl : Prints D l s.toList ls x) (hr : Prints D r u.toList ks y) :
    ∃ js z, Prints D (.node ⟨.operator op, p⟩ [l, r])
      (Tree.wrapped op l s ++ (" " ++ op.label ++ " ") ++
        Tree.wrapped op r u).toList js z := by
  have hL : (Lexicon.integers D).Standard := ⟨hD, rfl⟩
  have hparts := (hl.makes.lexes.enclosed hL (Tree.needsParentheses op l)).between hL hop
    hbinary (hr.makes.lexes.enclosed hL (Tree.needsParentheses op r))
  have hlexes : Lexes (.integers D)
      (Tree.wrapped op l s ++ (" " ++ op.label ++ " ") ++ Tree.wrapped op r u).toList
      (Formula.enclosed (Tree.needsParentheses op l) ls ++
        .operator op :: Formula.enclosed (Tree.needsParentheses op r) ks) := by
    simpa [Tree.wrapped] using hparts
  obtain ⟨ts, hts, htokens⟩ := hlexes.tokens
  obtain ⟨us, q, vs, rfl, hus, hvs⟩ := items_eq_between hts
  obtain ⟨w, hw, hall, hsome⟩ :=
    (hl.enclosed Tree.isExplicit_of_needsParentheses hus).between p hbinary
      fun _ _ => ⟨_, hr.enclosed Tree.isExplicit_of_needsParentheses hvs⟩
  -- the tokens of the text have a tree, and it is the one of all tokens with these lexemes
  obtain ⟨z, hz, hzw⟩ := hw.builds (R := .integers D) htokens
  obtain ⟨js, hmakes⟩ := Reader.makes (R := .integers D) hL hz
  refine ⟨js, z, hmakes, ?_, ?_⟩
  · intro hexplicit
    have hspaced := Tree.isSpaced_of_not_isJuxtaposition
      (t := .node ⟨.operator op, p⟩ [l, r]) (hD.isJuxtaposition_of_operator? hop)
    simp [Tree.isExplicit, hspaced, Tree.lexeme, Tree.token, hbinary] at hexplicit
  · rw [hzw]
    exact hl.kept_between hbinary p hr hall hsome

/-- A call. -/
theorem call (hD : D.Reachable) {f : Placed (Function ω)} (hf : D.function? f.item.label = some f)
    {cs : List (Tree Scalar ω)} (hadmits : f.item.admits cs.length = true) (p : Int)
    {spell : Tree Scalar ω → List (Lexeme Scalar ω)} {value : Tree Scalar ω → Tree Scalar ω}
    (h : ∀ c ∈ cs, Prints D c (c.text plainSpelling).toList (spell c) (value c)) :
    Prints D (callOf f.item p cs) (Tree.text plainSpelling (callOf f.item p cs)).toList
      (.function f.item :: .leftParenthesis :: (listed (cs.map spell) ++ [.rightParenthesis]))
      (callOf f.item p (cs.map value)) := by
  have hL : (Lexicon.integers D).Standard := ⟨hD, rfl⟩
  have hlexes := Lexes.call hL hf fun c hc => (h c hc).makes.lexes
  have hatom : ∀ op, (callOf f.item p cs).lexeme ≠ .operator op := by
    simp [callOf, Tree.lexeme, Tree.token]
  refine .of_atom hatom ?_ ?_ ?_
  · rw [callOf, Tree.text, Tree.texts_eq_map]
    simpa [Tree.nodeText, Tree.parenthesised, String.toList_intercalate, Function.comp_def]
      using hlexes
  · exact fun ts hts => Makes.readsAs_call hadmits (fun c hc => (h c hc).makes) hts
  · rw [callOf, callOf, Tree.unplaced_node_inj, Tree.guarded_node (by simp)]
    simp only [List.length_map, true_and, List.map_map, List.map_inj_left]
    exact forall₂_congr fun c hc => (h c hc).kept

end Prints

/-- The text of every tree that can be written down is read. -/
theorem Writable.prints (hD : D.Reachable) (hsigns : D.SignsApart) {t : Tree Scalar ω}
    (h : Writable D t) : ∃ ls x, Prints D t (t.text plainSpelling).toList ls x := by
  have hL : (Lexicon.integers D).Standard := ⟨hD, rfl⟩
  induction h with
  | number n p =>
    rw [Tree.text, Tree.nodeText, operandText_number]
    exact ⟨_, _, .leaf p (by simp) (.number D n) (.operand _)⟩
  | @var label p hname hfree =>
    exact ⟨_, _, .leaf p (by simp) (.var hL hname hfree) (.var label)⟩
  | call p hf hadmits _ ih =>
    choose! spell value hprints using ih
    exact ⟨_, _, .call hD hf hadmits p hprints⟩
  | @before op i c p hop _ ih =>
    obtain ⟨ls, x, hc⟩ := ih
    have htext : Tree.text plainSpelling (.node ⟨.operator op, p⟩ [c]) =
        Tree.unaryText op c (Tree.text plainSpelling c) := rfl
    rw [htext]
    cases hsign : op.isSign with
    | true =>
      obtain ⟨ks, hprints⟩ := hc.sign hD hsigns hop hsign p
      exact ⟨ks, _, hprints⟩
    | false =>
      obtain ⟨ks, hprints⟩ := hc.marked hD hop hsign p
      exact ⟨ks, _, hprints⟩
  | @between op i l r p hop hbinary _ _ ihl ihr =>
    obtain ⟨ls, x, hl⟩ := ihl
    obtain ⟨ks, y, hr⟩ := ihr
    have hjuxtaposition : op.isJuxtaposition = false := hD.isJuxtaposition_of_operator? hop
    obtain ⟨js, z, hprints⟩ := hl.between hD hop hbinary p hr
    refine ⟨js, z, ?_⟩
    simpa [Tree.text, Tree.texts, Tree.nodeText, Tree.binaryLabel, hjuxtaposition] using hprints

/-- **The text of a tree is read as the tree just if every operator that is open in front of a
left operand goes before the operation.**  It is read in any case. -/
theorem tree_render_iff_guarded (hD : D.Reachable) (hsigns : D.SignsApart) {t : Tree Scalar ω}
    (h : Writable D t) :
    ∃ t', (Reader.integers D).tree (t.render (Reader.integers D).spelling) = .ok t' ∧
      (t'.unplaced = t.unplaced ↔ t.Guarded) := by
  rw [plainSpelling_eq, Tree.render_eq_text]
  obtain ⟨ls, x, hprints⟩ := h.prints hD hsigns
  obtain ⟨t', htree, ht'⟩ := Makes.builds (R := .integers D) hprints.makes
  exact ⟨t', htree, by rw [ht', hprints.kept]⟩

end

/-! ### A chain that groups from the right -/

/-- A subtraction that binds as signs do and groups from the right. -/
def lateSubtraction : Operator String := ⟨"@", .infixRtl, 4, .right, .custom "subtract"⟩

/-- The dictionary with this subtraction. -/
def lateSubtractions : Dictionary Scalar String :=
  ⟨.ofList [("@", { after := some ⟨lateSubtraction, -1⟩ })], .empty, .empty⟩

theorem reachable_lateSubtractions : lateSubtractions.Reachable := by
  have hfree : (Dictionary.empty : Dictionary Scalar String).operatorObstacle lateSubtraction =
      none := Dictionary.operatorObstacle_eq_none.2 ⟨by decide, by decide, rfl, rfl, rfl⟩
  refine .register ⟨.operator lateSubtraction, -1⟩ .empty ?_
  simp only [Dictionary.register, Dictionary.registerOperator, hfree]
  rfl

theorem signsApart_lateSubtractions : lateSubtractions.SignsApart := by
  intro label s hs c hc
  have hget : lateSubtractions.operators.get? label =
      if label = "@" then some { after := some ⟨lateSubtraction, -1⟩ } else none :=
    Table.get?_insert ..
  rw [hget] at hs
  split at hs
  · next hlabel =>
    rw [hlabel] at hc
    obtain rfl : '@' = c := Option.some.inj hc
    decide
  · cases hs

/-- The tree of `(-2) @ 3`. -/
def negatedStart : Tree Scalar String :=
  .node ⟨.operator lateSubtraction, 5⟩
    [.node ⟨.operator .unaryMinus, 1⟩ [.node ⟨.operand (.integer (2 : Nat)), 2⟩ []],
    .node ⟨.operand (.integer (3 : Nat)), 7⟩ []]

/-- The tree of `2 @ -3`. -/
def negatedEnd : Tree Scalar String :=
  .node ⟨.operator lateSubtraction, 2⟩
    [.node ⟨.operand (.integer (2 : Nat)), 0⟩ [],
    .node ⟨.operator .unaryMinus, 4⟩ [.node ⟨.operand (.integer (3 : Nat)), 5⟩ []]]

theorem tree_render_iff_guarded_negated :
    lateSubtractions.Reachable ∧ lateSubtractions.SignsApart ∧
      Writable lateSubtractions negatedStart ∧ Writable lateSubtractions negatedEnd ∧
      (∃ t', (Reader.integers lateSubtractions).tree (negatedStart.render
        (Reader.integers lateSubtractions).spelling) = .ok t' ∧
          t'.unplaced ≠ negatedStart.unplaced) ∧
      ∃ t', (Reader.integers lateSubtractions).tree (negatedEnd.render
        (Reader.integers lateSubtractions).spelling) = .ok t' ∧
          t'.unplaced = negatedEnd.unplaced := by
  have hD := reachable_lateSubtractions
  have hsigns := signsApart_lateSubtractions
  have hminus : lateSubtractions.operator? "-" .before = some ⟨.unaryMinus, -1⟩ := rfl
  have hbetween : lateSubtractions.operator? "@" .after = some ⟨lateSubtraction, -1⟩ := rfl
  have hstart : Writable lateSubtractions negatedStart :=
    .between 5 hbetween rfl (.before 1 hminus (.number 2 2)) (.number 3 7)
  have hend : Writable lateSubtractions negatedEnd :=
    .between 2 hbetween rfl (.number 2 0) (.before 4 hminus (.number 3 5))
  obtain ⟨t, ht, hiff⟩ := tree_render_iff_guarded hD hsigns hstart
  obtain ⟨u, hu, hiff'⟩ := tree_render_iff_guarded hD hsigns hend
  refine ⟨hD, hsigns, hstart, hend, ⟨t, ht, fun hsame => ?_⟩, u, hu, hiff'.2 ?_⟩
  · have hpops := (Tree.guarded_between.1 (hiff.1 hsame)).1 .unaryMinus (by decide)
    cases hpops
  · refine Tree.guarded_between.2 ⟨by simp [Tree.exposed, Tree.openers], ?_, ?_⟩
    · rw [Tree.guarded_node (by simp)]
      simp
    · rw [Tree.guarded_node (by simp)]
      simp only [List.mem_singleton, forall_eq]
      rw [Tree.guarded_node (by simp)]
      simp

end Formula
