/-
Formula/Proofs/Rereading.lean

What a printed tree is read as.  An operand that the printer leaves without parentheses
is read as an operand of the operator that stands before it; only factors that are
multiplied with a blank are different.  There is one blank between any two of them,
whatever the tree says about their grouping, and they are read as multiplied from the left.
`readAfter a t` is the tree that is read for `t` where `a` has been read before it with
nothing but a blank between, and `reread t` is the tree that is read for `t` alone.

All of this presupposes that no blank comes before a sign (`Faithful`), for there the lexer
finds no multiplication at all.

Design.  What is read is compared up to positions (`Formula.Proofs.Reading`).  Operators that
are open in front of a printed operand are `Strong` enough to go before every operator that can
follow (`ReadsOperand`), and the hole that a factor is read in is `Weak` enough to stay.

Main statement: `Printable.rereads`.
-/
import Formula.Proofs.Printing
import Formula.Proofs.Reading

namespace Formula

variable {V ω : Type}

/-! ### The tree that is read -/

namespace Tree

variable [DecidableEq ω]

/-- The token that is written for `t`. -/
def writtenToken (t : Token Scalar ω) : Token Scalar ω :=
  match t.item with
  | .operator op => ⟨.operator (writtenFor op), t.position⟩
  | _ => t

mutual

/-- What `t` is read as, after the factor `a` if there is one. -/
def readAfter (a : Option (Tree Scalar ω)) : Tree Scalar ω → Tree Scalar ω
  | node t cs =>
    if (node t cs).isSpaced then (readAfterAll a cs).getD (node t cs)
    else
      match a with
      | none => node (writtenToken t) (rereadAll cs)
      | some a =>
        node ⟨.operator .juxtaposition, t.position⟩ [a, node (writtenToken t) (rereadAll cs)]

/-- What is read for several factors, after `a`. -/
def readAfterAll (a : Option (Tree Scalar ω)) : List (Tree Scalar ω) → Option (Tree Scalar ω)
  | [] => a
  | c :: cs => readAfterAll (some (readAfter a c)) cs

/-- What several trees are read as. -/
def rereadAll : List (Tree Scalar ω) → List (Tree Scalar ω)
  | [] => []
  | c :: cs => readAfter none c :: rereadAll cs

end

/-- What the text of a tree is read as. -/
def reread (t : Tree Scalar ω) : Tree Scalar ω := readAfter none t

theorem rereadAll_eq_map (ts : List (Tree Scalar ω)) : rereadAll ts = ts.map reread := by
  induction ts with
  | nil => rfl
  | cons t ts ih => rw [rereadAll, List.map_cons, ih, reread]

theorem reread_node {t : Token Scalar ω} {cs : List (Tree Scalar ω)}
    (h : (node t cs).isSpaced = false) :
    reread (node t cs) = node (writtenToken t) (cs.map reread) := by
  rw [reread, readAfter, h, if_neg Bool.false_ne_true, rereadAll_eq_map]

/-- Both operands of a written operator are reread on their own. -/
theorem reread_between {op : Operator ω} {p : Int} {l r : Tree Scalar ω}
    (h : (node ⟨.operator op, p⟩ [l, r]).isSpaced = false) :
    reread (node ⟨.operator op, p⟩ [l, r]) =
      node ⟨.operator (writtenFor op), p⟩ [l.reread, r.reread] :=
  reread_node h

/-- A factor that is no product of its own is multiplied with those before it. -/
theorem readAfter_some {t : Tree Scalar ω} (h : t.isSpaced = false) (a : Tree Scalar ω) :
    readAfter (some a) t = node ⟨.operator .juxtaposition, t.token.position⟩ [a, reread t] := by
  obtain ⟨t, cs⟩ := t
  rw [reread_node h, readAfter, h, if_neg Bool.false_ne_true, rereadAll_eq_map]
  rfl

/-- Of a product, the factors are multiplied one by one. -/
theorem readAfter_spaced {t : Token Scalar ω} {l r : Tree Scalar ω}
    (h : (node t [l, r]).isSpaced = true) (a : Option (Tree Scalar ω)) :
    readAfter a (node t [l, r]) = readAfter (some (readAfter a l)) r := by
  cases a <;> rw [readAfter, if_pos h] <;> rfl

mutual

/-- Does the text of the tree begin with a sign? -/
def opensWithSign : Tree Scalar ω → Bool
  | node t cs => t.item.isSign || ((node t cs).isSpaced && headOpensWithSign cs)

/-- Does the text of the first tree begin with a sign? -/
def headOpensWithSign : List (Tree Scalar ω) → Bool
  | [] => false
  | t :: _ => opensWithSign t

end

/-- No factor that is a product of its own begins with a sign. -/
def Faithful (t : Tree Scalar ω) : Prop :=
  ∀ p l r, node ⟨.operator .juxtaposition, p⟩ [l, r] ∈ t.preorder →
    r.isSpaced = true → r.opensWithSign = false

theorem Faithful.child {token : Token Scalar ω} {cs : List (Tree Scalar ω)}
    (h : Faithful (node token cs)) {c : Tree Scalar ω} (hc : c ∈ cs) : Faithful c :=
  fun p l r hmem => h p l r (mem_preorder_node.2 (.inr ⟨c, hc, hmem⟩))

end Tree

/-! ### Holes that are filled before the next operator -/

/-- The operators bind at least as tightly as juxtaposed factors. -/
def Strong (H : List (Hole V ω)) : Prop := ∀ F ∈ H, 3 ≤ F.op.precedence

/-- The innermost operator binds less tightly than juxtaposed factors. -/
def Weak (K : List (Hole V ω)) : Prop := ∀ F ∈ K.head?, F.op.precedence < 3

theorem strong_singleton {F : Hole V ω} (h : 3 ≤ F.op.precedence) : Strong [F] := by
  intro G hG
  rwa [List.mem_singleton.1 hG]

theorem weak_nil : Weak ([] : List (Hole V ω)) := by
  intro F hF
  cases hF

theorem weak_cons {F : Hole V ω} (h : F.op.precedence < 3) (K : List (Hole V ω)) :
    Weak (F :: K) := by
  intro G hG
  rwa [← Option.some.inj hG]

/-- Strong operators go before every operator that does not bind more tightly. -/
theorem popsBefore_of_strong {o c : Operator ω} (hc : c.precedence ≤ 3)
    (hleft : c.groupsRight = false) (ho : 3 ≤ o.precedence) : Yard.popsBefore o c = true := by
  simp only [Yard.popsBefore, hleft, Bool.not_false, Bool.and_true, Bool.or_eq_true,
    decide_eq_true_eq, beq_iff_eq]
  omega

/-- Strong holes are filled at every operator that does not bind more tightly. -/
theorem popHoles_strong {c : Operator ω} (hc : c.precedence ≤ 3) (hleft : c.groupsRight = false)
    {H : List (Hole V ω)} (hH : Strong H) (x : Tree V ω) (K : List (Hole V ω)) :
    popHoles c x (H ++ K) = popHoles c (fillAll x H) K :=
  popHoles_append fun F hF => popsBefore_of_strong hc hleft (hH F hF)

/-- Weak holes are not filled when factors are juxtaposed. -/
theorem popHoles_weak {K : List (Hole V ω)} (hK : Weak K) (x : Tree V ω) :
    popHoles .juxtaposition x K = (x, K) := by
  cases K with
  | nil => rfl
  | cons F K =>
    have hF : F.op.precedence < 3 := hK F rfl
    have hpop : Yard.popsBefore F.op (.juxtaposition : Operator ω) = false := by
      have hle : F.op.precedence ≤ 3 := Int.le_of_lt hF
      have hne : F.op.precedence ≠ 3 := Int.ne_of_lt hF
      simp [Yard.popsBefore, Operator.juxtaposition, hle, hne]
    exact popHoles_eq_self hpop

/-! ### Operands of the innermost hole -/

/-- The tokens are read as an operand `x` of the innermost hole. -/
def ReadsOperand (K : List (Hole V ω)) (s : List (Token V ω)) (x : Tree V ω) : Prop :=
  ∃ H z, Reads K s (H ++ K) z ∧ Strong H ∧ (fillAll z H).unplaced = x.unplaced

/-- Operators that are open in such an operand are strong. -/
theorem readsOperand_iff {K : List (Hole V ω)} {s : List (Token V ω)} {x : Tree V ω} :
    ReadsOperand K s x ↔
      ∃ ops, (∀ o ∈ ops, (3 : Int) ≤ o.precedence) ∧ ReadsBehind K s ops x := by
  constructor
  · rintro ⟨H, z, hz, hH, hx⟩
    exact ⟨_, List.forall_mem_map.2 hH, H, z, hz, rfl, hx⟩
  · rintro ⟨_, hops, H, z, hz, rfl, hx⟩
    exact ⟨H, z, hz, fun F hF => hops F.op (List.mem_map_of_mem hF), hx⟩

section

variable {s u : List (Token V ω)} {x y : Tree V ω} {K : List (Hole V ω)} {p : Int}

theorem ReadsAs.operand (h : ReadsAs s x) (K : List (Hole V ω)) : ReadsOperand K s x :=
  readsOperand_iff.2 ⟨[], by simp, h.behind K⟩

theorem ReadsOperand.whole (h : ReadsOperand [] s x) : ReadsWhole s x := by
  obtain ⟨ops, -, hbehind⟩ := readsOperand_iff.1 h
  exact hbehind.whole

/-- An operand with an operator in front of it that binds more tightly than factors. -/
theorem ReadsOperand.before {op : Operator ω} (q : Int) (hop : op.isPrefix = true)
    (hstrong : 3 ≤ op.precedence) (h : ReadsOperand (.before op p :: K) s x) :
    ReadsOperand K (⟨.operator op, p⟩ :: s) (.node ⟨.operator op, q⟩ [x]) := by
  obtain ⟨ops, hops, hbehind⟩ := readsOperand_iff.1 h
  refine readsOperand_iff.2 ⟨_, ?_, hbehind.before q hop⟩
  exact List.forall_mem_append.2 ⟨hops, List.forall_mem_singleton.2 hstrong⟩

/-- One more factor. -/
theorem ReadsOperand.juxtaposed (q : Int) (hK : Weak K) (h : ReadsOperand K s x)
    (hu : ReadsAs u y) :
    ReadsOperand K (s ++ ⟨.operator .juxtaposition, p⟩ :: u)
      (.node ⟨.operator .juxtaposition, q⟩ [x, y]) := by
  obtain ⟨H, z, hz, hH, hx⟩ := h
  obtain ⟨w, hw, hy⟩ := hu
  have hpop : popHoles .juxtaposition z (H ++ K) = (fillAll z H, K) := by
    rw [popHoles_strong (Int.le_refl 3) rfl hH, popHoles_weak hK]
  refine ⟨[.between (fillAll z H) .juxtaposition p], w, ?_, strong_singleton (Int.le_refl 3), ?_⟩
  · refine hz.between rfl ?_
    rw [hpop]
    exact .atom hw _
  · rw [fillAll, fillAll, Hole.fill, Tree.unplaced_node, Tree.unplaced_node]
    simp [hx, hy]

/-- Two operands with an operator between them that binds less tightly than factors. -/
theorem ReadsOperand.between {op : Operator ω} (q : Int) (hop : op.isBinary = true)
    (hweak : op.precedence < 3) (hleft : op.groupsRight = false) (h : ReadsOperand [] s x)
    (hu : ∀ K, Weak K → ReadsOperand K u y) :
    ReadsWhole (s ++ ⟨.operator op, p⟩ :: u) (.node ⟨.operator op, q⟩ [x, y]) := by
  obtain ⟨ops, hops, hbehind⟩ := readsOperand_iff.1 h
  obtain ⟨w, hw, hall, -⟩ := hbehind.between q hop fun left K => by
    obtain ⟨os, -, hos⟩ :=
      readsOperand_iff.1 (hu _ (weak_cons (F := .between left op p) hweak K))
    exact ⟨os, hos⟩
  refine hw.congr (hall fun o ho => ?_)
  exact popsBefore_of_strong (Int.le_of_lt hweak) hleft (hops o ho)

end

/-! ### Parentheses -/

namespace Tree

variable [DecidableEq ω] {c : Tree Scalar ω}

/-- Is this an operation whose operator is written? -/
def isExplicit (t : Tree Scalar ω) : Bool :=
  match t.lexeme with
  | .operator op => op.isBinary && !t.isSpaced
  | _ => false

theorem isSpaced_eq_false (h : ∀ op, c.lexeme ≠ .operator op) : c.isSpaced = false := by
  rw [isSpaced]
  cases hl : c.lexeme with
  | operator op => exact absurd hl (h op)
  | _ => rfl

/-- An operand with a sign is put in parentheses only if it is that of a power. -/
theorem needsParentheses_sign (op : Operator ω) {inner : Operator ω} {p : Int}
    {cs : List (Tree Scalar ω)} (h : inner ∈ Operator.signs) :
    needsParentheses op (node ⟨.operator inner, p⟩ cs) = decide (4 < op.precedence) := by
  have hprefix := isPrefix_of_signs h
  simp [needsParentheses, lexeme, token, isJuxtaposition_of_isPrefix hprefix,
    Operator.isBinary_of_isPrefix hprefix, Operator.precedence_of_signs h]

/-- Operations with a written operator are put in parentheses. -/
theorem needsParentheses_of_isExplicit (h : c.isExplicit = true) (op : Operator ω) :
    needsParentheses op c = true := by
  rw [isExplicit] at h
  rw [needsParentheses]
  cases hl : c.lexeme with
  | operator inner =>
    rw [hl] at h
    simp only [Bool.and_eq_true, Bool.not_eq_true'] at h
    simp only
    split
    · next hjuxtaposition =>
      have hlabel : impliedLabel c.children ≠ " " := by
        simpa [isSpaced, hl, Lexeme.isJuxtaposition, hjuxtaposition] using h.2
      have hstar := (impliedLabel_eq c.children).resolve_left hlabel
      simp [hstar]
    · rw [if_pos h.1]
  | _ => simp [hl] at h

/-- What stands without parentheses is no such operation. -/
theorem isExplicit_of_needsParentheses {op : Operator ω} (h : needsParentheses op c = false) :
    c.isExplicit = false := by
  cases hexplicit : c.isExplicit with
  | false => rfl
  | true =>
    rw [needsParentheses_of_isExplicit hexplicit] at h
    cases h

/-- Products with a blank are factors without parentheses. -/
theorem needsParentheses_of_isSpaced (h : c.isSpaced = true) :
    needsParentheses .juxtaposition c = false := by
  rw [isSpaced, Bool.and_eq_true] at h
  obtain ⟨hjuxtaposition, hlabel⟩ := h
  rw [needsParentheses]
  cases hl : c.lexeme with
  | operator inner =>
    have hinner : inner.isJuxtaposition = true := by
      simpa [hl, Lexeme.isJuxtaposition] using hjuxtaposition
    obtain rfl : inner = .juxtaposition := by simpa [Operator.isJuxtaposition] using hinner
    simp [hinner, beq_iff_eq.1 hlabel]
  | _ => rfl

/-- So are those that a sign stands before, and products with a blank. -/
theorem of_needsParenthesesAfterSign (h : c.needsParenthesesAfterSign = false) :
    c.isExplicit = false ∧ c.isSpaced = false := by
  rw [needsParenthesesAfterSign] at h
  cases hl : c.lexeme with
  | operator inner =>
    rw [hl] at h
    have hprefix : inner.isPrefix = true := by simpa using h
    have hbinary := Operator.isBinary_of_isPrefix hprefix
    have hjuxtaposition := isJuxtaposition_of_isPrefix hprefix
    simp [isExplicit, isSpaced, hl, hbinary, Lexeme.isJuxtaposition, hjuxtaposition]
  | _ => simp [isExplicit, isSpaced, hl, Lexeme.isJuxtaposition]

/-- The second factor after a blank is no sign. -/
theorem opensWithSign_of_isSpaced {l r : Tree Scalar ω} {p : Int}
    (hblank : (node ⟨.operator .juxtaposition, p⟩ [l, r]).isSpaced = true)
    (h : r.isSpaced = true → r.opensWithSign = false) : r.opensWithSign = false := by
  have hlabel : impliedLabel [l, r] = " " := by
    rwa [isSpaced_juxtaposition, beq_iff_eq] at hblank
  cases hspaced : r.isSpaced with
  | true => exact h hspaced
  | false =>
    obtain ⟨t, cs⟩ := r
    have hsign : t.item.isSign = false := by
      cases hsign : t.item.isSign with
      | false => rfl
      | true =>
        have hr : (node t cs).lexeme.isSign = true := hsign
        simp only [impliedLabel, hr, if_true] at hlabel
        split at hlabel <;> exact absurd hlabel (by decide)
    rw [opensWithSign, hsign, hspaced]
    rfl

/-- A power has atoms for operands. -/
theorem of_needsParentheses_exponentiation {D : Dictionary Scalar ω} (hc : Printable D c)
    (h : needsParentheses .exponentiation c = false) : ∀ op, c.lexeme ≠ .operator op := by
  intro op hop
  have hneeds : needsParentheses .exponentiation c = true := by
    cases hc with
    | sign p hsign =>
      rw [needsParentheses_sign _ hsign]
      rfl
    | juxtaposed p =>
      simp [needsParentheses, lexeme, token, Operator.isJuxtaposition, Operator.juxtaposition,
        Operator.exponentiation]
    | between p hwritten =>
      simp [needsParentheses, lexeme, token, isJuxtaposition_of_written hwritten,
        isBinary_of_written hwritten]
    | _ => cases hop
  rw [h] at hneeds
  cases hneeds

end Tree

/-! ### Rereading -/

/-- After an operand, an atom is multiplied with it. -/
theorem ReadsOperand.joined {K : List (Hole Scalar ω)} {s ts : List (Token Scalar ω)}
    {a x : Tree Scalar ω} {ls : List (Lexeme Scalar ω)} (p : Int) (hK : Weak K)
    (h : ReadsOperand K s a) (hts : ts.map (·.item) = .operator .juxtaposition :: ls)
    (hls : ∀ us : List (Token Scalar ω), us.map (·.item) = ls → ReadsAs us x) :
    ReadsOperand K (s ++ ts) (.node ⟨.operator .juxtaposition, p⟩ [a, x]) := by
  obtain ⟨q, us, rfl, hus⟩ := items_eq_cons hts
  exact h.juxtaposed p hK (hls us hus)

section

variable [DecidableEq ω] {D : Dictionary Scalar ω} {c : Tree Scalar ω}

/-- Tokens with the lexemes of `t` are read as `t.reread`, wherever its text can stand. -/
structure Rereads (D : Dictionary Scalar ω) (t : Tree Scalar ω) : Prop where
  begins : ∃ l ls, t.lexemes D = l :: ls ∧ l.beginsOperand = true
  whole : ∀ ts : List (Token Scalar ω), ts.map (·.item) = t.lexemes D → ReadsWhole ts t.reread
  atom : (∀ op, t.lexeme ≠ .operator op) →
    ∀ ts : List (Token Scalar ω), ts.map (·.item) = t.lexemes D → ReadsAs ts t.reread
  operand : t.isExplicit = false → ∀ K, (t.isSpaced = true → Weak K) →
    ∀ ts : List (Token Scalar ω), ts.map (·.item) = t.lexemes D → ReadsOperand K ts t.reread
  after : t.isExplicit = false → t.opensWithSign = false → ∀ K s a, Weak K → ReadsOperand K s a →
    ∀ ts : List (Token Scalar ω), ts.map (·.item) = joined (t.lexemes D) →
      ReadsOperand K (s ++ ts) (Tree.readAfter (some a) t)

/-- What is read as an atom is read in every place. -/
theorem Rereads.of_atom {t : Tree Scalar ω} {l : Lexeme Scalar ω} {ls : List (Lexeme Scalar ω)}
    (ht : ∀ op, t.lexeme ≠ .operator op) (hlexemes : t.lexemes D = l :: ls)
    (hbegins : l.beginsOperand = true) (hl : ∀ op, l ≠ .operator op)
    (h : ∀ ts : List (Token Scalar ω), ts.map (·.item) = t.lexemes D → ReadsAs ts t.reread) :
    Rereads D t where
  begins := ⟨l, ls, hlexemes, hbegins⟩
  whole ts hts := ((h ts hts).operand []).whole
  atom _ := h
  operand _ K _ ts hts := (h ts hts).operand K
  after _ _ K s a hK hs ts hts := by
    have hjoined : joined (t.lexemes D) = .operator .juxtaposition :: t.lexemes D := by
      rw [hlexemes]
      cases l with
      | operator op => exact absurd rfl (hl op)
      | _ => rfl
    rw [hjoined] at hts
    rw [Tree.readAfter_some (Tree.isSpaced_eq_false ht)]
    exact hs.joined _ hK hts h

theorem Rereads.group (h : Rereads D c) {ts : List (Token Scalar ω)}
    (hts : ts.map (·.item) = .leftParenthesis :: (c.lexemes D ++ [.rightParenthesis])) :
    ReadsAs ts c.reread := by
  obtain ⟨p, us, q, rfl, hus⟩ := items_eq_group hts
  refine (h.whole us hus).group ?_
  obtain ⟨l, ls, hl, hbegins⟩ := h.begins
  rw [hl] at hus
  obtain ⟨r, vs, rfl, -⟩ := items_eq_cons hus
  exact ⟨_, vs, rfl, hbegins⟩

/-- An operand of an operator, in parentheses if it needs them. -/
theorem Rereads.enclosed_operand (h : Rereads D c) (op : Operator ω) {K : List (Hole Scalar ω)}
    (hK : Weak K) {ts : List (Token Scalar ω)}
    (hts : ts.map (·.item) = enclosed (Tree.needsParentheses op c) (c.lexemes D)) :
    ReadsOperand K ts c.reread := by
  cases hneeds : Tree.needsParentheses op c with
  | true =>
    rw [hneeds] at hts
    exact (h.group hts).operand K
  | false =>
    rw [hneeds] at hts
    exact h.operand (Tree.isExplicit_of_needsParentheses hneeds) K (fun _ => hK) ts hts

/-- An operand of a power, in parentheses if it needs them. -/
theorem Rereads.enclosed_atom (h : Rereads D c) (hc : Printable D c) {ts : List (Token Scalar ω)}
    (hts : ts.map (·.item) = enclosed (Tree.needsParentheses .exponentiation c) (c.lexemes D)) :
    ReadsAs ts c.reread := by
  cases hneeds : Tree.needsParentheses .exponentiation c with
  | true =>
    rw [hneeds] at hts
    exact h.group hts
  | false =>
    rw [hneeds] at hts
    exact h.atom (Tree.of_needsParentheses_exponentiation hc hneeds) ts hts

/-- A factor after other factors, in parentheses if it needs them. -/
theorem Rereads.enclosed_after (h : Rereads D c) (hsign : c.opensWithSign = false)
    {K : List (Hole Scalar ω)} {s : List (Token Scalar ω)} {a : Tree Scalar ω} (hK : Weak K)
    (hs : ReadsOperand K s a) {ts : List (Token Scalar ω)}
    (hts : ts.map (·.item) =
      joined (enclosed (Tree.needsParentheses .juxtaposition c) (c.lexemes D))) :
    ReadsOperand K (s ++ ts) (Tree.readAfter (some a) c) := by
  cases hneeds : Tree.needsParentheses .juxtaposition c with
  | true =>
    have hspaced : c.isSpaced = false := by
      cases hspaced : c.isSpaced with
      | false => rfl
      | true => rw [Tree.needsParentheses_of_isSpaced hspaced] at hneeds; cases hneeds
    rw [hneeds] at hts
    rw [Tree.readAfter_some hspaced]
    exact hs.joined _ hK hts fun us hus => h.group hus
  | false =>
    rw [hneeds] at hts
    exact h.after (Tree.isExplicit_of_needsParentheses hneeds) hsign K s a hK hs ts hts

theorem Rereads.enclosed_begins (h : Rereads D c) (b : Bool) :
    ∃ l ls, enclosed b (c.lexemes D) = l :: ls ∧ l.beginsOperand = true := by
  cases b with
  | true => exact ⟨_, _, rfl, rfl⟩
  | false => exact h.begins

/-- A product with a blank between its factors. -/
theorem Rereads.spaced {l r : Tree Scalar ω} (p : Int) (hl : Rereads D l) (hr : Rereads D r)
    (hspaced : (Tree.node ⟨.operator .juxtaposition, p⟩ [l, r]).isSpaced = true)
    (hsign : r.opensWithSign = false) :
    Rereads D (.node ⟨.operator .juxtaposition, p⟩ [l, r]) := by
  have hlexemes := Tree.lexemes_spaced (D := D) hspaced
  obtain ⟨t, ls, hbegin, hbegins⟩ := hl.enclosed_begins (Tree.needsParentheses .juxtaposition l)
  have hoperand : ∀ K, Weak K → ∀ ts : List (Token Scalar ω),
      ts.map (·.item) = (Tree.node ⟨.operator .juxtaposition, p⟩ [l, r]).lexemes D →
        ReadsOperand K ts (Tree.node ⟨.operator .juxtaposition, p⟩ [l, r]).reread := by
    intro K hK ts hts
    rw [hlexemes] at hts
    obtain ⟨us, vs, rfl, hus, hvs⟩ := List.map_eq_append_iff.1 hts
    rw [Tree.reread, Tree.readAfter_spaced hspaced]
    exact hr.enclosed_after hsign hK (hl.enclosed_operand _ hK hus) hvs
  refine ⟨⟨t, _, by rw [hlexemes, hbegin, List.cons_append], hbegins⟩, ?_, ?_, ?_, ?_⟩
  · exact fun ts hts => (hoperand [] weak_nil ts hts).whole
  · exact fun h => absurd rfl (h _)
  · exact fun _ K hK ts hts => hoperand K (hK hspaced) ts hts
  -- behind a factor the product comes apart: first `l` is multiplied, then `r`
  · intro _ hopens K s a hK hs ts hts
    have hl_sign : l.opensWithSign = false := by
      rw [Tree.opensWithSign, hspaced, Bool.true_and, Tree.headOpensWithSign,
        Bool.or_eq_false_iff] at hopens
      exact hopens.2
    have hjoined : joined ((Tree.node ⟨.operator .juxtaposition, p⟩ [l, r]).lexemes D) =
        joined (enclosed (Tree.needsParentheses .juxtaposition l) (l.lexemes D)) ++
          joined (enclosed (Tree.needsParentheses .juxtaposition r) (r.lexemes D)) := by
      rw [hlexemes]
      exact joined_append (by simp [hbegin]) _
    rw [hjoined] at hts
    obtain ⟨us, vs, rfl, hus, hvs⟩ := List.map_eq_append_iff.1 hts
    rw [Tree.readAfter_spaced hspaced, ← List.append_assoc]
    exact hr.enclosed_after hsign hK (hl.enclosed_after hl_sign hK hs hus) hvs

/-- An operation whose operator is written. -/
theorem Rereads.explicit {op : Operator ω} {l r : Tree Scalar ω} (p : Int) (hl : Rereads D l)
    (hop : op.isBinary = true) (hspaced : (Tree.node ⟨.operator op, p⟩ [l, r]).isSpaced = false)
    (hwhole : ∀ (us vs : List (Token Scalar ω)) (q : Int),
      us.map (·.item) = enclosed (Tree.needsParentheses op l) (l.lexemes D) →
      vs.map (·.item) = enclosed (Tree.needsParentheses op r) (r.lexemes D) →
        ReadsWhole (us ++ ⟨.operator (Tree.writtenFor op), q⟩ :: vs)
          (.node ⟨.operator (Tree.writtenFor op), p⟩ [l.reread, r.reread])) :
    Rereads D (.node ⟨.operator op, p⟩ [l, r]) := by
  -- as a factor or an operand it stands in parentheses, so it is only read alone
  have hexplicit : (Tree.node ⟨.operator op, p⟩ [l, r]).isExplicit = true := by
    rw [Tree.isExplicit, hspaced]
    simp [Tree.lexeme, Tree.token, hop]
  have hlexemes := Tree.lexemes_between (D := D) hspaced
  obtain ⟨t, ls, hbegin, hbegins⟩ := hl.enclosed_begins (Tree.needsParentheses op l)
  refine ⟨⟨t, _, by rw [hlexemes, hbegin, List.cons_append], hbegins⟩, ?_, ?_, ?_, ?_⟩
  · intro ts hts
    rw [hlexemes] at hts
    obtain ⟨us, q, vs, rfl, hus, hvs⟩ := items_eq_between hts
    rw [Tree.reread_between hspaced]
    exact hwhole us vs q hus hvs
  · exact fun h => absurd rfl (h op)
  · intro h
    rw [hexplicit] at h
    cases h
  · intro h
    rw [hexplicit] at h
    cases h

/-- An operand with a sign. -/
theorem Rereads.sign {op : Operator ω} (p : Int) (hop : op ∈ Operator.signs) (h : Rereads D c) :
    Rereads D (.node ⟨.operator op, p⟩ [c]) := by
  have hprefix := isPrefix_of_signs hop
  have hprecedence : 3 ≤ op.precedence := by
    rw [Operator.precedence_of_signs hop]
    decide
  have hsign := Operator.isSign_iff.2 hop
  have hjuxtaposition := isJuxtaposition_of_isPrefix hprefix
  have hspaced : (Tree.node ⟨.operator op, p⟩ [c]).isSpaced = false :=
    Tree.isSpaced_of_not_isJuxtaposition hjuxtaposition
  have hlexemes := Tree.lexemes_sign (D := D) op p c
  have hreread : (Tree.node ⟨.operator op, p⟩ [c]).reread = .node ⟨.operator op, p⟩ [c.reread] := by
    rw [Tree.reread_node hspaced]
    simp [Tree.writtenToken, Tree.writtenFor_of_not_isJuxtaposition hjuxtaposition]
  have hoperand : ∀ K, ∀ ts : List (Token Scalar ω),
      ts.map (·.item) = (Tree.node ⟨.operator op, p⟩ [c]).lexemes D →
        ReadsOperand K ts (Tree.node ⟨.operator op, p⟩ [c]).reread := by
    intro K ts hts
    rw [hlexemes] at hts
    obtain ⟨q, us, rfl, hus⟩ := items_eq_cons hts
    rw [hreread]
    refine .before p hprefix hprecedence ?_
    cases hneeds : c.needsParenthesesAfterSign with
    | true =>
      rw [hneeds] at hus
      exact (h.group hus).operand _
    | false =>
      rw [hneeds] at hus
      obtain ⟨hexplicit, hblank⟩ := Tree.of_needsParenthesesAfterSign hneeds
      exact h.operand hexplicit _ (by simp [hblank]) us hus
  refine ⟨⟨_, _, hlexemes, hprefix⟩, ?_, ?_, ?_, ?_⟩
  · exact fun ts hts => (hoperand [] ts hts).whole
  · exact fun h => absurd rfl (h op)
  · exact fun _ K _ ts hts => hoperand K ts hts
  -- behind a factor it opens with a sign, which is excluded
  · intro _ hopens
    simp [Tree.opensWithSign, Lexeme.isSign, hsign] at hopens

/-- A product whose operator must be written. -/
theorem Rereads.starred {l r : Tree Scalar ω} (p : Int) (hl : Rereads D l) (hr : Rereads D r)
    (hspaced : (Tree.node ⟨.operator .juxtaposition, p⟩ [l, r]).isSpaced = false) :
    Rereads D (.node ⟨.operator .juxtaposition, p⟩ [l, r]) := by
  refine .explicit p hl rfl hspaced fun us vs q hus hvs => ?_
  rw [Tree.writtenFor_juxtaposition]
  exact (hl.enclosed_operand _ weak_nil hus).between p rfl (by simp [Operator.multiplication]) rfl
    fun K hK => hr.enclosed_operand _ hK hvs

/-- An operation of one of the written operators. -/
theorem Rereads.written {op : Operator ω} {l r : Tree Scalar ω} (p : Int)
    (hop : op ∈ Operator.written) (hlp : Printable D l) (hrp : Printable D r)
    (hl : Rereads D l) (hr : Rereads D r) : Rereads D (.node ⟨.operator op, p⟩ [l, r]) := by
  have hjuxtaposition := isJuxtaposition_of_written hop
  have hspaced : (Tree.node ⟨.operator op, p⟩ [l, r]).isSpaced = false :=
    Tree.isSpaced_of_not_isJuxtaposition hjuxtaposition
  have hbinary := isBinary_of_written hop
  refine .explicit p hl hbinary hspaced fun us vs q hus hvs => ?_
  rw [Tree.writtenFor_of_not_isJuxtaposition hjuxtaposition]
  -- powers group from the right, so the operands of a power must be atoms
  by_cases hpower : op = .exponentiation
  · subst hpower
    exact (hl.enclosed_atom hlp hus).between p rfl (hr.enclosed_atom hrp hvs)
  · have hweak : op.precedence < 3 ∧ op.groupsRight = false := by
      simp only [Operator.written, List.mem_cons, List.not_mem_nil, or_false] at hop
      rcases hop with rfl | rfl | rfl | rfl | rfl | rfl
      · exact ⟨by simp [Operator.addition], rfl⟩
      · exact ⟨by simp [Operator.subtraction], rfl⟩
      · exact ⟨by simp [Operator.multiplication], rfl⟩
      · exact ⟨by simp [Operator.division], rfl⟩
      · exact ⟨by simp [Operator.modulo], rfl⟩
      · exact absurd rfl hpower
    exact (hl.enclosed_operand _ weak_nil hus).between p hbinary hweak.1 hweak.2
      fun K hK => hr.enclosed_operand _ hK hvs

/-- A call. -/
theorem Rereads.call {f : Placed (Function ω)} {cs : List (Tree Scalar ω)} (p : Int)
    (hf : D.function? f.item.label = some f) (hadmits : f.item.admits cs.length = true)
    (h : ∀ c ∈ cs, Rereads D c) : Rereads D (callOf f.item p cs) := by
  have hlexemes := Tree.lexemes_callOf hf p cs
  have hreread : (callOf f.item p cs).reread = callOf f.item p (cs.map Tree.reread) := by
    rw [callOf, Tree.reread_node (Tree.isSpaced_of_not_isJuxtaposition rfl), callOf]
    simp [Tree.writtenToken]
  refine .of_atom (by simp [callOf, Tree.lexeme, Tree.token]) hlexemes rfl (by simp) ?_
  intro ts hts
  rw [hlexemes] at hts
  rw [hreread]
  exact readsAs_call p hadmits (fun c hc => (h c hc).begins) (fun c hc => (h c hc).whole) hts

/-- **A printed tree is read as its rereading**, if no blank comes before a sign. -/
theorem Printable.rereads {t : Tree Scalar ω} (h : Printable D t) (hfaithful : t.Faithful) :
    Rereads D t := by
  induction h with
  | number n p =>
    refine .of_atom (by simp [Tree.lexeme, Tree.token]) rfl rfl (by simp) ?_
    intro ts hts
    obtain ⟨q, rfl⟩ := items_eq_singleton hts
    exact ⟨_, .operand _ q, rfl⟩
  | var p _ _ =>
    refine .of_atom (by simp [Tree.lexeme, Tree.token]) rfl rfl (by simp) ?_
    intro ts hts
    obtain ⟨q, rfl⟩ := items_eq_singleton hts
    exact ⟨_, .var _ q, rfl⟩
  | call p hf hadmits _ ih =>
    exact .call p hf hadmits fun c hc => ih c hc (hfaithful.child hc)
  | sign p hop _ ih => exact .sign p hop (ih (hfaithful.child (by simp)))
  | @juxtaposed l r p _ _ ihl ihr =>
    have hl := ihl (hfaithful.child (by simp))
    have hr := ihr (hfaithful.child (by simp))
    cases hspaced : (Tree.node ⟨.operator .juxtaposition, p⟩ [l, r]).isSpaced with
    | false => exact .starred p hl hr hspaced
    | true =>
      refine .spaced p hl hr hspaced (Tree.opensWithSign_of_isSpaced hspaced ?_)
      exact hfaithful p l r (Tree.mem_preorder_node.2 (.inl rfl))
  | @between op l r p hop hl hr ihl ihr =>
    exact .written p hop hl hr (ihl (hfaithful.child (by simp))) (ihr (hfaithful.child (by simp)))

end

end Formula
