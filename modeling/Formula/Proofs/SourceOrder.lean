/-
Formula/Proofs/SourceOrder.lean

When a tree reads back in the order of its text.  Operators wait while their last operand is
read, and an operator that stands after its operand has been given it already.  It waits all
the same, until the next operator that it goes before; if this is not the next operator of the
text, the ones before are put on top of it and end up under it, in front of it in the tree and
behind it in the text.

So a list of tokens is *prompt* if an operator that stands after its operand goes before the
operator that comes right after it.  Of a prompt text the tree reads in order, and the operand
of an operator that stands after it lies to its left; of any other text neither holds.

The phrases of a formula are read from holes `K` to holes `K'` and an operand `x`, as in
`Formula.Proofs.Shunting`; `Spells K s K' x` says what the tree that they make keeps of `K` and
of the phrase `s`.  One lemma for each production of the grammar builds it.

Main statement: `inorder_eq_iff_prompt`.
-/
import Formula.Proofs.Acceptance
import Formula.Proofs.Coverage
import Formula.Proofs.Inorder
import Mathlib.Data.List.Chain

namespace Formula

variable {V ω : Type}

/-! ### Tokens without marks -/

/-- The lexeme without the number of its arguments, if it is a function. -/
def Lexeme.uncounted : Lexeme V ω → Lexeme V ω
  | function f => function { f with arguments := none }
  | l => l

/-- The token without the number of its arguments. -/
def uncounted (t : Token V ω) : Token V ω := ⟨t.item.uncounted, t.position⟩

/-- The tokens that a tree is made of: all but the marks. -/
def bare (ts : List (Token V ω)) : List (Token V ω) :=
  (ts.filter fun t => !t.item.isPunctuation).map uncounted

theorem bare_append (ts us : List (Token V ω)) : bare (ts ++ us) = bare ts ++ bare us := by
  simp [bare]

theorem bare_cons {t : Token V ω} (h : t.item.isPunctuation = false) (ts : List (Token V ω)) :
    bare (t :: ts) = uncounted t :: bare ts := by
  simp [bare, h]

theorem bare_mark {t : Token V ω} (h : t.item.isPunctuation = true) (ts : List (Token V ω)) :
    bare (t :: ts) = bare ts := by
  simp [bare, h]

/-! ### The order of a text -/

/-- The token `a` stands before `b`: further to the left or, if `a` is only implied, at the
place of an operand that begins with `b`. -/
def Precedes (a b : Token V ω) : Prop :=
  a.position < b.position ∨ a.position = b.position ∧ b.item.beginsOperand = true

/-- An operator that does not begin an operand is further to the right. -/
theorem Precedes.lt {a : Token V ω} {op : Operator ω} {p : Int} (h : Precedes a ⟨.operator op, p⟩)
    (hop : op.isPrefix = false) : a.position < p := by
  rcases h with h | ⟨-, hbegins⟩
  · exact h
  · rw [Lexeme.beginsOperand, hop] at hbegins
    cases hbegins

theorem precedes_uncounted {a b : Token V ω} :
    Precedes (uncounted a) (uncounted b) ↔ Precedes a b := by
  obtain ⟨l, p⟩ := b
  cases l <;> rfl

/-- The tokens of a text stand in its order. -/
theorem Lexicon.pairwise_tokens {L : Lexicon V ω} (hD : L.dictionary.Reachable) {text : String}
    {ts : List (Token V ω)} (h : L.tokens text = .ok ts) : ts.Pairwise Precedes := by
  refine (words_induction (motive := fun _ position _ ts =>
    (∀ t ∈ ts, (position : Int) ≤ t.position) ∧ ts.Pairwise Precedes)
    hD.empty_not_mem_labels ?_ ?_ ?_ h).2
  · intro previous position
    exact ⟨by simp, .nil⟩
  · rintro previous position c s ts - ⟨hle, hts⟩
    exact ⟨fun t ht => by have := hle t ht; omega, hts⟩
  · rintro previous position c u rest l ts - - ⟨hle, hts⟩
    have hlt : ∀ t ∈ ts, (position : Int) < t.position := fun t ht => by
      have := hle t ht
      omega
    have hword : (⟨l, position⟩ :: ts).Pairwise Precedes :=
      List.pairwise_cons.2 ⟨fun t ht => .inl (hlt t ht), hts⟩
    have hwordle : ∀ t ∈ (⟨l, position⟩ :: ts : List (Token V ω)), (position : Int) ≤ t.position :=
      List.forall_mem_cons.2 ⟨Int.le_refl _, fun t ht => Int.le_of_lt (hlt t ht)⟩
    rw [implied]
    split
    · next himplied =>
      rw [Bool.and_eq_true] at himplied
      refine ⟨List.forall_mem_cons.2 ⟨Int.le_refl _, hwordle⟩, List.pairwise_cons.2 ⟨?_, hword⟩⟩
      refine List.forall_mem_cons.2 ⟨.inr ⟨rfl, himplied.2⟩, fun t ht => .inl (hlt t ht)⟩
    · exact ⟨hwordle, hword⟩

/-! ### Prompt lists -/

/-- If `a` is an operator that stands after its operand and `b` is an operator, `a` goes
before it. -/
def Yields (a b : Token V ω) : Prop :=
  ∀ q c, a.item = .operator q → b.item = .operator c → q.isPostfix = true →
    Yard.popsBefore q c = true

/-- Every operator that stands after its operand goes before the operator right after it. -/
def Prompt (ts : List (Token V ω)) : Prop := ts.IsChain Yields

theorem yields_of_not_postfix {a : Token V ω} (h : ∀ q, a.item = .operator q → q.isPostfix = false)
    (b : Token V ω) : Yields a b := by
  intro q c ha _ hpostfix
  rw [h q ha] at hpostfix
  cases hpostfix

/-- A token that stands after no operand is no bar. -/
theorem prompt_cons {a : Token V ω} {ts : List (Token V ω)}
    (h : ∀ q, a.item = .operator q → q.isPostfix = false) : Prompt (a :: ts) ↔ Prompt ts := by
  rw [Prompt, List.isChain_cons]
  exact and_iff_right fun b _ => yields_of_not_postfix h b

theorem prompt_snoc {ts : List (Token V ω)} {b : Token V ω} :
    Prompt (ts ++ [b]) ↔ Prompt ts ∧ ∀ a ∈ ts.getLast?, Yields a b := by
  rw [Prompt, List.isChain_append]
  simp [Prompt]

theorem prompt_append_cons {ts us : List (Token V ω)} {b : Token V ω}
    (h : ∀ q, b.item = .operator q → q.isPostfix = false) :
    Prompt (ts ++ b :: us) ↔ Prompt (ts ++ [b]) ∧ Prompt us := by
  rw [Prompt, List.isChain_split]
  exact and_congr_right fun _ => prompt_cons h

theorem Lexeme.ne_operator_of_isPunctuation {l : Lexeme V ω} (h : l.isPunctuation = true)
    (op : Operator ω) : l ≠ .operator op := by
  rintro rfl
  cases h

theorem prompt_mark_cons {a : Token V ω} {ts : List (Token V ω)}
    (h : a.item.isPunctuation = true) : Prompt (a :: ts) ↔ Prompt ts :=
  prompt_cons fun q hq => absurd hq (Lexeme.ne_operator_of_isPunctuation h q)

/-- A mark divides a list into lists that are prompt on their own. -/
theorem prompt_append_mark {ts us : List (Token V ω)} {b : Token V ω}
    (h : b.item.isPunctuation = true) : Prompt (ts ++ b :: us) ↔ Prompt ts ∧ Prompt us := by
  have hb := Lexeme.ne_operator_of_isPunctuation h
  rw [prompt_append_cons fun q hq => absurd hq (hb q), prompt_snoc]
  exact and_congr_left fun _ => and_iff_left fun _ _ _ c _ hc => absurd hc (hb c)

/-- The tokens under an operator that stands after its operand lie to its left. -/
def Tree.OperandsLeft (t : Tree V ω) : Prop :=
  ∀ op p b, op.isPostfix = true → t.Under ⟨.operator op, p⟩ b → b.position < p

theorem Tree.OperandsLeft.of_under {t z : Tree V ω} (h : t.OperandsLeft)
    (hunder : ∀ a b, z.Under a b → t.Under a b) : z.OperandsLeft :=
  fun op p b hop hz => h op p b hop (hunder _ b hz)

/-! ### Holes -/

/-- All operators lead, but for one at the most that stands after its operand, and this is the
innermost. -/
def Poised (K : List (Hole V ω)) : Prop :=
  (∀ F ∈ K, F.Leads) ∨
    ∃ q p L, K = .after q p :: L ∧ q.isPostfix = true ∧ ∀ F ∈ L, F.Leads

/-- An operator that all others yield to meets operators that lead. -/
theorem Poised.leads_popHoles {K : List (Hole V ω)} {x : Tree V ω} {c : Operator ω}
    (h : Poised K) (hyields : ∀ q p, q.isPostfix = true → K.head? = some (.after q p) →
      Yard.popsBefore q c = true) : ∀ F ∈ (popHoles c x K).2, F.Leads := by
  intro F hF
  rcases h with hleads | ⟨q, p, L, rfl, hq, hleads⟩
  · exact hleads F (popHoles_suffix.subset hF)
  · have hpop : Yard.popsBefore (Hole.after q p : Hole V ω).op c = true := hyields q p hq rfl
    rw [popHoles, if_pos hpop] at hF
    exact hleads F (popHoles_suffix.subset hF)

/-- The innermost operator does not stand after its operand, as where an operand begins. -/
def Started : List (Hole V ω) → Prop
  | .after _ _ :: _ => False
  | _ => True

theorem Started.head?_ne {K : List (Hole V ω)} (h : Started K) (q : Operator ω) (p : Int) :
    K.head? ≠ some (.after q p) := by
  intro hhead
  obtain ⟨L, rfl⟩ := List.head?_eq_some_iff.1 hhead
  exact h

/-! ### Spelling phrases -/

/-- What the tree of an atom keeps of its tokens. -/
structure SpellsAtom (s : List (Token V ω)) (x : Tree V ω) : Prop where
  last : ∃ a, s.getLast? = some a ∧ ∀ q p, q.isPostfix = true → a ≠ ⟨.operator q, p⟩
  order : Prompt s → x.inorder.map uncounted = bare s
  prompt : s.Pairwise Precedes → x.OperandsLeft → Prompt s

/-- What the tree of a phrase keeps of the holes before it and of its tokens.  An operator
that stands after its operand has a hole only if it is the last one that has been read. -/
structure Spells (K : List (Hole V ω)) (s : List (Token V ω)) (K' : List (Hole V ω))
    (x : Tree V ω) : Prop where
  last : ∃ a, s.getLast? = some a ∧ ∀ q p, q.isPostfix = true →
    (K'.head? = some (.after q p) ↔ a = ⟨.operator q, p⟩)
  order : Prompt s → (∀ F ∈ K, F.Leads) →
    Poised K' ∧ (fillAll x K').inorder.map uncounted = (ahead K).map uncounted ++ bare s
  keeps : ∀ a b, (∀ z, (fillAll z K).Under a b) → (fillAll x K').Under a b
  prompt : s.Pairwise Precedes → (fillAll x K').OperandsLeft → Prompt s

/-- What the trees of arguments keep of their tokens. -/
structure SpellsArguments (s : List (Token V ω)) (xs : List (Tree V ω)) : Prop where
  order : Prompt s → (Tree.inorders xs).map uncounted = bare s
  prompt : s.Pairwise Precedes → (∀ x ∈ xs, x.OperandsLeft) → Prompt s

section

variable {K K' K'' : List (Hole V ω)} {s u : List (Token V ω)} {x z : Tree V ω}
  {op : Operator ω} {p : Int}

theorem Spells.atom (h : SpellsAtom s x) (hK : Started K) : Spells K s K x where
  last := by
    obtain ⟨a, ha, hne⟩ := h.last
    exact ⟨a, ha, fun q p hq => iff_of_false (hK.head?_ne q p) (hne q p hq)⟩
  order hs hleads := by
    refine ⟨.inl hleads, ?_⟩
    rw [inorder_fillAll hleads, List.map_append, h.order hs]
  keeps _ _ hunder := hunder x
  prompt hs hleft := h.prompt hs (hleft.of_under fun _ _ hunder => under_fillAll hunder K)

theorem Spells.before (hop : op.isPrefix = true) (h : Spells (.before op p :: K) s K' x) :
    Spells K (⟨.operator op, p⟩ :: s) K' x := by
  have hcons : Prompt (⟨.operator op, p⟩ :: s) ↔ Prompt s :=
    prompt_cons fun q hq => Lexeme.operator.inj hq ▸ Operator.isPostfix_of_isPrefix hop
  refine ⟨?_, ?_, ?_, ?_⟩
  · obtain ⟨a, ha, hlast⟩ := h.last
    exact ⟨a, by simp [List.getLast?_cons, ha], hlast⟩
  · intro hs hleads
    obtain ⟨hpoised, horder⟩ := h.order (hcons.1 hs) (List.forall_mem_cons.2 ⟨hop, hleads⟩)
    refine ⟨hpoised, ?_⟩
    rw [horder, bare_cons rfl, ahead, Hole.ahead, List.map_append, List.append_assoc]
    rfl
  · exact fun a b hunder => h.keeps a b fun z => hunder _
  · exact fun hs hleft => hcons.2 (h.prompt (List.pairwise_cons.1 hs).2 hleft)

/-- Where a phrase is prompt up to an operator after an operand, the holes that this operator
leaves lead, and with the operand that is left they read as the phrase. -/
theorem Spells.leads (h : Spells K s K' x) (hs : Prompt (s ++ [⟨.operator op, p⟩]))
    (hleads : ∀ F ∈ K, F.Leads) :
    (∀ F ∈ (popHoles op x K').2, F.Leads) ∧
      (ahead (popHoles op x K').2 ++ (popHoles op x K').1.inorder).map uncounted =
        (ahead K).map uncounted ++ bare s := by
  obtain ⟨hs, hyields⟩ := prompt_snoc.1 hs
  obtain ⟨hpoised, horder⟩ := h.order hs hleads
  obtain ⟨a, ha, hlast⟩ := h.last
  have hrest : ∀ F ∈ (popHoles op x K').2, F.Leads := by
    refine hpoised.leads_popHoles ?_
    intro q i hq hhead
    rw [hlast q i hq] at hhead
    exact hyields a ha q op (by rw [hhead]) rfl hq
  refine ⟨hrest, ?_⟩
  rw [← inorder_fillAll hrest, fillAll_popHoles, horder]

/-- A phrase is prompt up to an operator after an operand if this operator does not come under
one that it is to the right of. -/
theorem Spells.prompt_operator (h : Spells K s K' x) {t : Tree V ω}
    (hs : List.Pairwise Precedes (s ++ [⟨.operator op, p⟩])) (hop : op.isPrefix = false)
    (hleft : t.OperandsLeft) (hkeeps : ∀ a b, (fillAll x K').Under a b → t.Under a b)
    (hput : ∀ q i L, K' = .after q i :: L → Yard.popsBefore q op = false →
      t.Under ⟨.operator q, i⟩ ⟨.operator op, p⟩) : Prompt (s ++ [⟨.operator op, p⟩]) := by
  obtain ⟨hs, -, hprecedes⟩ := List.pairwise_append.1 hs
  obtain ⟨a, ha, hlast⟩ := h.last
  refine prompt_snoc.2 ⟨h.prompt hs (hleft.of_under hkeeps), ?_⟩
  intro b hb q c hq hc hpostfix
  obtain rfl : a = b := Option.some.inj (ha.symm.trans hb)
  obtain rfl : op = c := Lexeme.operator.inj hc
  by_contra hpops
  -- the operator before has a hole, which the new one does not fill
  obtain ⟨l, i⟩ := a
  obtain rfl : l = .operator q := hq
  obtain ⟨L, rfl⟩ := List.head?_eq_some_iff.1 ((hlast q i hpostfix).2 rfl)
  have hlt := hleft q i _ hpostfix (hput q i L rfl (by simpa using hpops))
  have hgt := (hprecedes _ (List.mem_of_getLast? ha) _ (List.mem_singleton_self _)).lt hop
  exact absurd hlt (Int.not_lt.2 (Int.le_of_lt hgt))

theorem Spells.after (h : Spells K s K' x) (hop : op.isPostfix = true) :
    Spells K (s ++ [⟨.operator op, p⟩]) (.after op p :: (popHoles op x K').2)
      (popHoles op x K').1 := by
  have hpre := Operator.isPrefix_of_isPostfix hop
  have hkeeps : ∀ a b, (fillAll x K').Under a b →
      (fillAll (popHoles op x K').1 (.after op p :: (popHoles op x K').2)).Under a b :=
    fun _ _ hunder => under_fillAll_popHoles hunder op _ []
  refine ⟨?_, ?_, ?_, ?_⟩
  · refine ⟨⟨.operator op, p⟩, by simp, fun q i _ => ?_⟩
    simp
  · intro hs hleads
    obtain ⟨hrest, horder⟩ := h.leads hs hleads
    refine ⟨.inr ⟨op, p, _, rfl, hop, hrest⟩, ?_⟩
    rw [bare_append, ← List.append_assoc, ← horder, fillAll, inorder_fillAll hrest, Hole.fill,
      Tree.inorder_of_following (by rw [Lexeme.followsOperand, hpre]; rfl), Tree.inorders,
      ← List.append_assoc, List.map_append]
    rfl
  · exact fun a b hunder => hkeeps a b (h.keeps a b hunder)
  · intro hs hleft
    refine h.prompt_operator hs hpre hleft hkeeps ?_
    rintro q i L rfl hpops
    rw [popHoles_eq_self (F := .after q i) hpops]
    exact under_fillAll_after q i L (Tree.mem_inorder_node.2 (.inl rfl))

theorem Spells.between (h : Spells K s K' x) (hop : op.isBinary = true)
    (hu : Spells (.between (popHoles op x K').1 op p :: (popHoles op x K').2) u K'' z) :
    Spells K (s ++ ⟨.operator op, p⟩ :: u) K'' z := by
  have hpre := Operator.isPrefix_of_isBinary hop
  have hsplit : Prompt (s ++ ⟨.operator op, p⟩ :: u) ↔
      Prompt (s ++ [⟨.operator op, p⟩]) ∧ Prompt u :=
    prompt_append_cons fun q hq => Lexeme.operator.inj hq ▸ Operator.isPostfix_of_isBinary hop
  have hkeeps : ∀ a b, (fillAll x K').Under a b → (fillAll z K'').Under a b :=
    fun a b hunder => hu.keeps a b fun y => under_fillAll_popHoles hunder op _ [y]
  refine ⟨?_, ?_, ?_, ?_⟩
  · obtain ⟨a, ha, hlast⟩ := hu.last
    exact ⟨a, by simp [List.getLast?_append, List.getLast?_cons, ha], hlast⟩
  · intro hs hleads
    obtain ⟨hs, hus⟩ := hsplit.1 hs
    obtain ⟨hrest, horder⟩ := h.leads hs hleads
    obtain ⟨hpoised, horder'⟩ := hu.order hus (List.forall_mem_cons.2 ⟨hpre, hrest⟩)
    refine ⟨hpoised, ?_⟩
    rw [horder', bare_append, bare_cons rfl, ← List.append_assoc, ← horder, ahead, Hole.ahead]
    simp [uncounted, Lexeme.uncounted]
  · exact fun a b hunder => hkeeps a b (h.keeps a b hunder)
  · intro hs hleft
    rw [hsplit]
    rw [List.append_cons] at hs
    obtain ⟨hs, hus, -⟩ := List.pairwise_append.1 hs
    refine ⟨h.prompt_operator hs hpre hleft hkeeps ?_, hu.prompt hus hleft⟩
    rintro q i L rfl hpops
    rw [popHoles_eq_self (F := .after q i) hpops] at hu
    exact hu.keeps _ _ fun y => under_fillAll_after q i L (Tree.mem_inorder_node.2 (.inl rfl))

/-! ### Spelling atoms and calls -/

/-- A mark is no operator. -/
theorem rightParenthesis_ne (p : Int) :
    ∀ q i, q.isPostfix = true → (⟨.rightParenthesis, p⟩ : Token V ω) ≠ ⟨.operator q, i⟩ :=
  fun q _ _ h => Lexeme.ne_operator_of_isPunctuation rfl q (congrArg Placed.item h)

theorem SpellsAtom.leaf {t : Token V ω} (hmark : t.item.isPunctuation = false)
    (hop : ∀ q, t.item ≠ .operator q) : SpellsAtom [t] (.node t []) where
  last := ⟨t, rfl, fun q _ _ ht => hop q (by rw [ht])⟩
  order _ := by
    rw [Tree.inorder, bare_cons hmark]
    rfl
  prompt _ _ := .singleton t

theorem SpellsAtom.group {q : Int} (h : Spells [] s K x) :
    SpellsAtom (⟨.leftParenthesis, p⟩ :: (s ++ [⟨.rightParenthesis, q⟩])) (fillAll x K) := by
  have hinner : Prompt (⟨.leftParenthesis, p⟩ :: (s ++ [⟨.rightParenthesis, q⟩])) ↔ Prompt s := by
    rw [prompt_mark_cons rfl, prompt_append_mark rfl]
    exact and_iff_left .nil
  refine ⟨⟨⟨.rightParenthesis, q⟩, by simp [List.getLast?_cons], rightParenthesis_ne _⟩, ?_, ?_⟩
  · intro hs
    rw [(h.order (hinner.1 hs) (by simp)).2, bare_mark rfl, bare_append]
    simp [ahead, bare, Lexeme.rightParenthesis, Lexeme.isPunctuation]
  · intro hs hleft
    have hs := (List.pairwise_append.1 (List.pairwise_cons.1 hs).2).1
    exact hinner.2 (h.prompt hs hleft)

/-- The token of a call comes before those of its arguments. -/
theorem inorder_callOf (f : Function ω) (p : Int) (xs : List (Tree V ω)) :
    (callOf f p xs).inorder.map uncounted =
      uncounted ⟨.function f, p⟩ :: (Tree.inorders xs).map uncounted := by
  rw [callOf, Tree.inorder_of_leading rfl]
  rfl

theorem SpellsAtom.call {f : Function ω} {q r : Int} {xs : List (Tree V ω)}
    (h : SpellsArguments s xs) :
    SpellsAtom (⟨.function f, p⟩ :: ⟨.leftParenthesis, q⟩ :: (s ++ [⟨.rightParenthesis, r⟩]))
      (callOf f p xs) := by
  have hinner : Prompt (⟨.function f, p⟩ :: ⟨.leftParenthesis, q⟩ ::
      (s ++ [⟨.rightParenthesis, r⟩])) ↔ Prompt s := by
    rw [prompt_cons (a := ⟨.function f, p⟩) (fun _ h => nomatch h), prompt_mark_cons rfl,
      prompt_append_mark rfl]
    exact and_iff_left .nil
  refine ⟨⟨⟨.rightParenthesis, r⟩, by simp [List.getLast?_cons], rightParenthesis_ne _⟩, ?_, ?_⟩
  · intro hs
    rw [inorder_callOf, h.order (hinner.1 hs), bare_cons rfl, bare_mark rfl, bare_append]
    simp [bare, Lexeme.rightParenthesis, Lexeme.isPunctuation]
  · intro hs hleft
    have hs := (List.pairwise_append.1 (List.pairwise_cons.1 (List.pairwise_cons.1 hs).2).2).1
    refine hinner.2 (h.prompt hs fun x hx => hleft.of_under fun a b hunder => ?_)
    exact Tree.under_node.2 (.inr ⟨x, hx, hunder⟩)

theorem SpellsArguments.nil : SpellsArguments ([] : List (Token V ω)) [] where
  order _ := rfl
  prompt _ _ := .nil

theorem SpellsArguments.argument (h : Spells [] s K x) : SpellsArguments s [fillAll x K] where
  order hs := by
    rw [Tree.inorders, Tree.inorders, List.append_nil, (h.order hs (by simp)).2]
    rfl
  prompt hs hleft := h.prompt hs (hleft _ (List.mem_singleton_self _))

theorem SpellsArguments.another {xs : List (Tree V ω)} (h : SpellsArguments s xs)
    (hu : Spells [] u K x) :
    SpellsArguments (s ++ ⟨.separator, p⟩ :: u) (xs ++ [fillAll x K]) := by
  have hu := SpellsArguments.argument hu
  have hsplit : Prompt (s ++ ⟨.separator, p⟩ :: u) ↔ Prompt s ∧ Prompt u :=
    prompt_append_mark rfl
  refine ⟨?_, ?_⟩
  · intro hs
    rw [Tree.inorders_append, List.map_append, h.order (hsplit.1 hs).1, hu.order (hsplit.1 hs).2,
      bare_append, bare_mark rfl]
  · intro hs hleft
    obtain ⟨hs, hus, -⟩ := List.pairwise_append.1 hs
    obtain ⟨hxs, hx⟩ := List.forall_mem_append.1 hleft
    exact hsplit.2 ⟨h.prompt hs hxs, hu.prompt (List.pairwise_cons.1 hus).2 hx⟩

end

/-! ### Spelling derivations -/

/-- What it is to read a phrase of a category into trees that spell it. -/
def Spelled : Phrase → List (Token V ω) → Prop
  | .atom, s => ∃ x, ReadsAtom s x ∧ SpellsAtom s x
  | .suffixed, s | .term, s | .formula, s =>
    ∀ K, Started K → ∃ K' x, Reads K s K' x ∧ Spells K s K' x
  | .arguments n, s => ∃ xs, ReadsArguments n s xs ∧ SpellsArguments s xs

/-- Whatever the grammar derives is spelled by the trees that are read. -/
theorem Derives.spelled {c : Phrase} {s : List (Token V ω)} (h : Derives c s) : Spelled c s := by
  induction h with
  | operand v p => exact ⟨_, .operand v p, .leaf rfl fun _ h => nomatch h⟩
  | var label p => exact ⟨_, .var label p, .leaf rfl fun _ h => nomatch h⟩
  | group p q hs ih =>
    obtain ⟨K, x, h, h'⟩ := ih [] trivial
    exact ⟨_, .group h hs.begins, .group h'⟩
  | emptyCall p q r hf => exact ⟨_, .emptyCall hf, .call .nil⟩
  | call p q r hf hs ih =>
    obtain ⟨xs, h, h'⟩ := ih
    exact ⟨_, .call hf h hs.begins, .call h'⟩
  | suffixed _ ih =>
    obtain ⟨x, h, h'⟩ := ih
    exact fun K hK => ⟨K, x, .atom h K, .atom h' hK⟩
  | after p _ hop ih =>
    intro K hK
    obtain ⟨K', x, h, h'⟩ := ih K hK
    exact ⟨_, _, h.after hop, h'.after hop⟩
  | term _ ih => exact ih
  | before p hop _ ih =>
    intro K hK
    obtain ⟨K', x, h, h'⟩ := ih (.before _ p :: K) trivial
    exact ⟨K', x, h.before hop, h'.before hop⟩
  | formula _ ih => exact ih
  | between p _ hop _ ihs ihu =>
    intro K hK
    obtain ⟨K', x, h, h'⟩ := ihs K hK
    obtain ⟨K'', z, hz, hz'⟩ :=
      ihu (.between (popHoles _ x K').1 _ p :: (popHoles _ x K').2) trivial
    exact ⟨K'', z, h.between hop hz, h'.between hop hz'⟩
  | argument _ ih =>
    obtain ⟨K, x, h, h'⟩ := ih [] trivial
    exact ⟨_, .argument h, .argument h'⟩
  | another p _ _ ihs ihu =>
    obtain ⟨xs, h, h'⟩ := ihs
    obtain ⟨K, x, hu, hu'⟩ := ihu [] trivial
    exact ⟨_, h.another hu, h'.another hu'⟩

/-! ### Whole texts -/

/-- A tree that reads in the order of a text has the operands of operators that stand after
them to the left. -/
theorem Tree.Saturated.operandsLeft {t : Tree V ω} (h : t.Saturated) {ts : List (Token V ω)}
    (hts : ts.Pairwise Precedes) (horder : t.inorder.map uncounted = bare ts) :
    t.OperandsLeft := by
  have hpairwise : t.inorder.Pairwise Precedes := by
    have hbare : (t.inorder.map uncounted).Pairwise Precedes := by
      rw [horder, bare, List.pairwise_map]
      simpa only [precedes_uncounted] using hts.filter _
    simpa only [List.pairwise_map, precedes_uncounted] using hbare
  intro op p b hop hunder
  have hpair := hpairwise.sublist (h.sublist_of_under hop hunder)
  have hprecedes := (List.pairwise_cons.1 hpair).1 _ (List.mem_singleton_self _)
  exact hprecedes.lt (Operator.isPrefix_of_isPostfix hop)

/-- **A tree reads back in the order of its text exactly if the text is prompt**, and exactly
then the operand of every operator that stands after it lies wholly to its left. -/
theorem inorder_eq_iff_prompt {L : Lexicon V ω} (hD : L.dictionary.Reachable) {text : String}
    {ts ps : List (Token V ω)} {t : Tree V ω} (htokens : L.tokens text = .ok ts)
    (hparse : toPostfix ts = .ok ps) (hbuild : Tree.ofPostfix ps = .ok t) :
    (t.inorder.map uncounted = bare ts ↔ Prompt ts) ∧ (t.OperandsLeft ↔ Prompt ts) := by
  have hts := Lexicon.pairwise_tokens hD htokens
  have hderives := derives_of_ofPostfix (Lexicon.apart_tokens htokens) hparse hbuild
  obtain ⟨K, x, hreads, hspells⟩ := hderives.spelled [] trivial
  have hsaturated := hreads.grown.saturated
  -- the tree that is built is the one that is read
  have ht : fillAll x K = t := by
    have hps : (fillAll x K).postorder = ps := Except.ok.inj (hreads.toPostfix.symm.trans hparse)
    have hx := Tree.ofPostfix_postorder hsaturated
    rw [hps] at hx
    exact Except.ok.inj (hx.symm.trans hbuild)
  subst ht
  have horder (hprompt : Prompt ts) : (fillAll x K).inorder.map uncounted = bare ts :=
    (hspells.order hprompt (by simp)).2
  have hleft : (fillAll x K).inorder.map uncounted = bare ts → (fillAll x K).OperandsLeft :=
    hsaturated.operandsLeft hts
  have hprompt : (fillAll x K).OperandsLeft → Prompt ts := hspells.prompt hts
  exact ⟨⟨hprompt ∘ hleft, horder⟩, ⟨hprompt, hleft ∘ horder⟩⟩

/-- The tokens of `3! + 1`, where the factorial binds less tightly than the addition. -/
def looseFactorial : List (Token Int String) :=
  [⟨.operand 3, 0⟩, ⟨.operator (factorial 0), 1⟩, ⟨.operator .addition, 3⟩, ⟨.operand 1, 5⟩]

/-- The tree of these tokens: the addition has come under the factorial. -/
def factorialOfSum : Tree Int String :=
  .node ⟨.operator (factorial 0), 1⟩
    [.node ⟨.operator .addition, 3⟩ [.node ⟨.operand 3, 0⟩ [], .node ⟨.operand 1, 5⟩ []]]

theorem inorder_eq_iff_prompt_looseFactorial :
    (factorials 0).dictionary.Reachable ∧ (factorials 0).tokens "3! + 1" = .ok looseFactorial ∧
      toPostfix looseFactorial = .ok factorialOfSum.postorder ∧
      Tree.ofPostfix factorialOfSum.postorder = .ok factorialOfSum ∧
      factorialOfSum.inorder.map uncounted ≠ bare looseFactorial ∧
      ¬ factorialOfSum.OperandsLeft := by
  have htokens : (factorials 0).tokens "3! + 1" = .ok looseFactorial := by rfl
  have hparse : toPostfix looseFactorial = .ok factorialOfSum.postorder := by rfl
  have hbuild : Tree.ofPostfix factorialOfSum.postorder = .ok factorialOfSum := by rfl
  obtain ⟨horder, hleft⟩ :=
    inorder_eq_iff_prompt (reachable_factorials 0) htokens hparse hbuild
  have hprompt : ¬ Prompt looseFactorial := by
    intro h
    -- the addition comes right after the factorial, which does not go before it
    have hyields := (List.isChain_cons_cons.1 (List.isChain_cons_cons.1 h).2).1
    exact absurd (hyields (factorial 0) .addition rfl rfl rfl) (by decide)
  exact ⟨reachable_factorials 0, htokens, hparse, hbuild, hprompt ∘ horder.1, hprompt ∘ hleft.1⟩

end Formula
