/-
Formula/Proofs/Shunting.lean

A formula is read in two ways: by a yard of waiting tokens, and by precedence
climbing.  The two are compared at every point inside a formula.  There the yard
holds a list `K` of holes, and the climbing reader is inside one call of `climb` or
`follow` for each of them; `enter K` and `resume K x` are what is left to do in these
calls before and after an operand `x`.

`Reads K s K' x` says that both readers get from `K` to `K'` and `x` over the phrase
`s`.  One lemma for each production of the grammar builds it, and `Derives.reads` is
the induction over a derivation.  The climbing half of it needs that an operator that
stands after its operand goes before every operator that comes later; the yard's
half does not.

Main statements: `toPostfix_of_derives` (a formula is accepted, and its postfix list
is the postorder of a tree that is put together from its tokens) and `tree_eq_climb`
(this is the tree that climbing reads).
-/
import Formula.Climbing
import Formula.Proofs.Hole
import Formula.Token.Lexer

namespace Formula

variable {V ω : Type}

/-! ### The tokens around a phrase -/

namespace Lexeme

theorem isClose_of_beginsOperand {l : Lexeme V ω} (h : l.beginsOperand = true) :
    l.isClose = false := by
  cases l with
  | punctuation m =>
    have hm : m = openMark := by simpa [beginsOperand] using h
    subst hm
    rfl
  | _ => rfl

theorem argumentMissing_of_endsOperand {l : Lexeme V ω} (h : l.endsOperand = true) :
    Yard.argumentMissing (some l) = false := by
  cases l with
  | punctuation m =>
    have hm : m = closeMark := by simpa [endsOperand] using h
    subst hm
    rfl
  | _ => rfl

end Lexeme

theorem afterFunction_of_expectsOperand {previous : Option (Lexeme V ω)}
    (h : expectsOperand previous = true) : Yard.afterFunction previous = false := by
  rcases previous with _ | l
  · rfl
  · cases l with
    | function f => cases h
    | _ => rfl

/-- Every phrase has a first token, and it begins an operand. -/
theorem Derives.begins {c : Phrase} {s : List (Token V ω)} (h : Derives c s) :
    ∃ t u, s = t :: u ∧ t.item.beginsOperand = true := by
  induction h with
  | operand v p | var l p => exact ⟨_, _, rfl, rfl⟩
  | group p q _ _ => exact ⟨_, _, rfl, rfl⟩
  | emptyCall p q r _ | call p q r _ _ _ => exact ⟨_, _, rfl, rfl⟩
  | suffixed _ ih | term _ ih | formula _ ih | argument _ ih => exact ih
  | before p hop _ _ => exact ⟨_, _, rfl, hop⟩
  | after p _ _ ih | between p _ _ _ ih _ | another p _ _ ih _ =>
    obtain ⟨t, u, rfl, ht⟩ := ih
    exact ⟨t, _, rfl, ht⟩

/-! ### The climbing reader inside a formula -/

/-- The operator of the innermost hole. -/
def innermost (K : List (Hole V ω)) : Option (Operator ω) := K.head?.map Hole.op

/-- Returns from the calls for all holes, with what the innermost one has read. -/
def unwind : List (Hole V ω) → Tree V ω × List (Token V ω) →
    Option (Tree V ω × List (Token V ω))
  | [], r => some r
  | F :: K, r => (follow (innermost K) (F.fill r.1) r.2).bind (unwind K)

/-- What is left to do where an operand is expected. -/
def enter (K : List (Hole V ω)) (ts : List (Token V ω)) :
    Option (Tree V ω × List (Token V ω)) :=
  (climb (innermost K) ts).bind (unwind K)

/-- What is left to do after the operand `x`. -/
def resume (K : List (Hole V ω)) (x : Tree V ω) (ts : List (Token V ω)) :
    Option (Tree V ω × List (Token V ω)) :=
  (follow (innermost K) x ts).bind (unwind K)

theorem enter_nil (ts : List (Token V ω)) : enter [] ts = climb none ts := by
  simp [enter, innermost, unwind]

/-- Where the innermost call reads nothing more, its hole is filled. -/
theorem resume_cons {F : Hole V ω} {K : List (Hole V ω)} {x : Tree V ω}
    {ts : List (Token V ω)} (h : follow (some F.op) x ts = some (x, ts)) :
    resume (F :: K) x ts = resume K (F.fill x) ts := by
  rw [resume, innermost, List.head?_cons, Option.map_some, h]
  rfl

/-- At the end of a formula all calls return. -/
theorem resume_of_follow {ts : List (Token V ω)}
    (h : ∀ (s : Option (Operator ω)) (x : Tree V ω), follow s x ts = some (x, ts))
    (K : List (Hole V ω)) (x : Tree V ω) : resume K x ts = some (fillAll x K, ts) := by
  induction K generalizing x with
  | nil => simp [resume, h, unwind, fillAll]
  | cons F K ih => rw [resume_cons (h _ _), ih, fillAll]

theorem belongs_of_popsBefore {s c : Operator ω} (h : Yard.popsBefore s c = true) :
    belongs (some s) c = false := by
  simp [belongs, h]

/-- The calls for the holes that `c` fills return at `c`. -/
theorem resume_popHoles (c : Operator ω) (p : Int) (ts : List (Token V ω))
    (K : List (Hole V ω)) (x : Tree V ω) :
    resume K x (⟨.operator c, p⟩ :: ts) =
      resume (popHoles c x K).2 (popHoles c x K).1 (⟨.operator c, p⟩ :: ts) := by
  induction K generalizing x with
  | nil => rfl
  | cons F K ih =>
    rw [popHoles]
    split
    · next hpop =>
      rw [resume_cons (follow_stop (belongs_of_popsBefore hpop)), ih]
    · rfl

/-- After the holes that `c` fills, `c` belongs to the operand that is left. -/
theorem belongs_popHoles {c : Operator ω} (hc : c.isPrefix = false)
    (K : List (Hole V ω)) (x : Tree V ω) :
    belongs (innermost (popHoles c x K).2) c = true := by
  induction K generalizing x with
  | nil => simp [popHoles, innermost, belongs, hc]
  | cons F K ih =>
    rw [popHoles]
    split
    · exact ih _
    · next hpop => simp [innermost, belongs, hc, hpop]

/-- Every operator that stands after its operand goes before all operators that do
not stand before theirs. -/
def PostfixFirst (ts : List (Token V ω)) : Prop :=
  ∀ q c : Operator ω, (∃ t ∈ ts, t.item = .operator q) → (∃ t ∈ ts, t.item = .operator c) →
    q.isPostfix = true → c.isPrefix = false → Yard.popsBefore q c = true

theorem PostfixFirst.mono {ts us : List (Token V ω)} (h : PostfixFirst ts) (hsub : us ⊆ ts) :
    PostfixFirst us := by
  intro q c ⟨t, ht, hq⟩ ⟨u, hu, hc⟩
  exact h q c ⟨t, hsub ht, hq⟩ ⟨u, hsub hu, hc⟩

theorem PostfixFirst.of_append_cons {ts us : List (Token V ω)} {t : Token V ω}
    (h : PostfixFirst (ts ++ t :: us)) : PostfixFirst us :=
  h.mono (fun _ hu => List.mem_append_right _ (List.mem_cons_of_mem _ hu))

/-- Nothing that follows belongs to the operand of an operator that stands after
its operand. -/
theorem PostfixFirst.follow {q : Operator ω} {p : Int} {x : Tree V ω}
    {ts : List (Token V ω)} (h : PostfixFirst (⟨.operator q, p⟩ :: ts))
    (hq : q.isPostfix = true) : follow (some q) x ts = some (x, ts) := by
  rcases ts with _ | ⟨⟨l, p'⟩, ts⟩
  · exact follow_nil
  · cases l with
    | operator c =>
      cases hc : c.isPrefix with
      | true => exact follow_stop (by simp [belongs, hc])
      | false =>
        have := h q c ⟨_, List.mem_cons_self .., rfl⟩
          ⟨⟨.operator c, p'⟩, List.mem_cons_of_mem _ (List.mem_cons_self ..), rfl⟩ hq hc
        exact follow_stop (belongs_of_popsBefore this)
    | _ => exact follow_other (by simp)

/-! ### Reading phrases -/

/-- Both readers get over the atom `s`, with the tree `x`. -/
structure ReadsAtom (s : List (Token V ω)) (x : Tree V ω) : Prop where
  shunts : ∀ (y : Yard V ω) (previous : Option (Lexeme V ω)) (rest : List (Token V ω)),
    expectsOperand previous = true →
      ∃ l : Lexeme V ω, l.endsOperand = true ∧
        y.run previous (s ++ rest) = (y.offer [] x).run (some l) rest
  climbs : ∀ (op : Option (Operator ω)) (rest : List (Token V ω)),
    PostfixFirst (s ++ rest) → climb op (s ++ rest) = follow op x rest
  grown : ∀ P : Token V ω → Prop, (∀ t ∈ s, P t) → x.Grown P

/-- Both readers get over the phrase `s`, from the holes `K` to the holes `K'` with
the operand `x`. -/
structure Reads (K : List (Hole V ω)) (s : List (Token V ω)) (K' : List (Hole V ω))
    (x : Tree V ω) : Prop where
  shunts : ∀ (y : Yard V ω) (previous : Option (Lexeme V ω)) (rest : List (Token V ω)),
    Yard.Fenced y.waiting → expectsOperand previous = true →
      ∃ l : Lexeme V ω, l.endsOperand = true ∧
        (y.await K).run previous (s ++ rest) = (y.offer K' x).run (some l) rest
  climbs : ∀ rest : List (Token V ω),
    PostfixFirst (s ++ rest) → enter K (s ++ rest) = resume K' x rest
  grows : ∀ P : Token V ω → Prop, (∀ t ∈ s, P t) → (∀ F ∈ K, F.Grown P) →
    x.Grown P ∧ ∀ F ∈ K', F.Grown P

/-- The yard `y` after the arguments `xs`, which its innermost call did not have before.
The call had `k` arguments, counting the one that was to come. -/
def Yard.given (y : Yard V ω) (k : Nat) (calls : List (Option Nat)) (xs : List (Tree V ω)) :
    Yard V ω where
  output := (Tree.postorders xs).reverse ++ y.output
  waiting := y.waiting
  calls := some (k + xs.length) :: calls

/-- Both readers get over the arguments `s` of a call, with the trees `xs`.  The last
argument may still have holes. -/
structure ReadsArguments (n : Nat) (s : List (Token V ω)) (xs : List (Tree V ω)) : Prop where
  length : xs.length = n
  grown : ∀ P : Token V ω → Prop, (∀ t ∈ s, P t) → ∀ x ∈ xs, x.Grown P
  shunts : ∀ (y : Yard V ω) (t : Token V ω) (waiting : List (Token V ω)) (k : Nat)
    (calls : List (Option Nat)) (previous : Option (Lexeme V ω)) (rest : List (Token V ω)),
    y.waiting = t :: waiting → t.item.isOpen = true → y.calls = some k :: calls →
      expectsOperand previous = true →
        ∃ (l : Lexeme V ω) (init : List (Tree V ω)) (K : List (Hole V ω)) (x : Tree V ω),
          l.endsOperand = true ∧ xs = init ++ [fillAll x K] ∧
            y.run previous (s ++ rest) = ((y.given k calls init).offer K x).run (some l) rest
  last : ∀ (q : Int) (rest : List (Token V ω)),
    PostfixFirst (s ++ ⟨.rightParenthesis, q⟩ :: rest) →
      readArguments (s ++ ⟨.rightParenthesis, q⟩ :: rest) = some (xs, rest)
  more : ∀ (q : Int) (rest : List (Token V ω)),
    PostfixFirst (s ++ ⟨.separator, q⟩ :: rest) →
      readArguments (s ++ ⟨.separator, q⟩ :: rest) =
        (readArguments rest).map fun r => (xs ++ r.1, r.2)

/-- An operand that is read goes to the output. -/
theorem run_leaf {t : Token V ω} {y : Yard V ω} {previous : Option (Lexeme V ω)}
    {rest : List (Token V ω)}
    (h : y.step previous t (rest.head?.map (·.item)) = .ok { y with output := t :: y.output }) :
    y.run previous (t :: rest) = (y.offer [] (.node t [])).run (some t.item) rest := by
  rw [Yard.run, h]
  rfl

theorem ReadsAtom.operand (v : V) (p : Int) :
    ReadsAtom (ω := ω) [⟨.operand v, p⟩] (.node ⟨.operand v, p⟩ []) where
  shunts _ _ _ _ := ⟨.operand v, rfl, run_leaf rfl⟩
  climbs _ _ _ := climb_operand v p
  grown _ hs := .operand (hs _ (List.mem_singleton_self _))

theorem ReadsAtom.var (label : String) (p : Int) :
    ReadsAtom (V := V) (ω := ω) [⟨.var label, p⟩] (.node ⟨.var label, p⟩ []) where
  shunts _ _ _ _ := ⟨.var label, rfl, run_leaf rfl⟩
  climbs _ _ _ := climb_var label p
  grown _ hs := .var (hs _ (List.mem_singleton_self _))

theorem Reads.atom {s : List (Token V ω)} {x : Tree V ω} (h : ReadsAtom s x)
    (K : List (Hole V ω)) : Reads K s K x where
  shunts y previous rest _ hprev := h.shunts (y.await K) previous rest hprev
  climbs rest hfirst := by
    rw [enter, h.climbs _ rest hfirst, resume]
  grows P hs hK := ⟨h.grown P hs, hK⟩

/-- An operator before its operand opens a hole. -/
theorem Reads.before {op : Operator ω} {p : Int} {s : List (Token V ω)}
    {K K' : List (Hole V ω)} {x : Tree V ω} (hop : op.isPrefix = true)
    (h : Reads (.before op p :: K) s K' x) : Reads K (⟨.operator op, p⟩ :: s) K' x where
  shunts y previous rest hy hprev := by
    rw [List.cons_append, Yard.run_of_moves (.before p hop)]
    exact h.shunts y _ rest hy (expectsOperand_operator (Operator.isPostfix_of_isPrefix hop))
  climbs rest hfirst := by
    rw [← h.climbs rest (hfirst.mono (List.subset_cons_self ..)), List.cons_append, enter,
      climb_before hop, Option.bind_assoc, enter]
    rfl
  grows P hs hK := by
    obtain ⟨ht, hs⟩ := List.forall_mem_cons.1 hs
    refine h.grows P hs ?_
    intro F hF
    rcases List.mem_cons.1 hF with rfl | hF
    · exact ⟨ht, hop⟩
    · exact hK F hF

/-- An operator after its operand waits, and nothing can be read before it goes. -/
theorem Reads.after {op : Operator ω} {p : Int} {s : List (Token V ω)}
    {K K' : List (Hole V ω)} {x : Tree V ω} (h : Reads K s K' x) (hop : op.isPostfix = true) :
    Reads K (s ++ [⟨.operator op, p⟩])
      (.after op p :: (popHoles op x K').2) (popHoles op x K').1 where
  shunts y previous rest hy hprev := by
    obtain ⟨l, -, hrun⟩ := h.shunts y previous (⟨.operator op, p⟩ :: rest) hy hprev
    refine ⟨.operator op, hop, ?_⟩
    rw [List.append_assoc, List.singleton_append, hrun,
      Yard.run_of_moves (Yard.moves_operator (Operator.isPrefix_of_isPostfix hop) hy)]
    rfl
  climbs rest hfirst := by
    rw [List.append_assoc, List.singleton_append] at hfirst ⊢
    have hpre := Operator.isPrefix_of_isPostfix hop
    have hlast : PostfixFirst (⟨.operator op, p⟩ :: rest) :=
      hfirst.mono (List.subset_append_right ..)
    -- climbing, too, stops at `op` for the holes that it fills, and at no other
    rw [h.climbs _ hfirst, resume_popHoles, resume, follow_after (belongs_popHoles hpre K' x)
      (Operator.isBinary_of_isPostfix hop),
      resume_cons (F := .after op p) (hlast.follow hop)]
    rfl
  grows P hs hK := by
    obtain ⟨hs, ht⟩ := List.forall_mem_append.1 hs
    obtain ⟨hx, hK'⟩ := h.grows P hs hK
    obtain ⟨hx', hpop⟩ := grown_popHoles (c := op) hK' hx
    refine ⟨hx', ?_⟩
    intro F hF
    rcases List.mem_cons.1 hF with rfl | hF
    · exact ⟨ht _ (List.mem_singleton_self _), hop⟩
    · exact hpop F hF

/-- An operator between operands turns the operand on its left into a hole. -/
theorem Reads.between {op : Operator ω} {p : Int} {s u : List (Token V ω)}
    {K K' K'' : List (Hole V ω)} {x z : Tree V ω} (h : Reads K s K' x)
    (hop : op.isBinary = true)
    (hu : Reads (.between (popHoles op x K').1 op p :: (popHoles op x K').2) u K'' z) :
    Reads K (s ++ ⟨.operator op, p⟩ :: u) K'' z where
  shunts y previous rest hy hprev := by
    obtain ⟨l, -, hrun⟩ := h.shunts y previous (⟨.operator op, p⟩ :: (u ++ rest)) hy hprev
    obtain ⟨l', hl', hrun'⟩ := hu.shunts y _ rest hy
      (expectsOperand_operator (Operator.isPostfix_of_isBinary hop))
    refine ⟨l', hl', ?_⟩
    rw [List.append_assoc, List.cons_append, hrun,
      Yard.run_of_moves (Yard.moves_operator (Operator.isPrefix_of_isBinary hop) hy), ← hrun']
    simp [Yard.offer, Yard.await, Hole.output, Hole.token]
  climbs rest hfirst := by
    rw [List.append_assoc, List.cons_append] at hfirst ⊢
    have hpre := Operator.isPrefix_of_isBinary hop
    -- the operand of `op` is read in the hole that `op` makes of what stands before it
    rw [h.climbs _ hfirst, resume_popHoles, resume, follow_between (belongs_popHoles hpre K' x) hop,
      Option.bind_assoc, ← hu.climbs rest hfirst.of_append_cons, enter]
    rfl
  grows P hs hK := by
    obtain ⟨hs, hop'⟩ := List.forall_mem_append.1 hs
    obtain ⟨ht, hus⟩ := List.forall_mem_cons.1 hop'
    obtain ⟨hx, hK'⟩ := h.grows P hs hK
    obtain ⟨hx', hpop⟩ := grown_popHoles (c := op) hK' hx
    refine hu.grows P hus ?_
    intro F hF
    rcases List.mem_cons.1 hF with rfl | hF
    · exact ⟨ht, hop, hx'⟩
    · exact hpop F hF

/-- A whole formula, at its end, as climbing reads it. -/
theorem Reads.climb_formula {s : List (Token V ω)} {K : List (Hole V ω)} {x : Tree V ω}
    (h : Reads [] s K x) {rest : List (Token V ω)} (hfirst : PostfixFirst (s ++ rest))
    (hrest : ∀ t ∈ rest.head?, ∀ c, t.item ≠ .operator c) :
    climb none (s ++ rest) = some (fillAll x K, rest) := by
  have hstop : ∀ (op : Option (Operator ω)) (z : Tree V ω), follow op z rest = some (z, rest) := by
    intro op z
    rcases rest with _ | ⟨t, rest⟩
    · exact follow_nil
    · exact follow_other (hrest t rfl)
  rw [← enter_nil, h.climbs rest hfirst, resume_of_follow hstop]

/-- A formula in parentheses is an atom. -/
theorem ReadsAtom.group {s : List (Token V ω)} {K : List (Hole V ω)} {x : Tree V ω}
    {p q : Int} (h : Reads [] s K x) (hs : ∃ t u, s = t :: u ∧ t.item.beginsOperand = true) :
    ReadsAtom (⟨.leftParenthesis, p⟩ :: (s ++ [⟨.rightParenthesis, q⟩])) (fillAll x K) where
  shunts y previous rest hprev := by
    obtain ⟨t, u, rfl, ht⟩ := hs
    have hnext : Yard.beforeClose (some t.item) = false := Lexeme.isClose_of_beginsOperand ht
    obtain ⟨l, hl, hrun⟩ := h.shunts
      { y with waiting := ⟨.leftParenthesis, p⟩ :: y.waiting, calls := none :: y.calls }
      (some .leftParenthesis) (⟨.rightParenthesis, q⟩ :: rest) (Yard.fenced_cons rfl _) rfl
    -- the parenthesis fences the yard, so the formula behind it starts with no holes
    have hopen : y.Moves previous (some t.item) ⟨.leftParenthesis, p⟩
        { y with waiting := ⟨.leftParenthesis, p⟩ :: y.waiting, calls := none :: y.calls } :=
      .group p rfl (afterFunction_of_expectsOperand hprev) hnext
    refine ⟨.rightParenthesis, rfl, ?_⟩
    rw [List.cons_append, List.append_assoc, List.singleton_append]
    calc y.run previous _
        = Yard.run _ (some .leftParenthesis) (t :: u ++ ⟨.rightParenthesis, q⟩ :: rest) :=
          Yard.run_of_moves hopen
      _ = _ := hrun
      _ = _ := Yard.run_of_moves (Yard.moves_closeGroup rfl rfl rfl)
  climbs op rest hfirst := by
    rw [List.cons_append, List.append_assoc] at hfirst ⊢
    refine climb_group (h.climb_formula (hfirst.mono (List.subset_cons_self ..)) ?_)
    rintro t ⟨⟩ c hc
    cases hc
  grown P hs := by
    have hinner : ∀ t ∈ s, P t := fun t ht => hs t (by simp [ht])
    obtain ⟨hx, hK⟩ := h.grows P hinner (by simp)
    exact grown_fillAll hK hx

/-! ### Reading calls -/

/-- The last argument of a list of arguments, with the closing parenthesis. -/
theorem Reads.readArguments_last {s : List (Token V ω)} {K : List (Hole V ω)} {x : Tree V ω}
    {q : Int} {rest : List (Token V ω)} (h : Reads [] s K x)
    (hfirst : PostfixFirst (s ++ ⟨.rightParenthesis, q⟩ :: rest)) :
    readArguments (s ++ ⟨.rightParenthesis, q⟩ :: rest) = some ([fillAll x K], rest) := by
  refine Formula.readArguments_last (h.climb_formula hfirst ?_)
  rintro t ⟨⟩ c hc
  cases hc

/-- An argument with the separator after it. -/
theorem Reads.readArguments_more {s : List (Token V ω)} {K : List (Hole V ω)} {x : Tree V ω}
    {q : Int} {rest : List (Token V ω)} (h : Reads [] s K x)
    (hfirst : PostfixFirst (s ++ ⟨.separator, q⟩ :: rest)) :
    readArguments (s ++ ⟨.separator, q⟩ :: rest) =
      (readArguments rest).map fun r => (fillAll x K :: r.1, r.2) := by
  refine Formula.readArguments_more (h.climb_formula hfirst ?_)
  rintro t ⟨⟩ c hc
  cases hc

/-- A formula is a list of one argument. -/
theorem ReadsArguments.argument {s : List (Token V ω)} {K : List (Hole V ω)} {x : Tree V ω}
    (h : Reads [] s K x) : ReadsArguments 1 s [fillAll x K] where
  length := rfl
  grown P hs := by
    obtain ⟨hx, hK⟩ := h.grows P hs (by simp)
    simpa using grown_fillAll hK hx
  shunts y t waiting k calls previous rest hy ht hcalls hprev := by
    obtain ⟨l, hl, hrun⟩ := h.shunts y previous rest (hy ▸ Yard.fenced_cons ht _) hprev
    refine ⟨l, [], K, x, hl, rfl, ?_⟩
    -- the first argument of a call is counted when the call is opened
    have hnone : y.given k calls [] = y := by
      rw [Yard.given, List.length_nil, Nat.add_zero, ← hcalls]
      rfl
    rw [hnone]
    exact hrun
  last q rest hfirst := h.readArguments_last hfirst
  more q rest hfirst := h.readArguments_more hfirst

/-- A list of arguments goes on after a separator. -/
theorem ReadsArguments.another {n : Nat} {s u : List (Token V ω)} {xs : List (Tree V ω)}
    {K : List (Hole V ω)} {x : Tree V ω} {p : Int} (h : ReadsArguments n s xs)
    (hu : Reads [] u K x) :
    ReadsArguments (n + 1) (s ++ ⟨.separator, p⟩ :: u) (xs ++ [fillAll x K]) where
  length := by simp [h.length]
  grown P hs := by
    obtain ⟨hs, hus⟩ := List.forall_mem_append.1 hs
    obtain ⟨hx, hK⟩ := hu.grows P (List.forall_mem_cons.1 hus).2 (by simp)
    intro z hz
    rcases List.mem_append.1 hz with hz | hz
    · exact h.grown P hs z hz
    · rw [List.mem_singleton.1 hz]
      exact grown_fillAll hK hx
  shunts y t waiting k calls previous rest hy ht hcalls hprev := by
    obtain ⟨l, init, K₀, x₀, hl, rfl, hrun⟩ := h.shunts y t waiting k calls previous
      (⟨.separator, p⟩ :: (u ++ rest)) hy ht hcalls hprev
    -- the separator fills the holes of the argument before it
    have hsep : ((y.given k calls init).offer K₀ x₀).Moves (some l)
        ((u ++ rest).head?.map (·.item)) ⟨.separator, p⟩ ⟨(fillAll x₀ K₀).postorder.reverse ++
          (y.given k calls init).output, y.waiting, some (k + init.length + 1) :: calls⟩ :=
      Yard.moves_separate (y := y.given k calls init) hy rfl ht
        (Lexeme.argumentMissing_of_endsOperand hl)
    have hyard : (⟨(fillAll x₀ K₀).postorder.reverse ++ (y.given k calls init).output, y.waiting,
        some (k + init.length + 1) :: calls⟩ : Yard V ω) =
          y.given k calls (init ++ [fillAll x₀ K₀]) := by
      simp [Yard.given, Tree.postorders_append, Tree.postorders, Nat.add_assoc]
    obtain ⟨l', hl', hrun'⟩ := hu.shunts (y.given k calls (init ++ [fillAll x₀ K₀]))
      (some .separator) rest (by exact hy ▸ Yard.fenced_cons ht _) rfl
    refine ⟨l', init ++ [fillAll x₀ K₀], K, x, hl', rfl, ?_⟩
    rw [List.append_assoc, List.cons_append, hrun, Yard.run_of_moves hsep]
    refine Eq.trans ?_ hrun'
    exact congrArg (fun z : Yard V ω => z.run (some .separator) (u ++ rest)) hyard
  last q rest hfirst := by
    rw [List.append_assoc, List.cons_append] at hfirst ⊢
    rw [h.more p _ hfirst, hu.readArguments_last hfirst.of_append_cons]
    rfl
  more q rest hfirst := by
    rw [List.append_assoc, List.cons_append] at hfirst ⊢
    rw [h.more p _ hfirst, hu.readArguments_more hfirst.of_append_cons, Option.map_map]
    congr 1
    funext r
    simp

/-- A call without arguments is an atom. -/
theorem ReadsAtom.emptyCall {f : Function ω} {p q r : Int} (hf : f.admits 0 = true) :
    ReadsAtom (V := V) [⟨.function f, p⟩, ⟨.leftParenthesis, q⟩, ⟨.rightParenthesis, r⟩]
      (callOf f p []) where
  shunts y previous rest _ := by
    refine ⟨.rightParenthesis, rfl, ?_⟩
    calc y.run previous
          (⟨.function f, p⟩ :: ⟨.leftParenthesis, q⟩ :: ⟨.rightParenthesis, r⟩ :: rest)
        = Yard.run _ (some (.function f))
            (⟨.leftParenthesis, q⟩ :: ⟨.rightParenthesis, r⟩ :: rest) :=
          Yard.run_of_moves (.function f p rfl rfl)
      _ = Yard.run _ (some .leftParenthesis) (⟨.rightParenthesis, r⟩ :: rest) :=
          Yard.run_of_moves (.call q rfl rfl)
      _ = _ := Yard.run_of_moves (Yard.moves_closeEmptyCall rfl rfl rfl rfl hf)
  climbs _ _ _ := climb_emptyCall hf
  grown _ hs := .call (hs _ (List.mem_cons_self ..)) hf (by simp)

/-- A call with arguments is an atom. -/
theorem ReadsAtom.call {f : Function ω} {n : Nat} {s : List (Token V ω)}
    {xs : List (Tree V ω)} {p q r : Int} (hf : f.admits n = true) (h : ReadsArguments n s xs)
    (hs : ∃ t u, s = t :: u ∧ t.item.beginsOperand = true) :
    ReadsAtom (⟨.function f, p⟩ :: ⟨.leftParenthesis, q⟩ :: (s ++ [⟨.rightParenthesis, r⟩]))
      (callOf f p xs) where
  shunts y previous rest _ := by
    obtain ⟨t, u, rfl, ht⟩ := hs
    have hnext : Yard.beforeClose (some t.item) = false := Lexeme.isClose_of_beginsOperand ht
    obtain ⟨l, init, K, x, hl, rfl, hrun⟩ := h.shunts
      { output := y.output
        waiting := ⟨.leftParenthesis, q⟩ :: ⟨.function f, p⟩ :: y.waiting
        calls := some 1 :: y.calls }
      ⟨.leftParenthesis, q⟩ (⟨.function f, p⟩ :: y.waiting) 1 y.calls (some .leftParenthesis)
      (⟨.rightParenthesis, r⟩ :: rest) rfl rfl rfl rfl
    have hcount : 1 + init.length = n := by
      have := h.length
      simp at this
      omega
    -- the arguments begin an operand, so the call is not taken for an empty one
    have hcall : ({ y with waiting := ⟨.function f, p⟩ :: y.waiting } : Yard V ω).Moves
        (some (.function f)) (some t.item) ⟨.leftParenthesis, q⟩
        { output := y.output
          waiting := ⟨.leftParenthesis, q⟩ :: ⟨.function f, p⟩ :: y.waiting
          calls := some 1 :: y.calls } := by
      have hmoves : ({ y with waiting := ⟨.function f, p⟩ :: y.waiting } : Yard V ω).Moves
          (some (.function f)) (some t.item) ⟨.leftParenthesis, q⟩ _ := .call q rfl rfl
      rwa [hnext] at hmoves
    refine ⟨.rightParenthesis, rfl, ?_⟩
    rw [List.cons_append, List.cons_append, List.append_assoc, List.singleton_append]
    calc y.run previous (⟨.function f, p⟩ :: ⟨.leftParenthesis, q⟩ ::
          (t :: u ++ ⟨.rightParenthesis, r⟩ :: rest))
        = Yard.run _ (some (.function f)) (⟨.leftParenthesis, q⟩ ::
            (t :: u ++ ⟨.rightParenthesis, r⟩ :: rest)) :=
          Yard.run_of_moves (.function f p rfl rfl)
      _ = Yard.run _ (some .leftParenthesis) (t :: u ++ ⟨.rightParenthesis, r⟩ :: rest) :=
          Yard.run_of_moves hcall
      _ = _ := hrun
      _ = Yard.run _ (some .rightParenthesis) rest :=
          Yard.run_of_moves (Yard.moves_closeCall rfl rfl rfl
            (Lexeme.argumentMissing_of_endsOperand hl) (hcount ▸ hf))
      _ = _ := by
        simp [Yard.offer, Yard.await, Yard.given, callOf, Tree.postorder,
          Tree.postorders_append, Tree.postorders, Nat.add_comm]
  climbs op rest hfirst := by
    rw [List.cons_append, List.cons_append, List.append_assoc, List.singleton_append] at hfirst ⊢
    have hargs : PostfixFirst (s ++ ⟨.rightParenthesis, r⟩ :: rest) :=
      hfirst.mono (fun t ht => List.mem_cons_of_mem _ (List.mem_cons_of_mem _ ht))
    exact climb_call (h.last r rest hargs) (h.length ▸ hf)
  grown P hs := by
    have hinner : ∀ t ∈ s, P t := fun t ht => hs t (by simp [ht])
    exact .call (hs _ (List.mem_cons_self ..)) (h.length ▸ hf) (h.grown P hinner)

/-! ### Reading derivations -/

/-- What it is to read a phrase of a category. -/
def Readable : Phrase → List (Token V ω) → Prop
  | .atom, s => ∃ x, ReadsAtom s x
  | .suffixed, s | .term, s | .formula, s => ∀ K, ∃ K' x, Reads K s K' x
  | .arguments n, s => ∃ xs, ReadsArguments n s xs

/-- Whatever the grammar derives is read. -/
theorem Derives.readable {c : Phrase} {s : List (Token V ω)} (h : Derives c s) :
    Readable c s := by
  induction h with
  | operand v p => exact ⟨_, .operand v p⟩
  | var label p => exact ⟨_, .var label p⟩
  | group p q hs ih =>
    obtain ⟨K, x, h⟩ := ih []
    exact ⟨_, .group h hs.begins⟩
  | emptyCall p q r hf => exact ⟨_, .emptyCall hf⟩
  | call p q r hf hs ih =>
    obtain ⟨xs, h⟩ := ih
    exact ⟨_, .call hf h hs.begins⟩
  | suffixed _ ih =>
    obtain ⟨x, h⟩ := ih
    exact fun K => ⟨K, x, .atom h K⟩
  | after p _ hop ih =>
    intro K
    obtain ⟨K', x, h⟩ := ih K
    exact ⟨_, _, h.after hop⟩
  | term _ ih => exact ih
  | before p hop _ ih =>
    intro K
    obtain ⟨K', x, h⟩ := ih (.before _ p :: K)
    exact ⟨K', x, h.before hop⟩
  | formula _ ih => exact ih
  | between p _ hop _ ihs ihu =>
    intro K
    obtain ⟨K', x, h⟩ := ihs K
    obtain ⟨K'', z, hz⟩ := ihu (.between (popHoles _ x K').1 _ p :: (popHoles _ x K').2)
    exact ⟨K'', z, h.between hop hz⟩
  | argument _ ih =>
    obtain ⟨K, x, h⟩ := ih []
    exact ⟨_, .argument h⟩
  | another p _ _ ihs ihu =>
    obtain ⟨xs, h⟩ := ihs
    obtain ⟨K, x, hu⟩ := ihu []
    exact ⟨_, h.another hu⟩

/-! ### Whole formulas -/

/-- The yard turns what it reads into the postorder of the tree. -/
theorem Reads.toPostfix {s : List (Token V ω)} {K : List (Hole V ω)} {x : Tree V ω}
    (h : Reads [] s K x) : toPostfix s = .ok (fillAll x K).postorder := by
  obtain ⟨l, -, hrun⟩ := h.shunts {} none [] Yard.fenced_nil rfl
  rw [List.append_nil] at hrun
  have hyard : Yard.run {} none s = .ok (({} : Yard V ω).offer K x) := hrun
  rw [Formula.toPostfix, hyard]
  simp only [Yard.flush_offer]
  rw [Except.map, List.reverse_reverse]

/-- The operand fills the holes to a tree of the tokens that have been read. -/
theorem Reads.grown {s : List (Token V ω)} {K : List (Hole V ω)} {x : Tree V ω}
    (h : Reads [] s K x) : (fillAll x K).Grown (· ∈ s) := by
  obtain ⟨hx, hK⟩ := h.grows (· ∈ s) (fun _ ht => ht) (by simp)
  exact grown_fillAll hK hx

/-- **A formula has a postfix list, and this list has a tree**, put together from the
tokens of the formula. -/
theorem toPostfix_of_derives {ts : List (Token V ω)} (h : Derives .formula ts) :
    ∃ t : Tree V ω, t.Grown (· ∈ ts) ∧ toPostfix ts = .ok t.postorder ∧
      Tree.ofPostfix t.postorder = .ok t := by
  obtain ⟨K, x, hreads⟩ := h.readable []
  have ht := hreads.grown
  exact ⟨_, ht, hreads.toPostfix, Tree.ofPostfix_postorder ht.saturated⟩

/-- **The tree of a formula is the tree that climbing reads**, if every operator that
stands after its operand goes before all operators that do not stand before theirs. -/
theorem tree_eq_climb {ts : List (Token V ω)} (h : Derives .formula ts)
    (hfirst : PostfixFirst ts) :
    ∃ ps t, toPostfix ts = .ok ps ∧ Tree.ofPostfix ps = .ok t ∧
      climb none ts = some (t, []) := by
  obtain ⟨K, x, hreads⟩ := h.readable []
  have hclimb : climb none (ts ++ []) = some (fillAll x K, []) :=
    hreads.climb_formula (by simpa using hfirst) (by simp)
  rw [List.append_nil] at hclimb
  exact ⟨_, _, hreads.toPostfix, Tree.ofPostfix_postorder hreads.grown.saturated, hclimb⟩

/-- `- x ! + 2`, where `!` stands after its operand and goes before everything else. -/
def signedFactorial : List (Token Int String) :=
  [⟨.operator .unaryMinus, 0⟩, ⟨.var "x", 1⟩,
    ⟨.operator ⟨"!", .postfixOp, 6, .none, .custom "factorial"⟩, 2⟩,
    ⟨.operator .addition, 3⟩, ⟨.operand 2, 4⟩]

theorem tree_eq_climb_signedFactorial :
    Derives .formula signedFactorial ∧ PostfixFirst signedFactorial ∧
      ∃ ps t, toPostfix signedFactorial = .ok ps ∧ Tree.ofPostfix ps = .ok t ∧
        climb none signedFactorial = some (t, []) := by
  have hderives : Derives .formula signedFactorial :=
    .between (s := [⟨.operator .unaryMinus, 0⟩, ⟨.var "x", 1⟩,
        ⟨.operator ⟨"!", .postfixOp, 6, .none, .custom "factorial"⟩, 2⟩]) 3
      (.formula (.before 0 rfl
        (.term (.after (s := [⟨.var "x", 1⟩]) 2 (.suffixed (.var "x" 1)) rfl))))
      rfl (.term (.suffixed (.operand 2 4)))
  have hfirst : PostfixFirst signedFactorial := by
    intro q c hq hc hpost hpre
    simp only [signedFactorial, List.mem_cons, List.not_mem_nil, or_false, exists_eq_or_imp,
      exists_eq_left, Lexeme.operator.injEq, reduceCtorEq, false_or] at hq hc
    rcases hq with rfl | rfl | rfl
    · cases hpost
    · rcases hc with rfl | rfl | rfl
      · cases hpre
      · rfl
      · rfl
    · cases hpost
  exact ⟨hderives, hfirst, tree_eq_climb hderives hfirst⟩

end Formula
