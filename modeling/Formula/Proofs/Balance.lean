/-
Formula/Proofs/Balance.lean

Why a list that the yard accepts is a formula.  Neither the yard nor the builder of
trees looks at the order of operands and operators; both only count.  A token adds one
tree and takes as many as its arity, so its `weight` is 1 less its arity, and a postfix
list with a tree weighs 1 altogether (`weigh_of_ofPostfix`).

Lists of tokens are weighed in segments, a segment being what stands between two
brackets, or brackets and separators.  Where no two operands meet, a segment weighs at
most 1, and it weighs 1 only if it is a formula (`Closed`).  As long as its last operand
is missing it weighs at most 0, and 0 only if a term makes it a formula (`Pending`).  So
what is missing in one place is not made up for in another.

`Context` is what the yard holds below the segment that is being read: a pending segment
for every open bracket, with the arguments of a call that are complete.  `Standing` adds
the segment itself and ties the weight of what has been read to the yard.  It is kept by
every token (`Yard.Kept`), and at the end it says that the list is a formula.

Main statement: `derives_of_ofPostfix`.
-/
import Formula.Proofs.Hole
import Formula.Proofs.Totals
import Formula.Token.Lexer

namespace Formula

variable {V ω : Type}

/-! ### Weights -/

/-- The weight of a token: the tree that it adds, less those that it takes. -/
def Lexeme.weight (l : Lexeme V ω) : Int := 1 - l.arity

/-- The weight of a list of tokens. -/
def weigh (ts : List (Token V ω)) : Int := total (·.item.weight) ts

theorem weigh_nil : weigh ([] : List (Token V ω)) = 0 := rfl

theorem weigh_cons (t : Token V ω) (ts : List (Token V ω)) :
    weigh (t :: ts) = t.item.weight + weigh ts := rfl

theorem weigh_append (ts us : List (Token V ω)) : weigh (ts ++ us) = weigh ts + weigh us :=
  total_append ts us

theorem weigh_reverse (ts : List (Token V ω)) : weigh ts.reverse = weigh ts :=
  total_reverse ts

theorem Lexeme.weight_of_isBinary {op : Operator ω} (h : op.isBinary = true) :
    (Lexeme.operator op : Lexeme V ω).weight = -1 := by
  simp [weight, arity, Operator.arity, h]

theorem Lexeme.weight_of_not_isBinary {op : Operator ω} (h : op.isBinary = false) :
    (Lexeme.operator op : Lexeme V ω).weight = 0 := by
  simp [weight, arity, Operator.arity, h]

/-- Has the lexeme its arguments counted, if it is a function? -/
def Lexeme.isCounted : Lexeme V ω → Bool
  | function f => f.arguments.isSome
  | _ => true

/-- With its arguments counted, a complete node has as many children as its arity. -/
theorem Tree.arity_of_isComplete {token : Token V ω} {cs : List (Tree V ω)}
    (hcounted : token.item.isCounted = true) (h : (node token cs).isComplete = true) :
    token.item.arity = cs.length := by
  obtain ⟨l, p⟩ := token
  cases l with
  | function f =>
    obtain ⟨n, hn⟩ := Option.isSome_iff_exists.1 hcounted
    simpa [isComplete, lexeme, Tree.token, children, hn, Lexeme.arity] using h
  | _ => simpa [isComplete, lexeme, Tree.token, children] using h

theorem Tree.weigh_postorders {ts : List (Tree V ω)} (h : ∀ t ∈ ts, weigh t.postorder = 1) :
    weigh (postorders ts) = ts.length := by
  induction ts with
  | nil => rfl
  | cons t ts ih =>
    have ht := h t (List.mem_cons_self ..)
    have hts := ih fun u hu => h u (List.mem_cons_of_mem _ hu)
    rw [postorders, weigh_append, ht, hts, List.length_cons]
    omega

/-- A complete tree weighs 1. -/
theorem Tree.weigh_postorder {t : Tree V ω}
    (hcounted : ∀ token ∈ t.postorder, token.item.isCounted = true)
    (h : t.incomplete? = none) : weigh t.postorder = 1 := by
  induction t using Tree.induction with
  | step token cs ih =>
    obtain ⟨hroot, hcs⟩ := incomplete?_node.1 h
    have harity : token.item.arity = cs.length :=
      arity_of_isComplete (hcounted token (mem_postorder_node.2 (.inl rfl))) hroot
    have hchildren : weigh (postorders cs) = cs.length := by
      refine weigh_postorders fun c hc => ih c hc ?_ (hcs c hc)
      intro u hu
      exact hcounted u (mem_postorder_node.2 (.inr ⟨c, hc, hu⟩))
    rw [postorder, weigh_append, hchildren, weigh_cons, weigh_nil, Lexeme.weight, harity]
    omega

/-- A postfix list that has a tree weighs 1. -/
theorem weigh_of_ofPostfix {ps : List (Token V ω)} {t : Tree V ω}
    (hcounted : ∀ token ∈ ps, token.item.isCounted = true)
    (h : Tree.ofPostfix ps = .ok t) : weigh ps = 1 := by
  obtain ⟨rfl, hcomplete⟩ := Tree.postorder_of_ofPostfix h
  exact Tree.weigh_postorder hcounted hcomplete

/-! ### Segments -/

/-- An operator after a formula belongs to its last term. -/
theorem Derives.snoc_after {c : Phrase} {s : List (Token V ω)} {op : Operator ω} (p : Int)
    (hop : op.isPostfix = true) (h : Derives c s) :
    c = .suffixed ∨ c = .term ∨ c = .formula → Derives c (s ++ [⟨.operator op, p⟩]) := by
  induction h with
  | operand | var | group | emptyCall | call => intro hc; simp at hc
  | argument | another => intro hc; simp at hc
  | suffixed h => exact fun _ => .after p (.suffixed h) hop
  | after q h hop' => exact fun _ => .after p (.after q h hop') hop
  | term _ ih => exact fun _ => .term (ih (.inl rfl))
  | before q hop' _ ih => exact fun _ => .before q hop' (ih (.inr (.inl rfl)))
  | formula _ ih => exact fun _ => .formula (ih (.inr (.inl rfl)))
  | between q hs hop' _ _ ih =>
    intro _
    rw [List.append_assoc, List.cons_append]
    exact .between q hs hop' (ih (.inr (.inl rfl)))

/-- The segment `s` of weight `w` is a formula, or lacks an operand. -/
def Closed (s : List (Token V ω)) (w : Int) : Prop := w ≤ 1 ∧ (w = 1 → Derives .formula s)

/-- The segment `s` of weight `w` is a formula without its last term, or lacks more
than that. -/
def Pending (s : List (Token V ω)) (w : Int) : Prop :=
  w ≤ 0 ∧ (w = 0 → ∀ u, Derives .term u → Derives .formula (s ++ u))

/-- What is known of a segment; `ends` says whether it ends with an operand. -/
def Segment : Bool → List (Token V ω) → Int → Prop
  | true => Closed
  | false => Pending

theorem Pending.closed {s : List (Token V ω)} {w : Int} (h : Pending s w) : Closed s w :=
  ⟨by have := h.1; omega, by have := h.1; omega⟩

theorem Segment.closed {ends : Bool} {s : List (Token V ω)} {w : Int} (h : Segment ends s w) :
    Closed s w := by
  cases ends with
  | true => exact h
  | false => exact Pending.closed h

theorem pending_nil : Pending ([] : List (Token V ω)) 0 :=
  ⟨Int.le_refl 0, fun _ _ hu => .formula hu⟩

/-- An atom of weight `v`, or what lacks an operand in place of one, closes a segment. -/
theorem Pending.atom {s a : List (Token V ω)} {w v : Int} (h : Pending s w) (hv : v ≤ 1)
    (ha : v = 1 → Derives .atom a) : Closed (s ++ a) (w + v) := by
  obtain ⟨hw, hs⟩ := h
  refine ⟨by omega, ?_⟩
  intro hsum
  exact hs (by omega) a (.term (.suffixed (ha (by omega))))

theorem Pending.before {s : List (Token V ω)} {w : Int} {op : Operator ω} (p : Int)
    (hop : op.isPrefix = true) (h : Pending s w) : Pending (s ++ [⟨.operator op, p⟩]) w := by
  refine ⟨h.1, ?_⟩
  intro hw u hu
  rw [List.append_assoc]
  exact h.2 hw _ (.before p hop hu)

theorem Closed.after {s : List (Token V ω)} {w : Int} {op : Operator ω} (p : Int)
    (hop : op.isPostfix = true) (h : Closed s w) : Closed (s ++ [⟨.operator op, p⟩]) w := by
  refine ⟨h.1, ?_⟩
  intro hw
  exact (h.2 hw).snoc_after p hop (.inr (.inr rfl))

theorem Closed.between {s : List (Token V ω)} {w : Int} {op : Operator ω} (p : Int)
    (hop : op.isBinary = true) (h : Closed s w) :
    Pending (s ++ [⟨.operator op, p⟩]) (w - 1) := by
  obtain ⟨hw, hs⟩ := h
  refine ⟨by omega, ?_⟩
  intro hsum u hu
  rw [List.append_assoc]
  exact .between p (hs (by omega)) hop hu

/-- What is known of the `n` complete arguments `a` of weight `w`, each with the separator
after it. -/
def Given (n : Nat) (a : List (Token V ω)) (w : Int) : Prop :=
  w ≤ n ∧ (w = n → ∀ s, Derives .formula s → Derives (.arguments (n + 1)) (a ++ s))

theorem given_nil : Given 0 ([] : List (Token V ω)) 0 :=
  ⟨Int.le_refl 0, fun _ _ hs => .argument hs⟩

theorem Given.another {n : Nat} {a s : List (Token V ω)} {v w : Int} (p : Int)
    (ha : Given n a v) (hs : Closed s w) :
    Given (n + 1) (a ++ s ++ [⟨.separator, p⟩]) (v + w) := by
  obtain ⟨hv, ha⟩ := ha
  obtain ⟨hw, hs⟩ := hs
  refine ⟨by omega, ?_⟩
  intro hsum u hu
  rw [List.append_assoc]
  exact .another p (ha (by omega) s (hs (by omega))) hu

/-! ### Operators that wait -/

/-- All tokens are operators. -/
def Operators (ops : List (Token V ω)) : Prop := ∀ t ∈ ops, ∃ op, t.item = .operator op

theorem operators_nil : Operators ([] : List (Token V ω)) := by
  intro t ht
  cases ht

theorem operators_cons {op : Operator ω} {p : Int} {ops : List (Token V ω)}
    (h : Operators ops) : Operators (⟨.operator op, p⟩ :: ops) := by
  intro t ht
  rcases List.mem_cons.1 ht with rfl | ht
  · exact ⟨op, rfl⟩
  · exact h t ht

theorem Operators.isCounted {ops : List (Token V ω)} (h : Operators ops) {t : Token V ω}
    (ht : t ∈ ops) : t.item.isCounted = true := by
  obtain ⟨op, hop⟩ := h t ht
  rw [hop]
  rfl

/-- Operators come off the stack in reverse. -/
theorem weigh_reverse_append (ops output : List (Token V ω)) :
    weigh (ops.reverse ++ output) = weigh output + weigh ops := by
  rw [weigh_append, weigh_reverse, Int.add_comm]

theorem Operators.isCounted_append {ops output : List (Token V ω)} (h : Operators ops)
    (hout : ∀ t ∈ output, t.item.isCounted = true) :
    ∀ t ∈ ops.reverse ++ output, t.item.isCounted = true := by
  intro t ht
  rcases List.mem_append.1 ht with ht | ht
  · exact h.isCounted (List.mem_reverse.1 ht)
  · exact hout t ht

namespace Yard

/-- Of the operators that wait above a parenthesis, the first few go before `c`. -/
theorem popOperators_append {ops waiting : List (Token V ω)} (hops : Operators ops)
    (hwaiting : Fenced waiting) (c : Operator ω) (output : List (Token V ω)) :
    ∃ popped rest, ops = popped ++ rest ∧
      popOperators c output (ops ++ waiting) = (popped.reverse ++ output, rest ++ waiting) := by
  induction ops generalizing output with
  | nil => exact ⟨[], [], rfl, popOperators_fenced hwaiting c output⟩
  | cons t ops ih =>
    obtain ⟨op, hop⟩ := hops t (List.mem_cons_self ..)
    cases hpop : popsBefore op c with
    | true =>
      obtain ⟨popped, rest, rfl, h⟩ :=
        ih (fun u hu => hops u (List.mem_cons_of_mem _ hu)) (t :: output)
      refine ⟨t :: popped, rest, rfl, ?_⟩
      rw [List.cons_append, popOperators, hop]
      simp only [hpop, if_true, h]
      simp
    | false =>
      refine ⟨[], t :: ops, rfl, ?_⟩
      rw [List.cons_append, popOperators, hop]
      simp [hpop]

theorem popToOpen_append {ops : List (Token V ω)} (hops : Operators ops)
    (output waiting : List (Token V ω)) :
    popToOpen output (ops ++ waiting) = popToOpen (ops.reverse ++ output) waiting := by
  induction ops generalizing output with
  | nil => rfl
  | cons t ops ih =>
    obtain ⟨op, hop⟩ := hops t (List.mem_cons_self ..)
    have hopen : t.item.isOpen = false := by
      rw [hop]
      rfl
    rw [List.cons_append, popToOpen, hopen, if_neg Bool.false_ne_true,
      ih (fun u hu => hops u (List.mem_cons_of_mem _ hu))]
    simp

theorem flush_append {ops : List (Token V ω)} (hops : Operators ops)
    (output waiting : List (Token V ω)) :
    flush output (ops ++ waiting) = flush (ops.reverse ++ output) waiting := by
  induction ops generalizing output with
  | nil => rfl
  | cons t ops ih =>
    obtain ⟨op, hop⟩ := hops t (List.mem_cons_self ..)
    have hmark : t.item.isPunctuation = false := by
      rw [hop]
      rfl
    rw [List.cons_append, flush, hmark, if_neg Bool.false_ne_true,
      ih (fun u hu => hops u (List.mem_cons_of_mem _ hu))]
    simp

/-- The bracket that ends the operators above it comes off the stack with them. -/
theorem popToOpen_bracket {ops : List (Token V ω)} (hops : Operators ops)
    (output waiting : List (Token V ω)) (p : Int) :
    popToOpen output (ops ++ ⟨.leftParenthesis, p⟩ :: waiting) =
      some (ops.reverse ++ output, ⟨.leftParenthesis, p⟩, waiting) :=
  popToOpen_append hops output _

section

variable {y y' : Yard V ω} {u : Token V ω} {previous next : Option (Lexeme V ω)}
  {output waiting : List (Token V ω)} {calls : List (Option Nat)} {k : Nat} {r : Int}

/-- A closing parenthesis needs an open one. -/
theorem Moves.popToOpen_ne_none (h : y.Moves previous next ⟨.rightParenthesis, r⟩ y') :
    popToOpen y.output y.waiting ≠ none := by
  cases h with
  | group _ hm | call _ hm => exact absurd hm (by decide)
  | closeGroup _ _ hpop _ =>
    rw [hpop]
    nofun
  | closeCall _ _ hpop _ _ _ =>
    rw [hpop]
    nofun
  | separate _ _ hclose => exact absurd rfl hclose

theorem Moves.of_closeGroup (hpop : popToOpen y.output y.waiting = some (output, u, waiting))
    (hcalls : y.calls = none :: calls) (h : y.Moves previous next ⟨.rightParenthesis, r⟩ y') :
    y' = ⟨output, waiting, calls⟩ := by
  cases h with
  | group _ hm | call _ hm => exact absurd hm (by decide)
  | closeGroup _ _ hpop' hcalls' =>
    rw [hpop] at hpop'
    rw [hcalls] at hcalls'
    cases hpop'
    cases hcalls'
    rfl
  | closeCall _ _ _ hcalls' _ _ =>
    rw [hcalls] at hcalls'
    cases hcalls'
  | separate _ _ hclose => exact absurd rfl hclose

theorem Moves.of_closeCall {f : Function ω} {p : Int}
    (hpop : popToOpen y.output y.waiting = some (output, u, ⟨.function f, p⟩ :: waiting))
    (hcalls : y.calls = some k :: calls) (h : y.Moves previous next ⟨.rightParenthesis, r⟩ y') :
    f.admits k = true ∧
      y' = ⟨⟨.function { f with arguments := some k }, p⟩ :: output, waiting, calls⟩ := by
  cases h with
  | group _ hm | call _ hm => exact absurd hm (by decide)
  | closeGroup _ _ _ hcalls' =>
    rw [hcalls] at hcalls'
    cases hcalls'
  | closeCall _ _ hpop' hcalls' _ hf =>
    rw [hpop] at hpop'
    rw [hcalls] at hcalls'
    cases hpop'
    cases hcalls'
    exact ⟨hf, rfl⟩
  | separate _ _ hclose => exact absurd rfl hclose

/-- A separator stands in a call. -/
theorem Moves.of_separate (h : y.Moves previous next ⟨.separator, r⟩ y') :
    ∃ output u waiting k calls, popToOpen y.output y.waiting = some (output, u, waiting) ∧
      y.calls = some k :: calls ∧ y' = ⟨output, u :: waiting, some (k + 1) :: calls⟩ := by
  cases h with
  | group _ hm | call _ hm | closeGroup _ hm | closeCall _ hm => exact absurd hm (by decide)
  | separate _ _ _ hpop hcalls _ => exact ⟨_, _, _, _, _, hpop, hcalls, rfl⟩

end

end Yard

/-! ### The invariant -/

/-- What has been read before the innermost open bracket, with the tokens that wait and
the calls that are open there.  The weight is that of the tokens in the output. -/
inductive Context : List (Token V ω) → List (Token V ω) → List (Option Nat) → Int → Prop
  | whole : Context [] [] [] 0
  | group {c s ops waiting calls d w} (p : Int) :
      Context c waiting calls d → Pending s w → Operators ops →
      Context (c ++ s ++ [⟨.leftParenthesis, p⟩]) (⟨.leftParenthesis, p⟩ :: (ops ++ waiting))
        (none :: calls) (d + w - weigh ops)
  | call {c s ops waiting calls d w a n v} {f : Function ω} (p q : Int) :
      Context c waiting calls d → Pending s w → Operators ops → Given n a v →
      Context (c ++ s ++ ⟨.function f, p⟩ :: ⟨.leftParenthesis, q⟩ :: a)
        (⟨.leftParenthesis, q⟩ :: ⟨.function f, p⟩ :: (ops ++ waiting))
        (some (n + 1) :: calls) (d + w + v - weigh ops)

theorem Context.fenced {c waiting : List (Token V ω)} {calls : List (Option Nat)} {d : Int}
    (h : Context c waiting calls d) : Yard.Fenced waiting := by
  cases h with
  | whole => exact Yard.fenced_nil
  | group => exact Yard.fenced_cons rfl _
  | call => exact Yard.fenced_cons rfl _

/-- The yard after the tokens `c ++ s`, where `s` is the segment that is being read. -/
inductive Standing (ends : Bool) : Yard V ω → List (Token V ω) → Prop
  | intro {c s output ops waiting : List (Token V ω)} {calls : List (Option Nat)} {d w : Int} :
      Context c waiting calls d → Segment ends s w → Operators ops →
      weigh output + weigh ops = d + w → (∀ t ∈ output, t.item.isCounted = true) →
      Standing ends ⟨output, ops ++ waiting, calls⟩ (c ++ s)

namespace Standing

/-- Nothing has been read of the segment. -/
theorem opened {c output waiting : List (Token V ω)} {calls : List (Option Nat)} {d : Int}
    (outer : Context c waiting calls d) (hweight : weigh output = d)
    (hout : ∀ t ∈ output, t.item.isCounted = true) :
    Standing false ⟨output, waiting, calls⟩ c := by
  have h : Standing false ⟨output, [] ++ waiting, calls⟩ (c ++ []) :=
    .intro (w := 0) outer pending_nil operators_nil (by rw [weigh_nil]; omega) hout
  rwa [List.append_nil] at h

theorem empty : Standing false ({} : Yard V ω) [] := opened .whole rfl (by simp)

section

variable {y y' : Yard V ω} {read : List (Token V ω)} {ends : Bool} {p q r : Int}

/-- An operand goes to the output. -/
theorem leaf {t : Token V ω} (h : Standing false y read) (ht : t.item.arity = 0)
    (hcounted : t.item.isCounted = true) (hatom : Derives .atom [t]) :
    Standing true { y with output := t :: y.output } (read ++ [t]) := by
  obtain @⟨c, s, output, ops, waiting, calls, d, w, outer, hs, hops, hweight, hout⟩ := h
  have hone : t.item.weight = 1 := by
    rw [Lexeme.weight, ht]
    rfl
  have houtput : weigh (t :: output) + weigh ops = d + (w + 1) := by
    rw [weigh_cons, hone]
    omega
  rw [List.append_assoc]
  refine .intro outer (hs.atom (Int.le_refl 1) fun _ => hatom) hops houtput ?_
  simpa [hcounted] using hout

/-- An operator before its operand waits. -/
theorem before {op : Operator ω} (h : Standing false y read) (hop : op.isPrefix = true) :
    Standing false { y with waiting := ⟨.operator op, p⟩ :: y.waiting }
      (read ++ [⟨.operator op, p⟩]) := by
  obtain @⟨c, s, output, ops, waiting, calls, d, w, outer, hs, hops, hweight, hout⟩ := h
  have hsum : weigh output + weigh (⟨.operator op, p⟩ :: ops) = d + w := by
    rw [weigh_cons, Lexeme.weight_of_not_isBinary (Operator.isBinary_of_isPrefix hop)]
    omega
  have h' : Standing false ⟨output, (⟨.operator op, p⟩ :: ops) ++ waiting, calls⟩ _ :=
    .intro outer (hs.before p hop) (operators_cons hops) hsum hout
  rwa [← List.append_assoc] at h'

/-- Any other operator waits after those that go before it. -/
theorem operator {op : Operator ω} (h : Standing ends y read) (hop : op.isPrefix = false) :
    Standing op.isPostfix
      { y with
        output := (Yard.popOperators op y.output y.waiting).1
        waiting := ⟨.operator op, p⟩ :: (Yard.popOperators op y.output y.waiting).2 }
      (read ++ [⟨.operator op, p⟩]) := by
  obtain @⟨c, s, output, ops, waiting, calls, d, w, outer, hs, hops, hweight, hout⟩ := h
  -- what leaves the stack stays in the segment, so only the operator itself changes its weight
  obtain ⟨popped, rest, rfl, hpop⟩ := Yard.popOperators_append hops outer.fenced op output
  have hpopped : Operators popped := fun t ht => hops t (List.mem_append_left _ ht)
  have hrest : Operators rest := fun t ht => hops t (List.mem_append_right _ ht)
  have hout' := hpopped.isCounted_append hout
  rw [weigh_append] at hweight
  simp only [hpop]
  cases hpost : op.isPostfix with
  | true =>
    have hsum : weigh (popped.reverse ++ output) + weigh (⟨.operator op, p⟩ :: rest) = d + w := by
      rw [weigh_reverse_append, weigh_cons,
        Lexeme.weight_of_not_isBinary (Operator.isBinary_of_isPostfix hpost)]
      omega
    have h' : Standing true
        ⟨popped.reverse ++ output, (⟨.operator op, p⟩ :: rest) ++ waiting, calls⟩ _ :=
      .intro outer (hs.closed.after p hpost) (operators_cons hrest) hsum hout'
    rwa [← List.append_assoc] at h'
  | false =>
    have hbinary := Operator.isBinary_of_not_isPrefix hop hpost
    have hsum : weigh (popped.reverse ++ output) + weigh (⟨.operator op, p⟩ :: rest) =
        d + (w - 1) := by
      rw [weigh_reverse_append, weigh_cons, Lexeme.weight_of_isBinary hbinary]
      omega
    have h' : Standing false
        ⟨popped.reverse ++ output, (⟨.operator op, p⟩ :: rest) ++ waiting, calls⟩ _ :=
      .intro outer (hs.closed.between p hbinary) (operators_cons hrest) hsum hout'
    rwa [← List.append_assoc] at h'

/-- A parenthesis that is no call leaves the segment pending. -/
theorem group (h : Standing false y read) :
    Standing false
      { y with waiting := ⟨.leftParenthesis, p⟩ :: y.waiting, calls := none :: y.calls }
      (read ++ [⟨.leftParenthesis, p⟩]) := by
  obtain @⟨c, s, output, ops, waiting, calls, d, w, outer, hs, hops, hweight, hout⟩ := h
  have hsum : weigh output = d + w - weigh ops := by omega
  exact opened (.group p outer hs hops) hsum hout

/-- So does the parenthesis of a call. -/
theorem call {f : Function ω} (h : Standing false y read) :
    Standing false
      { y with
        waiting := ⟨.leftParenthesis, q⟩ :: ⟨.function f, p⟩ :: y.waiting
        calls := some 1 :: y.calls }
      (read ++ [⟨.function f, p⟩, ⟨.leftParenthesis, q⟩]) := by
  obtain @⟨c, s, output, ops, waiting, calls, d, w, outer, hs, hops, hweight, hout⟩ := h
  have hinner := Context.call (f := f) p q outer hs hops given_nil
  have hsum : weigh output = d + w + 0 - weigh ops := by omega
  exact opened hinner hsum hout

/-- A call without arguments is an atom. -/
theorem emptyCall {f : Function ω} (h : Standing false y read) (hf : f.admits 0 = true) :
    Standing true
      { y with output := ⟨.function { f with arguments := some ↑(0 : Nat) }, p⟩ :: y.output }
      (read ++ [⟨.function f, p⟩, ⟨.leftParenthesis, q⟩, ⟨.rightParenthesis, r⟩]) := by
  obtain @⟨c, s, output, ops, waiting, calls, d, w, outer, hs, hops, hweight, hout⟩ := h
  have hone : (Lexeme.function { f with arguments := some ↑(0 : Nat) } : Lexeme V ω).weight = 1 :=
    rfl
  rw [List.append_assoc]
  refine .intro outer (hs.atom (Int.le_refl 1) fun _ => .emptyCall p q r hf) hops ?_ ?_
  · dsimp only
    rw [weigh_cons, hone]
    omega
  · simpa [Lexeme.isCounted] using hout

/-- A closing parenthesis makes the segment that it closes an atom of the one before,
or of a lower weight. -/
theorem close {previous next : Option (Lexeme V ω)} (h : Standing ends y read)
    (hmoves : y.Moves previous next ⟨.rightParenthesis, r⟩ y') :
    Standing true y' (read ++ [⟨.rightParenthesis, r⟩]) := by
  obtain @⟨c, s, output, ops, waiting, calls, d, w, outer, hs, hops, hweight, hout⟩ := h
  have hout' := hops.isCounted_append hout
  have hsum : weigh (ops.reverse ++ output) = d + w := by
    rw [weigh_reverse_append, hweight]
  obtain ⟨hone, hformula⟩ := hs.closed
  cases outer with
  | whole => exact absurd (Yard.popToOpen_append hops output []) hmoves.popToOpen_ne_none
  | @group c₀ s₀ ops₀ waiting₀ calls₀ d₀ w₀ p outer hs₀ hops₀ =>
    obtain rfl := hmoves.of_closeGroup (Yard.popToOpen_bracket hops output _ p) rfl
    have hatom := hs₀.atom (a := ⟨.leftParenthesis, p⟩ :: (s ++ [⟨.rightParenthesis, r⟩])) hone
      fun hw => .group p r (hformula hw)
    have houter : Standing true _ _ := .intro outer hatom hops₀ (by omega) hout'
    simpa using houter
  | @call c₀ s₀ ops₀ waiting₀ calls₀ d₀ w₀ a n v f p q outer hs₀ hops₀ hgiven =>
    obtain ⟨hn, harguments⟩ := hgiven
    obtain ⟨hf, rfl⟩ := hmoves.of_closeCall (Yard.popToOpen_bracket hops output _ q) rfl
    have hatom := hs₀.atom (v := v + w - n)
      (a := ⟨.function f, p⟩ :: ⟨.leftParenthesis, q⟩ :: (a ++ s ++ [⟨.rightParenthesis, r⟩]))
      (by omega)
      fun hw => .call p q r hf (harguments (by omega) s (hformula (by omega)))
    -- the function pays for all its arguments but one, so the call has an atom's weight only if
    -- each of them has a formula's
    have hcall : (Lexeme.function { f with arguments := some ↑(n + 1) } : Lexeme V ω).weight =
        -n := by
      show 1 - ((n + 1 : Nat) : Int) = -n
      omega
    have houter : Standing true ⟨⟨.function { f with arguments := some ↑(n + 1) }, p⟩ ::
        (ops.reverse ++ output), ops₀ ++ waiting₀, calls₀⟩ _ :=
      .intro outer hatom hops₀ (by rw [weigh_cons, hcall]; omega)
        (by simpa [Lexeme.isCounted] using hout')
    simpa using houter

/-- A separator completes the argument before it. -/
theorem separate {previous next : Option (Lexeme V ω)} (h : Standing ends y read)
    (hmoves : y.Moves previous next ⟨.separator, r⟩ y') :
    Standing false y' (read ++ [⟨.separator, r⟩]) := by
  obtain @⟨c, s, output, ops, waiting, calls, d, w, outer, hs, hops, hweight, hout⟩ := h
  have hout' := hops.isCounted_append hout
  have hsum : weigh (ops.reverse ++ output) = d + w := by
    rw [weigh_reverse_append, hweight]
  obtain ⟨output', u, waiting', k, calls', hpop, hcalls, rfl⟩ := hmoves.of_separate
  cases outer with
  | whole =>
    rw [Yard.popToOpen_append hops] at hpop
    cases hpop
  | group p => cases hcalls
  | @call c₀ s₀ ops₀ waiting₀ calls₀ d₀ w₀ a n v f p q outer hs₀ hops₀ hgiven =>
    rw [Yard.popToOpen_bracket hops] at hpop
    cases hpop
    cases hcalls
    have hinner := Context.call (f := f) p q outer hs₀ hops₀ (hgiven.another r hs.closed)
    have hopened := opened hinner (by omega) hout'
    simpa using hopened

end

end Standing

/-! ### Runs -/

/-- Is the lexeme no mark, or a mark of the grammar? -/
def Lexeme.isKnown : Lexeme V ω → Bool
  | punctuation m => m == openMark || m == closeMark || m == separatorMark
  | _ => true

/-- No two operands meet in the list, nor at its beginning, and all marks are known. -/
def Apart : Option (Lexeme V ω) → List (Token V ω) → Prop
  | _, [] => True
  | previous, t :: ts =>
    (endsOperand previous && t.item.beginsOperand) = false ∧ t.item.isKnown = true ∧
      Apart (some t.item) ts

/-- A mark that opens is a parenthesis, and so is one that closes. -/
theorem Lexeme.eq_of_isOpen {l : Lexeme V ω} (h : l.isOpen = true) : l = .leftParenthesis := by
  cases l with
  | punctuation m =>
    obtain rfl : m = openMark := by simpa [isOpen] using h
    rfl
  | _ => cases h

theorem Lexeme.eq_of_isClose {l : Lexeme V ω} (h : l.isClose = true) : l = .rightParenthesis := by
  cases l with
  | punctuation m =>
    obtain rfl : m = closeMark := by simpa [isClose] using h
    rfl
  | _ => cases h

theorem Yard.of_beforeClose {ts : List (Token V ω)}
    (h : beforeClose (ts.head?.map (·.item)) = true) :
    ∃ p us, ts = ⟨.rightParenthesis, p⟩ :: us := by
  rcases ts with _ | ⟨⟨l, p⟩, us⟩
  · cases h
  · obtain rfl := Lexeme.eq_of_isClose h
    exact ⟨p, us, rfl⟩

/-- The parenthesis of a function is read next, and what follows it is an argument unless
the call is closed at once. -/
theorem Yard.of_run_call {y z : Yard V ω} {f : Function ω} {p q : Int} {us : List (Token V ω)}
    (h : ({ y with waiting := ⟨.function f, p⟩ :: y.waiting } : Yard V ω).run
      (some (.function f)) (⟨.leftParenthesis, q⟩ :: us) = .ok z) :
    ({ y with
      waiting := ⟨.leftParenthesis, q⟩ :: ⟨.function f, p⟩ :: y.waiting
      calls := some (if beforeClose (us.head?.map (·.item)) then 0 else 1) :: y.calls } :
        Yard V ω).run (some .leftParenthesis) us = .ok z := by
  obtain ⟨y', hmoves, hrun⟩ := run_cons_eq_ok.1 h
  cases hmoves with
  | group _ _ hprev _ => cases hprev
  | call _ _ _ => exact hrun
  | closeGroup _ hm | closeCall _ hm => exact absurd hm (by decide)
  | separate _ hopen => exact absurd rfl hopen

/-- What every token keeps where no two operands meet: `I ends y read` is said of the yard `y`
after the tokens `read`, and `ends` says whether an operand ends there.  A function is read
together with its parenthesis, and with the closing one if nothing stands between them. -/
structure Yard.Kept (I : Bool → Yard V ω → List (Token V ω) → Prop) : Prop where
  leaf {y read} {t : Token V ω} : I false y read → t.item.arity = 0 → t.item.isCounted = true →
    Derives .atom [t] → I true { y with output := t :: y.output } (read ++ [t])
  before {y read} {op : Operator ω} {p : Int} : I false y read → op.isPrefix = true →
    I false { y with waiting := ⟨.operator op, p⟩ :: y.waiting } (read ++ [⟨.operator op, p⟩])
  operator {ends y read} {op : Operator ω} {p : Int} : I ends y read → op.isPrefix = false →
    I op.isPostfix
      { y with
        output := (popOperators op y.output y.waiting).1
        waiting := ⟨.operator op, p⟩ :: (popOperators op y.output y.waiting).2 }
      (read ++ [⟨.operator op, p⟩])
  group {y read} {p : Int} : I false y read →
    I false { y with waiting := ⟨.leftParenthesis, p⟩ :: y.waiting, calls := none :: y.calls }
      (read ++ [⟨.leftParenthesis, p⟩])
  call {y read} {f : Function ω} {p q : Int} : I false y read →
    I false
      { y with
        waiting := ⟨.leftParenthesis, q⟩ :: ⟨.function f, p⟩ :: y.waiting
        calls := some 1 :: y.calls }
      (read ++ [⟨.function f, p⟩, ⟨.leftParenthesis, q⟩])
  emptyCall {y read} {f : Function ω} {p q r : Int} : I false y read → f.admits 0 = true →
    I true { y with output := ⟨.function { f with arguments := some ↑(0 : Nat) }, p⟩ :: y.output }
      (read ++ [⟨.function f, p⟩, ⟨.leftParenthesis, q⟩, ⟨.rightParenthesis, r⟩])
  close {ends y y' read previous next} {r : Int} : I ends y read →
    y.Moves previous next ⟨.rightParenthesis, r⟩ y' → I true y' (read ++ [⟨.rightParenthesis, r⟩])
  separate {ends y y' read previous next} {r : Int} : I ends y read →
    y.Moves previous next ⟨.separator, r⟩ y' → I false y' (read ++ [⟨.separator, r⟩])

section

variable {I : Bool → Yard V ω → List (Token V ω) → Prop}

/-- What every token keeps holds after every list in which no two operands meet. -/
theorem Yard.Kept.run (hI : Kept I) {ts : List (Token V ω)} {y z : Yard V ω}
    {previous : Option (Lexeme V ω)} {read : List (Token V ω)}
    (h : I (endsOperand previous) y read) (hprev : afterFunction previous = false)
    (hts : Apart previous ts) (hrun : y.run previous ts = .ok z) :
    ∃ ends, I ends z (read ++ ts) := by
  -- a function and its parenthesis are read together, so the list gets shorter by up to three
  induction hn : ts.length using Nat.strongRecOn generalizing ts y previous read with
  | ind n ih =>
  subst hn
  rcases ts with _ | ⟨⟨l, p⟩, ts⟩
  · rw [List.append_nil, ← Except.ok.inj hrun]
    exact ⟨_, h⟩
  obtain ⟨hmeet, hknown, hts⟩ := hts
  obtain ⟨y', hmoves, hrun⟩ := run_cons_eq_ok.1 hrun
  -- the rest of the list is read from the yard after this token
  have next : I (endsOperand (some l)) y' (read ++ [⟨l, p⟩]) →
      afterFunction (some l) = false → ∃ ends, I ends z (read ++ ⟨l, p⟩ :: ts) := by
    intro h' hl
    simpa using ih ts.length (Nat.lt_succ_self _) h' hl hts hrun rfl
  have pending : l.beginsOperand = true → I false y read := by
    intro hbegins
    rw [hbegins, Bool.and_true] at hmeet
    rwa [hmeet] at h
  have hmark := hmoves
  cases hmoves with
  | operand v => exact next (hI.leaf (pending rfl) rfl rfl (.operand v p)) rfl
  | var label => exact next (hI.leaf (pending rfl) rfl rfl (.var label p)) rfl
  | @before op _ hop =>
    refine next ?_ rfl
    show I op.isPostfix _ _
    rw [Operator.isPostfix_of_isPrefix hop]
    exact hI.before (pending hop) hop
  | operator _ hop => exact next (hI.operator h hop) rfl
  | @function l f _ hnext hopen =>
    rcases ts with _ | ⟨⟨m, q⟩, us⟩
    · cases hnext
    obtain rfl := Option.some.inj hnext
    obtain rfl := Lexeme.eq_of_isOpen hopen
    obtain ⟨-, -, hus⟩ := hts
    have hcall := of_run_call hrun
    cases hclose : beforeClose (us.head?.map (·.item)) with
    | false =>
      have hopened : I (endsOperand (some (.leftParenthesis : Lexeme V ω))) _ _ :=
        hI.call (f := f) (p := p) (q := q) (pending rfl)
      rw [hclose, if_neg Bool.false_ne_true] at hcall
      simpa using ih us.length (by simp only [List.length_cons]; omega) hopened rfl hus hcall rfl
    | true =>
      obtain ⟨r, vs, rfl⟩ := of_beforeClose hclose
      obtain ⟨y₃, hend, hrest⟩ := run_cons_eq_ok.1 hcall
      obtain ⟨-, -, hvs⟩ := hus
      obtain ⟨hf, rfl⟩ := hend.of_closeCall rfl rfl
      have hclosed : I (endsOperand (some (.rightParenthesis : Lexeme V ω))) _ _ :=
        hI.emptyCall (p := p) (q := q) (r := r) (pending rfl) hf
      simpa using ih vs.length (by simp only [List.length_cons]; omega) hclosed rfl hvs hrest rfl
  | group _ hm =>
    subst hm
    exact next (hI.group (pending rfl)) rfl
  | call _ _ hcall => exact absurd hcall (by simp [hprev])
  | closeGroup _ hm | closeCall _ hm =>
    subst hm
    exact next (hI.close h hmark) rfl
  | separate _ hopen hclose =>
    simp only [Lexeme.isKnown, Bool.or_eq_true, beq_iff_eq] at hknown
    obtain rfl := hknown.resolve_left (by simp [hopen, hclose])
    exact next (hI.separate h hmark) rfl

/-- So it holds of the yard before the last tokens are taken off its stack. -/
theorem Yard.Kept.of_toPostfix (hI : Kept I) (hempty : I false {} []) {ts ps : List (Token V ω)}
    (hts : Apart none ts) (h : toPostfix ts = .ok ps) :
    ∃ ends y output, I ends y ts ∧ flush y.output y.waiting = .ok output ∧ ps = output.reverse := by
  obtain ⟨y, output, hrun, hflush, hps⟩ := toPostfix_eq_ok.1 h
  have hstart : I (endsOperand (none : Option (Lexeme V ω))) {} [] := hempty
  obtain ⟨ends, hread⟩ := hI.run hstart rfl hts hrun
  exact ⟨ends, y, output, hread, hflush, hps⟩

end

theorem Standing.kept : Yard.Kept (Standing (V := V) (ω := ω)) where
  leaf := leaf
  before := before
  operator := operator
  group := group
  call := call
  emptyCall := emptyCall
  close := close
  separate := separate

/-- Where the list ends with no bracket open, all that has been read is one segment, and
its weight is that of the postfix list. -/
theorem Standing.flush {ends : Bool} {y : Yard V ω} {read ps : List (Token V ω)}
    (h : Standing ends y read) (hflush : Yard.flush y.output y.waiting = .ok ps) :
    Closed read (weigh ps) ∧ ∀ t ∈ ps, t.item.isCounted = true := by
  obtain @⟨c, s, output, ops, waiting, calls, d, w, outer, hs, hops, hweight, hout⟩ := h
  rw [Yard.flush_append hops] at hflush
  cases outer with
  | whole =>
    obtain rfl := Except.ok.inj hflush
    have hw : weigh (ops.reverse ++ output) = w := by
      rw [weigh_reverse_append, hweight, Int.zero_add]
    rw [hw]
    exact ⟨hs.closed, hops.isCounted_append hout⟩
  | group => cases hflush
  | call => cases hflush

/-- The postfix list weighs at most 1, and it weighs 1 only if the list is a formula. -/
theorem closed_of_toPostfix {ts ps : List (Token V ω)} (hts : Apart none ts)
    (h : toPostfix ts = .ok ps) :
    Closed ts (weigh ps) ∧ ∀ t ∈ ps, t.item.isCounted = true := by
  obtain ⟨ends, y, output, hstanding, hflush, rfl⟩ := Standing.kept.of_toPostfix .empty hts h
  obtain ⟨hclosed, hcounted⟩ := hstanding.flush hflush
  rw [weigh_reverse]
  exact ⟨hclosed, fun t ht => hcounted t (List.mem_reverse.1 ht)⟩

/-- **A list of tokens in which no two operands meet is a formula if it has a postfix
list and this has a tree.** -/
theorem derives_of_ofPostfix {ts ps : List (Token V ω)} {t : Tree V ω} (hts : Apart none ts)
    (hparse : toPostfix ts = .ok ps) (hbuild : Tree.ofPostfix ps = .ok t) :
    Derives .formula ts := by
  obtain ⟨⟨-, hformula⟩, hcounted⟩ := closed_of_toPostfix hts hparse
  exact hformula (weigh_of_ofPostfix hcounted hbuild)

end Formula
