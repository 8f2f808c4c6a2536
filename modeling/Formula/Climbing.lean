/-
Formula/Climbing.lean

Reading a formula by precedence climbing, without a stack of operators.
`climb s` reads what the operator `s` on the left may take as its operand: an
operator before its operand together with this operand, or an atom, and after it
every operator that `s` does not go before.  Where nothing stands on the left (at
the beginning of the text, of a group, of an argument), `s` is absent.

`follow s left` is the second half: it extends what has been read, `left`, to the
right.

Design.  Everything here reads from the front of a list and goes on with what is
left, so the recursion is on the length of what is left.  A `Reading` carries the
proof that its rest is short enough.  `climb`, `follow` and `readArguments` are the functions
without these proofs, and clients use their equations only.
-/
import Formula.Grammar
import Formula.Postfix
import Formula.Tree.Basic

namespace Formula

variable {V ω : Type}

/-! ### Readings -/

/-- Something read from the front of a list, and the rest, of fewer than `n`
tokens. -/
structure Reading (α V ω : Type) (n : Nat) where
  result : α
  rest : List (Token V ω)
  shorter : rest.length < n

namespace Reading

variable {α β : Type} {m n : Nat}

/-- What was read, and the rest. -/
def pair (r : Reading α V ω n) : α × List (Token V ω) := (r.result, r.rest)

/-- Changes what was read. -/
def map (f : α → β) (r : Reading α V ω n) : Reading β V ω n := ⟨f r.result, r.rest, r.shorter⟩

/-- A reading from a longer list. -/
def widen (h : m ≤ n) (r : Reading α V ω m) : Reading α V ω n :=
  ⟨r.result, r.rest, Nat.lt_of_lt_of_le r.shorter h⟩

/-- A reading that goes on where `r` ends. -/
def onward (r : Reading α V ω m) (r' : Reading β V ω (r.rest.length + 1)) :
    Reading β V ω (m + 1) :=
  r'.widen (Nat.succ_le_succ (Nat.le_of_lt r.shorter))

/-- Reads a structural mark, too. -/
def skip (mark : String) : Reading α V ω n → Option (Reading α V ω n)
  | ⟨x, ⟨.punctuation m, _⟩ :: rest, h⟩ =>
    if m = mark then some ⟨x, rest, Nat.lt_trans (Nat.lt_succ_self _) h⟩ else none
  | _ => none

end Reading

/-! ### Climbing -/

/-- Does the operator `c` belong to the operand of `s`? -/
def belongs (s : Option (Operator ω)) (c : Operator ω) : Bool :=
  !c.isPrefix && s.all fun s => !Yard.popsBefore s c

/-- The call of a function with the given arguments. -/
def callOf (f : Function ω) (p : Int) (arguments : List (Tree V ω)) : Tree V ω :=
  .node ⟨.function { f with arguments := some arguments.length }, p⟩ arguments

mutual

/-- Reads an operand of `s`. -/
def climbing (s : Option (Operator ω)) :
    (ts : List (Token V ω)) → Option (Reading (Tree V ω) V ω ts.length)
  | [] => none
  | ⟨.operand v, p⟩ :: ts => following s (.node ⟨.operand v, p⟩ []) ts
  | ⟨.var l, p⟩ :: ts => following s (.node ⟨.var l, p⟩ []) ts
  | ⟨.operator op, p⟩ :: ts =>
    if op.isPrefix then
      (climbing (some op) ts).bind fun r =>
        (following s (.node ⟨.operator op, p⟩ [r.result]) r.rest).map r.onward
    else none
  | ⟨.function f, p⟩ :: ts =>
    (calling ts).bind fun r =>
      if f.admits r.result.length then (following s (callOf f p r.result) r.rest).map r.onward
      else none
  | ⟨.punctuation m, _⟩ :: ts =>
    if m = openMark then
      ((climbing none ts).bind (Reading.skip closeMark)).bind fun r =>
        (following s r.result r.rest).map r.onward
    else none
termination_by ts => 2 * ts.length
decreasing_by
  all_goals first
    | simp only [List.length_cons]; omega
    | have := r.shorter; simp only [List.length_cons]; omega

/-- Extends `left` by the operators that belong to the operand of `s`. -/
def following (s : Option (Operator ω)) (left : Tree V ω) :
    (ts : List (Token V ω)) → Option (Reading (Tree V ω) V ω (ts.length + 1))
  | ⟨.operator c, p⟩ :: ts =>
    if belongs s c then
      if c.isBinary then
        (climbing (some c) ts).bind fun r =>
          (following s (.node ⟨.operator c, p⟩ [left, r.result]) r.rest).map fun r' =>
            (r.onward r').widen (Nat.le_succ _)
      else
        (following s (.node ⟨.operator c, p⟩ [left]) ts).map (.widen (Nat.le_succ _))
    else some ⟨left, ⟨.operator c, p⟩ :: ts, Nat.lt_succ_self _⟩
  | ts => some ⟨left, ts, Nat.lt_succ_self _⟩
termination_by ts => 2 * ts.length
decreasing_by
  all_goals first
    | simp only [List.length_cons]; omega
    | have := r.shorter; simp only [List.length_cons]; omega

/-- Reads the arguments of a call with their parentheses. -/
def calling : (ts : List (Token V ω)) → Option (Reading (List (Tree V ω)) V ω ts.length)
  | ⟨.punctuation m, _⟩ :: ts =>
    if m = openMark then
      ((Reading.mk [] ts (Nat.lt_succ_self _)).skip closeMark).or
        ((listing ts).map (.widen (Nat.le_succ _)))
    else none
  | _ => none
termination_by ts => 2 * ts.length
decreasing_by
  simp only [List.length_cons]
  omega

/-- Reads arguments up to the closing parenthesis. -/
def listing (ts : List (Token V ω)) : Option (Reading (List (Tree V ω)) V ω ts.length) :=
  (climbing none ts).bind fun r =>
    ((r.skip closeMark).map (.map fun x => [x])).or
      ((r.skip separatorMark).bind fun r =>
        (listing r.rest).map fun r' => (r'.map (r.result :: ·)).widen (Nat.le_of_lt r.shorter))
termination_by 2 * ts.length + 1
decreasing_by
  all_goals first
    | omega
    | have := r.shorter; omega

end

/-- Reads an operand of `s`: its tree, and the rest. -/
def climb (s : Option (Operator ω)) (ts : List (Token V ω)) :
    Option (Tree V ω × List (Token V ω)) :=
  (climbing s ts).map Reading.pair

/-- Extends `left` by the operators that belong to the operand of `s`. -/
def follow (s : Option (Operator ω)) (left : Tree V ω) (ts : List (Token V ω)) :
    Option (Tree V ω × List (Token V ω)) :=
  (following s left ts).map Reading.pair

/-- Reads arguments up to the closing parenthesis. -/
def readArguments (ts : List (Token V ω)) : Option (List (Tree V ω) × List (Token V ω)) :=
  (listing ts).map Reading.pair

/-! ### Equations -/

section

variable {α β : Type} {m n : Nat}

theorem map_pair_onward (r : Reading α V ω n)
    (o : Option (Reading β V ω (r.rest.length + 1))) :
    (o.map r.onward).map Reading.pair = o.map Reading.pair := by
  rw [Option.map_map]
  rfl

theorem map_pair_widen (h : m ≤ n) (o : Option (Reading α V ω m)) :
    (o.map (Reading.widen h)).map Reading.pair = o.map Reading.pair := by
  rw [Option.map_map]
  rfl

/-- A reading that ends before a mark can skip it. -/
theorem skip_eq_some {a : α} {mark : String} {p : Int} {rest : List (Token V ω)}
    {r : Reading α V ω n} (h : r.pair = (a, ⟨.punctuation mark, p⟩ :: rest)) :
    ∃ r', r.skip mark = some r' ∧ r'.pair = (a, rest) := by
  obtain ⟨b, us, hr⟩ := r
  simp only [Reading.pair, Prod.mk.injEq] at h
  obtain ⟨rfl, rfl⟩ := h
  exact ⟨_, if_pos rfl, rfl⟩

/-- A reading that ends before one mark cannot skip another. -/
theorem skip_eq_none {a : α} {mark other : String} {p : Int} {rest : List (Token V ω)}
    {r : Reading α V ω n} (h : r.pair = (a, ⟨.punctuation mark, p⟩ :: rest))
    (hne : mark ≠ other) : r.skip other = none := by
  obtain ⟨b, us, hr⟩ := r
  simp only [Reading.pair, Prod.mk.injEq] at h
  obtain ⟨rfl, rfl⟩ := h
  exact if_neg hne

end

section

variable {s : Option (Operator ω)} {x y : Tree V ω} {xs : List (Tree V ω)}
  {ts rest : List (Token V ω)} {p q : Int}

theorem climb_operand (v : V) (p : Int) :
    climb s (⟨.operand v, p⟩ :: ts) = follow s (.node ⟨.operand v, p⟩ []) ts := by
  rw [climb, climbing, follow]

theorem climb_var (l : String) (p : Int) :
    climb s (⟨.var l, p⟩ :: ts) = follow s (.node ⟨.var l, p⟩ []) ts := by
  rw [climb, climbing, follow]

theorem climb_before {op : Operator ω} (h : op.isPrefix = true) :
    climb s (⟨.operator op, p⟩ :: ts) =
      (climb (some op) ts).bind fun r => follow s (.node ⟨.operator op, p⟩ [r.1]) r.2 := by
  rw [climb, climbing, if_pos h, climb]
  cases climbing (some op) ts with
  | none => rfl
  | some r => exact map_pair_onward r _

theorem climb_group (h : climb none ts = some (x, ⟨.rightParenthesis, q⟩ :: rest)) :
    climb s (⟨.leftParenthesis, p⟩ :: ts) = follow s x rest := by
  obtain ⟨r, hr, hpair⟩ := Option.map_eq_some_iff.1 h
  obtain ⟨r', hskip, hpair'⟩ := skip_eq_some hpair
  obtain ⟨rfl, rfl⟩ := Prod.mk.inj hpair'
  rw [climb, Lexeme.leftParenthesis, climbing, if_pos rfl, hr, Option.bind_some, hskip]
  exact map_pair_onward r' _

theorem readArguments_last (h : climb none ts = some (x, ⟨.rightParenthesis, q⟩ :: rest)) :
    readArguments ts = some ([x], rest) := by
  obtain ⟨r, hr, hpair⟩ := Option.map_eq_some_iff.1 h
  obtain ⟨r', hskip, hpair'⟩ := skip_eq_some hpair
  obtain ⟨rfl, rfl⟩ := Prod.mk.inj hpair'
  rw [readArguments, listing, hr, Option.bind_some, hskip]
  rfl

theorem readArguments_more (h : climb none ts = some (x, ⟨.separator, q⟩ :: rest)) :
    readArguments ts = (readArguments rest).map fun r => (x :: r.1, r.2) := by
  obtain ⟨r, hr, hpair⟩ := Option.map_eq_some_iff.1 h
  obtain ⟨r', hskip, hpair'⟩ := skip_eq_some hpair
  obtain ⟨rfl, rfl⟩ := Prod.mk.inj hpair'
  have hnot : r.skip closeMark = none := skip_eq_none hpair (by decide)
  rw [readArguments, listing, hr, Option.bind_some, hnot, hskip, readArguments]
  simp only [Option.map_none, Option.none_or, Option.bind_some, Option.map_map]
  rfl

theorem climb_call {f : Function ω} (h : readArguments ts = some (xs, rest))
    (hf : f.admits xs.length = true) :
    climb s (⟨.function f, p⟩ :: ⟨.leftParenthesis, q⟩ :: ts) = follow s (callOf f p xs) rest := by
  obtain ⟨r, hr, hpair⟩ := Option.map_eq_some_iff.1 h
  obtain ⟨rfl, rfl⟩ := Prod.mk.inj hpair
  -- an argument starts here, so the parenthesis is not closed at once
  have hnot : (Reading.mk ([] : List (Tree V ω)) ts (Nat.lt_succ_self _)).skip closeMark =
      none := by
    rcases ts with _ | ⟨⟨l, p⟩, ts⟩
    · rfl
    · cases l with
      | punctuation m =>
        refine if_neg ?_
        rintro rfl
        have hnone : climbing none (⟨.punctuation closeMark, p⟩ :: ts) =
            (none : Option (Reading (Tree V ω) V ω _)) := by
          rw [climbing, if_neg (by decide)]
        rw [listing, hnone] at hr
        cases hr
      | _ => rfl
  rw [climb, climbing, Lexeme.leftParenthesis, calling, if_pos rfl, hnot, hr]
  simp only [Option.none_or, Option.map_some, Option.bind_some]
  rw [if_pos (by exact hf)]
  exact map_pair_onward (r.widen (Nat.le_succ _)) _

theorem climb_emptyCall {f : Function ω} {r : Int} (hf : f.admits 0 = true) :
    climb s (⟨.function f, p⟩ :: ⟨.leftParenthesis, q⟩ :: ⟨.rightParenthesis, r⟩ :: ts) =
      follow s (callOf f p []) ts := by
  have hskip : (Reading.mk ([] : List (Tree V ω)) (⟨.rightParenthesis, r⟩ :: ts)
      (Nat.lt_succ_self _)).skip closeMark =
        some ⟨[], ts, Nat.lt_succ_of_lt (Nat.lt_succ_self _)⟩ := by
    simp only [Reading.skip, Lexeme.rightParenthesis, if_true]
  rw [climb, climbing, Lexeme.leftParenthesis, calling, if_pos rfl, hskip]
  simp only [Option.some_or, Option.bind_some]
  rw [if_pos (by exact hf)]
  exact map_pair_onward (Reading.mk ([] : List (Tree V ω)) ts _) _

theorem follow_between {c : Operator ω} (h : belongs s c = true) (hc : c.isBinary = true) :
    follow s x (⟨.operator c, p⟩ :: ts) =
      (climb (some c) ts).bind fun r => follow s (.node ⟨.operator c, p⟩ [x, r.1]) r.2 := by
  rw [follow, following, if_pos h, if_pos hc, climb]
  cases climbing (some c) ts with
  | none => rfl
  | some r =>
    simp only [Option.bind_some, Option.map_some, Option.map_map]
    rfl

theorem follow_after {c : Operator ω} (h : belongs s c = true) (hc : c.isBinary = false) :
    follow s x (⟨.operator c, p⟩ :: ts) = follow s (.node ⟨.operator c, p⟩ [x]) ts := by
  rw [follow, following, if_pos h, if_neg (by simp [hc])]
  exact map_pair_widen _ _

/-- Reading on stops at an operator that does not belong to the operand. -/
theorem follow_stop {c : Operator ω} (h : belongs s c = false) :
    follow s x (⟨.operator c, p⟩ :: ts) = some (x, ⟨.operator c, p⟩ :: ts) := by
  rw [follow, following, if_neg (by simp [h])]
  rfl

/-- Reading on stops at whatever is no operator. -/
theorem follow_other {t : Token V ω} (h : ∀ c, t.item ≠ .operator c) :
    follow s x (t :: ts) = some (x, t :: ts) := by
  rw [follow, following]
  · rfl
  · intro c p' us hts
    exact h c (by rw [(List.cons.inj hts).1])

theorem follow_nil : follow s x [] = some (x, []) := by
  rw [follow, following]
  · rfl
  · simp

end

end Formula
