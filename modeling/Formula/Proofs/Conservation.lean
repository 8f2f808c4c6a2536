/-
Formula/Proofs/Conservation.lean

What the yard does to any list of tokens, formula or not.  It drops the marks, counts the
arguments of every call, and gives all other tokens back, each of them once; operands and
variables stay in their order.

The number of arguments can be read off the text: the separators between the parentheses of
the call, not counting those in parentheses further inside (`separators`).  While a call is
open, its count so far and the separators that are still to come add up to this number.  So
a yard is described together with the tokens that are *due* of it, the waiting operators and
the functions of the open calls with their final counts (`Frames`); the output and what is due
hold the tokens that have been read.

The same description says that the two stacks of a yard fit together: an entry among the calls
for every parenthesis, and the function of a call right below its parenthesis.  So no step
looks for an entry that is not there, and `corrupt` is never reported.

Main statement: `toPostfix_conserves`.
-/
import Formula.Proofs.Balance

namespace Formula

variable {V ω : Type}

/-! ### Arguments -/

/-- How many separators of an open parenthesis come in `ts` before it is closed.  The
parentheses that are open are numbered from the innermost, which has the depth 0. -/
def separators : List (Token V ω) → (depth : Nat) → Nat
  | [], _ => 0
  | t :: ts, 0 =>
    if t.item.isOpen then separators ts 1
    else if t.item.isClose then 0
    else if t.item.isPunctuation then separators ts 0 + 1
    else separators ts 0
  | t :: ts, outer + 1 =>
    if t.item.isOpen then separators ts (outer + 2)
    else if t.item.isClose then separators ts outer
    else separators ts (outer + 1)

/-- How many arguments a function has that `ts` comes after: none if its parenthesis is closed
at once, and else one more than there are separators. -/
def argumentCount : List (Token V ω) → Nat
  | [] => 0
  | _ :: ts => if Yard.beforeClose (ts.head?.map (·.item)) then 0 else separators ts 0 + 1

/-- The token `t` in front of `ts` as it stands in a postfix list: marks are left out, and
functions know how many arguments they have. -/
def countedToken (t : Token V ω) (ts : List (Token V ω)) : List (Token V ω) :=
  match t.item with
  | .function f => [⟨.function { f with arguments := some (argumentCount ts) }, t.position⟩]
  | .punctuation _ => []
  | _ => [t]

/-- The tokens of a list as they stand in its postfix list, in the order of the text. -/
def counted : List (Token V ω) → List (Token V ω)
  | [] => []
  | t :: ts => countedToken t ts ++ counted ts

namespace Lexeme

/-- An operand or a variable. -/
def isLeaf : Lexeme V ω → Bool
  | operand _ | var _ => true
  | _ => false

/-- Has a function as many arguments as it has parameters, unless it takes any number? -/
def isAdmitted : Lexeme V ω → Bool
  | function f => f.isVariadic || f.arguments == some f.parameters
  | _ => true

end Lexeme

section

variable {t : Token V ω} {ts : List (Token V ω)}

theorem separators_bare (h : t.item.isPunctuation = false) :
    separators (t :: ts) = separators ts := by
  obtain ⟨l, p⟩ := t
  funext depth
  cases l with
  | punctuation m => cases h
  | _ => cases depth <;> rfl

theorem separators_open (h : t.item.isOpen = true) :
    separators (t :: ts) = fun depth => separators ts (depth + 1) := by
  funext depth
  cases depth <;> rw [separators, if_pos h]

/-- Any other mark is a separator of the innermost open parenthesis. -/
theorem separators_mark {m : String} (p : Int) (hopen : m ≠ openMark) (hclose : m ≠ closeMark)
    (ts : List (Token V ω)) :
    separators (⟨.punctuation m, p⟩ :: ts) 0 = separators ts 0 + 1 ∧
      (fun depth => separators (⟨.punctuation m, p⟩ :: ts) (depth + 1)) =
        fun depth => separators ts (depth + 1) := by
  have hopen : (Lexeme.punctuation m : Lexeme V ω).isOpen = false := by simpa [Lexeme.isOpen]
  have hclose : (Lexeme.punctuation m : Lexeme V ω).isClose = false := by simpa [Lexeme.isClose]
  constructor
  · rw [separators, hopen, hclose]
    rfl
  · funext depth
    rw [separators, hopen, hclose]
    rfl

/-- The count that a call begins with, and the separators to come, are its arguments. -/
theorem argumentCount_cons (t : Token V ω) (ts : List (Token V ω)) :
    argumentCount (t :: ts) =
      (if Yard.beforeClose (ts.head?.map (·.item)) then 0 else 1) + separators ts 0 := by
  rw [argumentCount]
  split
  · next hclose =>
    obtain ⟨p, us, rfl⟩ := Yard.of_beforeClose hclose
    rfl
  · exact Nat.add_comm _ _

end

/-! ### Operators in the output -/

theorem Operators.reverse {ops : List (Token V ω)} (h : Operators ops) :
    Operators ops.reverse := fun t ht => h t (List.mem_reverse.1 ht)

theorem Operators.filter_isLeaf {ops : List (Token V ω)} (h : Operators ops) :
    (ops.filter fun t => t.item.isLeaf) = [] := by
  refine List.filter_eq_nil_iff.2 ?_
  intro t ht
  obtain ⟨op, hop⟩ := h t ht
  rw [hop]
  exact Bool.false_ne_true

theorem Operators.isAdmitted {ops : List (Token V ω)} (h : Operators ops) :
    ∀ t ∈ ops, t.item.isAdmitted = true := by
  intro t ht
  obtain ⟨op, hop⟩ := h t ht
  rw [hop]
  rfl

/-! ### The stacks of a yard -/

/-- What waits from the innermost open parenthesis on, the calls that are open there, and the
tokens that are due of both.  Of the open parentheses, the one at depth `d` has `more d`
separators still to come. -/
inductive Frames :
    (more : Nat → Nat) → List (Token V ω) → List (Option Nat) → List (Token V ω) → Prop
  | whole {more} : Frames more [] [] []
  | group {more ops waiting calls due} (p : Int) :
      Frames (fun d => more (d + 1)) waiting calls due → Operators ops →
      Frames more (⟨.leftParenthesis, p⟩ :: (ops ++ waiting)) (none :: calls) (ops ++ due)
  | call {more ops waiting calls due k} {f : Function ω} (p q : Int) :
      Frames (fun d => more (d + 1)) waiting calls due → Operators ops →
      Frames more (⟨.leftParenthesis, q⟩ :: ⟨.function f, p⟩ :: (ops ++ waiting))
        (some k :: calls)
        (⟨.function { f with arguments := some ↑(k + more 0) }, p⟩ :: (ops ++ due))

theorem Frames.fenced {more : Nat → Nat} {waiting due : List (Token V ω)}
    {calls : List (Option Nat)} (h : Frames more waiting calls due) : Yard.Fenced waiting := by
  cases h with
  | whole => exact Yard.fenced_nil
  | group => exact Yard.fenced_cons rfl _
  | call => exact Yard.fenced_cons rfl _

/-- A yard in front of `ts`, with the tokens that are due of it.  A function that has just been
read waits on top, and its parenthesis comes next. -/
inductive Aligned : List (Token V ω) → (called : Bool) → Yard V ω → List (Token V ω) → Prop
  | between {ts output ops waiting calls due} :
      Frames (separators ts) waiting calls due → Operators ops →
      Aligned ts false ⟨output, ops ++ waiting, calls⟩ (ops ++ due)
  | called {u ts output ops waiting calls due} {f : Function ω} (p : Int) :
      u.item.isOpen = true → Frames (separators (u :: ts)) waiting calls due → Operators ops →
      Aligned (u :: ts) true ⟨output, ⟨.function f, p⟩ :: (ops ++ waiting), calls⟩
        (⟨.function { f with arguments := some ↑(argumentCount (u :: ts)) }, p⟩ :: (ops ++ due))

/-- Nothing waits above the innermost open parenthesis. -/
theorem Frames.aligned {ts waiting due : List (Token V ω)} {calls : List (Option Nat)}
    (h : Frames (separators ts) waiting calls due) (output : List (Token V ω)) :
    Aligned ts false ⟨output, waiting, calls⟩ due := by
  show Aligned ts false ⟨output, [] ++ waiting, calls⟩ ([] ++ due)
  exact .between h operators_nil

/-- One more operator waits there. -/
theorem Frames.aligned_cons {ts ops waiting due : List (Token V ω)} {calls : List (Option Nat)}
    (h : Frames (separators ts) waiting calls due) (hops : Operators ops) (op : Operator ω)
    (p : Int) (output : List (Token V ω)) :
    Aligned ts false ⟨output, ⟨.operator op, p⟩ :: (ops ++ waiting), calls⟩
      (⟨.operator op, p⟩ :: (ops ++ due)) := by
  show Aligned ts false ⟨output, (⟨.operator op, p⟩ :: ops) ++ waiting, calls⟩
    ((⟨.operator op, p⟩ :: ops) ++ due)
  exact .between h (operators_cons hops)

theorem aligned_empty (ts : List (Token V ω)) :
    Aligned ts (Yard.afterFunction (none : Option (Lexeme V ω))) {} [] :=
  Frames.whole.aligned []

/-- The tokens `read` are read in front of `rest`, and `all` is to come of them in the postfix
list.  Then `new` goes to the output, and `due'` is due of the yard. -/
structure Settles (read all due new due' : List (Token V ω)) : Prop where
  perm : (new ++ due').Perm (all ++ due)
  leaves : (new.filter fun t => t.item.isLeaf) = (read.filter fun t => t.item.isLeaf).reverse
  admitted : ∀ t ∈ new, t.item.isAdmitted = true

/-- From the yard `y`, of which `due` is due, reading the tokens `read` leads to a yard `y'` that
is aligned in front of `rest`, and what has been due and what is to come of the tokens is now in
the output or due of `y'`. -/
def Delivers (read all rest : List (Token V ω)) (called : Bool) (due : List (Token V ω))
    (y y' : Yard V ω) : Prop :=
  ∃ new due', y'.output = new ++ y.output ∧ Aligned rest called y' due' ∧
    Settles read all due new due'

/-- Operators that go to the output have been due. -/
theorem Operators.settles {ops : List (Token V ω)} (h : Operators ops) {t : Token V ω}
    (ht : t.item.isLeaf = false) {all due due' : List (Token V ω)}
    (hdue : (ops ++ due').Perm (all ++ due)) : Settles [t] all due ops.reverse due' where
  perm := ((List.reverse_perm ops).append_right due').trans hdue
  leaves := by
    rw [h.reverse.filter_isLeaf, List.filter_cons_of_neg (by simp [ht])]
    rfl
  admitted := h.reverse.isAdmitted

theorem Settles.trans {t : Token V ω} {ts all all' due due' due'' new new' : List (Token V ω)}
    (h : Settles [t] all due new due') (h' : Settles ts all' due' new' due'') :
    Settles (t :: ts) (all ++ all') due (new' ++ new) due'' where
  perm := calc
    ((new' ++ new) ++ due'').Perm (new ++ (new' ++ due'')) := by
      rw [List.append_assoc]
      exact List.perm_append_comm_assoc new' new due''
    _ |>.Perm (new ++ (all' ++ due')) := h'.perm.append_left new
    _ |>.Perm (all' ++ (new ++ due')) := List.perm_append_comm_assoc new all' due'
    _ |>.Perm (all' ++ (all ++ due)) := h.perm.append_left all'
    _ |>.Perm ((all ++ all') ++ due) := by
      rw [List.append_assoc]
      exact List.perm_append_comm_assoc all' all due
  leaves := by
    rw [List.filter_append, h'.leaves, h.leaves, ← List.reverse_append, ← List.filter_append]
    rfl
  admitted := List.forall_mem_append.2 ⟨h'.admitted, h.admitted⟩

/-! ### One token -/

namespace Aligned

section

variable {ts due : List (Token V ω)} {y : Yard V ω} {t : Token V ω} {b : Bool}
  {op : Operator ω} {f : Function ω} {m : String} {p : Int}

/-- Only an opening parenthesis comes right after a function. -/
theorem eq_false (h : Aligned (t :: ts) b y due) (ht : t.item.isOpen = false) : b = false := by
  cases h with
  | between => rfl
  | called _ hopen =>
    rw [ht] at hopen
    cases hopen

/-- An operand or a variable goes to the output. -/
theorem leaf (h : Aligned (t :: ts) false y due) (ht : t.item.isLeaf = true) :
    Delivers [t] (countedToken t ts) ts false due y { y with output := t :: y.output } := by
  obtain ⟨l, p⟩ := t
  have hmark : l.isPunctuation = false := by
    cases l with
    | punctuation m => cases ht
    | _ => rfl
  have hadmitted : l.isAdmitted = true := by
    cases l with
    | function f => cases ht
    | _ => rfl
  have htoken : countedToken ⟨l, p⟩ ts = [⟨l, p⟩] := by
    cases l with
    | function f => cases ht
    | punctuation m => cases ht
    | _ => rfl
  cases h with
  | between hframes hops =>
    rw [separators_bare hmark] at hframes
    refine ⟨[⟨l, p⟩], _, rfl, .between hframes hops, ?_, ?_, ?_⟩
    · rw [htoken]
    · simp [ht]
    · simpa using hadmitted

/-- An operator before its operand waits. -/
theorem before (h : Aligned (⟨.operator op, p⟩ :: ts) false y due) :
    Delivers [⟨.operator op, p⟩] [⟨.operator op, p⟩] ts false due y
      { y with waiting := ⟨.operator op, p⟩ :: y.waiting } := by
  cases h with
  | between hframes hops =>
    rw [separators_bare rfl] at hframes
    refine ⟨[], _, rfl, hframes.aligned_cons hops op p _, ?_⟩
    exact operators_nil.settles rfl (.refl _)

/-- Any other operator waits after those that go before it. -/
theorem operator (h : Aligned (⟨.operator op, p⟩ :: ts) false y due) :
    Delivers [⟨.operator op, p⟩] [⟨.operator op, p⟩] ts false due y
      { y with
        output := (Yard.popOperators op y.output y.waiting).1
        waiting := ⟨.operator op, p⟩ :: (Yard.popOperators op y.output y.waiting).2 } := by
  cases h with
  | @between _ output ops waiting calls due hframes hops =>
    rw [separators_bare rfl] at hframes
    obtain ⟨popped, rest, rfl, hpop⟩ := Yard.popOperators_append hops hframes.fenced op output
    have hpopped : Operators popped := fun t ht => hops t (List.mem_append_left _ ht)
    have hrest : Operators rest := fun t ht => hops t (List.mem_append_right _ ht)
    simp only [hpop]
    refine ⟨popped.reverse, _, rfl, hframes.aligned_cons hrest op p _, ?_⟩
    refine hpopped.settles rfl ?_
    rw [List.append_assoc]
    exact List.perm_middle

/-- A function waits for its parenthesis. -/
theorem function (h : Aligned (⟨.function f, p⟩ :: t :: ts) false y due)
    (ht : t.item.isOpen = true) :
    Delivers [⟨.function f, p⟩]
      [⟨.function { f with arguments := some ↑(argumentCount (t :: ts)) }, p⟩] (t :: ts) true due y
      { y with waiting := ⟨.function f, p⟩ :: y.waiting } := by
  cases h with
  | between hframes hops =>
    rw [separators_bare rfl] at hframes
    refine ⟨[], _, rfl, .called p ht hframes hops, ?_⟩
    exact operators_nil.settles rfl (.refl _)

/-- A parenthesis that opens no call. -/
theorem group (h : Aligned (⟨.leftParenthesis, p⟩ :: ts) false y due) :
    Delivers [⟨.leftParenthesis, p⟩] [] ts false due y
      { y with waiting := ⟨.leftParenthesis, p⟩ :: y.waiting, calls := none :: y.calls } := by
  cases h with
  | between hframes hops =>
    rw [separators_open rfl] at hframes
    refine ⟨[], _, rfl, (Frames.group p hframes hops).aligned _, ?_⟩
    exact operators_nil.settles rfl (.refl _)

/-- The parenthesis of a call begins its count. -/
theorem call (h : Aligned (⟨.leftParenthesis, p⟩ :: ts) true y due) :
    Delivers [⟨.leftParenthesis, p⟩] [] ts false due y
      { y with
        waiting := ⟨.leftParenthesis, p⟩ :: y.waiting
        calls := some (if Yard.beforeClose (ts.head?.map (·.item)) then 0 else 1) :: y.calls } := by
  cases h with
  | called q _ hframes hops =>
    rw [separators_open rfl] at hframes
    rw [argumentCount_cons]
    refine ⟨[], _, rfl, (Frames.call q p hframes hops).aligned _, ?_⟩
    exact operators_nil.settles rfl (.refl _)

end

section

variable {ts due output ops waiting : List (Token V ω)} {calls : List (Option Nat)}
  {u : Token V ω} {k : Nat} {m : String} {p : Int}

/-- The operators of a group go to the output when it is closed. -/
theorem closeGroup {y : Yard V ω} (h : Aligned (⟨.rightParenthesis, p⟩ :: ts) false y due)
    (hpop : Yard.popToOpen y.output y.waiting = some (output, u, waiting))
    (hcalls : y.calls = none :: calls) :
    Delivers [⟨.rightParenthesis, p⟩] [] ts false due y ⟨output, waiting, calls⟩ := by
  cases h with
  | between hframes hops =>
    cases hframes with
    | whole => cases hcalls
    | call => cases hcalls
    | group q hframes hops' =>
      rw [Yard.popToOpen_bracket hops] at hpop
      cases hpop
      cases hcalls
      exact ⟨_, _, rfl, .between hframes hops', hops.settles rfl (.refl _)⟩

/-- So do those of the last argument, and the function of the call after them. -/
theorem closeCall {y : Yard V ω} {f : Function ω} {q : Int}
    (h : Aligned (⟨.rightParenthesis, p⟩ :: ts) false y due)
    (hpop : Yard.popToOpen y.output y.waiting = some (output, u, ⟨.function f, q⟩ :: waiting))
    (hcalls : y.calls = some k :: calls) (hf : f.admits k = true) :
    Delivers [⟨.rightParenthesis, p⟩] [] ts false due y
      ⟨⟨.function { f with arguments := some ↑k }, q⟩ :: output, waiting, calls⟩ := by
  have hadmitted :
      (Lexeme.function { f with arguments := some ↑k } : Lexeme V ω).isAdmitted = true := by
    show (f.isVariadic || some (k : Int) == some f.parameters) = true
    rw [Function.admits, Bool.or_eq_true, beq_iff_eq] at hf
    rw [Bool.or_eq_true, beq_iff_eq]
    exact hf.imp_right fun hcount => congrArg some hcount.symm
  cases h with
  | between hframes hops =>
    cases hframes with
    | whole => cases hcalls
    | group => cases hcalls
    | call q r hframes hops' =>
      rw [Yard.popToOpen_bracket hops] at hpop
      cases hpop
      cases hcalls
      refine ⟨_ :: _, _, rfl, .between hframes hops', ?_, ?_, ?_⟩
      · exact List.perm_middle.symm.trans ((List.reverse_perm _).append_right _)
      · rw [List.filter_cons_of_neg Bool.false_ne_true, hops.reverse.filter_isLeaf]
        rfl
      · exact List.forall_mem_cons.2 ⟨hadmitted, hops.reverse.isAdmitted⟩

/-- A separator ends an argument and is counted. -/
theorem separate {y : Yard V ω} (h : Aligned (⟨.punctuation m, p⟩ :: ts) false y due)
    (hopen : m ≠ openMark) (hclose : m ≠ closeMark)
    (hpop : Yard.popToOpen y.output y.waiting = some (output, u, waiting))
    (hcalls : y.calls = some k :: calls) :
    Delivers [⟨.punctuation m, p⟩] [] ts false due y
      ⟨output, u :: waiting, some (k + 1) :: calls⟩ := by
  obtain ⟨hcount, hmore⟩ := separators_mark p hopen hclose ts
  cases h with
  | between hframes hops =>
    cases hframes with
    | whole => cases hcalls
    | group => cases hcalls
    | call q r hframes hops' =>
      rw [Yard.popToOpen_bracket hops] at hpop
      cases hpop
      cases hcalls
      rw [hmore] at hframes
      rw [hcount, ← Nat.add_assoc, Nat.add_right_comm]
      exact ⟨_, _, rfl, (Frames.call q r hframes hops').aligned _,
        hops.settles rfl (.refl _)⟩

/-- Every step keeps a yard aligned. -/
theorem moves {y y' : Yard V ω} {previous : Option (Lexeme V ω)} {t : Token V ω}
    (h : Aligned (t :: ts) (Yard.afterFunction previous) y due)
    (hmoves : y.Moves previous (ts.head?.map (·.item)) t y') :
    Delivers [t] (countedToken t ts) ts (Yard.afterFunction (some t.item)) due y y' := by
  generalize hb : Yard.afterFunction previous = b at h
  cases hmoves with
  | operand v p =>
    obtain rfl := h.eq_false rfl
    exact h.leaf rfl
  | var label p =>
    obtain rfl := h.eq_false rfl
    exact h.leaf rfl
  | function f p hnext hopen =>
    obtain rfl := h.eq_false rfl
    rcases ts with _ | ⟨u, us⟩
    · cases hnext
    · obtain rfl := Option.some.inj hnext
      exact h.function hopen
  | before p _ =>
    obtain rfl := h.eq_false rfl
    exact h.before
  | operator p _ =>
    obtain rfl := h.eq_false rfl
    exact h.operator
  | group p hm hprevious _ =>
    subst hm
    obtain rfl := hprevious.symm.trans hb
    exact h.group
  | call p hm hprevious =>
    subst hm
    obtain rfl := hprevious.symm.trans hb
    exact h.call
  | closeGroup p hm hpop hcalls =>
    subst hm
    obtain rfl := h.eq_false rfl
    exact h.closeGroup hpop hcalls
  | closeCall p hm hpop hcalls _ hf =>
    subst hm
    obtain rfl := h.eq_false rfl
    exact h.closeCall hpop hcalls hf
  | separate p hopen hclose hpop hcalls _ =>
    obtain rfl := h.eq_false (by simpa [Lexeme.isOpen])
    exact h.separate hopen hclose hpop hcalls

end

/-! ### Steps that are refused -/

section

variable {ts due : List (Token V ω)} {y : Yard V ω} {m : String} {p : Int}

theorem openAt_ne_corrupt (y : Yard V ω) (t : Token V ω) (previous next : Option (Lexeme V ω)) :
    y.openAt t previous next ≠ .error .corrupt := by
  intro h
  rw [Yard.openAt] at h
  split at h
  · cases h
  · split at h <;> cases h

/-- A closing parenthesis finds a call for the parenthesis that it closes, and the function
of the call below it. -/
theorem closeAt_ne_corrupt {ts' : List (Token V ω)} (h : Aligned ts' false y due) (t : Token V ω)
    (previous : Option (Lexeme V ω)) : y.closeAt t previous ≠ .error .corrupt := by
  intro he
  cases h with
  | between hframes hops =>
    cases hframes with
    | whole =>
      rw [Yard.closeAt, Yard.popToOpen_append hops, Yard.popToOpen] at he
      cases he
    | group q hframes hops' =>
      rw [Yard.closeAt, Yard.popToOpen_bracket hops] at he
      cases he
    | call q r hframes hops' =>
      rw [Yard.closeAt, Yard.popToOpen_bracket hops] at he
      dsimp only at he
      split at he
      · cases he
      · rw [Yard.endCall] at he
        split at he <;> cases he

theorem separateAt_ne_corrupt {ts' : List (Token V ω)} (h : Aligned ts' false y due) (t : Token V ω)
    (previous : Option (Lexeme V ω)) : y.separateAt t previous ≠ .error .corrupt := by
  intro he
  cases h with
  | between hframes hops =>
    cases hframes with
    | whole =>
      rw [Yard.separateAt, Yard.popToOpen_append hops, Yard.popToOpen] at he
      cases he
    | group q hframes hops' =>
      rw [Yard.separateAt, Yard.popToOpen_bracket hops] at he
      cases he
    | call q r hframes hops' =>
      rw [Yard.separateAt, Yard.popToOpen_bracket hops] at he
      dsimp only at he
      split at he <;> cases he

/-- No step looks for an entry that is not there. -/
theorem step_ne_corrupt {b : Bool} {t : Token V ω} (h : Aligned (t :: ts) b y due)
    (previous next : Option (Lexeme V ω)) : y.step previous t next ≠ .error .corrupt := by
  intro he
  obtain ⟨l, p⟩ := t
  cases l with
  | operand v => cases he
  | var label => cases he
  | function f =>
    simp only [Yard.step] at he
    split at he
    · split at he <;> cases he
    · cases he
  | operator op =>
    simp only [Yard.step] at he
    split at he <;> cases he
  | punctuation m =>
    simp only [Yard.step, beq_iff_eq] at he
    split at he
    · exact openAt_ne_corrupt y _ previous next he
    · next hopen =>
      obtain rfl := h.eq_false (by simpa [Lexeme.isOpen])
      split at he
      · exact h.closeAt_ne_corrupt _ previous he
      · exact h.separateAt_ne_corrupt _ previous he

end

end Aligned

/-! ### Runs -/

section

variable {ts due : List (Token V ω)} {y z : Yard V ω} {previous : Option (Lexeme V ω)}

theorem Aligned.run (h : Aligned ts (Yard.afterFunction previous) y due)
    (hrun : y.run previous ts = .ok z) :
    ∃ b, Delivers ts (counted ts) [] b due y z := by
  induction ts generalizing y previous due with
  | nil =>
    rw [← Except.ok.inj hrun]
    exact ⟨_, [], due, rfl, h, ⟨.refl _, rfl, by simp⟩⟩
  | cons t ts ih =>
    obtain ⟨y', hmoves, hrun⟩ := Yard.run_cons_eq_ok.1 hrun
    obtain ⟨new, due', houtput, h', hsettles⟩ := h.moves hmoves
    obtain ⟨b, new', due'', houtput', h'', hsettles'⟩ := ih h' hrun
    refine ⟨b, new' ++ new, due'', ?_, h'', hsettles.trans hsettles'⟩
    rw [houtput', houtput, List.append_assoc]

theorem Aligned.run_ne_corrupt (h : Aligned ts (Yard.afterFunction previous) y due) :
    y.run previous ts ≠ .error .corrupt := by
  intro he
  induction ts generalizing y previous due with
  | nil => cases he
  | cons t ts ih =>
    rcases Yard.run_cons_eq_error.1 he with hstep | ⟨y', hmoves, hrun⟩
    · exact h.step_ne_corrupt _ _ hstep
    · obtain ⟨new, due', -, h', -⟩ := h.moves hmoves
      exact ih h' hrun

theorem flush_ne_corrupt (output waiting : List (Token V ω)) :
    Yard.flush output waiting ≠ .error .corrupt := by
  intro he
  induction waiting generalizing output with
  | nil => cases he
  | cons t waiting ih =>
    rw [Yard.flush] at he
    split at he
    · cases he
    · exact ih _ he

end

/-- The waiting tokens and the open calls never disagree. -/
theorem toPostfix_ne_corrupt (ts : List (Token V ω)) : toPostfix ts ≠ .error .corrupt := by
  intro he
  rcases toPostfix_eq_error.1 he with hrun | ⟨y, -, hflush⟩
  · exact (aligned_empty ts).run_ne_corrupt hrun
  · exact flush_ne_corrupt _ _ hflush

/-- At the end the operators that still wait are due, and nothing else is. -/
theorem Delivers.flush {ts output : List (Token V ω)} {b : Bool} {z : Yard V ω}
    (h : Delivers ts (counted ts) [] b [] {} z)
    (hflush : Yard.flush z.output z.waiting = .ok output) :
    Settles ts (counted ts) [] output [] := by
  obtain ⟨new, due', houtput, haligned, hsettles⟩ := h
  cases haligned with
  | @between _ out ops waiting calls due hframes hops =>
    rw [Yard.flush_append hops] at hflush
    cases hframes with
    | group => cases hflush
    | call => cases hflush
    | whole =>
      obtain rfl := Except.ok.inj hflush
      obtain rfl : out = new := houtput.trans (List.append_nil new)
      refine ⟨?_, ?_, ?_⟩
      · have hswap : (ops.reverse ++ out).Perm (out ++ ops) :=
          ((List.reverse_perm ops).append_right out).trans List.perm_append_comm
        simpa using hswap.trans (by simpa using hsettles.perm)
      · rw [List.filter_append, hops.reverse.filter_isLeaf]
        exact hsettles.leaves
      · exact List.forall_mem_append.2 ⟨hops.reverse.isAdmitted, hsettles.admitted⟩

/-- The output of the yard, last token first, holds what is to come of the tokens. -/
theorem settles_of_toPostfix {ts ps : List (Token V ω)} (h : toPostfix ts = .ok ps) :
    Settles ts (counted ts) [] ps.reverse [] := by
  obtain ⟨z, output, hrun, hflush, rfl⟩ := toPostfix_eq_ok.1 h
  obtain ⟨b, hdelivers⟩ := (aligned_empty ts).run hrun
  rw [List.reverse_reverse]
  exact hdelivers.flush hflush

theorem perm_counted_of_toPostfix {ts ps : List (Token V ω)} (h : toPostfix ts = .ok ps) :
    ps.Perm (counted ts) := by
  have hperm := (settles_of_toPostfix h).perm
  rw [List.append_nil, List.append_nil] at hperm
  exact (List.reverse_perm ps).symm.trans hperm

theorem filter_isLeaf_of_toPostfix {ts ps : List (Token V ω)} (h : toPostfix ts = .ok ps) :
    (ps.filter fun t => t.item.isLeaf) = ts.filter fun t => t.item.isLeaf := by
  have hleaves := (settles_of_toPostfix h).leaves
  rw [List.filter_reverse] at hleaves
  exact List.reverse_inj.1 hleaves

/-- The kinds of error that a list of tokens is refused with. -/
theorem kind_of_toPostfix {ts : List (Token V ω)} {e : ParseError} (h : toPostfix ts = .error e) :
    e.diagnosis.kind ∈ [.mismatchedParenthesis, .unexpectedSeparator, .argumentCount,
      .invalidExpression] := by
  cases e with
  | corrupt => exact absurd h (toPostfix_ne_corrupt ts)
  | _ => simp [ParseError.diagnosis]

/-- **The yard never breaks down and loses nothing.**  Any list of tokens is refused with an
error about it, or its postfix list holds the tokens that are no marks, every function with
the number of its arguments. -/
theorem toPostfix_conserves (ts : List (Token V ω)) :
    (∃ e, toPostfix ts = .error e ∧ e ≠ .corrupt ∧
      e.diagnosis.kind ∈ [.mismatchedParenthesis, .unexpectedSeparator, .argumentCount,
        .invalidExpression]) ∨
    ∃ ps, toPostfix ts = .ok ps ∧ ps.Perm (counted ts) ∧
      (ps.filter fun t => t.item.isLeaf) = (ts.filter fun t => t.item.isLeaf) ∧
      ∀ t ∈ ps, t.item.isAdmitted = true := by
  cases h : toPostfix ts with
  | error e =>
    refine .inl ⟨e, rfl, ?_, kind_of_toPostfix h⟩
    rintro rfl
    exact toPostfix_ne_corrupt ts h
  | ok ps =>
    refine .inr ⟨ps, rfl, perm_counted_of_toPostfix h, filter_isLeaf_of_toPostfix h, ?_⟩
    intro t ht
    exact (settles_of_toPostfix h).admitted t (List.mem_reverse.2 ht)

end Formula
