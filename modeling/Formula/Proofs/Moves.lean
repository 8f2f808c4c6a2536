/-
Formula/Proofs/Moves.lean

What one token can do to a yard.  `Moves` lists the cases, each with what it needs of the
yard and of the tokens around it, and with the yard that it leads to.  A step that is not
refused is one of them, and nothing else is (`step_eq_ok`); so what all steps keep is
shown by cases on `Moves`, without opening `step` again.

Main statements: `step_eq_ok` and, for a whole list, `toPostfix_eq_ok` and `toPostfix_eq_error`.
-/
import Formula.Grammar
import Formula.Postfix

namespace Formula

variable {V ω : Type}

namespace Yard

/-- Between `previous` and `next`, the token moves the yard. -/
inductive Moves (y : Yard V ω) (previous next : Option (Lexeme V ω)) :
    Token V ω → Yard V ω → Prop
  | operand (v : V) (p : Int) :
      Moves y previous next ⟨.operand v, p⟩ { y with output := ⟨.operand v, p⟩ :: y.output }
  | var (label : String) (p : Int) :
      Moves y previous next ⟨.var label, p⟩ { y with output := ⟨.var label, p⟩ :: y.output }
  | function {l : Lexeme V ω} (f : Function ω) (p : Int) : next = some l → l.isOpen = true →
      Moves y previous next ⟨.function f, p⟩ { y with waiting := ⟨.function f, p⟩ :: y.waiting }
  | before {op : Operator ω} (p : Int) : op.isPrefix = true →
      Moves y previous next ⟨.operator op, p⟩ { y with waiting := ⟨.operator op, p⟩ :: y.waiting }
  | operator {op : Operator ω} (p : Int) : op.isPrefix = false →
      Moves y previous next ⟨.operator op, p⟩
        { y with
          output := (popOperators op y.output y.waiting).1
          waiting := ⟨.operator op, p⟩ :: (popOperators op y.output y.waiting).2 }
  | group {m : String} (p : Int) : m = openMark → afterFunction previous = false →
      beforeClose next = false →
      Moves y previous next ⟨.punctuation m, p⟩
        { y with waiting := ⟨.punctuation m, p⟩ :: y.waiting, calls := none :: y.calls }
  | call {m : String} (p : Int) : m = openMark → afterFunction previous = true →
      Moves y previous next ⟨.punctuation m, p⟩
        { y with
          waiting := ⟨.punctuation m, p⟩ :: y.waiting
          calls := some (if beforeClose next then 0 else 1) :: y.calls }
  | closeGroup {m : String} {output waiting : List (Token V ω)} {u : Token V ω}
      {calls : List (Option Nat)} (p : Int) : m = closeMark →
      popToOpen y.output y.waiting = some (output, u, waiting) → y.calls = none :: calls →
      Moves y previous next ⟨.punctuation m, p⟩ ⟨output, waiting, calls⟩
  | closeCall {m : String} {output waiting : List (Token V ω)} {u : Token V ω}
      {calls : List (Option Nat)} {f : Function ω} {k : Nat} {q : Int} (p : Int) :
      m = closeMark →
      popToOpen y.output y.waiting = some (output, u, ⟨.function f, q⟩ :: waiting) →
      y.calls = some k :: calls → (!afterOpen previous && argumentMissing previous) = false →
      f.admits k = true →
      Moves y previous next ⟨.punctuation m, p⟩
        ⟨⟨.function { f with arguments := some k }, q⟩ :: output, waiting, calls⟩
  | separate {m : String} {output waiting : List (Token V ω)} {u : Token V ω}
      {calls : List (Option Nat)} {k : Nat} (p : Int) : m ≠ openMark → m ≠ closeMark →
      popToOpen y.output y.waiting = some (output, u, waiting) → y.calls = some k :: calls →
      argumentMissing previous = false →
      Moves y previous next ⟨.punctuation m, p⟩ ⟨output, u :: waiting, some (k + 1) :: calls⟩

section

variable {y y' : Yard V ω} {previous next : Option (Lexeme V ω)} {t : Token V ω}

theorem not_refused_iff {f : Function ω} {k : Nat} :
    (!f.isVariadic && f.parameters != k) = false ↔ f.admits k = true := by
  rw [Function.admits]
  cases f.isVariadic <;> simp [bne]

/-- A call ends with the function below its parenthesis, and with a number of arguments that
this function admits. -/
theorem endCall_eq_ok {output waiting : List (Token V ω)} {calls : List (Option Nat)} {k : Nat} :
    endCall output waiting calls k = .ok y' ↔
      ∃ f p below, waiting = ⟨.function f, p⟩ :: below ∧ f.admits k = true ∧
        y' = ⟨⟨.function { f with arguments := some k }, p⟩ :: output, below, calls⟩ := by
  constructor
  · intro h
    rw [endCall.eq_def] at h
    split at h
    · next f p below =>
      split at h
      · cases h
      · next hadmits =>
        exact ⟨f, p, below, rfl, not_refused_iff.1 (by simpa using hadmits),
          (Except.ok.inj h).symm⟩
    · cases h
  · rintro ⟨f, p, below, rfl, hf, rfl⟩
    rw [endCall, not_refused_iff.2 hf, if_neg Bool.false_ne_true]

theorem moves_of_openAt {m : String} {p : Int} (hm : m = openMark)
    (h : y.openAt ⟨.punctuation m, p⟩ previous next = .ok y') :
    y.Moves previous next ⟨.punctuation m, p⟩ y' := by
  rw [openAt] at h
  split at h
  · next hprev =>
    rw [← Except.ok.inj h]
    exact .call p hm hprev
  · next hprev =>
    split at h
    · cases h
    · next hnext =>
      rw [← Except.ok.inj h]
      exact .group p hm (by simpa using hprev) (by simpa using hnext)

theorem moves_of_closeAt {m : String} {p : Int} (hm : m = closeMark)
    (h : y.closeAt ⟨.punctuation m, p⟩ previous = .ok y') :
    y.Moves previous next ⟨.punctuation m, p⟩ y' := by
  rw [closeAt.eq_def] at h
  split at h
  · cases h
  · cases h
  · next hpop hcalls =>
    rw [← Except.ok.inj h]
    exact .closeGroup p hm hpop hcalls
  · next hpop hcalls =>
    split at h
    · cases h
    · next hmissing =>
      obtain ⟨f, q, below, rfl, hf, rfl⟩ := endCall_eq_ok.1 h
      exact .closeCall p hm hpop hcalls (by simpa using hmissing) hf

theorem moves_of_separateAt {m : String} {p : Int} (hopen : m ≠ openMark) (hclose : m ≠ closeMark)
    (h : y.separateAt ⟨.punctuation m, p⟩ previous = .ok y') :
    y.Moves previous next ⟨.punctuation m, p⟩ y' := by
  rw [separateAt.eq_def] at h
  split at h
  · cases h
  · cases h
  · cases h
  · next hpop hcalls =>
    split at h
    · cases h
    · next hmissing =>
      rw [← Except.ok.inj h]
      exact .separate p hopen hclose hpop hcalls (by simpa using hmissing)

/-- A step that is not refused. -/
theorem moves_of_step (h : y.step previous t next = .ok y') : y.Moves previous next t y' := by
  obtain ⟨l, p⟩ := t
  cases l with
  | operand v =>
    rw [← Except.ok.inj h]
    exact .operand v p
  | var label =>
    rw [← Except.ok.inj h]
    exact .var label p
  | function f =>
    simp only [step] at h
    split at h
    · next l =>
      split at h
      · next hopen =>
        rw [← Except.ok.inj h]
        exact .function f p rfl hopen
      · cases h
    · cases h
  | operator op =>
    simp only [step] at h
    split at h
    · next hop =>
      rw [← Except.ok.inj h]
      exact .before p hop
    · next hop =>
      rw [← Except.ok.inj h]
      exact .operator p (by simpa using hop)
  | punctuation m =>
    -- any other mark is read as a separator, so both parentheses are excluded for it
    simp only [step] at h
    split at h
    · next hm => exact moves_of_openAt (beq_iff_eq.1 hm) h
    · next hopen =>
      split at h
      · next hm => exact moves_of_closeAt (beq_iff_eq.1 hm) h
      · next hclose =>
        exact moves_of_separateAt (by simpa using hopen) (by simpa using hclose) h

/-- None of the moves is refused. -/
theorem Moves.step (h : y.Moves previous next t y') : y.step previous t next = .ok y' := by
  cases h with
  | operand v p => rfl
  | var label p => rfl
  | function f p hnext hopen =>
    simp only [Yard.step, hnext, hopen, if_true]
  | before p hop => simp only [Yard.step, hop, if_true]
  | operator p hop => simp only [Yard.step, hop, Bool.false_eq_true, if_false]
  | group p hm hprev hnext =>
    subst hm
    show y.openAt _ previous next = _
    rw [openAt, hprev, if_neg Bool.false_ne_true, hnext, if_neg Bool.false_ne_true]
  | call p hm hprev =>
    subst hm
    show y.openAt _ previous next = _
    rw [openAt, if_pos hprev]
  | closeGroup p hm hpop hcalls =>
    subst hm
    show y.closeAt _ previous = _
    rw [closeAt, hpop, hcalls]
  | closeCall p hm hpop hcalls hmissing hf =>
    subst hm
    show y.closeAt _ previous = _
    rw [closeAt, hpop, hcalls]
    simp only [hmissing, Bool.false_eq_true, if_false]
    exact endCall_eq_ok.2 ⟨_, _, _, rfl, hf, rfl⟩
  | separate p hopen hclose hpop hcalls hmissing =>
    simp only [Yard.step, beq_iff_eq, if_neg hopen, if_neg hclose]
    rw [separateAt, hpop, hcalls]
    simp only [hmissing, Bool.false_eq_true, if_false]

/-- **A step that is not refused is a move.** -/
theorem step_eq_ok : y.step previous t next = .ok y' ↔ y.Moves previous next t y' :=
  ⟨moves_of_step, Moves.step⟩

/-- A run that is not refused begins with a move. -/
theorem run_cons_eq_ok {z : Yard V ω} {ts : List (Token V ω)} :
    y.run previous (t :: ts) = .ok z ↔
      ∃ y', y.Moves previous (ts.head?.map (·.item)) t y' ∧ y'.run (some t.item) ts = .ok z := by
  rw [run]
  constructor
  · intro h
    split at h
    · cases h
    · next y' hstep => exact ⟨y', moves_of_step hstep, h⟩
  · rintro ⟨y', hmoves, hrun⟩
    rw [hmoves.step]
    exact hrun

/-- A run is refused at the first token, or after a move. -/
theorem run_cons_eq_error {e : ParseError} {ts : List (Token V ω)} :
    y.run previous (t :: ts) = .error e ↔
      y.step previous t (ts.head?.map (·.item)) = .error e ∨
        ∃ y', y.Moves previous (ts.head?.map (·.item)) t y' ∧
          y'.run (some t.item) ts = .error e := by
  rw [run]
  constructor
  · intro h
    split at h
    · next hstep =>
      obtain rfl := Except.error.inj h
      exact .inl hstep
    · next y' hstep => exact .inr ⟨y', moves_of_step hstep, h⟩
  · rintro (hstep | ⟨y', hmoves, hrun⟩)
    · rw [hstep]
    · rw [hmoves.step]
      exact hrun

theorem run_of_moves {ts : List (Token V ω)}
    (h : y.Moves previous (ts.head?.map (·.item)) t y') :
    y.run previous (t :: ts) = y'.run (some t.item) ts := by
  rw [run, h.step]

/-- No mark waits at the end. -/
theorem isPunctuation_of_flush {output output' waiting : List (Token V ω)}
    (h : flush output waiting = .ok output') : ∀ t ∈ waiting, t.item.isPunctuation = false := by
  induction waiting generalizing output with
  | nil => simp
  | cons t waiting ih =>
    rw [flush] at h
    split at h
    · cases h
    · next hmark => exact List.forall_mem_cons.2 ⟨by simpa using hmark, ih h⟩

end

end Yard

/-- A postfix list is the output of the yard after all tokens, when all that waits has been
taken off the stack. -/
theorem toPostfix_eq_ok {ts ps : List (Token V ω)} :
    toPostfix ts = .ok ps ↔ ∃ y output, Yard.run {} none ts = .ok y ∧
      Yard.flush y.output y.waiting = .ok output ∧ ps = output.reverse := by
  rw [toPostfix]
  constructor
  · intro h
    split at h
    · cases h
    · next y hrun =>
      cases hflush : Yard.flush y.output y.waiting with
      | error e =>
        rw [hflush] at h
        cases h
      | ok output =>
        rw [hflush] at h
        exact ⟨y, output, hrun, hflush, (Except.ok.inj h).symm⟩
  · rintro ⟨y, output, hrun, hflush, rfl⟩
    simp only [hrun, hflush]
    rfl

/-- Tokens are refused while they are read, or for what waits after the last of them. -/
theorem toPostfix_eq_error {ts : List (Token V ω)} {e : ParseError} :
    toPostfix ts = .error e ↔ Yard.run {} none ts = .error e ∨
      ∃ y, Yard.run {} none ts = .ok y ∧ Yard.flush y.output y.waiting = .error e := by
  rw [toPostfix]
  constructor
  · intro h
    split at h
    · next hrun =>
      obtain rfl := Except.error.inj h
      exact .inl hrun
    · next y hrun =>
      cases hflush : Yard.flush y.output y.waiting with
      | error e' =>
        rw [hflush] at h
        obtain rfl := Except.error.inj h
        exact .inr ⟨y, hrun, hflush⟩
      | ok output =>
        rw [hflush] at h
        cases h
  · rintro (hrun | ⟨y, hrun, hflush⟩)
    · rw [hrun]
    · simp only [hrun, hflush]
      rfl

end Formula
