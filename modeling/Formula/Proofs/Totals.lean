/-
Formula/Proofs/Totals.lean

What the yard does to sums over tokens.  It moves tokens about, drops structural marks, and
counts the arguments of calls; so the sum of anything that does not depend on marks or
counts is the same for a list of tokens and for its postfix list.

Main statement: `total_toPostfix`.
-/
import Formula.Proofs.Moves

namespace Formula

variable {V ω : Type}

/-! ### Totals -/

section

variable {α β : Type}

/-- What the elements of a list weigh together. -/
def total (w : α → Int) : List α → Int
  | [] => 0
  | a :: as => w a + total w as

variable {w : α → Int}

theorem total_nil : total w [] = 0 := rfl

theorem total_cons (a : α) (as : List α) : total w (a :: as) = w a + total w as := rfl

theorem total_append (as bs : List α) : total w (as ++ bs) = total w as + total w bs := by
  induction as with
  | nil => rw [List.nil_append, total_nil, Int.zero_add]
  | cons a as ih => rw [List.cons_append, total_cons, total_cons, ih, Int.add_assoc]

theorem total_reverse (as : List α) : total w as.reverse = total w as := by
  induction as with
  | nil => rfl
  | cons a as ih =>
    rw [List.reverse_cons, total_append, ih, total_cons, total_cons, total_nil]
    omega

theorem total_map (f : β → α) (bs : List β) :
    total w (bs.map f) = total (fun b => w (f b)) bs := by
  induction bs with
  | nil => rfl
  | cons b bs ih => rw [List.map_cons, total_cons, total_cons, ih]

end

section

variable {w : Lexeme V ω → Int}

/-- Neither structural marks nor the number of arguments weigh anything. -/
structure Weightless (w : Lexeme V ω → Int) : Prop where
  mark : ∀ m, w (.punctuation m) = 0
  arguments : ∀ (f : Function ω) (k : Option Int),
    w (.function { f with arguments := k }) = w (.function f)

namespace Yard

/-- What the tokens in a yard weigh. -/
def total (w : Lexeme V ω → Int) (y : Yard V ω) : Int :=
  Formula.total w (y.output.map (·.item)) + Formula.total w (y.waiting.map (·.item))

theorem total_mk (output waiting : List (Token V ω)) (calls : List (Option Nat)) :
    (⟨output, waiting, calls⟩ : Yard V ω).total w =
      Formula.total w (output.map (·.item)) + Formula.total w (waiting.map (·.item)) := rfl

theorem total_output (y : Yard V ω) (t : Token V ω) :
    ({ y with output := t :: y.output } : Yard V ω).total w = y.total w + w t.item := by
  rw [total_mk, List.map_cons, total_cons, total]
  omega

theorem total_waiting (y : Yard V ω) (t : Token V ω) (calls : List (Option Nat)) :
    (⟨y.output, t :: y.waiting, calls⟩ : Yard V ω).total w = y.total w + w t.item := by
  rw [total_mk, List.map_cons, total_cons, total]
  omega

theorem total_popOperators (c : Operator ω) (output waiting : List (Token V ω)) :
    Formula.total w ((popOperators c output waiting).1.map (·.item)) +
        Formula.total w ((popOperators c output waiting).2.map (·.item)) =
      Formula.total w (output.map (·.item)) + Formula.total w (waiting.map (·.item)) := by
  induction waiting generalizing output with
  | nil => rfl
  | cons t waiting ih =>
    rw [popOperators]
    split
    · split
      · rw [ih, List.map_cons, List.map_cons, total_cons, total_cons]
        omega
      · rfl
    · rfl

theorem total_popToOpen {output output' waiting waiting' : List (Token V ω)} {t : Token V ω}
    (h : popToOpen output waiting = some (output', t, waiting')) :
    Formula.total w (output'.map (·.item)) + (w t.item + Formula.total w (waiting'.map (·.item))) =
        Formula.total w (output.map (·.item)) + Formula.total w (waiting.map (·.item)) ∧
      t.item.isOpen = true := by
  induction waiting generalizing output with
  | nil => cases h
  | cons u waiting ih =>
    rw [popToOpen] at h
    split at h
    · next hopen =>
      cases h
      rw [List.map_cons, total_cons]
      exact ⟨rfl, hopen⟩
    · obtain ⟨htotal, hopen⟩ := ih h
      refine ⟨?_, hopen⟩
      rw [htotal, List.map_cons, List.map_cons, total_cons, total_cons]
      omega

theorem total_flush {output waiting ps : List (Token V ω)} (h : flush output waiting = .ok ps) :
    Formula.total w (ps.map (·.item)) =
      Formula.total w (output.map (·.item)) + Formula.total w (waiting.map (·.item)) := by
  induction waiting generalizing output with
  | nil =>
    rw [← Except.ok.inj h, List.map_nil, total_nil, Int.add_zero]
  | cons t waiting ih =>
    rw [flush] at h
    split at h
    · cases h
    · rw [ih h, List.map_cons, List.map_cons, total_cons, total_cons]
      omega

theorem weight_of_isOpen (hw : Weightless w) {l : Lexeme V ω} (h : l.isOpen = true) : w l = 0 := by
  cases l with
  | punctuation m => exact hw.mark m
  | _ => cases h

/-- What is taken off the stack at a closing parenthesis or a separator stays. -/
theorem total_of_popToOpen (hw : Weightless w) {y : Yard V ω} {output waiting : List (Token V ω)}
    {t : Token V ω} (h : popToOpen y.output y.waiting = some (output, t, waiting)) :
    Formula.total w (output.map (·.item)) + Formula.total w (waiting.map (·.item)) = y.total w ∧
      w t.item = 0 := by
  obtain ⟨htotal, hopen⟩ := total_popToOpen (w := w) h
  have hzero := weight_of_isOpen hw hopen
  rw [hzero, Int.zero_add] at htotal
  exact ⟨htotal, hzero⟩

/-- A token adds what it weighs. -/
theorem Moves.total (hw : Weightless w) {y y' : Yard V ω} {previous next : Option (Lexeme V ω)}
    {t : Token V ω} (h : y.Moves previous next t y') : y'.total w = y.total w + w t.item := by
  cases h with
  | operand v p | var label p => exact total_output y _
  | function f p _ _ => exact total_waiting y _ y.calls
  | before p _ => exact total_waiting y _ y.calls
  | @operator op p _ =>
    have hpop := total_popOperators (w := w) op y.output y.waiting
    rw [total_mk, List.map_cons, total_cons, Yard.total]
    omega
  | group p _ _ _ | call p _ _ => exact total_waiting y _ _
  | closeGroup p _ hpop _ =>
    rw [total_mk, (total_of_popToOpen hw hpop).1, hw.mark, Int.add_zero]
  | closeCall p _ hpop _ _ _ =>
    obtain ⟨htotal, -⟩ := total_of_popToOpen hw hpop
    rw [List.map_cons, total_cons] at htotal
    rw [total_mk, List.map_cons, total_cons, hw.arguments, hw.mark]
    dsimp only at htotal ⊢
    omega
  | separate p _ _ hpop _ _ =>
    obtain ⟨htotal, hzero⟩ := total_of_popToOpen hw hpop
    rw [total_mk, List.map_cons, total_cons, hzero, Int.zero_add, htotal, hw.mark, Int.add_zero]

theorem total_run (hw : Weightless w) {ts : List (Token V ω)} {y y' : Yard V ω}
    {previous : Option (Lexeme V ω)} (h : y.run previous ts = .ok y') :
    y'.total w = y.total w + Formula.total w (ts.map (·.item)) := by
  induction ts generalizing y previous with
  | nil =>
    rw [← Except.ok.inj h, List.map_nil, total_nil, Int.add_zero]
  | cons t ts ih =>
    obtain ⟨y₁, hmoves, hrun⟩ := run_cons_eq_ok.1 h
    rw [ih hrun, hmoves.total hw, List.map_cons, total_cons, Int.add_assoc]

end Yard

/-- **A postfix list weighs as much as the list it comes from.** -/
theorem total_toPostfix (hw : Weightless w) {ts ps : List (Token V ω)}
    (h : toPostfix ts = .ok ps) : total w (ps.map (·.item)) = total w (ts.map (·.item)) := by
  obtain ⟨y, output, hrun, hflush, rfl⟩ := toPostfix_eq_ok.1 h
  have hyard := Yard.total_run hw hrun
  have hzero : (({} : Yard V ω).total w) = 0 := rfl
  rw [hzero, Int.zero_add] at hyard
  rw [List.map_reverse, total_reverse, Yard.total_flush hflush]
  exact hyard

end

end Formula
