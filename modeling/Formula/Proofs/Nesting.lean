/-
Formula/Proofs/Nesting.lean

Parentheses that are not closed.  What the yard does with operators, functions and separators
depends on much, but none of it touches the parentheses: at any time those that wait are the
ones that have been opened and not closed, the last one on top (`Moves.unclosed`).

`Unclosed` says the same of a list of tokens without a yard.  Between two parentheses that stay
open, and after the last of them, the list is balanced.  So when a closing parenthesis finds
none that waits, it is the first that closes too much; and a parenthesis that waits after the
last token is the last one that is never closed.

Main statement: `toPostfix_parentheses`.
-/
import Formula.Proofs.Moves

namespace Formula

variable {V ω : Type}

/-! ### Counting parentheses -/

/-- How many parentheses are opened. -/
def opens (ts : List (Token V ω)) : Nat := ts.countP (·.item.isOpen)

/-- How many parentheses are closed. -/
def closes (ts : List (Token V ω)) : Nat := ts.countP (·.item.isClose)

/-- No prefix closes more parentheses than it opens. -/
def Covered (ts : List (Token V ω)) : Prop := ∀ us, us <+: ts → closes us ≤ opens us

/-- A parenthesis that is opened right before the list is closed in it. -/
def ClosedIn (ts : List (Token V ω)) : Prop := ∃ us, us <+: ts ∧ opens us < closes us

/-- Every parenthesis that is opened is closed, and the other way round. -/
structure Balanced (ts : List (Token V ω)) : Prop where
  covered : Covered ts
  settled : opens ts = closes ts

theorem Lexeme.isClose_of_isOpen {l : Lexeme V ω} (h : l.isOpen = true) : l.isClose = false := by
  cases l with
  | punctuation m =>
    obtain rfl : m = openMark := beq_iff_eq.1 h
    rfl
  | _ => cases h

theorem Lexeme.isOpen_of_isClose {l : Lexeme V ω} (h : l.isClose = true) : l.isOpen = false := by
  cases l with
  | punctuation m =>
    obtain rfl : m = closeMark := beq_iff_eq.1 h
    rfl
  | _ => cases h

theorem Lexeme.isPunctuation_of_isOpen {l : Lexeme V ω} (h : l.isOpen = true) :
    l.isPunctuation = true := by
  cases l with
  | punctuation m => rfl
  | _ => cases h

section

variable {ts us vs stack : List (Token V ω)} {t u : Token V ω}

theorem opens_append (ts us : List (Token V ω)) :
    opens (ts ++ us) = opens ts + opens us := List.countP_append

theorem closes_append (ts us : List (Token V ω)) :
    closes (ts ++ us) = closes ts + closes us := List.countP_append

theorem opens_cons (t : Token V ω) (ts : List (Token V ω)) :
    opens (t :: ts) = opens ts + if t.item.isOpen then 1 else 0 := List.countP_cons

theorem closes_cons (t : Token V ω) (ts : List (Token V ω)) :
    closes (t :: ts) = closes ts + if t.item.isClose then 1 else 0 := List.countP_cons

theorem opens_cons_open (h : t.item.isOpen = true) (ts : List (Token V ω)) :
    opens (t :: ts) = opens ts + 1 := by rw [opens_cons, if_pos h]

theorem closes_cons_open (h : t.item.isOpen = true) (ts : List (Token V ω)) :
    closes (t :: ts) = closes ts := by
  rw [closes_cons, Lexeme.isClose_of_isOpen h, if_neg Bool.false_ne_true, Nat.add_zero]

theorem opens_cons_close (h : t.item.isClose = true) (ts : List (Token V ω)) :
    opens (t :: ts) = opens ts := by
  rw [opens_cons, Lexeme.isOpen_of_isClose h, if_neg Bool.false_ne_true, Nat.add_zero]

theorem closes_cons_close (h : t.item.isClose = true) (ts : List (Token V ω)) :
    closes (t :: ts) = closes ts + 1 := by rw [closes_cons, if_pos h]

theorem prefix_append_cases (h : vs <+: ts ++ us) :
    vs <+: ts ∨ ∃ ws, ws <+: us ∧ vs = ts ++ ws := by
  rcases List.prefix_or_prefix_of_prefix h (List.prefix_append ts us) with h' | ⟨ws, rfl⟩
  · exact .inl h'
  · exact .inr ⟨ws, (List.prefix_append_right_inj ts).1 h, rfl⟩

/-! ### Covered and balanced lists -/

theorem Covered.append (hts : Covered ts)
    (hus : ∀ ws, ws <+: us → closes ts + closes ws ≤ opens ts + opens ws) :
    Covered (ts ++ us) := by
  intro vs hvs
  rcases prefix_append_cases hvs with hvs | ⟨ws, hws, rfl⟩
  · exact hts vs hvs
  · rw [closes_append, opens_append]
    exact hus ws hws

theorem balanced_nil : Balanced ([] : List (Token V ω)) where
  covered := by
    intro us hus
    rw [List.prefix_nil.1 hus]
    exact Nat.le_refl 0
  settled := rfl

/-- A token that is no parenthesis. -/
theorem balanced_singleton (hopen : t.item.isOpen = false) (hclose : t.item.isClose = false) :
    Balanced [t] := by
  have hopens : opens [t] = 0 := by rw [opens_cons, hopen]; rfl
  have hcloses : closes [t] = 0 := by rw [closes_cons, hclose]; rfl
  refine ⟨?_, hopens.trans hcloses.symm⟩
  intro us hus
  have hle : closes us ≤ closes [t] := hus.sublist.countP_le
  omega

theorem Balanced.append (hts : Balanced ts) (hus : Balanced us) : Balanced (ts ++ us) where
  covered := hts.covered.append fun ws hws => by
    have := hts.settled
    have := hus.covered ws hws
    omega
  settled := by rw [opens_append, closes_append, hts.settled, hus.settled]

/-- A balanced list between its parentheses. -/
theorem Balanced.enclose (ht : t.item.isOpen = true) (h : Balanced ts)
    (hu : u.item.isClose = true) : Balanced (t :: (ts ++ [u])) := by
  have hopens : opens [u] = 0 := opens_cons_close hu []
  have hcloses : closes [u] = 1 := closes_cons_close hu []
  have hsettled := h.settled
  constructor
  · intro us hus
    rcases List.prefix_cons_iff.1 hus with rfl | ⟨vs, rfl, hvs⟩
    · exact Nat.le_refl _
    · rw [closes_cons_open ht, opens_cons_open ht]
      rcases prefix_append_cases hvs with hvs | ⟨ws, hws, rfl⟩
      · exact Nat.le_succ_of_le (h.covered vs hvs)
      · have hle : closes ws ≤ closes [u] := hws.sublist.countP_le
        rw [closes_append, opens_append]
        omega
  · rw [opens_cons_open ht, closes_cons_open ht, opens_append, closes_append, hopens, hcloses,
      hsettled]

/-- Nothing is closed in a balanced list that was opened before it. -/
theorem Balanced.not_closedIn (h : Balanced ts) : ¬ ClosedIn ts := by
  rintro ⟨us, hus, hlt⟩
  have := h.covered us hus
  omega

/-- What is opened in a balanced list is closed in it. -/
theorem Balanced.closedIn (h : Balanced (us ++ t :: vs)) (ht : t.item.isOpen = true) :
    ClosedIn vs := by
  -- what stands before `t` closes no more than it opens, so the rest makes up for `t`
  refine ⟨vs, List.prefix_refl vs, ?_⟩
  have hsettled := h.settled
  have hus := h.covered us (List.prefix_append us _)
  rw [opens_append, closes_append, opens_cons_open ht, closes_cons_open ht] at hsettled
  omega

end

/-! ### Parentheses that stay open -/

/-- The parentheses of a list that are opened and not closed, the last one first: between
them, everything is balanced. -/
inductive Unclosed : List (Token V ω) → List (Token V ω) → Prop
  | balanced {ts} : Balanced ts → Unclosed ts []
  | opened {us stack t vs} : Unclosed us stack → t.item.isOpen = true → Balanced vs →
      Unclosed (us ++ t :: vs) (t :: stack)

section

variable {ts us stack : List (Token V ω)} {t u : Token V ω}

theorem Unclosed.append (h : Unclosed ts stack) (hus : Balanced us) :
    Unclosed (ts ++ us) stack := by
  cases h with
  | balanced hts => exact .balanced (hts.append hus)
  | opened hws ht hvs =>
    rw [List.append_assoc, List.cons_append]
    exact .opened hws ht (hvs.append hus)

theorem Unclosed.push (h : Unclosed ts stack) (ht : t.item.isOpen = true) :
    Unclosed (ts ++ [t]) (t :: stack) := .opened h ht balanced_nil

/-- A closing parenthesis closes the last one. -/
theorem Unclosed.close (h : Unclosed ts (u :: stack)) (ht : t.item.isClose = true) :
    Unclosed (ts ++ [t]) stack := by
  cases h with
  | opened hus hu hvs =>
    rw [List.append_assoc, List.cons_append]
    exact hus.append (hvs.enclose hu ht)

theorem Unclosed.isOpen (h : Unclosed ts stack) : ∀ u ∈ stack, u.item.isOpen = true := by
  induction h with
  | balanced => simp
  | opened _ ht _ ih => exact List.forall_mem_cons.2 ⟨ht, ih⟩

theorem Unclosed.opens_eq (h : Unclosed ts stack) : opens ts = closes ts + stack.length := by
  induction h with
  | balanced hts => exact hts.settled
  | opened _ ht hvs ih =>
    have := hvs.settled
    rw [opens_append, closes_append, opens_cons_open ht, closes_cons_open ht, List.length_cons]
    omega

theorem Unclosed.covered (h : Unclosed ts stack) : Covered ts := by
  induction h with
  | balanced hts => exact hts.covered
  | @opened us stack t vs hus ht hvs ih =>
    refine ih.append ?_
    intro ws hws
    have hle := ih us (List.prefix_refl us)
    rcases List.prefix_cons_iff.1 hws with rfl | ⟨ws, rfl, hws'⟩
    · exact hle
    · rw [closes_cons_open ht, opens_cons_open ht]
      have := hvs.covered ws hws'
      omega

end

/-! ### The parentheses that wait -/

/-- The structural marks of a list. -/
def marks (ts : List (Token V ω)) : List (Token V ω) := ts.filter (·.item.isPunctuation)

namespace Yard

section

variable {y y' z : Yard V ω} {previous next : Option (Lexeme V ω)} {t u : Token V ω}
  {ts read output output' waiting below : List (Token V ω)} {e : ParseError}

theorem marks_cons_bare (h : t.item.isPunctuation = false) : marks (t :: ts) = marks ts :=
  List.filter_cons_of_neg (by simp [h])

theorem marks_cons_open (h : t.item.isOpen = true) : marks (t :: ts) = t :: marks ts :=
  List.filter_cons_of_pos (Lexeme.isPunctuation_of_isOpen h)

/-- Where all marks are opening parentheses, everything else is no mark. -/
theorem marks_cons_of_not_open (hopen : ∀ u ∈ marks (t :: ts), u.item.isOpen = true)
    (ht : t.item.isOpen = false) : marks (t :: ts) = marks ts := by
  apply marks_cons_bare
  cases hmark : t.item.isPunctuation with
  | false => rfl
  | true =>
    have := hopen t (List.mem_filter.2 ⟨List.mem_cons_self .., hmark⟩)
    rw [ht] at this
    cases this

theorem marks_popOperators (incoming : Operator ω) (output waiting : List (Token V ω)) :
    marks (popOperators incoming output waiting).2 = marks waiting := by
  induction waiting generalizing output with
  | nil => rfl
  | cons top waiting ih =>
    rw [popOperators]
    split
    · next op hop =>
      split
      · rw [ih, marks_cons_bare (by rw [hop]; rfl)]
      · rfl
    · rfl

/-- The parenthesis that is found is the last that waits. -/
theorem marks_of_popToOpen (hopen : ∀ u ∈ marks waiting, u.item.isOpen = true)
    (h : popToOpen output waiting = some (output', u, below)) :
    marks waiting = u :: marks below := by
  induction waiting generalizing output with
  | nil => cases h
  | cons top waiting ih =>
    rw [popToOpen] at h
    split at h
    · next htop =>
      cases h
      exact marks_cons_open htop
    · next htop =>
      have hmarks := marks_cons_of_not_open hopen (by simpa using htop)
      rw [hmarks] at hopen ⊢
      exact ih hopen h

/-- If none is found, none waits. -/
theorem marks_of_popToOpen_eq_none (hopen : ∀ u ∈ marks waiting, u.item.isOpen = true)
    (h : popToOpen output waiting = none) : marks waiting = [] := by
  induction waiting generalizing output with
  | nil => rfl
  | cons top waiting ih =>
    rw [popToOpen] at h
    split at h
    · cases h
    · next htop =>
      have hmarks := marks_cons_of_not_open hopen (by simpa using htop)
      rw [hmarks] at hopen ⊢
      exact ih hopen h

/-- The parentheses that wait after a move are those that are open after the token. -/
theorem Moves.unclosed (h : y.Moves previous next t y') (hy : Unclosed read (marks y.waiting)) :
    Unclosed (read ++ [t]) (marks y'.waiting) := by
  cases h with
  | operand | var => exact hy.append (balanced_singleton rfl rfl)
  | function | before =>
    rw [marks_cons_bare rfl]
    exact hy.append (balanced_singleton rfl rfl)
  | operator =>
    rw [marks_cons_bare rfl, marks_popOperators]
    exact hy.append (balanced_singleton rfl rfl)
  | @group m p hm | @call m p hm =>
    have hopen : (Lexeme.punctuation m : Lexeme V ω).isOpen = true := beq_iff_eq.2 hm
    rw [marks_cons_open hopen]
    exact hy.push hopen
  | closeGroup p hm hpop =>
    rw [marks_of_popToOpen hy.isOpen hpop] at hy
    exact hy.close (beq_iff_eq.2 hm)
  | closeCall p hm hpop =>
    -- the function below the parenthesis is no mark
    rw [marks_of_popToOpen hy.isOpen hpop, marks_cons_bare rfl] at hy
    exact hy.close (beq_iff_eq.2 hm)
  | separate p hopen hclose hpop =>
    have hmarks := marks_of_popToOpen hy.isOpen hpop
    have hu := hy.isOpen _ (hmarks ▸ List.mem_cons_self ..)
    rw [marks_cons_open hu, ← hmarks]
    exact hy.append
      (balanced_singleton (by simpa [Lexeme.isOpen] using hopen)
        (by simpa [Lexeme.isClose] using hclose))

theorem unclosed_of_run (h : y.run previous ts = .ok z) (hy : Unclosed read (marks y.waiting)) :
    Unclosed (read ++ ts) (marks z.waiting) := by
  induction ts generalizing y previous read with
  | nil =>
    obtain rfl := Except.ok.inj h
    rwa [List.append_nil]
  | cons t ts ih =>
    obtain ⟨y', hmoves, hrun⟩ := run_cons_eq_ok.1 h
    have hread := ih hrun (hmoves.unclosed hy)
    rwa [List.append_assoc] at hread

/-! ### Refusals -/

theorem kind_of_refused {α : Type} {e' : ParseError}
    (h : (.error e' : Except ParseError α) = .error e)
    (hkind : e'.diagnosis.kind ≠ .mismatchedParenthesis) :
    e.diagnosis.kind ≠ .mismatchedParenthesis := by
  rwa [← Except.error.inj h]

theorem kind_of_openAt (h : y.openAt t previous next = .error e) :
    e.diagnosis.kind ≠ .mismatchedParenthesis := by
  rw [openAt] at h
  split at h
  · cases h
  · split at h
    · exact kind_of_refused h (by simp [ParseError.diagnosis])
    · cases h

theorem kind_of_separateAt (h : y.separateAt t previous = .error e) :
    e.diagnosis.kind ≠ .mismatchedParenthesis := by
  rw [separateAt.eq_def] at h
  split at h
  · exact kind_of_refused h (by simp [ParseError.diagnosis])
  · exact kind_of_refused h (by simp [ParseError.diagnosis])
  · exact kind_of_refused h (by simp [ParseError.diagnosis])
  · split at h
    · exact kind_of_refused h (by simp [ParseError.diagnosis])
    · cases h

theorem kind_of_endCall {calls : List (Option Nat)} {arguments : Nat}
    (h : endCall output waiting calls arguments = .error e) :
    e.diagnosis.kind ≠ .mismatchedParenthesis := by
  rw [endCall.eq_def] at h
  split at h
  · split at h
    · exact kind_of_refused h (by simp [ParseError.diagnosis])
    · cases h
  · exact kind_of_refused h (by simp [ParseError.diagnosis])

theorem mismatched_of_closeAt (h : y.closeAt t previous = .error e)
    (hkind : e.diagnosis.kind = .mismatchedParenthesis) :
    popToOpen y.output y.waiting = none ∧ e.diagnosis.position = located t.position := by
  rw [closeAt.eq_def] at h
  split at h
  · next hpop =>
    rw [← Except.error.inj h]
    exact ⟨hpop, rfl⟩
  · exact absurd hkind (kind_of_refused h (by simp [ParseError.diagnosis]))
  · cases h
  · split at h
    · exact absurd hkind (kind_of_refused h (by simp [ParseError.diagnosis]))
    · exact absurd hkind (kind_of_endCall h)

/-- Of the tokens that are refused, only a closing parenthesis lacks its counterpart. -/
theorem mismatched_of_step (h : y.step previous t next = .error e)
    (hkind : e.diagnosis.kind = .mismatchedParenthesis) :
    t.item.isClose = true ∧ popToOpen y.output y.waiting = none ∧
      e.diagnosis.position = located t.position := by
  obtain ⟨l, p⟩ := t
  cases l with
  | operand v => cases h
  | var label => cases h
  | function f =>
    simp only [step] at h
    split at h
    · split at h
      · cases h
      · exact absurd hkind (kind_of_refused h (by simp [ParseError.diagnosis]))
    · exact absurd hkind (kind_of_refused h (by simp [ParseError.diagnosis]))
  | operator op =>
    simp only [step] at h
    split at h <;> cases h
  | punctuation m =>
    simp only [step] at h
    split at h
    · exact absurd hkind (kind_of_openAt h)
    · split at h
      · next hclose => exact ⟨hclose, mismatched_of_closeAt h hkind⟩
      · exact absurd hkind (kind_of_separateAt h)

/-- A run is refused for the first closing parenthesis without an opening one. -/
theorem mismatched_of_run (h : y.run previous ts = .error e)
    (hkind : e.diagnosis.kind = .mismatchedParenthesis) (hy : Unclosed read (marks y.waiting)) :
    ∃ us t vs, ts = us ++ t :: vs ∧ t.item.isClose = true ∧ Balanced (read ++ us) ∧
      e.diagnosis.position = located t.position := by
  induction ts generalizing y previous read with
  | nil => cases h
  | cons t ts ih =>
    rcases run_cons_eq_error.1 h with hstep | ⟨y', hmoves, hrun⟩
    · -- no parenthesis waits, so none is open
      obtain ⟨hclose, hpop, hposition⟩ := mismatched_of_step hstep hkind
      rw [marks_of_popToOpen_eq_none hy.isOpen hpop] at hy
      cases hy with
      | balanced hread =>
        exact ⟨[], t, ts, rfl, hclose, by rwa [List.append_nil], hposition⟩
    · obtain ⟨us, u, vs, rfl, hclose, hread, hposition⟩ := ih hrun (hmoves.unclosed hy)
      refine ⟨t :: us, u, vs, rfl, hclose, ?_, hposition⟩
      rwa [List.append_assoc] at hread

/-- What waits at the end is refused for the last parenthesis in it. -/
theorem marks_of_flush (h : flush output waiting = .error e) :
    ∃ t stack, marks waiting = t :: stack ∧ e.diagnosis.position = located t.position := by
  induction waiting generalizing output with
  | nil => cases h
  | cons t waiting ih =>
    rw [flush] at h
    split at h
    · next hmark =>
      rw [← Except.error.inj h]
      exact ⟨t, marks waiting, List.filter_cons_of_pos hmark, rfl⟩
    · next hmark =>
      rw [marks_cons_bare (by simpa using hmark)]
      exact ih h

theorem marks_of_flush_eq_ok (h : flush output waiting = .ok output') : marks waiting = [] := by
  rw [marks, List.filter_eq_nil_iff]
  intro t ht
  simp [isPunctuation_of_flush h t ht]

end

end Yard

/-! ### Parentheses without a counterpart -/

/-- The first parenthesis that closes more than has been opened. -/
def FirstUnopened (ts : List (Token V ω)) (t : Token V ω) : Prop :=
  ∃ us vs, ts = us ++ t :: vs ∧ t.item.isClose = true ∧ Covered us ∧
    opens (us ++ [t]) < closes (us ++ [t])

/-- The last parenthesis that is opened and never closed. -/
def LastUnclosed (ts : List (Token V ω)) (t : Token V ω) : Prop :=
  ∃ us vs, ts = us ++ t :: vs ∧ t.item.isOpen = true ∧ ¬ ClosedIn vs ∧
    ∀ us' u vs', vs = us' ++ u :: vs' → u.item.isOpen = true → ClosedIn vs'

section

variable {ts us vs stack : List (Token V ω)} {t : Token V ω}

theorem Balanced.firstUnopened (h : Balanced us) (ht : t.item.isClose = true)
    (vs : List (Token V ω)) : FirstUnopened (us ++ t :: vs) t := by
  refine ⟨us, vs, rfl, ht, h.covered, ?_⟩
  rw [opens_append, closes_append, opens_cons_close ht, closes_cons_close ht, h.settled]
  exact Nat.lt_succ_self _

theorem Unclosed.lastUnclosed (h : Unclosed ts (t :: stack)) : LastUnclosed ts t := by
  cases h with
  | @opened us _ _ vs _ ht hvs =>
    refine ⟨us, vs, rfl, ht, hvs.not_closedIn, ?_⟩
    rintro us' u vs' rfl hu
    exact hvs.closedIn hu

end

/-- **Parentheses without a counterpart are located.**  If tokens are refused for one, then the
first parenthesis is reported that closes more than has been opened; or there is none, and the
last parenthesis is reported that is never closed.  Tokens that are not refused are balanced. -/
theorem toPostfix_parentheses (ts : List (Token V ω)) :
    (∀ e, toPostfix ts = .error e → e.diagnosis.kind = .mismatchedParenthesis →
      (∃ t, FirstUnopened ts t ∧ e.diagnosis.position = located t.position) ∨
      (Covered ts ∧ closes ts < opens ts ∧
        ∃ t, LastUnclosed ts t ∧ e.diagnosis.position = located t.position)) ∧
    ∀ ps, toPostfix ts = .ok ps → Balanced ts := by
  have hstart : Unclosed [] (marks ({} : Yard V ω).waiting) := .balanced balanced_nil
  constructor
  · intro e h hkind
    rcases toPostfix_eq_error.1 h with hrun | ⟨y, hrun, hflush⟩
    · left
      obtain ⟨us, t, vs, rfl, hclose, hus, hposition⟩ := Yard.mismatched_of_run hrun hkind hstart
      exact ⟨t, hus.firstUnopened hclose vs, hposition⟩
    · right
      obtain ⟨t, stack, hmarks, hposition⟩ := Yard.marks_of_flush hflush
      have hread := Yard.unclosed_of_run hrun hstart
      rw [List.nil_append, hmarks] at hread
      have hopens := hread.opens_eq
      rw [List.length_cons] at hopens
      exact ⟨hread.covered, by omega, t, hread.lastUnclosed, hposition⟩
  · intro ps h
    obtain ⟨y, output, hrun, hflush, -⟩ := toPostfix_eq_ok.1 h
    have hread := Yard.unclosed_of_run hrun hstart
    -- no mark waits at the end, so no parenthesis is open there
    rw [Yard.marks_of_flush_eq_ok hflush] at hread
    cases hread with
    | balanced hts => exact hts

/-- The tokens of `((2)`: of its two opening parentheses, the first one is never closed. -/
def halfClosed : List (Token Int String) :=
  [⟨.leftParenthesis, 0⟩, ⟨.leftParenthesis, 1⟩, ⟨.operand 2, 2⟩, ⟨.rightParenthesis, 3⟩]

theorem toPostfix_parentheses_halfClosed :
    toPostfix halfClosed = .error (.unclosedOpen 0) ∧
      ((∃ t, FirstUnopened halfClosed t ∧ some 0 = located t.position) ∨
      (Covered halfClosed ∧ closes halfClosed < opens halfClosed ∧
        ∃ t, LastUnclosed halfClosed t ∧ some 0 = located t.position)) := by
  have h : toPostfix halfClosed = .error (.unclosedOpen 0) := by rfl
  exact ⟨h, (toPostfix_parentheses halfClosed).1 _ h rfl⟩

end Formula
