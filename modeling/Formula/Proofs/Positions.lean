/-
Formula/Proofs/Positions.lean

The errors of a reader point into the text.  Positions come into being in the lexer and are
never changed after it.  The lexer itself reports the place where it stops (`StopsAt`).  The
yard reports the position of a token: of the one that it refuses, or of one that waits, and
only tokens that have been read wait.  The builder of trees reports the position of a token
of the postfix list, and this holds no tokens but those of the text.

One report has no position, that there is no expression at all.  It is made for blank texts
and for no others: the postfix list of some tokens is empty only if all of them are marks, and
the yard refuses every list of marks but the empty one (`eq_nil_of_toPostfix`).

Main statement: `read_error_located`.
-/
import Formula.Proofs.Conservation
import Formula.Proofs.Coverage
import Formula.Proofs.Postorder
import Formula.Proofs.Words

namespace Formula

variable {V ω : Type}

/-! ### Places in a text -/

namespace Lexicon

/-- The text `s` begins at `position`, and it is read word by word up to `place`, where
nothing can be read. -/
inductive StopsAt (L : Lexicon V ω) (labels : List String) (text : List Char) (e : LexicalError)
    (place : Nat) : Option (Lexeme V ω) → (position : Nat) → List Char → Prop
  | here {previous c s} : Text.isBlank c = false →
      L.next labels (text.take place) previous place c s = .error e →
      StopsAt L labels text e place previous place (c :: s)
  | blank {previous position c s} : Text.isBlank c = true →
      StopsAt L labels text e place previous (position + 1) s →
      StopsAt L labels text e place previous position (c :: s)
  | word {previous position c u rest l} : Text.isBlank c = false →
      L.Finds labels (text.take position) previous c (u ++ rest) l (u.length + 1) →
      StopsAt L labels text e place (some l) (position + (u.length + 1)) rest →
      StopsAt L labels text e place previous position (c :: (u ++ rest))

/-- A token of the text stands at `place`, or reading the text stops there. -/
def Reaches (L : Lexicon V ω) (text : String) (place : Nat) : Prop :=
  (∃ ts, L.tokens text = .ok ts ∧ ∃ t ∈ ts, t.position = place) ∨
    ∃ e, L.StopsAt L.dictionary.labels text.toList e place none 0 text.toList

section

variable {L : Lexicon V ω} {labels : List String} {previous : Option (Lexeme V ω)}
  {e : LexicalError} {position place : Nat} {c : Char} {text before s : List Char}
  {ts : List (Token V ω)}

theorem StopsAt.scan (h : L.StopsAt labels text e place previous position s) :
    L.scan labels text previous 0 position s = .error e := by
  induction h with
  | here hblank hnext => rw [Lexicon.scan, if_neg (by simp [hblank]), hnext]
  | blank hblank _ ih => rw [Lexicon.scan, if_pos hblank, ih]
  | word hblank hfinds _ ih =>
    rw [scan_word hblank hfinds.next, ih]
    rfl

/-- **A text without tokens is read up to some place.** -/
theorem scan_eq_error (hlabels : "" ∉ labels) :
    L.scan labels text previous 0 position s = .error e ↔
      ∃ place, L.StopsAt labels text e place previous position s := by
  constructor
  · intro h
    refine scan_word_induction (motive := fun previous position s r =>
      r = .error e → ∃ place, L.StopsAt labels text e place previous position s)
      hlabels ?_ ?_ ?_ ?_ previous position s h
    · intro previous position he
      cases he
    · intro previous position c s e' hblank hnext he
      rw [Except.error.inj he] at hnext
      exact ⟨position, .here hblank hnext⟩
    · intro previous position c s r hblank ih he
      obtain ⟨place, hplace⟩ := ih he
      exact ⟨place, .blank hblank hplace⟩
    · intro previous position c u rest l r hblank hfinds ih he
      cases r with
      | ok ts => cases he
      | error e' =>
        obtain ⟨place, hplace⟩ := ih (congrArg _ (Except.error.inj he))
        exact ⟨place, .word hblank hfinds hplace⟩
  · rintro ⟨place, hplace⟩
    exact hplace.scan

/-- The place is in the text. -/
theorem StopsAt.place_lt (h : L.StopsAt labels text e place previous position s) :
    place < position + s.length := by
  induction h with
  | here => exact Nat.lt_add_of_pos_right (Nat.succ_pos _)
  | blank _ _ ih =>
    rw [List.length_cons]
    omega
  | word _ _ _ ih =>
    rw [List.length_cons, List.length_append]
    omega

/-- What cannot be read is reported where it is. -/
theorem position_of_next {d : Diagnosis} (h : L.next labels before previous place c s = .error e)
    (hd : e.fault = .engine d) : d.position = some place := by
  simp only [next] at h
  split at h
  · next literal _ =>
    simp only [operand] at h
    split at h
    · cases h
    · split at h
      · obtain rfl := Except.error.inj h
        rw [← Fault.engine.inj hd]
      · obtain rfl := Except.error.inj h
        cases hd
  · split at h
    · split at h
      · cases h
      · obtain rfl := Except.error.inj h
        cases hd
    · split at h
      · cases h
      · split at h
        · cases h
        · obtain rfl := Except.error.inj h
          rw [← Fault.engine.inj hd]

theorem StopsAt.position_eq {d : Diagnosis} (h : L.StopsAt labels text e place previous position s)
    (hd : e.fault = .engine d) : d.position = some place := by
  induction h with
  | here _ hnext => exact position_of_next hnext hd
  | blank _ _ ih => exact ih
  | word _ _ _ ih => exact ih

theorem position_of_mem_implied {l : Lexeme V ω} {t : Token V ω}
    (h : t ∈ implied previous l position) : t.position = position := by
  rw [eq_of_mem_implied h]

/-- Tokens stand in their text. -/
theorem position_of_scan (hlabels : "" ∉ labels)
    (h : L.scan labels text previous 0 position s = .ok ts) :
    ∀ t ∈ ts, ∃ place : Nat, t.position = place ∧ place < position + s.length := by
  refine words_induction (motive := fun _ position s ts =>
    ∀ t ∈ ts, ∃ place : Nat, t.position = place ∧ place < position + s.length) hlabels
    ?_ ?_ ?_ h
  · intro previous position t ht
    cases ht
  · intro previous position c s ts _ ih t ht
    obtain ⟨place, hplace, hlt⟩ := ih t ht
    refine ⟨place, hplace, ?_⟩
    rw [List.length_cons]
    omega
  · intro previous position c u rest l ts _ _ ih t ht
    rcases List.mem_append.1 ht with ht | ht
    · exact ⟨position, position_of_mem_implied ht, Nat.lt_add_of_pos_right (Nat.succ_pos _)⟩
    · rcases List.mem_cons.1 ht with rfl | ht
      · exact ⟨position, rfl, Nat.lt_add_of_pos_right (Nat.succ_pos _)⟩
      · obtain ⟨place, hplace, hlt⟩ := ih t ht
        refine ⟨place, hplace, ?_⟩
        rw [List.length_cons, List.length_append]
        omega

theorem Reaches.lt {text : String} (hD : L.dictionary.Reachable) (h : L.Reaches text place) :
    place < text.length := by
  rw [← String.length_toList, ← Nat.zero_add text.toList.length]
  rcases h with ⟨ts, hts, t, ht, hplace⟩ | ⟨e, hstops⟩
  · obtain ⟨p, hp, hlt⟩ := position_of_scan hD.empty_not_mem_labels hts t ht
    rw [hplace] at hp
    rwa [Int.ofNat.inj hp]
  · exact hstops.place_lt

/-! ### Blank texts -/

theorem scan_of_blank (h : ∀ c ∈ s, Text.isBlank c = true) :
    L.scan labels text previous 0 position s = .ok [] := by
  induction s generalizing position with
  | nil => rfl
  | cons c s ih =>
    obtain ⟨hc, hs⟩ := List.forall_mem_cons.1 h
    rw [Lexicon.scan, if_pos hc]
    exact ih hs

theorem isBlank_of_scan (hlabels : "" ∉ labels)
    (h : L.scan labels text previous 0 position s = .ok []) : ∀ c ∈ s, Text.isBlank c = true := by
  refine words_induction
    (motive := fun _ _ s ts => ts = [] → ∀ c ∈ s, Text.isBlank c = true) hlabels ?_ ?_ ?_ h rfl
  · intro previous position _ c hc
    cases hc
  · intro previous position c s ts hblank ih hts
    exact List.forall_mem_cons.2 ⟨hblank, ih hts⟩
  · intro previous position c u rest l ts _ _ _ hts
    exact absurd hts (by simp)

/-- There are no tokens in a blank text, and only there. -/
theorem tokens_eq_nil (hD : L.dictionary.Reachable) {text : String} :
    L.tokens text = .ok [] ↔ ∀ c ∈ text.toList, Text.isBlank c = true :=
  ⟨isBlank_of_scan hD.empty_not_mem_labels, scan_of_blank⟩

end

end Lexicon

/-! ### Tokens that a yard refuses -/

namespace ParseError

/-- The position of the token that an error is about. -/
def place : ParseError → Option Int
  | unmatchedClose p | unclosedOpen p | straySeparator p | bareFunction _ p | emptyParentheses p
  | missingArgument p | argumentCount _ _ _ p => some p
  | corrupt => none

theorem position_diagnosis (e : ParseError) : e.diagnosis.position = e.place.bind located := by
  cases e <;> rfl

/-- The error is about one of the tokens, unless waiting tokens and open calls disagree. -/
def Concerns (e : ParseError) (ts : List (Token V ω)) : Prop :=
  e = .corrupt ∨ ∃ t ∈ ts, e.place = some t.position

theorem Concerns.mono {e : ParseError} {ts us : List (Token V ω)} (h : e.Concerns ts)
    (hsub : ts ⊆ us) : e.Concerns us :=
  h.imp_right fun ⟨t, ht, hplace⟩ => ⟨t, hsub ht, hplace⟩

/-- An error that a token is refused with is about this token. -/
theorem concerns_of_refused {α : Type} {e e' : ParseError} {t : Token V ω} {ts : List (Token V ω)}
    (h : (.error e' : Except ParseError α) = .error e) (hplace : e'.place = some t.position) :
    e.Concerns (t :: ts) := by
  rw [← Except.error.inj h]
  exact .inr ⟨t, List.mem_cons_self .., hplace⟩

end ParseError

namespace Yard

section

variable {y y' z : Yard V ω} {previous next : Option (Lexeme V ω)} {t : Token V ω}
  {ts output output' waiting waiting' : List (Token V ω)} {e : ParseError}

theorem popOperators_suffix (incoming : Operator ω) (output waiting : List (Token V ω)) :
    (popOperators incoming output waiting).2 <:+ waiting := by
  induction waiting generalizing output with
  | nil => exact List.suffix_refl _
  | cons top waiting ih =>
    rw [popOperators]
    split
    · split
      · exact (ih _).trans (List.suffix_cons top waiting)
      · exact List.suffix_refl _
    · exact List.suffix_refl _

theorem popToOpen_suffix (h : popToOpen output waiting = some (output', t, waiting')) :
    t :: waiting' <:+ waiting := by
  induction waiting generalizing output with
  | nil => cases h
  | cons top waiting ih =>
    rw [popToOpen] at h
    split at h
    · cases h
      exact List.suffix_refl _
    · exact (ih h).trans (List.suffix_cons top waiting)

/-- What waits after a move has waited before, or is the token that is read. -/
theorem Moves.waiting_subset (h : y.Moves previous next t y') : y'.waiting ⊆ t :: y.waiting := by
  cases h with
  | operand | var => exact List.subset_cons_self _ _
  | function | before | group | call => exact List.Subset.refl _
  | operator p _ => exact List.cons_subset_cons _ (popOperators_suffix _ _ _).subset
  | closeGroup p _ hpop _ =>
    intro u hu
    apply List.mem_cons_of_mem
    exact (popToOpen_suffix hpop).subset (List.mem_cons_of_mem _ hu)
  | closeCall p _ hpop _ _ _ =>
    -- the function below the parenthesis goes to the output with it
    intro u hu
    apply List.mem_cons_of_mem
    exact (popToOpen_suffix hpop).subset (List.mem_cons_of_mem _ (List.mem_cons_of_mem _ hu))
  | separate p _ _ hpop _ _ =>
    intro u hu
    apply List.mem_cons_of_mem
    exact (popToOpen_suffix hpop).subset hu

theorem concerns_of_openAt (h : y.openAt t previous next = .error e) :
    e.Concerns (t :: y.waiting) := by
  rw [openAt] at h
  split at h
  · cases h
  · split at h
    · exact ParseError.concerns_of_refused h rfl
    · cases h

/-- The error of a call is about its function, which waits. -/
theorem concerns_of_endCall {calls : List (Option Nat)} {arguments : Nat}
    (h : endCall output waiting calls arguments = .error e) : e.Concerns waiting := by
  rw [endCall.eq_def] at h
  split at h
  · split at h
    · exact ParseError.concerns_of_refused h rfl
    · cases h
  · exact .inl (Except.error.inj h).symm

theorem concerns_of_closeAt (h : y.closeAt t previous = .error e) :
    e.Concerns (t :: y.waiting) := by
  rw [closeAt.eq_def] at h
  split at h
  · exact ParseError.concerns_of_refused h rfl
  · exact .inl (Except.error.inj h).symm
  · cases h
  · next hpop _ =>
    split at h
    · exact ParseError.concerns_of_refused h rfl
    · apply (concerns_of_endCall h).mono
      intro u hu
      apply List.mem_cons_of_mem
      exact (popToOpen_suffix hpop).subset (List.mem_cons_of_mem _ hu)

theorem concerns_of_separateAt (h : y.separateAt t previous = .error e) :
    e.Concerns (t :: y.waiting) := by
  rw [separateAt.eq_def] at h
  split at h
  · exact ParseError.concerns_of_refused h rfl
  · exact .inl (Except.error.inj h).symm
  · exact ParseError.concerns_of_refused h rfl
  · split at h
    · exact ParseError.concerns_of_refused h rfl
    · cases h

/-- A step is refused for the token that it reads, or for one that waits. -/
theorem concerns_of_step (h : y.step previous t next = .error e) :
    e.Concerns (t :: y.waiting) := by
  obtain ⟨l, p⟩ := t
  cases l with
  | operand v => cases h
  | var label => cases h
  | function f =>
    simp only [step] at h
    split at h
    · split at h
      · cases h
      · exact ParseError.concerns_of_refused h rfl
    · exact ParseError.concerns_of_refused h rfl
  | operator op =>
    simp only [step] at h
    split at h <;> cases h
  | punctuation m =>
    simp only [step] at h
    split at h
    · exact concerns_of_openAt h
    · split at h
      · exact concerns_of_closeAt h
      · exact concerns_of_separateAt h

/-- What waits after a run has waited before, or has been read. -/
theorem waiting_subset_of_run (h : y.run previous ts = .ok z) : z.waiting ⊆ ts ++ y.waiting := by
  induction ts generalizing y previous with
  | nil =>
    rw [← Except.ok.inj h]
    exact List.Subset.refl _
  | cons t ts ih =>
    obtain ⟨y', hmoves, hrun⟩ := run_cons_eq_ok.1 h
    intro u hu
    rcases List.mem_append.1 (ih hrun hu) with hu | hu
    · exact List.mem_cons_of_mem _ (List.mem_append_left _ hu)
    · rcases List.mem_cons.1 (hmoves.waiting_subset hu) with rfl | hu
      · exact List.mem_cons_self ..
      · exact List.mem_append_right _ hu

theorem concerns_of_run (h : y.run previous ts = .error e) : e.Concerns (ts ++ y.waiting) := by
  induction ts generalizing y previous with
  | nil => cases h
  | cons t ts ih =>
    rcases run_cons_eq_error.1 h with hstep | ⟨y', hmoves, hrun⟩
    · apply (concerns_of_step hstep).mono
      exact List.cons_subset_cons _ (List.subset_append_right _ _)
    · refine (ih hrun).mono (List.append_subset.2 ⟨?_, ?_⟩)
      · exact List.subset_cons_of_subset _ (List.subset_append_left _ _)
      · apply List.Subset.trans hmoves.waiting_subset
        exact List.cons_subset_cons _ (List.subset_append_right _ _)

theorem concerns_of_flush (h : flush output waiting = .error e) : e.Concerns waiting := by
  induction waiting generalizing output with
  | nil => cases h
  | cons t waiting ih =>
    rw [flush] at h
    split at h
    · exact ParseError.concerns_of_refused h rfl
    · exact (ih h).mono (List.subset_cons_self _ _)

/-- In a list of marks nothing stands between two parentheses, so none of them is closed: as
long as no call is open, all that is read waits. -/
theorem subset_waiting_of_marks (hmarks : ∀ t ∈ ts, t.item.isPunctuation = true)
    (hcalls : ∀ call ∈ y.calls, call = none) (hprevious : afterFunction previous = false)
    (hnext : y.waiting = [] ∨ beforeClose (ts.head?.map (·.item)) = false)
    (h : y.run previous ts = .ok z) : ts ++ y.waiting ⊆ z.waiting := by
  induction ts generalizing y previous with
  | nil =>
    rw [← Except.ok.inj h]
    exact List.Subset.refl _
  | cons t ts ih =>
    obtain ⟨ht, hts⟩ := List.forall_mem_cons.1 hmarks
    obtain ⟨y', hmoves, hrun⟩ := run_cons_eq_ok.1 h
    have noCall : ∀ {k : Nat} {calls : List (Option Nat)}, y.calls ≠ some k :: calls := by
      intro k calls heq
      rw [heq] at hcalls
      cases hcalls (some k) (List.mem_cons_self ..)
    cases hmoves with
    | operand | var | function | before | operator => cases ht
    | @group m p _ _ hclose =>
      have hcalls' : ∀ call ∈ none :: y.calls, call = none :=
        List.forall_mem_cons.2 ⟨rfl, hcalls⟩
      have hrest := ih hts hcalls' rfl (.inr hclose) hrun
      have hperm : ⟨.punctuation m, p⟩ :: (ts ++ y.waiting) ⊆
          ts ++ ⟨.punctuation m, p⟩ :: y.waiting := List.perm_middle.symm.subset
      exact List.Subset.trans hperm hrest
    | call p _ hcall =>
      rw [hprevious] at hcall
      cases hcall
    | closeGroup p hm hpop _ =>
      -- at the beginning nothing is open, and a parenthesis is not closed right after it
      rcases hnext with hempty | hopen
      · rw [hempty] at hpop
        cases hpop
      · subst hm
        cases hopen
    | closeCall p _ _ hcall => exact absurd hcall noCall
    | separate p _ _ _ hcall => exact absurd hcall noCall

end

end Yard

section

variable {ts ps : List (Token V ω)}

/-- A list of tokens is refused for one of its tokens. -/
theorem place_of_toPostfix {e : ParseError} (h : toPostfix ts = .error e) :
    ∃ t ∈ ts, e.place = some t.position := by
  have hconcerns : e.Concerns ts := by
    rcases toPostfix_eq_error.1 h with hrun | ⟨y, hrun, hflush⟩
    · simpa using Yard.concerns_of_run hrun
    · apply (Yard.concerns_of_flush hflush).mono
      simpa using Yard.waiting_subset_of_run hrun
  -- only `corrupt` is about no token, and it is never reported
  refine hconcerns.resolve_left ?_
  rintro rfl
  exact toPostfix_ne_corrupt ts h

/-- What is to come of a list is to come of one of its tokens. -/
theorem mem_counted {u : Token V ω} (h : u ∈ counted ts) :
    ∃ t ∈ ts, ∃ us, u ∈ countedToken t us := by
  induction ts with
  | nil => cases h
  | cons t ts ih =>
    rcases List.mem_append.1 h with hu | hu
    · exact ⟨t, List.mem_cons_self .., ts, hu⟩
    · obtain ⟨v, hv, us, hu⟩ := ih hu
      exact ⟨v, List.mem_cons_of_mem _ hv, us, hu⟩

theorem position_of_mem_countedToken {t u : Token V ω} {us : List (Token V ω)}
    (h : u ∈ countedToken t us) : u.position = t.position := by
  obtain ⟨l, p⟩ := t
  cases l with
  | punctuation m => cases h
  | _ => rw [List.mem_singleton.1 h]

theorem isPunctuation_of_counted_eq_nil (h : counted ts = []) :
    ∀ t ∈ ts, t.item.isPunctuation = true := by
  induction ts with
  | nil => simp
  | cons t ts ih =>
    obtain ⟨ht, hts⟩ := List.append_eq_nil_iff.1 h
    refine List.forall_mem_cons.2 ⟨?_, ih hts⟩
    obtain ⟨l, p⟩ := t
    cases l with
    | punctuation m => rfl
    | _ => cases ht

/-- **Only the empty list has an empty postfix list.** -/
theorem eq_nil_of_toPostfix (h : toPostfix ts = .ok []) : ts = [] := by
  have hmarks : ∀ t ∈ ts, t.item.isPunctuation = true :=
    isPunctuation_of_counted_eq_nil (perm_counted_of_toPostfix h).nil_eq.symm
  obtain ⟨y, output, hrun, hflush, -⟩ := toPostfix_eq_ok.1 h
  have hwaiting : ts ⊆ y.waiting := by
    simpa using Yard.subset_waiting_of_marks hmarks (by simp) rfl (.inl rfl) hrun
  -- any token would be a mark that still waits at the end
  refine List.eq_nil_iff_forall_not_mem.2 ?_
  intro t ht
  have hmark := hmarks t ht
  rw [Yard.isPunctuation_of_flush hflush t (hwaiting ht)] at hmark
  cases hmark

end

/-! ### Tokens that have no place in a tree -/

/-- The token that an error is about. -/
def TreeError.token? : TreeError V ω → Option (Token V ω)
  | emptyExpression => none
  | unexpected t | missingOperand t => some t

theorem TreeError.position_diagnosis (describe : V → String) (e : TreeError V ω) :
    (e.diagnosis describe).position = e.token?.bind fun t => located t.position := by
  cases e <;> rfl

namespace Tree

section

variable {ts ps : List (Token V ω)} {spine : List (Frame V ω)} {e : TreeError V ω}

theorem eq_unexpected_of_extendAll (h : extendAll spine ts = .error e) :
    ∃ t ∈ ts, e = .unexpected t := by
  induction ts generalizing spine with
  | nil => cases h
  | cons t ts ih =>
    rw [extendAll] at h
    split at h
    · next hextend =>
      obtain rfl := Except.error.inj h
      refine ⟨t, List.mem_cons_self .., ?_⟩
      cases spine with
      | nil => cases hextend
      | cons f outer =>
        simp only [extend] at hextend
        split at hextend
        · exact (Except.error.inj hextend).symm
        · cases hextend
    · obtain ⟨u, hu, rfl⟩ := ih h
      exact ⟨u, List.mem_cons_of_mem _ hu, rfl⟩

theorem incompletes?_eq_some {token : Token V ω} {cs : List (Tree V ω)}
    (h : incompletes? cs = some token) : ∃ c ∈ cs, c.incomplete? = some token := by
  induction cs with
  | nil => cases h
  | cons c cs ih =>
    rw [incompletes?] at h
    split at h
    · next hrest =>
      obtain rfl := Option.some.inj h
      obtain ⟨d, hd, hincomplete⟩ := ih hrest
      exact ⟨d, List.mem_cons_of_mem _ hd, hincomplete⟩
    · exact ⟨c, List.mem_cons_self .., h⟩

/-- What is incomplete is in the tree. -/
theorem mem_postorder_of_incomplete? {t : Tree V ω} {token : Token V ω}
    (h : t.incomplete? = some token) : token ∈ t.postorder := by
  induction t using Tree.induction with
  | step root cs ih =>
    rw [incomplete?] at h
    split at h
    · obtain ⟨c, hc, hincomplete⟩ := incompletes?_eq_some h
      exact mem_postorder_node.2 (.inr ⟨c, hc, ih c hc hincomplete⟩)
    · exact mem_postorder_node.2 (.inl (Option.some.inj h).symm)

/-- A list is refused for one of its tokens, or because there are none. -/
theorem token?_of_ofPostfix (h : ofPostfix ps = .error e) :
    (e = .emptyExpression ∧ ps = []) ∨ ∃ t ∈ ps, e.token? = some t := by
  simp only [ofPostfix] at h
  split at h
  · next hread =>
    obtain rfl := Except.error.inj h
    obtain ⟨t, ht, rfl⟩ := eq_unexpected_of_extendAll hread
    exact .inr ⟨t, List.mem_reverse.1 ht, rfl⟩
  · next hread =>
    have htokens := spineTokens_extendAll hread
    refine .inl ⟨(Except.error.inj h).symm, ?_⟩
    simpa [spineTokens] using htokens.symm
  · next f outer hread =>
    split at h
    · next token hincomplete =>
      obtain rfl := Except.error.inj h
      refine .inr ⟨token, ?_, rfl⟩
      rw [← postorder_of_extendAll hread]
      exact mem_postorder_of_incomplete? hincomplete
    · cases h

end

end Tree

/-! ### Errors of a reader -/

/-- The report that there is no expression. -/
def Diagnosis.emptyText : Diagnosis :=
  { kind := .invalidExpression, message := "Empty expression" }

theorem located_natCast (place : Nat) : located place = some place := by
  rw [located, if_neg (by omega)]
  rfl

namespace Reader

variable {R : Reader V ω} {text : String}

/-- The position of a token of the text is reported as it is. -/
theorem reaches_of_mem {ts : List (Token V ω)} {t : Token V ω} (hD : R.dictionary.Reachable)
    (htokens : R.toLexicon.tokens text = .ok ts) (ht : t ∈ ts) :
    ∃ place, located t.position = some place ∧ R.toLexicon.Reaches text place := by
  obtain ⟨place, hplace, -⟩ := Lexicon.position_of_scan hD.empty_not_mem_labels htokens t ht
  refine ⟨place, ?_, .inl ⟨ts, htokens, t, ht, hplace⟩⟩
  rw [hplace, located_natCast]

/-- An error says that there are no tokens, or where it is in the text. -/
theorem reaches_of_read {describe : V → String} {e : ReadError V ω} {d : Diagnosis}
    (hD : R.dictionary.Reachable) (h : R.read text = .error e)
    (hd : e.fault describe = .engine d) :
    (d = .emptyText ∧ R.toLexicon.tokens text = .ok []) ∨
      ∃ place, d.position = some place ∧ R.toLexicon.Reaches text place := by
  rcases read_eq_error.1 h with ⟨e, htokens, rfl⟩ | ⟨ts, e, htokens, hparse, rfl⟩ |
    ⟨ts, ps, e, htokens, hparse, hbuild, rfl⟩
  · obtain ⟨place, hstops⟩ := (Lexicon.scan_eq_error hD.empty_not_mem_labels).1 htokens
    exact .inr ⟨place, hstops.position_eq hd, .inr ⟨e, hstops⟩⟩
  · obtain ⟨t, ht, hplace⟩ := place_of_toPostfix hparse
    rw [← Fault.engine.inj hd, ParseError.position_diagnosis, hplace]
    exact .inr (reaches_of_mem hD htokens ht)
  · rw [← Fault.engine.inj hd]
    rcases Tree.token?_of_ofPostfix hbuild with ⟨rfl, rfl⟩ | ⟨u, hu, htoken⟩
    · obtain rfl := eq_nil_of_toPostfix hparse
      exact .inl ⟨rfl, htokens⟩
    · obtain ⟨t, ht, us, hut⟩ := mem_counted ((perm_counted_of_toPostfix hparse).subset hu)
      rw [TreeError.position_diagnosis, htoken, Option.bind_some,
        position_of_mem_countedToken hut]
      exact .inr (reaches_of_mem hD htokens ht)

/-- **Errors point into the text.**  That there is no expression is reported for the blank
texts; any other error has a position in the text, and a token stands there or reading has
stopped there. -/
theorem read_error_located (hD : R.dictionary.Reachable) (describe : V → String)
    (text : String) :
    ((∃ e, R.read text = .error e ∧ e.fault describe = .engine .emptyText) ↔
        ∀ c ∈ text.toList, Text.isBlank c = true) ∧
      ∀ e d, R.read text = .error e → e.fault describe = .engine d → d ≠ .emptyText →
        ∃ place, d.position = some place ∧ place < text.length ∧
          R.toLexicon.Reaches text place := by
  refine ⟨⟨?_, ?_⟩, ?_⟩
  · rintro ⟨e, h, hd⟩
    rcases reaches_of_read hD h hd with ⟨-, htokens⟩ | ⟨place, hnone, -⟩
    · exact (Lexicon.tokens_eq_nil hD).1 htokens
    · cases hnone
  · intro hblank
    have htokens := (Lexicon.tokens_eq_nil hD).2 hblank
    exact ⟨.tree .emptyExpression,
      read_eq_error.2 (.inr (.inr ⟨[], [], _, htokens, rfl, rfl, rfl⟩)), rfl⟩
  · intro e d h hd hne
    rcases reaches_of_read hD h hd with ⟨hempty, -⟩ | ⟨place, hplace, hreaches⟩
    · exact absurd hempty hne
    · exact ⟨place, hplace, hreaches.lt hD, hreaches⟩

/-- The reader of integers with the predefined operators only. -/
def bareIntegers : Reader Scalar String := integers .empty

/-- What is wrong with `2 (*)`: the multiplication that is implied at the parenthesis is the
first one to lack an operand. -/
def emptyFactor : Diagnosis :=
  { kind := .invalidExpression, message := "Missing operand for '*'", position := some 2 }

theorem read_error_located_emptyFactor :
    bareIntegers.dictionary.Reachable ∧
      (∃ e, bareIntegers.read "2 (*)" = .error e ∧
        e.fault Scalar.text = .engine emptyFactor ∧ emptyFactor ≠ .emptyText) ∧
      ∃ place, emptyFactor.position = some place ∧ place < "2 (*)".length ∧
        bareIntegers.toLexicon.Reaches "2 (*)" place := by
  have hD : bareIntegers.dictionary.Reachable := .empty
  have hread : bareIntegers.read "2 (*)" =
      .error (.tree (.missingOperand ⟨.operator .juxtaposition, 2⟩)) := by rfl
  have hfault : (ReadError.tree (.missingOperand ⟨.operator .juxtaposition, 2⟩) :
      ReadError Scalar String).fault Scalar.text = .engine emptyFactor := by decide
  have hne : emptyFactor ≠ .emptyText := by decide
  exact ⟨hD, ⟨_, hread, hfault, hne⟩,
    (read_error_located hD Scalar.text "2 (*)").2 _ _ hread hfault hne⟩

end Reader

end Formula
