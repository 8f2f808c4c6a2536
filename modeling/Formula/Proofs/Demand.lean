/-
Formula/Proofs/Demand.lean

Why a postfix list never has a token too many.  It is read from its end, and every token that
is read takes one of the open places and opens as many as its arity.  `HasPlaces n` says of
tokens in this order that each of them finds a place, where `n` places are open at first.

The yard gives its output such an order, whatever the text.  An operator or a function that
waits owes places to what is in the output, besides the one that it takes itself (`owed`), and
the operand before the next token has another one.  As no two operands meet, each of them finds
its place when it goes to the output, and the operators and functions that go there later open
the places that they owe (`Demands`).  A text may leave places open, but it fills none twice.

Main statement: `ofPostfix_lacks_operands`.
-/
import Formula.Proofs.Acceptance
import Formula.Proofs.Positions

namespace Formula

variable {V ω : Type}

/-! ### Open places -/

/-- Every token finds one of `n` places open, where each takes one and opens as many as its
arity. -/
def HasPlaces : Int → List (Token V ω) → Prop
  | n, [] => 0 ≤ n
  | n, t :: ts => 1 ≤ n ∧ HasPlaces (n - t.item.weight) ts

section

variable {n m : Int} {ts us ops output : List (Token V ω)}

theorem HasPlaces.nonneg (h : HasPlaces n ts) : 0 ≤ n := by
  cases ts with
  | nil => exact h
  | cons t ts => exact Int.le_trans (by decide) h.1

theorem HasPlaces.mono (h : HasPlaces n ts) (hnm : n ≤ m) : HasPlaces m ts := by
  induction ts generalizing n m with
  | nil => exact Int.le_trans h hnm
  | cons t ts ih => exact ⟨Int.le_trans h.1 hnm, ih h.2 (Int.sub_le_sub_right hnm _)⟩

theorem HasPlaces.of_append (h : HasPlaces n (us ++ ts)) : HasPlaces (n - weigh us) ts := by
  induction us generalizing n with
  | nil => rwa [weigh_nil, Int.sub_zero]
  | cons u us ih =>
    have hts := ih h.2
    rwa [Int.sub_sub] at hts

theorem Operators.weigh_nonpos (h : Operators ops) : weigh ops ≤ 0 := by
  induction ops with
  | nil => exact Int.le_refl 0
  | cons t ops ih =>
    obtain ⟨op, hop⟩ := h t (List.mem_cons_self ..)
    have hops := ih fun u hu => h u (List.mem_cons_of_mem _ hu)
    have hweight : t.item.weight ≤ 0 := by
      rw [hop]
      cases hbinary : op.isBinary with
      | true =>
        rw [Lexeme.weight_of_isBinary hbinary]
        decide
      | false => exact Int.le_of_eq (Lexeme.weight_of_not_isBinary hbinary)
    rw [weigh_cons]
    omega

/-- Operators that come off the stack leave a place open wherever they find one. -/
theorem HasPlaces.operators (hops : Operators ops) (hn : 1 ≤ n)
    (h : HasPlaces (n - weigh ops) output) : HasPlaces n (ops.reverse ++ output) := by
  induction ops generalizing output with
  | nil => rwa [weigh_nil, Int.sub_zero] at h
  | cons t ops ih =>
    have hrest : Operators ops := fun u hu => hops u (List.mem_cons_of_mem _ hu)
    -- `t` is the last of the operators that comes, when the others have opened their places
    rw [List.reverse_cons, List.append_assoc, List.singleton_append]
    apply ih hrest
    have hweigh := hrest.weigh_nonpos
    refine ⟨by omega, ?_⟩
    rwa [weigh_cons, Int.add_comm, ← Int.sub_sub] at h

/-- All operators of a segment come off the stack, whether an operand ends there or is missing:
the place of the segment is open for them. -/
theorem HasPlaces.segment {ends : Bool} (hops : Operators ops) (hn : 0 ≤ n)
    (h : HasPlaces (ends.toNat + (n - weigh ops)) output) :
    HasPlaces (1 + n) (ops.reverse ++ output) := by
  have hends := ends.toNat_le
  exact .operators hops (by omega) (h.mono (by omega))

end

/-! ### What the yard owes -/

/-- The places that a waiting token owes, besides the one that it takes. -/
def Lexeme.owes : Lexeme V ω → Int
  | operator op => op.arity - 1
  | _ => 0

/-- The places that an open call owes, besides the one that it takes. -/
def callOwes : Option Nat → Int
  | some k => k - 1
  | none => 0

/-- The places that all waiting tokens and open calls owe. -/
def owed (waiting : List (Token V ω)) (calls : List (Option Nat)) : Int :=
  total (·.item.owes) waiting + total callOwes calls

section

variable {ops waiting c : List (Token V ω)} {calls : List (Option Nat)} {d : Int}

theorem owed_operator (op : Operator ω) (p : Int) (waiting : List (Token V ω))
    (calls : List (Option Nat)) :
    owed (⟨.operator op, p⟩ :: waiting) calls = op.arity - 1 + owed waiting calls := by
  rw [owed, owed, total_cons, Lexeme.owes]
  omega

theorem owed_append (hops : Operators ops) (waiting : List (Token V ω))
    (calls : List (Option Nat)) :
    owed (ops ++ waiting) calls = owed waiting calls - weigh ops := by
  induction ops with
  | nil => rw [weigh_nil, Int.sub_zero, List.nil_append]
  | cons t ops ih =>
    obtain ⟨op, hop⟩ := hops t (List.mem_cons_self ..)
    obtain ⟨l, p⟩ := t
    obtain rfl : l = .operator op := hop
    rw [List.cons_append, owed_operator, ih fun u hu => hops u (List.mem_cons_of_mem _ hu),
      weigh_cons, Lexeme.weight, Lexeme.arity]
    omega

theorem owed_group (p : Int) (waiting : List (Token V ω)) (calls : List (Option Nat)) :
    owed (⟨.leftParenthesis, p⟩ :: waiting) (none :: calls) = owed waiting calls := by
  rw [owed, owed, total_cons, total_cons, callOwes]
  show 0 + _ + (0 + _) = _
  omega

theorem owed_call (f : Function ω) (p q : Int) (waiting : List (Token V ω)) (k : Nat)
    (calls : List (Option Nat)) :
    owed (⟨.leftParenthesis, q⟩ :: ⟨.function f, p⟩ :: waiting) (some (k + 1) :: calls) =
      owed waiting calls + k := by
  rw [owed, owed, total_cons, total_cons, total_cons, callOwes]
  show 0 + (0 + _) + _ = _
  omega

theorem owed_append_nonneg (hops : Operators ops) (h : 0 ≤ owed waiting calls) :
    0 ≤ owed (ops ++ waiting) calls := by
  rw [owed_append hops]
  have := hops.weigh_nonpos
  omega

theorem Context.owed_nonneg (h : Context c waiting calls d) : 0 ≤ owed waiting calls := by
  induction h with
  | whole => exact Int.le_refl 0
  | group p _ _ hops ih =>
    rw [owed_group]
    exact owed_append_nonneg hops ih
  | @call _ _ _ _ _ _ _ _ n _ f p q _ _ hops _ ih =>
    rw [owed_call]
    have := owed_append_nonneg hops ih
    omega

end

/-- The yard after the tokens `read`: the output fits into the places that are owed and, if
an operand ends there, the one of the operand. -/
structure Demands (ends : Bool) (y : Yard V ω) (read : List (Token V ω)) : Prop where
  standing : Standing ends y read
  places : HasPlaces (ends.toNat + owed y.waiting y.calls) y.output

namespace Demands

section

variable {y y' : Yard V ω} {read : List (Token V ω)} {ends : Bool} {t : Token V ω}
  {op : Operator ω} {f : Function ω} {p q r : Int}

theorem empty : Demands false ({} : Yard V ω) [] := ⟨.empty, Int.le_refl 0⟩

/-- An operand takes a place of its own. -/
theorem hasPlaces_operand (h : Demands false y read) (ht : t.item.arity = 0) :
    HasPlaces ((true.toNat : Int) + owed y.waiting y.calls) (t :: y.output) := by
  have howed : HasPlaces (0 + owed y.waiting y.calls) y.output := h.places
  have hnonneg := howed.nonneg
  refine ⟨by show 1 ≤ 1 + _; omega, howed.mono ?_⟩
  rw [Lexeme.weight, ht]
  show _ ≤ 1 + _ - _
  omega

theorem leaf (h : Demands false y read) (ht : t.item.arity = 0)
    (hcounted : t.item.isCounted = true) (hatom : Derives .atom [t]) :
    Demands true { y with output := t :: y.output } (read ++ [t]) :=
  ⟨h.standing.leaf ht hcounted hatom, h.hasPlaces_operand ht⟩

theorem before (h : Demands false y read) (hop : op.isPrefix = true) :
    Demands false { y with waiting := ⟨.operator op, p⟩ :: y.waiting }
      (read ++ [⟨.operator op, p⟩]) := by
  refine ⟨h.standing.before hop, ?_⟩
  have harity := Operator.arity_of_not_isBinary (Operator.isBinary_of_isPrefix hop)
  refine h.places.mono ?_
  show _ ≤ _ + owed (⟨.operator op, p⟩ :: y.waiting) y.calls
  rw [owed_operator, harity]
  omega

/-- An operator closes the segment before it; if it stands between operands, it owes a place
to the one before it. -/
theorem operator (h : Demands ends y read) (hop : op.isPrefix = false) :
    Demands op.isPostfix
      { y with
        output := (Yard.popOperators op y.output y.waiting).1
        waiting := ⟨.operator op, p⟩ :: (Yard.popOperators op y.output y.waiting).2 }
      (read ++ [⟨.operator op, p⟩]) := by
  refine ⟨h.standing.operator hop, ?_⟩
  obtain ⟨hstanding, hplaces⟩ := h
  obtain @⟨c, s, output, ops, waiting, calls, d, w, outer, hs, hops, hweight, hout⟩ := hstanding
  obtain ⟨popped, rest, rfl, hpop⟩ := Yard.popOperators_append hops outer.fenced op output
  have hpopped : Operators popped := fun t ht => hops t (List.mem_append_left _ ht)
  have hrest : Operators rest := fun t ht => hops t (List.mem_append_right _ ht)
  have harity : (op.isPostfix.toNat : Int) + (op.arity - 1) = 1 := by
    cases hpost : op.isPostfix with
    | true =>
      rw [Operator.arity_of_not_isBinary (Operator.isBinary_of_isPostfix hpost)]
      rfl
    | false =>
      rw [Operator.arity_of_isBinary (Operator.isBinary_of_not_isPrefix hop hpost)]
      rfl
  simp only [hpop]
  dsimp only at hplaces
  rw [List.append_assoc, owed_append hpopped] at hplaces
  rw [owed_operator, ← Int.add_assoc, harity]
  exact hplaces.segment hpopped (owed_append_nonneg hrest outer.owed_nonneg)

theorem group (h : Demands false y read) :
    Demands false
      { y with waiting := ⟨.leftParenthesis, p⟩ :: y.waiting, calls := none :: y.calls }
      (read ++ [⟨.leftParenthesis, p⟩]) := by
  refine ⟨h.standing.group, ?_⟩
  show HasPlaces (_ + owed (⟨.leftParenthesis, p⟩ :: y.waiting) (none :: y.calls)) y.output
  rw [owed_group]
  exact h.places

theorem call (h : Demands false y read) :
    Demands false
      { y with
        waiting := ⟨.leftParenthesis, q⟩ :: ⟨.function f, p⟩ :: y.waiting
        calls := some 1 :: y.calls }
      (read ++ [⟨.function f, p⟩, ⟨.leftParenthesis, q⟩]) := by
  refine ⟨h.standing.call, h.places.mono ?_⟩
  have howed := owed_call f p q y.waiting 0 y.calls
  rw [Nat.zero_add] at howed
  rw [howed]
  omega

theorem emptyCall (h : Demands false y read) (hf : f.admits 0 = true) :
    Demands true
      { y with output := ⟨.function { f with arguments := some ↑(0 : Nat) }, p⟩ :: y.output }
      (read ++ [⟨.function f, p⟩, ⟨.leftParenthesis, q⟩, ⟨.rightParenthesis, r⟩]) :=
  ⟨h.standing.emptyCall hf, h.hasPlaces_operand rfl⟩

/-- A closing parenthesis closes a segment.  A call that ends with it takes the place of the
segment, and opens one for every argument. -/
theorem close {previous next : Option (Lexeme V ω)} (h : Demands ends y read)
    (hmoves : y.Moves previous next ⟨.rightParenthesis, r⟩ y') :
    Demands true y' (read ++ [⟨.rightParenthesis, r⟩]) := by
  refine ⟨h.standing.close hmoves, ?_⟩
  obtain ⟨hstanding, hplaces⟩ := h
  obtain @⟨c, s, output, ops, waiting, calls, d, w, outer, hs, hops, hweight, hout⟩ := hstanding
  dsimp only at hplaces
  rw [owed_append hops] at hplaces
  cases outer with
  | whole => exact absurd (Yard.popToOpen_append hops output []) hmoves.popToOpen_ne_none
  | @group c₀ s₀ ops₀ waiting₀ calls₀ d₀ w₀ p outer hs₀ hops₀ =>
    obtain rfl := hmoves.of_closeGroup (Yard.popToOpen_bracket hops output _ p) rfl
    rw [owed_group] at hplaces
    exact hplaces.segment hops (owed_append_nonneg hops₀ outer.owed_nonneg)
  | @call c₀ s₀ ops₀ waiting₀ calls₀ d₀ w₀ a n v f p q outer hs₀ hops₀ hgiven =>
    obtain ⟨hf, rfl⟩ := hmoves.of_closeCall (Yard.popToOpen_bracket hops output _ q) rfl
    rw [owed_call] at hplaces
    have hnonneg := owed_append_nonneg hops₀ outer.owed_nonneg
    have hsegment := hplaces.segment hops (Int.add_nonneg hnonneg (Int.natCast_nonneg n))
    -- the function takes the one place and opens `n + 1`, one of them for the last argument
    show 1 ≤ 1 + owed (ops₀ ++ waiting₀) calls₀ ∧
      HasPlaces (1 + owed (ops₀ ++ waiting₀) calls₀ - (1 - ((n + 1 : Nat) : Int)))
        (ops.reverse ++ output)
    exact ⟨by omega, hsegment.mono (by omega)⟩

/-- A separator closes the segment of an argument, and the call owes one more. -/
theorem separate {previous next : Option (Lexeme V ω)} (h : Demands ends y read)
    (hmoves : y.Moves previous next ⟨.separator, r⟩ y') :
    Demands false y' (read ++ [⟨.separator, r⟩]) := by
  refine ⟨h.standing.separate hmoves, ?_⟩
  obtain ⟨hstanding, hplaces⟩ := h
  obtain @⟨c, s, output, ops, waiting, calls, d, w, outer, hs, hops, hweight, hout⟩ := hstanding
  dsimp only at hplaces
  rw [owed_append hops] at hplaces
  obtain ⟨output', u, waiting', k, calls', hpop, hcalls, rfl⟩ := hmoves.of_separate
  cases outer with
  | whole =>
    rw [Yard.popToOpen_append hops] at hpop
    cases hpop
  | group p => cases hcalls
  | @call c₀ s₀ ops₀ waiting₀ calls₀ d₀ w₀ a n v f p q outer hs₀ hops₀ hgiven =>
    rw [Yard.popToOpen_bracket hops] at hpop
    cases hpop
    cases hcalls
    rw [owed_call] at hplaces
    have hnonneg := owed_append_nonneg hops₀ outer.owed_nonneg
    have hsegment := hplaces.segment hops (Int.add_nonneg hnonneg (Int.natCast_nonneg n))
    refine hsegment.mono ?_
    rw [owed_call]
    show _ ≤ 0 + (_ + ((n + 1 : Nat) : Int))
    omega

end

theorem kept : Yard.Kept (Demands (V := V) (ω := ω)) where
  leaf := leaf
  before := before
  operator := operator
  group := group
  call := call
  emptyCall := emptyCall
  close := close
  separate := separate

end Demands

/-! ### Postfix lists -/

section

variable {ts ps qs : List (Token V ω)}

/-- Read from its end, a postfix list fits into the place of one tree. -/
theorem hasPlaces_of_toPostfix (hts : Apart none ts) (h : toPostfix ts = .ok ps) :
    HasPlaces 1 ps.reverse := by
  obtain ⟨ends, y, output, ⟨hstanding, hplaces⟩, hflush, rfl⟩ :=
    Demands.kept.of_toPostfix .empty hts h
  obtain @⟨c, s, output, ops, waiting, calls, d, w, outer, hs, hops, hweight, hout⟩ := hstanding
  dsimp only at hplaces hflush
  rw [owed_append hops] at hplaces
  rw [Yard.flush_append hops] at hflush
  cases outer with
  | whole =>
    obtain rfl := Except.ok.inj hflush
    rw [List.reverse_reverse]
    exact hplaces.segment hops (Int.le_refl 0)
  | group => cases hflush
  | call => cases hflush

/-- A tree fills all places, so nothing can come before its postorder. -/
theorem HasPlaces.eq_of_suffix (h : HasPlaces 1 ps.reverse) (hqs : qs <:+ ps)
    (hweigh : weigh qs = 1) : qs = ps := by
  obtain ⟨us, rfl⟩ := hqs
  rw [List.reverse_append] at h
  have hus := h.of_append
  rw [weigh_reverse, hweigh] at hus
  cases hrev : us.reverse with
  | nil => rw [List.reverse_eq_nil_iff.1 hrev, List.nil_append]
  | cons t ts =>
    -- `t` would come when no place is open
    rw [hrev] at hus
    exact absurd hus.1 (by decide)

theorem arity_nonneg_of_mem_countedToken {t u : Token V ω} {us : List (Token V ω)}
    (h : u ∈ countedToken t us) : 0 ≤ u.item.arity := by
  obtain ⟨l, p⟩ := t
  cases l with
  | operand v =>
    rw [List.mem_singleton.1 h]
    exact Int.le_refl 0
  | var label =>
    rw [List.mem_singleton.1 h]
    exact Int.le_refl 0
  | operator op =>
    rw [List.mem_singleton.1 h]
    exact Int.natCast_nonneg _
  | function f =>
    rw [List.mem_singleton.1 h]
    exact Int.natCast_nonneg _
  | punctuation m => cases h

/-- No token of a postfix list takes less than nothing. -/
theorem arity_nonneg_of_toPostfix (h : toPostfix ts = .ok ps) : ∀ u ∈ ps, 0 ≤ u.item.arity := by
  intro u hu
  obtain ⟨t, -, us, hut⟩ := mem_counted ((perm_counted_of_toPostfix h).subset hu)
  exact arity_nonneg_of_mem_countedToken hut

end

/-! ### Building the tree -/

namespace Tree

/-- The places that are open in a frame. -/
def Frame.room (f : Frame V ω) : Int := f.token.item.arity - f.children.length

/-- The places that are open in frames around another one, which takes a place in the first of
them; the first takes one in the next, and so on. -/
def rooms (outer : List (Frame V ω)) : Int := total (fun f => f.room - 1) outer

section

variable {f g : Frame V ω} {outer : List (Frame V ω)} {ts : List (Token V ω)}

theorem Frame.hasRoom_iff : f.hasRoom = true ↔ 1 ≤ f.room := by
  rw [hasRoom, room, decide_eq_true_iff]
  omega

theorem Frame.room_receive (f : Frame V ω) (t : Tree V ω) : (f.receive t).room = f.room - 1 := by
  show f.token.item.arity - ((f.children.length + 1 : Nat) : Int) = f.room - 1
  rw [room]
  omega

/-- If places are open, one is found, and they stay open. -/
theorem settle_eq_some (hf : 0 ≤ f.room) (houter : ∀ g ∈ outer, 1 ≤ g.room)
    (hopen : 1 ≤ f.room + rooms outer) :
    ∃ g outer', settle f outer = some (g :: outer') ∧ (∀ k ∈ g :: outer', 1 ≤ k.room) ∧
      rooms (g :: outer') = f.room + rooms outer - 1 := by
  induction outer generalizing f with
  | nil =>
    have hroom : 1 ≤ f.room := by rwa [rooms, total_nil, Int.add_zero] at hopen
    refine ⟨f, [], settle_of_hasRoom [] (Frame.hasRoom_iff.2 hroom), by simpa using hroom, ?_⟩
    rw [rooms, rooms, total_cons, total_nil]
    omega
  | cons g outer ih =>
    obtain ⟨hg, houter⟩ := List.forall_mem_cons.1 houter
    cases hroom : f.hasRoom with
    | true =>
      refine ⟨f, g :: outer, settle_of_hasRoom _ hroom, ?_, ?_⟩
      · exact List.forall_mem_cons.2
          ⟨Frame.hasRoom_iff.1 hroom, List.forall_mem_cons.2 ⟨hg, houter⟩⟩
      · rw [rooms, total_cons, ← rooms]
        omega
    | false =>
      -- a full frame is closed, and takes the place in the next one that it has been counted in
      have hfull : ¬ 1 ≤ f.room := by
        rw [← Frame.hasRoom_iff, hroom]
        exact Bool.false_ne_true
      have hreceive := g.room_receive f.close
      have hsum : f.room + rooms (g :: outer) = (g.receive f.close).room + rooms outer := by
        rw [rooms, total_cons, ← rooms, hreceive]
        omega
      rw [settle_of_full g outer hroom, hsum]
      exact ih (by omega) houter (by omega)

/-- Tokens that fit into the open places are all read. -/
theorem extendAll_of_hasPlaces (hf : 0 ≤ f.room) (houter : ∀ g ∈ outer, 1 ≤ g.room)
    (harity : ∀ t ∈ ts, 0 ≤ t.item.arity) (hplaces : HasPlaces (f.room + rooms outer) ts) :
    ∃ spine, extendAll (f :: outer) ts = .ok spine := by
  induction ts generalizing f outer with
  | nil => exact ⟨f :: outer, rfl⟩
  | cons t ts ih =>
    obtain ⟨ht, hts⟩ := List.forall_mem_cons.1 harity
    obtain ⟨hopen, hplaces⟩ := hplaces
    obtain ⟨g, outer', hsettle, hrooms, hsum⟩ := settle_eq_some hf houter hopen
    have hroom : (⟨t, []⟩ : Frame V ω).room = t.item.arity := Int.sub_zero _
    have hrest : HasPlaces ((⟨t, []⟩ : Frame V ω).room + rooms (g :: outer')) ts := by
      refine hplaces.mono ?_
      rw [hsum, hroom, Lexeme.weight]
      omega
    obtain ⟨spine, hspine⟩ := ih (by rw [hroom]; exact ht) hrooms hts hrest
    refine ⟨spine, ?_⟩
    rw [extendAll, extend, hsettle]
    exact hspine

/-- So there is a place for every token. -/
theorem ofPostfix_ne_unexpected {ps : List (Token V ω)} (harity : ∀ t ∈ ps, 0 ≤ t.item.arity)
    (hplaces : HasPlaces 1 ps.reverse) (u : Token V ω) : ofPostfix ps ≠ .error (.unexpected u) := by
  have hread : ∃ spine, extendAll [] ps.reverse = .ok spine := by
    cases hrev : ps.reverse with
    | nil => exact ⟨[], rfl⟩
    | cons t ts =>
      rw [hrev] at hplaces
      have hall : ∀ s ∈ t :: ts, 0 ≤ s.item.arity := by
        intro s hs
        exact harity s (List.mem_reverse.1 (hrev ▸ hs))
      obtain ⟨ht, hts⟩ := List.forall_mem_cons.1 hall
      have hroom : (⟨t, []⟩ : Frame V ω).room = t.item.arity := Int.sub_zero _
      have hrest : HasPlaces ((⟨t, []⟩ : Frame V ω).room + rooms ([] : List (Frame V ω))) ts := by
        refine hplaces.2.mono ?_
        rw [hroom, rooms, total_nil, Lexeme.weight]
        omega
      exact extendAll_of_hasPlaces (by rw [hroom]; exact ht) (by simp) hts hrest
  obtain ⟨spine, hspine⟩ := hread
  intro h
  simp only [ofPostfix, hspine] at h
  cases spine with
  | nil => cases h
  | cons f outer =>
    simp only at h
    split at h <;> cases h

end

end Tree

/-- **A text only ever lacks operands.**  If the tokens of a text have a postfix list, no proper
suffix of it is the postorder of a complete tree, and none of its tokens is unexpected: it has a
tree, or there are no tokens, or an operand is missing. -/
theorem ofPostfix_lacks_operands {L : Lexicon V ω} {text : String} {ts ps : List (Token V ω)}
    (htokens : L.tokens text = .ok ts) (hparse : toPostfix ts = .ok ps) :
    (∀ qs, qs <:+ ps → qs ≠ ps →
      ¬ ∃ t : Tree V ω, t.incomplete? = none ∧ t.postorder = qs) ∧
    (∀ u, Tree.ofPostfix ps ≠ .error (.unexpected u)) ∧
    (Tree.ofPostfix ps = .error .emptyExpression ↔ ts = []) ∧
    ((∃ t, Tree.ofPostfix ps = .ok t) ∨ Tree.ofPostfix ps = .error .emptyExpression ∨
      ∃ u, Tree.ofPostfix ps = .error (.missingOperand u)) := by
  have hts := Lexicon.apart_tokens htokens
  have hplaces := hasPlaces_of_toPostfix hts hparse
  have hunexpected := Tree.ofPostfix_ne_unexpected (arity_nonneg_of_toPostfix hparse) hplaces
  refine ⟨?_, hunexpected, ⟨?_, ?_⟩, ?_⟩
  · rintro qs hqs hne ⟨t, hcomplete, rfl⟩
    have hcounted := (closed_of_toPostfix hts hparse).2
    have hweigh := Tree.weigh_postorder (fun u hu => hcounted u (hqs.subset hu)) hcomplete
    exact hne (hplaces.eq_of_suffix hqs hweigh)
  · intro hempty
    rcases Tree.token?_of_ofPostfix hempty with ⟨-, rfl⟩ | ⟨t, -, htoken⟩
    · exact eq_nil_of_toPostfix hparse
    · cases htoken
  · rintro rfl
    obtain rfl := Except.ok.inj hparse
    rfl
  · cases hbuild : Tree.ofPostfix ps with
    | ok t => exact .inl ⟨t, rfl⟩
    | error e =>
      cases e with
      | emptyExpression => exact .inr (.inl rfl)
      | unexpected u => exact absurd hbuild (hunexpected u)
      | missingOperand u => exact .inr (.inr ⟨u, rfl⟩)

/-- The tokens of `2 (*)`. -/
def emptyProduct : List (Token Int String) :=
  [⟨.operand 2, 0⟩, ⟨.operator .juxtaposition, 2⟩, ⟨.leftParenthesis, 2⟩,
    ⟨.operator .multiplication, 3⟩, ⟨.rightParenthesis, 4⟩]

theorem ofPostfix_lacks_operands_emptyProduct :
    plainIntegers.tokens "2 (*)" = .ok emptyProduct ∧
      ∃ ps, toPostfix emptyProduct = .ok ps ∧
        (∀ qs, qs <:+ ps → qs ≠ ps →
          ¬ ∃ t : Tree Int String, t.incomplete? = none ∧ t.postorder = qs) ∧
        Tree.ofPostfix ps = .error (.missingOperand ⟨.operator .juxtaposition, 2⟩) := by
  have htokens : plainIntegers.tokens "2 (*)" = .ok emptyProduct := by rfl
  exact ⟨htokens, _, rfl, (ofPostfix_lacks_operands htokens rfl).1, rfl⟩

/-- In a list that no text has, two operands may meet, and then the first one is unexpected. -/
example : toPostfix [(⟨.operand 2, 0⟩ : Token Int String), ⟨.operand 3, 1⟩] =
      .ok [⟨.operand 2, 0⟩, ⟨.operand 3, 1⟩] ∧
    Tree.ofPostfix [(⟨.operand 2, 0⟩ : Token Int String), ⟨.operand 3, 1⟩] =
      .error (.unexpected ⟨.operand 2, 0⟩) := ⟨rfl, rfl⟩

end Formula
