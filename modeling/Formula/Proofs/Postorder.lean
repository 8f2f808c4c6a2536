/-
Formula/Proofs/Postorder.lean

Building a tree from a postfix list undoes the postorder.  While the list is read
from its end, the spine of open frames changes in two ways: a frame is pushed for
the token that is read, and full frames are closed, but only when room for the
next token is looked for.  So the spine after a whole subtree has been read is not
the spine with this subtree received; the two only `Agree`: they find the same
room, and they close to the same tree.

Main statements: `ofPostfix_postorder` (a saturated tree comes back from its
postorder), `postorder_of_ofPostfix` (a tree that is built has the list as its
postorder and is complete everywhere), and `ofPostfix_eq_ok_iff` (both together, where
no token takes less than nothing).
-/
import Formula.Token.Predefined
import Formula.Tree.OfPostfix

namespace Formula.Tree

variable {V ω : Type}

/-! ### Saturated trees -/

/-- Every node has exactly as many children as its token asks for. -/
def Saturated (t : Tree V ω) : Prop :=
  ∀ s ∈ t.preorder, (s.children.length : Int) = s.arity

theorem saturated_node {token : Token V ω} {cs : List (Tree V ω)} :
    (node token cs).Saturated ↔
      (cs.length : Int) = token.item.arity ∧ ∀ c ∈ cs, c.Saturated :=
  forall_mem_preorder_node

theorem isComplete_of_arity {token : Token V ω} {cs : List (Tree V ω)}
    (h : (cs.length : Int) = token.item.arity) : (node token cs).isComplete = true := by
  obtain ⟨l, p⟩ := token
  cases l <;> simp_all [isComplete, lexeme, Tree.token, children, Lexeme.arity]

theorem incompletes?_eq_none {ts : List (Tree V ω)} :
    incompletes? ts = none ↔ ∀ t ∈ ts, t.incomplete? = none := by
  induction ts with
  | nil => simp [incompletes?]
  | cons t ts ih =>
    rw [incompletes?]
    cases e : incompletes? ts with
    | none => simp [← ih, e]
    | some token =>
      have : ¬ ∀ u ∈ ts, u.incomplete? = none := by
        rw [← ih, e]
        exact Option.some_ne_none token
      simp [this]

theorem incomplete?_node {token : Token V ω} {cs : List (Tree V ω)} :
    (node token cs).incomplete? = none ↔
      (node token cs).isComplete = true ∧ ∀ c ∈ cs, c.incomplete? = none := by
  rw [incomplete?]
  split
  · next h => simp [h, incompletes?_eq_none]
  · next h => simp [h]

theorem Saturated.incomplete? {t : Tree V ω} (h : t.Saturated) : t.incomplete? = none := by
  induction t using Tree.induction with
  | step token cs ih =>
    obtain ⟨hroot, hcs⟩ := saturated_node.1 h
    exact incomplete?_node.2 ⟨isComplete_of_arity hroot, fun c hc => ih c hc (hcs c hc)⟩

/-- Where no token takes less than nothing, completeness leaves no choice. -/
theorem arity_of_isComplete_of_nonneg {token : Token V ω} {cs : List (Tree V ω)}
    (hnonneg : 0 ≤ token.item.arity) (h : (node token cs).isComplete = true) :
    (cs.length : Int) = token.item.arity := by
  obtain ⟨l, p⟩ := token
  cases l with
  | function f =>
    simp only [isComplete, lexeme, Tree.token, children, Bool.or_eq_true, Bool.and_eq_true,
      beq_iff_eq, Lexeme.arity] at h hnonneg ⊢
    obtain ⟨hvariadic, hnone⟩ | hlength := h
    · -- a call without counted arguments has the arity -1 if it takes any number
      rw [Function.isVariadic, beq_iff_eq] at hvariadic
      rw [Function.arity, Option.isNone_iff_eq_none.1 hnone, Option.getD_none, hvariadic] at hnonneg
      exact absurd hnonneg (by decide)
    · exact hlength.symm
  | _ => simp_all [isComplete, lexeme, Tree.token, children, Lexeme.arity]

theorem saturated_of_incomplete? {t : Tree V ω} (hnonneg : ∀ u ∈ t.postorder, 0 ≤ u.item.arity)
    (h : t.incomplete? = none) : t.Saturated := by
  induction t using Tree.induction with
  | step token cs ih =>
    obtain ⟨hroot, hcs⟩ := incomplete?_node.1 h
    refine saturated_node.2 ⟨?_, ?_⟩
    · exact arity_of_isComplete_of_nonneg (hnonneg token (mem_postorder_node.2 (.inl rfl))) hroot
    · intro c hc
      refine ih c hc (fun u hu => ?_) (hcs c hc)
      exact hnonneg u (mem_postorder_node.2 (.inr ⟨c, hc, hu⟩))

/-! ### Spines -/

/-- The spine finds the same room as `f :: outer`, and closes to the same tree. -/
def Agrees (spine : List (Frame V ω)) (f : Frame V ω) (outer : List (Frame V ω)) : Prop :=
  ∃ g rest, spine = g :: rest ∧ settle g rest = settle f outer ∧
    closeAll g rest = closeAll f outer

theorem settle_of_hasRoom {f : Frame V ω} (outer : List (Frame V ω)) (h : f.hasRoom = true) :
    settle f outer = some (f :: outer) := by
  cases outer <;> rw [settle, if_pos h]

theorem settle_of_full {f : Frame V ω} (g : Frame V ω) (outer : List (Frame V ω))
    (h : f.hasRoom = false) : settle f (g :: outer) = settle (g.receive f.close) outer := by
  rw [settle, if_neg (by simp [h])]

theorem hasRoom_iff {token : Token V ω} {cs : List (Tree V ω)} :
    (⟨token, cs⟩ : Frame V ω).hasRoom = true ↔ (cs.length : Int) < token.item.arity := by
  simp [Frame.hasRoom]

/-- A full frame agrees with the frame below it that has received its tree. -/
theorem Agrees.close {spine : List (Frame V ω)} {f g : Frame V ω} {outer : List (Frame V ω)}
    (h : Agrees spine f (g :: outer)) (full : f.hasRoom = false) :
    Agrees spine (g.receive f.close) outer := by
  obtain ⟨k, rest, rfl, hsettle, hclose⟩ := h
  refine ⟨k, rest, rfl, ?_, ?_⟩
  · rw [hsettle, settle_of_full g outer full]
  · rw [hclose, closeAll]

/-! ### Reading a postorder -/

/-- Reading the postorder of `t` from its end leaves a spine that agrees with the
room found for `t`, with `t` received there. -/
def Received (t : Tree V ω) : Prop :=
  ∀ {spine : List (Frame V ω)} {f g : Frame V ω} {outer outer' : List (Frame V ω)}
    (rest : List (Token V ω)), Agrees spine f outer → settle f outer = some (g :: outer') →
    ∃ spine', extendAll spine (t.postorder.reverse ++ rest) = extendAll spine' rest ∧
      Agrees spine' (g.receive t) outer'

/-- The children of a frame are received from the last to the first. -/
theorem received_children {token : Token V ω} {outer : List (Frame V ω)}
    {cs : List (Tree V ω)} (hcs : ∀ c ∈ cs, Received c) {ds : List (Tree V ω)}
    (room : ((cs ++ ds).length : Int) ≤ token.item.arity) {spine : List (Frame V ω)}
    (h : Agrees spine ⟨token, ds⟩ outer) (rest : List (Token V ω)) :
    ∃ spine', extendAll spine ((postorders cs).reverse ++ rest) = extendAll spine' rest ∧
      Agrees spine' ⟨token, cs ++ ds⟩ outer := by
  induction cs generalizing rest with
  | nil => exact ⟨spine, rfl, h⟩
  | cons c cs ih =>
    have less : ((cs ++ ds).length : Int) < token.item.arity := by
      simp only [List.cons_append, List.length_cons] at room
      omega
    obtain ⟨spine₁, run₁, agree₁⟩ :=
      ih (fun d hd => hcs d (List.mem_cons_of_mem _ hd)) (Int.le_of_lt less)
        (c.postorder.reverse ++ rest)
    have hroom : settle ⟨token, cs ++ ds⟩ outer = some (⟨token, cs ++ ds⟩ :: outer) :=
      settle_of_hasRoom outer (hasRoom_iff.2 less)
    obtain ⟨spine₂, run₂, agree₂⟩ := hcs c (List.mem_cons_self ..) rest agree₁ hroom
    refine ⟨spine₂, ?_, agree₂⟩
    rw [postorders, List.reverse_append, List.append_assoc, run₁, run₂]

theorem Saturated.received {t : Tree V ω} (h : t.Saturated) : Received t := by
  induction t using Tree.induction with
  | step token cs ih =>
    intro spine f g outer outer' rest agree hroom
    obtain ⟨hroot, hcs⟩ := saturated_node.1 h
    obtain ⟨k, below, rfl, hsettle, -⟩ := agree
    -- the root comes first from the end; its frame is full when its children are received
    have push : extend (k :: below) token = .ok (⟨token, []⟩ :: g :: outer') := by
      rw [extend, hsettle, hroom]
    have start : Agrees (⟨token, []⟩ :: g :: outer') ⟨token, []⟩ (g :: outer') :=
      ⟨_, _, rfl, rfl, rfl⟩
    obtain ⟨spine', run, agree'⟩ :=
      received_children (fun c hc => ih c hc (hcs c hc))
        (by rw [List.append_nil]; exact Int.le_of_eq hroot) start rest
    rw [List.append_nil] at agree'
    refine ⟨spine', ?_, agree'.close ?_⟩
    · rw [postorder, List.reverse_append, List.reverse_singleton, List.singleton_append,
        List.cons_append, extendAll, push]
      exact run
    · have : ¬ (⟨token, cs⟩ : Frame V ω).hasRoom = true := by
        rw [hasRoom_iff]
        omega
      simpa using this

/-- **A saturated tree comes back from its postorder.** -/
theorem ofPostfix_postorder {t : Tree V ω} (h : t.Saturated) :
    ofPostfix t.postorder = .ok t := by
  obtain ⟨token, cs⟩ := t
  obtain ⟨hroot, hcs⟩ := saturated_node.1 h
  obtain ⟨spine, run, ⟨f, outer, rfl, -, hclose⟩⟩ :=
    received_children (fun c hc => (hcs c hc).received)
      (by rw [List.append_nil]; exact Int.le_of_eq hroot)
      (⟨⟨token, []⟩, [], rfl, rfl, rfl⟩ : Agrees [⟨token, []⟩] ⟨token, []⟩ []) []
  have read : extendAll [] (node token cs).postorder.reverse = .ok (f :: outer) := by
    rw [postorder, List.reverse_append, List.reverse_singleton, List.singleton_append,
      extendAll, extend]
    simpa [extendAll] using run
  have tree : closeAll f outer = node token cs := by
    rw [hclose, List.append_nil, closeAll, Frame.close]
  simp only [ofPostfix, read, tree, h.incomplete?]

/-! ### The way back -/

/-- The tokens on a spine, in the order of the postfix list. -/
def spineTokens (spine : List (Frame V ω)) : List (Token V ω) :=
  spine.flatMap fun f => postorders f.children ++ [f.token]

theorem spineTokens_receive (f g : Frame V ω) (outer : List (Frame V ω)) :
    spineTokens (g.receive f.close :: outer) = spineTokens (f :: g :: outer) := by
  simp [spineTokens, Frame.receive, Frame.close, postorders, postorder]

theorem spineTokens_settle {f : Frame V ω} {outer spine : List (Frame V ω)}
    (h : settle f outer = some spine) : spineTokens spine = spineTokens (f :: outer) := by
  induction outer generalizing f with
  | nil =>
    rw [settle] at h
    split at h
    · rw [← Option.some.inj h]
    · cases h
  | cons g outer ih =>
    rw [settle] at h
    split at h
    · rw [← Option.some.inj h]
    · rw [ih h, spineTokens_receive]

theorem spineTokens_extend {spine spine' : List (Frame V ω)} {t : Token V ω}
    (h : extend spine t = .ok spine') : spineTokens spine' = t :: spineTokens spine := by
  cases spine with
  | nil =>
    rw [← Except.ok.inj h]
    rfl
  | cons f outer =>
    simp only [extend] at h
    split at h
    · cases h
    · next found =>
      rw [← Except.ok.inj h, ← spineTokens_settle found]
      simp [spineTokens, postorders]

theorem spineTokens_extendAll {spine spine' : List (Frame V ω)} {ts : List (Token V ω)}
    (h : extendAll spine ts = .ok spine') :
    spineTokens spine' = ts.reverse ++ spineTokens spine := by
  induction ts generalizing spine with
  | nil =>
    rw [← Except.ok.inj h]
    rfl
  | cons t ts ih =>
    simp only [extendAll] at h
    split at h
    · cases h
    · next step =>
      rw [ih h, spineTokens_extend step]
      simp

theorem postorder_closeAll (f : Frame V ω) (outer : List (Frame V ω)) :
    (closeAll f outer).postorder = spineTokens (f :: outer) := by
  induction outer generalizing f with
  | nil => simp [closeAll, Frame.close, postorder, spineTokens]
  | cons g outer ih => rw [closeAll, ih, spineTokens_receive]

/-- The tokens that have been read are the postorder of the tree that the spine closes to. -/
theorem postorder_of_extendAll {ps : List (Token V ω)} {f : Frame V ω} {outer : List (Frame V ω)}
    (h : extendAll [] ps.reverse = .ok (f :: outer)) : (closeAll f outer).postorder = ps := by
  rw [postorder_closeAll, spineTokens_extendAll h]
  simp [spineTokens]

/-- **A tree that is built has the list as its postorder**, and every node of it is
complete. -/
theorem postorder_of_ofPostfix {ps : List (Token V ω)} {t : Tree V ω}
    (h : ofPostfix ps = .ok t) : t.postorder = ps ∧ t.incomplete? = none := by
  simp only [ofPostfix] at h
  split at h
  · cases h
  · cases h
  · next f outer read =>
    split at h
    · cases h
    · next complete =>
      obtain rfl := Except.ok.inj h
      exact ⟨postorder_of_extendAll read, complete⟩

/-! ### Both ways -/

/-- Whatever is wrong with a list, it is reported as an invalid expression. -/
theorem kind_diagnosis (describe : V → String) (e : TreeError V ω) :
    (e.diagnosis describe).kind = .invalidExpression := by
  cases e <;> rfl

/-- **Building a tree inverts the postorder**: a list has the saturated tree that it is the
postorder of, and a list that is the postorder of none is refused. -/
theorem ofPostfix_eq_ok_iff {ps : List (Token V ω)} (harity : ∀ u ∈ ps, 0 ≤ u.item.arity)
    (describe : V → String) :
    (∀ t, ofPostfix ps = .ok t ↔ t.Saturated ∧ t.postorder = ps) ∧
      ((¬ ∃ t : Tree V ω, t.Saturated ∧ t.postorder = ps) →
        ∃ e, ofPostfix ps = .error e ∧ (e.diagnosis describe).kind = .invalidExpression) := by
  have hiff : ∀ t, ofPostfix ps = .ok t ↔ t.Saturated ∧ t.postorder = ps := by
    intro t
    constructor
    · intro h
      obtain ⟨rfl, hcomplete⟩ := postorder_of_ofPostfix h
      exact ⟨saturated_of_incomplete? harity hcomplete, rfl⟩
    · rintro ⟨hsaturated, rfl⟩
      exact ofPostfix_postorder hsaturated
  refine ⟨hiff, ?_⟩
  intro hnone
  cases hbuild : ofPostfix ps with
  | error e => exact ⟨e, rfl, kind_diagnosis describe e⟩
  | ok t => exact absurd ⟨t, (hiff t).1 hbuild⟩ hnone

/-- The tree of `max(-x, tick())`, where `max` takes any number of arguments. -/
def signedMaximum : Tree Int String :=
  .node ⟨.function ⟨"max", anyNumber, .custom "max", some 2⟩, 0⟩
    [.node ⟨.operator .unaryMinus, 4⟩ [.node ⟨.var "x", 5⟩ []],
      .node ⟨.function ⟨"tick", 0, .custom "tick", some 0⟩, 8⟩ []]

theorem ofPostfix_eq_ok_iff_signedMaximum :
    (∀ u ∈ signedMaximum.postorder, 0 ≤ u.item.arity) ∧ signedMaximum.Saturated ∧
      ofPostfix signedMaximum.postorder = .ok signedMaximum := by
  have harity : ∀ u ∈ signedMaximum.postorder, 0 ≤ u.item.arity := by
    simp [signedMaximum, postorder, postorders, Lexeme.arity, Function.arity]
  have hsaturated : signedMaximum.Saturated := by
    simp [signedMaximum, saturated_node, Lexeme.arity, Function.arity, Operator.arity,
      Operator.isBinary, Operator.unaryMinus]
  exact ⟨harity, hsaturated,
    ((ofPostfix_eq_ok_iff harity toString).1 signedMaximum).2 ⟨hsaturated, rfl⟩⟩

end Formula.Tree
