/-
Formula/Proofs/Reading.lean

What tokens are read as, up to positions.  The tokens of a text have positions of their own, so
a tree that is read is compared with a given tree after all positions have been forgotten.

`ReadsAs` says that tokens are read as an atom, `ReadsWhole` that they are read as a formula,
and `ReadsBehind` that they are read as an operand of the innermost hole.  Operators that stand in
front of such an operand are still open where it ends, and what comes next decides whether they
take the operand: at an operator between two operands either all open operators go before it, or
one of them has the operation under it (`ReadsBehind.between`).
-/
import Formula.Proofs.Shunting

namespace Formula

variable {V ω : Type}

/-! ### Trees without positions -/

namespace Tree

mutual

/-- The tree with all positions forgotten. -/
def unplaced : Tree V ω → Tree V ω
  | node t cs => node ⟨t.item, -1⟩ (unplacedAll cs)

/-- The trees with all positions forgotten. -/
def unplacedAll : List (Tree V ω) → List (Tree V ω)
  | [] => []
  | t :: ts => unplaced t :: unplacedAll ts

end

theorem unplacedAll_eq_map (ts : List (Tree V ω)) : unplacedAll ts = ts.map unplaced := by
  induction ts with
  | nil => rfl
  | cons t ts ih => rw [unplacedAll, List.map_cons, ih]

theorem unplaced_node (t : Token V ω) (cs : List (Tree V ω)) :
    (node t cs).unplaced = node ⟨t.item, -1⟩ (cs.map unplaced) := by
  rw [unplaced, unplacedAll_eq_map]

theorem unplaced_node_inj {t u : Token V ω} {cs ds : List (Tree V ω)} :
    (node t cs).unplaced = (node u ds).unplaced ↔
      t.item = u.item ∧ cs.map unplaced = ds.map unplaced := by
  simp [unplaced_node]

theorem lexeme_unplaced (t : Tree V ω) : t.unplaced.lexeme = t.lexeme := by
  obtain ⟨t, cs⟩ := t
  rw [unplaced_node]
  rfl

end Tree

/-! ### Tokens with given lexemes -/

section

variable {ts : List (Token V ω)} {ls ks : List (Lexeme V ω)} {l : Lexeme V ω}

theorem items_eq_singleton (h : ts.map (·.item) = [l]) : ∃ p, ts = [⟨l, p⟩] := by
  obtain ⟨⟨_, p⟩, us, rfl, rfl, hus⟩ := List.map_eq_cons_iff.1 h
  obtain rfl := List.map_eq_nil_iff.1 hus
  exact ⟨p, rfl⟩

theorem items_eq_cons (h : ts.map (·.item) = l :: ls) :
    ∃ p us, ts = ⟨l, p⟩ :: us ∧ us.map (·.item) = ls := by
  obtain ⟨⟨_, p⟩, us, rfl, rfl, hus⟩ := List.map_eq_cons_iff.1 h
  exact ⟨p, us, rfl, hus⟩

theorem items_eq_between (h : ts.map (·.item) = ls ++ l :: ks) :
    ∃ us p vs, ts = us ++ ⟨l, p⟩ :: vs ∧ us.map (·.item) = ls ∧ vs.map (·.item) = ks := by
  obtain ⟨us, ws, rfl, hus, hws⟩ := List.map_eq_append_iff.1 h
  obtain ⟨p, vs, rfl, hvs⟩ := items_eq_cons hws
  exact ⟨us, p, vs, rfl, hus, hvs⟩

theorem items_eq_group
    (h : ts.map (·.item) = .leftParenthesis :: (ls ++ [.rightParenthesis])) :
    ∃ p us q, ts = ⟨.leftParenthesis, p⟩ :: (us ++ [⟨.rightParenthesis, q⟩]) ∧
      us.map (·.item) = ls := by
  obtain ⟨p, ws, rfl, hws⟩ := items_eq_cons h
  obtain ⟨us, q, vs, rfl, hus, hvs⟩ := items_eq_between hws
  obtain rfl := List.map_eq_nil_iff.1 hvs
  exact ⟨p, us, q, rfl, hus⟩

end

/-! ### Lists of arguments -/

/-- The lexemes of arguments with separators between them. -/
def listed : List (List (Lexeme V ω)) → List (Lexeme V ω)
  | [] => []
  | ls :: lss => ls ++ lss.flatMap (.separator :: ·)

/-- What holds of a first argument, and goes on after a separator, holds of all arguments. -/
theorem listed_induction {α : Type} {spell : α → List (Lexeme V ω)}
    {P : List α → List (Token V ω) → Prop} {x : α} {xs : List α}
    (first : ∀ us : List (Token V ω), us.map (·.item) = spell x → P [x] us)
    (another : ∀ y ∈ xs, ∀ (done : List α) (us vs : List (Token V ω)) (p : Int), P done us →
      vs.map (·.item) = spell y → P (done ++ [y]) (us ++ ⟨.separator, p⟩ :: vs))
    {ts : List (Token V ω)} (hts : ts.map (·.item) = listed ((x :: xs).map spell)) :
    P (x :: xs) ts := by
  -- arguments are added on the right, so those that are there already are generalised
  have hfurther : ∀ (ys done : List α) (us vs : List (Token V ω)), ys ⊆ xs → P done us →
      vs.map (·.item) = ys.flatMap (fun y => .separator :: spell y) →
        P (done ++ ys) (us ++ vs) := by
    intro ys
    induction ys with
    | nil =>
      intro done us vs _ hus hvs
      obtain rfl := List.map_eq_nil_iff.1 hvs
      rwa [List.append_nil, List.append_nil]
    | cons y ys ih =>
      intro done us vs hys hus hvs
      obtain ⟨hy, hys⟩ := List.cons_subset.1 hys
      obtain ⟨front, ws, rfl, hfront, hws⟩ := List.map_eq_append_iff.1 hvs
      obtain ⟨p, argument, rfl, hargument⟩ := items_eq_cons hfront
      have hdone := another y hy done us argument p hus hargument
      have hall := ih (done ++ [y]) _ ws hys hdone hws
      rwa [List.append_assoc, List.append_assoc] at hall
  rw [List.map_cons, listed, List.flatMap_map] at hts
  obtain ⟨us, vs, rfl, hus, hvs⟩ := List.map_eq_append_iff.1 hts
  exact hfurther xs [x] us vs (List.Subset.refl xs) (first us hus) hvs

/-! ### What tokens are read as -/

/-- The tokens are read as the atom `x`. -/
def ReadsAs (s : List (Token V ω)) (x : Tree V ω) : Prop :=
  ∃ z, ReadsAtom s z ∧ z.unplaced = x.unplaced

/-- The tokens are read as `x` behind the operators `ops`, the innermost first, that are open
where the tokens end. -/
def ReadsBehind (K : List (Hole V ω)) (s : List (Token V ω)) (ops : List (Operator ω))
    (x : Tree V ω) : Prop :=
  ∃ H z, Reads K s (H ++ K) z ∧ H.map Hole.op = ops ∧ (fillAll z H).unplaced = x.unplaced

/-- The tokens are read as the formula `x`. -/
def ReadsWhole (s : List (Token V ω)) (x : Tree V ω) : Prop :=
  ∃ K z, Reads [] s K z ∧ (fillAll z K).unplaced = x.unplaced

section

variable {s u : List (Token V ω)} {x y : Tree V ω} {K : List (Hole V ω)} {p : Int}
  {op : Operator ω} {ops : List (Operator ω)}

theorem ReadsWhole.congr (h : ReadsWhole s x) (hxy : x.unplaced = y.unplaced) : ReadsWhole s y := by
  obtain ⟨K, z, hz, hx⟩ := h
  exact ⟨K, z, hz, hx.trans hxy⟩

theorem ReadsBehind.whole (h : ReadsBehind [] s ops x) : ReadsWhole s x := by
  obtain ⟨H, z, hz, -, hx⟩ := h
  exact ⟨_, z, hz, by rwa [List.append_nil]⟩

theorem ReadsAs.behind (h : ReadsAs s x) (K : List (Hole V ω)) : ReadsBehind K s [] x := by
  obtain ⟨z, hz, hx⟩ := h
  exact ⟨[], z, .atom hz K, rfl, hx⟩

theorem ReadsAs.whole (h : ReadsAs s x) : ReadsWhole s x := (h.behind []).whole

theorem ReadsWhole.group {q : Int} (h : ReadsWhole s x)
    (hs : ∃ t u, s = t :: u ∧ t.item.beginsOperand = true) :
    ReadsAs (⟨.leftParenthesis, p⟩ :: (s ++ [⟨.rightParenthesis, q⟩])) x := by
  obtain ⟨K, z, hz, hx⟩ := h
  exact ⟨_, .group hz hs, hx⟩

/-- An operator in front of an operand is open outside of those that are open in it. -/
theorem ReadsBehind.before (q : Int) (hop : op.isPrefix = true)
    (h : ReadsBehind (.before op p :: K) s ops x) :
    ReadsBehind K (⟨.operator op, p⟩ :: s) (ops ++ [op]) (.node ⟨.operator op, q⟩ [x]) := by
  obtain ⟨H, z, hz, hH, hx⟩ := h
  refine ⟨H ++ [.before op p], z, ?_, ?_, ?_⟩
  · rw [List.append_assoc]
    exact hz.before hop
  · rw [List.map_append, hH]
    rfl
  · rw [fillAll_append, fillAll, fillAll, Hole.fill, Tree.unplaced_node_inj]
    exact ⟨rfl, by rw [List.map_singleton, List.map_singleton, hx]⟩

/-- An operator between two operands has them as they are if all operators that are open at it
go before it.  Otherwise one of these is the root. -/
theorem ReadsBehind.between (q : Int) (hop : op.isBinary = true) (h : ReadsBehind [] s ops x)
    (hu : ∀ left K, ∃ os, ReadsBehind (.between left op p :: K) u os y) :
    ∃ w, ReadsWhole (s ++ ⟨.operator op, p⟩ :: u) w ∧
      ((∀ o ∈ ops, Yard.popsBefore o op = true) →
        w.unplaced = (Tree.node ⟨.operator op, q⟩ [x, y]).unplaced) ∧
      ((¬ ∀ o ∈ ops, Yard.popsBefore o op = true) → ∃ o ∈ ops, w.lexeme = .operator o) := by
  obtain ⟨H, z, hz, rfl, hx⟩ := h
  rw [List.append_nil] at hz
  obtain ⟨os, H', w, hw, -, hy⟩ := hu (popHoles op z H).1 (popHoles op z H).2
  have hfill : fillAll w (H' ++ .between (popHoles op z H).1 op p :: (popHoles op z H).2) =
      fillAll (.node ⟨.operator op, p⟩ [(popHoles op z H).1, fillAll w H'])
        (popHoles op z H).2 :=
    fillAll_append w H' _
  refine ⟨_, ⟨_, w, hz.between hop hw, rfl⟩, ?_, ?_⟩
  · intro hall
    have hpop : popHoles op z H = (fillAll z H, []) := by
      rw [← List.append_nil H, popHoles_append (List.forall_mem_map.1 hall), List.append_nil]
      rfl
    rw [hfill, hpop, fillAll, Tree.unplaced_node_inj]
    exact ⟨rfl, by simp [hx, hy]⟩
  · intro hnot
    have hleft : (popHoles op z H).2 ≠ [] := fun hnil =>
      hnot (List.forall_mem_map.2 (forall_popsBefore_of_popHoles hnil))
    obtain ⟨F, hF, hroot⟩ := lexeme_fillAll
      (x := .node ⟨.operator op, p⟩ [(popHoles op z H).1, fillAll w H']) hleft
    refine ⟨F.op, List.mem_map_of_mem (popHoles_suffix.subset hF), ?_⟩
    rw [hfill, hroot]

/-- Nothing is open in front of an atom. -/
theorem ReadsAs.between (q : Int) (hop : op.isBinary = true) (h : ReadsAs s x) (hu : ReadsAs u y) :
    ReadsWhole (s ++ ⟨.operator op, p⟩ :: u) (.node ⟨.operator op, q⟩ [x, y]) := by
  obtain ⟨w, hw, hall, -⟩ := (h.behind []).between q hop fun _ _ => ⟨[], hu.behind _⟩
  exact hw.congr (hall (by simp))

end

/-! ### Calls -/

/-- The tokens are read as the arguments `xs`. -/
def ReadsArgumentsAs (s : List (Token V ω)) (xs : List (Tree V ω)) : Prop :=
  ∃ zs, ReadsArguments xs.length s zs ∧ zs.map Tree.unplaced = xs.map Tree.unplaced

theorem ReadsArgumentsAs.argument {s : List (Token V ω)} {x : Tree V ω} (h : ReadsWhole s x) :
    ReadsArgumentsAs s [x] := by
  obtain ⟨K, z, hz, hx⟩ := h
  exact ⟨_, .argument hz, by simp [hx]⟩

theorem ReadsArgumentsAs.another {s u : List (Token V ω)} {xs : List (Tree V ω)} {x : Tree V ω}
    {p : Int} (h : ReadsArgumentsAs s xs) (hu : ReadsWhole u x) :
    ReadsArgumentsAs (s ++ ⟨.separator, p⟩ :: u) (xs ++ [x]) := by
  obtain ⟨zs, hzs, hxs⟩ := h
  obtain ⟨K, z, hz, hx⟩ := hu
  exact ⟨_, by simpa using hzs.another hz, by simp [hxs, hx]⟩

theorem unplaced_callOf {f : Function ω} {p q : Int} {xs ys : List (Tree V ω)}
    (h : xs.map Tree.unplaced = ys.map Tree.unplaced) :
    (callOf f p xs).unplaced = (callOf f q ys).unplaced := by
  have hlength : xs.length = ys.length := by
    simpa using congrArg List.length h
  rw [callOf, callOf, Tree.unplaced_node, Tree.unplaced_node, h, hlength]

theorem ReadsArgumentsAs.call {f : Function ω} {s : List (Token V ω)} {xs : List (Tree V ω)}
    {p q r : Int} (p' : Int) (h : ReadsArgumentsAs s xs) (hf : f.admits xs.length = true)
    (hs : ∃ t u, s = t :: u ∧ t.item.beginsOperand = true) :
    ReadsAs (⟨.function f, p⟩ :: ⟨.leftParenthesis, q⟩ :: (s ++ [⟨.rightParenthesis, r⟩]))
      (callOf f p' xs) := by
  obtain ⟨zs, hzs, hxs⟩ := h
  exact ⟨_, .call hf hzs hs, unplaced_callOf hxs⟩

/-- Tokens with the lexemes of a call are read as a call of what the arguments are read as. -/
theorem readsAs_call {f : Function ω} {α : Type} {as : List α} {spell : α → List (Lexeme V ω)}
    {value : α → Tree V ω} (p : Int) (hf : f.admits as.length = true)
    (hbegins : ∀ a ∈ as, ∃ l ls, spell a = l :: ls ∧ l.beginsOperand = true)
    (hreads : ∀ a ∈ as, ∀ ts : List (Token V ω), ts.map (·.item) = spell a →
      ReadsWhole ts (value a))
    {ts : List (Token V ω)} (hts : ts.map (·.item) = .function f :: .leftParenthesis ::
      (listed (as.map spell) ++ [.rightParenthesis])) :
    ReadsAs ts (callOf f p (as.map value)) := by
  obtain ⟨q, us, rfl, hus⟩ := items_eq_cons hts
  obtain ⟨q', vs, r, rfl, hvs⟩ := items_eq_group hus
  cases as with
  | nil =>
    obtain rfl := List.map_eq_nil_iff.1 hvs
    exact ⟨_, .emptyCall hf, unplaced_callOf rfl⟩
  | cons a as =>
    have harguments : ReadsArgumentsAs vs ((a :: as).map value) := by
      refine listed_induction (P := fun bs ws => ReadsArgumentsAs ws (bs.map value)) ?_ ?_ hvs
      · intro ws hws
        exact .argument (hreads a (List.mem_cons_self ..) ws hws)
      · intro b hb done ws ws' r hdone hws'
        rw [List.map_append]
        exact hdone.another (hreads b (List.mem_cons_of_mem _ hb) ws' hws')
    refine harguments.call p (by rwa [List.length_map]) ?_
    -- the text of the first argument begins an operand
    obtain ⟨l, ks, hl, hbegin⟩ := hbegins a (List.mem_cons_self ..)
    rw [List.map_cons, listed, hl] at hvs
    obtain ⟨r, ws, rfl, -⟩ := items_eq_cons hvs
    exact ⟨_, ws, rfl, hbegin⟩

end Formula
