/-
Formula/Proofs/Relocation.lean

How tokens are read does not depend on their positions.  Two lists with the same lexemes are
phrases of the same categories, and what both of them are read as differs in positions only.

Reading is followed on both lists at once, by induction on the derivation of the first one.  The
holes on both sides are the same up to positions; the operators in them are the same, so the
same ones are filled at the next operator (`unplaced_popHoles`).

Main statement: `readsWhole_of_items`.
-/
import Formula.Proofs.Reading

namespace Formula

variable {V ω : Type}

/-! ### Holes without positions -/

/-- The hole with all positions forgotten. -/
def Hole.unplaced : Hole V ω → Hole V ω
  | before op _ => .before op (-1)
  | between left op _ => .between left.unplaced op (-1)
  | after op _ => .after op (-1)

@[simp] theorem Hole.op_unplaced (F : Hole V ω) : F.unplaced.op = F.op := by
  cases F <;> rfl

theorem Hole.unplaced_fill (F : Hole V ω) (x : Tree V ω) :
    (F.fill x).unplaced = F.unplaced.fill x.unplaced := by
  cases F <;> exact Tree.unplaced_node _ _

theorem unplaced_fillAll (x : Tree V ω) (K : List (Hole V ω)) :
    (fillAll x K).unplaced = fillAll x.unplaced (K.map Hole.unplaced) := by
  induction K generalizing x with
  | nil => rfl
  | cons F K ih => rw [fillAll, ih, F.unplaced_fill, List.map_cons, fillAll]

/-- The same holes are filled at an operator, wherever their tokens stand. -/
theorem unplaced_popHoles (c : Operator ω) (x : Tree V ω) (K : List (Hole V ω)) :
    popHoles c x.unplaced (K.map Hole.unplaced) =
      ((popHoles c x K).1.unplaced, (popHoles c x K).2.map Hole.unplaced) := by
  induction K generalizing x with
  | nil => rfl
  | cons F K ih =>
    rw [List.map_cons, popHoles, popHoles, F.op_unplaced]
    split
    · rw [← F.unplaced_fill, ih]
    · rfl

/-! ### Reading two lists at once -/

/-- The two phrases are read as trees that differ in positions only. -/
def ReadAlike : Phrase → List (Token V ω) → List (Token V ω) → Prop
  | .atom, s, u => ∃ x y, ReadsAtom s x ∧ ReadsAtom u y ∧ x.unplaced = y.unplaced
  | .suffixed, s, u | .term, s, u | .formula, s, u =>
    ∀ K L : List (Hole V ω), K.map Hole.unplaced = L.map Hole.unplaced → ∃ K' L' x y,
      Reads K s K' x ∧ Reads L u L' y ∧ K'.map Hole.unplaced = L'.map Hole.unplaced ∧
        x.unplaced = y.unplaced
  | .arguments n, s, u =>
    ∃ xs ys, ReadsArguments n s xs ∧ ReadsArguments n u ys ∧
      xs.map Tree.unplaced = ys.map Tree.unplaced

section

variable {s u : List (Token V ω)} {K L K' L' : List (Hole V ω)} {x y : Tree V ω}

/-- After the holes that `c` fills, both sides are still alike. -/
theorem popHoles_alike (c : Operator ω) (hK : K'.map Hole.unplaced = L'.map Hole.unplaced)
    (hx : x.unplaced = y.unplaced) :
    (popHoles c x K').1.unplaced = (popHoles c y L').1.unplaced ∧
      (popHoles c x K').2.map Hole.unplaced = (popHoles c y L').2.map Hole.unplaced := by
  have hpop := unplaced_popHoles c x K'
  rw [hx, hK, unplaced_popHoles] at hpop
  obtain ⟨h1, h2⟩ := Prod.mk.inj hpop
  exact ⟨h1.symm, h2.symm⟩

theorem fillAll_alike (hK : K'.map Hole.unplaced = L'.map Hole.unplaced)
    (hx : x.unplaced = y.unplaced) : (fillAll x K').unplaced = (fillAll y L').unplaced := by
  rw [unplaced_fillAll, unplaced_fillAll, hK, hx]

theorem begins_of_items {c : Phrase} (h : Derives c s) (hu : u.map (·.item) = s.map (·.item)) :
    ∃ t v, u = t :: v ∧ t.item.beginsOperand = true := by
  obtain ⟨t, v, rfl, ht⟩ := h.begins
  obtain ⟨p, w, rfl, -⟩ := items_eq_cons hu
  exact ⟨_, w, rfl, ht⟩

/-- **Tokens are read alike wherever they stand.** -/
theorem Derives.readAlike {c : Phrase} (h : Derives c s) (hu : u.map (·.item) = s.map (·.item)) :
    ReadAlike c s u := by
  induction h generalizing u with
  | operand v p =>
    obtain ⟨q, rfl⟩ := items_eq_singleton hu
    exact ⟨_, _, .operand v p, .operand v q, rfl⟩
  | var label p =>
    obtain ⟨q, rfl⟩ := items_eq_singleton hu
    exact ⟨_, _, .var label p, .var label q, rfl⟩
  | group p q hs ih =>
    rw [List.map_cons, List.map_append] at hu
    obtain ⟨p', v, q', rfl, hv⟩ := items_eq_group hu
    obtain ⟨K, L, x, y, hx, hy, hKL, hxy⟩ := ih hv [] [] rfl
    exact ⟨_, _, .group hx hs.begins, .group hy (begins_of_items hs hv), fillAll_alike hKL hxy⟩
  | emptyCall p q r hf =>
    obtain ⟨p', v, rfl, hv⟩ := items_eq_cons hu
    obtain ⟨q', w, rfl, hw⟩ := items_eq_cons hv
    obtain ⟨r', rfl⟩ := items_eq_singleton hw
    exact ⟨_, _, .emptyCall hf, .emptyCall hf, unplaced_callOf rfl⟩
  | call p q r hf hs ih =>
    obtain ⟨p', v, rfl, hv⟩ := items_eq_cons hu
    rw [List.map_cons, List.map_append] at hv
    obtain ⟨q', w, r', rfl, hw⟩ := items_eq_group hv
    obtain ⟨xs, ys, hxs, hys, hsame⟩ := ih hw
    exact ⟨_, _, .call hf hxs hs.begins, .call hf hys (begins_of_items hs hw),
      unplaced_callOf hsame⟩
  | suffixed _ ih =>
    obtain ⟨x, y, hx, hy, hxy⟩ := ih hu
    exact fun K L hKL => ⟨K, L, x, y, .atom hx K, .atom hy L, hKL, hxy⟩
  | @after op s p _ hop ih =>
    rw [List.map_append] at hu
    obtain ⟨v, p', w, rfl, hv, hw⟩ := items_eq_between hu
    obtain rfl := List.map_eq_nil_iff.1 hw
    intro K L hKL
    obtain ⟨K', L', x, y, hx, hy, hKL', hxy⟩ := ih hv K L hKL
    obtain ⟨htree, hholes⟩ := popHoles_alike op hKL' hxy
    exact ⟨_, _, _, _, hx.after hop, hy.after hop, by
      rw [List.map_cons, List.map_cons, hholes]
      rfl, htree⟩
  | term _ ih | formula _ ih => exact ih hu
  | before p hop _ ih =>
    obtain ⟨p', v, rfl, hv⟩ := items_eq_cons hu
    intro K L hKL
    obtain ⟨K', L', x, y, hx, hy, hKL', hxy⟩ :=
      ih hv (.before _ p :: K) (.before _ p' :: L) (by rw [List.map_cons, List.map_cons, hKL]; rfl)
    exact ⟨K', L', x, y, hx.before hop, hy.before hop, hKL', hxy⟩
  | @between op s r p _ hop _ ihs ihr =>
    rw [List.map_append, List.map_cons] at hu
    obtain ⟨v, p', w, rfl, hv, hw⟩ := items_eq_between hu
    intro K L hKL
    obtain ⟨K', L', x, y, hx, hy, hKL', hxy⟩ := ihs hv K L hKL
    obtain ⟨htree, hholes⟩ := popHoles_alike op hKL' hxy
    obtain ⟨K'', L'', x', y', hx', hy', hKL'', hxy'⟩ := ihr hw
      (.between (popHoles op x K').1 op p :: (popHoles op x K').2)
      (.between (popHoles op y L').1 op p' :: (popHoles op y L').2)
      (by rw [List.map_cons, List.map_cons, hholes, Hole.unplaced, htree]; rfl)
    exact ⟨K'', L'', x', y', hx.between hop hx', hy.between hop hy', hKL'', hxy'⟩
  | argument _ ih =>
    obtain ⟨K, L, x, y, hx, hy, hKL, hxy⟩ := ih hu [] [] rfl
    exact ⟨_, _, .argument hx, .argument hy, by
      rw [List.map_singleton, List.map_singleton, fillAll_alike hKL hxy]⟩
  | another p _ _ ihs ihr =>
    rw [List.map_append, List.map_cons] at hu
    obtain ⟨v, p', w, rfl, hv, hw⟩ := items_eq_between hu
    obtain ⟨xs, ys, hxs, hys, hsame⟩ := ihs hv
    obtain ⟨K, L, x, y, hx, hy, hKL, hxy⟩ := ihr hw [] [] rfl
    exact ⟨_, _, hxs.another hx, hys.another hy, by
      rw [List.map_append, List.map_append, hsame, List.map_singleton, List.map_singleton,
        fillAll_alike hKL hxy]⟩

end

/-- **The tree of a list of tokens is that of every list with the same lexemes**, up to
positions. -/
theorem readsWhole_of_items {ts us : List (Token V ω)} {t : Tree V ω} (h : Derives .formula ts)
    {ps : List (Token V ω)} (hparse : toPostfix ts = .ok ps) (hbuild : Tree.ofPostfix ps = .ok t)
    (hus : us.map (·.item) = ts.map (·.item)) : ReadsWhole us t := by
  obtain ⟨K, L, x, y, hx, hy, hKL, hxy⟩ := h.readAlike hus [] [] rfl
  rw [hx.toPostfix] at hparse
  rw [← Except.ok.inj hparse, Tree.ofPostfix_postorder hx.grown.saturated] at hbuild
  exact ⟨L, y, hy, by rw [← Except.ok.inj hbuild, fillAll_alike hKL hxy]⟩

end Formula
