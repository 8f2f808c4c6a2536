/-
Formula/Proofs/Rendering.lean

The text of a tree, computed with an explicit stack, is the text by recursion on the
tree.  A job that has not been touched pushes the text of its tree on the stack of
texts, whatever jobs come after it (`renderAll_fresh_cons`); the children of a tree leave
their texts in reverse, which is the order in which `take?` expects them.

Main statement: `render_eq_text`.
-/
import Formula.Tree.Printer

namespace Formula.Tree

variable {V ω : Type} [DecidableEq ω]

theorem texts_eq_map (S : Spelling V) (ts : List (Tree V ω)) :
    texts S ts = ts.map (text S) := by
  induction ts with
  | nil => rfl
  | cons t ts ih => rw [texts, List.map_cons, ih]

/-- A job whose children have been dealt with takes their texts off the stack. -/
theorem renderAll_expanded (S : Spelling V) (token : Token V ω) (cs : List (Tree V ω))
    (jobs : List (Job V ω)) (stack : List String) :
    renderAll S ((node token cs, true) :: jobs) ((texts S cs).reverse ++ stack) =
      renderAll S jobs (text S (node token cs) :: stack) := by
  have htake : take? cs.length ((texts S cs).reverse ++ stack) = some (texts S cs, stack) := by
    have := take?_append (texts S cs) stack
    rwa [texts_eq_map, List.length_map, ← texts_eq_map] at this
  rw [renderAll, dif_neg (by simp), htake, text]

/-- Jobs that have not been touched leave the texts of their trees on the stack. -/
theorem renderAll_fresh (S : Spelling V) (ts : List (Tree V ω))
    (h : ∀ t ∈ ts, ∀ (jobs : List (Job V ω)) (stack : List String),
      renderAll S ((t, false) :: jobs) stack = renderAll S jobs (text S t :: stack))
    (jobs : List (Job V ω)) (stack : List String) :
    renderAll S (fresh ts ++ jobs) stack =
      renderAll S jobs ((texts S ts).reverse ++ stack) := by
  induction ts generalizing stack with
  | nil => rfl
  | cons t ts ih =>
    rw [fresh, List.cons_append, h t (List.mem_cons_self ..),
      ih fun u hu => h u (List.mem_cons_of_mem _ hu)]
    simp [texts]

theorem renderAll_fresh_cons (S : Spelling V) (t : Tree V ω) (jobs : List (Job V ω))
    (stack : List String) :
    renderAll S ((t, false) :: jobs) stack = renderAll S jobs (text S t :: stack) := by
  induction t using Tree.induction generalizing jobs stack with
  | step token cs ih =>
    by_cases hcs : cs = []
    · subst hcs
      rw [renderAll, dif_neg (by simp), text]
      rfl
    · rw [renderAll, dif_pos ⟨rfl, hcs⟩, renderAll_fresh S cs ih, renderAll_expanded]

/-- **The stack computes the text by recursion.** -/
theorem render_eq_text (S : Spelling V) (t : Tree V ω) : t.render S = t.text S := by
  rw [render, renderAll_fresh_cons, renderAll]

end Formula.Tree
