/-
Formula/Proofs/Labels.lean

Which label the lexer finds at the front of a text.  The labels of a dictionary are
kept longest first, so the first one that fits is the longest.  Labels of one length are
in the order of their characters, so that the list is determined by its members.

Main statements: `Ordered.ext` and `label?_eq_some`.
-/
import Formula.Token.Lexer

namespace Formula

variable {V ω : Type}

/-! ### The order of labels -/

theorem mem_insertLabel {label l : String} {ls : List String} :
    l ∈ insertLabel label ls ↔ l = label ∨ l ∈ ls := by
  induction ls with
  | nil => simp [insertLabel]
  | cons k ls ih =>
    rw [insertLabel]
    split
    · next h =>
      subst h
      simp
    · split
      · simp
      · simp only [List.mem_cons, ih]
        exact or_left_comm

theorem comesBefore_iff {a b : String} :
    comesBefore a b = true ↔ b.length < a.length ∨ a.length = b.length ∧ a < b := by
  simp [comesBefore]

theorem comesBefore_trans {a b c : String} (hab : comesBefore a b = true)
    (hbc : comesBefore b c = true) : comesBefore a c = true := by
  rw [comesBefore_iff] at hab hbc ⊢
  rcases hab with hab | ⟨hab, hlt⟩
  · exact .inl (by omega)
  · rcases hbc with hbc | ⟨hbc, hlt'⟩
    · exact .inl (by omega)
    · exact .inr ⟨by omega, String.lt_trans hlt hlt'⟩

theorem comesBefore_asymm {a b : String} (h : comesBefore a b = true) :
    comesBefore b a = false := by
  rw [← Bool.not_eq_true, comesBefore_iff]
  rintro (hlength | ⟨hlength, hlt⟩) <;> rcases comesBefore_iff.1 h with h | ⟨h, hgt⟩
  · omega
  · omega
  · omega
  · exact String.lt_asymm hlt hgt

theorem comesBefore_of_not {a b : String} (hne : a ≠ b) (h : comesBefore a b = false) :
    comesBefore b a = true := by
  rw [← Bool.not_eq_true, comesBefore_iff, not_or, not_and] at h
  obtain ⟨hlength, hlt⟩ := h
  rw [comesBefore_iff]
  by_cases heq : b.length = a.length
  · rcases Std.lt_trichotomy a b with hab | hab | hba
    · exact absurd hab (hlt heq.symm)
    · exact absurd hab hne
    · exact .inr ⟨heq, hba⟩
  · exact .inl (by omega)

/-- Every label comes before all that follow it. -/
def Ordered (ls : List String) : Prop := ls.Pairwise fun a b => comesBefore a b = true

theorem ordered_insertLabel {label : String} {ls : List String} (h : Ordered ls) :
    Ordered (insertLabel label ls) := by
  induction ls with
  | nil => exact List.pairwise_singleton ..
  | cons l ls ih =>
    obtain ⟨hl, hls⟩ := List.pairwise_cons.1 h
    rw [insertLabel]
    split
    · exact h
    · next hne =>
      split
      · next hbefore =>
        refine List.pairwise_cons.2 ⟨?_, h⟩
        intro k hk
        rcases List.mem_cons.1 hk with rfl | hk
        · exact hbefore
        · exact comesBefore_trans hbefore (hl k hk)
      · next hbefore =>
        refine List.pairwise_cons.2 ⟨?_, ih hls⟩
        intro k hk
        rcases mem_insertLabel.1 hk with rfl | hk
        · exact comesBefore_of_not hne (by simpa using hbefore)
        · exact hl k hk

theorem Dictionary.ordered_labels (D : Dictionary V ω) : Ordered D.labels := by
  rw [labels]
  generalize predefinedLabels ++ D.operators.labels ++ D.functions.labels = ls
  induction ls with
  | nil => exact List.Pairwise.nil
  | cons l ls ih => exact ordered_insertLabel ih

/-- Labels in order are determined by which there are. -/
theorem Ordered.ext {ls ks : List String} (hls : Ordered ls) (hks : Ordered ks)
    (h : ∀ l, l ∈ ls ↔ l ∈ ks) : ls = ks := by
  have hnodup : ∀ {js : List String}, Ordered js → js.Nodup := by
    intro js hjs
    refine hjs.imp ?_
    rintro a _ hab rfl
    rw [comesBefore_asymm hab] at hab
    cases hab
  refine List.Perm.eq_of_pairwise ?_ hls hks
    ((List.perm_ext_iff_of_nodup (hnodup hls) (hnodup hks)).2 h)
  intro a b _ _ hab hba
  rw [comesBefore_asymm hab] at hba
  cases hba

/-- Longer labels come first. -/
def LongestFirst (ls : List String) : Prop := ls.Pairwise fun a b => b.length ≤ a.length

theorem Dictionary.longestFirst_labels (D : Dictionary V ω) : LongestFirst D.labels := by
  refine D.ordered_labels.imp ?_
  intro a b hab
  rcases comesBefore_iff.1 hab with h | ⟨h, -⟩ <;> omega

theorem Dictionary.mem_labels {D : Dictionary V ω} {label : String} :
    label ∈ D.labels ↔ label ∈ predefinedLabels ∨
      (∃ s, D.operators.get? label = some s) ∨ ∃ f, D.function? label = some f := by
  have hfold : ∀ ls : List String, label ∈ ls.foldr insertLabel [] ↔ label ∈ ls := by
    intro ls
    induction ls with
    | nil => rfl
    | cons l ls ih => rw [List.foldr_cons, mem_insertLabel, ih, List.mem_cons]
  rw [labels, hfold]
  simp [Table.mem_labels, function?]

/-- The labels are those that are looked up as operators or as functions. -/
theorem Dictionary.mem_labels_iff_lookup {D : Dictionary V ω} {label : String} :
    label ∈ D.labels ↔ D.lookup label = .operator ∨ D.lookup label = .function := by
  have hpredefined : label ∈ predefinedLabels ↔ isPredefined label = true := by
    simp [isPredefined]
  rw [mem_labels, hpredefined, ← Option.isSome_iff_exists, ← Option.isSome_iff_exists,
    function?, ← Table.contains_eq_isSome, ← Table.contains_eq_isSome, Dictionary.lookup]
  cases isPredefined label <;> cases D.operators.contains label <;>
    cases D.functions.contains label <;> cases D.constants.contains label <;> decide

/-- The labels of operators are labels. -/
theorem Dictionary.mem_labels_of_operator? {D : Dictionary V ω} {label : String} {slot : Slot}
    {op : Placed (Operator ω)} (h : D.operator? label slot = some op) : label ∈ D.labels := by
  rw [operator?] at h
  split at h
  · next s hs => exact Dictionary.mem_labels.2 (.inl (mem_predefinedLabels hs))
  · obtain ⟨s, hs, -⟩ := Option.bind_eq_some_iff.1 h
    exact Dictionary.mem_labels.2 (.inr (.inl ⟨s, hs⟩))

/-- The lexer finds the longest label that fits. -/
theorem label?_eq_some {ls : List String} {label : String} {s : List Char}
    (hls : LongestFirst ls) (hmem : label ∈ ls) (hfits : label.toList <+: s)
    (hlongest : ∀ l ∈ ls, l.toList <+: s → l.length ≤ label.length) :
    label? ls s = some label := by
  induction ls with
  | nil => cases hmem
  | cons l ls ih =>
    obtain ⟨hl, hls⟩ := List.pairwise_cons.1 hls
    rw [label?]
    by_cases hpre : l.toList <+: s
    · -- a label that fits and comes before the longest one is as long, so it is the same
      have hle := hlongest l (List.mem_cons_self ..) hpre
      have hge : label.length ≤ l.length := by
        rcases List.mem_cons.1 hmem with rfl | hmem
        · exact Nat.le_refl _
        · exact hl label hmem
      have heq : l = label := by
        have hlen : l.toList.length = label.toList.length := by
          rw [String.length_toList, String.length_toList]
          omega
        have := List.prefix_of_prefix_length_le hpre hfits (Nat.le_of_eq hlen)
        exact String.toList_inj.1 (this.eq_of_length hlen)
      rw [List.find?_cons_of_pos (by simpa using hpre), heq]
    · rw [List.find?_cons_of_neg (by simpa using hpre)]
      refine ih hls ?_ fun k hk => hlongest k (List.mem_cons_of_mem _ hk)
      rcases List.mem_cons.1 hmem with rfl | hmem
      · exact absurd hfits hpre
      · exact hmem

/-- A label that the lexer finds is one of the dictionary, and the text starts with it. -/
theorem of_label? {ls : List String} {label : String} {s : List Char}
    (h : label? ls s = some label) : label ∈ ls ∧ label.toList <+: s :=
  ⟨List.mem_of_find?_eq_some h, by simpa using List.find?_some h⟩

/-- No label that fits is longer than the one that the lexer finds. -/
theorem length_le_of_label? {ls : List String} {l label : String} {s : List Char}
    (hls : LongestFirst ls) (h : label? ls s = some label) (hl : l ∈ ls)
    (hfits : l.toList <+: s) : l.length ≤ label.length := by
  obtain ⟨-, before, behind, rfl, hbefore⟩ := List.find?_eq_some_iff_append.1 h
  rcases List.mem_append.1 hl with hl | hl
  · have hnot := hbefore l hl
    simp only [Bool.not_eq_true', ← Bool.not_eq_true, List.isPrefixOf_iff_prefix] at hnot
    exact absurd hfits hnot
  · rcases List.mem_cons.1 hl with rfl | hl
    · exact Nat.le_refl _
    · exact (List.pairwise_cons.1 (List.pairwise_append.1 hls).2.1).1 l hl

theorem label?_eq_none_iff {ls : List String} {s : List Char} :
    label? ls s = none ↔ ∀ l ∈ ls, ¬ l.toList <+: s := by
  simp only [label?, List.find?_eq_none, List.isPrefixOf_iff_prefix]

theorem label?_eq_none {ls : List String} {s : List Char}
    (h : ∀ l ∈ ls, ¬ l.toList <+: s) : label? ls s = none :=
  label?_eq_none_iff.2 h

end Formula
