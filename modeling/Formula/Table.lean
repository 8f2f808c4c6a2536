/-
Formula/Table.lean

Tables from labels to values, kept in the order of insertion.  The view of a
table is `get?`; `insert` and `erase` are described through it (`get?_insert`,
`get?_erase`), so that a client never looks at the list inside.
-/
namespace Formula

/-- A table from labels to values. -/
structure Table (α : Type) where
  entries : List (String × α)
  deriving Repr

namespace Table

variable {α : Type}

/-- The table without entries. -/
def empty : Table α := ⟨[]⟩

/-- The value under a label: the first entry decides. -/
def get? (t : Table α) (label : String) : Option α := find t.entries
where
  find : List (String × α) → Option α
    | [] => none
    | e :: es => if e.1 = label then some e.2 else find es

/-- Does the table have a value under the label? -/
def contains (t : Table α) (label : String) : Bool := (t.get? label).isSome

/-- The labels, in the order of insertion. -/
def labels (t : Table α) : List String := t.entries.map Prod.fst

/-- Removes every entry under a label. -/
def erase (t : Table α) (label : String) : Table α :=
  ⟨t.entries.filter fun e => e.1 != label⟩

/-- Puts a value under a label, in the place of the old one if there is one. -/
def insert (t : Table α) (label : String) (value : α) : Table α :=
  ⟨put t.entries⟩
where
  put : List (String × α) → List (String × α)
    | [] => [(label, value)]
    | e :: es => if e.1 = label then (label, value) :: es else e :: put es

/-- The entries of `t`, overridden and extended by those of `u`. -/
def override (t u : Table α) : Table α :=
  u.entries.foldl (fun t e => t.insert e.1 e.2) t

/-- A table with the given entries; of two under one label, the later one counts. -/
def ofList (entries : List (String × α)) : Table α := override empty ⟨entries⟩

/-! ### The view -/

theorem contains_eq_isSome (t : Table α) (l : String) :
    t.contains l = (t.get? l).isSome := rfl

theorem get?_insert (t : Table α) (label l : String) (v : α) :
    (t.insert label v).get? l = if l = label then some v else t.get? l := by
  obtain ⟨es⟩ := t
  simp only [insert, get?]
  induction es with
  | nil => simp [insert.put, get?.find, eq_comm]
  | cons e es ih =>
    by_cases hk : e.1 = label
    · by_cases h : l = label
      · simp [insert.put, get?.find, hk, h]
      · simp [insert.put, get?.find, hk, h, Ne.symm h]
    · by_cases hl : e.1 = l
      · subst hl
        simp [insert.put, get?.find, hk]
      · simp [insert.put, get?.find, hk, hl, ih]

theorem get?_erase (t : Table α) (label l : String) :
    (t.erase label).get? l = if l = label then none else t.get? l := by
  obtain ⟨es⟩ := t
  simp only [erase, get?]
  induction es with
  | nil => simp [get?.find]
  | cons e es ih =>
    by_cases hk : e.1 = label
    · by_cases h : l = label
      · simpa [hk, h] using ih
      · simpa [hk, h, get?.find, Ne.symm h] using ih
    · by_cases hl : e.1 = l
      · subst hl
        simp [get?.find, hk]
      · simpa [hk, get?.find, hl] using ih

theorem mem_labels {t : Table α} {label : String} :
    label ∈ t.labels ↔ ∃ a, t.get? label = some a := by
  obtain ⟨es⟩ := t
  simp only [labels, get?]
  induction es with
  | nil => simp [get?.find]
  | cons e es ih =>
    by_cases h : e.1 = label
    · simp [get?.find, h]
    · simp [get?.find, h, ih, Ne.symm h]

/-- With one value under all labels of `u`, this is the value under any of them. -/
theorem get?_override_const {t u : Table α} {v : α} (hu : ∀ e ∈ u.entries, e.2 = v) {l : String}
    (h : l ∈ u.labels ∨ t.get? l = some v) : (t.override u).get? l = some v := by
  obtain ⟨es⟩ := u
  simp only [override, labels] at hu h ⊢
  induction es generalizing t with
  | nil => simpa using h
  | cons e es ih =>
    rw [List.foldl_cons]
    refine ih (fun d hd => hu d (List.mem_cons_of_mem _ hd)) ?_
    rw [get?_insert, hu e (List.mem_cons_self ..)]
    by_cases hl : l = e.1
    · exact .inr (if_pos hl)
    · rw [if_neg hl]
      rcases h with h | h
      · exact .inl ((List.mem_cons.1 h).resolve_left hl)
      · exact .inr h

/-! ### Tables with one entry for each label -/

/-- No label has two entries.  So it is for all tables that are made by insertions
(`single_ofList`). -/
def Single (t : Table α) : Prop := t.labels.Nodup

theorem single_empty : (empty : Table α).Single := List.nodup_nil

theorem labels_insert (t : Table α) (label : String) (v : α) :
    (t.insert label v).labels = if label ∈ t.labels then t.labels else t.labels ++ [label] := by
  obtain ⟨es⟩ := t
  simp only [insert, labels]
  induction es with
  | nil => simp [insert.put]
  | cons e es ih =>
    rw [insert.put]
    split
    · next h => simp [h]
    · next h =>
      by_cases hmem : label ∈ es.map Prod.fst
      · simp [ih, hmem]
      · simp [ih, hmem, Ne.symm h]

theorem Single.insert {t : Table α} (h : t.Single) (label : String) (v : α) :
    (t.insert label v).Single := by
  rw [Single, labels_insert]
  split
  · exact h
  · next hnew => exact List.nodup_append.2 ⟨h, by simp, by
      rintro l hl _ hlabel rfl
      exact hnew (List.mem_singleton.1 hlabel ▸ hl)⟩

theorem Single.override {t : Table α} (h : t.Single) (u : Table α) : (t.override u).Single := by
  obtain ⟨es⟩ := u
  simp only [Table.override]
  induction es generalizing t with
  | nil => exact h
  | cons e es ih => exact ih (h.insert e.1 e.2)

theorem single_ofList (entries : List (String × α)) : (ofList entries).Single :=
  single_empty.override ⟨entries⟩

/-- The value in the table that overrides, or else the old one. -/
theorem get?_override {t u : Table α} (hu : u.Single) (l : String) :
    (t.override u).get? l = (u.get? l).or (t.get? l) := by
  obtain ⟨es⟩ := u
  induction es generalizing t with
  | nil => rfl
  | cons e es ih =>
    obtain ⟨hfirst, hes⟩ := List.nodup_cons.1 hu
    have hstep : t.override ⟨e :: es⟩ = (t.insert e.1 e.2).override ⟨es⟩ := rfl
    have hcons : (⟨e :: es⟩ : Table α).get? l =
        if e.1 = l then some e.2 else (⟨es⟩ : Table α).get? l := rfl
    rw [hstep, ih hes, get?_insert, hcons]
    by_cases hl : l = e.1
    · -- the first entry is the only one for its label
      have hnone : (⟨es⟩ : Table α).get? l = none := by
        rw [← Option.not_isSome_iff_eq_none, Option.isSome_iff_exists, ← mem_labels, hl]
        exact hfirst
      rw [if_pos hl, if_pos hl.symm, hnone]
      rfl
    · rw [if_neg hl, if_neg (Ne.symm hl)]

end Table

end Formula
