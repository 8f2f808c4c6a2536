/-
Formula/Proofs/Spacing.lean

Blanks may be put between any two words of a text, and in front of the first and behind the
last one; they only move the tokens behind them.

The text is cut in two at the place where the blanks go.  No word lies across the cut, for
there is a blank behind it, or a token begins there, or the text ends (`scan_split`).  So the
first part has tokens of its own, and they do not change if something else comes after it
(`scan_append`); and the second part is read as before, only further on (`scan_later`).

Main statement: `tokens_insert_blanks`.
-/
import Formula.Proofs.Breaks
import Formula.Proofs.Positions

namespace Formula

variable {V ω : Type}

/-! ### Tokens further on -/

/-- The same thing, `k` characters further on. -/
def Placed.later {α : Type} (k : Nat) (t : Placed α) : Placed α := ⟨t.item, t.position + k⟩

/-- What becomes of it if `k` characters are put in at `place`. -/
def Placed.moved {α : Type} (place k : Nat) (t : Placed α) : Placed α :=
  if place ≤ t.position then t.later k else t

theorem Placed.later_zero {α : Type} (t : Placed α) : t.later 0 = t := by
  rw [later, Int.natCast_zero, Int.add_zero]

namespace Lexicon

section

variable {L : Lexicon V ω} {labels : List String} {previous : Option (Lexeme V ω)}
  {position : Nat} {c : Char} {text s u x y : List Char} {l : Lexeme V ω}
  {ts us vs : List (Token V ω)}

theorem implied_later (previous : Option (Lexeme V ω)) (l : Lexeme V ω) (position k : Nat) :
    (implied previous l position).map (Placed.later k) = implied previous l (position + k) := by
  rw [implied, implied]
  split <;> rfl

/-- The tokens of a part of a text are further on where it begins further on, in any text. -/
theorem scan_later (hL : L.Unbroken) (text' : List Char) (k : Nat)
    (h : L.scan L.dictionary.labels text previous 0 position s = .ok ts) :
    L.scan L.dictionary.labels text' previous 0 (position + k) s =
      .ok (ts.map (Placed.later k)) := by
  refine words_induction
    (motive := fun previous position s ts =>
      L.scan L.dictionary.labels text' previous 0 (position + k) s =
        .ok (ts.map (Placed.later k)))
    hL.reachable.empty_not_mem_labels ?_ ?_ ?_ h
  · intro previous position
    rfl
  · intro previous position c s ts hblank ih
    rw [scan, if_pos hblank, Nat.add_right_comm, ih]
  · intro previous position c u rest l ts hblank hfinds ih
    -- what stands in front of the word is another text now, but no pattern looks there
    have hnext : L.next L.dictionary.labels (text'.take (position + k)) previous (position + k) c
        (u ++ rest) = .ok (l, u.length + 1) := by
      rw [hL.next_congr _ _ (text.take position)]
      exact hfinds.next
    rw [scan_word hblank hnext, Nat.add_right_comm, ih, List.map_append, implied_later]
    rfl

/-- Blanks are passed over. -/
theorem scan_blanks (h : ∀ c ∈ x, Text.isBlank c = true) :
    L.scan labels text previous 0 position (x ++ s) =
      L.scan labels text previous 0 (position + x.length) s := by
  induction x generalizing position with
  | nil => rfl
  | cons c x ih =>
    obtain ⟨hc, hx⟩ := List.forall_mem_cons.1 h
    rw [List.cons_append, scan, if_pos hc, ih hx, List.length_cons, Nat.add_right_comm]
    rfl

theorem le_position_of_scan (hlabels : "" ∉ labels)
    (h : L.scan labels text previous 0 position s = .ok ts) : ∀ t ∈ ts, position ≤ t.position := by
  refine words_induction (motive := fun _ position _ ts => ∀ t ∈ ts, position ≤ t.position)
    hlabels ?_ ?_ ?_ h
  · intro previous position t ht
    cases ht
  · intro previous position c s ts _ ih t ht
    have := ih t ht
    omega
  · intro previous position c u rest l ts _ _ ih t ht
    rcases List.mem_append.1 ht with ht | ht
    · exact Int.le_of_eq (position_of_mem_implied ht).symm
    · rcases List.mem_cons.1 ht with rfl | ht
      · exact Int.le_refl _
      · have := ih t ht
        omega

/-! ### Cutting a text in two -/

/-- At `place`, where `y` begins, the text ends, or there is a blank, or a token begins. -/
def Parts (y : List Char) (place : Nat) (ts : List (Token V ω)) : Prop :=
  ∀ c ∈ y.head?, Text.isBlank c = true ∨ ∃ t ∈ ts, t.position = place

/-- No token begins at a place but where one begins. -/
theorem Parts.tail {place : Nat} (hlt : position < place)
    (h : Parts y place (implied previous l position ++ ⟨l, position⟩ :: ts)) :
    Parts y place ts := by
  intro c hc
  refine (h c hc).imp_right ?_
  rintro ⟨t, ht, hplace⟩
  rcases List.mem_append.1 ht with ht | ht
  · have := position_of_mem_implied ht
    omega
  · rcases List.mem_cons.1 ht with rfl | ht
    · have : (position : Int) = place := hplace
      omega
    · exact ⟨t, ht, hplace⟩

/-- No word lies across a place where a text can be cut. -/
theorem Parts.eq_nil (hL : L.Unbroken) {before w v rest : List Char}
    (hfinds : L.Finds L.dictionary.labels before previous c ((w ++ v) ++ rest) l
      ((w ++ v).length + 1))
    (hscan : L.scan L.dictionary.labels text (some l) 0 (position + ((w ++ v).length + 1)) rest =
      .ok ts)
    (h : Parts (v ++ rest) (position + (w.length + 1))
      (implied previous l position ++ ⟨l, position⟩ :: ts)) : v = [] := by
  cases v with
  | nil => rfl
  | cons d v =>
    -- a word has no blanks, and the next token begins behind it
    rcases h.tail (by omega) d rfl with hblank | ⟨t, ht, hplace⟩
    · have hbreak := hfinds.isBreak_tail hL d (by simp)
      rw [isBreak, hblank] at hbreak
      cases hbreak
    · have hle := le_position_of_scan hL.reachable.empty_not_mem_labels hscan t ht
      rw [List.length_append, List.length_cons] at hle
      omega

/-- The second part of a text is read after the first. -/
def Splits (L : Lexicon V ω) (text : List Char) (previous : Option (Lexeme V ω)) (position : Nat)
    (x y : List Char) (ts : List (Token V ω)) : Prop :=
  ∃ us vs, ts = us ++ vs ∧ L.scan L.dictionary.labels text previous 0 position x = .ok us ∧
    L.scan L.dictionary.labels text (lastItem previous us) 0 (position + x.length) y = .ok vs

theorem Splits.nil (h : L.scan L.dictionary.labels text previous 0 position y = .ok ts) :
    L.Splits text previous position [] y ts :=
  ⟨[], ts, rfl, rfl, h⟩

theorem Splits.blank (hblank : Text.isBlank c = true)
    (h : L.Splits text previous (position + 1) x y ts) :
    L.Splits text previous position (c :: x) y ts := by
  obtain ⟨us, vs, rfl, hus, hvs⟩ := h
  refine ⟨us, vs, rfl, by rw [scan, if_pos hblank, hus], ?_⟩
  rwa [List.length_cons, ← Nat.add_assoc, Nat.add_right_comm]

/-- Behind a word and more. -/
theorem end_word (position : Nat) (c : Char) (u x : List Char) :
    position + (c :: (u ++ x)).length = position + (u.length + 1) + x.length := by
  rw [List.length_cons, List.length_append]
  omega

theorem Splits.word (hblank : Text.isBlank c = false)
    (hfinds : L.Finds L.dictionary.labels (text.take position) previous c (u ++ x) l (u.length + 1))
    (h : L.Splits text (some l) (position + (u.length + 1)) x y ts) :
    L.Splits text previous position (c :: (u ++ x)) y
      (implied previous l position ++ ⟨l, position⟩ :: ts) := by
  obtain ⟨us, vs, rfl, hus, hvs⟩ := h
  refine ⟨implied previous l position ++ ⟨l, position⟩ :: us, vs, by simp, ?_, ?_⟩
  · rw [scan_word hblank hfinds.next, hus]
    rfl
  · rwa [lastItem_append, lastItem_cons, end_word]

/-- What is left of the first part behind a word is split by itself. -/
theorem Splits.behind (hL : L.Unbroken) {w : List Char} (hblank : Text.isBlank c = false)
    (hfinds : L.Finds L.dictionary.labels (text.take position) previous c (u ++ (w ++ y)) l
      (u.length + 1))
    (h : Parts y (position + (u.length + 1) + w.length) ts →
      L.Splits text (some l) (position + (u.length + 1)) w y ts)
    (hparts : Parts y (position + (c :: (u ++ w)).length)
      (implied previous l position ++ ⟨l, position⟩ :: ts)) :
    L.Splits text previous position (c :: (u ++ w)) y
      (implied previous l position ++ ⟨l, position⟩ :: ts) := by
  rw [end_word] at hparts
  have hcut := hfinds.cut hL broken_nil
  rw [List.append_nil] at hcut
  exact .word hblank hcut (h (hparts.tail (by omega)))

/-- **A text can be cut in two** at its end, in front of a blank and in front of a token. -/
theorem scan_split (hL : L.Unbroken)
    (h : L.scan L.dictionary.labels text previous 0 position (x ++ y) = .ok ts)
    (hparts : Parts y (position + x.length) ts) : L.Splits text previous position x y ts := by
  generalize hs : x ++ y = s at h
  refine (words_induction
    (motive := fun previous position s ts =>
      L.scan L.dictionary.labels text previous 0 position s = .ok ts ∧
        ∀ x, s = x ++ y → Parts y (position + x.length) ts → L.Splits text previous position x y ts)
    hL.reachable.empty_not_mem_labels ?_ ?_ ?_ h).2 x hs.symm hparts
  · intro previous position
    refine ⟨rfl, fun x hx _ => ?_⟩
    obtain ⟨rfl, rfl⟩ := List.append_eq_nil_iff.1 hx.symm
    exact .nil rfl
  · rintro previous position c s ts hblank ⟨hscan, ih⟩
    have hwhole : L.scan L.dictionary.labels text previous 0 position (c :: s) = .ok ts := by
      rw [scan, if_pos hblank, hscan]
    refine ⟨hwhole, fun x hx hparts => ?_⟩
    cases x with
    | nil => exact .nil (by rwa [← List.nil_append y, ← hx])
    | cons d x =>
      obtain ⟨rfl, rfl⟩ := List.cons.inj hx
      rw [List.length_cons, ← Nat.add_assoc, Nat.add_right_comm] at hparts
      exact .blank hblank (ih x rfl hparts)
  · rintro previous position c u rest l ts hblank hfinds ⟨hscan, ih⟩
    have hwhole : L.scan L.dictionary.labels text previous 0 position (c :: (u ++ rest)) =
        .ok (implied previous l position ++ ⟨l, position⟩ :: ts) := by
      rw [scan_word hblank hfinds.next, hscan]
      rfl
    refine ⟨hwhole, fun x hx hparts => ?_⟩
    cases x with
    | nil => exact .nil (by rwa [← List.nil_append y, ← hx])
    | cons d x =>
      obtain ⟨rfl, hsplit⟩ := List.cons.inj hx
      rcases List.append_eq_append_iff.1 hsplit with ⟨w, rfl, rfl⟩ | ⟨v, rfl, rfl⟩
      · exact .behind hL hblank hfinds (ih w rfl) hparts
      · obtain rfl := hparts.eq_nil hL hfinds hscan
        rw [List.append_nil] at hfinds ih
        have hbehind := Splits.behind (w := []) hL hblank hfinds (ih [] rfl)
        rw [List.append_nil] at hbehind
        exact hbehind hparts

/-- Blanks between two parts of a text move the tokens of the second part. -/
theorem scan_insert (hL : L.Unbroken) (text' : List Char)
    (h : L.scan L.dictionary.labels text previous 0 position (x ++ y) = .ok ts)
    (hparts : Parts y (position + x.length) ts) {b : List Char}
    (hb : ∀ c ∈ b, Text.isBlank c = true) :
    L.scan L.dictionary.labels text' previous 0 position (x ++ (b ++ y)) =
      .ok (ts.map (Placed.moved (position + x.length) b.length)) := by
  have hlabels := hL.reachable.empty_not_mem_labels
  rw [hL.scan_congr _ text text'] at h
  cases b with
  | nil =>
    have hnone : ts.map (Placed.moved (position + x.length) 0) = ts := by
      refine List.map_id'' (fun t => ?_) ts
      rw [Placed.moved, Placed.later_zero, ite_self]
    rw [List.length_nil, hnone]
    exact h
  | cons c b =>
    obtain ⟨us, vs, rfl, hus, hvs⟩ := scan_split hL h hparts
    have hbefore : us.map (Placed.moved (position + x.length) (c :: b).length) = us := by
      conv_rhs => rw [← List.map_id us]
      refine List.map_congr_left fun t ht => ?_
      obtain ⟨place, hplace, hlt⟩ := position_of_scan hlabels hus t ht
      rw [Placed.moved, if_neg (by omega), id]
    have hbehind : vs.map (Placed.moved (position + x.length) (c :: b).length) =
        vs.map (Placed.later (c :: b).length) := by
      refine List.map_congr_left fun t ht => ?_
      have hle := le_position_of_scan hlabels hvs t ht
      rw [Placed.moved, if_pos hle]
    have hbreak : isBreak c = true := by
      rw [isBreak, hb c (List.mem_cons_self ..), Bool.true_or]
    rw [List.map_append, hbefore, hbehind, List.cons_append,
      scan_append hL (broken_cons hbreak (b ++ y)) hus, ← List.cons_append, scan_blanks hb,
      scan_later hL text' _ hvs]
    rfl

end

/-- **Blanks at the border of a token only move the tokens behind them.**  They may be put in
anywhere between the end of one token and the beginning of the next, which is `after`, and
also in front of the first token and behind the last one. -/
theorem tokens_insert_blanks {L : Lexicon V ω} (hD : L.dictionary.Reachable)
    (hpatterns : L.patterns = Matcher.defaults) {before gap after blanks : String}
    {ts : List (Token V ω)} (h : L.tokens (before ++ gap ++ after) = .ok ts)
    (hgap : ∀ c ∈ gap.toList, Text.isBlank c = true)
    (hafter : after = "" ∨ ∃ t ∈ ts, t.position = (before ++ gap).length)
    (hblanks : ∀ c ∈ blanks.toList, Text.isBlank c = true) :
    L.tokens (before ++ blanks ++ gap ++ after) =
      .ok (ts.map (Placed.moved before.length blanks.length)) := by
  have hL : L.Unbroken := ⟨hD, _, hpatterns, Pattern.unbroken_defaults⟩
  have hparts : Parts (gap.toList ++ after.toList) (0 + before.toList.length) ts := by
    cases hletters : gap.toList with
    | cons c g =>
      rintro d ⟨⟩
      exact .inl (hgap c (by simp [hletters]))
    | nil =>
      rw [String.toList_eq_nil_iff.1 hletters, String.append_empty] at hafter
      rintro d hd
      rcases hafter with rfl | ⟨t, ht, hplace⟩
      · cases hd
      · exact .inr ⟨t, ht, by rw [hplace, String.length_toList, Nat.zero_add]⟩
  rw [tokens, String.toList_append, String.toList_append, List.append_assoc] at h
  have hinsert := scan_insert hL
    (before.toList ++ (blanks.toList ++ (gap.toList ++ after.toList))) h hparts hblanks
  rw [String.length_toList, String.length_toList, Nat.zero_add] at hinsert
  rw [tokens, String.toList_append, String.toList_append, String.toList_append, List.append_assoc,
    List.append_assoc]
  exact hinsert

end Lexicon

/-! ### Blanks in front of a factor -/

theorem tokens_insert_blanks_impliedTwice :
    (factorials 6).dictionary.Reachable ∧ (factorials 6).patterns = Matcher.defaults ∧
      (factorials 6).tokens (" 2" ++ "" ++ "x! (y)") = .ok impliedTwice ∧
      (∀ c ∈ "".toList, Text.isBlank c = true) ∧
      (∃ t ∈ impliedTwice, t.position = (" 2" ++ "").length) ∧
      (∀ c ∈ " \t\n".toList, Text.isBlank c = true) ∧
      (factorials 6).tokens (" 2" ++ " \t\n" ++ "" ++ "x! (y)") =
        .ok (impliedTwice.map (Placed.moved " 2".length " \t\n".length)) := by
  have htokens : (factorials 6).tokens (" 2" ++ "" ++ "x! (y)") = .ok impliedTwice := by rfl
  have hplace : ∃ t ∈ impliedTwice, t.position = (" 2" ++ "").length := by
    exact ⟨⟨.var "x", 2⟩, by simp [impliedTwice], rfl⟩
  have hempty : ∀ c ∈ "".toList, Text.isBlank c = true := by simp
  have hblanks : ∀ c ∈ " \t\n".toList, Text.isBlank c = true := List.all_eq_true.1 (by decide)
  exact ⟨reachable_factorials 6, rfl, htokens, hempty, hplace, hblanks,
    Lexicon.tokens_insert_blanks (reachable_factorials 6) rfl htokens hempty (.inr hplace)
      hblanks⟩

end Formula
