/-
Formula/Proofs/Breaks.lean

Blanks and structural marks are *breaks*: they belong to no literal of the default patterns, to
no label and to no name, so every word ends in front of them.  Hence it does not matter for a
word what stands behind the next break, nor whether anything stands there at all.

A word is found by looking ahead, and what is behind it decides how long it is.  `Finds.cut`
says how much of that can be changed: the text behind a word may be cut off anywhere, if the
rest is made to begin with a break or left out.  For labels and names this is plain, for they
are the longest ones that fit.  A pattern has no such description, it tries one way to match
after the other; but a way that goes no further than the cut goes as far on both texts, and a
way that goes further was of no use for the word (`run_cut`).

What stands in front of a word does not matter at all: these patterns do not look back, so a part
of a text is read as in any other text (`Unbroken.scan_congr`).

Main statements: `Finds.cut` for one word and `scan_append` for a whole text.
-/
import Formula.Proofs.Coverage
import Formula.Proofs.Neighbours
import Formula.Proofs.Words

namespace Formula

variable {V ω : Type}

/-! ### Breaks -/

/-- Blanks and structural marks. -/
def isBreak (c : Char) : Bool := Text.isBlank c || isStructural c

/-- The text is empty, or it begins with a break. -/
def Broken (z : List Char) : Prop := ∀ c ∈ z.head?, isBreak c = true

theorem broken_nil : Broken [] := by
  intro c hc
  cases hc

theorem broken_cons {c : Char} (h : isBreak c = true) (z : List Char) : Broken (c :: z) := by
  intro d hd
  rwa [← Option.some.inj hd]

theorem Stops.broken {z : List Char} (h : Stops z) : Broken z := by
  intro c hc
  rcases h c hc with rfl | rfl | rfl <;> decide

theorem isBreak_eq_false {c : Char} (h : (48 ≤ c.toNat ∧ c.toNat < 133) ∨
    (1632 ≤ c.toNat ∧ c.toNat < 5760) ∨ (6112 ≤ c.toNat ∧ c.toNat < 8192) ∨ 42528 ≤ c.toNat) :
    isBreak c = false := by
  have hmark : ∀ d : Char, d.toNat < 48 → (c == d) = false := by
    intro d hd
    rw [beq_eq_false_iff_ne]
    rintro rfl
    omega
  rw [isBreak, Bool.or_eq_false_iff]
  constructor
  · simp only [Text.isBlank, Bool.or_eq_false_iff, Bool.and_eq_false_iff, decide_eq_false_iff_not,
      beq_eq_false_iff_ne]
    omega
  · rw [isStructural, hmark '(' (by decide), hmark ')' (by decide), hmark ',' (by decide)]
    rfl

/-- Digits of all scripts are no breaks. -/
theorem isBreak_of_isDigit {c : Char} (h : Text.isDigit c = true) : isBreak c = false := by
  have hzeros : ∀ z ∈ Text.zeros, z = 48 ∨ (1632 ≤ z ∧ z < 5750) ∨ (6112 ≤ z ∧ z < 8182) ∨
      42528 ≤ z := by decide
  rw [Text.isDigit, Text.digit?, Option.isSome_map, List.find?_isSome] at h
  obtain ⟨z, hz, hc⟩ := h
  have := hzeros z hz
  simp only [Bool.and_eq_true, decide_eq_true_eq] at hc
  apply isBreak_eq_false
  omega

theorem isBreak_of_continuesName {c : Char} (h : continuesName c = true) : isBreak c = false := by
  apply isBreak_eq_false
  rw [continuesName, Bool.or_eq_true] at h
  rcases h with h | h
  · have := toNat_of_startsName h
    omega
  · simp only [Bool.and_eq_true, decide_eq_true_eq] at h
    have h1 := UInt32.le_iff_toNat_le.1 h.1
    have h2 := UInt32.le_iff_toNat_le.1 h.2
    have h1 : 48 ≤ c.toNat := h1
    have h2 : c.toNat ≤ 57 := h2
    omega

/-! ### Patterns -/

namespace Pattern

/-- Only single characters are repeated. -/
def Flat : Pattern → Prop
  | empty | one _ => True
  | seq p q | alt p q => p.Flat ∧ q.Flat
  | star (one _) => True
  | star _ => False

/-- What happens in front of `y` happens in front of `z`, unless it reaches into `y`. -/
structure Cut (y z : List Char) (o o' : Option (List Char)) : Prop where
  fails : o = none → o' = none
  keeps : ∀ v, o = some (v ++ y) → o' = some (v ++ z)

section

variable {y z s r : List Char} {o o' q q' : Option (List Char)}
  {k k' : List Char → Option (List Char)}

theorem Cut.orElse (h : Cut y z o o') (hq : Cut y z q q') : Cut y z (o <|> q) (o' <|> q') := by
  cases o with
  | none =>
    rw [h.fails rfl]
    exact hq
  | some r =>
    refine ⟨nofun, fun v hv => ?_⟩
    rw [h.keeps v hv]
    rfl

theorem cut_none : Cut y z none none where
  fails _ := rfl
  keeps v hv := by cases hv

/-- What reaches into `y` need not happen. -/
theorem Cut.beyond (h : ∀ r, o = some r → r.length < y.length) : Cut y z o none := by
  refine ⟨fun _ => rfl, fun v hv => ?_⟩
  have hlt := h _ hv
  rw [List.length_append] at hlt
  omega

/-- What a pattern over `a` leaves is reached through characters of `a`. -/
theorem run_eq_some {a : Char → Bool} {p : Pattern} (hp : p.Within a) (h : p.run s k = some r) :
    ∃ u v, s = u ++ v ∧ (∀ c ∈ u, a c = true) ∧ k v = some r := by
  obtain ⟨u, v, hs, hu, hr⟩ := of_run_eq_some h
  exact ⟨u, v, hs, within_of_matches hp hu, hr⟩

/-- Continuations that leave a part from the end of what they are given. -/
def Trims (k : List Char → Option (List Char)) : Prop := ∀ t r, k t = some r → r <:+ t

theorem trims_some : Trims some := fun _ _ h => Option.some.inj h ▸ List.suffix_refl _

theorem Trims.run {a : Char → Bool} {p : Pattern} (hk : Trims k) (hp : p.Within a) :
    Trims fun s => p.run s k := by
  intro s r h
  obtain ⟨u, v, rfl, -, hr⟩ := run_eq_some hp h
  exact (hk v r hr).trans (List.suffix_append u v)

section

variable {a : Char → Bool} (hz : ∀ c ∈ z.head?, a c = false)
  (hk : Trims k) (hcut : ∀ u, Cut y z (k (u ++ y)) (k' (u ++ z)))
include hz hk hcut

theorem run_one_cut {accepts : Char → Bool} (ha : ∀ c, accepts c = true → a c = true)
    (s : List Char) : Cut y z ((one accepts).run (s ++ y) k) ((one accepts).run (s ++ z) k') := by
  cases s with
  | cons c s =>
    rw [List.cons_append, List.cons_append, run, run]
    split
    · exact hcut s
    · exact cut_none
  | nil =>
    -- the character would have to be the first of `z`
    have hnone : (one accepts).run ([] ++ z) k' = none := by
      cases z with
      | nil => rfl
      | cons c z =>
        rw [List.nil_append, run, if_neg]
        intro hc
        have := hz c rfl
        rw [ha c hc] at this
        cases this
    rw [hnone]
    refine Cut.beyond fun r hr => ?_
    cases y with
    | nil => cases hr
    | cons c y =>
      rw [List.nil_append, run] at hr
      split at hr
      · exact Nat.lt_succ_of_le (hk y r hr).length_le
      · cases hr

theorem run_star_cut {accepts : Char → Bool} (ha : ∀ c, accepts c = true → a c = true)
    (s : List Char) :
    Cut y z ((star (one accepts)).run (s ++ y) k) ((star (one accepts)).run (s ++ z) k') := by
  induction s with
  | cons c s ih =>
    rw [List.cons_append, List.cons_append, run_star_one_cons, run_star_one_cons]
    refine Cut.orElse ?_ (hcut (c :: s))
    split
    · exact ih
    · exact cut_none
  | nil =>
    have hz' : (star (one accepts)).run ([] ++ z) k' = (none <|> k' ([] ++ z)) := by
      cases z with
      | nil => rfl
      | cons c z =>
        rw [List.nil_append, run_star_one_cons, if_neg]
        intro hc
        have := hz c rfl
        rw [ha c hc] at this
        cases this
    rw [hz']
    cases y with
    | nil => exact cut_none.orElse (hcut [])
    | cons c y =>
      rw [List.nil_append, run_star_one_cons]
      refine Cut.orElse (Cut.beyond fun r hr => ?_) (hcut [])
      split at hr
      · exact Nat.lt_succ_of_le (hk.run (p := star (one accepts)) ha y r hr).length_le
      · cases hr

/-- What a pattern does in front of `y` it does in front of `z`, if it cannot go on there. -/
theorem run_cut {p : Pattern} (hp : p.Within a) (hflat : p.Flat) (s : List Char) :
    Cut y z (p.run (s ++ y) k) (p.run (s ++ z) k') := by
  induction p generalizing k k' s with
  | empty => exact hcut s
  | one accepts => exact run_one_cut hz hk hcut hp s
  | seq p q ihp ihq =>
    exact ihp (hk.run hp.2) (fun u => ihq hk hcut hp.2 hflat.2 u) hp.1 hflat.1 s
  | alt p q ihp ihq =>
    exact Cut.orElse (ihp hk hcut hp.1 hflat.1 s) (ihq hk hcut hp.2 hflat.2 s)
  | star p _ =>
    cases p with
    | one accepts => exact run_star_cut hz hk hcut hp s
    | _ => cases hflat

end

/-- The preferred match is not changed by cutting the text off behind it. -/
theorem match?_cut {a : Char → Bool} {p : Pattern} (hp : p.Within a) (hflat : p.Flat)
    (hz : ∀ c ∈ z.head?, a c = false) (s : List Char) :
    (p.match? (s ++ y) = none → p.match? (s ++ z) = none) ∧
      ∀ w, w.length ≤ s.length → p.match? (s ++ y) = some w → p.match? (s ++ z) = some w := by
  have hcut : Cut y z (p.rest? (s ++ y)) (p.rest? (s ++ z)) := by
    refine run_cut hz trims_some (fun u => ⟨nofun, fun v hv => ?_⟩) hp hflat s
    rw [List.append_cancel_right (Option.some.inj hv)]
  constructor
  · intro h
    rw [match?, Option.map_eq_none_iff] at h ⊢
    exact hcut.fails h
  · intro w hw h
    obtain ⟨r, hr, rfl⟩ := Option.map_eq_some_iff.1 h
    have hsuffix : r <:+ s ++ y := trims_some.run hp _ r hr
    have hlength := hsuffix.length_le
    -- the match stays in front of `y`, so `y` is a part of what it leaves
    have hle : y.length ≤ r.length := by
      rw [List.length_take, List.length_append] at hw
      rw [List.length_append] at hlength
      omega
    obtain ⟨v, rfl⟩ := List.suffix_of_suffix_length_le (List.suffix_append s y) hsuffix hle
    obtain ⟨u, hu⟩ := hsuffix
    obtain rfl : u ++ v = s := by
      rw [← List.append_assoc] at hu
      exact List.append_cancel_right hu
    rw [match?, hcut.keeps v hr, Option.map_some]
    simp

/-- The pattern accepts no break, and only single characters are repeated. -/
structure Unbroken (p : Pattern) : Prop where
  within : p.Within fun c => !isBreak c
  flat : p.Flat

/-- Literals are not changed by cutting the text off behind them. -/
theorem literal?_cut {ps : List Pattern} (hps : ∀ p ∈ ps, p.Unbroken) (hz : Broken z)
    (before s : List Char) :
    (Matcher.literal? (ps.map matcher) before (s ++ y) = none →
      Matcher.literal? (ps.map matcher) before (s ++ z) = none) ∧
    ∀ w, w.length ≤ s.length → Matcher.literal? (ps.map matcher) before (s ++ y) = some w →
      Matcher.literal? (ps.map matcher) before (s ++ z) = some w := by
  rw [Matcher.literal?_map, Matcher.literal?_map]
  induction ps with
  | nil => exact ⟨fun _ => rfl, fun w _ h => by cases h⟩
  | cons p ps ih =>
    obtain ⟨hp, hps⟩ := List.forall_mem_cons.1 hps
    have hbreak : ∀ c ∈ z.head?, (!isBreak c) = false := fun c hc => by rw [hz c hc]; rfl
    obtain ⟨hnone, hsome⟩ := match?_cut (y := y) hp.within hp.flat hbreak s
    obtain ⟨ihnone, ihsome⟩ := ih hps
    simp only [List.findSome?_cons] at ihnone ihsome ⊢
    cases hmatch : p.match? (s ++ y) with
    | none =>
      rw [hnone hmatch]
      exact ⟨ihnone, ihsome⟩
    | some w =>
      -- a match that is empty is none, and it is empty on both texts
      cases w with
      | nil =>
        rw [hsome [] (Nat.zero_le _) hmatch]
        exact ⟨ihnone, ihsome⟩
      | cons c w =>
        refine ⟨fun h => absurd h (Option.some_ne_none _), fun w' hlength hw' => ?_⟩
        obtain rfl : c :: w = w' := Option.some.inj hw'
        rw [hsome _ hlength hmatch]
        rfl

/-- There is no break in a literal. -/
theorem isBreak_of_literal? {ps : List Pattern} (hps : ∀ p ∈ ps, p.Unbroken)
    {before s w : List Char} (h : Matcher.literal? (ps.map matcher) before s = some w) :
    ∀ c ∈ w, isBreak c = false := by
  rw [Matcher.literal?_map] at h
  obtain ⟨p, hp, hmatch⟩ := List.exists_of_findSome?_eq_some h
  obtain ⟨rest, hrest, rfl⟩ := Option.map_eq_some_iff.1 (Option.filter_eq_some_iff.1 hmatch).1
  obtain ⟨u, v, rfl, hu, hv⟩ := run_eq_some (hps p hp).within hrest
  obtain rfl := Option.some.inj hv
  intro c hc
  simpa using hu c (by simpa using hc)

theorem unbroken_defaults : ∀ p ∈ defaults, p.Unbroken := by
  have hdigit : ∀ c, Text.isDigit c = true → (!isBreak c) = true :=
    fun c hc => by rw [isBreak_of_isDigit hc]; rfl
  have hpoint : ∀ c, (c == '.') = true → (!isBreak c) = true :=
    fun c hc => by rw [beq_iff_eq.1 hc]; decide
  have hsign : ∀ c, (c == '-' || c == '+') = true → (!isBreak c) = true := by
    simp only [Bool.or_eq_true, beq_iff_eq]
    rintro c (rfl | rfl) <;> decide
  have hexponent : ∀ c, (c == 'e' || c == 'E') = true → (!isBreak c) = true := by
    simp only [Bool.or_eq_true, beq_iff_eq]
    rintro c (rfl | rfl) <;> decide
  intro p hp
  simp only [defaults, List.mem_cons, List.not_mem_nil, or_false] at hp
  rcases hp with rfl | rfl
  · constructor
    · exact ⟨⟨⟨⟨hdigit, hdigit⟩, ⟨hpoint, trivial⟩, hdigit⟩, hpoint, hdigit, hdigit⟩, hexponent,
        ⟨hsign, trivial⟩, hdigit, hdigit⟩
    · simp [Flat, scientific, plus, opt, digit, char, sign]
  · constructor
    · exact ⟨hdigit, ⟨hpoint, trivial⟩, hdigit, hdigit⟩
    · simp [Flat, decimal, plus, opt, digit, char]

end

end Pattern

/-! ### Labels and names -/

section

variable {s u y z : List Char}

/-- What has no break in it ends in front of one. -/
theorem prefix_of_unbroken (hu : ∀ c ∈ u, isBreak c = false) (hz : Broken z) (h : u <+: s ++ z) :
    u <+: s := by
  obtain ⟨w, hw⟩ := h
  rcases List.append_eq_append_iff.1 hw with ⟨v, rfl, -⟩ | ⟨v, rfl, rfl⟩
  · exact List.prefix_append ..
  · cases v with
    | nil => simp
    | cons c v =>
      -- the break would be in the middle of `u`
      have hc := hz c rfl
      rw [hu c (by simp)] at hc
      cases hc

theorem find?_of_imp {α : Type} {p q : α → Bool} {l : List α} {x : α} (h : l.find? p = some x)
    (hx : q x = true) (hqp : ∀ b ∈ l, q b = true → p b = true) : l.find? q = some x := by
  obtain ⟨-, as, bs, rfl, has⟩ := List.find?_eq_some_iff_append.1 h
  refine List.find?_eq_some_iff_append.2 ⟨hx, as, bs, rfl, fun b hb => ?_⟩
  cases hq : q b with
  | false => rfl
  | true =>
    have hp := has b hb
    rw [hqp b (by simp [hb]) hq] at hp
    cases hp

section

variable {labels : List String} (hlabels : ∀ l ∈ labels, ∀ c ∈ l.toList, isBreak c = false)
  (hz : Broken z)
include hlabels hz

/-- A label in front of `z` is one in front of `y`. -/
theorem label_prefix_cut {l : String} (hl : l ∈ labels) (h : l.toList <+: s ++ z) :
    l.toList <+: s ++ y :=
  (prefix_of_unbroken (hlabels l hl) hz h).trans (List.prefix_append s y)

theorem label?_cut_none (h : label? labels (s ++ y) = none) : label? labels (s ++ z) = none := by
  refine label?_eq_none fun l hl hpre => List.find?_eq_none.1 h l hl ?_
  exact List.isPrefixOf_iff_prefix.2 (label_prefix_cut hlabels hz hl hpre)

theorem label?_cut {label : String} (hlength : label.length ≤ s.length)
    (h : label? labels (s ++ y) = some label) : label? labels (s ++ z) = some label := by
  refine find?_of_imp h ?_ fun l hl hpre => ?_
  · have hs : label.toList <+: s := by
      refine List.prefix_of_prefix_length_le (of_label? h).2 (List.prefix_append s y) ?_
      rwa [String.length_toList]
    exact List.isPrefixOf_iff_prefix.2 (hs.trans (List.prefix_append s z))
  · rw [List.isPrefixOf_iff_prefix] at hpre ⊢
    exact label_prefix_cut hlabels hz hl hpre

end

/-- Names are longest: what comes behind one does not continue it. -/
theorem not_continuesName_of_nameAt {c n : Char} {ns rest : List Char}
    (h : nameAt (c :: (u ++ rest)) = n :: ns) (hlength : ns.length = u.length) :
    ∀ d ∈ rest.head?, continuesName d = false := by
  rw [nameAt] at h
  split at h
  · obtain ⟨-, hns⟩ := List.cons.inj h
    intro d hd
    obtain ⟨rest, rfl⟩ := List.head?_eq_some_iff.1 hd
    cases hc : continuesName d with
    | false => rfl
    | true =>
      -- all of `u` is taken, so `d` would be taken, too
      have hu : u = ns := by
        refine (List.prefix_of_prefix_length_le ?_ (List.prefix_append u (d :: rest))
          (Nat.le_of_eq hlength)).eq_of_length hlength |>.symm
        rw [← hns]
        exact List.takeWhile_prefix _
      have hall : ∀ e ∈ u, continuesName e = true := by
        intro e he
        rw [hu, ← hns] at he
        exact List.all_eq_true.1 List.all_takeWhile e he
      rw [List.takeWhile_append_of_pos hall, List.takeWhile_cons_of_pos hc] at hns
      have := congrArg List.length hns
      rw [List.length_append, List.length_cons] at this
      omega
  · cases h

theorem Broken.not_continuesName (hz : Broken z) : ∀ c ∈ z.head?, continuesName c = false := by
  intro c hc
  cases hname : continuesName c with
  | false => rfl
  | true =>
    have := hz c hc
    rw [isBreak_of_continuesName hname] at this
    cases this

theorem Broken.not_digit (hz : Broken z) :
    ∀ c ∈ z.head?, Text.isDigit c = false ∧ c ≠ '.' ∧ c ≠ 'e' ∧ c ≠ 'E' := by
  intro c hc
  have hbreak := hz c hc
  refine ⟨?_, ?_, ?_, ?_⟩
  · cases hdigit : Text.isDigit c with
    | false => rfl
    | true =>
      rw [isBreak_of_isDigit hdigit] at hbreak
      cases hbreak
  all_goals
    rintro rfl
    exact absurd hbreak (by decide)

end

/-! ### Words -/

/-- Labels of dictionaries that can be reached have no break in them. -/
theorem Dictionary.Reachable.isBreak_of_mem_labels {D : Dictionary V ω} (hD : D.Reachable)
    {label : String} (h : label ∈ D.labels) : ∀ c ∈ label.toList, isBreak c = false := by
  rcases Dictionary.mem_labels.1 h with h | ⟨s, hs⟩ | ⟨f, hf⟩
  · obtain ⟨c, hc, hletters⟩ := symbol_of_predefined label h
    have hsymbols : ∀ c ∈ Operator.symbols, isBreak c = false :=
      Operator.forall_symbols.2 (by decide)
    rw [hletters]
    exact List.forall_mem_singleton.2 (hsymbols c hc)
  · have hvalid := (hD.operators hs).1
    cases hletters : label.toList with
    | nil => simp
    | cons c cs =>
      rw [hletters] at hvalid
      simp only [isOperatorLabel, Bool.and_eq_true, List.all_eq_true] at hvalid
      intro d hd
      simpa [isBreak] using hvalid.2 d hd
  · have hname := (hD.function hf).2
    cases hletters : label.toList with
    | nil => simp
    | cons c cs =>
      rw [hletters] at hname
      simp only [isName, Bool.and_eq_true, List.all_eq_true] at hname
      refine List.forall_mem_cons.2 ⟨?_, fun d hd => isBreak_of_continuesName (hname.2 d hd)⟩
      exact isBreak_of_continuesName (by simp [continuesName, hname.1])

namespace Lexicon

/-- No literal, no label and no name has a break in it, and literals do not depend on what stands
in front of them. -/
structure Unbroken (L : Lexicon V ω) : Prop where
  reachable : L.dictionary.Reachable
  patterns : ∃ ps : List Pattern, L.patterns = ps.map Pattern.matcher ∧ ∀ p ∈ ps, p.Unbroken

section

variable {L : Lexicon V ω} {previous : Option (Lexeme V ω)} {c : Char}
  {before u x y z : List Char} {l : Lexeme V ω}

/-- Patterns that are built from characters do not look back. -/
theorem Unbroken.next_congr (hL : L.Unbroken) (labels : List String) (before before' : List Char)
    (previous : Option (Lexeme V ω)) (position : Nat) (c : Char) (s : List Char) :
    L.next labels before previous position c s = L.next labels before' previous position c s := by
  obtain ⟨ps, hps, -⟩ := hL.patterns
  rw [next, next, hps, Matcher.literal?_map, Matcher.literal?_map]

/-- So a part of a text is read as in any other text. -/
theorem Unbroken.scan_congr (hL : L.Unbroken) (labels : List String) (text text' : List Char)
    (previous : Option (Lexeme V ω)) (covered position : Nat) (s : List Char) :
    L.scan labels text previous covered position s =
      L.scan labels text' previous covered position s := by
  induction s generalizing previous covered position with
  | nil => cases covered <;> rfl
  | cons c s ih =>
    cases covered with
    | succ n => exact ih previous n (position + 1)
    | zero =>
      rw [scan, scan, hL.next_congr labels _ (text'.take position)]
      simp only [ih]

/-- **A word stays what it is** if the text behind it is cut off, and something that begins
with a break is put there. -/
theorem Finds.cut (hL : L.Unbroken) (hz : Broken z)
    (h : L.Finds L.dictionary.labels before previous c (u ++ (x ++ y)) l (u.length + 1)) :
    L.Finds L.dictionary.labels before previous c (u ++ (x ++ z)) l (u.length + 1) := by
  have happend : ∀ v, c :: (u ++ (x ++ v)) = (c :: (u ++ x)) ++ v := by simp
  have hle : u.length + 1 ≤ (c :: (u ++ x)).length := by simp
  have hbreak : ∀ l ∈ L.dictionary.labels, ∀ c ∈ l.toList, isBreak c = false :=
    fun l hl => hL.reachable.isBreak_of_mem_labels hl
  obtain ⟨ps, hps, hunbroken⟩ := hL.patterns
  obtain ⟨hnone, hsome⟩ := Pattern.literal?_cut (y := y) hunbroken hz before (c :: (u ++ x))
  rw [← hps] at hnone hsome
  generalize hn : u.length + 1 = n at h hle ⊢
  cases h with
  | operand hliteral hv =>
    rw [happend] at hliteral
    exact .operand (by rw [happend]; exact hsome _ hle hliteral) hv
  | label hliteral hlabel hresolve =>
    rw [happend] at hliteral hlabel
    refine .label ?_ ?_ hresolve <;> rw [happend]
    · exact hnone hliteral
    · exact label?_cut hbreak hz hle hlabel
  | @name m ns hliteral hlabel hname =>
    rw [happend] at hliteral hlabel
    have hlength : ns.length = u.length := by omega
    have hletters : c :: u = m :: ns := by
      have := eq_of_prefix_append (u := c :: u) (of_nameAt hname).2 (by simpa using hlength)
      exact this.symm
    have hrest : ∀ d ∈ (x ++ z).head?, continuesName d = false := by
      have := not_continuesName_of_nameAt hname hlength
      cases x with
      | nil => exact hz.not_continuesName
      | cons d x => exact this
    refine .name ?_ ?_ ?_
    · rw [happend]
      exact hnone hliteral
    · rw [happend]
      exact label?_cut_none hbreak hz hlabel
    · rw [← List.cons_append, ← hletters]
      rw [← hletters] at hname
      exact nameAt_append (of_nameAt hname).1 hrest
  | mark hliteral hlabel hname hmark =>
    rw [happend] at hliteral hlabel
    refine .mark ?_ ?_ ?_ hmark
    · rw [happend]
      exact hnone hliteral
    · rw [happend]
      exact label?_cut_none hbreak hz hlabel
    · rw [nameAt] at hname ⊢
      split at hname
      · cases hname
      · next hstart => rw [if_neg hstart]

/-- Only a structural mark is a break. -/
theorem Finds.isBreak_tail (hL : L.Unbroken)
    (h : L.Finds L.dictionary.labels before previous c (u ++ x) l (u.length + 1)) :
    ∀ d ∈ u, isBreak d = false := by
  generalize hn : u.length + 1 = n at h
  cases h with
  | @operand literal v hliteral hv =>
    obtain ⟨w, rfl, hw⟩ := Matcher.literal?_eq_some hliteral
    obtain rfl : w = u := eq_of_prefix_append hw (by simpa using hn.symm)
    obtain ⟨ps, hps, hunbroken⟩ := hL.patterns
    rw [hps] at hliteral
    have hall := Pattern.isBreak_of_literal? hunbroken hliteral
    exact fun d hd => hall d (List.mem_cons_of_mem _ hd)
  | @label label l _ hlabel _ =>
    have hletters : label.toList = c :: u := by
      refine eq_of_prefix_append (of_label? hlabel).2 ?_
      rw [String.length_toList, ← hn, List.length_cons]
    have hall := hL.reachable.isBreak_of_mem_labels (of_label? hlabel).1
    rw [hletters] at hall
    exact fun d hd => hall d (List.mem_cons_of_mem _ hd)
  | @name m ns _ _ hname =>
    obtain ⟨-, rfl⟩ : m = c ∧ ns = u := by
      have := eq_of_prefix_append (u := c :: u) (of_nameAt hname).2 hn.symm
      exact List.cons.inj this
    have hname := (of_nameAt hname).1
    simp only [isName, Bool.and_eq_true, List.all_eq_true] at hname
    exact fun d hd => isBreak_of_continuesName (hname.2 d hd)
  | mark =>
    obtain rfl := List.length_eq_zero_iff.1 (Nat.succ.inj hn)
    simp

/-! ### Texts -/

variable {text s : List Char} {position : Nat} {ts : List (Token V ω)}

/-- **A text is read in front of a break as it is read alone.** -/
theorem scan_append (hL : L.Unbroken) (hz : Broken z)
    (h : L.scan L.dictionary.labels text previous 0 position s = .ok ts) :
    L.scan L.dictionary.labels text previous 0 position (s ++ z) =
      (L.scan L.dictionary.labels text (lastItem previous ts) 0 (position + s.length) z).map
        (ts ++ ·) := by
  refine words_induction
    (motive := fun previous position s ts =>
      L.scan L.dictionary.labels text previous 0 position (s ++ z) =
        (L.scan L.dictionary.labels text (lastItem previous ts) 0 (position + s.length) z).map
          (ts ++ ·))
    hL.reachable.empty_not_mem_labels ?_ ?_ ?_ h
  · intro previous position
    exact (map_append_nil _).symm
  · intro previous position c s ts hblank ih
    rw [List.cons_append, scan, if_pos hblank, ih, List.length_cons, Nat.add_right_comm]
    rfl
  · intro previous position c u rest l ts hblank hfinds ih
    have hcut := Finds.cut (y := []) hL hz (by rwa [List.append_nil])
    rw [List.cons_append, List.append_assoc, scan_word hblank hcut.next, ih, lastItem_append,
      lastItem_cons]
    have hend : position + (u.length + 1) + rest.length =
        position + (c :: (u ++ rest)).length := by
      rw [List.length_cons, List.length_append]
      omega
    rw [hend]
    cases L.scan L.dictionary.labels text (lastItem (some l) ts) 0
      (position + (c :: (u ++ rest)).length) z with
    | error e => rfl
    | ok us => simp [Except.map]

end

end Lexicon

end Formula
