/-
Formula/Proofs/Literals.lean

Where literals begin, and whole numbers as literals.  The texts of a pattern consist of the
characters that it accepts (`within_of_matches`); for the default patterns, where no digit and
no point stands there is no literal (`literal?_eq_none`).  The digits that a natural number is
written with are read as this number again (`integer_repr`).
-/
import Formula.Number.Numeral
import Formula.Pattern.Language
import Formula.Pattern.Matcher

namespace Formula

namespace Pattern

/-! ### The characters of a pattern -/

/-- The pattern accepts characters of the class `a` only. -/
def Within (a : Char → Bool) : Pattern → Prop
  | empty => True
  | one accepts => ∀ c, accepts c = true → a c = true
  | seq p q | alt p q => p.Within a ∧ q.Within a
  | star p => p.Within a

/-- The texts of a pattern over `a` consist of characters of `a`. -/
theorem within_of_matches {a : Char → Bool} {p : Pattern} (hp : p.Within a) {u : List Char}
    (hu : p.Matches u) : ∀ c ∈ u, a c = true := by
  induction p generalizing u with
  | empty =>
    obtain rfl : u = [] := hu
    exact nofun
  | one accepts =>
    obtain ⟨c, hc, rfl⟩ := hu
    exact List.forall_mem_singleton.2 (hp c hc)
  | seq p q ihp ihq =>
    obtain ⟨v, w, rfl, hv, hw⟩ := hu
    exact List.forall_mem_append.2 ⟨ihp hp.1 hv, ihq hp.2 hw⟩
  | alt p q ihp ihq => exact hu.elim (ihp hp.1) (ihq hp.2)
  | star p ih =>
    obtain ⟨us, rfl, hus⟩ := hu
    intro c hc
    obtain ⟨v, hv, hcv⟩ := List.mem_flatten.1 hc
    exact ih hp (hus v hv) c hcv

end Pattern

/-- Literals begin with a digit or a point. -/
theorem Matcher.literal?_eq_none {before s : List Char} {c : Char}
    (hdigit : Text.isDigit c = false) (hpoint : c ≠ '.') :
    literal? defaults before (c :: s) = none := by
  have hscientific : Pattern.scientific.rest? (c :: s) = none := by
    simp [Pattern.rest?, Pattern.scientific, Pattern.plus, Pattern.opt, Pattern.digit,
      Pattern.char, Pattern.run, hdigit, hpoint]
  have hdecimal : Pattern.decimal.rest? (c :: s) = none := by
    simp [Pattern.rest?, Pattern.decimal, Pattern.plus, Pattern.opt, Pattern.digit,
      Pattern.char, Pattern.run, Pattern.rounds, hdigit, hpoint]
  rw [defaults, literal?_map]
  simp [Pattern.defaults, Pattern.match?, hscientific, hdecimal]

/-! ### Digits of natural numbers -/

namespace Text

theorem toNat_of_coreDigit {c : Char} (h : c.isDigit = true) : 48 ≤ c.toNat ∧ c.toNat < 58 := by
  simp only [Char.isDigit, Bool.and_eq_true, decide_eq_true_eq] at h
  have h1 := UInt32.le_iff_toNat_le.1 h.1
  have h2 := UInt32.le_iff_toNat_le.1 h.2
  exact ⟨h1, Nat.lt_succ_of_le h2⟩

theorem digit?_of_coreDigit {c : Char} (h : c.isDigit = true) :
    digit? c = some (c.toNat - '0'.toNat) := by
  obtain ⟨h1, h2⟩ := toNat_of_coreDigit h
  have hfind : zeros.find? (fun z => z ≤ c.toNat && c.toNat < z + 10) = some 0x30 := by
    simp [zeros, h1, h2]
  rw [digit?, hfind]
  rfl

theorem isBlank_of_coreDigit {c : Char} (h : c.isDigit = true) : isBlank c = false := by
  obtain ⟨h1, h2⟩ := toNat_of_coreDigit h
  simp only [isBlank, Bool.or_eq_false_iff, Bool.and_eq_false_iff, decide_eq_false_iff_not,
    beq_eq_false_iff_ne]
  omega

theorem isMargin_of_coreDigit {c : Char} (h : c.isDigit = true) : isMargin c = false := by
  rw [isMargin, isBlank_of_coreDigit h, Bool.false_and]

/-- A text without margin is not trimmed. -/
theorem trimMargin_eq_self {s : List Char} (h : ∀ c ∈ s, isMargin c = false) :
    trimMargin s = s := by
  have hdrop : ∀ u : List Char, (∀ c ∈ u, isMargin c = false) → u.dropWhile isMargin = u := by
    intro u hu
    cases u with
    | nil => rfl
    | cons c u => rw [List.dropWhile_cons_of_neg (by simp [hu c (by simp)])]
  rw [trimMargin, hdrop s h, hdrop _ (by simpa using h), List.reverse_reverse]

/-- The digits that the core library writes are digits. -/
theorem isDigit_toDigits {n : Nat} : ∀ c ∈ Nat.toDigits 10 n, isDigit c = true :=
  fun _ hc => isDigit_of_coreDigit (Nat.isDigit_of_mem_toDigits (by decide) (by decide) hc)

end Text

namespace Numeral

theorem digits_of_coreDigits {s : List Char} (h : ∀ c ∈ s, c.isDigit = true) (inside : Bool) :
    digits inside s = (s.map fun c => c.toNat - '0'.toNat, []) := by
  induction s generalizing inside with
  | nil => rfl
  | cons c s ih =>
    rw [digits, Text.digit?_of_coreDigit (h c (by simp))]
    simp only [ih (fun d hd => h d (List.mem_cons_of_mem _ hd))]
    rfl

theorem sign_of_coreDigits {s : List Char} (h : ∀ c ∈ s, c.isDigit = true) :
    sign s = (false, s) := by
  rw [sign.eq_def]
  split
  · exact absurd (h '-' (by simp)) (by decide)
  · exact absurd (h '+' (by simp)) (by decide)
  · rfl

/-- A natural number is read from its digits. -/
theorem integer_repr (n : Nat) : integer n.repr = .ok n := by
  have hcore : ∀ c ∈ Nat.toDigits 10 n, c.isDigit = true :=
    fun c hc => Nat.isDigit_of_mem_toDigits (by decide) (by decide) hc
  have hvalue : value ((Nat.toDigits 10 n).map fun c => c.toNat - '0'.toNat) = n := by
    rw [value, List.foldl_map]
    exact Nat.ofDigitChars_toDigits (by decide) (by decide)
  obtain ⟨d, ds, hds⟩ := List.exists_cons_of_ne_nil (Nat.toDigits_ne_nil (b := 10) (n := n))
  rw [integer, Nat.toList_repr, Text.trimMargin_eq_self fun c hc =>
    Text.isMargin_of_coreDigit (hcore c hc), sign_of_coreDigits hcore]
  dsimp only
  rw [digits_of_coreDigits hcore]
  rw [hds] at hvalue ⊢
  show Except.ok (signed false (value _)) = _
  rw [hvalue]
  rfl

end Numeral

end Formula
