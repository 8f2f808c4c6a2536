/-
Formula/Pattern/Language.lean

The texts that a pattern stands for.  `Matches` says what they are without a word about order,
so it is the same for `p` or `q` as for `q` or `p`.

Matching goes through the alternatives one after the other, gives back what a repetition has
taken, and ends a repetition with a round that consumes nothing.  None of this adds a text or
loses one: every rest that is offered is reached through a text of the pattern
(`of_run_eq_some`), and every text of the pattern at the front is tried before matching gives up
(`run_ne_none`).  The order decides only which of several texts is preferred.

The bound on the rounds of a repetition is never reached, so a repetition is a round and, behind
it, a repetition (`run_star`).

Main statements: `run_eq_none_iff`, `match?_eq_none_iff` and `fits_eq_true_iff`.
-/
import Formula.Pattern.Basic

namespace Formula.Pattern

variable {α : Type}

/-- The texts of a pattern. -/
def Matches : Pattern → List Char → Prop
  | empty, s => s = []
  | one accepts, s => ∃ c, accepts c = true ∧ s = [c]
  | seq p q, s => ∃ u v, s = u ++ v ∧ p.Matches u ∧ q.Matches v
  | alt p q, s => p.Matches s ∨ q.Matches s
  | star p, s => ∃ us : List (List Char), s = us.flatten ∧ ∀ u ∈ us, p.Matches u

section

variable {p : Pattern} {s u v : List Char} {k : List Char → Option α} {r : α}

/-! ### Nothing is added -/

/-- What is accepted is left behind a text of the pattern. -/
theorem of_run_eq_some (h : p.run s k = some r) :
    ∃ u v, s = u ++ v ∧ p.Matches u ∧ k v = some r := by
  induction p generalizing s k with
  | empty => exact ⟨[], s, rfl, rfl, h⟩
  | one accepts =>
    cases s with
    | nil => cases h
    | cons c s =>
      rw [run] at h
      split at h
      · next hc => exact ⟨[c], s, rfl, ⟨c, hc, rfl⟩, h⟩
      · cases h
  | seq p q ihp ihq =>
    obtain ⟨u, v, rfl, hu, hv⟩ := ihp h
    obtain ⟨u', v', rfl, hu', hr⟩ := ihq hv
    exact ⟨u ++ u', v', (List.append_assoc ..).symm, ⟨u, u', rfl, hu, hu'⟩, hr⟩
  | alt p q ihp ihq =>
    rw [run] at h
    cases hfirst : p.run s k with
    | none =>
      rw [hfirst] at h
      obtain ⟨u, v, hs, hu, hr⟩ := ihq h
      exact ⟨u, v, hs, .inr hu, hr⟩
    | some r' =>
      rw [hfirst] at h
      obtain rfl : r' = r := Option.some.inj h
      obtain ⟨u, v, hs, hu, hr⟩ := ihp hfirst
      exact ⟨u, v, hs, .inl hu, hr⟩
  | star p ih =>
    rw [run] at h
    generalize s.length = n at h
    induction n generalizing s with
    | zero => exact ⟨[], s, rfl, ⟨[], rfl, by simp⟩, h⟩
    | succ n ihn =>
      rw [rounds] at h
      cases hround : p.run s (fun t =>
          if t.length < s.length then rounds p.run n t k else k t) with
      | none =>
        rw [hround] at h
        exact ⟨[], s, rfl, ⟨[], rfl, by simp⟩, h⟩
      | some r' =>
        rw [hround] at h
        obtain rfl : r' = r := Option.some.inj h
        obtain ⟨u, v, rfl, hu, hv⟩ := ih hround
        split at hv
        · obtain ⟨_, v', rfl, ⟨us, rfl, hus⟩, hr⟩ := ihn hv
          exact ⟨(u :: us).flatten, v', by simp,
            ⟨u :: us, rfl, List.forall_mem_cons.2 ⟨hu, hus⟩⟩, hr⟩
        · exact ⟨u, v, rfl, ⟨[u], by simp, by simpa using hu⟩, hv⟩

/-- In a sequence, the second pattern goes on behind a text of the first one. -/
theorem of_run_seq_eq_some {q : Pattern} (h : (seq p q).run s k = some r) :
    ∃ u v, s = u ++ v ∧ p.Matches u ∧ q.run v k = some r :=
  of_run_eq_some (p := p) h

/-! ### Repetitions -/

/-- Only what can be left of a text is offered. -/
theorem run_congr {k' : List Char → Option α} (h : ∀ u v, s = u ++ v → k v = k' v) :
    p.run s k = p.run s k' := by
  induction p generalizing s k k' with
  | empty => exact h [] s rfl
  | one accepts =>
    cases s with
    | nil => rfl
    | cons c s => rw [run, run, h [c] s rfl]
  | seq p q ihp ihq =>
    refine ihp fun u v hs => ihq fun u' v' hv => h (u ++ u') v' ?_
    rw [hs, hv, List.append_assoc]
  | alt p q ihp ihq => rw [run, run, ihp h, ihq h]
  | star p ih =>
    rw [run, run]
    generalize s.length = n
    induction n generalizing s with
    | zero => exact h [] s rfl
    | succ n ihn =>
      rw [rounds, rounds, h [] s rfl]
      congr 1
      refine ih fun u v hs => ?_
      rw [h u v hs]
      split
      · refine ihn fun u' v' hv => h (u ++ u') v' ?_
        rw [hs, hv, List.append_assoc]
      · rfl

/-- A round for every character is enough. -/
theorem rounds_eq_run_star {n : Nat} (hn : s.length ≤ n) :
    rounds p.run n s k = (star p).run s k := by
  rw [run]
  induction hlength : s.length using Nat.strongRecOn generalizing n s with
  | ind m ih =>
    obtain rfl := hlength
    cases n with
    | zero => rw [Nat.le_zero.1 hn]
    | succ n =>
      cases s with
      | nil =>
        -- the round can only leave the empty text again
        rw [List.length_nil, rounds, rounds]
        cases hround : p.run [] (fun t => if t.length < 0 then rounds p.run n t k else k t) with
        | none => rfl
        | some r =>
          obtain ⟨u, v, hnil, -, hv⟩ := of_run_eq_some hround
          rw [(List.append_eq_nil_iff.1 hnil.symm).2] at hv
          exact hv.symm
      | cons c s =>
        rw [List.length_cons] at hn ih ⊢
        rw [rounds, rounds]
        congr 1
        -- behind a round that has consumed something both bounds are enough
        refine run_congr fun u v _ => ?_
        split
        · next hlt =>
          rw [List.length_cons] at hlt
          rw [ih _ hlt (by omega) rfl, ih _ hlt (n := s.length) (by omega) rfl]
        · rfl

/-- **A repetition is a round, and a repetition behind it** if the round has consumed something;
or it is nothing. -/
theorem run_star : (star p).run s k =
    ((p.run s fun t => if t.length < s.length then (star p).run t k else k t) <|> k s) := by
  rw [← rounds_eq_run_star (Nat.le_succ s.length), rounds]
  congr 1
  refine run_congr fun u v _ => ?_
  split
  · next hlt => exact rounds_eq_run_star (Nat.le_of_lt hlt)
  · rfl

/-! ### Nothing is lost -/

theorem orElse_ne_none {a b : Option α} : (a <|> b) ≠ none ↔ a ≠ none ∨ b ≠ none := by
  cases a <;> simp

/-- A text of the pattern at the front is found, if what is left behind it will do. -/
theorem run_ne_none (hu : p.Matches u) (hk : k v ≠ none) : p.run (u ++ v) k ≠ none := by
  induction p generalizing u v k with
  | empty =>
    obtain rfl : u = [] := hu
    exact hk
  | one accepts =>
    obtain ⟨c, hc, rfl⟩ := hu
    rw [List.singleton_append, run, if_pos hc]
    exact hk
  | seq p q ihp ihq =>
    obtain ⟨u, u', rfl, hu, hu'⟩ := hu
    rw [List.append_assoc]
    exact ihp hu (ihq hu' hk)
  | alt p q ihp ihq =>
    rw [run, orElse_ne_none]
    exact hu.imp (ihp · hk) (ihq · hk)
  | star p ih =>
    obtain ⟨us, rfl, hus⟩ := hu
    induction us with
    | nil =>
      rw [run_star]
      exact orElse_ne_none.2 (.inr hk)
    | cons u us ihus =>
      obtain ⟨hu, htail⟩ := List.forall_mem_cons.1 hus
      rw [List.flatten_cons, List.append_assoc]
      cases u with
      -- an empty round may be left out
      | nil => exact ihus htail
      | cons c u =>
        rw [run_star]
        refine orElse_ne_none.2 (.inl (ih hu ?_))
        rw [if_pos]
        · exact ihus htail
        · simp only [List.cons_append, List.length_cons, List.length_append]
          omega

/-- Matching fails if and only if nothing is left that will do behind any text of the
pattern. -/
theorem run_eq_none_iff :
    p.run s k = none ↔ ∀ u v, s = u ++ v → p.Matches u → k v = none := by
  constructor
  · rintro h u v rfl hu
    exact Classical.byContradiction fun hk => run_ne_none hu hk h
  · intro h
    cases hrun : p.run s k with
    | none => rfl
    | some r =>
      obtain ⟨u, v, hs, hu, hr⟩ := of_run_eq_some hrun
      rw [h u v hs hu] at hr
      cases hr

/-! ### Opening parts and whole texts -/

theorem rest?_eq_none_iff : p.rest? s = none ↔ ∀ u, u <+: s → ¬ p.Matches u := by
  rw [rest?, run_eq_none_iff]
  constructor
  · rintro h u ⟨v, rfl⟩ hu
    cases h u v rfl hu
  · rintro h u v rfl hu
    exact absurd hu (h u (List.prefix_append ..))

/-- The preferred opening part is what stands before the rest. -/
theorem match?_eq_some_iff :
    p.match? s = some u ↔ ∃ v, s = u ++ v ∧ p.Matches u ∧ p.rest? s = some v := by
  have htake : ∀ u v : List Char, (u ++ v).take ((u ++ v).length - v.length) = u := by simp
  constructor
  · intro h
    obtain ⟨r, hr, rfl⟩ := Option.map_eq_some_iff.1 h
    obtain ⟨u, v, rfl, hu, hv⟩ := of_run_eq_some hr
    obtain rfl : v = r := Option.some.inj hv
    rw [htake]
    exact ⟨v, rfl, hu, hr⟩
  · rintro ⟨v, rfl, -, hv⟩
    rw [match?, hv, Option.map_some, htake]

theorem match?_eq_none_iff : p.match? s = none ↔ ∀ u, u <+: s → ¬ p.Matches u := by
  rw [match?, Option.map_eq_none_iff, rest?_eq_none_iff]

/-- Whole texts fit if and only if they are texts of the pattern. -/
theorem fits_eq_true_iff : p.fits s = true ↔ p.Matches s := by
  rw [fits, Option.isSome_iff_ne_none, Ne, run_eq_none_iff]
  constructor
  · refine fun h => Classical.byContradiction fun hs => h fun u v huv hu => if_neg ?_
    rw [List.isEmpty_iff]
    rintro rfl
    rw [List.append_nil] at huv
    exact hs (huv ▸ hu)
  · intro hs h
    cases h s [] (List.append_nil s).symm hs

/-! ### Characters -/

theorem matches_star_one {accepts : Char → Bool} :
    (star (one accepts)).Matches s ↔ ∀ c ∈ s, accepts c = true := by
  constructor
  · rintro ⟨us, rfl, hus⟩ c hc
    obtain ⟨u, hu, hcu⟩ := List.mem_flatten.1 hc
    obtain ⟨d, hd, rfl⟩ := hus u hu
    rwa [List.mem_singleton.1 hcu]
  · intro hs
    have hflatten : s = (s.map fun c => [c]).flatten := by
      rw [← List.flatMap_def, List.flatMap_singleton']
    refine ⟨_, hflatten, fun u hu => ?_⟩
    obtain ⟨c, hc, rfl⟩ := List.mem_map.1 hu
    exact ⟨c, hs c hc, rfl⟩

theorem matches_plus_one {accepts : Char → Bool} :
    (plus (one accepts)).Matches s ↔ s ≠ [] ∧ ∀ c ∈ s, accepts c = true := by
  constructor
  · rintro ⟨u, v, rfl, ⟨c, hc, rfl⟩, hv⟩
    exact ⟨nofun, List.forall_mem_cons.2 ⟨hc, matches_star_one.1 hv⟩⟩
  · rintro ⟨hne, hs⟩
    obtain ⟨c, s, rfl⟩ := List.exists_cons_of_ne_nil hne
    obtain ⟨hc, hs⟩ := List.forall_mem_cons.1 hs
    exact ⟨[c], s, rfl, ⟨c, hc, rfl⟩, matches_star_one.2 hs⟩

theorem matches_opt_char {c : Char} : (opt (char c)).Matches s ↔ s = [c] ∨ s = [] := by
  simp [opt, char, Matches]

/-- A character that is repeated is taken, or it is not. -/
theorem run_star_one_cons {accepts : Char → Bool} (c : Char) :
    (star (one accepts)).run (c :: s) k =
      ((if accepts c then (star (one accepts)).run s k else none) <|> k (c :: s)) := by
  rw [run_star, run, if_pos (show s.length < (c :: s).length from Nat.lt_succ_self _)]

/-- A repetition takes all it can get, if what is left then will do. -/
theorem run_star_one {accepts : Char → Bool} (hu : ∀ c ∈ u, accepts c = true)
    (hv : ∀ c ∈ v.head?, accepts c = false) (hk : k v ≠ none) :
    (star (one accepts)).run (u ++ v) k = k v := by
  induction u with
  | nil =>
    cases v with
    | nil => rfl
    | cons c v =>
      rw [List.nil_append, run_star_one_cons, hv c rfl, if_neg Bool.false_ne_true]
      rfl
  | cons c u ih =>
    obtain ⟨hc, hu⟩ := List.forall_mem_cons.1 hu
    rw [List.cons_append, run_star_one_cons, if_pos hc, ih hu]
    cases hkv : k v with
    | none => exact absurd hkv hk
    | some r => rfl

/-- An empty round is not followed by another one, so `ab` is tried before `a`. -/
example :
    let p := seq (star (alt empty (alt (word ['a', 'b']) (alt (char 'a') (char 'c')))))
      (alt (char 'b') (char 'd'))
    p.match? "abcd".toList = some "abcd".toList := by decide

end

end Formula.Pattern
