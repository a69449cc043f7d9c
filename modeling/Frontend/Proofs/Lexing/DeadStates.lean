import Frontend.Proofs.Lexing.Languages
import Frontend.Proofs.Lexing.Lookahead
import Mathlib.Computability.MyhillNerode

/-!
# Dead states

A recognizer is dead when the text that it has read is hopeless, that is, when no accepted text
starts with it, and only then (`dead_iff_hopeless`).  A scan depends on both halves.  It stops when
all recognizers are dead, so nothing may be left to find behind that place; and it goes on as long
as one of them is alive, so a live one without hope would make it read in vain.  Together they say
how far a scan looks without speaking of states (`Scan.lt_inspected_iff`).

What a recognizer accepts after a text depends on its state alone: it is the left quotient of its
language by that text (`languageFrom_run`).  So it is enough to look at the states.  Nothing leads
away from the dead one.  For each of the others there is a text that leads to an accepting state,
its `completion`; in a literal, which has as many states as its text is long, these are the
characters that are still missing.  A number that is no state at all is hopeless too, without being
dead, but no run ends there.
-/

namespace Frontend

namespace Recognizer

variable {r : Recognizer} {state : ℕ} {w : List Char}

/-! ## Live states -/

/-- A text that leads from a live state to an accepting one. -/
def completion : Recognizer → ℕ → List Char
  | identifier, 0 => ['a']
  | numeral, 0 => ['0']
  | boolean, 0 => ['T', 'r', 'u', 'e']
  | boolean, 1 => ['r', 'u', 'e']
  | boolean, 2 => ['u', 'e']
  | boolean, 3 => ['e']
  | boolean, 5 => ['a', 'l', 's', 'e']
  | boolean, 6 => ['l', 's', 'e']
  | boolean, 7 => ['s', 'e']
  | operator, 0 => ['+']
  | blank, 0 => [' ']
  | comment, 0 => ['-', '-']
  | comment, 1 => ['-']
  | literal text _, state => text.drop state
  | _, _ => []

theorem completion_mem_languageFrom_literal {text : List Char} (nonempty : text ≠ [])
    (h : state ≤ text.length) :
    (literal text nonempty).completion state ∈ (literal text nonempty).languageFrom state := by
  have hrest := languageFrom_literal nonempty (List.take_append_drop state text)
  rw [List.length_take_of_le h] at hrest
  rw [hrest]
  exact mem_singleton.mpr rfl

theorem completion_mem_languageFrom (h : state < r.stateCount) (hlive : r.isDead state = false) :
    r.completion state ∈ r.languageFrom state := by
  -- all but the literals have a fixed number of states
  have hfixed : ∀ r ∈ [identifier, numeral, boolean, operator, blank, comment],
      ∀ state < r.stateCount, r.isDead state = false →
        r.isAccepting (r.runFrom state (r.completion state)) = true := by decide
  cases r with
  | literal text nonempty =>
      have hne : state ≠ text.length + 1 := ne_of_beq_false hlive
      have hlt : state < text.length + 2 := h
      exact completion_mem_languageFrom_literal nonempty (by omega)
  | _ => exact hfixed _ (by decide) state h hlive

theorem isDead_iff_languageFrom_eq_zero (h : state < r.stateCount) :
    r.isDead state = true ↔ r.languageFrom state = 0 := by
  constructor
  · intro hdead
    have hstate : state = r.dead := beq_iff_eq.mp hdead
    ext w
    rw [hstate]
    exact iff_of_false notMem_languageFrom_dead (Language.notMem_zero w)
  · intro hzero
    by_contra hlive
    have hmem := completion_mem_languageFrom h (Bool.eq_false_iff.mpr hlive)
    rw [hzero] at hmem
    exact Language.notMem_zero _ hmem

/-! ## Texts with hope -/

theorem languageFrom_run (r : Recognizer) (w : List Char) :
    r.languageFrom (r.run w) = r.language.leftQuotient w := by
  ext v
  have hrun : r.run (w ++ v) = r.runFrom (r.run w) v := r.runFrom_append 0 w v
  rw [Language.mem_leftQuotient, ← accepts_iff_mem_language, accepts, hrun]
  rfl

theorem leftQuotient_eq_zero_iff : r.language.leftQuotient w = 0 ↔
    ¬ ∃ v, w <+: v ∧ r.accepts v = true := by
  constructor
  · rintro hzero ⟨_, ⟨v, rfl⟩, haccepts⟩
    have hmem : v ∈ r.language.leftQuotient w := mem_language_of_accepts haccepts
    rw [hzero] at hmem
    exact Language.notMem_zero v hmem
  · intro hnone
    ext v
    refine iff_of_false ?_ (Language.notMem_zero v)
    intro hv
    exact hnone ⟨w ++ v, List.prefix_append w v, accepts_of_mem_language hv⟩

theorem isDead_run_iff (r : Recognizer) (w : List Char) :
    r.isDead (r.run w) = true ↔ ¬ ∃ v, w <+: v ∧ r.accepts v = true := by
  rw [isDead_iff_languageFrom_eq_zero (r.run_lt_stateCount w), languageFrom_run,
    leftQuotient_eq_zero_iff]

/-- **A recognizer is dead when its text is hopeless, and only then.**  It never leaves the dead
state and does not accept there.  At the start it is alive and accepts nothing yet.  Whatever number
a step is made from, it leads to one of the states. -/
theorem dead_iff_hopeless (r : Recognizer) :
    (∀ w, r.isDead (r.run w) = true ↔ ¬ ∃ v, w <+: v ∧ r.accepts v = true) ∧
    (∀ c, r.next r.dead c = r.dead) ∧
    r.isAccepting r.dead = false ∧
    r.isDead 0 = false ∧
    r.isAccepting 0 = false ∧
    ∀ state c, r.next state c < r.stateCount :=
  ⟨r.isDead_run_iff, r.next_dead, r.isAccepting_dead, r.isDead_zero, r.isAccepting_zero,
    r.next_lt_stateCount⟩

end Recognizer

/-! ## How far a scan looks -/

namespace Scan

variable {recognizers : List Recognizer} {text w : List Char} {n : ℕ}

theorem deadAfter_start_eq_false_iff : deadAfter (recognizers.map Run.start) w = false ↔
    ∃ r ∈ recognizers, ∃ v, w <+: v ∧ r.accepts v = true := by
  simp only [deadAfter_start, List.all_eq_false, Recognizer.isDead_run_iff, not_not]

/-- **A scan looks at another character exactly if the ones before can become a lexeme.**  The first
one it always looks at. -/
theorem lt_inspected_iff (hpos : 0 < n) (hlt : n < text.length) :
    n < (of recognizers text).inspected ↔
      ∃ r ∈ recognizers, ∃ v, text.take n <+: v ∧ r.accepts v = true := by
  constructor
  · intro hn
    exact deadAfter_start_eq_false_iff.mp (not_deadAfter_of_lt_inspected hpos hn)
  · rintro ⟨r, hr, v, hprefix, haccepts⟩
    by_contra hn
    have hle : (of recognizers text).inspected ≤ n := Nat.not_lt.mp hn
    have hdead := deadAfter_of_inspected_lt (hle.trans_lt hlt)
    -- what has hope after `n` characters had it after fewer
    have hstart : text.take (of recognizers text).inspected <+: v :=
      (List.take_prefix_take_left hle).trans hprefix
    have hlive := deadAfter_start_eq_false_iff.mpr ⟨r, hr, v, hstart, haccepts⟩
    rw [of, hdead] at hlive
    contradiction

end Scan
end Frontend
