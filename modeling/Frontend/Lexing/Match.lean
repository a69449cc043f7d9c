import Frontend.Lexing.Recognizer

/-!
# Matches

A scan runs several recognizers over the start of a text at once, one character at a time, until all
of them are dead or the text ends.  It finds the longest beginning of the text that one of them
accepts, and says how many characters it has looked at; that can be many more than are matched,
since a recognizer may be alive for long before it accepts again or dies.

When several recognizers accept the same beginning, the first of them decides on the class.
-/

namespace Frontend

structure Run where
  recognizer : Recognizer
  state : Nat
deriving DecidableEq, Repr

namespace Run

def start (r : Recognizer) : Run := ⟨r, 0⟩

def step (run : Run) (c : Char) : Run := { run with state := run.recognizer.next run.state c }

def isAccepting (run : Run) : Bool := run.recognizer.isAccepting run.state

def isDead (run : Run) : Bool := run.recognizer.isDead run.state

def after (run : Run) (w : List Char) : Run :=
  { run with state := run.recognizer.runFrom run.state w }

@[simp] theorem after_nil (run : Run) : run.after [] = run := rfl

@[simp] theorem after_cons (run : Run) (c : Char) (cs : List Char) :
    run.after (c :: cs) = (run.step c).after cs := rfl

theorem isDead_after {run : Run} (h : run.isDead = true) (w : List Char) :
    (run.after w).isDead = true := by
  have hs : run.state = run.recognizer.dead := beq_iff_eq.mp h
  simp [after, isDead, Recognizer.isDead, hs, Recognizer.runFrom_dead]

theorem isAccepting_eq_false_of_isDead {run : Run} (h : run.isDead = true) :
    run.isAccepting = false := by
  have hs : run.state = run.recognizer.dead := beq_iff_eq.mp h
  rw [isAccepting, hs, Recognizer.isAccepting_dead]

end Run

/-- A beginning of a text that was recognized; it is never empty. -/
structure Match where
  length : Nat
  tokenClass : TokenClass
  length_pos : 0 < length
deriving DecidableEq, Repr

namespace Match

def one (k : TokenClass) : Match := ⟨1, k, Nat.one_pos⟩

/-- The same match, with one more character before it. -/
def shift (m : Match) : Match := ⟨m.length + 1, m.tokenClass, Nat.succ_pos _⟩

end Match

structure Scan where
  longest : Option Match
  /-- The number of characters that were looked at. -/
  inspected : Nat
deriving DecidableEq, Repr

namespace Scan

def winner? (runs : List Run) : Option TokenClass :=
  (runs.find? Run.isAccepting).map (·.recognizer.tokenClass)

/-- Goes on with recognizers that are already at work.  Dead runs accept nothing, so there is no
match left to find once all of them are dead. -/
def ofRuns (runs : List Run) : List Char → Scan
  | [] => ⟨none, 0⟩
  | c :: cs =>
    let stepped := runs.map (·.step c)
    if stepped.all Run.isDead then ⟨none, 1⟩
    else
      let rest := ofRuns stepped cs
      { longest := (rest.longest.map Match.shift).or ((winner? stepped).map Match.one)
        inspected := rest.inspected + 1 }

def of (recognizers : List Recognizer) (text : List Char) : Scan :=
  ofRuns (recognizers.map Run.start) text

theorem winner?_eq_none_of_isDead {runs : List Run} (h : runs.all Run.isDead = true) :
    winner? runs = none := by
  simp only [winner?, Option.map_eq_none_iff, List.find?_eq_none, Bool.not_eq_true]
  exact fun run hrun => Run.isAccepting_eq_false_of_isDead (List.all_eq_true.mp h run hrun)

/-! ## How far a scan looks -/

theorem inspected_ofRuns_le (runs : List Run) (text : List Char) :
    (ofRuns runs text).inspected ≤ text.length := by
  induction text generalizing runs with
  | nil => simp [ofRuns]
  | cons c cs ih =>
    simp only [ofRuns]
    split
    · simp
    · simpa using ih _

theorem inspected_pos {recognizers : List Recognizer} {text : List Char} (h : text ≠ []) :
    0 < (of recognizers text).inspected := by
  obtain ⟨c, cs, rfl⟩ := List.exists_cons_of_ne_nil h
  rw [of, ofRuns]
  dsimp only
  split <;> simp

/-- A match lies within what was looked at. -/
theorem length_le_inspected {runs : List Run} {text : List Char} {m : Match}
    (h : (ofRuns runs text).longest = some m) : m.length ≤ (ofRuns runs text).inspected := by
  induction text generalizing runs m with
  | nil => simp [ofRuns] at h
  | cons c cs ih =>
    simp only [ofRuns] at h ⊢
    split at h
    · simp at h
    · next hlive =>
      rw [if_neg hlive]
      rcases Option.or_eq_some_iff.mp h with h | ⟨-, h⟩
      · obtain ⟨m', hm', rfl⟩ := Option.map_eq_some_iff.mp h
        exact Nat.succ_le_succ (ih hm')
      · obtain ⟨k, -, rfl⟩ := Option.map_eq_some_iff.mp h
        exact Nat.succ_le_succ (Nat.zero_le _)

theorem length_le {recognizers : List Recognizer} {text : List Char} {m : Match}
    (h : (of recognizers text).longest = some m) : m.length ≤ text.length :=
  Nat.le_trans (length_le_inspected h) (inspected_ofRuns_le _ _)

def deadAfter (runs : List Run) (w : List Char) : Bool := (runs.map (·.after w)).all Run.isDead

@[simp] theorem deadAfter_nil (runs : List Run) : deadAfter runs [] = runs.all Run.isDead := by
  simp [deadAfter]

@[simp] theorem deadAfter_cons (runs : List Run) (c : Char) (cs : List Char) :
    deadAfter runs (c :: cs) = deadAfter (runs.map (·.step c)) cs := by
  simp [deadAfter, Function.comp_def]

/-- A scan goes on as long as a recognizer is alive. -/
theorem not_deadAfter_of_lt_inspected {runs : List Run} {text : List Char} {n : Nat} (h : 0 < n)
    (hn : n < (ofRuns runs text).inspected) : deadAfter runs (text.take n) = false := by
  induction text generalizing runs n with
  | nil => simp [ofRuns] at hn
  | cons c cs ih =>
    obtain ⟨n, rfl⟩ := Nat.exists_eq_succ_of_ne_zero (Nat.ne_of_gt h)
    simp only [ofRuns] at hn
    split at hn
    · simp at hn
    · next hlive =>
      rcases Nat.eq_zero_or_pos n with rfl | hpos
      · simpa using hlive
      · simpa using ih hpos (Nat.lt_of_succ_lt_succ hn)

/-- A scan that ends before the text does has no recognizer left alive. -/
theorem deadAfter_of_inspected_lt {runs : List Run} {text : List Char}
    (h : (ofRuns runs text).inspected < text.length) :
    deadAfter runs (text.take (ofRuns runs text).inspected) = true := by
  induction text generalizing runs with
  | nil => simp at h
  | cons c cs ih =>
    simp only [ofRuns] at h ⊢
    split
    · next hdead => simpa using hdead
    · next hlive =>
      rw [if_neg hlive] at h
      simpa using ih (Nat.lt_of_succ_lt_succ h)

/-! ## The longest match -/

def classAfter (runs : List Run) (w : List Char) : Option TokenClass :=
  winner? (runs.map (·.after w))

@[simp] theorem classAfter_nil (runs : List Run) : classAfter runs [] = winner? runs := by
  simp [classAfter]

@[simp] theorem classAfter_cons (runs : List Run) (c : Char) (cs : List Char) :
    classAfter runs (c :: cs) = classAfter (runs.map (·.step c)) cs := by
  simp [classAfter, Function.comp_def]

theorem classAfter_of_isDead {runs : List Run} (h : runs.all Run.isDead = true) (w : List Char) :
    classAfter runs w = none := by
  refine winner?_eq_none_of_isDead (List.all_eq_true.mpr fun run hrun => ?_)
  obtain ⟨run', hrun', rfl⟩ := List.mem_map.mp hrun
  exact Run.isDead_after (List.all_eq_true.mp h run' hrun') w

/-- Nothing is matched only if no beginning of the text has a class. -/
theorem longest_ofRuns_eq_none_iff {runs : List Run} {text : List Char} :
    (ofRuns runs text).longest = none ↔
      ∀ n, 0 < n → n ≤ text.length → classAfter runs (text.take n) = none := by
  induction text generalizing runs with
  | nil => simp only [ofRuns, List.length_nil, true_iff]; omega
  | cons c cs ih =>
    have hcons : (∀ n, 0 < n → n ≤ (c :: cs).length → classAfter runs ((c :: cs).take n) = none) ↔
        ∀ n, n ≤ cs.length → classAfter (runs.map (·.step c)) (cs.take n) = none := by
      constructor
      · intro h n hn
        simpa using h (n + 1) n.succ_pos (by simpa using hn)
      · intro h n hn hle
        obtain ⟨n, rfl⟩ := Nat.exists_eq_succ_of_ne_zero (Nat.ne_of_gt hn)
        simpa using h n (by simpa using hle)
    rw [hcons, ofRuns]
    dsimp only
    split
    · next hdead => simpa using fun n _ => classAfter_of_isDead hdead _
    · simp only [Option.or_eq_none_iff, Option.map_eq_none_iff, ih]
      constructor
      · rintro ⟨hrest, hone⟩ n hn
        rcases Nat.eq_zero_or_pos n with rfl | hpos
        · simpa using hone
        · exact hrest n hpos hn
      · intro h
        exact ⟨fun n _ hn => h n hn, by simpa using h 0 (Nat.zero_le _)⟩

/-- The longest match is the longest beginning of the text that has a class. -/
theorem of_longest_ofRuns_eq_some {runs : List Run} {text : List Char} {m : Match}
    (h : (ofRuns runs text).longest = some m) :
    classAfter runs (text.take m.length) = some m.tokenClass ∧
      ∀ n, m.length < n → n ≤ text.length → classAfter runs (text.take n) = none := by
  induction text generalizing runs m with
  | nil => simp [ofRuns] at h
  | cons c cs ih =>
    simp only [ofRuns] at h
    split at h
    · simp at h
    · rcases Option.or_eq_some_iff.mp h with h | ⟨hrest, h⟩
      · obtain ⟨m', hm', rfl⟩ := Option.map_eq_some_iff.mp h
        obtain ⟨hclass, hmax⟩ := ih hm'
        refine ⟨by simpa [Match.shift] using hclass, fun n hn hle => ?_⟩
        obtain ⟨n, rfl⟩ := Nat.exists_eq_succ_of_ne_zero (Nat.ne_of_gt (Nat.zero_lt_of_lt hn))
        simpa using hmax n (Nat.lt_of_succ_lt_succ hn) (by simpa using hle)
      · obtain ⟨k, hk, rfl⟩ := Option.map_eq_some_iff.mp h
        refine ⟨by simpa [Match.one] using hk, fun n hn hle => ?_⟩
        obtain ⟨n, rfl⟩ := Nat.exists_eq_succ_of_ne_zero (Nat.ne_of_gt (Nat.zero_lt_of_lt hn))
        rw [Option.map_eq_none_iff, longest_ofRuns_eq_none_iff] at hrest
        simpa using hrest n (Nat.lt_of_succ_lt_succ hn) (by simpa using hle)

/-! ## What a scan from the start finds -/

def classOf (recognizers : List Recognizer) (w : List Char) : Option TokenClass :=
  (recognizers.find? (·.accepts w)).map Recognizer.tokenClass

theorem classAfter_start (recognizers : List Recognizer) (w : List Char) :
    classAfter (recognizers.map Run.start) w = classOf recognizers w := by
  simp [classAfter, winner?, classOf, List.find?_map, Function.comp_def, Run.after, Run.start,
    Run.isAccepting, Recognizer.accepts, Recognizer.run]

theorem longest_of_eq_none_iff {recognizers : List Recognizer} {text : List Char} :
    (of recognizers text).longest = none ↔
      ∀ n, 0 < n → n ≤ text.length → classOf recognizers (text.take n) = none := by
  simp only [of, longest_ofRuns_eq_none_iff, classAfter_start]

theorem of_longest_of_eq_some {recognizers : List Recognizer} {text : List Char} {m : Match}
    (h : (of recognizers text).longest = some m) :
    classOf recognizers (text.take m.length) = some m.tokenClass ∧
      ∀ n, m.length < n → n ≤ text.length → classOf recognizers (text.take n) = none := by
  simpa only [classAfter_start] using of_longest_ofRuns_eq_some h

end Scan
end Frontend
