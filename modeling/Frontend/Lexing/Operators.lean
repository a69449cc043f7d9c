import Frontend.Lexing.Stream

/-!
# The operators of MH

The recognizer for operators takes every run of symbolic characters, but the language has only a
few.  `OperatorCheck` is a stream that looks at each operator of another stream: one that the
language has gets a class of its own, named by its text; any other is an error, and the stream ends
with it.
-/

namespace Frontend

def mhOperators : List String := ["::", "->", "=", "==", "<=", "+", "-"]

/-- Classifies an operator by its text.  Other tokens stay as they are. -/
def Token.checkOperator (token : Token) : Item :=
  if token.value.tokenClass ≠ .operator then .ok token
  else if token.value.text ∈ mhOperators then .ok (token.map fun l => ⟨l.text, ⟨l.text⟩⟩)
  else .error ⟨token.span, .unknownOperator token.value.text⟩

structure OperatorCheck (σ : Type) where
  inner : σ
  /-- Whether an error was met. -/
  finished : Bool
deriving DecidableEq, Repr

namespace OperatorCheck

variable {σ : Type} [TokenStream σ]

def of (inner : σ) : OperatorCheck σ := ⟨inner, false⟩

/-- The next item, checked.  After an error the inner stream is left alone. -/
def next (s : OperatorCheck σ) : Traced (Option Item × OperatorCheck σ) :=
  if s.finished then pure (none, s)
  else do
    let (item, rest) ← TokenStream.next s.inner
    let checked := item.map (·.bind Token.checkOperator)
    pure (checked, ⟨rest, checked.any fun i => !i.isOk⟩)

def remaining (s : OperatorCheck σ) : Nat :=
  if s.finished then 0 else TokenStream.remaining s.inner + 1

theorem remaining_next (s : OperatorCheck σ) (h : s.next.value.1.isSome = true) :
    s.next.value.2.remaining < s.remaining := by
  unfold next at h ⊢
  split at h
  · simp at h
  · next hs =>
    have := TokenStream.remaining_next s.inner (by simpa using h)
    simp only [if_neg hs, remaining]
    split <;> simp_all

instance : TokenStream (OperatorCheck σ) := ⟨next, remaining, remaining_next⟩

end OperatorCheck
end Frontend
