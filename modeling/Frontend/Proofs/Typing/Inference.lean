import Frontend.Typing.Judgement

/-!
# Inference and the typing rules

Inference decides the typing judgement: it finds a type exactly if there is a derivation, and then
the one type that can be derived.  It looks at every part of an expression outside of lambdas, and a
lambda has no type, so an expression with a lambda anywhere has none either.
-/

namespace Frontend

def Exp.hasLambda : Exp → Bool
  | .var _ | .num _ | .bool _ => false
  | .app f a => f.hasLambda || a.hasLambda
  | .infixOp _ l r => l.hasLambda || r.hasLambda
  | .cond c t e => c.hasLambda || t.hasLambda || e.hasLambda
  | .lambda _ _ => true

/-- What has a type is free of lambdas. -/
theorem HasType.hasLambda_eq_false {env : TypeEnv} {e : Exp} {type : Ty} (h : HasType env e type) :
    e.hasLambda = false := by
  induction h with
  | var _ | num _ | bool _ => rfl
  | app _ _ ihf iha => rw [Exp.hasLambda, ihf, iha]; rfl
  | compare _ _ _ ihl ihr | compute _ _ _ ihl ihr => rw [Exp.hasLambda, ihl, ihr]; rfl
  | cond _ _ _ ihc iht ihe => rw [Exp.hasLambda, ihc, iht, ihe]; rfl

/-- **Inference decides the typing rules.**  The type it finds is derivable, every derivable type is
found, there is never more than one, and there is none if a lambda occurs in the expression. -/
theorem infer_decides_hasType (env : TypeEnv) (e : Exp) :
    (∀ type, e.infer env = .ok type ↔ HasType env e type) ∧
      (∀ s t, HasType env e s → HasType env e t → s = t) ∧
      (e.hasLambda = true → ∀ type, ¬ HasType env e type) := by
  refine ⟨fun type => infer_eq_ok_iff, fun s t hs ht => hs.unique ht, ?_⟩
  intro hlambda type h
  rw [h.hasLambda_eq_false] at hlambda
  contradiction

end Frontend
