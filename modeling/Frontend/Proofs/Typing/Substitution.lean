import Frontend.Proofs.Typing.Postorder

/-!
# Expressions in place of variables

Inference asks the environment for nothing but the types of variables, those in `Exp.vars`.  So
when other expressions are put in their place, and each of them yields in some environment what the
variable yields in the first one, the whole expression yields the same as before.  The types and
the errors of its other parts do not change either.

A variable may also be renamed, and then its name changes in the errors that mention it;
`CheckError.rename` is the change of an error.  The main statement, `Exp.infer_subst_rename`, allows
for both.

A declaration adds the binding of its arguments to this.  `Decl.verify_eq_of_steps` says what has to
be known of the arguments and of the body, so that the verdict on another equation follows.
-/

namespace Frontend

/-! ## Names in errors -/

/-- The error that is reported when names are changed by `f`.  No other part of an error has to do
with the names of variables. -/
def CheckError.rename (f : String → String) : CheckError → CheckError
  | unknownVariable name => unknownVariable (f name)
  | duplicatedVariable name => duplicatedVariable (f name)
  | e => e

theorem CheckError.rename_id (e : CheckError) : e.rename id = e := by
  cases e <;> rfl

section

variable {ε ε' α β : Type}

theorem mapError_bind (x : Except ε α) (k : α → Except ε β) (g : ε → ε') :
    (x >>= k).mapError g = x.mapError g >>= fun a => (k a).mapError g := by
  cases x <;> rfl

theorem mapError_rename_id (x : Except CheckError α) : x.mapError (CheckError.rename id) = x := by
  cases x with
  | ok => rfl
  | error e => exact congrArg Except.error e.rename_id

theorem mapError_rename_typeError (f : String → String) (x : Except TypeError α) :
    (x.mapError CheckError.typeError).mapError (CheckError.rename f) =
      x.mapError CheckError.typeError := by
  cases x <;> rfl

end

theorem TypeEnv.typeOf_rename {f : String → String} {env env' : TypeEnv} {name : String}
    (h : env'.lookup? (f name) = env.lookup? name) :
    env'.typeOf (f name) = (env.typeOf name).mapError (CheckError.rename f) := by
  unfold TypeEnv.typeOf
  rw [h]
  cases env.lookup? name <;> rfl

/-! ## The variables of an expression -/

namespace Exp

/-- The variables that inference comes to.  It never enters a lambda. -/
def vars : Exp → List String
  | var name => [name]
  | app f a => f.vars ++ a.vars
  | infixOp _ l r => l.vars ++ r.vars
  | cond c t e => c.vars ++ t.vars ++ e.vars
  | num _ | bool _ | lambda _ _ => []

theorem mem_vars_iff {x : String} {e : Exp} : x ∈ e.vars ↔ var x ∈ e.postorder := by
  induction e <;> simp_all [vars, postorder]

/-- The expression with other expressions in place of these variables. -/
def subst (σ : String → Exp) : Exp → Exp
  | var name => σ name
  | app f a => app (f.subst σ) (a.subst σ)
  | infixOp op l r => infixOp op (l.subst σ) (r.subst σ)
  | cond c t e => cond (c.subst σ) (t.subst σ) (e.subst σ)
  | e => e

theorem subst_var (e : Exp) : e.subst var = e := by
  induction e with
  | var | num | bool | lambda => rfl
  | app f a ihf iha => rw [subst, ihf, iha]
  | infixOp op l r ihl ihr => rw [subst, ihl, ihr]
  | cond c t e ihc iht ihe => rw [subst, ihc, iht, ihe]

variable {σ : String → Exp} {env env' : TypeEnv} {e : Exp}

/-- **Inference looks at variables only.**  If what stands in place of each variable yields what the
variable yields, up to a change of names in errors, then the whole expression does so too. -/
theorem infer_subst_rename {f : String → String}
    (h : ∀ x ∈ e.vars, (σ x).infer env' = (env.typeOf x).mapError (CheckError.rename f)) :
    (e.subst σ).infer env' = (e.infer env).mapError (CheckError.rename f) := by
  induction e with
  | var name => exact h name (List.mem_singleton_self name)
  | num digits => exact (mapError_rename_typeError f _).symm
  | bool text => exact (mapError_rename_typeError f _).symm
  | app fn a ihf iha =>
      rw [vars, List.forall_mem_append] at h
      rw [subst, infer, infer, ihf h.1, iha h.2]
      simp only [mapError_bind, mapError_rename_typeError]
  | infixOp op l r ihl ihr =>
      rw [vars, List.forall_mem_append] at h
      rw [subst, infer, infer, ihl h.1, ihr h.2]
      simp only [mapError_bind, mapError_rename_typeError]
  | cond c t e ihc iht ihe =>
      rw [vars, List.forall_mem_append, List.forall_mem_append] at h
      rw [subst, infer, infer, ihc h.1.1, iht h.1.2, ihe h.2]
      simp only [mapError_bind, mapError_rename_typeError]
  | lambda => rfl

/-- Without a change of names. -/
theorem infer_subst (h : ∀ x ∈ e.vars, (σ x).infer env' = env.typeOf x) :
    (e.subst σ).infer env' = e.infer env := by
  rw [← mapError_rename_id (e.infer env)]
  apply infer_subst_rename
  intro x hx
  rw [h x hx, mapError_rename_id]

/-- Environments that agree on the variables of an expression yield the same for it. -/
theorem infer_congr (h : ∀ x ∈ e.vars, env.typeOf x = env'.typeOf x) :
    e.infer env = e.infer env' := by
  have hvar : ∀ x ∈ e.vars, (var x).infer env' = env.typeOf x := fun x hx => (h x hx).symm
  calc e.infer env
      = (e.subst var).infer env' := (infer_subst hvar).symm
    _ = e.infer env' := by rw [subst_var]

end Exp

theorem HasType.mem_of_mem_vars {env : TypeEnv} {e : Exp} {type : Ty} {x : String}
    (h : HasType env e type) (hx : x ∈ e.vars) : x ∈ env := by
  obtain ⟨s, hs⟩ := h.typed_postorder (.var x) (Exp.mem_vars_iff.mp hx)
  cases hs with
  | var hlookup => exact TypeEnv.mem_iff.mpr ⟨s, hlookup⟩

/-! ## Declarations -/

/-- Two equations of one signature that go through the same steps have the same verdict, up to a
change of names. -/
theorem Decl.verify_eq_of_steps {f : String → String} {env env' : TypeEnv} {d : Decl}
    {args : List String} {body : Exp}
    (hargs : ∀ e, env.bindArgs d.equation.args (.ofExpr d.signature.type) = .error e →
      env'.bindArgs args (.ofExpr d.signature.type) = .error (e.rename f))
    (hbody : ∀ inner expected,
      env.bindArgs d.equation.args (.ofExpr d.signature.type) = .ok (inner, expected) →
      ∃ inner', env'.bindArgs args (.ofExpr d.signature.type) = .ok (inner', expected) ∧
        body.infer inner' = (d.equation.body.infer inner).mapError (CheckError.rename f)) :
    let d' : Decl := ⟨d.signature, ⟨d.equation.name, args, body⟩⟩
    d'.verify env' = ((d.verify env).mapError (CheckError.rename f)).map fun _ => d'.binding := by
  intro d'
  have hverdict : d.Verdict env (d.verify env) := verdict_verify env d
  apply Verdict.verify_eq
  generalize d.verify env = result at hverdict ⊢
  -- each way to a verdict is a way of the other equation as well
  cases hverdict with
  | nameMismatch hname => exact .nameMismatch hname
  | arguments hname herror => exact .arguments hname (hargs _ herror)
  | body hname hbound herror =>
      obtain ⟨inner', hbound', hbody'⟩ := hbody _ _ hbound
      rw [herror] at hbody'
      exact .body hname hbound' hbody'
  | wrongResult hname hbound hfound hne =>
      obtain ⟨inner', hbound', hbody'⟩ := hbody _ _ hbound
      rw [hfound] at hbody'
      exact .wrongResult hname hbound' hbody' hne
  | inOrder hname hbound hfound =>
      obtain ⟨inner', hbound', hbody'⟩ := hbody _ _ hbound
      rw [hfound] at hbody'
      exact .inOrder hname hbound' hbody'

end Frontend
