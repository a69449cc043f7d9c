import Frontend.Journal
import Frontend.Syntax.Decl
import Frontend.Typing.Bindings
import Frontend.Typing.Infer

/-!
# Checking programs

A program is checked in two steps.  First its signatures are read into an environment, and no name
may have two of them.  Then the declarations are checked one after the other in that environment, so
that every definition can use every name.  A declaration is in order if its equation defines the
name of the signature and the body has the type that is left once the arguments are bound.

The result binds each name to the closure of its equation.  The first error ends the check.
-/

namespace Frontend

/-! ## One declaration -/

/-- The binding that a declaration makes, if it is in order. -/
def Decl.verify (env : TypeEnv) (d : Decl) : Except CheckError Binding :=
  if d.signature.name ≠ d.equation.name then
    .error (.nameMismatch d.signature.name d.equation.name)
  else do
    let (inner, expected) ← env.bindArgs d.equation.args (.ofExpr d.signature.type)
    let found ← d.equation.body.infer inner
    if found = expected then .ok ⟨d.signature.name, d.equation.closure⟩
    else .error (.typeError (.wrongResultType d.signature.name expected found))

def Decl.check (env : TypeEnv) (d : Decl) : Traced (Except CheckError Binding) :=
  match d.verify env with
  | .ok b => .note (.checked d.signature.name (.ofExpr d.signature.type)) (pure (.ok b))
  | .error e => pure (.error e)

@[simp] theorem Decl.value_check (env : TypeEnv) (d : Decl) :
    (d.check env).value = d.verify env := by
  unfold Decl.check; split <;> simp_all

/-! ## Programs -/

namespace Program

/-- Adds the types of signatures to those that are known. -/
def readSignatures (known : List (String × Ty)) :
    List Signature → Except CheckError (List (String × Ty))
  | [] => .ok known
  | s :: rest =>
    if (known.lookup s.name).isSome then .error (.duplicatedVariable s.name)
    else readSignatures (known ++ [(s.name, .ofExpr s.type)]) rest

def signatureEnv (p : Program) : Traced (Except CheckError TypeEnv) :=
  match readSignatures [] p.signatures with
  | .ok globals => .note .signaturesRead (pure (.ok (.ofGlobals globals)))
  | .error e => pure (.error e)

/-- Checks declarations after others whose bindings are `done`. -/
def checkDecls (env : TypeEnv) (done : Bindings) : List Decl → Traced (Except CheckError Bindings)
  | [] => .note .programChecked (pure (.ok done))
  | d :: rest =>
    (d.check env).andThen fun b =>
      match done.insert b with
      | .ok done => checkDecls env done rest
      | .error e => pure (.error e)

def checkIn (env : TypeEnv) (p : Program) : Traced (Except CheckError Bindings) :=
  checkDecls env .empty p.decls

def check (p : Program) : Traced (Except CheckError Bindings) :=
  p.signatureEnv.andThen fun env => p.checkIn env

end Program
end Frontend
