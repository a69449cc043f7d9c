import Frontend.Proofs.Typing.Weakening

/-!
# Parts of one type

What inference yields for an expression depends on the types of its parts and not on what they are.
So a part may be exchanged for another one of the same type, and not even an error that comes up
elsewhere will tell the difference.  A part is given here by what stands around it, an expression
with a hole (`Exp.Hole`); no hole is inside of a lambda.

A name with a type is such a part as well.  If it stands for an expression of this type, as a
definition without arguments does, the expression can be written in place of all its occurrences
(`Exp.inline`).  In the body of an equation the arguments are known besides, but they hide nothing,
so name and expression have their types there too.
-/

namespace Frontend

namespace Exp

/-! ## One part -/

/-- An expression with a hole in it. -/
inductive Hole where
  | here
  | inFunction (f : Hole) (arg : Exp)
  | inArg (function : Exp) (a : Hole)
  | inLhs (op : String) (l : Hole) (rhs : Exp)
  | inRhs (op : String) (lhs : Exp) (r : Hole)
  | inTest (c : Hole) (yes no : Exp)
  | inYes (test : Exp) (t : Hole) (no : Exp)
  | inNo (test yes : Exp) (e : Hole)
deriving DecidableEq, Repr

/-- The expression with `part` in the place of the hole. -/
def Hole.fill (part : Exp) : Hole → Exp
  | here => part
  | inFunction f arg => app (f.fill part) arg
  | inArg function a => app function (a.fill part)
  | inLhs op l rhs => infixOp op (l.fill part) rhs
  | inRhs op lhs r => infixOp op lhs (r.fill part)
  | inTest c yes no => cond (c.fill part) yes no
  | inYes test t no => cond test (t.fill part) no
  | inNo test yes e => cond test yes (e.fill part)

variable {env : TypeEnv} {e v part part' : Exp} {x : String} {type : Ty}

theorem infer_fill_congr (hole : Hole) (h : part.infer env = part'.infer env) :
    (hole.fill part).infer env = (hole.fill part').infer env := by
  induction hole with
  | here => exact h
  | inFunction f arg ih | inArg function a ih =>
      rw [Hole.fill, Hole.fill, infer, infer, ih]
  | inLhs op l rhs ih | inRhs op lhs r ih =>
      rw [Hole.fill, Hole.fill, infer, infer, ih]
  | inTest c yes no ih | inYes test t no ih | inNo test yes e ih =>
      rw [Hole.fill, Hole.fill, infer, infer, ih]

/-! ## All occurrences of a name -/

/-- The expression with `v` in place of every variable `x` outside of lambdas. -/
def inline (e : Exp) (x : String) (v : Exp) : Exp :=
  e.subst fun name => if name = x then v else var name

theorem infer_inline (hx : env.typeOf x = .ok type) (hv : v.infer env = .ok type) :
    (e.inline x v).infer env = e.infer env := by
  apply infer_subst
  intro name _
  by_cases hname : name = x
  · subst hname
    rw [if_pos rfl, hv, hx]
  · rw [if_neg hname, infer]

end Exp

namespace Decl

/-- The declaration with `v` in place of `x` in the body of its equation. -/
def inline (d : Decl) (x : String) (v : Exp) : Decl :=
  ⟨d.signature, ⟨d.equation.name, d.equation.args, d.equation.body.inline x v⟩⟩

variable {env : TypeEnv} {c d : Decl} {b : Binding} {x : String} {v : Exp} {type : Ty}

theorem verify_inline (hx : env.typeOf x = .ok type) (hv : v.infer env = .ok type) :
    (d.inline x v).verify env = (d.verify env).map fun _ => (d.inline x v).binding := by
  rw [← mapError_rename_id (d.verify env)]
  apply verify_eq_of_steps
  · intro e h
    rw [h, e.rename_id]
  · intro inner expected h
    have hext : inner.Extends env := TypeEnv.extends_of_bindArgs h
    have hx' : inner.typeOf x = .ok type := Exp.infer_of_extends (e := .var x) hext hx
    have hv' : v.infer inner = .ok type := Exp.infer_of_extends hext hv
    refine ⟨inner, h, ?_⟩
    rw [mapError_rename_id, Exp.infer_inline hx' hv']

/-- The body of an equation without arguments has the type of the signature. -/
theorem infer_body_of_verify (h : c.verify env = .ok b) (hargs : c.equation.args = []) :
    c.equation.body.infer env = .ok (.ofExpr c.signature.type) := by
  obtain ⟨-, ⟨inner, expected, hbound, hbody⟩, -⟩ := verify_eq_ok_iff_infer.mp h
  rw [hargs] at hbound
  obtain ⟨rfl, rfl⟩ := Prod.mk.inj (Except.ok.inj hbound)
  exact hbody

end Decl

/-- **Parts of one type can be exchanged.**  Whatever stands around a part, its type or the error
found elsewhere stays the same.  All occurrences of a name can be replaced by an expression of its
type, and so a definition without arguments can be written out in any other one: this changes
neither whether it is in order nor what is wrong with it. -/
theorem typing_congruence (env : TypeEnv) :
    (∀ (hole : Exp.Hole) (part part' : Exp) (type : Ty), part.infer env = .ok type →
      part'.infer env = .ok type → (hole.fill part).infer env = (hole.fill part').infer env) ∧
    (∀ (e v : Exp) (x : String) (type : Ty), env.typeOf x = .ok type → v.infer env = .ok type →
      (e.inline x v).infer env = e.infer env) ∧
    ∀ (c d : Decl) (b : Binding), c.verify env = .ok b → c.equation.args = [] →
      env.typeOf c.signature.name = .ok (.ofExpr c.signature.type) →
        let d' := d.inline c.signature.name c.equation.body
        d'.verify env = (d.verify env).map fun _ => d'.binding := by
  refine ⟨?_, fun e v x type hx hv => Exp.infer_inline hx hv, ?_⟩
  · intro hole part part' type h h'
    exact Exp.infer_fill_congr hole (h.trans h'.symm)
  · intro c d b h hargs hname
    exact Decl.verify_inline hname (Decl.infer_body_of_verify h hargs)

/-- `limit` is written out in `small`, which is in order, and in `wrong`, where another part is at
fault. -/
theorem typing_congruence_limit :
    let limit : Decl := ⟨⟨"limit", .integer⟩, ⟨"limit", [], .infixOp "+" (.num "2") (.num "3")⟩⟩
    let small : Decl := ⟨⟨"small", .function .integer .bool⟩,
      ⟨"small", ["x"], .infixOp "<=" (.var "x") (.var "limit")⟩⟩
    let wrong : Decl := ⟨⟨"wrong", .bool⟩,
      ⟨"wrong", [], .cond (.app (.var "small") (.var "limit")) (.var "limit") (.bool "True")⟩⟩
    let env := Program.globalEnv ⟨[limit, small, wrong]⟩
    let hole : Exp.Hole := .inLhs "==" (.inArg (.var "small") .here) (.num "0")
    (hole.fill (.var "limit")).infer env = (hole.fill limit.equation.body).infer env ∧
      (small.equation.body.inline "x" (.num "7")).infer (env.push "x" .integer) = .ok .bool ∧
      (small.inline "limit" limit.equation.body).verify env = .ok ⟨"small", .lambda "x"
        (.infixOp "<=" (.var "x") (.infixOp "+" (.num "2") (.num "3")))⟩ ∧
      (wrong.inline "limit" limit.equation.body).verify env =
        .error (.typeError (.branchMismatch .integer .bool)) := by
  intro limit small wrong env hole
  have hlimit : limit.verify env = .ok limit.binding := by decide
  have htype : env.typeOf "limit" = .ok .integer := by decide
  have hsmall := (typing_congruence env).2.2 limit small _ hlimit rfl htype
  have hwrong := (typing_congruence env).2.2 limit wrong _ hlimit rfl htype
  have hbody := (typing_congruence (env.push "x" .integer)).2.1 small.equation.body (.num "7") "x"
    .integer (by decide) (by decide)
  refine ⟨(typing_congruence env).1 hole _ _ .integer htype (by decide), hbody.trans ?_,
    hsmall.trans ?_, hwrong.trans ?_⟩
  all_goals decide

end Frontend
