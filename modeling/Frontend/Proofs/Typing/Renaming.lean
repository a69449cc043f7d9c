import Frontend.Proofs.Typing.Spine
import Frontend.Proofs.Typing.Substitution

/-!
# The names of arguments

An argument is known by its name only within its equation, so another name does as well, as long as
it is new there.  The two equations are checked in two different environments, and `TypeEnv.Renames`
relates them: what the one knows of a name, the other knows of the name that replaces it.  At the
beginning this holds because neither the old nor the new name is known at all, and it is kept while
the arguments are bound, a repeated one being found repeated under either name.  The new name itself
is left out of the relation; it does not occur before.

The errors differ in one case only: an argument that is repeated is reported under its name.  No
other message can mention an argument, since an argument that was bound is never unknown.
-/

namespace Frontend

/-- The name `y` in place of `x`. -/
def renamed (x y name : String) : String := if name = x then y else name

section

variable {x y name other : String}

theorem renamed_self (x y : String) : renamed x y x = y := if_pos rfl

theorem renamed_of_ne (h : name ≠ x) : renamed x y name = name := if_neg h

theorem renamed_inj (hname : name ≠ y) (hother : other ≠ y) :
    renamed x y name = renamed x y other ↔ name = other := by
  unfold renamed
  grind

end

/-! ## Environments -/

namespace TypeEnv

variable {env env' : TypeEnv} {x y : String}

/-- `env'` knows the names that replace others as `env` knows these. -/
def Renames (x y : String) (env env' : TypeEnv) : Prop :=
  ∀ name, name ≠ y → env'.lookup? (renamed x y name) = env.lookup? name

/-- Names that are not known can replace each other. -/
theorem Renames.of_notMem (hx : x ∉ env) (hy : y ∉ env) : Renames x y env env := by
  intro name _
  by_cases hname : name = x
  · rw [hname, renamed_self, notMem_iff.mp hx, notMem_iff.mp hy]
  · rw [renamed_of_ne hname]

namespace Renames

variable {name : String} {type : Ty}

theorem mem_iff (h : Renames x y env env') (hname : name ≠ y) :
    renamed x y name ∈ env' ↔ name ∈ env := by
  rw [TypeEnv.mem_iff, TypeEnv.mem_iff, h name hname]

theorem push (h : Renames x y env env') (hname : name ≠ y) (type : Ty) :
    Renames x y (env.push name type) (env'.push (renamed x y name) type) := by
  intro other hother
  rw [lookup?_push, lookup?_push, Context.push, Context.push]
  by_cases heq : other = name
  · rw [heq, Function.update_self, Function.update_self]
  · have hne : renamed x y other ≠ renamed x y name :=
      fun h => heq ((renamed_inj hother hname).mp h)
    rw [Function.update_of_ne hne, Function.update_of_ne heq]
    exact h other hother

/-- The arguments are bound under the new names as they are under the old ones. -/
theorem bindEach_map {tooMany : TypeError} {args : List String} (h : Renames x y env env')
    (hy : y ∉ args) :
    (∀ e, bindEach tooMany env args type = .error e →
      bindEach tooMany env' (args.map (renamed x y)) type = .error (e.rename (renamed x y))) ∧
    ∀ inner rest, bindEach tooMany env args type = .ok (inner, rest) →
      ∃ inner', bindEach tooMany env' (args.map (renamed x y)) type = .ok (inner', rest) ∧
        Renames x y inner inner' := by
  induction args generalizing env env' type with
  | nil =>
      refine ⟨nofun, ?_⟩
      intro inner rest hbound
      obtain ⟨rfl, rfl⟩ := Prod.mk.inj (Except.ok.inj hbound)
      exact ⟨env', rfl, h⟩
  | cons name args ih =>
      have hname : name ≠ y := (List.ne_of_not_mem_cons hy).symm
      have hargs : y ∉ args := List.not_mem_of_not_mem_cons hy
      cases type with
      | integer | bool =>
          -- on either side there are too many arguments
          refine ⟨?_, nofun⟩
          intro e herror
          obtain rfl := Except.error.inj herror
          rfl
      | function arg result =>
          rw [List.map_cons]
          by_cases hmem : name ∈ env
          · -- the name is repeated on one side exactly if it is on the other
            have hmem' : renamed x y name ∈ env' := (h.mem_iff hname).mpr hmem
            rw [bindEach_cons_of_mem hmem, bindEach_cons_of_mem hmem']
            refine ⟨?_, nofun⟩
            intro e herror
            obtain rfl := Except.error.inj herror
            rfl
          · have hmem' : renamed x y name ∉ env' := fun h' => hmem ((h.mem_iff hname).mp h')
            rw [bindEach_cons_of_notMem hmem, bindEach_cons_of_notMem hmem']
            exact ih (h.push hname arg) hargs

theorem bindArgs_map {args : List String} (h : Renames x y env env') (hy : y ∉ args) :
    (∀ e, env.bindArgs args type = .error e →
      env'.bindArgs (args.map (renamed x y)) type = .error (e.rename (renamed x y))) ∧
    ∀ inner rest, env.bindArgs args type = .ok (inner, rest) →
      ∃ inner', env'.bindArgs (args.map (renamed x y)) type = .ok (inner', rest) ∧
        Renames x y inner inner' := by
  unfold bindArgs
  rw [List.length_map]
  exact h.bindEach_map hy

end Renames

theorem mem_of_bindArgs {env inner : TypeEnv} {args : List String} {type rest : Ty} {x : String}
    (h : env.bindArgs args type = .ok (inner, rest)) (hx : x ∈ args) : x ∈ inner := by
  obtain ⟨i, hi⟩ := List.getElem?_of_mem hx
  obtain ⟨arg, -, hlookup⟩ := lookup?_arg_of_bindArgs h hi
  exact mem_iff.mpr ⟨arg, hlookup⟩

end TypeEnv

/-! ## Expressions -/

namespace Exp

/-- The expression with all its names changed, those of lambdas included. -/
def rename (f : String → String) : Exp → Exp
  | var name => var (f name)
  | app g a => app (g.rename f) (a.rename f)
  | infixOp op l r => infixOp op (l.rename f) (r.rename f)
  | cond c t e => cond (c.rename f) (t.rename f) (e.rename f)
  | lambda x b => lambda (f x) (b.rename f)
  | e => e

variable {f : String → String} {e : Exp}

theorem rename_closure (args : List String) (body : Exp) :
    (closure args body).rename f = closure (args.map f) (body.rename f) := by
  induction args with
  | nil => rfl
  | cons x args ih => rw [closure_cons, rename, ih, List.map_cons, closure_cons]

theorem rename_eq_subst (h : e.hasLambda = false) :
    e.rename f = e.subst fun name => var (f name) := by
  induction e with
  | var | num | bool => rfl
  | app g a ihg iha =>
      obtain ⟨hg, ha⟩ := Bool.or_eq_false_iff.mp h
      rw [rename, subst, ihg hg, iha ha]
  | infixOp op l r ihl ihr =>
      obtain ⟨hl, hr⟩ := Bool.or_eq_false_iff.mp h
      rw [rename, subst, ihl hl, ihr hr]
  | cond c t e ihc iht ihe =>
      obtain ⟨hct, he⟩ := Bool.or_eq_false_iff.mp h
      obtain ⟨hc, ht⟩ := Bool.or_eq_false_iff.mp hct
      rw [rename, subst, ihc hc, iht ht, ihe he]
  | lambda => contradiction

theorem infer_renamed {env env' : TypeEnv} {x y : String} (h : env.Renames x y env')
    (hlambda : e.hasLambda = false) (hy : y ∉ e.vars) :
    (e.rename (renamed x y)).infer env' =
      (e.infer env).mapError (CheckError.rename (renamed x y)) := by
  rw [rename_eq_subst hlambda]
  apply infer_subst_rename
  intro name hname
  exact TypeEnv.typeOf_rename (h name (ne_of_mem_of_not_mem hname hy))

theorem infer_ne_unknownVariable {env : TypeEnv} {x : String} (hx : x ∈ env) :
    e.infer env ≠ .error (.unknownVariable x) := by
  intro h
  obtain ⟨m, -, hfault⟩ := exists_reached_of_infer h
  cases hfault with
  | unknownVariable hlookup => exact TypeEnv.notMem_iff.mpr hlookup hx

end Exp

/-! ## Declarations -/

namespace Decl

/-- The declaration with the names in its equation changed, but for the name it defines. -/
def rename (f : String → String) (d : Decl) : Decl :=
  ⟨d.signature, ⟨d.equation.name, d.equation.args.map f, d.equation.body.rename f⟩⟩

variable {env : TypeEnv} {d : Decl} {x y : String}

theorem binding_rename (f : String → String) (d : Decl) :
    (d.rename f).binding = ⟨d.binding.name, d.binding.exp.rename f⟩ := by
  simp only [binding, rename, Equation.closure, Exp.rename_closure]

theorem verify_renamed (hlambda : d.equation.body.hasLambda = false) (hx : x ∉ env) (hy : y ∉ env)
    (hargs : y ∉ d.equation.args) (hbody : y ∉ d.equation.body.vars) :
    (d.rename (renamed x y)).verify env =
      ((d.verify env).mapError (CheckError.rename (renamed x y))).map fun _ =>
        (d.rename (renamed x y)).binding := by
  have hrenames : env.Renames x y env := .of_notMem hx hy
  obtain ⟨herror, hok⟩ := hrenames.bindArgs_map hargs
  apply verify_eq_of_steps herror
  intro inner expected hbound
  obtain ⟨inner', hbound', hinner⟩ := hok inner expected hbound
  exact ⟨inner', hbound', Exp.infer_renamed hinner hlambda hbody⟩

/-- An argument is never unknown. -/
theorem verify_ne_unknownVariable (hx : x ∈ d.equation.args) :
    d.verify env ≠ .error (.unknownVariable x) := by
  intro h
  cases verify_eq_iff_verdict.mp h with
  | arguments _ herror =>
      obtain ⟨_, _, _, -, hfault, -⟩ := TypeEnv.bindEach_eq_error_iff.mp herror
      cases hfault
  | body _ hbound herror =>
      exact Exp.infer_ne_unknownVariable (TypeEnv.mem_of_bindArgs hbound hx) herror

end Decl

theorem CheckError.rename_renamed {x y : String} {e : CheckError} (h : e ≠ .unknownVariable x) :
    e.rename (renamed x y) = if e = .duplicatedVariable x then .duplicatedVariable y else e := by
  cases e with
  | typeError | nameMismatch => rfl
  | unknownVariable name =>
      have hname : name ≠ x := by
        rintro rfl
        exact h rfl
      rw [rename, renamed_of_ne hname, if_neg nofun]
  | duplicatedVariable name =>
      by_cases hname : name = x
      · rw [hname, rename, renamed_self, if_pos rfl]
      · have hne : duplicatedVariable name ≠ duplicatedVariable x :=
          fun h => hname (duplicatedVariable.inj h)
        rw [rename, renamed_of_ne hname, if_neg hne]

/-- **The names of arguments can be chosen freely.**  If an argument gets a name that is new to the
environment and the equation, in the whole equation, the declaration is in order exactly if it was.
The closure has the new name wherever it had the old one, and an error is the same as before unless
it is that this argument is repeated. -/
theorem verify_renamed_argument (env : TypeEnv) (d : Decl) (x y : String)
    (hlambda : d.equation.body.hasLambda = false) (hx : x ∉ env) (hy : y ∉ env)
    (hargs : y ∉ d.equation.args) (hbody : y ∉ d.equation.body.vars)
    (harg : x ∈ d.equation.args) :
    let d' := d.rename (renamed x y)
    ((∃ b, d'.verify env = .ok b) ↔ ∃ b, d.verify env = .ok b) ∧
      (∀ b, d.verify env = .ok b → d'.verify env = .ok ⟨b.name, b.exp.rename (renamed x y)⟩) ∧
      (∀ e, d.verify env = .error e → d'.verify env =
        .error (if e = .duplicatedVariable x then .duplicatedVariable y else e)) ∧
      d.verify env ≠ .error (.unknownVariable x) := by
  intro d'
  have hverify := Decl.verify_renamed hlambda hx hy hargs hbody
  have hunknown : d.verify env ≠ .error (.unknownVariable x) := Decl.verify_ne_unknownVariable harg
  have hok : ∀ b, d.verify env = .ok b →
      d'.verify env = .ok ⟨b.name, b.exp.rename (renamed x y)⟩ := by
    intro b hb
    rw [hb] at hverify
    rw [Decl.eq_binding_of_verify hb, ← Decl.binding_rename]
    exact hverify
  have herror : ∀ e, d.verify env = .error e → d'.verify env =
      .error (if e = .duplicatedVariable x then .duplicatedVariable y else e) := by
    intro e he
    rw [he] at hverify hunknown
    rw [← CheckError.rename_renamed fun h => hunknown (congrArg Except.error h)]
    exact hverify
  refine ⟨⟨?_, ?_⟩, hok, herror, hunknown⟩
  · rintro ⟨b', hb'⟩
    -- an error of the declaration would be one of the renamed declaration
    cases h : d.verify env with
    | ok b => exact ⟨b, rfl⟩
    | error e =>
        rw [herror e h] at hb'
        contradiction
  · rintro ⟨b, hb⟩
    exact ⟨_, hok b hb⟩

/-- `f` calls itself with its arguments, and in a second version both of them are named `x`. -/
theorem verify_renamed_argument_recursive :
    let type : TypeExpr := .function .integer (.function .integer .integer)
    let env : TypeEnv := .ofGlobals [("f", .ofExpr type)]
    let body : Exp := .cond (.infixOp "<=" (.var "z") (.num "0")) (.var "x")
      (.app (.app (.var "f") (.var "x")) (.infixOp "-" (.var "z") (.num "1")))
    let f (args : List String) : Decl := ⟨⟨"f", type⟩, ⟨"f", args, body⟩⟩
    let rename := renamed "x" "y"
    "x" ∉ env ∧ "y" ∉ env ∧ "y" ∉ body.vars ∧ body.hasLambda = false ∧
      ((f ["x", "z"]).rename rename).verify env =
        .ok ⟨"f", .lambda "y" (.lambda "z" (body.rename rename))⟩ ∧
      ((f ["x", "x"]).rename rename).verify env = .error (.duplicatedVariable "y") := by
  intro type env body f rename
  have hlambda : body.hasLambda = false := rfl
  have hx : "x" ∉ env := by decide
  have hy : "y" ∉ env := by decide
  have hbody : "y" ∉ body.vars := by decide
  have hnew := verify_renamed_argument env (f ["x", "z"]) "x" "y" hlambda hx hy (by decide) hbody
    List.mem_cons_self
  have hrepeated := verify_renamed_argument env (f ["x", "x"]) "x" "y" hlambda hx hy (by decide)
    hbody List.mem_cons_self
  refine ⟨hx, hy, hbody, hlambda, ?_, ?_⟩
  · exact hnew.2.1 (f ["x", "z"]).binding rfl
  · exact hrepeated.2.2.1 (.duplicatedVariable "x") rfl

end Frontend
