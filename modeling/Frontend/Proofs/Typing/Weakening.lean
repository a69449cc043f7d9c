import Frontend.Proofs.Typing.Spine
import Frontend.Proofs.Typing.Substitution
import Mathlib.Data.List.Nodup

/-!
# More names in an environment

An environment that knows more names than another one, and the same types for the names of the other
one, extends it.  Whatever has a type in the smaller environment has this type in the larger one:
all its variables are known in the smaller one, and inference asks for nothing else.

This is not quite true of declarations.  Nothing may be hidden by an argument, so a declaration that
is in order may clash with a name that was added, but only if one of its arguments has this name.
Then this is also the error that is reported: the other arguments are as new as before, and there
are no more of them than the type has room for.
-/

namespace Frontend

/-! ## Larger environments -/

namespace TypeEnv

variable {env env' inner : TypeEnv} {args : List String} {type rest : Ty}

/-- Every name of `env` has the type in `env'` that it has in `env`. -/
def Extends (env' env : TypeEnv) : Prop := ∀ x ∈ env, env'.lookup? x = env.lookup? x

theorem Extends.push (h : env'.Extends env) (name : String) (type : Ty) :
    (env'.push name type).Extends (env.push name type) := by
  intro x hx
  rw [lookup?_push, lookup?_push, Context.push, Context.push]
  by_cases hname : x = name
  · subst hname
    rw [Function.update_self, Function.update_self]
  · rw [Function.update_of_ne hname, Function.update_of_ne hname]
    exact h x ((mem_push.mp hx).resolve_left hname)

theorem Extends.extend (h : env'.Extends env) (bound : List (String × Ty)) :
    (env'.extend bound).Extends (env.extend bound) := by
  induction bound generalizing env env' with
  | nil => exact h
  | cons b bound ih => exact ih (h.push b.1 b.2)

/-- No argument hides a name. -/
theorem extends_of_bindArgs (h : env.bindArgs args type = .ok (inner, rest)) :
    inner.Extends env := by
  obtain ⟨⟨-, -, hfresh⟩, -⟩ := bindEach_eq_ok_iff_spine.mp h
  intro x hx
  apply lookup?_of_bindArgs h
  intro hargs
  exact hfresh x hargs hx

theorem exists_bindArgs_of_extends (hext : env'.Extends env) (hfresh : ∀ x ∈ args, x ∉ env')
    (h : env.bindArgs args type = .ok (inner, rest)) :
    ∃ inner', env'.bindArgs args type = .ok (inner', rest) ∧ inner'.Extends inner := by
  obtain ⟨⟨hroom, hnodup, -⟩, htype, rfl⟩ := bindEach_eq_ok_iff_spine.mp h
  exact ⟨_, bindEach_eq_ok_iff_spine.mpr ⟨⟨hroom, hnodup, hfresh⟩, htype, rfl⟩, hext.extend _⟩

/-- If of all arguments `x` is the only one that has a type already, this is what is reported. -/
theorem bindArgs_eq_duplicatedVariable {x : String} (hroom : args.length ≤ type.spine.length)
    (hnodup : args.Nodup) (hx : x ∈ args) (honly : ∀ y ∈ args, y ∈ env ↔ y = x) :
    env.bindArgs args type = .error (.duplicatedVariable x) := by
  obtain ⟨before, after, rfl⟩ := List.append_of_mem hx
  have hnew : x ∉ before := by
    intro hmem
    exact (List.nodup_cons.mp (List.nodup_middle.mp hnodup)).1 (List.mem_append_left after hmem)
  rw [List.length_append, List.length_cons] at hroom
  refine bindEach_eq_error_iff.mpr ⟨before, x, after, rfl, ?_, ?_⟩
  · exact .duplicated (by omega) (.inr ((honly x hx).mpr rfl))
  · rintro earlier y later rfl e' hfault
    cases hfault with
    | tooMany hfull =>
        rw [List.length_append, List.length_cons] at hroom
        omega
    | duplicated _ hname =>
        rcases hname with hearlier | hy
        · rw [List.append_assoc, List.cons_append, List.nodup_middle] at hnodup
          exact (List.nodup_cons.mp hnodup).1 (List.mem_append_left _ hearlier)
        · obtain rfl := (honly y (by simp)).mp hy
          exact hnew (by simp)

end TypeEnv

/-- What has a type keeps it. -/
theorem Exp.infer_of_extends {env env' : TypeEnv} {e : Exp} {type : Ty}
    (hext : env'.Extends env) (h : e.infer env = .ok type) : e.infer env' = .ok type := by
  rw [← h]
  apply infer_congr
  intro x hx
  exact TypeEnv.typeOf_congr (hext x ((infer_eq_ok_iff.mp h).mem_of_mem_vars hx))

/-- A declaration that is in order stays so if its arguments are new in the larger environment. -/
theorem Decl.verify_of_extends {env env' : TypeEnv} {d : Decl} {b : Binding}
    (hext : env'.Extends env) (hfresh : ∀ x ∈ d.equation.args, x ∉ env')
    (h : d.verify env = .ok b) : d.verify env' = .ok b := by
  obtain ⟨hname, ⟨inner, expected, hargs, hbody⟩, hb⟩ := verify_eq_ok_iff_infer.mp h
  obtain ⟨inner', hargs', hinner⟩ := TypeEnv.exists_bindArgs_of_extends hext hfresh hargs
  have hbody' : d.equation.body.infer inner' = .ok expected := Exp.infer_of_extends hinner hbody
  exact verify_eq_ok_iff_infer.mpr ⟨hname, ⟨inner', expected, hargs', hbody'⟩, hb⟩

/-! ## One more name -/

namespace TypeEnv

/-- `env'` is `env` with a type for one more name, which is bound or a further global. -/
inductive Gains (env : TypeEnv) (name : String) (type : Ty) : TypeEnv → Prop where
  | bound {env'} : env.bind name type = .ok env' → Gains env name type env'
  | global {before after} : env.globals = before ++ after →
      Gains env name type { env with globals := before ++ (name, type) :: after }

namespace Gains

variable {env env' : TypeEnv} {name x : String} {type : Ty}

theorem lookup?_eq (h : env.Gains name type env') (hname : name ∉ env) :
    env'.lookup? = (env.push name type).lookup? := by
  cases h with
  | bound hbind => rw [(bind_eq_ok_iff_push.mp hbind).2]
  | @global before after hglobals =>
      obtain ⟨hlocals, hbefore⟩ := Option.or_eq_none_iff.mp (notMem_iff.mp hname)
      rw [hglobals, List.lookup_append, Option.or_eq_none_iff] at hbefore
      funext x
      by_cases hx : x = name
      · subst hx
        simp [lookup?, push, hlocals, List.lookup_append, hbefore.1]
      · simp [lookup?, push, hglobals, List.lookup_append, List.lookup_cons,
          beq_eq_false_iff_ne.mpr hx]

theorem mem_iff (h : env.Gains name type env') (hname : name ∉ env) :
    x ∈ env' ↔ x = name ∨ x ∈ env := by
  rw [← mem_push, TypeEnv.mem_iff, TypeEnv.mem_iff, h.lookup?_eq hname]

end Gains

theorem extends_of_gains {env env' : TypeEnv} {name : String} {type : Ty}
    (h : env.Gains name type env') (hname : name ∉ env) : env'.Extends env := by
  intro x hx
  have hne : x ≠ name := by
    rintro rfl
    exact hname hx
  rw [h.lookup?_eq hname, lookup?_push, Context.push, Function.update_of_ne hne]

end TypeEnv

namespace Decl

variable {env env' : TypeEnv} {d : Decl} {b : Binding} {name : String} {type : Ty}

/-- A name that is not an argument goes unnoticed. -/
theorem verify_of_gains (h : d.verify env = .ok b) (hname : name ∉ env)
    (hgains : env.Gains name type env') (hargs : name ∉ d.equation.args) :
    d.verify env' = .ok b := by
  obtain ⟨-, ⟨inner, expected, hbound, -⟩, -⟩ := verify_eq_ok_iff_infer.mp h
  obtain ⟨⟨-, -, hfresh⟩, -⟩ := TypeEnv.bindEach_eq_ok_iff_spine.mp hbound
  refine verify_of_extends (TypeEnv.extends_of_gains hgains hname) ?_ h
  intro x hx hmem
  rcases (hgains.mem_iff hname).mp hmem with rfl | hmem
  · exact hargs hx
  · exact hfresh x hx hmem

theorem verify_of_gains_arg (h : d.verify env = .ok b) (hname : name ∉ env)
    (hgains : env.Gains name type env') (hargs : name ∈ d.equation.args) :
    d.verify env' = .error (.duplicatedVariable name) := by
  obtain ⟨heq, ⟨inner, expected, hbound, -⟩, -⟩ := verify_eq_ok_iff_infer.mp h
  obtain ⟨⟨hroom, hnodup, hfresh⟩, -⟩ := TypeEnv.bindEach_eq_ok_iff_spine.mp hbound
  refine Verdict.verify_eq (.arguments heq ?_)
  refine TypeEnv.bindArgs_eq_duplicatedVariable hroom hnodup hargs fun y hy => ?_
  rw [hgains.mem_iff hname]
  exact or_iff_left (hfresh y hy)

end Decl

namespace Program

/-- The signature of a further declaration is a further global, wherever it stands. -/
theorem globalEnv_gains (before after : List Decl) (d : Decl) :
    (globalEnv ⟨before ++ after⟩).Gains d.signature.name (.ofExpr d.signature.type)
      (globalEnv ⟨before ++ d :: after⟩) := by
  let entries (decls : List Decl) : List (String × Ty) :=
    (decls.map (·.signature)).map Signature.entry
  have hglobals : entries (before ++ after) = entries before ++ entries after := by
    simp only [entries, List.map_append]
  have hgained : entries (before ++ d :: after) =
      entries before ++ (d.signature.name, .ofExpr d.signature.type) :: entries after := by
    simp only [entries, List.map_append, List.map_cons, Signature.entry]
  show (TypeEnv.ofGlobals (entries (before ++ after))).Gains _ _
    (.ofGlobals (entries (before ++ d :: after)))
  rw [hgained]
  exact .global hglobals

theorem notMem_globalEnv_of_nodup {before after : List Decl} {d : Decl}
    (hnodup : (names ⟨before ++ d :: after⟩).Nodup) :
    d.signature.name ∉ globalEnv ⟨before ++ after⟩ := by
  rw [names_eq_map, List.map_append, List.map_cons, List.nodup_middle, List.nodup_cons] at hnodup
  rw [notMem_globalEnv, names_eq_map, List.map_append]
  exact hnodup.1

end Program

/-- **The checker looks at an environment only through the variables it needs.**  Environments that
agree on the variables of an expression yield the same type or error for it.  So a declaration that
is in order does not notice a name that is added to its environment, unless one of its arguments has
this name, which is then reported; and no more than this can come of a further declaration in a
program. -/
theorem checking_needs_variables_only :
    (∀ (e : Exp) (env env' : TypeEnv), (∀ x ∈ e.vars, env.typeOf x = env'.typeOf x) →
      e.infer env = e.infer env') ∧
    (∀ (env env' : TypeEnv) (d : Decl) (b : Binding) (name : String) (type : Ty),
      d.verify env = .ok b → name ∉ env → env.Gains name type env' →
        (name ∉ d.equation.args → d.verify env' = .ok b) ∧
        (name ∈ d.equation.args → d.verify env' = .error (.duplicatedVariable name))) ∧
    ∀ (before after : List Decl) (new : Decl) (env env' : TypeEnv),
      (Program.signatureEnv ⟨before ++ after⟩).value = .ok env →
      (Program.signatureEnv ⟨before ++ new :: after⟩).value = .ok env' →
        ∀ (d : Decl) (b : Binding), d.verify env = .ok b → ∀ e, d.verify env' = .error e →
          new.signature.name ∈ d.equation.args ∧ e = .duplicatedVariable new.signature.name := by
  refine ⟨fun e env env' h => Exp.infer_congr h, ?_, ?_⟩
  · intro env env' d b name type h hname hgains
    exact ⟨Decl.verify_of_gains h hname hgains, Decl.verify_of_gains_arg h hname hgains⟩
  · intro before after new env env' henv henv' d b h e herror
    obtain ⟨-, rfl⟩ := Program.value_signatureEnv_eq_ok_iff.mp henv
    obtain ⟨hnodup, rfl⟩ := Program.value_signatureEnv_eq_ok_iff.mp henv'
    -- a further signature adds one name, which the environment did not have
    have hgains := Program.globalEnv_gains before after new
    have hname := Program.notMem_globalEnv_of_nodup hnodup
    by_cases hargs : new.signature.name ∈ d.equation.args
    · rw [Decl.verify_of_gains_arg h hname hgains hargs] at herror
      exact ⟨hargs, (Except.error.inj herror).symm⟩
    · rw [Decl.verify_of_gains h hname hgains hargs] at herror
      contradiction

/-- With a declaration of `x` in front of it `f` is refused for its argument, and `g` is not. -/
theorem checking_needs_variables_only_clash :
    let f : Decl := ⟨⟨"f", .function .integer .bool⟩,
      ⟨"f", ["x"], .infixOp "==" (.var "x") (.num "0")⟩⟩
    let g : Decl := ⟨⟨"g", .bool⟩, ⟨"g", [], .app (.var "f") (.num "1")⟩⟩
    let x : Decl := ⟨⟨"x", .bool⟩, ⟨"x", [], .bool "True"⟩⟩
    let env := Program.globalEnv ⟨[f, g]⟩
    let env' := Program.globalEnv ⟨[x, f, g]⟩
    g.equation.body.infer env = g.equation.body.infer env' ∧
      f.verify env = .ok f.binding ∧ f.verify env' = .error (.duplicatedVariable "x") ∧
      g.verify env = .ok g.binding ∧ g.verify env' = .ok g.binding := by
  intro f g x env env'
  have hgains : env.Gains "x" .bool env' := Program.globalEnv_gains [] [f, g] x
  have hnew : "x" ∉ env := by decide
  have hf : f.verify env = .ok f.binding := by decide
  have hg : g.verify env = .ok g.binding := by decide
  have hclash := checking_needs_variables_only.2.1 env env' f f.binding "x" .bool hf hnew hgains
  have hclear := checking_needs_variables_only.2.1 env env' g g.binding "x" .bool hg hnew hgains
  refine ⟨checking_needs_variables_only.1 _ env env' ?_, hf, hclash.2 ?_, hg, hclear.1 ?_⟩
  all_goals decide

end Frontend
