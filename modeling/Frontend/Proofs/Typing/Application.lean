import Frontend.Proofs.Typing.Weakening
import Mathlib.Data.List.Forall2

/-!
# Functions applied to several arguments

An application to several arguments is a tree that has the function at the bottom, and every
argument takes one argument type off what is left of the type of the function.  So inference goes
along the spine of this type from the inside of the tree (`Exp.infer_apply_eq_ok_iff`), as the
binding of arguments goes along the spine of a signature from its front.

The two meet in an equation that only hands its arguments on, `f x y = g x y`.  What `bindArgs`
leaves of the type of `g` once `x` and `y` are bound is the type of `g x y`
(`Exp.infer_apply_of_bindArgs`), since the arguments hide nothing, `g` in particular.  Nothing is
required of `f`, which may even be `g`, or one of the arguments.
-/

namespace Frontend

/-- Every type can be written down in a signature. -/
theorem Ty.ofExpr_surjective : Function.Surjective Ty.ofExpr := by
  intro type
  induction type with
  | integer => exact ⟨.integer, rfl⟩
  | bool => exact ⟨.bool, rfl⟩
  | function arg result iharg ihresult =>
      obtain ⟨arg, rfl⟩ := iharg
      obtain ⟨result, rfl⟩ := ihresult
      exact ⟨.function arg result, rfl⟩

/-! ## Along the spine of the function -/

namespace Exp

variable {env inner : TypeEnv} {f a : Exp} {args : List Exp} {result type rest : Ty}

theorem infer_app_eq_ok_iff :
    (app f a).infer env = .ok result ↔
      ∃ arg, f.infer env = .ok (.function arg result) ∧ a.infer env = .ok arg := by
  simp only [infer, ok_bind_iff, ok_mapError_iff, TypeRule.application_eq_ok_iff]
  constructor
  · rintro ⟨_, hf, arg, ha, rfl⟩
    exact ⟨arg, hf, ha⟩
  · rintro ⟨arg, hf, ha⟩
    exact ⟨_, hf, arg, ha, rfl⟩

/-- **An application has what its arguments leave of the type of the function.** -/
theorem infer_apply_eq_ok_iff :
    (f.apply args).infer env = .ok result ↔ ∃ types, f.infer env = .ok (Ty.arrows types result) ∧
      List.Forall₂ (fun a type => a.infer env = .ok type) args types := by
  -- the function and its first argument are the function for the other arguments
  induction args generalizing f with
  | nil => simp only [apply_nil, List.forall₂_nil_left_iff, exists_eq_right, Ty.arrows_nil]
  | cons a args ih =>
      rw [apply_cons, ih]
      constructor
      · rintro ⟨types, happ, hargs⟩
        obtain ⟨arg, hf, ha⟩ := infer_app_eq_ok_iff.mp happ
        exact ⟨arg :: types, hf, .cons ha hargs⟩
      · rintro ⟨_, hf, hargs⟩
        obtain ⟨arg, types, ha, hrest, rfl⟩ := List.forall₂_cons_left_iff.mp hargs
        exact ⟨types, infer_app_eq_ok_iff.mpr ⟨arg, hf, ha⟩, hrest⟩

/-! ## Applied to what was bound -/

/-- The names that were bound have the types that binding took off. -/
theorem forall₂_infer_of_bindArgs {names : List String}
    (h : env.bindArgs names type = .ok (inner, rest)) :
    List.Forall₂ (fun a type => a.infer inner = .ok type) (names.map var)
      (type.spine.take names.length) := by
  obtain ⟨⟨hroom, -, -⟩, -⟩ := TypeEnv.bindEach_eq_ok_iff_spine.mp h
  rw [List.forall₂_map_left_iff, List.forall₂_iff_get]
  refine ⟨(List.length_take_of_le hroom).symm, ?_⟩
  intro i hi hi'
  obtain ⟨arg, harg, hlookup⟩ :=
    TypeEnv.lookup?_arg_of_bindArgs h (List.getElem?_eq_getElem hi)
  rw [← List.getElem?_take_of_lt hi, List.getElem?_eq_getElem hi', Option.some.injEq] at harg
  rw [List.get_eq_getElem, List.get_eq_getElem, harg]
  exact TypeEnv.typeOf_eq_ok_iff.mpr hlookup

/-- **What binding leaves of a type is the type of the application to what was bound.** -/
theorem infer_apply_of_bindArgs {names : List String}
    (h : env.bindArgs names type = .ok (inner, rest)) (hf : f.infer inner = .ok type) :
    (f.apply (names.map var)).infer inner = .ok rest := by
  have htype : Ty.arrows (type.spine.take names.length) rest = type :=
    (TypeEnv.bindEach_eq_ok_iff_spine.mp h).2.1
  refine infer_apply_eq_ok_iff.mpr ⟨_, ?_, forall₂_infer_of_bindArgs h⟩
  rwa [htype]

end Exp

/-! ## Equations that hand their arguments on -/

namespace Decl

/-- The declaration `name :: type ; name args = g args`. -/
def handingOn (name : String) (type : TypeExpr) (args : List String) (g : String) : Decl :=
  ⟨⟨name, type⟩, ⟨name, args, (Exp.var g).apply (args.map .var)⟩⟩

variable {env : TypeEnv} {name g : String} {type : TypeExpr} {args : List String}

theorem verify_handingOn_iff (hg : env.typeOf g = .ok (.ofExpr type)) :
    (handingOn name type args g).verify env =
        .ok ⟨name, .closure args ((Exp.var g).apply (args.map .var))⟩ ↔
      args.length ≤ (Ty.ofExpr type).spine.length ∧ args.Nodup ∧ ∀ x ∈ args, x ∉ env := by
  rw [verify_eq_ok_iff_infer]
  constructor
  · rintro ⟨-, ⟨inner, expected, hbound, -⟩, -⟩
    exact TypeEnv.exists_bindEach_iff.mp ⟨_, hbound⟩
  · intro h
    obtain ⟨⟨inner, expected⟩, hbound⟩ := TypeEnv.exists_bindEach_iff.mpr h
    have hg' : (Exp.var g).infer inner = .ok (.ofExpr type) :=
      Exp.infer_of_extends (TypeEnv.extends_of_bindArgs hbound) hg
    exact ⟨rfl, ⟨inner, expected, hbound, Exp.infer_apply_of_bindArgs hbound hg'⟩, rfl⟩

end Decl

/-- **Applying and binding go along the same spine.**  An application to several arguments has a
type exactly if the function takes arguments of their types, and then it has what these leave of the
type of the function.  So an equation that only hands its arguments on, to something that has the
type of its signature, is in order exactly if its arguments can be bound: there are no more of them
than the type has argument types, they are different from one another, and none has a type already.
This goes for every type, as each can be written down in a signature. -/
theorem applying_mirrors_binding (env : TypeEnv) :
    (∀ (f : Exp) (args : List Exp) (result : Ty),
      (f.apply args).infer env = .ok result ↔
        ∃ types, f.infer env = .ok (Ty.arrows types result) ∧
          List.Forall₂ (fun a type => a.infer env = .ok type) args types) ∧
    (∀ ty : Ty, ∃ type, Ty.ofExpr type = ty) ∧
    ∀ (name g : String) (type : TypeExpr) (args : List String),
      env.typeOf g = .ok (.ofExpr type) →
        ((Decl.handingOn name type args g).verify env =
            .ok ⟨name, .closure args ((Exp.var g).apply (args.map .var))⟩ ↔
          args.length ≤ (Ty.ofExpr type).spine.length ∧ args.Nodup ∧ ∀ x ∈ args, x ∉ env) :=
  ⟨fun _ _ _ => Exp.infer_apply_eq_ok_iff, Ty.ofExpr_surjective,
    fun _ _ _ _ hg => Decl.verify_handingOn_iff hg⟩

/-- `g` takes a function as its second argument.  It is given a number, and handed one or both of
the arguments of an equation; three are too many, and none may be called `g`. -/
theorem applying_mirrors_binding_higher_order :
    let type : TypeExpr := .function .integer (.function (.function .integer .bool) .bool)
    let env : TypeEnv := .ofGlobals [("g", .ofExpr type)]
    ((Exp.var "g").apply [.num "1"]).infer env =
        .ok (.function (.function .integer .bool) .bool) ∧
      env.typeOf "g" = .ok (.ofExpr type) ∧
      (Decl.handingOn "f" type ["x"] "g").verify env =
        .ok ⟨"f", .lambda "x" (.app (.var "g") (.var "x"))⟩ ∧
      (Decl.handingOn "x" type ["x", "y"] "g").verify env =
        .ok ⟨"x", .lambda "x" (.lambda "y" (.app (.app (.var "g") (.var "x")) (.var "y")))⟩ ∧
      (Decl.handingOn "f" type ["x", "y", "z"] "g").verify env ≠ .ok ⟨"f", .lambda "x" (.lambda "y"
        (.lambda "z" (.app (.app (.app (.var "g") (.var "x")) (.var "y")) (.var "z"))))⟩ ∧
      (Decl.handingOn "f" type ["g"] "g").verify env ≠
        .ok ⟨"f", .lambda "g" (.app (.var "g") (.var "g"))⟩ := by
  intro type env
  have hg : env.typeOf "g" = .ok (.ofExpr type) := by decide
  have happ := applying_mirrors_binding env
  refine ⟨(happ.1 (.var "g") [.num "1"] _).mpr ⟨[.integer], hg, .cons (by decide) .nil⟩, hg, ?_, ?_,
    ?_, ?_⟩
  · exact (happ.2.2 "f" "g" type ["x"] hg).mpr (by decide)
  · exact (happ.2.2 "x" "g" type ["x", "y"] hg).mpr (by decide)
  · exact mt (happ.2.2 "f" "g" type ["x", "y", "z"] hg).mp (by decide)
  · exact mt (happ.2.2 "f" "g" type ["g"] hg).mp (by decide)

end Frontend
