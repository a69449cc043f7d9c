import Frontend.Typing.Env
import Mathlib.Logic.Function.Basic

/-!
# Binding the arguments of an equation

An environment is two lists; what can be asked of it is only which type a name has.  A `Context` is
this answer, a partial function from names to types, and `TypeEnv.lookup?` is the context of an
environment.  Binding a name updates the context at that name (`lookup?_push`).

`bindEach` peels the argument types off a type while it binds the arguments.
`bindEach_eq_ok_iff` says in one go when it succeeds and with what: the arguments have to be new and
different from one another, the type has to be `A₁ → … → Aₙ → R` for `n` arguments, and these then
have the types `A₁` to `Aₙ`.
-/

namespace Frontend

/-- The types that names have; a name may have none. -/
abbrev Context := String → Option Ty

namespace Context

def push (Γ : Context) (name : String) (type : Ty) : Context := Function.update Γ name (some type)

/-- Gives types to several names, one after the other. -/
def extend (Γ : Context) (bound : List (String × Ty)) : Context :=
  bound.foldl (fun Γ b => Γ.push b.1 b.2) Γ

variable {Γ : Context} {bound : List (String × Ty)} {name : String} {type : Ty}

theorem extend_of_notMem (h : name ∉ bound.map Prod.fst) : Γ.extend bound name = Γ name := by
  induction bound generalizing Γ with
  | nil => rfl
  | cons b bound ih =>
      rw [List.map_cons, List.mem_cons, not_or] at h
      calc Γ.extend (b :: bound) name
          = (Γ.push b.1 b.2).extend bound name := rfl
        _ = Γ.push b.1 b.2 name := ih h.2
        _ = Γ name := Function.update_of_ne h.1 _ _

theorem extend_of_mem (hnodup : (bound.map Prod.fst).Nodup) (h : (name, type) ∈ bound) :
    Γ.extend bound name = some type := by
  induction bound generalizing Γ with
  | nil => simp at h
  | cons b bound ih =>
      rw [List.map_cons, List.nodup_cons] at hnodup
      rcases List.mem_cons.mp h with rfl | h
      · -- no name after this one hides it
        calc Γ.extend ((name, type) :: bound) name
            = (Γ.push name type).extend bound name := rfl
          _ = Γ.push name type name := extend_of_notMem hnodup.1
          _ = some type := Function.update_self _ _ _
      · exact ih hnodup.2 h

end Context

namespace TypeEnv

variable {env env' : TypeEnv} {name other : String} {type rest : Ty}

/-- The environment with one more local name, which may hide another. -/
def push (env : TypeEnv) (name : String) (type : Ty) : TypeEnv :=
  { env with locals := (name, type) :: env.locals }

def extend (env : TypeEnv) (bound : List (String × Ty)) : TypeEnv :=
  bound.foldl (fun env b => env.push b.1 b.2) env

/-- The type of a name is all that can be asked of it. -/
theorem typeOf_congr (h : env.lookup? name = env'.lookup? name) :
    env.typeOf name = env'.typeOf name := by
  unfold typeOf
  rw [h]

@[simp] theorem extend_nil (env : TypeEnv) : env.extend [] = env := rfl

theorem lookup?_push (env : TypeEnv) (name : String) (type : Ty) :
    (env.push name type).lookup? = Context.push env.lookup? name type := by
  funext other
  by_cases h : other = name
  · subst h
    simp [push, lookup?, Context.push]
  · simp [push, lookup?, Context.push, List.lookup_cons, h, beq_eq_false_iff_ne.mpr h]

theorem lookup?_extend (env : TypeEnv) (bound : List (String × Ty)) :
    (env.extend bound).lookup? = Context.extend env.lookup? bound := by
  induction bound generalizing env with
  | nil => rfl
  | cons b bound ih =>
      calc (env.extend (b :: bound)).lookup?
          = Context.extend (env.push b.1 b.2).lookup? bound := ih (env.push b.1 b.2)
        _ = Context.extend (Context.push env.lookup? b.1 b.2) bound := by rw [lookup?_push]

theorem notMem_push : other ∉ env.push name type ↔ other ≠ name ∧ other ∉ env := by
  rw [notMem_iff, notMem_iff, lookup?_push, Context.push]
  by_cases h : other = name
  · subst h
    simp
  · simp [h]

theorem mem_push : other ∈ env.push name type ↔ other = name ∨ other ∈ env := by
  rw [← not_iff_not, notMem_push, not_or]

theorem bind_eq_ok_iff_push :
    env.bind name type = .ok env' ↔ name ∉ env ∧ env' = env.push name type :=
  bind_eq_ok_iff

theorem bindEach_cons_function {tooMany : TypeError} {names : List String} {arg result : Ty} :
    bindEach tooMany env (name :: names) (.function arg result) = .ok (env', rest) ↔
      name ∉ env ∧ bindEach tooMany (env.push name arg) names result = .ok (env', rest) := by
  rw [bindEach, ok_bind_iff]
  refine ⟨?_, ?_⟩
  · intro h
    obtain ⟨bound, hbind, hrest⟩ := h
    obtain ⟨hname, rfl⟩ := bind_eq_ok_iff_push.mp hbind
    exact ⟨hname, hrest⟩
  · intro h
    have hbind : env.bind name arg = .ok (env.push name arg) :=
      bind_eq_ok_iff_push.mpr ⟨h.1, rfl⟩
    exact ⟨_, hbind, h.2⟩

theorem bindEach_cons_of_mem {tooMany : TypeError} {names : List String} {arg result : Ty}
    (h : name ∈ env) :
    bindEach tooMany env (name :: names) (.function arg result) =
      .error (.duplicatedVariable name) := by
  rw [bindEach, bind_eq_error_iff.mpr ⟨h, rfl⟩]
  rfl

theorem bindEach_cons_of_notMem {tooMany : TypeError} {names : List String} {arg result : Ty}
    (h : name ∉ env) :
    bindEach tooMany env (name :: names) (.function arg result) =
      bindEach tooMany (env.push name arg) names result := by
  rw [bindEach, bind_eq_ok_iff_push.mpr ⟨h, rfl⟩]
  rfl

/-- A type without an argument type left binds no further name. -/
theorem bindEach_cons_of_isFunction_eq_false {tooMany : TypeError} {names : List String}
    (h : type.isFunction = false) :
    bindEach tooMany env (name :: names) type = .error (.typeError tooMany) := by
  cases type with
  | integer | bool => rfl
  | function => simp [Ty.isFunction] at h

/-- **Binding succeeds for new, distinct arguments that the type has room for.** -/
theorem bindEach_eq_ok_iff {tooMany : TypeError} {args : List String} :
    bindEach tooMany env args type = .ok (env', rest) ↔
      args.Nodup ∧ (∀ x ∈ args, x ∉ env) ∧ ∃ types, types.length = args.length ∧
        type = Ty.arrows types rest ∧ env' = env.extend (args.zip types) := by
  induction args generalizing env type with
  | nil =>
      simp only [bindEach, Except.ok.injEq, Prod.mk.injEq, List.nodup_nil, List.not_mem_nil,
        List.length_nil, List.length_eq_zero_iff, List.zip_nil_left, extend_nil]
      refine ⟨?_, ?_⟩
      · intro h
        exact ⟨trivial, nofun, [], rfl, h.2, h.1.symm⟩
      · intro h
        obtain ⟨-, -, _, rfl, rfl, rfl⟩ := h
        exact ⟨rfl, rfl⟩
  | cons x args ih =>
      by_cases hfun : type.isFunction = true
      · obtain ⟨arg, result, rfl⟩ := Ty.isFunction_iff.mp hfun
        rw [bindEach_cons_function, ih, List.nodup_cons]
        simp only [notMem_push, List.forall_mem_cons]
        refine ⟨?_, ?_⟩
        · intro h
          obtain ⟨hx, hnodup, hfresh, types, hlength, rfl, rfl⟩ := h
          -- a second `x` among the arguments would meet the one just bound
          have hmem : x ∉ args := fun hmem => (hfresh x hmem).1 rfl
          have hargs : ∀ y ∈ args, y ∉ env := fun y hy => (hfresh y hy).2
          refine ⟨⟨hmem, hnodup⟩, ⟨hx, hargs⟩, arg :: types, ?_, rfl, rfl⟩
          rw [List.length_cons, hlength, List.length_cons]
        · intro h
          obtain ⟨⟨hmem, hnodup⟩, ⟨hx, hfresh⟩, types, hlength, htype, rfl⟩ := h
          cases types with
          | nil => simp at hlength
          | cons arg' types =>
              obtain ⟨rfl, rfl⟩ := Ty.function.inj htype
              have hpush : ∀ y ∈ args, y ≠ x ∧ y ∉ env := by
                intro y hy
                refine ⟨?_, hfresh y hy⟩
                rintro rfl
                exact hmem hy
              exact ⟨hx, hnodup, hpush, types, Nat.succ.inj hlength, rfl, rfl⟩
      · rw [Bool.not_eq_true] at hfun
        rw [bindEach_cons_of_isFunction_eq_false hfun]
        refine iff_of_false nofun ?_
        intro h
        obtain ⟨-, -, types, hlength, rfl, -⟩ := h
        cases types with
        | nil => simp at hlength
        | cons => simp [Ty.isFunction] at hfun

end TypeEnv
end Frontend
