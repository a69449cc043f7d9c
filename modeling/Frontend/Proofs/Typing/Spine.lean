import Frontend.Proofs.Typing.FirstError

/-!
# Binding arguments along a type

Every type has the form `A₁ → … → Aₘ → R` with a result `R` that is no function.  `Ty.spine` lists
the argument types, and the arguments of an equation take their types from the front of this list.

Two things can go wrong with an argument: there is no argument type left for it, or its name has a
type already, be it from the environment or from an argument before it.  The first is looked for
first, so an argument that is at fault in both ways counts as one too many.  `ArgumentFault` says
this of one argument, and what is reported is the fault of the first one that has any
(`bindEach_eq_error_iff`).  Whatever argument that is, the message counts all of them and shows the
whole type.
-/

namespace Frontend

/-! ## The spine of a type -/

namespace Ty

/-- The argument types `A₁` to `Aₘ` of a type `A₁ → … → Aₘ → R`. -/
def spine : Ty → List Ty
  | function arg result => arg :: result.spine
  | _ => []

/-- The result `R` of a type `A₁ → … → Aₘ → R`. -/
def target : Ty → Ty
  | function _ result => result.target
  | type => type

theorem isFunction_target (type : Ty) : type.target.isFunction = false := by
  induction type with
  | integer | bool => rfl
  | function _ _ _ ih => exact ih

theorem arrows_spine_target (type : Ty) : arrows type.spine type.target = type := by
  induction type with
  | integer | bool => rfl
  | function arg result _ ih => rw [spine, arrows_cons, target, ih]

theorem spine_arrows (types : List Ty) (rest : Ty) :
    (arrows types rest).spine = types ++ rest.spine := by
  induction types with
  | nil => rfl
  | cons arg types ih => rw [arrows_cons, spine, ih, List.cons_append]

theorem spine_of_isFunction_eq_false {type : Ty} (h : type.isFunction = false) :
    type.spine = [] := by
  cases type with
  | integer | bool => rfl
  | function => contradiction

/-- A type is taken apart behind any of its argument types. -/
theorem arrows_take_drop (type : Ty) (n : Nat) :
    arrows (type.spine.take n) (arrows (type.spine.drop n) type.target) = type := by
  rw [← arrows_append, List.take_append_drop, arrows_spine_target]

end Ty

/-! ## When binding succeeds -/

namespace TypeEnv

variable {env env' : TypeEnv} {args more : List String} {type rest : Ty} {tooMany : TypeError}

theorem zip_take_length {types : List Ty} (h : args.length ≤ types.length) :
    args.zip (types.take args.length) = args.zip types := by
  have hzip : args.zip types = _ := List.zip_eq_zip_take_min
  rw [Nat.min_eq_left h, List.take_length] at hzip
  exact hzip.symm

/-- The arguments get the first argument types of the type, in order. -/
theorem bindEach_eq_ok_iff_spine :
    bindEach tooMany env args type = .ok (env', rest) ↔
      (args.length ≤ type.spine.length ∧ args.Nodup ∧ ∀ x ∈ args, x ∉ env) ∧
        Ty.arrows (type.spine.take args.length) rest = type ∧
          env' = env.extend (args.zip type.spine) := by
  rw [bindEach_eq_ok_iff]
  constructor
  · rintro ⟨hnodup, hfresh, types, hlength, rfl, rfl⟩
    have hroom : args.length ≤ (Ty.arrows types rest).spine.length := by
      rw [Ty.spine_arrows, List.length_append, hlength]
      exact Nat.le_add_right _ _
    have htake : (Ty.arrows types rest).spine.take args.length = types := by
      rw [Ty.spine_arrows, List.take_left' hlength]
    refine ⟨⟨hroom, hnodup, hfresh⟩, ?_, ?_⟩
    · rw [htake]
    · rw [← zip_take_length hroom, htake]
  · rintro ⟨⟨hroom, hnodup, hfresh⟩, htype, rfl⟩
    refine ⟨hnodup, hfresh, type.spine.take args.length, ?_, htype.symm, ?_⟩
    · exact List.length_take_of_le hroom
    · rw [zip_take_length hroom]

theorem exists_bindEach_iff :
    (∃ bound, bindEach tooMany env args type = .ok bound) ↔
      args.length ≤ type.spine.length ∧ args.Nodup ∧ ∀ x ∈ args, x ∉ env := by
  constructor
  · rintro ⟨⟨inner, rest⟩, h⟩
    exact (bindEach_eq_ok_iff_spine.mp h).1
  · intro h
    have htype := type.arrows_take_drop args.length
    exact ⟨_, bindEach_eq_ok_iff_spine.mpr ⟨h, htype, rfl⟩⟩

/-- The message about too many arguments has no influence on success. -/
theorem bindEach_eq_ok_iff_bindArgs {bound : TypeEnv × Ty} :
    bindEach tooMany env args type = .ok bound ↔ env.bindArgs args type = .ok bound := by
  obtain ⟨inner, rest⟩ := bound
  rw [bindArgs, bindEach_eq_ok_iff, bindEach_eq_ok_iff]

theorem lookup?_arg_of_bindArgs {i : Nat} {x : String}
    (h : env.bindArgs args type = .ok (env', rest)) (hx : args[i]? = some x) :
    ∃ arg, type.spine[i]? = some arg ∧ env'.lookup? x = some arg := by
  obtain ⟨⟨hroom, hnodup, -⟩, -, rfl⟩ := bindEach_eq_ok_iff_spine.mp h
  obtain ⟨hi, -⟩ := List.getElem?_eq_some_iff.mp hx
  have harg : type.spine[i]? = some type.spine[i] :=
    List.getElem?_eq_getElem (Nat.lt_of_lt_of_le hi hroom)
  have hbound : (args.zip type.spine)[i]? = some (x, type.spine[i]) :=
    List.getElem?_zip_eq_some.mpr ⟨hx, harg⟩
  refine ⟨_, harg, ?_⟩
  rw [lookup?_extend]
  apply Context.extend_of_mem
  · rwa [List.map_fst_zip hroom]
  · exact List.mem_of_getElem? hbound

theorem lookup?_of_bindArgs {x : String} (h : env.bindArgs args type = .ok (env', rest))
    (hx : x ∉ args) : env'.lookup? x = env.lookup? x := by
  obtain ⟨⟨hroom, -, -⟩, -, rfl⟩ := bindEach_eq_ok_iff_spine.mp h
  rw [lookup?_extend]
  apply Context.extend_of_notMem
  rwa [List.map_fst_zip hroom]

/-- Binding goes on where it stopped. -/
theorem bindEach_append :
    bindEach tooMany env (args ++ more) type =
      bindEach tooMany env args type >>= fun bound => bindEach tooMany bound.1 more bound.2 := by
  induction args generalizing env type with
  | nil => rfl
  | cons x args ih =>
      cases type with
      | integer | bool => rfl
      | function arg result =>
          rw [List.cons_append, bindEach, bindEach, bind_assoc]
          simp only [ih]

theorem bindArgs_append_eq_ok_iff {bound : TypeEnv × Ty} :
    env.bindArgs (args ++ more) type = .ok bound ↔
      ∃ inner rest, env.bindArgs args type = .ok (inner, rest) ∧
        inner.bindArgs more rest = .ok bound := by
  rw [bindArgs, bindEach_append, ok_bind_iff]
  simp only [bindEach_eq_ok_iff_bindArgs, Prod.exists]

/-! ## What is wrong with an argument -/

/-- What is wrong with an argument that stands behind others. -/
inductive ArgumentFault (tooMany : TypeError) (env : TypeEnv) (type : Ty) (earlier : List String)
    (name : String) : CheckError → Prop where
  | tooMany : type.spine.length ≤ earlier.length →
      ArgumentFault tooMany env type earlier name (.typeError tooMany)
  | duplicated : earlier.length < type.spine.length → name ∈ earlier ∨ name ∈ env →
      ArgumentFault tooMany env type earlier name (.duplicatedVariable name)

namespace ArgumentFault

variable {earlier : List String} {x name : String} {arg result : Ty} {e : CheckError}

theorem iff_of_spine_eq_nil (h : type.spine = []) :
    ArgumentFault tooMany env type [] name e ↔ e = .typeError tooMany := by
  constructor
  · intro hfault
    cases hfault with
    | tooMany => rfl
    | duplicated hroom => simp [h] at hroom
  · rintro rfl
    exact .tooMany (by simp [h])

/-- As long as the type has an argument type, the first argument is at fault only by its name. -/
theorem first_iff :
    ArgumentFault tooMany env (.function arg result) [] name e ↔
      name ∈ env ∧ e = .duplicatedVariable name := by
  constructor
  · intro hfault
    cases hfault with
    | tooMany hroom => simp [Ty.spine] at hroom
    | duplicated _ hname => exact ⟨hname.resolve_left List.not_mem_nil, rfl⟩
  · rintro ⟨hname, rfl⟩
    exact .duplicated (Nat.succ_pos _) (.inr hname)

/-- The arguments behind a bound one meet it in the environment. -/
theorem push_iff :
    ArgumentFault tooMany (env.push x arg) result earlier name e ↔
      ArgumentFault tooMany env (.function arg result) (x :: earlier) name e := by
  have hname : name ∈ earlier ∨ name ∈ env.push x arg ↔ name ∈ x :: earlier ∨ name ∈ env := by
    rw [mem_push, List.mem_cons, or_left_comm, or_assoc]
  constructor
  · intro hfault
    cases hfault with
    | tooMany hroom => exact .tooMany (Nat.succ_le_succ hroom)
    | duplicated hroom h => exact .duplicated (Nat.succ_lt_succ hroom) (hname.mp h)
  · intro hfault
    cases hfault with
    | tooMany hroom => exact .tooMany (Nat.le_of_succ_le_succ hroom)
    | duplicated hroom h => exact .duplicated (Nat.lt_of_succ_lt_succ hroom) (hname.mpr h)

end ArgumentFault

/-- **What is reported is the fault of the first argument that has one.** -/
theorem bindEach_eq_error_iff {e : CheckError} :
    bindEach tooMany env args type = .error e ↔
      FirstFault (ArgumentFault tooMany env type) args e := by
  induction args generalizing env type with
  | nil => exact iff_of_false nofun FirstFault.not_nil
  | cons x args ih =>
      by_cases hfun : type.isFunction = true
      · obtain ⟨arg, result, rfl⟩ := Ty.isFunction_iff.mp hfun
        by_cases hx : x ∈ env
        · have hfault : ∀ e', ArgumentFault tooMany env (.function arg result) [] x e' ↔
              e' = .duplicatedVariable x :=
            fun e' => ArgumentFault.first_iff.trans (and_iff_right hx)
          rw [FirstFault.cons_iff_of_faulty hfault, bindEach_cons_of_mem hx, Except.error.injEq,
            eq_comm]
        · have hfault : ∀ e', ¬ ArgumentFault tooMany env (.function arg result) [] x e' :=
            fun e' h => hx (ArgumentFault.first_iff.mp h).1
          rw [FirstFault.cons_iff_of_not_faulty hfault, bindEach_cons_of_notMem hx, ih]
          exact FirstFault.congr fun _ _ _ _ _ => ArgumentFault.push_iff
      · rw [Bool.not_eq_true] at hfun
        have hspine : type.spine = [] := Ty.spine_of_isFunction_eq_false hfun
        rw [FirstFault.cons_iff_of_faulty fun e' => ArgumentFault.iff_of_spine_eq_nil hspine,
          bindEach_cons_of_isFunction_eq_false hfun, Except.error.injEq, eq_comm]

end TypeEnv

/-- **Arguments are bound along the spine of a type.**  This succeeds if the type has an argument
type for each of them, they are different from one another and none has a type already.  Then each
argument has its argument type, every other name has what it had, and what is left of the type is
what the arguments are not taken from.  If it fails, the first argument at fault is reported, with
the number of all arguments and the whole type if there is no argument type left for it.  Binding
may stop behind any argument and go on later. -/
theorem bindArgs_along_spine (env : TypeEnv) (args : List String) (type : Ty) :
    (Ty.arrows type.spine type.target = type ∧ type.target.isFunction = false) ∧
    ((∃ bound, env.bindArgs args type = .ok bound) ↔
      args.length ≤ type.spine.length ∧ args.Nodup ∧ ∀ x ∈ args, x ∉ env) ∧
    (∀ inner rest, env.bindArgs args type = .ok (inner, rest) →
      (∀ (i : Nat) x, args[i]? = some x →
        ∃ arg, type.spine[i]? = some arg ∧ inner.typeOf x = .ok arg) ∧
      (∀ x, x ∉ args → inner.typeOf x = env.typeOf x) ∧
      Ty.arrows (type.spine.take args.length) rest = type) ∧
    (∀ e, env.bindArgs args type = .error e ↔ FirstFault
      (TypeEnv.ArgumentFault (.tooManyArguments args.length type) env type) args e) ∧
    ∀ more bound, env.bindArgs (args ++ more) type = .ok bound ↔
      ∃ inner rest, env.bindArgs args type = .ok (inner, rest) ∧
        inner.bindArgs more rest = .ok bound := by
  refine ⟨⟨type.arrows_spine_target, type.isFunction_target⟩, TypeEnv.exists_bindEach_iff, ?_,
    fun e => TypeEnv.bindEach_eq_error_iff, fun more bound => TypeEnv.bindArgs_append_eq_ok_iff⟩
  intro inner rest h
  refine ⟨?_, ?_, (TypeEnv.bindEach_eq_ok_iff_spine.mp h).2.1⟩
  · intro i x hx
    obtain ⟨arg, harg, hlookup⟩ := TypeEnv.lookup?_arg_of_bindArgs h hx
    exact ⟨arg, harg, TypeEnv.typeOf_eq_ok_iff.mpr hlookup⟩
  · intro x hx
    exact TypeEnv.typeOf_congr (TypeEnv.lookup?_of_bindArgs h hx)

/-- An argument that is repeated and one too many counts as one too many. -/
example : TypeEnv.empty.bindArgs ["x", "x"] (.function .integer .bool) =
    .error (.typeError (.tooManyArguments 2 (.function .integer .bool))) := rfl

end Frontend
