import Frontend.Proofs.Typing.Spine
import Frontend.Proofs.Typing.Substitution
import Mathlib.Data.List.Perm.Basic

/-!
# Nothing is shadowed

No name can be bound that has a type already.  So in an environment that came about by binding names
and arguments, one after the other and from whatever environments there were, no name occurs twice:
the local names are different from one another and from the global ones (`Reachable.unshadowed`).
Which of the two lists is searched first makes no difference then.

The locals are kept in the order in which they were bound, the latest one first, and environments
with the same bindings in another order are not equal.  What they know is the same, though, and this
is all that a client of an environment gets to see: the types of names, the types and errors of
expressions and, as binding the arguments asks for nothing else either, the verdict on a declaration
(`Decl.verify_eq_of_lookup?`).
-/

namespace Frontend

/-- Names that are different from one another can be given their types in any order. -/
theorem Context.extend_eq_of_perm {Γ : Context} {bound bound' : List (String × Ty)}
    (h : bound.Perm bound') (hnodup : (bound.map Prod.fst).Nodup) :
    Γ.extend bound = Γ.extend bound' := by
  have hnames : (bound.map Prod.fst).Perm (bound'.map Prod.fst) := h.map _
  funext name
  by_cases hname : name ∈ bound.map Prod.fst
  · obtain ⟨⟨_, type⟩, hmem, rfl⟩ := List.mem_map.mp hname
    rw [extend_of_mem hnodup hmem, extend_of_mem (hnames.nodup hnodup) (h.mem_iff.mp hmem)]
  · rw [extend_of_notMem hname, extend_of_notMem fun hname' => hname (hnames.mem_iff.mpr hname')]

namespace TypeEnv

/-! ## Environments built by binding -/

/-- The environments that come about by binding names and arguments. -/
inductive Reachable : TypeEnv → Prop where
  | empty : Reachable .empty
  | ofGlobals (globals : List (String × Ty)) : Reachable (.ofGlobals globals)
  | bind {env env' name type} : Reachable env → env.bind name type = .ok env' → Reachable env'
  | bindArgs {env env' args type rest} : Reachable env →
      env.bindArgs args type = .ok (env', rest) → Reachable env'

def localNames (env : TypeEnv) : List String := env.locals.map Prod.fst

def globalNames (env : TypeEnv) : List String := env.globals.map Prod.fst

/-- No name of the environment hides another. -/
structure Unshadowed (env : TypeEnv) : Prop where
  nodup : env.localNames.Nodup
  disjoint : ∀ x ∈ env.localNames, x ∉ env.globalNames

variable {env env' : TypeEnv} {name : String} {type : Ty} {bound bound' : List (String × Ty)}

theorem lookup_eq_none_iff_notMem {l : List (String × Ty)} :
    l.lookup name = none ↔ name ∉ l.map Prod.fst := by
  rw [List.lookup_eq_none_iff, List.mem_map]
  constructor
  · rintro h ⟨b, hb, rfl⟩
    simpa using h b hb
  · intro h b hb
    refine bne_iff_ne.mpr ?_
    rintro rfl
    exact h ⟨b, hb, rfl⟩

theorem mem_iff_mem_names : name ∈ env ↔ name ∈ env.localNames ∨ name ∈ env.globalNames := by
  rw [← not_iff_not, notMem_iff, lookup?, Option.or_eq_none_iff, lookup_eq_none_iff_notMem,
    lookup_eq_none_iff_notMem, not_or, localNames, globalNames]

namespace Unshadowed

theorem ofGlobals (globals : List (String × Ty)) : (ofGlobals globals).Unshadowed :=
  ⟨List.nodup_nil, nofun⟩

theorem push (h : env.Unshadowed) (hname : name ∉ env) : (env.push name type).Unshadowed := by
  obtain ⟨hlocal, hglobal⟩ := not_or.mp (mt mem_iff_mem_names.mpr hname)
  exact ⟨List.nodup_cons.mpr ⟨hlocal, h.nodup⟩, List.forall_mem_cons.mpr ⟨hglobal, h.disjoint⟩⟩

theorem extend (h : env.Unshadowed) (hnodup : (bound.map Prod.fst).Nodup)
    (hfresh : ∀ x ∈ bound.map Prod.fst, x ∉ env) : (env.extend bound).Unshadowed := by
  induction bound generalizing env with
  | nil => exact h
  | cons b bound ih =>
      rw [List.map_cons, List.nodup_cons] at hnodup
      rw [List.map_cons, List.forall_mem_cons] at hfresh
      refine ih (h.push hfresh.1) hnodup.2 ?_
      intro x hx
      exact notMem_push.mpr ⟨ne_of_mem_of_not_mem hx hnodup.1, hfresh.2 x hx⟩

/-- Locals and globals have no name in common, so either may be searched first. -/
theorem lookup_comm (h : env.Unshadowed) (name : String) :
    (env.locals.lookup name).or (env.globals.lookup name) =
      (env.globals.lookup name).or (env.locals.lookup name) := by
  by_cases hlocal : name ∈ env.localNames
  · rw [lookup_eq_none_iff_notMem.mpr (h.disjoint name hlocal), Option.or_none, Option.none_or]
  · rw [lookup_eq_none_iff_notMem.mpr hlocal, Option.none_or, Option.or_none]

end Unshadowed

/-- **No reachable environment has a name twice.** -/
theorem Reachable.unshadowed (h : env.Reachable) : env.Unshadowed := by
  induction h with
  | empty => exact .ofGlobals []
  | ofGlobals globals => exact .ofGlobals globals
  | bind _ hbind ih =>
      obtain ⟨hname, rfl⟩ := bind_eq_ok_iff_push.mp hbind
      exact ih.push hname
  | bindArgs _ hargs ih =>
      obtain ⟨⟨hroom, hnodup, hfresh⟩, -, rfl⟩ := bindEach_eq_ok_iff_spine.mp hargs
      rw [← List.map_fst_zip hroom] at hnodup hfresh
      exact ih.extend hnodup hfresh

/-! ## Binding in any order -/

/-- Binds names one after the other. -/
def bindAll (env : TypeEnv) (bound : List (String × Ty)) : Except CheckError TypeEnv :=
  bound.foldlM (fun env b => env.bind b.1 b.2) env

theorem bindAll_eq_ok_iff :
    env.bindAll bound = .ok env' ↔ ((bound.map Prod.fst).Nodup ∧
      ∀ x ∈ bound.map Prod.fst, x ∉ env) ∧ env' = env.extend bound := by
  induction bound generalizing env with
  | nil =>
      refine ⟨fun h => ⟨⟨List.nodup_nil, nofun⟩, (Except.ok.inj h).symm⟩, ?_⟩
      rintro ⟨-, rfl⟩
      rfl
  | cons b bound ih =>
      have hcons : env.bindAll (b :: bound) = env.bind b.1 b.2 >>= fun env => env.bindAll bound :=
        List.foldlM_cons
      simp only [hcons, ok_bind_iff, bind_eq_ok_iff_push, List.map_cons, List.nodup_cons,
        List.forall_mem_cons]
      constructor
      · rintro ⟨_, ⟨hname, rfl⟩, hrest⟩
        obtain ⟨⟨hnodup, hfresh⟩, rfl⟩ := ih.mp hrest
        -- a later binding of the same name would have met this one
        have hnew : b.1 ∉ bound.map Prod.fst := fun hmem => (notMem_push.mp (hfresh _ hmem)).1 rfl
        exact ⟨⟨⟨hnew, hnodup⟩, hname, fun x hx => (notMem_push.mp (hfresh x hx)).2⟩, rfl⟩
      · rintro ⟨⟨⟨hnew, hnodup⟩, hname, hfresh⟩, rfl⟩
        refine ⟨_, ⟨hname, rfl⟩, ih.mpr ⟨⟨hnodup, ?_⟩, rfl⟩⟩
        intro x hx
        exact notMem_push.mpr ⟨ne_of_mem_of_not_mem hx hnew, hfresh x hx⟩

theorem exists_bindAll_iff :
    (∃ inner, env.bindAll bound = .ok inner) ↔
      (bound.map Prod.fst).Nodup ∧ ∀ x ∈ bound.map Prod.fst, x ∉ env := by
  simp only [bindAll_eq_ok_iff, exists_and_left, exists_eq, and_true]

theorem exists_bindAll_congr (h : bound.Perm bound') :
    (∃ inner, env.bindAll bound = .ok inner) ↔ ∃ inner, env.bindAll bound' = .ok inner := by
  have hnames : (bound.map Prod.fst).Perm (bound'.map Prod.fst) := h.map _
  simp only [exists_bindAll_iff, hnames.nodup_iff, hnames.mem_iff]

theorem lookup?_eq_of_bindAll {inner inner' : TypeEnv} (h : bound.Perm bound')
    (hinner : env.bindAll bound = .ok inner) (hinner' : env.bindAll bound' = .ok inner') :
    inner.lookup? = inner'.lookup? := by
  obtain ⟨⟨hnodup, -⟩, rfl⟩ := bindAll_eq_ok_iff.mp hinner
  obtain ⟨-, rfl⟩ := bindAll_eq_ok_iff.mp hinner'
  rw [lookup?_extend, lookup?_extend, Context.extend_eq_of_perm h hnodup]

/-! ## Environments that know the same -/

theorem mem_congr (h : env.lookup? = env'.lookup?) : name ∈ env ↔ name ∈ env' := by
  rw [mem_iff, mem_iff, h]

theorem lookup?_push_congr (h : env.lookup? = env'.lookup?) :
    (env.push name type).lookup? = (env'.push name type).lookup? := by
  rw [lookup?_push, lookup?_push, h]

/-- Binding arguments asks an environment for nothing but what it knows. -/
theorem bindEach_congr {tooMany : TypeError} {args : List String} (h : env.lookup? = env'.lookup?) :
    (∀ e, bindEach tooMany env args type = .error e → bindEach tooMany env' args type = .error e) ∧
    ∀ inner rest, bindEach tooMany env args type = .ok (inner, rest) →
      ∃ inner', bindEach tooMany env' args type = .ok (inner', rest) ∧
        inner.lookup? = inner'.lookup? := by
  induction args generalizing env env' type with
  | nil =>
      refine ⟨nofun, ?_⟩
      intro inner rest hbound
      obtain ⟨rfl, rfl⟩ := Prod.mk.inj (Except.ok.inj hbound)
      exact ⟨env', rfl, h⟩
  | cons name args ih =>
      cases type with
      | integer | bool => exact ⟨fun _ herror => herror, nofun⟩
      | function arg result =>
          by_cases hname : name ∈ env
          · rw [bindEach_cons_of_mem hname, bindEach_cons_of_mem ((mem_congr h).mp hname)]
            exact ⟨fun _ herror => herror, nofun⟩
          · rw [bindEach_cons_of_notMem hname, bindEach_cons_of_notMem (mt (mem_congr h).mpr hname)]
            exact ih (lookup?_push_congr h)

end TypeEnv

theorem Exp.infer_eq_of_lookup? {env env' : TypeEnv} (h : env.lookup? = env'.lookup?) (e : Exp) :
    e.infer env = e.infer env' :=
  infer_congr fun x _ => TypeEnv.typeOf_congr (congrFun h x)

theorem Decl.verify_eq_of_lookup? {env env' : TypeEnv} (h : env.lookup? = env'.lookup?) (d : Decl) :
    d.verify env = d.verify env' := by
  have hargs : ∀ e, env.bindArgs d.equation.args (.ofExpr d.signature.type) = .error e →
      env'.bindArgs d.equation.args (.ofExpr d.signature.type) = .error (e.rename id) := by
    intro e herror
    rw [e.rename_id]
    exact (TypeEnv.bindEach_congr h).1 e herror
  have hbody : ∀ inner expected,
      env.bindArgs d.equation.args (.ofExpr d.signature.type) = .ok (inner, expected) →
      ∃ inner', env'.bindArgs d.equation.args (.ofExpr d.signature.type) = .ok (inner', expected) ∧
        d.equation.body.infer inner' =
          (d.equation.body.infer inner).mapError (CheckError.rename id) := by
    intro inner expected hbound
    obtain ⟨inner', hbound', hinner⟩ := (TypeEnv.bindEach_congr h).2 inner expected hbound
    refine ⟨inner', hbound', ?_⟩
    rw [mapError_rename_id, Exp.infer_eq_of_lookup? hinner]
  have hsteps : d.verify env' = _ := verify_eq_of_steps hargs hbody
  rw [hsteps, mapError_rename_id]
  cases hverify : d.verify env with
  | error => rfl
  | ok b => exact congrArg Except.ok (eq_binding_of_verify hverify)

/-- **Nothing is shadowed, and nobody can tell in which order names were bound.**  In a reachable
environment the local names are different from one another and from the global ones, so it makes no
difference which are searched first, and exactly the names it contains have a type.  Names with
their types can be bound one after the other, starting anywhere, if they are different from one
another and none has a type already; so this does not depend on their order, and neither does what
is known afterwards of names, expressions and declarations. -/
theorem binding_order_unobservable (env : TypeEnv) :
    (env.Reachable →
      (env.localNames.Nodup ∧ ∀ x ∈ env.localNames, x ∉ env.globalNames) ∧
      ∀ x, (env.locals.lookup x).or (env.globals.lookup x) =
          (env.globals.lookup x).or (env.locals.lookup x) ∧
        ((∃ type, env.typeOf x = .ok type) ↔ env.contains x = true) ∧
        (env.contains x = true ↔ x ∈ env.localNames ∨ x ∈ env.globalNames)) ∧
    ∀ bound order : List (String × Ty), order.Perm bound →
      ((∃ inner, env.bindAll bound = .ok inner) ↔
        (bound.map Prod.fst).Nodup ∧ ∀ x ∈ bound.map Prod.fst, x ∉ env) ∧
      ((∃ inner, env.bindAll order = .ok inner) ↔ ∃ inner, env.bindAll bound = .ok inner) ∧
      ∀ inner inner', env.bindAll bound = .ok inner → env.bindAll order = .ok inner' →
        (∀ x, inner.typeOf x = inner'.typeOf x ∧ inner.contains x = inner'.contains x) ∧
        (∀ e : Exp, e.infer inner = e.infer inner') ∧
        ∀ d : Decl, d.verify inner = d.verify inner' := by
  refine ⟨?_, ?_⟩
  · intro h
    have hunshadowed : env.Unshadowed := h.unshadowed
    refine ⟨⟨hunshadowed.nodup, hunshadowed.disjoint⟩, fun x => ⟨hunshadowed.lookup_comm x, ?_, ?_⟩⟩
    · simp only [TypeEnv.typeOf_eq_ok_iff]
      exact TypeEnv.mem_iff.symm
    · exact TypeEnv.mem_iff_mem_names
  · intro bound order h
    refine ⟨TypeEnv.exists_bindAll_iff, TypeEnv.exists_bindAll_congr h, ?_⟩
    intro inner inner' hinner hinner'
    -- all that is known of an environment comes from looking names up
    have hlookup : inner.lookup? = inner'.lookup? :=
      TypeEnv.lookup?_eq_of_bindAll h.symm hinner hinner'
    refine ⟨fun x => ⟨TypeEnv.typeOf_congr (congrFun hlookup x), ?_⟩, ?_, ?_⟩
    · rw [TypeEnv.contains, TypeEnv.contains, hlookup]
    · exact Exp.infer_eq_of_lookup? hlookup
    · exact Decl.verify_eq_of_lookup? hlookup

/-- `y` and `z` are bound in both orders where `x` is local and `f` is global.  The environments
differ, but no expression and no declaration shows it. -/
theorem binding_order_unobservable_two :
    let env : TypeEnv := ⟨[("f", .function .integer .bool)], [("x", .integer)]⟩
    let bound : List (String × Ty) := [("y", .bool), ("z", .integer)]
    let order : List (String × Ty) := [("z", .integer), ("y", .bool)]
    (env.Reachable ∧ env.localNames.Nodup ∧ ∀ x ∈ env.localNames, x ∉ env.globalNames) ∧
      order.Perm bound ∧ ∃ inner inner', env.bindAll bound = .ok inner ∧
        env.bindAll order = .ok inner' ∧ inner ≠ inner' ∧
        (∀ e : Exp, e.infer inner = e.infer inner') ∧
        ∀ d : Decl, d.verify inner = d.verify inner' := by
  intro env bound order
  have hbind : (TypeEnv.ofGlobals [("f", .function .integer .bool)]).bind "x" .integer = .ok env := by
    decide
  have henv : env.Reachable := .bind (.ofGlobals _) hbind
  have horder : order.Perm bound := .swap _ _ []
  have hbound : env.bindAll bound = .ok (env.extend bound) := by decide
  have hbound' : env.bindAll order = .ok (env.extend order) := by decide
  have h := binding_order_unobservable env
  obtain ⟨-, hinfer, hverify⟩ := (h.2 bound order horder).2.2 _ _ hbound hbound'
  exact ⟨⟨henv, (h.1 henv).1⟩, horder, _, _, hbound, hbound', by decide, hinfer, hverify⟩

end Frontend
