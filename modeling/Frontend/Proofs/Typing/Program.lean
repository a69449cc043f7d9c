import Frontend.Proofs.Typing.Currying
import Frontend.Typing.Check

/-!
# Well-typed programs

A check goes through the signatures, the names, the arguments and the bodies of a program step by
step.  `Program.WellTyped` says the same of the program as a whole: no two signatures share a name,
and every declaration defines what its signature names, by a closure that has the stated type in the
context of all signatures.

`Program.value_check_eq_ok_iff` takes the check apart into its declarations, which do not depend on
each other, and `Decl.verify_eq_ok_iff` takes a declaration apart.
-/

namespace Frontend

/-! ## One declaration -/

def Decl.binding (d : Decl) : Binding := ⟨d.signature.name, d.equation.closure⟩

namespace Decl

variable {env : TypeEnv} {d : Decl} {b : Binding}

/-- The steps that a declaration has to pass. -/
theorem verify_eq_ok_iff_infer :
    d.verify env = .ok b ↔ d.signature.name = d.equation.name ∧
      (∃ inner expected, env.bindArgs d.equation.args (.ofExpr d.signature.type) =
        .ok (inner, expected) ∧ d.equation.body.infer inner = .ok expected) ∧ b = d.binding := by
  unfold verify
  by_cases hname : d.signature.name = d.equation.name
  · rw [if_neg (not_not_intro hname), ok_bind_iff]
    refine ⟨?_, ?_⟩
    · intro h
      obtain ⟨⟨inner, expected⟩, hargs, hrest⟩ := h
      obtain ⟨found, hfound, hresult⟩ := ok_bind_iff.mp hrest
      by_cases heq : found = expected
      · rw [if_pos heq] at hresult
        rw [heq] at hfound
        exact ⟨hname, ⟨inner, expected, hargs, hfound⟩, (Except.ok.inj hresult).symm⟩
      · rw [if_neg heq] at hresult
        contradiction
    · intro h
      obtain ⟨-, ⟨inner, expected, hargs, hbody⟩, rfl⟩ := h
      refine ⟨(inner, expected), hargs, ok_bind_iff.mpr ⟨expected, hbody, ?_⟩⟩
      rw [if_pos rfl, binding]
  · rw [if_pos hname]
    exact iff_of_false nofun fun h => hname h.1

/-- **A declaration is in order if its closure has the type of its signature.**  The body must be
free of lambdas, and the arguments must not hide anything. -/
theorem verify_eq_ok_iff :
    d.verify env = .ok b ↔ (d.signature.name = d.equation.name ∧ d.equation.args.Nodup ∧
      (∀ x ∈ d.equation.args, x ∉ env) ∧ d.equation.body.hasLambda = false ∧
      HasCurriedType env.lookup? d.equation.closure (.ofExpr d.signature.type)) ∧
        b = d.binding := by
  rw [verify_eq_ok_iff_infer, Equation.closure, hasCurriedType_closure_iff]
  simp only [TypeEnv.bindArgs, TypeEnv.bindEach_eq_ok_iff, infer_eq_ok_iff,
    hasType_iff_hasCurriedType]
  -- both sides give the arguments the same types, one in an environment and one in its context
  refine ⟨?_, ?_⟩
  · intro h
    obtain ⟨hname, ⟨_, rest, ⟨hnodup, hfresh, types, hlength, htype, rfl⟩, hlambda, hbody⟩, hb⟩ := h
    rw [TypeEnv.lookup?_extend] at hbody
    exact ⟨⟨hname, hnodup, hfresh, hlambda, types, rest, hlength, htype, hbody⟩, hb⟩
  · intro h
    obtain ⟨⟨hname, hnodup, hfresh, hlambda, types, rest, hlength, htype, hbody⟩, hb⟩ := h
    rw [← TypeEnv.lookup?_extend] at hbody
    exact ⟨hname, ⟨_, rest, ⟨hnodup, hfresh, types, hlength, htype, rfl⟩, hlambda, hbody⟩, hb⟩

theorem eq_binding_of_verify (h : d.verify env = .ok b) : b = d.binding :=
  (verify_eq_ok_iff_infer.mp h).2.2

end Decl

/-! ## The signatures -/

def Signature.entry (s : Signature) : String × Ty := (s.name, .ofExpr s.type)

theorem Signature.lookup_entry_eq_none_iff {s : Signature} {name : String} :
    [s.entry].lookup name = none ↔ name ≠ s.name := by
  simp [Signature.entry]

namespace Program

variable {p : Program} {env : TypeEnv}

def names (p : Program) : List String := p.signatures.map (·.name)

/-- The environment of all signatures of a program. -/
def globalEnv (p : Program) : TypeEnv := .ofGlobals (p.signatures.map Signature.entry)

/-- The types that the signatures of a program state. -/
def context (p : Program) : Context := fun name =>
  (p.signatures.find? (·.name == name)).map fun s => .ofExpr s.type

theorem readSignatures_eq_ok_iff {known globals : List (String × Ty)}
    {signatures : List Signature} :
    readSignatures known signatures = .ok globals ↔
      (signatures.map (·.name)).Nodup ∧ (∀ s ∈ signatures, known.lookup s.name = none) ∧
        globals = known ++ signatures.map Signature.entry := by
  -- the names read before are part of what is known
  induction signatures generalizing known with
  | nil =>
      simp only [readSignatures, Except.ok.injEq, List.map_nil, List.nodup_nil, List.not_mem_nil,
        List.append_nil]
      exact ⟨fun h => ⟨trivial, nofun, h.symm⟩, fun h => h.2.2.symm⟩
  | cons s signatures ih =>
      by_cases hknown : known.lookup s.name = none
      · have hstep : readSignatures known (s :: signatures) =
            readSignatures (known ++ [s.entry]) signatures := by
          simp [readSignatures, hknown, Signature.entry]
        have hfresh : (∀ t ∈ signatures, (known ++ [s.entry]).lookup t.name = none) ↔
            s.name ∉ signatures.map (·.name) ∧ ∀ t ∈ signatures, known.lookup t.name = none := by
          simp only [List.lookup_append, Option.or_eq_none_iff, Signature.lookup_entry_eq_none_iff,
            List.mem_map, not_exists, not_and]
          refine ⟨?_, ?_⟩
          · intro h
            exact ⟨fun t ht => (h t ht).2, fun t ht => (h t ht).1⟩
          · intro h t ht
            exact ⟨h.2 t ht, h.1 t ht⟩
        rw [hstep, ih, hfresh, List.map_cons, List.map_cons, List.nodup_cons, List.forall_mem_cons,
          List.append_assoc, List.singleton_append]
        refine ⟨?_, ?_⟩
        · intro h
          obtain ⟨hnodup, ⟨hs, hothers⟩, hglobals⟩ := h
          exact ⟨⟨hs, hnodup⟩, ⟨hknown, hothers⟩, hglobals⟩
        · intro h
          obtain ⟨⟨hs, hnodup⟩, ⟨-, hothers⟩, hglobals⟩ := h
          exact ⟨hnodup, ⟨hs, hothers⟩, hglobals⟩
      · have hstep : readSignatures known (s :: signatures) =
            .error (.duplicatedVariable s.name) := by
          simp [readSignatures, Option.isSome_iff_ne_none, hknown]
        rw [hstep]
        exact iff_of_false nofun fun h => hknown (h.2.1 s List.mem_cons_self)

theorem value_signatureEnv_eq_ok_iff :
    p.signatureEnv.value = .ok env ↔ p.names.Nodup ∧ env = p.globalEnv := by
  unfold signatureEnv
  cases hread : readSignatures [] p.signatures with
  | ok globals =>
      have h := readSignatures_eq_ok_iff.mp hread
      rw [Traced.value_note, Traced.value_pure, Except.ok.injEq, h.2.2]
      exact ⟨fun henv => ⟨h.1, henv.symm⟩, fun henv => henv.2.symm⟩
  | error e =>
      refine iff_of_false nofun ?_
      intro h
      have hunknown : ∀ s ∈ p.signatures, List.lookup s.name ([] : List (String × Ty)) = none :=
        fun _ _ => List.lookup_nil
      have hok := readSignatures_eq_ok_iff.mpr ⟨h.1, hunknown, rfl⟩
      rw [hread] at hok
      contradiction

theorem lookup?_globalEnv (p : Program) : p.globalEnv.lookup? = p.context := by
  funext name
  rw [TypeEnv.lookup?, globalEnv, TypeEnv.ofGlobals, List.lookup_nil, Option.none_or, context]
  induction p.signatures with
  | nil => rfl
  | cons s signatures ih =>
      rw [List.map_cons, Signature.entry, List.lookup_cons, List.find?_cons, ih, BEq.comm]
      cases s.name == name <;> rfl

theorem notMem_globalEnv {name : String} : name ∉ p.globalEnv ↔ name ∉ p.names := by
  rw [TypeEnv.notMem_iff, lookup?_globalEnv, context]
  simp [names]

/-! ## All declarations -/

variable {done bs : Bindings} {d : Decl} {decls : List Decl}

theorem value_checkDecls_cons_eq_ok_iff :
    (checkDecls env done (d :: decls)).value = .ok bs ↔ d.verify env = .ok d.binding ∧
      d.signature.name ∉ done.names ∧
        (checkDecls env ⟨done.entries ++ [d.binding]⟩ decls).value = .ok bs := by
  rw [checkDecls, Traced.value_andThen, Decl.value_check]
  cases hverify : d.verify env with
  | error e => exact iff_of_false nofun nofun
  | ok b =>
      obtain rfl := Decl.eq_binding_of_verify hverify
      by_cases hname : d.signature.name ∈ done.names
      · have hinsert : done.insert d.binding = .error (.duplicatedVariable d.signature.name) :=
          Bindings.insert_eq_error_iff.mpr ⟨hname, rfl⟩
        simp only [Except.bind, hinsert, hname]
        exact iff_of_false nofun fun h => h.2.1 trivial
      · have hinsert : done.insert d.binding = .ok ⟨done.entries ++ [d.binding]⟩ :=
          Bindings.insert_eq_ok_iff.mpr ⟨hname, rfl⟩
        simp only [Except.bind, hinsert, hname, not_false_eq_true, true_and]

theorem value_checkDecls_eq_ok_iff :
    (checkDecls env done decls).value = .ok bs ↔
      (∀ d ∈ decls, d.verify env = .ok d.binding) ∧
        (decls.map (·.signature.name)).Nodup ∧ (∀ d ∈ decls, d.signature.name ∉ done.names) ∧
          bs = ⟨done.entries ++ decls.map Decl.binding⟩ := by
  induction decls generalizing done with
  | nil =>
      simp only [checkDecls, Traced.value_note, Traced.value_pure, Except.ok.injEq,
        List.not_mem_nil, List.map_nil, List.nodup_nil, List.append_nil]
      exact ⟨fun h => ⟨nofun, trivial, nofun, h.symm⟩, fun h => h.2.2.2.symm⟩
  | cons d decls ih =>
      -- a name is new after this declaration if it is another one and was new before
      have hfresh : (∀ e ∈ decls, e.signature.name ∉
            (⟨done.entries ++ [d.binding]⟩ : Bindings).names) ↔
          d.signature.name ∉ decls.map (·.signature.name) ∧
            ∀ e ∈ decls, e.signature.name ∉ done.names := by
        simp only [Bindings.names, List.map_append, List.mem_append, not_or, List.map_singleton,
          List.mem_singleton, Decl.binding, List.mem_map (l := decls), not_exists, not_and]
        refine ⟨?_, ?_⟩
        · intro h
          exact ⟨fun e he => (h e he).2, fun e he => (h e he).1⟩
        · intro h e he
          exact ⟨h.2 e he, h.1 e he⟩
      rw [value_checkDecls_cons_eq_ok_iff, ih, hfresh, List.forall_mem_cons, List.forall_mem_cons,
        List.map_cons, List.map_cons, List.nodup_cons, List.append_assoc, List.singleton_append]
      refine ⟨?_, ?_⟩
      · intro h
        obtain ⟨hd, hname, hdecls, hnodup, ⟨hnew, hnames⟩, hbs⟩ := h
        exact ⟨⟨hd, hdecls⟩, ⟨hnew, hnodup⟩, ⟨hname, hnames⟩, hbs⟩
      · intro h
        obtain ⟨⟨hd, hdecls⟩, ⟨hnew, hnodup⟩, ⟨hname, hnames⟩, hbs⟩ := h
        exact ⟨hd, hname, hdecls, hnodup, ⟨hnew, hnames⟩, hbs⟩

/-- **A check succeeds if no name is declared twice and every declaration is in order.** -/
theorem value_check_eq_ok_iff :
    p.check.value = .ok bs ↔ p.names.Nodup ∧
      (∀ d ∈ p.decls, d.verify p.globalEnv = .ok d.binding) ∧
        bs = ⟨p.decls.map Decl.binding⟩ := by
  have hnames : p.names = p.decls.map (·.signature.name) := by
    simp [names, signatures]
  rw [check, Traced.value_andThen]
  cases henv : p.signatureEnv.value with
  | ok env =>
      obtain ⟨hnodup, rfl⟩ := value_signatureEnv_eq_ok_iff.mp henv
      show (checkDecls p.globalEnv .empty p.decls).value = .ok bs ↔ _
      rw [value_checkDecls_eq_ok_iff, ← hnames]
      refine ⟨?_, ?_⟩
      · intro h
        obtain ⟨hdecls, -, -, hbs⟩ := h
        exact ⟨hnodup, hdecls, hbs⟩
      · intro h
        obtain ⟨-, hdecls, hbs⟩ := h
        exact ⟨hdecls, hnodup, fun _ _ => List.not_mem_nil, hbs⟩
  | error e =>
      refine iff_of_false nofun ?_
      intro h
      have hok := value_signatureEnv_eq_ok_iff.mpr ⟨h.1, rfl⟩
      rw [henv] at hok
      contradiction

end Program

/-! ## Well-typed programs -/

/-- A declaration of `p` is well typed if its closure has the type of its signature in the context
of `p`, its body is free of lambdas, and no argument has the name of another or of a global. -/
structure Decl.WellTyped (p : Program) (d : Decl) : Prop where
  name_eq : d.signature.name = d.equation.name
  args_nodup : d.equation.args.Nodup
  args_fresh : ∀ x ∈ d.equation.args, x ∉ p.names
  body_hasLambda : d.equation.body.hasLambda = false
  closure_type : HasCurriedType p.context d.equation.closure (.ofExpr d.signature.type)

structure Program.WellTyped (p : Program) : Prop where
  names_nodup : p.names.Nodup
  decls : ∀ d ∈ p.decls, d.WellTyped p

theorem Decl.verify_globalEnv_eq_ok_iff {p : Program} {d : Decl} :
    d.verify p.globalEnv = .ok d.binding ↔ d.WellTyped p := by
  simp only [verify_eq_ok_iff, Program.lookup?_globalEnv, Program.notMem_globalEnv, and_true]
  refine ⟨?_, ?_⟩
  · intro h
    obtain ⟨hname, hnodup, hfresh, hlambda, htype⟩ := h
    exact ⟨hname, hnodup, hfresh, hlambda, htype⟩
  · intro h
    exact ⟨h.name_eq, h.args_nodup, h.args_fresh, h.body_hasLambda, h.closure_type⟩

/-- **The check accepts the well-typed programs.**  It then exports the closure of every declaration
under the name of its signature, in order and nothing else, and each of them has the type that this
signature states. -/
theorem check_accepts_wellTyped (p : Program) :
    (∀ bs, p.check.value = .ok bs ↔ p.WellTyped ∧
      bs.entries = p.decls.map fun d => ⟨d.signature.name, d.equation.closure⟩) ∧
      ∀ bs, p.check.value = .ok bs → ∀ b ∈ bs.entries, ∃ s ∈ p.signatures, s.name = b.name ∧
        HasCurriedType p.context b.exp (.ofExpr s.type) := by
  have hdecls : (∀ d ∈ p.decls, d.verify p.globalEnv = .ok d.binding) ↔
      ∀ d ∈ p.decls, d.WellTyped p :=
    forall₂_congr fun d _ => Decl.verify_globalEnv_eq_ok_iff
  refine ⟨?_, ?_⟩
  · intro bs
    rw [Program.value_check_eq_ok_iff, hdecls]
    refine ⟨?_, ?_⟩
    · intro h
      obtain ⟨hnodup, hdecls, rfl⟩ := h
      exact ⟨⟨hnodup, hdecls⟩, rfl⟩
    · intro h
      have hbs : bs = ⟨p.decls.map Decl.binding⟩ := congrArg Bindings.mk h.2
      exact ⟨h.1.names_nodup, h.1.decls, hbs⟩
  · intro bs h b hb
    obtain ⟨-, hverified, rfl⟩ := Program.value_check_eq_ok_iff.mp h
    obtain ⟨d, hd, rfl⟩ := List.mem_map.mp hb
    have hsignature : d.signature ∈ p.signatures := List.mem_map_of_mem hd
    have hwelltyped : d.WellTyped p := hdecls.mp hverified d hd
    exact ⟨d.signature, hsignature, rfl, hwelltyped.closure_type⟩

end Frontend
