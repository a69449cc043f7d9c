import Frontend.Proofs.Typing.Program

/-!
# Which error is reported

A program may have many faults, and a check reports one of them.  Which one is fixed: of all that is
wrong with the elements of a list it is what is wrong with the first of them, where an element may
also be at fault because of those before it.  `FirstFault` says this of any list.

The signatures come first, and only if none of them declares a name again are the declarations
looked at (`Program.value_check_eq_error_iff`).  By then all names are different, so no binding is
ever refused.  The same cannot be said of declarations that are checked in an environment from
elsewhere: there a name may be bound again, and this counts as a fault of the declaration that does
so (`Program.value_checkIn_eq_error_iff`).  The order within a declaration is that of
`Decl.Verdict`.
-/

namespace Frontend

/-! ## The first fault of a list -/

/-- `e` is wrong with an element of `l`, and nothing is wrong with any element before that one.
What is wrong with an element may depend on the ones before it. -/
def FirstFault {α ε : Type} (Faulty : List α → α → ε → Prop) (l : List α) (e : ε) : Prop :=
  ∃ before x after, l = before ++ x :: after ∧ Faulty before x e ∧
    ∀ earlier y later, before = earlier ++ y :: later → ∀ e', ¬ Faulty earlier y e'

namespace FirstFault

variable {α ε : Type} {Faulty Faulty' : List α → α → ε → Prop} {a : α} {l : List α} {e : ε}

theorem not_nil : ¬ FirstFault Faulty [] e := by
  intro h
  obtain ⟨before, x, after, hsplit, -⟩ := h
  simp at hsplit

theorem cons_iff : FirstFault Faulty (a :: l) e ↔ Faulty [] a e ∨
    (∀ e', ¬ Faulty [] a e') ∧ FirstFault (fun earlier => Faulty (a :: earlier)) l e := by
  refine ⟨?_, ?_⟩
  · intro h
    obtain ⟨before, x, after, hsplit, hfault, hfirst⟩ := h
    cases before with
    | nil =>
        obtain ⟨rfl, -⟩ := List.cons.inj hsplit
        exact .inl hfault
    | cons b before =>
        obtain ⟨rfl, rfl⟩ := List.cons.inj hsplit
        refine .inr ⟨hfirst [] a before rfl, before, x, after, rfl, hfault, ?_⟩
        intro earlier y later hbefore
        exact hfirst (a :: earlier) y later (congrArg (a :: ·) hbefore)
  · intro h
    rcases h with hfault | ⟨hnone, before, x, after, rfl, hfault, hfirst⟩
    · exact ⟨[], a, l, rfl, hfault, fun earlier y later h => by simp at h⟩
    · refine ⟨a :: before, x, after, rfl, hfault, ?_⟩
      intro earlier y later hbefore
      cases earlier with
      | nil =>
          obtain ⟨rfl, -⟩ := List.cons.inj hbefore
          exact hnone
      | cons b earlier =>
          obtain ⟨rfl, rfl⟩ := List.cons.inj hbefore
          exact hfirst earlier y later rfl

theorem cons_iff_of_faulty {e₀ : ε} (h : ∀ e', Faulty [] a e' ↔ e' = e₀) :
    FirstFault Faulty (a :: l) e ↔ e = e₀ := by
  rw [cons_iff, h]
  refine or_iff_left ?_
  intro hrest
  exact hrest.1 e₀ ((h e₀).mpr rfl)

theorem cons_iff_of_not_faulty (h : ∀ e', ¬ Faulty [] a e') :
    FirstFault Faulty (a :: l) e ↔ FirstFault (fun earlier => Faulty (a :: earlier)) l e := by
  rw [cons_iff, or_iff_right (h e), and_iff_right h]

/-- There is one first fault if no element is at fault in two ways. -/
theorem unique {e' : ε} (hfault : ∀ before x e e', Faulty before x e → Faulty before x e' → e = e')
    (h : FirstFault Faulty l e) (h' : FirstFault Faulty l e') : e = e' := by
  induction l generalizing Faulty with
  | nil => exact absurd h not_nil
  | cons a l ih =>
      rcases cons_iff.mp h with h | ⟨hnone, h⟩
      · rcases cons_iff.mp h' with h' | ⟨hnone', -⟩
        · exact hfault [] a e e' h h'
        · exact absurd h (hnone' e)
      · rcases cons_iff.mp h' with h' | ⟨-, h'⟩
        · exact absurd h' (hnone e')
        · exact ih (fun before => hfault (a :: before)) h h'

/-- Faults only count at the places of the list. -/
theorem of_forall (h : ∀ before x after, l = before ++ x :: after →
      ∀ e', Faulty before x e' ↔ Faulty' before x e') (hfirst : FirstFault Faulty l e) :
    FirstFault Faulty' l e := by
  obtain ⟨before, x, after, hsplit, hfault, hnone⟩ := hfirst
  refine ⟨before, x, after, hsplit, (h before x after hsplit e).mp hfault, ?_⟩
  intro earlier y later hbefore e' hfault'
  have hplace : l = earlier ++ y :: (later ++ x :: after) := by
    rw [hsplit, hbefore, List.append_assoc, List.cons_append]
  exact hnone earlier y later hbefore e' ((h earlier y _ hplace e').mpr hfault')

theorem congr (h : ∀ before x after, l = before ++ x :: after →
    ∀ e', Faulty before x e' ↔ Faulty' before x e') :
    FirstFault Faulty l e ↔ FirstFault Faulty' l e :=
  ⟨of_forall h, of_forall fun before x after hsplit e' => (h before x after hsplit e').symm⟩

end FirstFault

/-! ## The signatures -/

/-- A signature is at fault if one before it has the same name. -/
def Signature.Redeclares (earlier : List Signature) (s : Signature) (e : CheckError) : Prop :=
  s.name ∈ earlier.map (·.name) ∧ e = .duplicatedVariable s.name

theorem Signature.lookup_entries_isSome {read : List Signature} {name : String} :
    ((read.map Signature.entry).lookup name).isSome = true ↔ name ∈ read.map (·.name) := by
  rw [Option.isSome_iff_ne_none, ne_eq, List.lookup_eq_none_iff]
  simp [Signature.entry, @eq_comm _ name]

namespace Program

variable {p : Program} {env : TypeEnv} {e : CheckError}

theorem readSignatures_eq_error_iff {read rest : List Signature} :
    readSignatures (read.map Signature.entry) rest = .error e ↔
      FirstFault (fun earlier => Signature.Redeclares (read ++ earlier)) rest e := by
  induction rest generalizing read with
  | nil => exact iff_of_false nofun FirstFault.not_nil
  | cons s rest ih =>
      rw [readSignatures]
      by_cases hname : s.name ∈ read.map (·.name)
      · have hfault : ∀ e', Signature.Redeclares (read ++ []) s e' ↔
            e' = .duplicatedVariable s.name := by
          intro e'
          rw [List.append_nil]
          exact and_iff_right hname
        rw [if_pos (Signature.lookup_entries_isSome.mpr hname),
          FirstFault.cons_iff_of_faulty hfault, Except.error.injEq, eq_comm]
      · have hfault : ∀ e', ¬ Signature.Redeclares (read ++ []) s e' := by
          intro e' h
          exact hname (by simpa using h.1)
        have hread : read.map Signature.entry ++ [(s.name, .ofExpr s.type)] =
            (read ++ [s]).map Signature.entry := by
          rw [List.map_append, List.map_singleton, Signature.entry]
        rw [if_neg fun h => hname (Signature.lookup_entries_isSome.mp h), hread, ih,
          FirstFault.cons_iff_of_not_faulty hfault]
        simp only [List.append_assoc, List.singleton_append]

theorem value_signatureEnv_eq_error_iff :
    p.signatureEnv.value = .error e ↔ FirstFault Signature.Redeclares p.signatures e := by
  have hread := @readSignatures_eq_error_iff e [] p.signatures
  simp only [List.map_nil, List.nil_append] at hread
  rw [← hread, signatureEnv]
  cases readSignatures [] p.signatures with
  | ok globals => exact iff_of_false nofun nofun
  | error e' =>
      show (Except.error e' : Except CheckError TypeEnv) = .error e ↔ _
      rw [Except.error.injEq, Except.error.injEq]

end Program

/-! ## The declarations -/

/-- What is wrong with a declaration that stands behind others.  A name that was declared before is
only found fault with in a declaration that is in order by itself. -/
inductive Decl.Fault (env : TypeEnv) (earlier : List Decl) (d : Decl) : CheckError → Prop where
  | own {e} : d.verify env = .error e → Fault env earlier d e
  | repeated {b} : d.verify env = .ok b → d.signature.name ∈ earlier.map (·.signature.name) →
      Fault env earlier d (.duplicatedVariable d.signature.name)

namespace Decl

variable {env : TypeEnv} {earlier : List Decl} {d : Decl} {e e' : CheckError} {b : Binding}

theorem fault_iff_of_error (h : d.verify env = .error e) :
    d.Fault env earlier e' ↔ e' = e := by
  refine ⟨?_, ?_⟩
  · intro hfault
    cases hfault with
    | own h' => exact (Except.error.inj (h.symm.trans h')).symm
    | repeated h' => exact absurd (h.symm.trans h') nofun
  · rintro rfl
    exact .own h

theorem fault_iff_of_repeated (h : d.verify env = .ok b)
    (hname : d.signature.name ∈ earlier.map (·.signature.name)) :
    d.Fault env earlier e ↔ e = .duplicatedVariable d.signature.name := by
  refine ⟨?_, ?_⟩
  · intro hfault
    cases hfault with
    | own h' => exact absurd (h.symm.trans h') nofun
    | repeated => rfl
  · rintro rfl
    exact .repeated h hname

/-- A declaration of a new name is at fault only by itself. -/
theorem fault_iff_of_new (hname : d.signature.name ∉ earlier.map (·.signature.name)) :
    d.Fault env earlier e ↔ d.verify env = .error e := by
  refine ⟨?_, .own⟩
  intro hfault
  cases hfault with
  | own h => exact h
  | repeated _ h => exact absurd h hname

end Decl

namespace Program

variable {p : Program} {env : TypeEnv} {e : CheckError}

theorem names_map_binding (decls : List Decl) :
    (⟨decls.map Decl.binding⟩ : Bindings).names = decls.map (·.signature.name) := by
  simp [Bindings.names, Decl.binding]

theorem value_checkDecls_eq_error_iff {checked decls : List Decl} :
    (checkDecls env ⟨checked.map Decl.binding⟩ decls).value = .error e ↔
      FirstFault (fun earlier d => d.Fault env (checked ++ earlier)) decls e := by
  induction decls generalizing checked with
  | nil => exact iff_of_false nofun FirstFault.not_nil
  | cons d decls ih =>
      rw [checkDecls, Traced.value_andThen, Decl.value_check]
      cases hverify : d.verify env with
      | error e₀ =>
          -- the declaration is not in order on its own
          have hfault : ∀ e', d.Fault env (checked ++ []) e' ↔ e' = e₀ :=
            fun e' => Decl.fault_iff_of_error hverify
          rw [FirstFault.cons_iff_of_faulty hfault, Except.bind, Except.error.injEq, eq_comm]
      | ok b =>
          obtain rfl := Decl.eq_binding_of_verify hverify
          by_cases hname : d.signature.name ∈ checked.map (·.signature.name)
          · -- it is in order, but its name is repeated
            have hinsert : (⟨checked.map Decl.binding⟩ : Bindings).insert d.binding =
                .error (.duplicatedVariable d.signature.name) :=
              Bindings.insert_eq_error_iff.mpr ⟨by rwa [names_map_binding], rfl⟩
            have hfault : ∀ e', d.Fault env (checked ++ []) e' ↔
                e' = .duplicatedVariable d.signature.name := by
              intro e'
              rw [List.append_nil]
              exact Decl.fault_iff_of_repeated hverify hname
            rw [FirstFault.cons_iff_of_faulty hfault]
            simp only [Except.bind, hinsert, Traced.value_pure, Except.error.injEq]
            exact eq_comm
          · -- there is no fault in it, so the first one is further on
            have hinsert : (⟨checked.map Decl.binding⟩ : Bindings).insert d.binding =
                .ok ⟨(checked ++ [d]).map Decl.binding⟩ :=
              Bindings.insert_eq_ok_iff.mpr ⟨by rwa [names_map_binding], by simp⟩
            have hfault : ∀ e', ¬ d.Fault env (checked ++ []) e' := by
              intro e' h
              rw [List.append_nil, Decl.fault_iff_of_new hname, hverify] at h
              contradiction
            rw [FirstFault.cons_iff_of_not_faulty hfault]
            simp only [Except.bind, hinsert, ih, List.append_assoc, List.singleton_append]

theorem value_checkIn_eq_error_iff :
    (p.checkIn env).value = .error e ↔ FirstFault (Decl.Fault env) p.decls e :=
  @value_checkDecls_eq_error_iff env e [] p.decls

theorem names_eq_map (p : Program) : p.names = p.decls.map (·.signature.name) := by
  rw [names, signatures, List.map_map]
  rfl

theorem name_new_of_nodup (hnodup : p.names.Nodup) {earlier later : List Decl} {d : Decl}
    (hsplit : p.decls = earlier ++ d :: later) :
    d.signature.name ∉ earlier.map (·.signature.name) := by
  rw [names_eq_map, hsplit, List.map_append, List.map_cons, List.nodup_append] at hnodup
  intro hmem
  exact hnodup.2.2 _ hmem _ List.mem_cons_self rfl

/-- Where no name is declared twice, no binding is refused. -/
theorem insert_binding_of_nodup (hnodup : p.names.Nodup) {earlier later : List Decl} {d : Decl}
    (hsplit : p.decls = earlier ++ d :: later) :
    (⟨earlier.map Decl.binding⟩ : Bindings).insert d.binding =
      .ok ⟨(earlier ++ [d]).map Decl.binding⟩ := by
  refine Bindings.insert_eq_ok_iff.mpr ⟨?_, by rw [List.map_append, List.map_singleton]⟩
  rw [names_map_binding]
  exact name_new_of_nodup hnodup hsplit

/-- **The signatures are looked at before the declarations.** -/
theorem value_check_eq_error_iff :
    p.check.value = .error e ↔ FirstFault Signature.Redeclares p.signatures e ∨
      p.names.Nodup ∧ FirstFault (fun _ d e => d.verify p.globalEnv = .error e) p.decls e := by
  rw [check, Traced.value_andThen, ← value_signatureEnv_eq_error_iff]
  cases henv : p.signatureEnv.value with
  | error e₀ =>
      have hnodup : ¬ p.names.Nodup := by
        intro hnodup
        have hok := value_signatureEnv_eq_ok_iff.mpr ⟨hnodup, rfl⟩
        rw [henv] at hok
        contradiction
      simp only [Except.bind, Except.error.injEq, hnodup, false_and, or_false]
  | ok env =>
      obtain ⟨hnodup, rfl⟩ := value_signatureEnv_eq_ok_iff.mp henv
      show (p.checkIn p.globalEnv).value = .error e ↔ _
      rw [value_checkIn_eq_error_iff, or_iff_right (by simp), and_iff_right hnodup]
      refine FirstFault.congr fun earlier d later hsplit e' => ?_
      exact Decl.fault_iff_of_new (name_new_of_nodup hnodup hsplit)

theorem exists_value_check_iff :
    (∃ bs, p.check.value = .ok bs) ↔
      p.names.Nodup ∧ ∀ d ∈ p.decls, ∃ b, d.verify p.globalEnv = .ok b := by
  refine ⟨?_, ?_⟩
  · intro h
    obtain ⟨bs, hcheck⟩ := h
    obtain ⟨hnodup, hverify, -⟩ := value_check_eq_ok_iff.mp hcheck
    exact ⟨hnodup, fun d hd => ⟨d.binding, hverify d hd⟩⟩
  · intro h
    have hverify : ∀ d ∈ p.decls, d.verify p.globalEnv = .ok d.binding := by
      intro d hd
      obtain ⟨b, hb⟩ := h.2 d hd
      rw [hb, Decl.eq_binding_of_verify hb]
    exact ⟨_, value_check_eq_ok_iff.mpr ⟨h.1, hverify, rfl⟩⟩

end Program

/-! ## One declaration -/

/-- What becomes of a declaration.  Each of its parts is looked at only if the ones before it are in
order: the names, the arguments, the body, and the type of the body. -/
inductive Decl.Verdict (env : TypeEnv) (d : Decl) : Except CheckError Binding → Prop where
  | nameMismatch : d.signature.name ≠ d.equation.name →
      Verdict env d (.error (.nameMismatch d.signature.name d.equation.name))
  | arguments {e} : d.signature.name = d.equation.name →
      env.bindArgs d.equation.args (.ofExpr d.signature.type) = .error e → Verdict env d (.error e)
  | body {inner expected e} : d.signature.name = d.equation.name →
      env.bindArgs d.equation.args (.ofExpr d.signature.type) = .ok (inner, expected) →
      d.equation.body.infer inner = .error e → Verdict env d (.error e)
  | wrongResult {inner expected found} : d.signature.name = d.equation.name →
      env.bindArgs d.equation.args (.ofExpr d.signature.type) = .ok (inner, expected) →
      d.equation.body.infer inner = .ok found → found ≠ expected →
      Verdict env d (.error (.typeError (.wrongResultType d.signature.name expected found)))
  | inOrder {inner expected} : d.signature.name = d.equation.name →
      env.bindArgs d.equation.args (.ofExpr d.signature.type) = .ok (inner, expected) →
      d.equation.body.infer inner = .ok expected → Verdict env d (.ok d.binding)

namespace Decl

variable {env : TypeEnv} {d : Decl} {result : Except CheckError Binding}

theorem verdict_verify (env : TypeEnv) (d : Decl) : d.Verdict env (d.verify env) := by
  unfold verify
  by_cases hname : d.signature.name = d.equation.name
  · rw [if_neg (not_not_intro hname)]
    cases hargs : env.bindArgs d.equation.args (.ofExpr d.signature.type) with
    | error e => exact .arguments hname hargs
    | ok bound =>
        obtain ⟨inner, expected⟩ := bound
        show d.Verdict env (d.equation.body.infer inner >>= _)
        cases hbody : d.equation.body.infer inner with
        | error e => exact .body hname hargs hbody
        | ok found =>
            show d.Verdict env (if found = expected then _ else _)
            by_cases hfound : found = expected
            · rw [if_pos hfound]
              exact .inOrder hname hargs (hfound ▸ hbody)
            · rw [if_neg hfound]
              exact .wrongResult hname hargs hbody hfound
  · rw [if_pos hname]
    exact .nameMismatch hname

theorem Verdict.verify_eq (h : d.Verdict env result) : d.verify env = result := by
  unfold verify
  cases h with
  | nameMismatch hname => exact if_pos hname
  | arguments hname hargs =>
      rw [if_neg (not_not_intro hname), hargs]
      rfl
  | body hname hargs hbody =>
      rw [if_neg (not_not_intro hname), hargs]
      show (d.equation.body.infer _ >>= _) = _
      rw [hbody]
      rfl
  | wrongResult hname hargs hbody hfound =>
      rw [if_neg (not_not_intro hname), hargs]
      show (d.equation.body.infer _ >>= _) = _
      rw [hbody]
      exact if_neg hfound
  | inOrder hname hargs hbody =>
      rw [if_neg (not_not_intro hname), hargs]
      show (d.equation.body.infer _ >>= _) = _
      rw [hbody]
      exact if_pos rfl

theorem verify_eq_iff_verdict : d.verify env = result ↔ d.Verdict env result := by
  refine ⟨?_, Verdict.verify_eq⟩
  rintro rfl
  exact verdict_verify env d

end Decl

/-- **The check reports the first error of a fixed order.**  A name that is declared again comes
before everything else, the earliest one first; then the declarations count in their order, each
with the first of its own faults.  Without either the check succeeds, and in no case is a binding
refused.  In an environment from elsewhere a repeated name is found when its declaration was found
to be in order. -/
theorem check_reports_first_error (p : Program) :
    (∀ e, p.check.value = .error e ↔ FirstFault Signature.Redeclares p.signatures e ∨
      p.names.Nodup ∧ ∃ env, p.signatureEnv.value = .ok env ∧
        FirstFault (fun _ d e => d.verify env = .error e) p.decls e) ∧
    ((∃ bs, p.check.value = .ok bs) ↔ p.names.Nodup ∧
      ∃ env, p.signatureEnv.value = .ok env ∧ ∀ d ∈ p.decls, ∃ b, d.verify env = .ok b) ∧
    (p.names.Nodup → ∀ earlier d later, p.decls = earlier ++ d :: later →
      (⟨earlier.map Decl.binding⟩ : Bindings).insert d.binding =
        .ok ⟨(earlier ++ [d]).map Decl.binding⟩) ∧
    (∀ env e, (p.checkIn env).value = .error e ↔ FirstFault (Decl.Fault env) p.decls e) ∧
    ∀ env (d : Decl) result, d.verify env = result ↔ d.Verdict env result := by
  have henv : ∀ Q : TypeEnv → Prop,
      (p.names.Nodup ∧ ∃ env, p.signatureEnv.value = .ok env ∧ Q env) ↔
        p.names.Nodup ∧ Q p.globalEnv := by
    intro Q
    refine and_congr_right fun hnodup => ?_
    simp only [Program.value_signatureEnv_eq_ok_iff, hnodup, true_and, exists_eq_left]
  refine ⟨?_, ?_, ?_, fun _ _ => Program.value_checkIn_eq_error_iff,
    fun _ _ _ => Decl.verify_eq_iff_verdict⟩
  · intro e
    rw [henv, Program.value_check_eq_error_iff]
  · rw [henv, Program.exists_value_check_iff]
  · intro hnodup earlier d later hsplit
    exact Program.insert_binding_of_nodup hnodup hsplit

end Frontend
