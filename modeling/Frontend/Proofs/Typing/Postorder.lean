import Frontend.Proofs.Typing.FirstError

/-!
# Which part of an expression is at fault

Inference may find fault with several parts of one expression and reports one of them.  Which one is
settled by listing the parts in `Exp.postorder`, every node behind its own parts and these from left
to right.  A node by itself can only break the rule for its kind: `Exp.LocalFault` says how, given
the types of the parts of the node, and is silent about a node that has a part without a type.  What
inference reports is the fault of the first node in this order that has one
(`infer_reports_first_fault`).

An expression with a type has no faulty part anywhere (`HasType.typed_postorder`), so the
parts that were inferred before the error came up are all in order, and nothing that is reported
late is reported in place of something earlier.
-/

namespace Frontend

/-! ## When a rule fails -/

theorem error_bind_iff {ε α β : Type} {x : Except ε α} {f : α → Except ε β} {e : ε} :
    x >>= f = .error e ↔ x = .error e ∨ ∃ a, x = .ok a ∧ f a = .error e := by
  cases x <;> simp [bind, Except.bind]

theorem error_mapError_iff {ε ε' α : Type} {x : Except ε α} {f : ε → ε'} {e' : ε'} :
    x.mapError f = .error e' ↔ ∃ e, x = .error e ∧ e' = f e := by
  cases x with
  | ok a => exact ⟨nofun, nofun⟩
  | error e =>
      constructor
      · intro h
        exact ⟨e, rfl, (Except.error.inj h).symm⟩
      · rintro ⟨e, h, rfl⟩
        obtain rfl := Except.error.inj h
        rfl

namespace TypeRule

variable {e : TypeError}

/-- The character in the message is the first one that is no digit. -/
theorem numeral_eq_error_iff {digits : String} :
    numeral digits = .error e ↔ ∃ before c after, digits.toList = before ++ c :: after ∧
      (∀ d ∈ before, d.isDigit = true) ∧ c.isDigit = false ∧
        e = .nonDigitInNumeral digits c := by
  unfold numeral
  split
  · next c hfind =>
      have hsplit := List.find?_eq_some_iff_append.mp hfind
      obtain ⟨hc, before, after, heq, hbefore⟩ := hsplit
      refine ⟨?_, ?_⟩
      · intro h
        exact ⟨before, c, after, heq, by simpa using hbefore, by simpa using hc,
          (Except.error.inj h).symm⟩
      · rintro ⟨before', c', after', heq', hbefore', hc', rfl⟩
        -- there is only one first character that is no digit
        have hfind' : digits.toList.find? (fun d => !d.isDigit) = some c' :=
          List.find?_eq_some_iff_append.mpr
            ⟨by simpa using hc', before', after', heq', by simpa using hbefore'⟩
        rw [hfind] at hfind'
        rw [Option.some.inj hfind']
  · next hfind =>
      refine ⟨nofun, ?_⟩
      rintro ⟨before, c, after, heq, -, hc, -⟩
      have hdigit : c.isDigit = true := by
        have hall : ∀ d ∈ digits.toList, d.isDigit = true := by simpa using hfind
        exact hall c (by simp [heq])
      rw [hc] at hdigit
      contradiction

theorem boolean_eq_error_iff {text : String} :
    boolean text = .error e ↔ text ≠ "True" ∧ text ≠ "False" ∧ e = .notABoolean text := by
  grind [boolean]

theorem application_eq_error_iff {function arg : Ty} :
    application function arg = .error e ↔
      function.isFunction = false ∧ e = .notAFunction function ∨
        ∃ expected result, function = .function expected result ∧ arg ≠ expected ∧
          e = .argumentMismatch expected arg := by
  cases function with
  | integer | bool => simp [application, Ty.isFunction, eq_comm]
  | function expected result => grind [application, Ty.isFunction]

theorem operation_eq_error_iff {op : String} {left right : Ty} :
    operation op left right = .error e ↔
      ¬ (left = .integer ∧ right = .integer) ∧ e = .operandsNotInteger op left right ∨
        left = .integer ∧ right = .integer ∧ op ∉ ["==", "<=", "+", "-"] ∧
          e = .unknownOperator op := by
  have hl := @Ty.isInteger_iff left
  have hr := @Ty.isInteger_iff right
  grind [operation]

theorem conditional_eq_error_iff {test yes no : Ty} :
    conditional test yes no = .error e ↔ test ≠ .bool ∧ e = .conditionNotBool test ∨
      test = .bool ∧ yes ≠ no ∧ e = .branchMismatch yes no := by
  have := @Ty.isBool_iff test
  grind [conditional]

end TypeRule

/-! ## The nodes of an expression -/

namespace Exp

/-- The nodes that inference comes to, each of them behind its parts.  It never enters a lambda. -/
def postorder : Exp → List Exp
  | app f a => f.postorder ++ a.postorder ++ [app f a]
  | infixOp op l r => l.postorder ++ r.postorder ++ [infixOp op l r]
  | cond c t e => c.postorder ++ t.postorder ++ e.postorder ++ [cond c t e]
  | e => [e]

/-- What is wrong with a node if its parts have the types that the rule for the node asks about.
These are the types that inference computes for them (`infer_eq_ok_iff`). -/
inductive LocalFault (env : TypeEnv) : Exp → CheckError → Prop where
  | unknownVariable {name} : env.lookup? name = none →
      LocalFault env (.var name) (.unknownVariable name)
  | nonDigit {digits before c after} : digits.toList = before ++ c :: after →
      (∀ d ∈ before, d.isDigit = true) → c.isDigit = false →
      LocalFault env (.num digits) (.typeError (.nonDigitInNumeral digits c))
  | notABoolean {text} : text ≠ "True" → text ≠ "False" →
      LocalFault env (.bool text) (.typeError (.notABoolean text))
  | notAFunction {f a type arg} : HasType env f type → HasType env a arg →
      type.isFunction = false → LocalFault env (.app f a) (.typeError (.notAFunction type))
  | argumentMismatch {f a expected result found} : HasType env f (.function expected result) →
      HasType env a found → found ≠ expected →
      LocalFault env (.app f a) (.typeError (.argumentMismatch expected found))
  | operandsNotInteger {op l r left right} : HasType env l left → HasType env r right →
      ¬ (left = .integer ∧ right = .integer) →
      LocalFault env (.infixOp op l r) (.typeError (.operandsNotInteger op left right))
  | unknownOperator {op l r} : HasType env l .integer → HasType env r .integer →
      op ∉ ["==", "<=", "+", "-"] →
      LocalFault env (.infixOp op l r) (.typeError (.unknownOperator op))
  | conditionNotBool {c t e test yes no} : HasType env c test → HasType env t yes →
      HasType env e no → test ≠ .bool →
      LocalFault env (.cond c t e) (.typeError (.conditionNotBool test))
  | branchMismatch {c t e yes no} : HasType env c .bool → HasType env t yes → HasType env e no →
      yes ≠ no → LocalFault env (.cond c t e) (.typeError (.branchMismatch yes no))
  | malformed {x b} : LocalFault env (.lambda x b) (.typeError (.malformed .lambda))

end Exp

variable {env : TypeEnv} {e m : Exp} {x : CheckError}

/-- Every node of an expression with a type has a type. -/
theorem HasType.typed_postorder {type : Ty} (h : HasType env e type) :
    ∀ m ∈ e.postorder, ∃ s, HasType env m s := by
  intro m hm
  induction h with
  | var h => exact List.mem_singleton.mp hm ▸ ⟨_, .var h⟩
  | num h => exact List.mem_singleton.mp hm ▸ ⟨_, .num h⟩
  | bool h => exact List.mem_singleton.mp hm ▸ ⟨_, .bool h⟩
  | app hf ha ihf iha =>
      simp only [Exp.postorder, List.mem_append, List.mem_singleton] at hm
      rcases hm with (hm | hm) | rfl
      exacts [ihf hm, iha hm, ⟨_, .app hf ha⟩]
  | compare hop hl hr ihl ihr =>
      simp only [Exp.postorder, List.mem_append, List.mem_singleton] at hm
      rcases hm with (hm | hm) | rfl
      exacts [ihl hm, ihr hm, ⟨_, .compare hop hl hr⟩]
  | compute hop hl hr ihl ihr =>
      simp only [Exp.postorder, List.mem_append, List.mem_singleton] at hm
      rcases hm with (hm | hm) | rfl
      exacts [ihl hm, ihr hm, ⟨_, .compute hop hl hr⟩]
  | cond hc ht he ihc iht ihe =>
      simp only [Exp.postorder, List.mem_append, List.mem_singleton] at hm
      rcases hm with ((hm | hm) | hm) | rfl
      exacts [ihc hm, iht hm, ihe hm, ⟨_, .cond hc ht he⟩]

namespace Exp

/-! ## A node whose parts have types -/

theorem infer_app {f a : Exp} {function arg : Ty} (hf : HasType env f function)
    (ha : HasType env a arg) :
    (app f a).infer env = (TypeRule.application function arg).mapError .typeError := by
  rw [infer, hf.infer, ha.infer]
  rfl

theorem infer_infixOp {op : String} {l r : Exp} {left right : Ty} (hl : HasType env l left)
    (hr : HasType env r right) :
    (infixOp op l r).infer env = (TypeRule.operation op left right).mapError .typeError := by
  rw [infer, hl.infer, hr.infer]
  rfl

theorem infer_cond {c t e : Exp} {test yes no : Ty} (hc : HasType env c test)
    (ht : HasType env t yes) (he : HasType env e no) :
    (cond c t e).infer env = (TypeRule.conditional test yes no).mapError .typeError := by
  rw [infer, hc.infer, ht.infer, he.infer]
  rfl

namespace LocalFault

/-- A node that is at fault has no type, and inference reports the fault. -/
theorem infer_eq (h : m.LocalFault env x) : m.infer env = .error x := by
  cases h with
  | unknownVariable h =>
      exact TypeEnv.typeOf_eq_error_iff.mpr ⟨TypeEnv.notMem_iff.mpr h, rfl⟩
  | nonDigit hsplit hbefore hc =>
      have hrule := TypeRule.numeral_eq_error_iff.mpr ⟨_, _, _, hsplit, hbefore, hc, rfl⟩
      exact error_mapError_iff.mpr ⟨_, hrule, rfl⟩
  | notABoolean htrue hfalse =>
      have hrule := TypeRule.boolean_eq_error_iff.mpr ⟨htrue, hfalse, rfl⟩
      exact error_mapError_iff.mpr ⟨_, hrule, rfl⟩
  | notAFunction hf ha hfunction =>
      rw [infer_app hf ha, error_mapError_iff]
      exact ⟨_, TypeRule.application_eq_error_iff.mpr (.inl ⟨hfunction, rfl⟩), rfl⟩
  | argumentMismatch hf ha hne =>
      rw [infer_app hf ha, error_mapError_iff]
      exact ⟨_, TypeRule.application_eq_error_iff.mpr (.inr ⟨_, _, rfl, hne, rfl⟩), rfl⟩
  | operandsNotInteger hl hr hne =>
      rw [infer_infixOp hl hr, error_mapError_iff]
      exact ⟨_, TypeRule.operation_eq_error_iff.mpr (.inl ⟨hne, rfl⟩), rfl⟩
  | unknownOperator hl hr hop =>
      rw [infer_infixOp hl hr, error_mapError_iff]
      exact ⟨_, TypeRule.operation_eq_error_iff.mpr (.inr ⟨rfl, rfl, hop, rfl⟩), rfl⟩
  | conditionNotBool hc ht he hne =>
      rw [infer_cond hc ht he, error_mapError_iff]
      exact ⟨_, TypeRule.conditional_eq_error_iff.mpr (.inl ⟨hne, rfl⟩), rfl⟩
  | branchMismatch hc ht he hne =>
      rw [infer_cond hc ht he, error_mapError_iff]
      exact ⟨_, TypeRule.conditional_eq_error_iff.mpr (.inr ⟨rfl, hne, rfl⟩), rfl⟩
  | malformed => rfl

theorem not_hasType (h : m.LocalFault env x) (type : Ty) : ¬ HasType env m type := by
  intro htype
  have hinfer := h.infer_eq
  rw [htype.infer] at hinfer
  contradiction

theorem unique {y : CheckError} (h : m.LocalFault env x) (h' : m.LocalFault env y) : x = y :=
  Except.error.inj (h.infer_eq.symm.trans h'.infer_eq)

theorem of_infer_app {f a : Exp} {function arg : Ty} (hf : HasType env f function)
    (ha : HasType env a arg) (h : (app f a).infer env = .error x) :
    (app f a).LocalFault env x := by
  rw [infer_app hf ha, error_mapError_iff] at h
  obtain ⟨y, hrule, rfl⟩ := h
  rcases TypeRule.application_eq_error_iff.mp hrule with ⟨hfunction, rfl⟩ | ⟨_, _, rfl, hne, rfl⟩
  · exact .notAFunction hf ha hfunction
  · exact .argumentMismatch hf ha hne

theorem of_infer_infixOp {op : String} {l r : Exp} {left right : Ty} (hl : HasType env l left)
    (hr : HasType env r right) (h : (infixOp op l r).infer env = .error x) :
    (infixOp op l r).LocalFault env x := by
  rw [infer_infixOp hl hr, error_mapError_iff] at h
  obtain ⟨y, hrule, rfl⟩ := h
  rcases TypeRule.operation_eq_error_iff.mp hrule with ⟨hne, rfl⟩ | ⟨rfl, rfl, hop, rfl⟩
  · exact .operandsNotInteger hl hr hne
  · exact .unknownOperator hl hr hop

theorem of_infer_cond {c t e : Exp} {test yes no : Ty} (hc : HasType env c test)
    (ht : HasType env t yes) (he : HasType env e no)
    (h : (cond c t e).infer env = .error x) : (cond c t e).LocalFault env x := by
  rw [infer_cond hc ht he, error_mapError_iff] at h
  obtain ⟨y, hrule, rfl⟩ := h
  rcases TypeRule.conditional_eq_error_iff.mp hrule with ⟨hne, rfl⟩ | ⟨rfl, hne, rfl⟩
  · exact .conditionNotBool hc ht he hne
  · exact .branchMismatch hc ht he hne

end LocalFault

/-! ## The first node at fault -/

/-- The node `m` stands in a list of nodes with only such before it as have types. -/
def Reached (env : TypeEnv) (nodes : List Exp) (m : Exp) : Prop :=
  ∃ before after, nodes = before ++ m :: after ∧ ∀ n ∈ before, ∃ type, HasType env n type

namespace Reached

variable {nodes nodes' : List Exp}

theorem append_right (h : Reached env nodes m) (nodes' : List Exp) :
    Reached env (nodes ++ nodes') m := by
  obtain ⟨before, after, rfl, htypes⟩ := h
  exact ⟨before, after ++ nodes', by simp, htypes⟩

theorem append_left (htypes : ∀ n ∈ nodes, ∃ type, HasType env n type)
    (h : Reached env nodes' m) : Reached env (nodes ++ nodes') m := by
  obtain ⟨before, after, rfl, htypes'⟩ := h
  refine ⟨nodes ++ before, after, by simp, ?_⟩
  intro n hn
  rcases List.mem_append.mp hn with hn | hn
  · exact htypes n hn
  · exact htypes' n hn

/-- The root comes last. -/
theorem root (env : TypeEnv) (e : Exp) : Reached env [e] e := ⟨[], [], rfl, by simp⟩

end Reached

/-- An error that comes up while a part is inferred, or afterwards: then the part has a type. -/
theorem exists_reached_or_hasType {part : Exp} {nodes : List Exp} {rest : Ty → Except CheckError Ty}
    (ih : ∀ {x}, part.infer env = .error x →
      ∃ m, Reached env part.postorder m ∧ m.LocalFault env x)
    (hreached : ∀ {m}, Reached env part.postorder m → Reached env nodes m)
    (h : part.infer env >>= rest = .error x) :
    (∃ m, Reached env nodes m ∧ m.LocalFault env x) ∨
      ∃ type, HasType env part type ∧ rest type = .error x := by
  rcases error_bind_iff.mp h with hpart | ⟨type, htype, hrest⟩
  · obtain ⟨m, hm, hfault⟩ := ih hpart
    exact .inl ⟨m, hreached hm, hfault⟩
  · exact .inr ⟨type, infer_eq_ok_iff.mp htype, hrest⟩

/-- Wherever an error comes from, all nodes before that node have types. -/
theorem exists_reached_of_infer (h : e.infer env = .error x) :
    ∃ m, Reached env e.postorder m ∧ m.LocalFault env x := by
  induction e generalizing x with
  | var name =>
      obtain ⟨hname, rfl⟩ := TypeEnv.typeOf_eq_error_iff.mp h
      exact ⟨_, .root env _, .unknownVariable (TypeEnv.notMem_iff.mp hname)⟩
  | num digits =>
      obtain ⟨y, hrule, rfl⟩ := error_mapError_iff.mp h
      obtain ⟨_, c, _, hsplit, hbefore, hc, rfl⟩ := TypeRule.numeral_eq_error_iff.mp hrule
      exact ⟨_, .root env _, .nonDigit hsplit hbefore hc⟩
  | bool text =>
      obtain ⟨y, hrule, rfl⟩ := error_mapError_iff.mp h
      obtain ⟨htrue, hfalse, rfl⟩ := TypeRule.boolean_eq_error_iff.mp hrule
      exact ⟨_, .root env _, .notABoolean htrue hfalse⟩
  | app f a ihf iha =>
      -- the parts come before the node: if one of them has an error that is the first one, and if all
      -- have types it is the node that is at fault
      have hsteps := h
      rw [infer] at hsteps
      rcases exists_reached_or_hasType ihf
        (fun hm => (hm.append_right a.postorder).append_right [app f a]) hsteps
        with hfault | ⟨function, hf, hsteps⟩
      · exact hfault
      rcases exists_reached_or_hasType iha
        (fun hm => (hm.append_left hf.typed_postorder).append_right [app f a]) hsteps
        with hfault | ⟨arg, ha, -⟩
      · exact hfault
      have htypes := List.forall_mem_append.mpr ⟨hf.typed_postorder, ha.typed_postorder⟩
      exact ⟨_, .append_left htypes (.root env _), .of_infer_app hf ha h⟩
  | infixOp op l r ihl ihr =>
      have hsteps := h
      rw [infer] at hsteps
      rcases exists_reached_or_hasType ihl
        (fun hm => (hm.append_right r.postorder).append_right [infixOp op l r]) hsteps
        with hfault | ⟨left, hl, hsteps⟩
      · exact hfault
      rcases exists_reached_or_hasType ihr
        (fun hm => (hm.append_left hl.typed_postorder).append_right [infixOp op l r]) hsteps
        with hfault | ⟨right, hr, -⟩
      · exact hfault
      have htypes := List.forall_mem_append.mpr ⟨hl.typed_postorder, hr.typed_postorder⟩
      exact ⟨_, .append_left htypes (.root env _), .of_infer_infixOp hl hr h⟩
  | cond c t e ihc iht ihe =>
      have hsteps := h
      rw [infer] at hsteps
      rcases exists_reached_or_hasType ihc
        (fun hm => ((hm.append_right t.postorder).append_right e.postorder).append_right
          [cond c t e]) hsteps with hfault | ⟨test, hc, hsteps⟩
      · exact hfault
      rcases exists_reached_or_hasType iht
        (fun hm => ((hm.append_left hc.typed_postorder).append_right e.postorder).append_right
          [cond c t e]) hsteps with hfault | ⟨yes, ht, hsteps⟩
      · exact hfault
      have htypes := List.forall_mem_append.mpr ⟨hc.typed_postorder, ht.typed_postorder⟩
      rcases exists_reached_or_hasType ihe
        (fun hm => (hm.append_left htypes).append_right [cond c t e]) hsteps
        with hfault | ⟨no, he, -⟩
      · exact hfault
      have htypes := List.forall_mem_append.mpr ⟨htypes, he.typed_postorder⟩
      exact ⟨_, .append_left htypes (.root env _), .of_infer_cond hc ht he h⟩
  | lambda y b =>
      obtain rfl := Except.error.inj h
      exact ⟨_, .root env _, .malformed⟩

theorem Reached.firstFault {nodes : List Exp} (h : Reached env nodes m)
    (hfault : m.LocalFault env x) : FirstFault (fun _ n => n.LocalFault env) nodes x := by
  obtain ⟨before, after, hsplit, htypes⟩ := h
  refine ⟨before, m, after, hsplit, hfault, ?_⟩
  rintro earlier n later rfl y hn
  obtain ⟨type, htype⟩ := htypes n (by simp)
  exact hn.not_hasType type htype

theorem firstFault_of_infer (h : e.infer env = .error x) :
    FirstFault (fun _ m => m.LocalFault env) e.postorder x := by
  obtain ⟨m, hm, hfault⟩ := exists_reached_of_infer h
  exact hm.firstFault hfault

theorem infer_of_firstFault (h : FirstFault (fun _ m => m.LocalFault env) e.postorder x) :
    e.infer env = .error x := by
  cases hinfer : e.infer env with
  | ok type =>
      obtain ⟨before, m, after, hsplit, hfault, -⟩ := h
      obtain ⟨s, hs⟩ := (infer_eq_ok_iff.mp hinfer).typed_postorder m (by simp [hsplit])
      exact absurd hs (hfault.not_hasType s)
  | error y =>
      rw [(firstFault_of_infer hinfer).unique (fun _ _ _ _ hy hx => hy.unique hx) h]

end Exp

/-- **Inference reports the first node at fault.**  The error is the fault of a node such that no
node before it, in the order in which every node stands behind its own parts, is at fault; these
nodes do not just lack a fault of their own, each of them has a type. -/
theorem infer_reports_first_fault (env : TypeEnv) (e : Exp) (x : CheckError) :
    (e.infer env = .error x ↔ FirstFault (fun _ m => m.LocalFault env) e.postorder x) ∧
      (e.infer env = .error x ↔ ∃ before m after, e.postorder = before ++ m :: after ∧
        (∀ n ∈ before, ∃ type, n.infer env = .ok type) ∧ m.LocalFault env x) := by
  refine ⟨⟨Exp.firstFault_of_infer, Exp.infer_of_firstFault⟩, ?_, ?_⟩
  · intro h
    obtain ⟨m, ⟨before, after, hsplit, htypes⟩, hfault⟩ := Exp.exists_reached_of_infer h
    refine ⟨before, m, after, hsplit, ?_, hfault⟩
    simpa only [infer_eq_ok_iff] using htypes
  · rintro ⟨before, m, after, hsplit, htypes, hfault⟩
    have hreached : Exp.Reached env e.postorder m := by
      refine ⟨before, after, hsplit, ?_⟩
      simpa only [infer_eq_ok_iff] using htypes
    exact Exp.infer_of_firstFault (hreached.firstFault hfault)

end Frontend
