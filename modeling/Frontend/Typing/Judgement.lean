import Frontend.Typing.Infer

/-!
# The typing judgement

`HasType env e t` says that the expression `e` has the type `t`, by the typing rules of the language
and without a word on how to find the type.  There is one rule for each kind of expression, two for
operators, and none for lambdas.

The main statement, `infer_eq_ok_iff`, is that inference finds a type exactly if the expression has
it.  So no expression has two types.
-/

namespace Frontend

inductive HasType (env : TypeEnv) : Exp → Ty → Prop where
  | var {name type} : env.lookup? name = some type → HasType env (.var name) type
  | num {digits} : (∀ c ∈ digits.toList, c.isDigit = true) → HasType env (.num digits) .integer
  | bool {text} : text = "True" ∨ text = "False" → HasType env (.bool text) .bool
  | app {f a arg result} : HasType env f (.function arg result) → HasType env a arg →
      HasType env (.app f a) result
  | compare {op l r} : op = "==" ∨ op = "<=" → HasType env l .integer → HasType env r .integer →
      HasType env (.infixOp op l r) .bool
  | compute {op l r} : op = "+" ∨ op = "-" → HasType env l .integer → HasType env r .integer →
      HasType env (.infixOp op l r) .integer
  | cond {c t e type} : HasType env c .bool → HasType env t type → HasType env e type →
      HasType env (.cond c t e) type

theorem hasType_of_infer {env : TypeEnv} {e : Exp} {type : Ty} (h : e.infer env = .ok type) :
    HasType env e type := by
  induction e generalizing type with
  | var name => exact .var (TypeEnv.typeOf_eq_ok_iff.mp h)
  | num digits =>
    obtain ⟨hd, rfl⟩ := TypeRule.numeral_eq_ok_iff.mp (ok_mapError_iff.mp h)
    exact .num hd
  | bool text =>
    obtain ⟨ht, rfl⟩ := TypeRule.boolean_eq_ok_iff.mp (ok_mapError_iff.mp h)
    exact .bool ht
  | app f a ihf iha =>
    simp only [Exp.infer, ok_bind_iff, ok_mapError_iff, TypeRule.application_eq_ok_iff] at h
    obtain ⟨_, hf, _, ha, rfl⟩ := h
    exact .app (ihf hf) (iha ha)
  | infixOp op l r ihl ihr =>
    simp only [Exp.infer, ok_bind_iff, ok_mapError_iff, TypeRule.operation_eq_ok_iff] at h
    obtain ⟨_, hl, _, hr, rfl, rfl, ⟨hop, rfl⟩ | ⟨hop, rfl⟩⟩ := h
    · exact .compare hop (ihl hl) (ihr hr)
    · exact .compute hop (ihl hl) (ihr hr)
  | cond c t e ihc iht ihe =>
    simp only [Exp.infer, ok_bind_iff, ok_mapError_iff, TypeRule.conditional_eq_ok_iff] at h
    obtain ⟨_, hc, _, ht, _, he, rfl, rfl, rfl⟩ := h
    exact .cond (ihc hc) (iht ht) (ihe he)
  | lambda => simp [Exp.infer] at h

theorem HasType.infer {env : TypeEnv} {e : Exp} {type : Ty} (h : HasType env e type) :
    e.infer env = .ok type := by
  induction h with
  | var h => exact TypeEnv.typeOf_eq_ok_iff.mpr h
  | num h => exact ok_mapError_iff.mpr (TypeRule.numeral_eq_ok_iff.mpr ⟨h, rfl⟩)
  | bool h => exact ok_mapError_iff.mpr (TypeRule.boolean_eq_ok_iff.mpr ⟨h, rfl⟩)
  | app _ _ ihf iha =>
    simp only [Exp.infer, ok_bind_iff, ok_mapError_iff, TypeRule.application_eq_ok_iff]
    exact ⟨_, ihf, _, iha, rfl⟩
  | compare hop _ _ ihl ihr =>
    simp only [Exp.infer, ok_bind_iff, ok_mapError_iff]
    exact ⟨_, ihl, _, ihr, TypeRule.operation_eq_ok_iff.mpr ⟨rfl, rfl, .inl ⟨hop, rfl⟩⟩⟩
  | compute hop _ _ ihl ihr =>
    simp only [Exp.infer, ok_bind_iff, ok_mapError_iff]
    exact ⟨_, ihl, _, ihr, TypeRule.operation_eq_ok_iff.mpr ⟨rfl, rfl, .inr ⟨hop, rfl⟩⟩⟩
  | cond _ _ _ ihc iht ihe =>
    simp only [Exp.infer, ok_bind_iff, ok_mapError_iff, TypeRule.conditional_eq_ok_iff]
    exact ⟨_, ihc, _, iht, _, ihe, rfl, rfl, rfl⟩

/-- **Inference finds a type exactly if the expression has it.** -/
theorem infer_eq_ok_iff {env : TypeEnv} {e : Exp} {type : Ty} :
    e.infer env = .ok type ↔ HasType env e type :=
  ⟨hasType_of_infer, HasType.infer⟩

theorem HasType.unique {env : TypeEnv} {e : Exp} {s t : Ty} (hs : HasType env e s)
    (ht : HasType env e t) : s = t :=
  Except.ok.inj (hs.infer.symm.trans ht.infer)

end Frontend
