import Frontend.Proofs.Typing.Arguments
import Frontend.Proofs.Typing.Inference

/-!
# Typing curried definitions

The rules of the checker do not cover lambdas, so they say nothing about the closures that a check
exports.  `HasCurriedType` has the same rules and one more: a lambda is a function to the type of
its body, if its argument is given some type for the body.  This is a judgement about contexts.  In
particular an argument may hide another name here, which no environment of the checker allows.

On expressions without lambdas the two judgements agree (`hasType_iff_hasCurriedType`), and a
closure has a type exactly if the body has what is left of it once the arguments are given their
types (`hasCurriedType_closure_iff`).
-/

namespace Frontend

inductive HasCurriedType : Context → Exp → Ty → Prop where
  | var {Γ name type} : Γ name = some type → HasCurriedType Γ (.var name) type
  | num {Γ digits} : (∀ c ∈ digits.toList, c.isDigit = true) →
      HasCurriedType Γ (.num digits) .integer
  | bool {Γ text} : text = "True" ∨ text = "False" → HasCurriedType Γ (.bool text) .bool
  | app {Γ f a arg result} : HasCurriedType Γ f (.function arg result) → HasCurriedType Γ a arg →
      HasCurriedType Γ (.app f a) result
  | compare {Γ op l r} : op = "==" ∨ op = "<=" → HasCurriedType Γ l .integer →
      HasCurriedType Γ r .integer → HasCurriedType Γ (.infixOp op l r) .bool
  | compute {Γ op l r} : op = "+" ∨ op = "-" → HasCurriedType Γ l .integer →
      HasCurriedType Γ r .integer → HasCurriedType Γ (.infixOp op l r) .integer
  | cond {Γ c t e type} : HasCurriedType Γ c .bool → HasCurriedType Γ t type →
      HasCurriedType Γ e type → HasCurriedType Γ (.cond c t e) type
  | lambda {Γ x b arg result} : HasCurriedType (Γ.push x arg) b result →
      HasCurriedType Γ (.lambda x b) (.function arg result)

variable {env : TypeEnv} {Γ : Context} {e body : Exp} {type : Ty} {args : List String}

/-! ## Without lambdas -/

theorem HasType.hasCurriedType (h : HasType env e type) :
    HasCurriedType env.lookup? e type := by
  induction h with
  | var hname => exact .var hname
  | num hdigits => exact .num hdigits
  | bool htext => exact .bool htext
  | app _ _ ihf iha => exact .app ihf iha
  | compare hop _ _ ihl ihr => exact .compare hop ihl ihr
  | compute hop _ _ ihl ihr => exact .compute hop ihl ihr
  | cond _ _ _ ihc iht ihe => exact .cond ihc iht ihe

theorem HasCurriedType.hasType (h : HasCurriedType Γ e type) (hΓ : env.lookup? = Γ)
    (hlambda : e.hasLambda = false) : HasType env e type := by
  induction h with
  | var hname => exact .var (by rw [hΓ]; exact hname)
  | num hdigits => exact .num hdigits
  | bool htext => exact .bool htext
  | app _ _ ihf iha =>
      obtain ⟨hf, ha⟩ := Bool.or_eq_false_iff.mp hlambda
      exact .app (ihf hΓ hf) (iha hΓ ha)
  | compare hop _ _ ihl ihr =>
      obtain ⟨hl, hr⟩ := Bool.or_eq_false_iff.mp hlambda
      exact .compare hop (ihl hΓ hl) (ihr hΓ hr)
  | compute hop _ _ ihl ihr =>
      obtain ⟨hl, hr⟩ := Bool.or_eq_false_iff.mp hlambda
      exact .compute hop (ihl hΓ hl) (ihr hΓ hr)
  | cond _ _ _ ihc iht ihe =>
      obtain ⟨hct, he⟩ := Bool.or_eq_false_iff.mp hlambda
      obtain ⟨hc, ht⟩ := Bool.or_eq_false_iff.mp hct
      exact .cond (ihc hΓ hc) (iht hΓ ht) (ihe hΓ he)
  | lambda => simp [Exp.hasLambda] at hlambda

/-- What the checker can type is what can be typed without a lambda. -/
theorem hasType_iff_hasCurriedType :
    HasType env e type ↔ e.hasLambda = false ∧ HasCurriedType env.lookup? e type :=
  ⟨fun h => ⟨h.hasLambda_eq_false, h.hasCurriedType⟩, fun h => h.2.hasType rfl h.1⟩

/-! ## Chains of lambdas -/

theorem hasCurriedType_lambda_iff {x : String} :
    HasCurriedType Γ (.lambda x body) type ↔
      ∃ arg result, type = .function arg result ∧ HasCurriedType (Γ.push x arg) body result := by
  refine ⟨?_, ?_⟩
  · intro h
    cases h with
    | lambda hbody => exact ⟨_, _, rfl, hbody⟩
  · intro h
    obtain ⟨arg, result, rfl, hbody⟩ := h
    exact .lambda hbody

theorem hasCurriedType_closure_iff :
    HasCurriedType Γ (.closure args body) type ↔ ∃ types rest, types.length = args.length ∧
      type = Ty.arrows types rest ∧ HasCurriedType (Γ.extend (args.zip types)) body rest := by
  induction args generalizing Γ type with
  | nil =>
      refine ⟨fun h => ⟨[], type, rfl, rfl, h⟩, ?_⟩
      intro h
      obtain ⟨types, rest, hlength, rfl, hbody⟩ := h
      obtain rfl := List.eq_nil_of_length_eq_zero hlength
      exact hbody
  | cons x args ih =>
      rw [Exp.closure_cons, hasCurriedType_lambda_iff]
      refine ⟨?_, ?_⟩
      · intro h
        obtain ⟨arg, result, rfl, hclosure⟩ := h
        obtain ⟨types, rest, hlength, rfl, hbody⟩ := ih.mp hclosure
        exact ⟨arg :: types, rest, congrArg Nat.succ hlength, rfl, hbody⟩
      · intro h
        obtain ⟨types, rest, hlength, rfl, hbody⟩ := h
        cases types with
        | nil => simp at hlength
        | cons arg types =>
            have hclosure := ih.mpr ⟨types, rest, Nat.succ.inj hlength, rfl, hbody⟩
            exact ⟨arg, Ty.arrows types rest, rfl, hclosure⟩

end Frontend
