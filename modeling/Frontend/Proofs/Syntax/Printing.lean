import Frontend.Proofs.Lexing.Checking
import Frontend.Proofs.Lexing.Touching
import Frontend.Proofs.Typing.Inference
import Frontend.Syntax.Decl

/-!
# Reading back what was printed

The text of a declaration is tokenized into the lexemes of its syntax tree (`tokenize_render`).  The
tree has to be one that a program can be written down as, `Exp.IsSource`: its names, numerals,
booleans and operators are lexemes of their classes.  Whether it can be typed does not matter.

The lexemes are read off the tree (`TypeExpr.lexemes`, `Exp.lexemes`, `Decl.lexemes`) without looking
at how it is printed.  The proof goes over the tree, with one step for each piece of the text, and
`Reads` sees to it that no two pieces run into each other.
-/

namespace Frontend

/-! ## The lexemes of a syntax tree -/

def parenthesized (lexemes : List Lexeme) : List Lexeme :=
  .literal "(" :: lexemes ++ [.literal ")"]

def TypeExpr.isFunction : TypeExpr → Bool
  | function _ _ => true
  | integer | bool => false

/-- The lexemes of a type.  The arguments of an arrow are in parentheses if they are functions. -/
def TypeExpr.lexemes : TypeExpr → List Lexeme
  | integer => [.literal "Integer"]
  | bool => [.literal "Bool"]
  | function arg result =>
    (if arg.isFunction then parenthesized arg.lexemes else arg.lexemes) ++
      [⟨"->", .operator⟩] ++ result.lexemes

namespace Exp

/-- The lexemes of an expression.  Whatever has parts is in parentheses. -/
def lexemes : Exp → List Lexeme
  | var name => [⟨name, .identifier⟩]
  | num digits => [⟨digits, .numeral⟩]
  | bool text => [⟨text, .boolean⟩]
  | app f a => parenthesized (f.lexemes ++ a.lexemes)
  | infixOp op l r => parenthesized (l.lexemes ++ [⟨op, .operator⟩] ++ r.lexemes)
  | cond c t e =>
    parenthesized ([.literal "if"] ++ c.lexemes ++ [.literal "then"] ++ t.lexemes ++
      [.literal "else"] ++ e.lexemes)
  | lambda x b =>
    parenthesized ([⟨"\\", .operator⟩, ⟨x, .identifier⟩, ⟨"->", .operator⟩] ++ b.lexemes)

/-- The texts in an expression are lexemes of the classes that they stand for. -/
def IsSource : Exp → Prop
  | var name => Lexeme.IsWord ⟨name, .identifier⟩
  | num digits => Lexeme.IsWord ⟨digits, .numeral⟩
  | bool text => Lexeme.IsWord ⟨text, .boolean⟩
  | app f a => f.IsSource ∧ a.IsSource
  | infixOp op l r => Lexeme.IsWord ⟨op, .operator⟩ ∧ l.IsSource ∧ r.IsSource
  | cond c t e => c.IsSource ∧ t.IsSource ∧ e.IsSource
  | lambda x b => Lexeme.IsWord ⟨x, .identifier⟩ ∧ b.IsSource

instance decidableIsSource : DecidablePred IsSource
  | var name => inferInstanceAs (Decidable (Lexeme.IsWord ⟨name, .identifier⟩))
  | num digits => inferInstanceAs (Decidable (Lexeme.IsWord ⟨digits, .numeral⟩))
  | bool text => inferInstanceAs (Decidable (Lexeme.IsWord ⟨text, .boolean⟩))
  | app f a =>
    have := decidableIsSource f
    have := decidableIsSource a
    inferInstanceAs (Decidable (f.IsSource ∧ a.IsSource))
  | infixOp op l r =>
    have := decidableIsSource l
    have := decidableIsSource r
    inferInstanceAs (Decidable (Lexeme.IsWord ⟨op, .operator⟩ ∧ l.IsSource ∧ r.IsSource))
  | cond c t e =>
    have := decidableIsSource c
    have := decidableIsSource t
    have := decidableIsSource e
    inferInstanceAs (Decidable (c.IsSource ∧ t.IsSource ∧ e.IsSource))
  | lambda x b =>
    have := decidableIsSource b
    inferInstanceAs (Decidable (Lexeme.IsWord ⟨x, .identifier⟩ ∧ b.IsSource))

/-- The operators that are used in an expression, from left to right. -/
def operators : Exp → List String
  | var _ | num _ | bool _ => []
  | app f a => f.operators ++ a.operators
  | infixOp op l r => l.operators ++ [op] ++ r.operators
  | cond c t e => c.operators ++ t.operators ++ e.operators
  | lambda _ b => b.operators

end Exp

def Signature.lexemes (s : Signature) : List Lexeme :=
  [⟨s.name, .identifier⟩, ⟨"::", .operator⟩] ++ s.type.lexemes ++ [.literal ";"]

def Equation.lexemes (e : Equation) : List Lexeme :=
  (e.name :: e.args).map (⟨·, .identifier⟩) ++ [⟨"=", .operator⟩] ++ e.body.lexemes ++
    [.literal ";"]

def Decl.lexemes (d : Decl) : List Lexeme := d.signature.lexemes ++ d.equation.lexemes

/-- A declaration that can be written down: its names are identifiers, and its body is fit for it.
The two names need not be the same. -/
structure Decl.IsSource (d : Decl) : Prop where
  signature : Lexeme.IsWord ⟨d.signature.name, .identifier⟩
  equation : Lexeme.IsWord ⟨d.equation.name, .identifier⟩
  args : ∀ x ∈ d.equation.args, Lexeme.IsWord ⟨x, .identifier⟩
  body : d.equation.body.IsSource

/-! ## Printed types -/

theorem reads_keyword (text : String) (h : (Lexeme.literal text).IsWord) :
    Reads text [.literal text] := h.reads

theorem reads_operator (op : String) (h : Lexeme.IsWord ⟨op, .operator⟩) :
    Reads op [⟨op, .operator⟩] := h.reads

theorem TypeExpr.render_function (arg result : TypeExpr) :
    (function arg result).render =
      (if arg.isFunction then "(" ++ arg.render ++ ")" else arg.render) ++ " " ++ "->" ++ " " ++
        result.render := by
  cases arg with
  | integer | bool => rfl
  | function a r =>
      have hsplit : ") -> " = ")" ++ " " ++ "->" ++ " " := rfl
      simp only [render, isFunction, if_true, hsplit, String.append_assoc]

theorem TypeExpr.reads_render (type : TypeExpr) : Reads type.render type.lexemes := by
  induction type with
  | integer => exact reads_keyword "Integer" (by decide)
  | bool => exact reads_keyword "Bool" (by decide)
  | function arg result iharg ihresult =>
      have harg : Reads (if arg.isFunction then "(" ++ arg.render ++ ")" else arg.render)
          (if arg.isFunction then parenthesized arg.lexemes else arg.lexemes) := by
        split
        · exact iharg.opened.closed
        · exact iharg
      rw [render_function, lexemes]
      exact (harg.spaced (reads_operator "->" (by decide))).spaced ihresult

/-! ## Printed expressions -/

theorem Exp.render_cond (c t e : Exp) :
    (cond c t e).render = "(" ++ "if" ++ " " ++ c.render ++ " " ++ "then" ++ " " ++ t.render ++
      " " ++ "else" ++ " " ++ e.render ++ ")" := by
  have hif : "(if " = "(" ++ "if" ++ " " := rfl
  have hthen : " then " = " " ++ "then" ++ " " := rfl
  have helse : " else " = " " ++ "else" ++ " " := rfl
  simp only [render, hif, hthen, helse, String.append_assoc]

theorem Exp.render_lambda (x : String) (b : Exp) :
    (lambda x b).render = "(" ++ ("\\" ++ x) ++ " " ++ "->" ++ " " ++ b.render ++ ")" := by
  have hopen : "(\\" = "(" ++ "\\" := rfl
  have harrow : " -> " = " " ++ "->" ++ " " := rfl
  simp only [render, hopen, harrow, String.append_assoc]

theorem Exp.reads_render {e : Exp} (h : e.IsSource) : Reads e.render e.lexemes := by
  induction e with
  | var name | num digits | bool text => exact Lexeme.IsWord.reads h
  | app f a ihf iha => exact ((ihf h.1).opened.spaced (iha h.2)).closed
  | infixOp op l r ihl ihr =>
      obtain ⟨hop, hl, hr⟩ := h
      have hlhs := (ihl hl).opened.spaced (reads_operator op hop)
      exact (hlhs.spaced (ihr hr)).closed
  | cond c t e ihc iht ihe =>
      obtain ⟨hc, ht, he⟩ := h
      have htest := (reads_keyword "if" (by decide)).opened.spaced (ihc hc)
      have hyes := (htest.spaced (reads_keyword "then" (by decide))).spaced (iht ht)
      have hno := (hyes.spaced (reads_keyword "else" (by decide))).spaced (ihe he)
      rw [render_cond]
      exact hno.closed
  | lambda x b ih =>
      have hhead := (Reads.binder h.1).opened.spaced (reads_operator "->" (by decide))
      rw [render_lambda]
      exact (hhead.spaced (ih h.2)).closed

/-! ## Printed declarations -/

theorem reads_names {name : String} {args : List String}
    (h : ∀ x ∈ name :: args, Lexeme.IsWord ⟨x, .identifier⟩) :
    Reads (" ".intercalate (name :: args)) ((name :: args).map (⟨·, .identifier⟩)) := by
  induction args generalizing name with
  | nil =>
      rw [String.intercalate_singleton]
      exact (h name List.mem_cons_self).reads
  | cons x args ih =>
      obtain ⟨hname, hargs⟩ := List.forall_mem_cons.mp h
      rw [String.intercalate_cons_cons]
      exact hname.reads.spaced (ih hargs)

theorem Signature.render_eq (s : Signature) :
    s.render = s.name ++ " " ++ "::" ++ " " ++ s.type.render ++ " " ++ ";" := by
  have hcolons : " :: " = " " ++ "::" ++ " " := rfl
  have hend : " ;" = " " ++ ";" := rfl
  simp only [render, statement, hcolons, hend, String.append_assoc]

theorem Equation.render_eq (e : Equation) :
    e.render = " ".intercalate (e.name :: e.args) ++ " " ++ "=" ++ " " ++ e.body.render ++ " " ++
      ";" := by
  have hequals : " = " = " " ++ "=" ++ " " := rfl
  have hend : " ;" = " " ++ ";" := rfl
  simp only [render, head, hequals, hend, String.append_assoc]

theorem Decl.reads_render {d : Decl} (h : d.IsSource) : Reads d.render d.lexemes := by
  have hsignature : Reads d.signature.render d.signature.lexemes := by
    have hname := h.signature.reads.spaced (reads_operator "::" (by decide))
    rw [Signature.render_eq]
    exact (hname.spaced d.signature.type.reads_render).spaced (reads_keyword ";" (by decide))
  have hequation : Reads d.equation.render d.equation.lexemes := by
    have hhead := (reads_names (List.forall_mem_cons.mpr ⟨h.equation, h.args⟩)).spaced
      (reads_operator "=" (by decide))
    rw [Equation.render_eq]
    exact (hhead.spaced (Exp.reads_render h.body)).spaced (reads_keyword ";" (by decide))
  exact hsignature.join "\n" (by decide) (by decide) hequation

/-! ## Operators among the lexemes -/

/-- The texts of the operators among some lexemes. -/
def operatorsIn (lexemes : List Lexeme) : List String :=
  (lexemes.filter (·.tokenClass = .operator)).map (·.text)

theorem mem_operatorsIn {lexemes : List Lexeme} {l : Lexeme} (hmem : l ∈ lexemes)
    (hclass : l.tokenClass = .operator) : l.text ∈ operatorsIn lexemes :=
  List.mem_map_of_mem (List.mem_filter.mpr ⟨hmem, decide_eq_true hclass⟩)

theorem operatorsIn_append (lexemes lexemes' : List Lexeme) :
    operatorsIn (lexemes ++ lexemes') = operatorsIn lexemes ++ operatorsIn lexemes' := by
  rw [operatorsIn, List.filter_append, List.map_append, ← operatorsIn, ← operatorsIn]

theorem operatorsIn_parenthesized (lexemes : List Lexeme) :
    operatorsIn (parenthesized lexemes) = operatorsIn lexemes := by
  have hopen : operatorsIn [.literal "("] = [] := rfl
  have hclose : operatorsIn [.literal ")"] = [] := rfl
  rw [parenthesized, ← List.singleton_append, operatorsIn_append, operatorsIn_append, hopen, hclose,
    List.nil_append, List.append_nil]

/-- A type has no operators but arrows. -/
theorem TypeExpr.eq_arrow_of_mem_operatorsIn {type : TypeExpr} :
    ∀ op ∈ operatorsIn type.lexemes, op = "->" := by
  induction type with
  | integer | bool => exact List.forall_mem_nil _
  | function arg result iharg ihresult =>
      have harg : operatorsIn (if arg.isFunction then parenthesized arg.lexemes else arg.lexemes) =
          operatorsIn arg.lexemes := by
        split
        · exact operatorsIn_parenthesized _
        · rfl
      rw [lexemes, operatorsIn_append, operatorsIn_append, harg]
      intro op hmem
      rcases List.mem_append.mp hmem with hmem | hresult
      · rcases List.mem_append.mp hmem with hmem | harrow
        · exact iharg op hmem
        · exact List.mem_singleton.mp harrow
      · exact ihresult op hresult

/-- The operators in the text of an expression are those of the expression, if there is no lambda. -/
theorem Exp.operatorsIn_lexemes {e : Exp} (h : e.hasLambda = false) :
    operatorsIn e.lexemes = e.operators := by
  induction e with
  | var name | num digits | bool text => rfl
  | app f a ihf iha =>
      obtain ⟨hf, ha⟩ := Bool.or_eq_false_iff.mp h
      rw [lexemes, operatorsIn_parenthesized, operatorsIn_append, ihf hf, iha ha, operators]
  | infixOp op l r ihl ihr =>
      obtain ⟨hl, hr⟩ := Bool.or_eq_false_iff.mp h
      have hop : operatorsIn [⟨op, .operator⟩] = [op] := rfl
      rw [lexemes, operatorsIn_parenthesized, operatorsIn_append, operatorsIn_append, ihl hl, ihr hr,
        hop, operators]
  | cond c t e ihc iht ihe =>
      obtain ⟨hct, he⟩ := Bool.or_eq_false_iff.mp h
      obtain ⟨hc, ht⟩ := Bool.or_eq_false_iff.mp hct
      have hkeywords : operatorsIn [.literal "if"] = [] ∧ operatorsIn [.literal "then"] = [] ∧
          operatorsIn [.literal "else"] = [] := ⟨rfl, rfl, rfl⟩
      simp only [lexemes, operatorsIn_parenthesized, operatorsIn_append, ihc hc, iht ht, ihe he,
        hkeywords, operators, List.nil_append, List.append_nil]
  | lambda x b => contradiction

theorem operatorsIn_names (names : List String) :
    operatorsIn (names.map (⟨·, .identifier⟩)) = [] := by
  induction names with
  | nil => rfl
  | cons name names ih => exact ih

theorem Signature.operatorsIn_lexemes (s : Signature) :
    operatorsIn s.lexemes = "::" :: operatorsIn s.type.lexemes := by
  have hhead : operatorsIn [⟨s.name, .identifier⟩, ⟨"::", .operator⟩] = ["::"] := rfl
  have hend : operatorsIn [.literal ";"] = [] := rfl
  rw [lexemes, operatorsIn_append, operatorsIn_append, hhead, hend, List.append_nil,
    List.singleton_append]

theorem Equation.operatorsIn_lexemes {e : Equation} (h : e.body.hasLambda = false) :
    operatorsIn e.lexemes = "=" :: e.body.operators := by
  have hequals : operatorsIn [⟨"=", .operator⟩] = ["="] := rfl
  have hend : operatorsIn [.literal ";"] = [] := rfl
  rw [lexemes, operatorsIn_append, operatorsIn_append, operatorsIn_append, operatorsIn_names,
    Exp.operatorsIn_lexemes h, hequals, hend, List.append_nil, List.nil_append,
    List.singleton_append]

theorem Decl.mem_mhOperators_of_mem_operatorsIn {d : Decl}
    (hlambda : d.equation.body.hasLambda = false)
    (hoperators : ∀ op ∈ d.equation.body.operators, op ∈ mhOperators) :
    ∀ op ∈ operatorsIn d.lexemes, op ∈ mhOperators := by
  rw [lexemes, operatorsIn_append, Signature.operatorsIn_lexemes,
    Equation.operatorsIn_lexemes hlambda]
  simp only [List.forall_mem_append, List.forall_mem_cons]
  refine ⟨⟨by decide, ?_⟩, by decide, hoperators⟩
  intro op hop
  rw [TypeExpr.eq_arrow_of_mem_operatorsIn op hop]
  decide

/-- **Printing and tokenizing agree.**  The text of a declaration is tokenized into the lexemes of
its syntax tree, and if its body has no lambda and no operators but those that can be computed
with, the lexer that checks operators accepts the text as well. -/
theorem tokenize_render (d : Decl) (h : d.IsSource) :
    (∃ tokens, (tokenize mhRecognizers d.render.toList).value = .ok tokens ∧
        tokens.map Located.value = d.lexemes) ∧
      (d.equation.body.hasLambda = false →
        (∀ op ∈ d.equation.body.operators, op ∈ ["==", "<=", "+", "-"]) →
        ∃ tokens, (TokenStream.collect
            (OperatorCheck.of (Lexer.start mhRecognizers false d.render.toList))).value =
              .ok tokens ∧
          tokens.map Located.value = d.lexemes.map Lexeme.checked) := by
  have hyields := (Decl.reads_render h).yields
  refine ⟨hyields.tokenize, ?_⟩
  intro hlambda hoperators
  obtain ⟨tokens, hitems, hvalues⟩ := hyields.items
  have hlanguage : ∀ op ∈ ["==", "<=", "+", "-"], op ∈ mhOperators := by decide
  have hknown : ∀ token ∈ tokens,
      token.value.tokenClass = .operator → token.value.text ∈ mhOperators := by
    intro token hmem hclass
    have hlexeme : token.value ∈ d.lexemes := hvalues ▸ List.mem_map_of_mem hmem
    exact Decl.mem_mhOperators_of_mem_operatorsIn hlambda
      (fun op hop => hlanguage op (hoperators op hop)) _ (mem_operatorsIn hlexeme hclass)
  refine ⟨_, OperatorCheck.collect_of_items hitems hknown, ?_⟩
  rw [← hvalues, List.map_map, List.map_map]
  rfl

/-- An argument that is a function, and pieces that touch: a quote and a numeral in front of a closing
parenthesis, and dashes behind a blank. -/
theorem tokenize_render_nested :
    let type : TypeExpr := .function (.function .integer .bool) (.function .integer .integer)
    let body : Exp := .cond (.app (.var "p") (.var "x'"))
      (.infixOp "-" (.var "x'") (.num "10")) (.app (.var "f'") (.bool "True"))
    let d : Decl := ⟨⟨"f'", type⟩, ⟨"f'", ["p", "x'"], body⟩⟩
    d.render = "f' :: (Integer -> Bool) -> Integer -> Integer ;\n" ++
        "f' p x' = (if (p x') then (x' - 10) else (f' True)) ;" ∧
      d.IsSource ∧ body.hasLambda = false ∧ (∀ op ∈ body.operators, op ∈ ["==", "<=", "+", "-"]) ∧
      (∃ tokens, (tokenize mhRecognizers d.render.toList).value = .ok tokens ∧
        tokens.map Located.value = d.lexemes) ∧
      ∃ tokens, (TokenStream.collect
          (OperatorCheck.of (Lexer.start mhRecognizers false d.render.toList))).value =
            .ok tokens ∧
        tokens.map Located.value = d.lexemes.map Lexeme.checked := by
  intro type body d
  have hsource : d.IsSource := ⟨by decide, by decide, by decide, by decide⟩
  have hlambda : body.hasLambda = false := rfl
  have hoperators : ∀ op ∈ body.operators, op ∈ ["==", "<=", "+", "-"] := by decide
  obtain ⟨hread, hchecked⟩ := tokenize_render d hsource
  exact ⟨rfl, hsource, hlambda, hoperators, hread, hchecked hlambda hoperators⟩

end Frontend
