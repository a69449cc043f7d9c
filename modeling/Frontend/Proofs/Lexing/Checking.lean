import Frontend.Lexing.Operators

/-!
# Streams of checked operators

A stream that checks the operators of another one hands out the items of that stream one for one,
each of them checked, until the first of them is an error (`OperatorCheck.items_of`).  So what is
collected of it can be read off a list: it is the first error in that list, or else all of it
(`TokenStream.value_collect`), and it is an error exactly if some item is
(`TokenStream.isOk_collect`).
-/

namespace Frontend

open TokenStream (items collect)

/-- A list of items up to its first error, that one included. -/
def untilError : List Item → List Item
  | [] => []
  | .ok token :: rest => .ok token :: untilError rest
  | .error e :: _ => [.error e]

/-- An item, with its operator checked if it has one. -/
def Item.checkOperator (item : Item) : Item := item.bind Token.checkOperator

/-- What a lexeme becomes if the language has its operator: a class of its own for each of them. -/
def Lexeme.checked (l : Lexeme) : Lexeme :=
  if l.tokenClass = .operator then ⟨l.text, ⟨l.text⟩⟩ else l

theorem Item.checkOperator_ok {token : Token}
    (h : token.value.tokenClass = .operator → token.value.text ∈ mhOperators) :
    checkOperator (.ok token) = .ok (token.map Lexeme.checked) := by
  show token.checkOperator = _
  by_cases hclass : token.value.tokenClass = .operator
  · simp only [Token.checkOperator, hclass, h hclass, Located.map, Lexeme.checked, ne_eq,
      not_true_eq_false, if_true, if_false]
  · simp only [Token.checkOperator, hclass, Located.map, Lexeme.checked, ne_eq, not_false_eq_true,
      if_true, if_false]

theorem untilError_map_ok (tokens : List Token) :
    untilError (tokens.map .ok) = tokens.map .ok := by
  induction tokens with
  | nil => rfl
  | cons token tokens ih => rw [List.map_cons, untilError, ih]

theorem untilError_isPrefix (l : List Item) : untilError l <+: l := by
  fun_induction untilError l with
  | case1 => exact List.prefix_rfl
  | case2 token rest ih => exact (List.prefix_cons_inj _).mpr ih
  | case3 e rest => exact (List.prefix_cons_inj _).mpr (List.nil_prefix)

theorem isOk_mapM_id (l : List Item) : (l.mapM id).isOk = l.all Except.isOk := by
  induction l with
  | nil => rfl
  | cons item l ih =>
      rw [List.mapM_cons, List.all_cons, ← ih]
      cases item with
      | error e => rfl
      | ok token => cases l.mapM id <;> rfl

theorem mapM_id_eq_ok_iff {l : List Item} {tokens : List Token} :
    l.mapM id = .ok tokens ↔ l = tokens.map .ok := by
  constructor
  · intro h
    induction l generalizing tokens with
    | nil =>
        obtain rfl : [] = tokens := Except.ok.inj h
        rfl
    | cons item l ih =>
        rw [List.mapM_cons] at h
        cases item with
        | error e => contradiction
        | ok token =>
            cases hrest : l.mapM id with
            | error e =>
                rw [hrest] at h
                contradiction
            | ok rest =>
                rw [hrest] at h
                obtain rfl : token :: rest = tokens := Except.ok.inj h
                rw [ih hrest, List.map_cons]
  · rintro rfl
    have hpure : (tokens.map Except.ok : List Item).mapM id = pure (tokens.map id) := by
      rw [List.mapM_map]
      exact List.mapM_pure
    rw [hpure, List.map_id]
    rfl

section

variable {σ : Type} [TokenStream σ]

theorem TokenStream.value_collect_eq_ok_iff {s : σ} {tokens : List Token} :
    (collect s).value = .ok tokens ↔ items s = tokens.map .ok := by
  rw [value_collect, mapM_id_eq_ok_iff]

theorem TokenStream.isOk_collect (s : σ) :
    (collect s).value.isOk = (items s).all Except.isOk := by
  rw [value_collect, isOk_mapM_id]

namespace OperatorCheck

theorem next_of_finished {s : OperatorCheck σ} (h : s.finished = true) :
    TokenStream.next s = pure (none, s) := if_pos h

theorem items_of_finished {s : OperatorCheck σ} (h : s.finished = true) : items s = [] :=
  TokenStream.items_of_none (next_of_finished h)

theorem next_of_next_inner {s : OperatorCheck σ} {answer : Option Item} {rest : σ}
    {events : List Event} (hf : s.finished = false)
    (h : TokenStream.next s.inner = ⟨(answer, rest), events⟩) :
    TokenStream.next s = ⟨(answer.map Item.checkOperator,
      ⟨rest, (answer.map Item.checkOperator).any fun i => !i.isOk⟩), events⟩ := by
  show s.next = _
  rw [next, if_neg (by simp [hf]), h]
  exact congrArg (Traced.mk _) (List.append_nil events)

/-- **A checked stream has the items of the other one, each of them checked, up to the first that is
an error.** -/
theorem items_of_not_finished {s : OperatorCheck σ} (hf : s.finished = false) :
    items s = untilError ((items s.inner).map Item.checkOperator) := by
  -- by the number of items to come, of which each call takes one
  induction hn : TokenStream.remaining s.inner using Nat.strongRecOn generalizing s with
  | _ n ih =>
  rcases hinner : TokenStream.next s.inner with ⟨⟨answer, rest⟩, events⟩
  have hnext := next_of_next_inner hf hinner
  cases answer with
  | none => rw [TokenStream.items_of_none hnext, TokenStream.items_of_none hinner]; rfl
  | some item =>
      have hless : TokenStream.remaining rest < n := hn ▸ TokenStream.remaining_lt hinner
      rw [Option.map_some] at hnext
      rw [TokenStream.items_of_some hnext, TokenStream.items_of_some hinner, List.map_cons]
      cases item.checkOperator with
      | error e => rw [items_of_finished rfl, untilError]
      | ok token => rw [ih _ hless rfl rfl, untilError]

theorem items_of (s : σ) :
    items (OperatorCheck.of s) = untilError ((items s).map Item.checkOperator) :=
  items_of_not_finished rfl

/-- If all that there is are tokens, and the language has their operators, all of it is collected. -/
theorem collect_of_items {s : σ} {tokens : List Token} (hitems : items s = tokens.map .ok)
    (hknown : ∀ token ∈ tokens,
      token.value.tokenClass = .operator → token.value.text ∈ mhOperators) :
    (collect (OperatorCheck.of s)).value = .ok (tokens.map (·.map Lexeme.checked)) := by
  have hchecked : (items s).map Item.checkOperator =
      (tokens.map (·.map Lexeme.checked)).map .ok := by
    rw [hitems, List.map_map, List.map_map]
    exact List.map_congr_left fun token hmem => Item.checkOperator_ok (hknown token hmem)
  rw [TokenStream.value_collect_eq_ok_iff, items_of, hchecked, untilError_map_ok]

end OperatorCheck

end

end Frontend
