import Frontend.Proofs.Lexing.Priority
import Frontend.Proofs.Lexing.Touching
import Frontend.Typing.Bindings

/-!
# Printed expressions are unambiguous

Two expressions with the same text are the same (`render_unambiguous`), as long as the texts that
they are made of are accepted by the recognizers that they are for (`Exp.IsLexical`).

An application and the use of an operator both start with a parenthesis and an expression of any
size, and which of the two it is becomes clear only behind that.  So it takes more than two equal
texts to go on with: `Exp.ReadsOnce` says that a text that starts with a certain expression, and
goes on with a separator, starts with no other expression.  This is shown for each constructor on
its own, from the same for its parts.

Words have no separators in them, so it is clear where they end (`Unbroken.append_inj`).  The atoms
of different kinds have no word in common (`Recognizer.eq_of_accepts`), and no expression starts
with an operator.  A conditional starts with `if`, which might be a name; but then what comes behind
it would be an argument or an operator, and it is neither.
-/

namespace Frontend

open CharClass Recognizer

/-! ## Words and separators -/

/-- The characters around the words of a printed expression. -/
def separators : List Char := [' ', '(', ')', '\n']

def Unbroken (w : List Char) : Prop := ∀ c ∈ w, c ∉ separators

/-- Nothing follows, or a separator. -/
def Delimited (rest : List Char) : Prop := ∀ c ∈ rest.head?, c ∈ separators

section

variable {w w' rest rest' : List Char} {c : Char}

theorem delimited_nil : Delimited [] := by simp [Delimited]

theorem blank_mem : ' ' ∈ separators := by decide

theorem open_mem : '(' ∈ separators := by decide

theorem close_mem : ')' ∈ separators := by decide

theorem newline_mem : '\n' ∈ separators := by decide

theorem delimited_cons (hc : c ∈ separators) : Delimited (c :: rest) := by simpa [Delimited]

theorem Unbroken.takeWhile_append (hw : Unbroken w) (hrest : Delimited rest) :
    (w ++ rest).takeWhile (· ∉ separators) = w := by
  have hstop : rest.takeWhile (· ∉ separators) = [] := by
    cases rest with
    | nil => rfl
    | cons c rest =>
        have hc : c ∈ separators := hrest c rfl
        exact List.takeWhile_cons_of_neg (by simpa using hc)
  have hall : ∀ c ∈ w, decide (c ∉ separators) = true := fun c hc => decide_eq_true (hw c hc)
  rw [List.takeWhile_append_of_pos hall, hstop, List.append_nil]

/-- A word ends in front of the next separator. -/
theorem Unbroken.append_inj (hw : Unbroken w) (hw' : Unbroken w') (hrest : Delimited rest)
    (hrest' : Delimited rest') (h : w ++ rest = w' ++ rest') : w = w' ∧ rest = rest' := by
  have hword : w = w' := by
    calc w = (w ++ rest).takeWhile (· ∉ separators) := (hw.takeWhile_append hrest).symm
      _ = (w' ++ rest').takeWhile (· ∉ separators) := by rw [h]
      _ = w' := hw'.takeWhile_append hrest'
  subst hword
  exact ⟨rfl, List.append_cancel_left h⟩

theorem Unbroken.append_cons_inj (hw : Unbroken w) (hw' : Unbroken w') {s s' : Char}
    (hs : s ∈ separators) (hs' : s' ∈ separators) (h : w ++ s :: rest = w' ++ s' :: rest') :
    w = w' ∧ s = s' ∧ rest = rest' := by
  obtain ⟨hword, hrest⟩ := hw.append_inj hw' (delimited_cons hs) (delimited_cons hs') h
  exact ⟨hword, List.cons.inj hrest⟩

end

/-! ## The words of an expression -/

namespace Recognizer

/-- The recognizers for the atoms of an expression. -/
def atoms : List Recognizer := [identifier, numeral, boolean]

theorem identifier_mem_atoms : identifier ∈ atoms := by simp [atoms]

theorem numeral_mem_atoms : numeral ∈ atoms := by simp [atoms]

theorem boolean_mem_atoms : boolean ∈ atoms := by simp [atoms]

variable {r r' : Recognizer} {w : List Char} {c : Char}

/-- If all recognizers die at certain characters, none of these is in what they accept. -/
theorem notMem_of_accepts_of_all_dead {recognizers : List Recognizer} {ends : List Char}
    (hdead : ∀ r ∈ recognizers, ∀ state < r.stateCount,
      (ends.all fun c => r.next state c == r.dead) = true)
    (hr : r ∈ recognizers) (h : r.accepts w = true) : ∀ c ∈ ends, c ∉ w := by
  intro c hc
  refine notMem_of_accepts h ?_
  intro before
  have hall := hdead r hr (r.run before) (r.run_lt_stateCount before)
  exact beq_iff_eq.mp (List.all_eq_true.mp hall c hc)

theorem unbroken_of_accepts (hr : r ∈ operator :: atoms) (h : r.accepts w = true) :
    Unbroken w := by
  have hdead : ∀ r ∈ operator :: atoms, ∀ state < r.stateCount,
      (separators.all fun c => r.next state c == r.dead) = true := by decide
  intro c hmem hc
  exact notMem_of_accepts_of_all_dead hdead hr h c hc hmem

theorem unbroken_atom (hr : r ∈ atoms) (h : r.accepts w = true) : Unbroken w :=
  unbroken_of_accepts (List.mem_cons_of_mem _ hr) h

theorem unbroken_operator (h : operator.accepts w = true) : Unbroken w :=
  unbroken_of_accepts List.mem_cons_self h

/-- No text is an atom of two kinds. -/
theorem eq_of_accepts (hr : r ∈ atoms) (hr' : r' ∈ atoms) (h : r.accepts w = true)
    (h' : r'.accepts w = true) : r = r' := by
  have hrecognizers : ∀ r ∈ atoms, r ∈ mhRecognizers := by decide
  have hpriorities : ∀ r ∈ atoms, ∀ r' ∈ atoms, (r, r') ∉ priorities := by decide
  by_contra hne
  rcases mem_priorities_of_accepts (hrecognizers r hr) (hrecognizers r' hr') hne h h' with
    hpair | hpair
  · exact hpriorities r hr r' hr' hpair
  · exact hpriorities r' hr' r hr hpair

/-- No atom starts with a symbolic character. -/
theorem not_symbolic_of_accepts (hr : r ∈ atoms) (h : r.accepts (c :: w) = true) :
    symbolic.contains c = false := by
  have hall : ∀ r ∈ atoms, (symbols.all fun c => r.next 0 c == r.dead) = true := by decide
  by_contra hc
  rw [Bool.not_eq_false] at hc
  have hdead := List.all_eq_true.mp (hall r hr) c (List.contains_iff_mem.mp hc)
  rw [accepts_cons_eq_false (beq_iff_eq.mp hdead)] at h
  contradiction

end Recognizer

namespace Exp

/-- The texts in an expression are accepted by the recognizers that they are for.  Keywords may be
used as names. -/
def IsLexical : Exp → Prop
  | var name => identifier.accepts name.toList = true
  | num digits => numeral.accepts digits.toList = true
  | bool text => boolean.accepts text.toList = true
  | app f a => f.IsLexical ∧ a.IsLexical
  | infixOp op l r => operator.accepts op.toList = true ∧ l.IsLexical ∧ r.IsLexical
  | cond c t e => c.IsLexical ∧ t.IsLexical ∧ e.IsLexical
  | lambda x b => identifier.accepts x.toList = true ∧ b.IsLexical

/-- The atom with a text that a recognizer accepts. -/
def atom : Recognizer → String → Exp
  | numeral, text => num text
  | boolean, text => bool text
  | _, text => var text

variable {e f a l r c t b : Exp} {op x : String} {rest rest' : List Char}

/-! ## Printed texts and what follows them -/

theorem render_app_append (f a : Exp) (rest : List Char) : (app f a).render.toList ++ rest =
    '(' :: (f.render.toList ++ ' ' :: (a.render.toList ++ ')' :: rest)) := by
  simp [render]

theorem render_infixOp_append (op : String) (l r : Exp) (rest : List Char) :
    (infixOp op l r).render.toList ++ rest =
      '(' :: (l.render.toList ++ ' ' ::
        (op.toList ++ ' ' :: (r.render.toList ++ ')' :: rest))) := by
  simp [render]

theorem render_cond_append (c t e : Exp) (rest : List Char) :
    (cond c t e).render.toList ++ rest =
      '(' :: ((var "if").render.toList ++ ' ' :: (c.render.toList ++ ' ' ::
        ("then ".toList ++ (t.render.toList ++ ' ' ::
          ("else ".toList ++ (e.render.toList ++ ')' :: rest)))))) := by
  simp [render]

theorem render_lambda_append (x : String) (b : Exp) (rest : List Char) :
    (lambda x b).render.toList ++ rest =
      '(' :: '\\' :: (x.toList ++ ' ' :: ("-> ".toList ++ (b.render.toList ++ ')' :: rest))) := by
  simp [render]

/-! ## How a text starts -/

theorem symbolic_backslash : symbolic.contains '\\' = true := by decide

/-- No expression starts with an operator. -/
theorem render_append_ne_symbol (h : e.IsLexical) {s : Char} (hs : symbolic.contains s = true)
    (rest rest' : List Char) : e.render.toList ++ rest ≠ s :: rest' := by
  have hatom : ∀ {r : Recognizer} {text : String}, r ∈ atoms → r.accepts text.toList = true →
      text.toList ++ rest ≠ s :: rest' := by
    intro r text hr haccepts heq
    obtain ⟨c, w, hw⟩ := List.exists_cons_of_ne_nil (ne_nil_of_accepts haccepts)
    rw [hw] at haccepts heq
    obtain rfl : c = s := (List.cons.inj heq).1
    rw [not_symbolic_of_accepts hr haccepts] at hs
    contradiction
  have hopen : ∀ rest, '(' :: rest ≠ s :: rest' := by
    intro rest heq
    obtain rfl : '(' = s := (List.cons.inj heq).1
    exact absurd hs (by decide)
  cases e with
  | var name => exact hatom identifier_mem_atoms h
  | num digits => exact hatom numeral_mem_atoms h
  | bool text => exact hatom boolean_mem_atoms h
  | app f a => exact render_app_append f a rest ▸ hopen _
  | infixOp op l r => exact render_infixOp_append op l r rest ▸ hopen _
  | cond c t e => exact render_cond_append c t e rest ▸ hopen _
  | lambda x b => exact render_lambda_append x b rest ▸ hopen _

theorem render_append_ne_operator (h : e.IsLexical) (hop : operator.accepts op.toList = true)
    (rest rest' : List Char) : e.render.toList ++ rest ≠ op.toList ++ rest' := by
  obtain ⟨c, w, hw⟩ := List.exists_cons_of_ne_nil (ne_nil_of_accepts hop)
  rw [hw] at hop ⊢
  exact render_append_ne_symbol h (contains_of_accepts rfl hop) _ _

theorem append_ne_open {q : Recognizer} (hq : q ∈ atoms) {w : List Char}
    (h : q.accepts w = true) (rest rest' : List Char) : w ++ rest ≠ '(' :: rest' := by
  intro heq
  obtain ⟨c, v, rfl⟩ := List.exists_cons_of_ne_nil (ne_nil_of_accepts h)
  obtain rfl : c = '(' := (List.cons.inj heq).1
  exact unbroken_atom hq h _ List.mem_cons_self open_mem

/-! ## Unique readings -/

/-- What starts with an expression, and goes on with a separator, starts with no other one. -/
def ReadsOnce (e : Exp) : Prop :=
  ∀ ⦃e' : Exp⦄ ⦃rest rest' : List Char⦄, e'.IsLexical → Delimited rest → Delimited rest' →
    e.render.toList ++ rest = e'.render.toList ++ rest' → e = e' ∧ rest = rest'

theorem readsOnce_atom {q : Recognizer} (hq : q ∈ atoms) {text : String}
    (h : q.accepts text.toList = true) : (atom q text).ReadsOnce := by
  intro e' rest rest' he' hrest hrest' heq
  have hrender : (atom q text).render = text := by cases q <;> rfl
  rw [hrender] at heq
  have hatom : ∀ {p : Recognizer} {text' : String}, p ∈ atoms → p.accepts text'.toList = true →
      text.toList ++ rest = text'.toList ++ rest' →
      atom q text = atom p text' ∧ rest = rest' := by
    intro p text' hp h' heq
    obtain ⟨htext, hafter⟩ :=
      (unbroken_atom hq h).append_inj (unbroken_atom hp h') hrest hrest' heq
    obtain rfl := String.toList_inj.mp htext
    obtain rfl := eq_of_accepts hq hp h h'
    exact ⟨rfl, hafter⟩
  cases e' with
  | var name => exact hatom identifier_mem_atoms he' heq
  | num digits => exact hatom numeral_mem_atoms he' heq
  | bool text' => exact hatom boolean_mem_atoms he' heq
  | app f a =>
      -- all that has parts starts with a parenthesis, which no atom does
      rw [render_app_append] at heq
      exact absurd heq (append_ne_open hq h _ _)
  | infixOp op l r =>
      rw [render_infixOp_append] at heq
      exact absurd heq (append_ne_open hq h _ _)
  | cond c t e =>
      rw [render_cond_append] at heq
      exact absurd heq (append_ne_open hq h _ _)
  | lambda x b =>
      rw [render_lambda_append] at heq
      exact absurd heq (append_ne_open hq h _ _)

theorem isLexical_if : (var "if").IsLexical := by
  have haccepts : identifier.accepts "if".toList = true := by decide
  exact haccepts

theorem readsOnce_if : (var "if").ReadsOnce :=
  readsOnce_atom identifier_mem_atoms isLexical_if

namespace ReadsOnce

theorem append_cons_inj (h : e.ReadsOnce) {e' : Exp} (he' : e'.IsLexical) {s s' : Char}
    (hs : s ∈ separators) (hs' : s' ∈ separators)
    (heq : e.render.toList ++ s :: rest = e'.render.toList ++ s' :: rest') :
    e = e' ∧ s = s' ∧ rest = rest' := by
  obtain ⟨hexp, hrest⟩ := h he' (delimited_cons hs) (delimited_cons hs') heq
  exact ⟨hexp, List.cons.inj hrest⟩

theorem app (hf : f.ReadsOnce) (ha : a.ReadsOnce) (h : (Exp.app f a).IsLexical) :
    (Exp.app f a).ReadsOnce := by
  intro e' rest rest' he' hrest hrest' heq
  rw [render_app_append] at heq
  cases e' with
  | var _ | num _ | bool _ => exact absurd heq.symm (append_ne_open (by decide) he' _ _)
  | app f' a' =>
      rw [render_app_append, List.cons.injEq] at heq
      obtain ⟨rfl, -, harg⟩ := hf.append_cons_inj he'.1 blank_mem blank_mem heq.2
      obtain ⟨rfl, -, hend⟩ := ha.append_cons_inj he'.2 close_mem close_mem harg
      exact ⟨rfl, hend⟩
  | infixOp op l r =>
      -- an operator would stand where the argument does
      rw [render_infixOp_append, List.cons.injEq] at heq
      obtain ⟨-, -, harg⟩ := hf.append_cons_inj he'.2.1 blank_mem blank_mem heq.2
      exact absurd harg (render_append_ne_operator h.2 he'.1 _ _)
  | cond c t e =>
      -- the condition would be the argument, but there is no end behind it
      rw [render_cond_append, List.cons.injEq] at heq
      obtain ⟨-, -, harg⟩ := hf.append_cons_inj isLexical_if blank_mem blank_mem heq.2
      obtain ⟨-, hend, -⟩ := ha.append_cons_inj he'.1 close_mem blank_mem harg
      exact absurd hend (by decide)
  | lambda x b =>
      rw [render_lambda_append, List.cons.injEq] at heq
      exact absurd heq.2 (render_append_ne_symbol h.1 symbolic_backslash _ _)

theorem infixOp (hl : l.ReadsOnce) (hr : r.ReadsOnce) (h : (Exp.infixOp op l r).IsLexical) :
    (Exp.infixOp op l r).ReadsOnce := by
  intro e' rest rest' he' hrest hrest' heq
  rw [render_infixOp_append] at heq
  cases e' with
  | var _ | num _ | bool _ => exact absurd heq.symm (append_ne_open (by decide) he' _ _)
  | app f' a' =>
      -- the argument would have to start with the operator
      rw [render_app_append, List.cons.injEq] at heq
      obtain ⟨-, -, hop⟩ := hl.append_cons_inj he'.1 blank_mem blank_mem heq.2
      exact absurd hop.symm (render_append_ne_operator he'.2 h.1 _ _)
  | infixOp op' l' r' =>
      rw [render_infixOp_append, List.cons.injEq] at heq
      obtain ⟨rfl, -, hop⟩ := hl.append_cons_inj he'.2.1 blank_mem blank_mem heq.2
      obtain ⟨htext, -, hrhs⟩ :=
        (unbroken_operator h.1).append_cons_inj (unbroken_operator he'.1) blank_mem blank_mem hop
      obtain rfl := String.toList_inj.mp htext
      obtain ⟨rfl, -, hend⟩ := hr.append_cons_inj he'.2.2 close_mem close_mem hrhs
      exact ⟨rfl, hend⟩
  | cond c t e =>
      rw [render_cond_append, List.cons.injEq] at heq
      obtain ⟨-, -, hop⟩ := hl.append_cons_inj isLexical_if blank_mem blank_mem heq.2
      exact absurd hop.symm (render_append_ne_operator he'.1 h.1 _ _)
  | lambda x b =>
      rw [render_lambda_append, List.cons.injEq] at heq
      exact absurd heq.2 (render_append_ne_symbol h.2.1 symbolic_backslash _ _)

theorem cond (hc : c.ReadsOnce) (ht : t.ReadsOnce) (he : e.ReadsOnce)
    (h : (Exp.cond c t e).IsLexical) : (Exp.cond c t e).ReadsOnce := by
  intro e' rest rest' he' hrest hrest' heq
  rw [render_cond_append] at heq
  cases e' with
  | var _ | num _ | bool _ => exact absurd heq.symm (append_ne_open (by decide) he' _ _)
  | app f a =>
      -- with `if` for a function, the parenthesis would have to be closed behind the test
      rw [render_app_append, List.cons.injEq] at heq
      obtain ⟨-, -, htest⟩ := readsOnce_if.append_cons_inj he'.1 blank_mem blank_mem heq.2
      obtain ⟨-, hend, -⟩ := hc.append_cons_inj he'.2 blank_mem close_mem htest
      exact absurd hend (by decide)
  | infixOp op l r =>
      rw [render_infixOp_append, List.cons.injEq] at heq
      obtain ⟨-, -, htest⟩ := readsOnce_if.append_cons_inj he'.2.1 blank_mem blank_mem heq.2
      exact absurd htest (render_append_ne_operator h.1 he'.1 _ _)
  | cond c' t' e' =>
      rw [render_cond_append, List.cons.injEq] at heq
      obtain ⟨-, -, htest⟩ := readsOnce_if.append_cons_inj isLexical_if blank_mem blank_mem heq.2
      obtain ⟨rfl, -, hthen⟩ := hc.append_cons_inj he'.1 blank_mem blank_mem htest
      have hyes := List.append_cancel_left hthen
      obtain ⟨rfl, -, helse⟩ := ht.append_cons_inj he'.2.1 blank_mem blank_mem hyes
      have hno := List.append_cancel_left helse
      obtain ⟨rfl, -, hend⟩ := he.append_cons_inj he'.2.2 close_mem close_mem hno
      exact ⟨rfl, hend⟩
  | lambda x b =>
      rw [render_lambda_append, List.cons.injEq] at heq
      exact absurd heq.2 (render_append_ne_symbol isLexical_if symbolic_backslash _ _)

theorem lambda (hb : b.ReadsOnce) (h : (Exp.lambda x b).IsLexical) :
    (Exp.lambda x b).ReadsOnce := by
  intro e' rest rest' he' hrest hrest' heq
  rw [render_lambda_append] at heq
  cases e' with
  | var _ | num _ | bool _ => exact absurd heq.symm (append_ne_open (by decide) he' _ _)
  | app f a =>
      rw [render_app_append, List.cons.injEq] at heq
      exact absurd heq.2.symm (render_append_ne_symbol he'.1 symbolic_backslash _ _)
  | infixOp op l r =>
      rw [render_infixOp_append, List.cons.injEq] at heq
      exact absurd heq.2.symm (render_append_ne_symbol he'.2.1 symbolic_backslash _ _)
  | cond c t e =>
      rw [render_cond_append, List.cons.injEq] at heq
      exact absurd heq.2.symm (render_append_ne_symbol isLexical_if symbolic_backslash _ _)
  | lambda x' b' =>
      rw [render_lambda_append, List.cons.injEq] at heq
      have hword : Unbroken x.toList := unbroken_atom identifier_mem_atoms h.1
      have hword' : Unbroken x'.toList := unbroken_atom identifier_mem_atoms he'.1
      obtain ⟨htext, -, harrow⟩ :=
        hword.append_cons_inj hword' blank_mem blank_mem (List.cons.inj heq.2).2
      obtain rfl := String.toList_inj.mp htext
      have hbody := List.append_cancel_left harrow
      obtain ⟨rfl, -, hend⟩ := hb.append_cons_inj he'.2 close_mem close_mem hbody
      exact ⟨rfl, hend⟩

end ReadsOnce

/-- **Every expression can be read off its text, and so can the place where it ends.** -/
theorem IsLexical.readsOnce {e : Exp} (h : e.IsLexical) : e.ReadsOnce := by
  induction e with
  | var name => exact readsOnce_atom identifier_mem_atoms h
  | num digits => exact readsOnce_atom numeral_mem_atoms h
  | bool text => exact readsOnce_atom boolean_mem_atoms h
  | app f a ihf iha => exact (ihf h.1).app (iha h.2) h
  | infixOp op l r ihl ihr => exact (ihl h.2.1).infixOp (ihr h.2.2) h
  | cond c t e ihc iht ihe => exact (ihc h.1).cond (iht h.2.1) (ihe h.2.2) h
  | lambda x b ih => exact (ih h.2).lambda h

end Exp

/-! ## Bindings -/

/-- The name is accepted as an identifier, and the texts in the expression as what they are. -/
structure Binding.IsLexical (b : Binding) : Prop where
  name : identifier.accepts b.name.toList = true
  exp : b.exp.IsLexical

namespace Bindings

variable {b b' : Binding} {bs bs' : List Binding} {rest rest' : List Char}

theorem render_append_inj (h : b.IsLexical) (h' : b'.IsLexical) (hrest : Delimited rest)
    (hrest' : Delimited rest') (heq : b.render.toList ++ rest = b'.render.toList ++ rest') :
    b = b' ∧ rest = rest' := by
  obtain ⟨name, e⟩ := b
  obtain ⟨name', e'⟩ := b'
  have hrender : ∀ (name : String) (e : Exp) (rest : List Char),
      (Binding.render ⟨name, e⟩).toList ++ rest =
        name.toList ++ ' ' :: ("= ".toList ++ (e.render.toList ++ rest)) := by
    simp [Binding.render]
  have hword : Unbroken name.toList := unbroken_atom identifier_mem_atoms h.name
  have hword' : Unbroken name'.toList := unbroken_atom identifier_mem_atoms h'.name
  rw [hrender, hrender] at heq
  obtain ⟨htext, -, hequals⟩ := hword.append_cons_inj hword' blank_mem blank_mem heq
  obtain rfl := String.toList_inj.mp htext
  obtain ⟨rfl, hend⟩ := h.exp.readsOnce h'.exp hrest hrest' (List.append_cancel_left hequals)
  exact ⟨rfl, hend⟩

/-- The text of bindings that come after others. -/
def laterText (bs : List Binding) : List Char := bs.flatMap fun b => '\n' :: b.render.toList

theorem delimited_laterText (bs : List Binding) : Delimited (laterText bs) := by
  cases bs with
  | nil => exact delimited_nil
  | cons b bs => exact delimited_cons newline_mem

theorem laterText_cons (b : Binding) (bs : List Binding) :
    laterText (b :: bs) = '\n' :: (render ⟨b :: bs⟩).toList := by
  induction bs generalizing b with
  | nil => simp [render, laterText]
  | cons b' bs ih =>
      have hcons : render ⟨b :: b' :: bs⟩ = b.render ++ "\n" ++ render ⟨b' :: bs⟩ :=
        String.intercalate_cons_cons
      have hlater : laterText (b :: b' :: bs) = '\n' :: b.render.toList ++ laterText (b' :: bs) :=
        List.flatMap_cons
      rw [hlater, ih, hcons]
      simp

theorem laterText_inj (h : ∀ b ∈ bs, b.IsLexical) (h' : ∀ b ∈ bs', b.IsLexical)
    (heq : laterText bs = laterText bs') : bs = bs' := by
  induction bs generalizing bs' with
  | nil =>
      cases bs' with
      | nil => rfl
      | cons b' bs' => exact absurd heq (List.cons_ne_nil _ _).symm
  | cons b bs ih =>
      cases bs' with
      | nil => exact absurd heq (List.cons_ne_nil _ _)
      | cons b' bs' =>
          obtain ⟨hb, hbs⟩ := List.forall_mem_cons.mp h
          obtain ⟨hb', hbs'⟩ := List.forall_mem_cons.mp h'
          obtain ⟨rfl, hlater⟩ := render_append_inj hb hb' (delimited_laterText bs)
            (delimited_laterText bs') (List.cons.inj heq).2
          rw [ih hbs hbs' hlater]

theorem render_ne_empty (b : Binding) (bs : List Binding) : render ⟨b :: bs⟩ ≠ "" := by
  intro heq
  have hlater := laterText_cons b bs
  rw [heq] at hlater
  simp [laterText, Binding.render] at hlater

theorem render_inj {bs bs' : Bindings} (h : ∀ b ∈ bs.entries, b.IsLexical)
    (h' : ∀ b ∈ bs'.entries, b.IsLexical) (heq : bs.render = bs'.render) : bs = bs' := by
  obtain ⟨entries⟩ := bs
  obtain ⟨entries'⟩ := bs'
  have hlater : laterText entries = laterText entries' := by
    cases entries with
    | nil =>
        cases entries' with
        | nil => rfl
        | cons b' entries' => exact absurd heq.symm (render_ne_empty b' entries')
    | cons b entries =>
        cases entries' with
        | nil => exact absurd heq (render_ne_empty b entries)
        | cons b' entries' => rw [laterText_cons, laterText_cons, heq]
  exact congrArg Bindings.mk (laterText_inj h h' hlater)

end Bindings

/-- **Printed expressions are unambiguous.**  Expressions with the same text are the same, and so
are bindings with the same text. -/
theorem render_unambiguous :
    (∀ e e' : Exp, e.IsLexical → e'.IsLexical → e.render = e'.render → e = e') ∧
      ∀ bs bs' : Bindings, (∀ b ∈ bs.entries, b.IsLexical) → (∀ b ∈ bs'.entries, b.IsLexical) →
        bs.render = bs'.render → bs = bs' := by
  refine ⟨?_, fun bs bs' h h' heq => Bindings.render_inj h h' heq⟩
  intro e e' h h' heq
  have htext : e.render.toList ++ [] = e'.render.toList ++ [] := by rw [heq]
  exact (h.readsOnce h' delimited_nil delimited_nil htext).1

/-- A conditional as an operand of dashes that would otherwise be a comment, and a binding of a
function that calls itself. -/
theorem render_unambiguous_nested :
    (∃! e : Exp, e.IsLexical ∧ e.render = "((if (f True) then x else 10) -- ((f x) y))") ∧
      ∃! bs : Bindings, (∀ b ∈ bs.entries, b.IsLexical) ∧
        bs.render = "f = (\\x -> (f x))\ny = 1" := by
  obtain ⟨hexp, hbindings⟩ := render_unambiguous
  constructor
  · let e : Exp := .infixOp "--" (.cond (.app (.var "f") (.bool "True")) (.var "x") (.num "10"))
      (.app (.app (.var "f") (.var "x")) (.var "y"))
    have he : e.IsLexical := by
      simp only [e, Exp.IsLexical]
      decide
    exact ⟨e, ⟨he, rfl⟩, fun e' h => hexp e' e h.1 he h.2⟩
  · let bs : Bindings := ⟨[⟨"f", .lambda "x" (.app (.var "f") (.var "x"))⟩, ⟨"y", .num "1"⟩]⟩
    have hbs : ∀ b ∈ bs.entries, b.IsLexical := by
      refine List.forall_mem_cons.mpr
        ⟨⟨by decide, ?_⟩, List.forall_mem_singleton.mpr ⟨by decide, ?_⟩⟩
      all_goals
        simp only [Exp.IsLexical]
        decide
    exact ⟨bs, ⟨hbs, rfl⟩, fun bs' h => hbindings bs' bs h.1 hbs h.2⟩

end Frontend
