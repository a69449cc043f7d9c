import Frontend.Proofs.Typing.Postorder
import Frontend.Proofs.Typing.Spine
import Mathlib.Data.List.Basic
import Mathlib.Data.Option.NAry

/-!
# The text of a type

A type is read off its text by looking for the first arrow that stands in no parentheses
(`Ty.cutAtArrow`).  What is in front of that arrow is the argument, a word or a function in
parentheses, and all that comes behind it is the result; without such an arrow the text is a word.
This is `Ty.read?`, and it accepts the texts that are printed and no others
(`Ty.read?_eq_some_iff`), so every type has a text of its own.

The text of a type has arrows inside, and so has the text of its argument.  They do not get in the
way: in parentheses the search passes over a whole type, however its own parentheses are nested
(`Ty.passes_render`).

Type expressions are printed as the types that they stand for.  Where an error sets one type against
another, `TypeError.Contrasts`, the two are different, and so they are shown as different texts.
-/

namespace Frontend

namespace Ty

/-! ## Reading a type -/

def arrowText : List Char := [' ', '-', '>', ' ']

/-- The number of open parentheses after a character. -/
def depthAfter (depth : ℕ) (c : Char) : ℕ :=
  if c = '(' then depth + 1 else if c = ')' then depth - 1 else depth

/-- Cuts a text at its first arrow that stands in no parentheses, if `depth` of them are open at the
start. -/
def cutAtArrow : ℕ → List Char → Option (List Char × List Char)
  | _, [] => none
  | depth, c :: rest =>
    if depth = 0 ∧ arrowText <+: c :: rest then some ([], (c :: rest).drop arrowText.length)
    else (cutAtArrow (depthAfter depth c) rest).map fun p => (c :: p.1, p.2)

/-- The types that are words. -/
def ofWord? (text : List Char) : Option Ty :=
  if text = "Integer".toList then some integer
  else if text = "Bool".toList then some bool
  else none

/-- What stands between two parentheses. -/
def unwrap? : List Char → Option (List Char)
  | [] => none
  | c :: rest => if c = '(' ∧ rest.getLast? = some ')' then some rest.dropLast else none

theorem eq_of_cutAtArrow {depth : ℕ} {text before after : List Char}
    (h : cutAtArrow depth text = some (before, after)) : text = before ++ arrowText ++ after := by
  induction text generalizing depth before with
  | nil => contradiction
  | cons c rest ih =>
      unfold cutAtArrow at h
      split at h
      · next harrow =>
          obtain ⟨-, tail, htail⟩ := harrow
          obtain ⟨rfl, rfl⟩ := Prod.mk.inj (Option.some.inj h)
          rw [← htail, List.drop_left, List.nil_append]
      · obtain ⟨⟨before', after'⟩, hrest, heq⟩ := Option.map_eq_some_iff.mp h
        obtain ⟨rfl, rfl⟩ := Prod.mk.inj heq
        rw [ih hrest, List.cons_append, List.cons_append]

theorem eq_of_unwrap? {text inner : List Char} (h : unwrap? text = some inner) :
    text = '(' :: (inner ++ [')']) := by
  unfold unwrap? at h
  split at h
  · contradiction
  · split at h
    · next hends =>
        obtain ⟨rfl, hlast⟩ := hends
        obtain rfl := Option.some.inj h
        rw [List.dropLast_append_getLast? ')' hlast]
    · contradiction

theorem unwrap?_wrapped (inner : List Char) : unwrap? ('(' :: (inner ++ [')'])) = some inner := by
  simp [unwrap?]

theorem length_lt_of_cutAtArrow {depth : ℕ} {text before after : List Char}
    (h : cutAtArrow depth text = some (before, after)) :
    before.length < text.length ∧ after.length < text.length := by
  have hlength := congrArg List.length (eq_of_cutAtArrow h)
  simp only [List.length_append, arrowText, List.length_cons, List.length_nil] at hlength
  omega

theorem length_lt_of_unwrap? {text inner : List Char} (h : unwrap? text = some inner) :
    inner.length < text.length := by
  have hlength := congrArg List.length (eq_of_unwrap? h)
  simp only [List.length_cons, List.length_append, List.length_nil] at hlength
  omega

/-- Reads a type.  The arrow associates to the right, and parentheses are around the arguments that
are functions and around nothing else. -/
def read? (text : List Char) : Option Ty :=
  match _h : cutAtArrow 0 text with
  | none => ofWord? text
  | some (arg, result) =>
    Option.map₂ function
      (match _h' : unwrap? arg with
        | none => ofWord? arg
        | some inner => (read? inner).filter isFunction)
      (read? result)
termination_by text.length
decreasing_by
  · exact Nat.lt_trans (length_lt_of_unwrap? _h') (length_lt_of_cutAtArrow _h).1
  · exact (length_lt_of_cutAtArrow _h).2

/-- Reads the argument of an arrow. -/
def readArg? (text : List Char) : Option Ty :=
  match unwrap? text with
  | none => ofWord? text
  | some inner => (read? inner).filter isFunction

theorem read?_of_none {text : List Char} (h : cutAtArrow 0 text = none) :
    read? text = ofWord? text := by
  rw [read?]
  split <;> simp_all

theorem read?_of_some {text arg result : List Char} (h : cutAtArrow 0 text = some (arg, result)) :
    read? text = Option.map₂ function (readArg? arg) (read? result) := by
  rw [read?]
  split
  · simp_all
  · next arg' result' h' =>
      rw [h'] at h
      obtain ⟨rfl, rfl⟩ := Prod.mk.inj (Option.some.inj h)
      rw [readArg?]
      split <;> simp_all

/-! ## What the search for an arrow passes over -/

/-- The text of a type as the argument of an arrow. -/
def argText (t : Ty) : List Char :=
  if t.isFunction then '(' :: (t.render.toList ++ [')']) else t.render.toList

theorem render_function (arg result : Ty) :
    (function arg result).render.toList = arg.argText ++ (arrowText ++ result.render.toList) := by
  rw [render, argText, arrowText]
  split <;> simp

/-- The search finds no arrow in `w`, and behind it has as many open parentheses as before. -/
def Passes (depth : ℕ) (w : List Char) : Prop :=
  ∀ rest, cutAtArrow depth (w ++ rest) = (cutAtArrow depth rest).map fun p => (w ++ p.1, p.2)

section

variable {depth : ℕ} {c : Char} {v w rest : List Char}

theorem cutAtArrow_cons (h : depth = 0 → c ≠ ' ') : cutAtArrow depth (c :: rest) =
    (cutAtArrow (depthAfter depth c) rest).map fun p => (c :: p.1, p.2) := by
  refine if_neg ?_
  intro hcut
  obtain ⟨tail, htail⟩ := hcut.2
  exact h hcut.1 (List.cons.inj htail).1.symm

theorem cutAtArrow_arrowText_append (rest : List Char) :
    cutAtArrow 0 (arrowText ++ rest) = some ([], rest) := by
  simp [cutAtArrow, arrowText]

theorem passes_nil : Passes depth [] := by
  intro rest
  simp

theorem Passes.append (hv : Passes depth v) (hw : Passes depth w) : Passes depth (v ++ w) := by
  intro rest
  rw [List.append_assoc, hv, hw, Option.map_map]
  simp [Function.comp_def]

/-- In parentheses not even an arrow stops the search. -/
theorem passes_of_plain (hopen : '(' ∉ w) (hclose : ')' ∉ w) (hblank : depth = 0 → ' ' ∉ w) :
    Passes depth w := by
  induction w with
  | nil => exact passes_nil
  | cons c w ih =>
      rw [List.mem_cons, not_or] at hopen hclose
      have hdepth : depthAfter depth c = depth := by
        rw [depthAfter, if_neg (Ne.symm hopen.1), if_neg (Ne.symm hclose.1)]
      intro rest
      rw [List.cons_append,
        cutAtArrow_cons fun h hblank' => hblank h (hblank' ▸ List.mem_cons_self),
        hdepth, ih hopen.2 hclose.2 fun h hmem => hblank h (List.mem_cons_of_mem _ hmem),
        Option.map_map]
      rfl

/-- The search passes over what stands in parentheses as it does behind the first of them. -/
theorem Passes.wrapped (h : Passes (depth + 1) w) : Passes depth ('(' :: (w ++ [')'])) := by
  intro rest
  have hopen : ∀ rest, cutAtArrow depth ('(' :: rest) =
      (cutAtArrow (depth + 1) rest).map fun p => ('(' :: p.1, p.2) :=
    fun rest => cutAtArrow_cons nofun
  have hclose : ∀ rest, cutAtArrow (depth + 1) (')' :: rest) =
      (cutAtArrow depth rest).map fun p => (')' :: p.1, p.2) :=
    fun rest => cutAtArrow_cons nofun
  rw [List.cons_append, List.append_assoc, hopen, h, List.singleton_append, hclose]
  simp [Function.comp_def]

end

theorem passes_word (depth : ℕ) {w : List Char} (hw : w ∈ ["Integer".toList, "Bool".toList]) :
    Passes depth w := by
  have hplain : ∀ w ∈ ["Integer".toList, "Bool".toList], '(' ∉ w ∧ ')' ∉ w ∧ ' ' ∉ w := by decide
  obtain ⟨hopen, hclose, hblank⟩ := hplain w hw
  exact passes_of_plain hopen hclose fun _ => hblank

/-- In parentheses a whole type is passed over. -/
theorem passes_render (t : Ty) (depth : ℕ) : Passes (depth + 1) t.render.toList := by
  induction t generalizing depth with
  | integer => exact passes_word _ (by decide)
  | bool => exact passes_word _ (by decide)
  | function arg result iharg ihresult =>
      have harg : Passes (depth + 1) arg.argText := by
        unfold argText
        split
        · exact (iharg (depth + 1)).wrapped
        · exact iharg depth
      have harrow : Passes (depth + 1) arrowText := passes_of_plain (by decide) (by decide) nofun
      rw [render_function]
      exact harg.append (harrow.append (ihresult depth))

theorem passes_argText (t : Ty) : Passes 0 t.argText := by
  cases t with
  | integer => exact passes_word 0 (by decide)
  | bool => exact passes_word 0 (by decide)
  | function arg result => exact (passes_render _ 0).wrapped

theorem cutAtArrow_function (arg result : Ty) :
    cutAtArrow 0 (function arg result).render.toList =
      some (arg.argText, result.render.toList) := by
  rw [render_function, passes_argText, cutAtArrow_arrowText_append, Option.map_some,
    List.append_nil]

/-! ## What is printed is read, and nothing else -/

theorem cutAtArrow_word {w : List Char} (hw : w ∈ ["Integer".toList, "Bool".toList]) :
    cutAtArrow 0 w = none := by
  have h := passes_word 0 hw []
  rwa [List.append_nil, cutAtArrow, Option.map_none] at h

theorem read?_render (t : Ty) : read? t.render.toList = some t := by
  induction t with
  | integer =>
      have hcut : cutAtArrow 0 integer.render.toList = none := cutAtArrow_word (by decide)
      rw [read?_of_none hcut]
      decide
  | bool =>
      have hcut : cutAtArrow 0 bool.render.toList = none := cutAtArrow_word (by decide)
      rw [read?_of_none hcut]
      decide
  | function arg result iharg ihresult =>
      have harg : readArg? arg.argText = some arg := by
        cases arg with
        | integer | bool => decide
        | function a r =>
            have hwrapped : (function a r).argText =
                '(' :: ((function a r).render.toList ++ [')']) := rfl
            rw [hwrapped, readArg?, unwrap?_wrapped]
            show (read? (function a r).render.toList).filter isFunction = _
            rw [iharg]
            rfl
      rw [read?_of_some (cutAtArrow_function arg result), harg, ihresult]
      rfl

theorem eq_render_of_ofWord? {text : List Char} {t : Ty} (h : ofWord? text = some t) :
    t.isFunction = false ∧ text = t.render.toList := by
  unfold ofWord? at h
  split_ifs at h with hinteger hbool
  · obtain rfl := Option.some.inj h
    exact ⟨rfl, hinteger⟩
  · obtain rfl := Option.some.inj h
    exact ⟨rfl, hbool⟩

theorem eq_argText_of_readArg? {text : List Char} {t : Ty}
    (ih : ∀ inner s, inner.length < text.length → read? inner = some s → inner = s.render.toList)
    (h : readArg? text = some t) : text = t.argText := by
  unfold readArg? at h
  split at h
  · obtain ⟨hword, htext⟩ := eq_render_of_ofWord? h
    rw [htext, argText, if_neg (by rw [hword]; exact Bool.false_ne_true)]
  · next inner hunwrap =>
      obtain ⟨hinner, hfunction⟩ := Option.filter_eq_some_iff.mp h
      rw [argText, if_pos hfunction, ← ih inner t (length_lt_of_unwrap? hunwrap) hinner]
      exact eq_of_unwrap? hunwrap

theorem eq_render_of_read? {text : List Char} {t : Ty} (h : read? text = some t) :
    text = t.render.toList := by
  -- by the length of the text: both sides of an arrow are shorter than the whole
  induction hn : text.length using Nat.strongRecOn generalizing text t with
  | _ n ih =>
  have hshorter : ∀ text' s, text'.length < n → read? text' = some s → text' = s.render.toList :=
    fun text' s hlength hread => ih _ hlength hread rfl
  cases hcut : cutAtArrow 0 text with
  | none =>
      rw [read?_of_none hcut] at h
      exact (eq_render_of_ofWord? h).2
  | some sides =>
      obtain ⟨arg, result⟩ := sides
      rw [read?_of_some hcut] at h
      obtain ⟨a, r, harg, hresult, rfl⟩ := Option.map₂_eq_some_iff.mp h
      obtain ⟨hargLength, hresultLength⟩ := length_lt_of_cutAtArrow hcut
      rw [render_function, ← hshorter _ _ (hn ▸ hresultLength) hresult,
        ← eq_argText_of_readArg? (fun inner s hlength => hshorter inner s (by omega)) harg,
        ← List.append_assoc]
      exact eq_of_cutAtArrow hcut

/-- **A text is read as a type exactly if it is the text of the type.** -/
theorem read?_eq_some_iff {text : List Char} {t : Ty} :
    read? text = some t ↔ text = t.render.toList := by
  refine ⟨eq_render_of_read?, ?_⟩
  rintro rfl
  exact read?_render t

theorem render_injective : Function.Injective render := by
  intro s t h
  have hread : read? s.render.toList = some t := by rw [h, read?_render]
  rw [read?_render] at hread
  exact Option.some.inj hread

/-- A type expression is printed as the type that it stands for. -/
theorem render_ofExpr (x : TypeExpr) : (ofExpr x).render = x.render := by
  induction x with
  | integer | bool => rfl
  | function arg result iharg ihresult =>
      cases arg with
      | integer | bool =>
          rw [ofExpr, render, ihresult]
          rfl
      | function a r =>
          rw [ofExpr, render, ihresult, iharg]
          rfl

end Ty

/-! ## Types that are set against each other -/

/-- `e.Contrasts s t`: the message of `e` sets the type `s` against the type `t`, in this order. -/
inductive TypeError.Contrasts : TypeError → Ty → Ty → Prop where
  | argument {expected found} : Contrasts (.argumentMismatch expected found) expected found
  | branches {yes no} : Contrasts (.branchMismatch yes no) yes no
  | result {name expected found} :
      Contrasts (.wrongResultType name expected found) found expected

variable {e : TypeError} {s t : Ty}

theorem TypeError.Contrasts.exists_message_eq (h : e.Contrasts s t) : ∃ before between after,
    e.message = before ++ s.render ++ between ++ t.render ++ after := by
  cases h with
  | argument =>
      refine ⟨"expected argument of type ", ", found ", "", ?_⟩
      rw [String.append_empty]
      rfl
  | branches =>
      refine ⟨"branches have different types ", " and ", "", ?_⟩
      rw [String.append_empty]
      rfl
  | @result name _ _ =>
      refine ⟨"right-hand side of " ++ ("'" ++ name ++ "'") ++ " has type ", ", expected ", "", ?_⟩
      rw [String.append_empty]
      rfl

theorem Exp.ne_of_infer {env : TypeEnv} {x : Exp} (h : x.infer env = .error (.typeError e))
    (hcontrast : e.Contrasts s t) : s ≠ t := by
  obtain ⟨m, -, hfault⟩ := exists_reached_of_infer h
  cases hcontrast with
  | argument =>
      cases hfault with
      | argumentMismatch _ _ hne => exact hne.symm
  | branches =>
      cases hfault with
      | branchMismatch _ _ _ hne => exact hne
  | result => cases hfault

theorem Decl.ne_of_verify {env : TypeEnv} {d : Decl} (h : d.verify env = .error (.typeError e))
    (hcontrast : e.Contrasts s t) : s ≠ t := by
  cases verify_eq_iff_verdict.mp h with
  | arguments _ hargs =>
      obtain ⟨_, _, _, -, hfault, -⟩ := TypeEnv.bindEach_eq_error_iff.mp hargs
      cases hfault with
      | tooMany => contradiction
  | body _ _ hbody => exact Exp.ne_of_infer hbody hcontrast
  | wrongResult _ _ _ hne =>
      cases hcontrast with
      | result => exact hne

theorem Program.ne_of_check {p : Program} (h : p.check.value = .error (.typeError e))
    (hcontrast : e.Contrasts s t) : s ≠ t := by
  rcases value_check_eq_error_iff.mp h with hsignature | ⟨-, hdecl⟩
  · obtain ⟨_, _, _, -, ⟨-, hredeclares⟩, -⟩ := hsignature
    contradiction
  · obtain ⟨_, d, _, -, hverify, -⟩ := hdecl
    exact d.ne_of_verify hverify hcontrast

/-- **The text of a type is unambiguous.**  Type expressions are printed as the types that they
stand for.  A text is read as a type if and only if it is the text of that type, so types with the
same text are the same.  Wherever a program is refused with a message that sets one type against
another, the message shows two different texts. -/
theorem type_texts_unambiguous :
    (∀ x : TypeExpr, x.render = (Ty.ofExpr x).render) ∧
    (∀ (text : String) t, Ty.read? text.toList = some t ↔ text = t.render) ∧
    (∀ s t : Ty, s.render = t.render → s = t) ∧
    ∀ (p : Program) e s t, p.check.value = .error (.typeError e) → e.Contrasts s t →
      s.render ≠ t.render ∧ ∃ before between after,
        e.message = before ++ s.render ++ between ++ t.render ++ after := by
  refine ⟨fun x => (Ty.render_ofExpr x).symm, ?_, fun s t h => Ty.render_injective h, ?_⟩
  · intro text t
    rw [Ty.read?_eq_some_iff, String.toList_inj]
  · intro p e s t hcheck hcontrast
    have hne : s ≠ t := Program.ne_of_check hcheck hcontrast
    exact ⟨fun h => hne (Ty.render_injective h), hcontrast.exists_message_eq⟩

/-- The branches of a conditional have types whose texts differ in their parentheses only. -/
theorem type_texts_unambiguous_parentheses :
    let s : Ty := .function .integer (.function .integer .bool)
    let t : Ty := .function (.function .integer .integer) .bool
    let p : Program :=
      ⟨[⟨⟨"f", .function .integer (.function .integer .bool)⟩,
          ⟨"f", ["x", "y"], .infixOp "<=" (.var "x") (.var "y")⟩⟩,
        ⟨⟨"g", .function (.function .integer .integer) .bool⟩,
          ⟨"g", ["h"], .cond (.bool "True") (.var "f") (.var "g")⟩⟩]⟩
    p.check.value = .error (.typeError (.branchMismatch s t)) ∧
      s.render = "Integer -> Integer -> Bool" ∧ t.render = "(Integer -> Integer) -> Bool" ∧
      s.render ≠ t.render ∧ ∀ u : Ty, u.render = "(Integer -> Integer) -> Bool" → u = t := by
  intro s t p
  obtain ⟨-, -, hinjective, hcontrasts⟩ := type_texts_unambiguous
  have hcheck : p.check.value = .error (.typeError (.branchMismatch s t)) := by decide
  exact ⟨hcheck, rfl, rfl, (hcontrasts p _ s t hcheck .branches).1, fun u hu => hinjective u t hu⟩

end Frontend
