import Frontend.Report.Snippet
import Mathlib.Data.Nat.Notation
import Mathlib.Tactic.SplitIfs

/-!
# What a plain terminal shows

A plain terminal leaves out styles and resets, so its text of an output is the texts written one
after another.  Of a piece of source it shows the glyphs of its characters, `Glyph.shown`; their
number of cells is the number that carets are placed by (`Glyph.length_shown`).

A glyph has no control character in it (`IsVisible`), not even that of a control character, which is
spelled out.  So a quoted line stays on the line it is written to, and nothing in it can be mistaken
for an escape sequence.
-/

namespace Frontend

/-! ## Texts -/

/-- There are no control characters in the text. -/
def IsVisible (text : String) : Prop := ∀ c ∈ text.toList, Unicode.isControl c = false

instance (text : String) : Decidable (IsVisible text) :=
  List.decidableBAll (fun c => Unicode.isControl c = false) text.toList

theorem IsVisible.append {s t : String} (hs : IsVisible s) (ht : IsVisible t) :
    IsVisible (s ++ t) := by
  intro c hc
  rw [String.toList_append, List.mem_append] at hc
  exact hc.elim (hs c) (ht c)

/-- A control character is not in the text. -/
theorem IsVisible.notMem {text : String} (h : IsVisible text) {c : Char}
    (hc : Unicode.isControl c = true) : c ∉ text.toList := by
  intro hmem
  rw [h c hmem] at hc
  contradiction

theorem IsVisible.newline_notMem {text : String} (h : IsVisible text) : '\n' ∉ text.toList :=
  h.notMem (by decide)

theorem isVisible_blank : IsVisible " " := by decide

theorem isVisible_replicate {c : Char} (hc : Unicode.isControl c = false) (n : ℕ) :
    IsVisible (String.ofList (List.replicate n c)) := by
  intro d hd
  rw [String.toList_ofList] at hd
  rw [List.eq_of_mem_replicate hd, hc]

theorem isControl_eq_false_of_isPrintable {c : Char} (h : Escape.isPrintable c = true) :
    Unicode.isControl c = false := by
  rw [Escape.isPrintable, decide_eq_true_eq] at h
  rw [← Bool.not_eq_true, Unicode.isControl_iff]
  omega

theorem isPrintable_of_isDigit {c : Char} (h : c.isDigit = true) :
    Escape.isPrintable c = true := by
  simp only [Char.isDigit, Bool.and_eq_true, decide_eq_true_eq, ge_iff_le,
    UInt32.le_iff_toNat_le] at h
  have hlow : 0x30 ≤ c.toNat := h.1
  have hhigh : c.toNat ≤ 0x39 := h.2
  rw [Escape.isPrintable, decide_eq_true_eq]
  omega

theorem isVisible_toString (n : ℕ) : IsVisible (toString n) := by
  intro c hc
  rw [Nat.toString_eq_ofList_toDigits, String.toList_ofList] at hc
  have hdigit := Nat.isDigit_of_mem_toDigits (by decide) (by decide) hc
  exact isControl_eq_false_of_isPrintable (isPrintable_of_isDigit hdigit)

/-! ## Escapes -/

namespace Escape

variable {c l : Char}

theorem isControl_eq_false_of_letter? (h : letter? c = some l) : Unicode.isControl l = false := by
  unfold letter? at h
  split_ifs at h with htab hreturn hnewline hquote
  · obtain rfl := Option.some.inj h
    decide
  · obtain rfl := Option.some.inj h
    decide
  · obtain rfl := Option.some.inj h
    decide
  · obtain rfl := Option.some.inj h
    rcases hquote with rfl | rfl | rfl <;> decide

theorem isVisible_escapeWith {code : String} (hcode : IsVisible code) (c : Char) :
    IsVisible (escapeWith code c) := by
  unfold escapeWith
  split
  · next l hl =>
      have hbackslash : Unicode.isControl '\\' = false := by decide
      simp [IsVisible, hbackslash, isControl_eq_false_of_letter? hl]
  · split_ifs with hprintable
    · simp [IsVisible, isControl_eq_false_of_isPrintable hprintable]
    · exact hcode

theorem isVisible_hexPair (b : UInt8) : IsVisible (hexPair b) := by
  have hdigit : ∀ n < 16, Unicode.isControl (Nat.digitChar n) = false := by decide
  have hhigh := hdigit (b.toNat / 16) (Nat.div_lt_of_lt_mul b.toNat_lt)
  have hlow := hdigit (b.toNat % 16) (Nat.mod_lt _ (by decide))
  simp [IsVisible, hexPair, hhigh, hlow]

theorem isVisible_byte (b : UInt8) : IsVisible (byte b) := by
  have hx : IsVisible "\\x" := by decide
  exact isVisible_escapeWith (hx.append (isVisible_hexPair b)) _

end Escape

/-! ## Commands -/

namespace Terminal

theorem render_append (t : Terminal) (out later : Output) :
    t.render (out ++ later) = t.render out ++ t.render later := by
  simp only [render, List.map_append, String.join_append]

@[simp] theorem render_plain_nil : plain.render [] = "" := rfl

@[simp] theorem render_plain_reset (out : Output) :
    plain.render (.reset :: out) = plain.render out := by
  simp [render, encode]

@[simp] theorem render_plain_setStyle (style : Style) (out : Output) :
    plain.render (.setStyle style :: out) = plain.render out := by
  simp [render, encode]

@[simp] theorem render_plain_write (text : String) (out : Output) :
    plain.render (.write text :: out) = text ++ plain.render out := by
  simp [render, encode]

theorem render_plain_isolated (body : Output) :
    plain.render (.isolated body) = plain.render body := by
  rw [Output.isolated, render_append, render_plain_reset, render_plain_reset, render_plain_nil,
    String.append_empty]

end Terminal

/-! ## Glyphs -/

namespace Glyph

@[simp] theorem length_spaces (n : ℕ) : (spaces n).length = n := by
  rw [spaces, String.length_ofList, List.length_replicate]

theorem isVisible_spaces (n : ℕ) : IsVisible (spaces n) := isVisible_replicate (by decide) n

/-- What a text looks like. -/
def shown (cs : List Char) : String := String.join (cs.map fun c => (of c).text)

@[simp] theorem shown_nil : shown [] = "" := rfl

@[simp] theorem shown_cons (c : Char) (cs : List Char) :
    shown (c :: cs) = (of c).text ++ shown cs :=
  String.join_cons ..

theorem shown_append (cs ds : List Char) : shown (cs ++ ds) = shown cs ++ shown ds := by
  rw [shown, List.map_append, String.join_append]
  rfl

theorem length_shown (cs : List Char) : (shown cs).length = textWidth cs := by
  induction cs with
  | nil => rfl
  | cons c cs ih => rw [shown_cons, String.length_append, ih, textWidth_cons, width]

theorem render_plain_output (cs : List Char) :
    Terminal.plain.render (cs.flatMap output) = shown cs := by
  induction cs with
  | nil => rfl
  | cons c cs ih =>
      rw [List.flatMap_cons, Terminal.render_append, ih, shown_cons]
      simp [output]

theorem isVisible_text (c : Char) : IsVisible (of c).text := by
  unfold of
  split_ifs with htab hreturn hcontrol
  · exact isVisible_spaces _
  · simp [IsVisible]
  · have hopen : IsVisible "\x7b" := by decide
    exact (hopen.append (Escape.isVisible_byte _)).append (by decide)
  · simp [IsVisible, hcontrol]

theorem isVisible_shown (cs : List Char) : IsVisible (shown cs) := by
  induction cs with
  | nil => simp [IsVisible]
  | cons c cs ih =>
      rw [shown_cons]
      exact (isVisible_text c).append ih

end Glyph
end Frontend
