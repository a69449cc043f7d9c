import Frontend.Proofs.Typing.FirstError
import Mathlib.Data.List.Find
import Mathlib.Data.List.Nodup

/-!
# The order of declarations

A check gathers the types of all names before it looks at any equation, and what it finds out about
one declaration has no influence on the next.  So it does not matter in which order a program was
written: the type that a name has, if no name is declared twice, depends on the signatures and not
on their places (`Program.context_eq_of_perm`), and with it whether a declaration is in order
(`Decl.WellTyped.of_perm`).  What a check exports can be found by name in any order as well.

Only the error that is reported may be another one.
-/

namespace Frontend

/-- Of things with different names the one with a given name is found in any order. -/
theorem find?_name_eq_of_perm {α : Type} {l l' : List α} (name : α → String) (h : l.Perm l')
    (hnodup : (l.map name).Nodup) (key : String) :
    l.find? (name · == key) = l'.find? (name · == key) := by
  refine List.find?_eq_find?_of_perm h ?_
  intro x hx y hy
  have hname : name x = name y := (beq_iff_eq.mp hx.2).trans (beq_iff_eq.mp hy.2).symm
  exact List.inj_on_of_nodup_map hnodup hx.1 hy.1 hname

/-! ## Reordered programs -/

namespace Program

variable {p p' : Program}

theorem names_perm (h : p.decls.Perm p'.decls) : p.names.Perm p'.names := by
  rw [names_eq_map, names_eq_map]
  exact h.map _

theorem context_eq_of_perm (h : p.decls.Perm p'.decls) (hnodup : p.names.Nodup) :
    p.context = p'.context := by
  have hsignatures : p.signatures.Perm p'.signatures := h.map _
  funext name
  rw [context, context, find?_name_eq_of_perm Signature.name hsignatures hnodup]

end Program

theorem Decl.WellTyped.of_perm {p p' : Program} {d : Decl} (h : p.decls.Perm p'.decls)
    (hnodup : p.names.Nodup) (hd : d.WellTyped p) : d.WellTyped p' where
  name_eq := hd.name_eq
  args_nodup := hd.args_nodup
  args_fresh x hx hmem := hd.args_fresh x hx ((Program.names_perm h).mem_iff.mpr hmem)
  body_hasLambda := hd.body_hasLambda
  closure_type := Program.context_eq_of_perm h hnodup ▸ hd.closure_type

theorem Program.WellTyped.of_perm {p p' : Program} (h : p.decls.Perm p'.decls)
    (hp : p.WellTyped) : p'.WellTyped where
  names_nodup := (names_perm h).nodup_iff.mp hp.names_nodup
  decls d hd := (hp.decls d (h.mem_iff.mpr hd)).of_perm h hp.names_nodup

/-! ## What is exported -/

theorem Bindings.get?_eq_find? (bs : Bindings) (name : String) :
    bs.get? name = (bs.entries.find? (·.name == name)).map (·.exp) := by
  rw [List.find?_eq_bind_findIdx?_getElem?, get?, indexOf?]
  cases bs.entries.findIdx? (·.name == name) with
  | none => rfl
  | some i => cases h : bs.entries[i]? <;> simp [h]

theorem Bindings.get?_eq_of_perm {bs bs' : Bindings} (h : bs.entries.Perm bs'.entries)
    (hnodup : bs.names.Nodup) (name : String) : bs.get? name = bs'.get? name := by
  rw [get?_eq_find?, get?_eq_find?, find?_name_eq_of_perm Binding.name h hnodup]

namespace Program

variable {p : Program} {bs : Bindings}

theorem value_check_eq_ok_iff_wellTyped :
    p.check.value = .ok bs ↔ p.WellTyped ∧ bs = ⟨p.decls.map Decl.binding⟩ := by
  rw [value_check_eq_ok_iff, forall₂_congr fun d _ => Decl.verify_globalEnv_eq_ok_iff, ← and_assoc]
  refine and_congr_left fun _ => ?_
  exact ⟨fun h => ⟨h.1, h.2⟩, fun h => ⟨h.names_nodup, h.decls⟩⟩

theorem names_of_check (h : p.check.value = .ok bs) : bs.names = p.names := by
  obtain ⟨-, rfl⟩ := value_check_eq_ok_iff_wellTyped.mp h
  rw [names_map_binding, names_eq_map]

/-- A name with two signatures is what is reported, whatever else is wrong. -/
theorem check_eq_duplicatedVariable (hnodup : ¬ p.names.Nodup) :
    ∃ name, p.check.value = .error (.duplicatedVariable name) := by
  cases hcheck : p.check.value with
  | ok bs => exact absurd (value_check_eq_ok_iff.mp hcheck).1 hnodup
  | error e =>
      rcases value_check_eq_error_iff.mp hcheck with hfirst | hlater
      · obtain ⟨before, s, after, -, ⟨-, rfl⟩, -⟩ := hfirst
        exact ⟨s.name, rfl⟩
      · exact absurd hlater.1 hnodup

end Program

/-- **The order of the declarations does not matter.**  A reordered program is accepted exactly if
the program is.  It then exports the same bindings, in its own order, so every name has the same
definition; and if a name has two signatures, this is the error in either order. -/
theorem check_of_perm (p p' : Program) (h : p.decls.Perm p'.decls) :
    ((∃ bs, p.check.value = .ok bs) ↔ ∃ bs', p'.check.value = .ok bs') ∧
      (∀ bs bs', p.check.value = .ok bs → p'.check.value = .ok bs' →
        (∀ name, bs.get? name = bs'.get? name) ∧ bs.entries.Perm bs'.entries ∧
          bs'.names = p'.decls.map (·.signature.name)) ∧
      (¬ p.names.Nodup → (∃ name, p.check.value = .error (.duplicatedVariable name)) ∧
        ∃ name, p'.check.value = .error (.duplicatedVariable name)) := by
  refine ⟨?_, ?_, ?_⟩
  · simp only [Program.value_check_eq_ok_iff_wellTyped, exists_and_left, exists_eq, and_true]
    exact ⟨.of_perm h, .of_perm h.symm⟩
  · intro bs bs' hcheck hcheck'
    have hnames' : bs'.names = p'.names := Program.names_of_check hcheck'
    obtain ⟨hp, rfl⟩ := Program.value_check_eq_ok_iff_wellTyped.mp hcheck
    obtain ⟨-, rfl⟩ := Program.value_check_eq_ok_iff_wellTyped.mp hcheck'
    have hentries : (p.decls.map Decl.binding).Perm (p'.decls.map Decl.binding) := h.map _
    have hnodup : (⟨p.decls.map Decl.binding⟩ : Bindings).names.Nodup := by
      rw [Program.names_map_binding, ← Program.names_eq_map]
      exact hp.names_nodup
    refine ⟨Bindings.get?_eq_of_perm hentries hnodup, hentries, ?_⟩
    rw [hnames', Program.names_eq_map]
  · intro hnodup
    have hnodup' : ¬ p'.names.Nodup := fun h' => hnodup ((Program.names_perm h).nodup_iff.mpr h')
    exact ⟨Program.check_eq_duplicatedVariable hnodup, Program.check_eq_duplicatedVariable hnodup'⟩

/-- `f` uses `g` before it is declared, or after; and `f` is declared a second time, with faults of
its own. -/
theorem check_of_perm_forward_reference :
    let f : Decl :=
      ⟨⟨"f", .function .integer .integer⟩, ⟨"f", ["x"], .app (.var "g") (.var "x")⟩⟩
    let g : Decl :=
      ⟨⟨"g", .function .integer .integer⟩, ⟨"g", ["y"], .infixOp "+" (.var "y") (.num "1")⟩⟩
    let f' : Decl := ⟨⟨"f", .bool⟩, ⟨"h", [], .num "1"⟩⟩
    ([f, g].Perm [g, f] ∧ ∃ bs bs', (Program.check ⟨[f, g]⟩).value = .ok bs ∧
      (Program.check ⟨[g, f]⟩).value = .ok bs' ∧ (∀ name, bs.get? name = bs'.get? name) ∧
      bs.entries.Perm bs'.entries ∧ bs'.names = ["g", "f"]) ∧
    [f', f].Perm [f, f'] ∧ ¬ (Program.names ⟨[f', f]⟩).Nodup ∧
      (∃ name, (Program.check ⟨[f', f]⟩).value = .error (.duplicatedVariable name)) ∧
      ∃ name, (Program.check ⟨[f, f']⟩).value = .error (.duplicatedVariable name) := by
  intro f g f'
  have hswap : [f, g].Perm [g, f] := .swap g f []
  have hcheck : (Program.check ⟨[f, g]⟩).value = .ok ⟨[f.binding, g.binding]⟩ := by decide
  have hcheck' : (Program.check ⟨[g, f]⟩).value = .ok ⟨[g.binding, f.binding]⟩ := by decide
  have hswap' : [f', f].Perm [f, f'] := .swap f f' []
  have hrepeated : ¬ (Program.names ⟨[f', f]⟩).Nodup := by decide
  refine ⟨⟨hswap, _, _, hcheck, hcheck', ?_⟩, hswap', hrepeated, ?_⟩
  · exact (check_of_perm ⟨[f, g]⟩ ⟨[g, f]⟩ hswap).2.1 _ _ hcheck hcheck'
  · exact (check_of_perm ⟨[f', f]⟩ ⟨[f, f']⟩ hswap').2.2 hrepeated

end Frontend
