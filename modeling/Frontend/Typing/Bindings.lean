import Frontend.Syntax.Exp
import Frontend.Typing.Error

/-!
# Bindings

The result of checking a program: its names with their definitions, in the order in which they were
inserted.  A name is found by the place of its first binding, and a name that is there already
cannot be inserted again.
-/

namespace Frontend

structure Binding where
  name : String
  exp : Exp
deriving DecidableEq, Repr

def Binding.render (b : Binding) : String := b.name ++ " = " ++ b.exp.render

structure Bindings where
  entries : List Binding
deriving DecidableEq, Repr

namespace Bindings

def empty : Bindings := ⟨[]⟩

def names (bs : Bindings) : List String := bs.entries.map (·.name)

def size (bs : Bindings) : Nat := bs.entries.length

def isEmpty (bs : Bindings) : Bool := bs.entries.isEmpty

/-- The place of the first binding of a name. -/
def indexOf? (bs : Bindings) (name : String) : Option Nat :=
  bs.entries.findIdx? (·.name == name)

def contains (bs : Bindings) (name : String) : Bool := (bs.indexOf? name).isSome

def get? (bs : Bindings) (name : String) : Option Exp := do
  let i ← bs.indexOf? name
  let b ← bs.entries[i]?
  some b.exp

def insert (bs : Bindings) (b : Binding) : Except CheckError Bindings :=
  if bs.contains b.name then .error (.duplicatedVariable b.name) else .ok ⟨bs.entries ++ [b]⟩

def render (bs : Bindings) : String := "\n".intercalate (bs.entries.map Binding.render)

theorem contains_iff_mem_names {bs : Bindings} {name : String} :
    bs.contains name = true ↔ name ∈ bs.names := by
  simp [contains, indexOf?, names]

theorem insert_eq_ok_iff {bs bs' : Bindings} {b : Binding} :
    bs.insert b = .ok bs' ↔ b.name ∉ bs.names ∧ bs' = ⟨bs.entries ++ [b]⟩ := by
  rw [← contains_iff_mem_names]
  grind [insert]

theorem insert_eq_error_iff {bs : Bindings} {b : Binding} {e : CheckError} :
    bs.insert b = .error e ↔ b.name ∈ bs.names ∧ e = .duplicatedVariable b.name := by
  rw [← contains_iff_mem_names]
  grind [insert]

end Bindings
end Frontend
