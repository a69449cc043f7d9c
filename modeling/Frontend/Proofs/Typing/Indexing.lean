import Frontend.Proofs.Typing.Permutation
import Mathlib.Data.Finset.Card

/-!
# Bindings with an index

A name is found in `Bindings` by going through them.  `IndexedBindings` find it without: next to
the bindings they have an index with the place of each name.  An insertion asks the index whether
the name is there, and if not it adds to both; a lookup goes straight to the place that the index
has, and does not check that there is a binding.

That this is right rests on the index and the bindings being `Coherent`: the index has a place for a
name if and only if the name stands there.  The empty bindings are coherent and every insertion, a
refused one included, leaves them so (`Coherent.insert`).  What the bindings are, after any number
of insertions, follows in the same way (`Keeps.insert`): they are what was inserted, but of each
name only the first binding.
-/

namespace Frontend

/-! ## Bindings and the places of their names -/

structure IndexedBindings where
  entries : List Binding
  index : Std.HashMap String ℕ

namespace IndexedBindings

def empty : IndexedBindings := ⟨[], ∅⟩

def names (env : IndexedBindings) : List String := env.entries.map (·.name)

def size (env : IndexedBindings) : ℕ := env.entries.length

def contains (env : IndexedBindings) (name : String) : Bool := env.index.contains name

/-- What a name is bound to.  There is no answer at all if the index leads to a place that no
binding has. -/
def lookup? (env : IndexedBindings) (name : String) : Option (Option Exp) :=
  match env.index[name]? with
  | none => some none
  | some i => env.entries[i]?.map fun b => some b.exp

/-- The answer to an insertion and the bindings after it. -/
def insert (env : IndexedBindings) (b : Binding) : Except CheckError Unit × IndexedBindings :=
  if env.index.contains b.name then (.error (.duplicatedVariable b.name), env)
  else (.ok (), ⟨env.entries ++ [b], env.index.insert b.name env.entries.length⟩)

/-- The bindings after some insertions. -/
def after (inserted : List Binding) : IndexedBindings :=
  inserted.foldl (fun env b => (env.insert b).2) empty

/-- The index has the places of the names and nothing else. -/
def Coherent (env : IndexedBindings) : Prop :=
  ∀ (name : String) (i : ℕ), env.index[name]? = some i ↔ env.names[i]? = some name

variable {env : IndexedBindings} {b : Binding} {name : String}

theorem after_concat (inserted : List Binding) (b : Binding) :
    after (inserted ++ [b]) = ((after inserted).insert b).2 := by
  rw [after, List.foldl_concat, ← after]

theorem getElem?_concat_eq_some_iff {names : List String} {new : String} {i : ℕ} :
    (names ++ [new])[i]? = some name ↔
      names[i]? = some name ∨ i = names.length ∧ new = name := by
  rw [List.getElem?_append]
  split
  · next hlt =>
      rw [or_iff_left]
      intro h
      exact absurd h.1 (Nat.ne_of_lt hlt)
  · next hge =>
      have hnone : names[i]? = none := List.getElem?_eq_none (Nat.le_of_not_lt hge)
      have hplace : i - names.length = 0 ↔ i = names.length := by omega
      simp [hnone, List.getElem?_singleton, hplace]

/-! ## The index and the bindings -/

namespace Coherent

theorem contains_eq_true_iff (h : env.Coherent) :
    env.index.contains name = true ↔ name ∈ env.names := by
  rw [Std.HashMap.contains_eq_isSome_getElem?, Option.isSome_iff_exists, List.mem_iff_getElem?]
  exact exists_congr fun i => h name i

theorem insert_of_mem (h : env.Coherent) (hb : b.name ∈ env.names) :
    env.insert b = (.error (.duplicatedVariable b.name), env) :=
  if_pos (h.contains_eq_true_iff.mpr hb)

theorem insert_of_notMem (h : env.Coherent) (hb : b.name ∉ env.names) :
    env.insert b =
      (.ok (), ⟨env.entries ++ [b], env.index.insert b.name env.entries.length⟩) :=
  if_neg fun hcontains => hb (h.contains_eq_true_iff.mp hcontains)

theorem empty : IndexedBindings.empty.Coherent := by
  intro name i
  simp [IndexedBindings.empty, names]

/-- A new name gets the place behind all others. -/
theorem push (h : env.Coherent) (hb : b.name ∉ env.names) :
    Coherent ⟨env.entries ++ [b], env.index.insert b.name env.entries.length⟩ := by
  intro name i
  have hlength : env.entries.length = env.names.length := (List.length_map _).symm
  have hnames : (entries ⟨env.entries ++ [b], env.index.insert b.name env.entries.length⟩).map
      (·.name) = env.names ++ [b.name] := List.map_append
  rw [names, hnames, hlength, Std.HashMap.getElem?_insert, getElem?_concat_eq_some_iff, ← h name i]
  by_cases hname : b.name = name
  · subst hname
    have hnew : env.index[b.name]? ≠ some i := fun hi => hb (List.mem_of_getElem? ((h _ i).mp hi))
    simp [hnew, eq_comm]
  · simp [hname]

/-- **An insertion keeps the index and the bindings together.** -/
theorem insert (h : env.Coherent) (b : Binding) : (env.insert b).2.Coherent := by
  by_cases hb : b.name ∈ env.names
  · rw [h.insert_of_mem hb]
    exact h
  · rw [h.insert_of_notMem hb]
    exact h.push hb

theorem nodup_names (h : env.Coherent) : env.names.Nodup := by
  rw [List.nodup_iff_getElem?_ne_getElem?]
  intro i j hij hj heq
  rw [List.getElem?_eq_getElem hj] at heq
  have hi := (h _ i).mpr heq
  rw [(h _ j).mpr (List.getElem?_eq_getElem hj), Option.some.injEq] at hi
  omega

/-- The index finds what is found by going through the bindings. -/
theorem indexOf?_eq (h : env.Coherent) (name : String) :
    (⟨env.entries⟩ : Bindings).indexOf? name = env.index[name]? := by
  have hplace : (⟨env.entries⟩ : Bindings).indexOf? name = env.names.idxOf? name := by
    rw [names, List.idxOf?, List.findIdx?_map]
    rfl
  refine Option.ext fun i => ?_
  rw [h name i, hplace, List.idxOf?_eq_some_iff, List.getElem?_eq_some_iff]
  constructor
  · intro hfirst
    obtain ⟨hi, heq, -⟩ := hfirst
    exact ⟨hi, heq⟩
  · intro hthere
    obtain ⟨hi, heq⟩ := hthere
    refine ⟨hi, heq, ?_⟩
    intro j hj hjeq
    have hsame : j = i := h.nodup_names.getElem_inj_iff.mp (hjeq.trans heq.symm)
    omega

/-- No lookup goes to a place that no binding has. -/
theorem lookup?_eq (h : env.Coherent) (name : String) :
    env.lookup? name = some ((⟨env.entries⟩ : Bindings).get? name) := by
  unfold lookup? Bindings.get?
  rw [h.indexOf?_eq]
  cases hindex : env.index[name]? with
  | none => rfl
  | some i =>
      have hname : env.names[i]? = some name := (h name i).mp hindex
      rw [names, List.getElem?_map, Option.map_eq_some_iff] at hname
      obtain ⟨b, hb, -⟩ := hname
      simp [hb]

theorem contains_eq (h : env.Coherent) (name : String) :
    env.contains name = (⟨env.entries⟩ : Bindings).contains name := by
  rw [Bindings.contains, h.indexOf?_eq]
  exact Std.HashMap.contains_eq_isSome_getElem?

end Coherent

/-! ## What is kept of what was inserted -/

/-- An element behind others is erased if it is related to one that was not. -/
theorem eraseDupsBy_concat {α : Type} (r : α → α → Bool) (l : List α) (a : α) :
    (l ++ [a]).eraseDupsBy r =
      if (l.eraseDupsBy r).any (r a) then l.eraseDupsBy r else l.eraseDupsBy r ++ [a] := by
  have hloop : ∀ kept, List.eraseDupsBy.loop r (l ++ [a]) kept =
      if (List.eraseDupsBy.loop r l kept).any (r a) then List.eraseDupsBy.loop r l kept
      else List.eraseDupsBy.loop r l kept ++ [a] := by
    induction l with
    | nil =>
        intro kept
        simp only [List.nil_append, List.eraseDupsBy.loop, List.any_reverse]
        cases kept.any (r a) <;> simp
    | cons b l ih =>
        intro kept
        cases hseen : kept.any (r b) with
        | true => simpa only [List.cons_append, List.eraseDupsBy.loop, hseen] using ih kept
        | false =>
            simpa only [List.cons_append, List.eraseDupsBy.loop, hseen] using ih (b :: kept)
  exact hloop []

/-- The bindings and what was inserted: of each name the first binding, in the same order. -/
structure Keeps (inserted : List Binding) (env : IndexedBindings) : Prop where
  coherent : env.Coherent
  entries_eq : env.entries = inserted.eraseDupsBy fun b b' => b.name == b'.name
  find?_eq (name : String) :
    env.entries.find? (·.name == name) = inserted.find? (·.name == name)

namespace Keeps

variable {inserted : List Binding}

theorem empty : Keeps [] empty := ⟨.empty, rfl, fun _ => rfl⟩

theorem find?_isSome_iff {bs : List Binding} :
    (bs.find? (·.name == name)).isSome = true ↔ name ∈ bs.map (·.name) := by
  rw [List.find?_isSome, List.mem_map]
  simp only [beq_iff_eq]

theorem mem_names_iff (h : Keeps inserted env) :
    name ∈ env.names ↔ name ∈ inserted.map (·.name) := by
  rw [names, ← find?_isSome_iff, h.find?_eq, find?_isSome_iff]

/-- **What is kept is the first binding of each name, after an insertion as before it.** -/
theorem insert (h : Keeps inserted env) (b : Binding) :
    Keeps (inserted ++ [b]) (env.insert b).2 := by
  have hany : env.entries.any (fun b' => b.name == b'.name) = true ↔ b.name ∈ env.names := by
    rw [List.any_eq_true, names, List.mem_map]
    exact exists_congr fun b' => and_congr_right fun _ => beq_iff_eq.trans eq_comm
  by_cases hb : b.name ∈ env.names
  · refine ⟨h.coherent.insert b, ?_, ?_⟩
    · rw [h.coherent.insert_of_mem hb, eraseDupsBy_concat, ← h.entries_eq, if_pos (hany.mpr hb)]
    · intro name
      rw [h.coherent.insert_of_mem hb, List.find?_append, ← h.find?_eq]
      cases hfind : env.entries.find? (·.name == name) with
      | some b' => rfl
      | none =>
          -- only a name that is not there yet could be found in the new binding
          have hother : b.name ≠ name := by
            rintro rfl
            have hfound := find?_isSome_iff.mpr hb
            rw [hfind] at hfound
            contradiction
          simp [hother]
  · refine ⟨h.coherent.insert b, ?_, ?_⟩
    · rw [h.coherent.insert_of_notMem hb, eraseDupsBy_concat, ← h.entries_eq,
        if_neg fun hold => hb (hany.mp hold)]
    · intro name
      rw [h.coherent.insert_of_notMem hb, List.find?_append, List.find?_append, h.find?_eq]

theorem run (inserted : List Binding) : Keeps inserted (after inserted) := by
  induction inserted using List.reverseRecOn with
  | nil => exact empty
  | append_singleton inserted b ih =>
      rw [after_concat]
      exact ih.insert b

theorem size_eq (h : Keeps inserted env) :
    env.size = (inserted.map (·.name)).toFinset.card := by
  have hsame : env.names.toFinset = (inserted.map (·.name)).toFinset := by
    ext name
    rw [List.mem_toFinset, List.mem_toFinset, h.mem_names_iff]
  rw [← hsame, List.toFinset_card_of_nodup h.coherent.nodup_names, names, List.length_map, size]

theorem lookup?_eq (h : Keeps inserted env) (name : String) :
    env.lookup? name = some ((inserted.find? (·.name == name)).map (·.exp)) := by
  rw [h.coherent.lookup?_eq, Bindings.get?_eq_find?, h.find?_eq]

theorem contains_eq (h : Keeps inserted env) (name : String) :
    env.contains name = (inserted.find? (·.name == name)).isSome := by
  rw [Bool.eq_iff_iff, contains, h.coherent.contains_eq_true_iff, h.mem_names_iff,
    find?_isSome_iff]

/-- An insertion fails exactly if something was inserted under the same name before. -/
theorem insert_eq (h : Keeps inserted env) (b : Binding) :
    env.insert b = if b.name ∈ inserted.map (·.name) then (.error (.duplicatedVariable b.name), env)
      else (.ok (), (env.insert b).2) := by
  by_cases hb : b.name ∈ env.names
  · rw [if_pos (h.mem_names_iff.mp hb), h.coherent.insert_of_mem hb]
  · rw [if_neg fun hold => hb (h.mem_names_iff.mpr hold), h.coherent.insert_of_notMem hb]

end Keeps

end IndexedBindings

/-! ## Bindings without an index -/

namespace Bindings

/-- The bindings after some insertions, of which those that fail change nothing. -/
def after (inserted : List Binding) : Bindings :=
  inserted.foldl (fun bs b => (bs.insert b).toOption.getD bs) .empty

/-- Bindings answer to an insertion in the same way with an index and without. -/
theorem insert_entries {env : IndexedBindings} (h : env.Coherent) (b : Binding) :
    (⟨env.entries⟩ : Bindings).insert b =
      (env.insert b).1.map fun _ => ⟨(env.insert b).2.entries⟩ := by
  by_cases hb : b.name ∈ env.names
  · rw [h.insert_of_mem hb]
    exact insert_eq_error_iff.mpr ⟨hb, rfl⟩
  · rw [h.insert_of_notMem hb]
    exact insert_eq_ok_iff.mpr ⟨hb, rfl⟩

theorem after_eq (inserted : List Binding) :
    after inserted = ⟨(IndexedBindings.after inserted).entries⟩ := by
  induction inserted using List.reverseRecOn with
  | nil => rfl
  | append_singleton inserted b ih =>
      have h := (IndexedBindings.Keeps.run inserted).coherent
      have hstep : after (inserted ++ [b]) =
          ((after inserted).insert b).toOption.getD (after inserted) := by
        rw [after, List.foldl_concat, ← after]
      rw [hstep, ih, insert_entries h, IndexedBindings.after_concat]
      by_cases hb : b.name ∈ (IndexedBindings.after inserted).names
      · rw [h.insert_of_mem hb]
        rfl
      · rw [h.insert_of_notMem hb]
        rfl

end Bindings

/-- **The first binding of each name is kept, in the order of insertion.**  After any insertions,
some of which may have failed, the index has the places of the names and each name has one place.
The bindings are the first ones of each name; looking up a name gives what it was first bound to,
and there are as many bindings as different names.  One more insertion fails exactly if the name was
inserted before, and changes nothing then.  Bindings without an index are the same and answer in the
same way. -/
theorem insertions_keep_first (inserted : List Binding) :
    let env := IndexedBindings.after inserted
    (∀ (name : String) (i : ℕ), env.index[name]? = some i ↔ env.names[i]? = some name) ∧
    env.names.Nodup ∧
    env.entries = inserted.eraseDupsBy (fun b b' => b.name == b'.name) ∧
    (∀ name, env.lookup? name = some ((inserted.find? (·.name == name)).map (·.exp)) ∧
      env.contains name = (inserted.find? (·.name == name)).isSome) ∧
    env.size = (inserted.map (·.name)).toFinset.card ∧
    (∀ b, env.insert b = if b.name ∈ inserted.map (·.name) then
        (.error (.duplicatedVariable b.name), env)
      else (.ok (), IndexedBindings.after (inserted ++ [b]))) ∧
    Bindings.after inserted = ⟨env.entries⟩ ∧
    (∀ name, (Bindings.after inserted).indexOf? name = env.index[name]? ∧
      some ((Bindings.after inserted).get? name) = env.lookup? name ∧
      (Bindings.after inserted).contains name = env.contains name) ∧
    ∀ b, (Bindings.after inserted).insert b = if b.name ∈ inserted.map (·.name) then
        .error (.duplicatedVariable b.name)
      else .ok (Bindings.after (inserted ++ [b])) := by
  intro env
  -- what one insertion keeps says it all of the bindings with an index
  have h := IndexedBindings.Keeps.run inserted
  have hcoherent : env.Coherent := h.coherent
  have hinsert : ∀ b, env.insert b = if b.name ∈ inserted.map (·.name) then
      (.error (.duplicatedVariable b.name), env)
      else (.ok (), IndexedBindings.after (inserted ++ [b])) := by
    intro b
    rw [IndexedBindings.after_concat]
    exact h.insert_eq b
  refine ⟨hcoherent, hcoherent.nodup_names, h.entries_eq, ?_, h.size_eq, hinsert,
    Bindings.after_eq inserted, ?_, ?_⟩
  · intro name
    exact ⟨h.lookup?_eq name, h.contains_eq name⟩
  · intro name
    -- the others have the same entries, and the index is coherent with those
    rw [Bindings.after_eq]
    exact ⟨hcoherent.indexOf?_eq name, (hcoherent.lookup?_eq name).symm,
      (hcoherent.contains_eq name).symm⟩
  · intro b
    rw [Bindings.after_eq, Bindings.after_eq, Bindings.insert_entries hcoherent, hinsert]
    split <;> rfl

end Frontend
