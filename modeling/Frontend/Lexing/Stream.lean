import Frontend.Journal

/-!
# Token streams

A token stream hands out items one at a time.  `TokenStream.next` gives the next item, or none, and
the stream that is left; it keeps the journal while doing so.  What is left has changed even when
there was no item, for instance because trailing whitespace was read.

Every stream is finite: with each item the measure `remaining` goes down.  So all items of a stream
can be listed (`TokenStream.items`), and all its tokens collected up to the first error
(`TokenStream.collect`).
-/

namespace Frontend

class TokenStream (σ : Type) where
  next : σ → Traced (Option Item × σ)
  /-- A bound for the number of items to come. -/
  remaining : σ → Nat
  remaining_next (s : σ) : (next s).value.1.isSome = true →
    remaining (next s).value.2 < remaining s

namespace TokenStream

variable {σ : Type} [TokenStream σ]

theorem remaining_lt {s s' : σ} {item : Item} {events : List Event}
    (h : next s = ⟨(some item, s'), events⟩) : remaining s' < remaining s := by
  simpa [h] using remaining_next s

/-- All items of a stream, those after an error included. -/
def items (s : σ) : List Item :=
  match h : next s with
  | ⟨(none, _), _⟩ => []
  | ⟨(some item, s'), _⟩ =>
    have := remaining_lt h
    item :: items s'
termination_by remaining s

/-- All tokens of a stream, or its first error.  Nothing after an error is asked for. -/
def collect (s : σ) : Traced (Except LexError (List Token)) :=
  match h : next s with
  | ⟨(none, _), events⟩ => ⟨.ok [], events⟩
  | ⟨(some (.error e), _), events⟩ => ⟨.error e, events⟩
  | ⟨(some (.ok token), s'), events⟩ =>
    have := remaining_lt h
    let rest := collect s'
    ⟨rest.value.map (token :: ·), events ++ rest.events⟩
termination_by remaining s

/-! ## Unfolding a stream by one item -/

variable {s s' : σ} {events : List Event}

theorem items_of_none (h : next s = ⟨(none, s'), events⟩) : items s = [] := by
  rw [items]; split <;> simp_all

theorem items_of_some {item : Item} (h : next s = ⟨(some item, s'), events⟩) :
    items s = item :: items s' := by
  rw [items]; split <;> simp_all

theorem collect_of_none (h : next s = ⟨(none, s'), events⟩) : collect s = ⟨.ok [], events⟩ := by
  rw [collect]; split <;> simp_all

theorem collect_of_error {e : LexError} (h : next s = ⟨(some (.error e), s'), events⟩) :
    collect s = ⟨.error e, events⟩ := by
  rw [collect]; split <;> simp_all

theorem collect_of_token {token : Token} (h : next s = ⟨(some (.ok token), s'), events⟩) :
    collect s = ⟨(collect s').value.map (token :: ·), events ++ (collect s').events⟩ := by
  rw [collect]; split <;> simp_all

/-- Collecting a stream gives its items, if none of them is an error, and else the first error. -/
theorem value_collect (s : σ) : (collect s).value = (items s).mapM id := by
  induction hn : remaining s using Nat.strongRecOn generalizing s with
  | _ n ih =>
    rcases h : next s with ⟨⟨_ | e | token, s'⟩, events⟩
    · rw [collect_of_none h, items_of_none h]; rfl
    · rw [collect_of_error h, items_of_some h]; rfl
    · rw [collect_of_token h, items_of_some h, List.mapM_cons, ih _ (hn ▸ remaining_lt h) s' rfl]
      cases (items s').mapM id <;> rfl

/-! ## Lists of items -/

/-- A list of items is the stream that hands them out in order. -/
instance : TokenStream (List Item) where
  next
    | [] => pure (none, [])
    | item :: rest => pure (some item, rest)
  remaining := List.length
  remaining_next
    | [], h => by simp at h
    | _ :: _, _ => Nat.lt_succ_self _

theorem items_list (l : List Item) : items l = l := by
  induction l with
  | nil => exact items_of_none rfl
  | cons item rest ih =>
    rw [items_of_some (show next (item :: rest) = ⟨(some item, rest), []⟩ from rfl), ih]

end TokenStream
end Frontend
