import Frontend.Lexing.Lexeme
import Frontend.Typing.Ty

/-!
# The journal

While it works the front end keeps a journal of what it has done.  An entry is an `Event`; most of
them are of interest only when something is being looked into, a few tell the course of a
compilation.

A computation that keeps the journal is a `Traced` value: its result and the events on the way to
it, in the order in which they happened.  Computations that can fail are chained with
`Traced.andThen`, which keeps the events of the part that failed and adds none after it.  What is
shown of a journal depends on the `Verbosity`.
-/

namespace Frontend

inductive Level where
  | debug
  | info
deriving DecidableEq, Repr

def Level.name : Level → String
  | debug => "DEBUG"
  | info => "INFO"

/-- How much of a journal is shown: nothing, the course of a compilation, or everything. -/
inductive Verbosity where
  | silent
  | info
  | debug
deriving DecidableEq, Repr

def Verbosity.shows : Verbosity → Level → Bool
  | silent, _ => false
  | info, level => decide (level = .info)
  | debug, _ => true

inductive Event where
  /-- A source file of this many bytes was read. -/
  | loaded (bytes : Nat)
  /-- A lexeme was recognized, one of a discarded class included. -/
  | recognized (token : Token)
  /-- A file was lexed to its end into this many tokens. -/
  | lexed (tokens : Nat)
  /-- All signatures of a program were read. -/
  | signaturesRead
  /-- A definition has the type that its signature states. -/
  | checked (name : String) (type : Ty)
  /-- All definitions of a program have their types. -/
  | programChecked
deriving DecidableEq, Repr

namespace Event

def level : Event → Level
  | signaturesRead | programChecked => .info
  | _ => .debug

def text : Event → String
  | loaded bytes => "loaded " ++ toString bytes ++ " bytes"
  | recognized token => "lexed " ++ token.render Lexeme.render
  | lexed tokens => "lexed " ++ toString tokens ++ " tokens"
  | signaturesRead => "type conversions successful"
  | checked name type => name ++ " :: " ++ type.render ++ " checked"
  | programChecked => "typecheck successful"

end Event

/-! ## Computations with a journal -/

structure Traced (α : Type) where
  value : α
  events : List Event
deriving DecidableEq, Repr

namespace Traced

variable {α β γ ε : Type}

protected def pure (a : α) : Traced α := ⟨a, []⟩

protected def bind (x : Traced α) (f : α → Traced β) : Traced β :=
  ⟨(f x.value).value, x.events ++ (f x.value).events⟩

instance : Monad Traced where
  pure := Traced.pure
  bind := Traced.bind

/-- A computation that has an event before it. -/
def note (e : Event) (x : Traced α) : Traced α := ⟨x.value, e :: x.events⟩

def shown (v : Verbosity) (x : Traced α) : List Event := x.events.filter (v.shows ·.level)

/-- Goes on with the result of a computation, unless it failed. -/
def andThen (x : Traced (Except ε α)) (f : α → Traced (Except ε β)) : Traced (Except ε β) :=
  x >>= fun
    | .ok a => f a
    | .error e => pure (.error e)

@[simp] theorem value_pure (a : α) : (pure a : Traced α).value = a := rfl

@[simp] theorem events_pure (a : α) : (pure a : Traced α).events = [] := rfl

@[simp] theorem value_bind (x : Traced α) (f : α → Traced β) :
    (x >>= f).value = (f x.value).value := rfl

@[simp] theorem events_bind (x : Traced α) (f : α → Traced β) :
    (x >>= f).events = x.events ++ (f x.value).events := rfl

@[simp] theorem value_map (f : α → β) (x : Traced α) : (f <$> x).value = f x.value := rfl

@[simp] theorem events_map (f : α → β) (x : Traced α) : (f <$> x).events = x.events :=
  List.append_nil _

@[simp] theorem value_note (e : Event) (x : Traced α) : (note e x).value = x.value := rfl

@[simp] theorem events_note (e : Event) (x : Traced α) : (note e x).events = e :: x.events := rfl

@[simp] theorem shown_silent (x : Traced α) : x.shown .silent = [] := by
  simp [shown, Verbosity.shows]

@[simp] theorem shown_debug (x : Traced α) : x.shown .debug = x.events := by
  simp [shown, Verbosity.shows]

theorem value_andThen (x : Traced (Except ε α)) (f : α → Traced (Except ε β)) :
    (x.andThen f).value = x.value.bind fun a => (f a).value := by
  obtain ⟨v, _⟩ := x
  cases v <;> rfl

theorem andThen_of_ok {x : Traced (Except ε α)} {a : α} (h : x.value = .ok a)
    (f : α → Traced (Except ε β)) : x.andThen f = ⟨(f a).value, x.events ++ (f a).events⟩ := by
  obtain ⟨v, _⟩ := x
  cases h
  rfl

theorem andThen_of_error {x : Traced (Except ε α)} {e : ε} (h : x.value = .error e)
    (f : α → Traced (Except ε β)) : x.andThen f = ⟨.error e, x.events⟩ := by
  obtain ⟨v, events⟩ := x
  cases h
  simp [andThen, bind, Traced.bind, pure, Traced.pure]

instance : LawfulMonad Traced := LawfulMonad.mk' Traced
  (fun _ => by simp [Functor.map, Traced.bind, Traced.pure])
  (fun _ _ => by simp [bind, pure, Traced.bind, Traced.pure])
  (fun _ _ _ => by simp [bind, Traced.bind])

end Traced
end Frontend
