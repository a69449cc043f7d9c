import Frontend.Typing.Error

/-!
# Type environments

An environment gives types to names.  The global names are those that the signatures of a program
declare; within an equation its arguments are added as local names, the latest one first.  A name
that already has a type cannot be bound again, so nothing is ever shadowed, and an environment that
was extended is still there as it was.

`TypeEnv.bindArgs` binds the arguments of an equation.  Each of them takes one argument type off the
type of the signature; what is left is the type that the body has to have.
-/

namespace Frontend

structure TypeEnv where
  globals : List (String × Ty)
  locals : List (String × Ty)
deriving DecidableEq, Repr

namespace TypeEnv

def empty : TypeEnv := ⟨[], []⟩

def ofGlobals (globals : List (String × Ty)) : TypeEnv := ⟨globals, []⟩

def lookup? (env : TypeEnv) (name : String) : Option Ty :=
  (env.locals.lookup name).or (env.globals.lookup name)

def contains (env : TypeEnv) (name : String) : Bool := (env.lookup? name).isSome

instance : Membership String TypeEnv := ⟨fun env name => env.contains name = true⟩

instance (env : TypeEnv) (name : String) : Decidable (name ∈ env) :=
  inferInstanceAs (Decidable (env.contains name = true))

def size (env : TypeEnv) : Nat := env.globals.length

def isEmpty (env : TypeEnv) : Bool := env.globals.isEmpty

def typeOf (env : TypeEnv) (name : String) : Except CheckError Ty :=
  match env.lookup? name with
  | some type => .ok type
  | none => .error (.unknownVariable name)

def bind (env : TypeEnv) (name : String) (type : Ty) : Except CheckError TypeEnv :=
  if name ∈ env then .error (.duplicatedVariable name)
  else .ok { env with locals := (name, type) :: env.locals }

/-- Binds names to the successive argument types of a type.  When these run out the error is
`tooMany`. -/
def bindEach (tooMany : TypeError) :
    TypeEnv → List String → Ty → Except CheckError (TypeEnv × Ty)
  | env, [], type => .ok (env, type)
  | env, name :: names, .function arg result => do
    let env ← env.bind name arg
    bindEach tooMany env names result
  | _, _ :: _, _ => .error (.typeError tooMany)

/-- Binds the arguments of an equation whose name has the given type, and returns what is left of
the type. -/
def bindArgs (env : TypeEnv) (args : List String) (type : Ty) : Except CheckError (TypeEnv × Ty) :=
  bindEach (.tooManyArguments args.length type) env args type

/-! ## What an environment knows -/

theorem mem_iff {env : TypeEnv} {name : String} :
    name ∈ env ↔ ∃ type, env.lookup? name = some type :=
  Option.isSome_iff_exists

theorem notMem_iff {env : TypeEnv} {name : String} : name ∉ env ↔ env.lookup? name = none := by
  rw [mem_iff, ← Option.isSome_iff_exists, Option.not_isSome_iff_eq_none]

theorem typeOf_eq_ok_iff {env : TypeEnv} {name : String} {type : Ty} :
    env.typeOf name = .ok type ↔ env.lookup? name = some type := by
  grind [typeOf]

theorem typeOf_eq_error_iff {env : TypeEnv} {name : String} {e : CheckError} :
    env.typeOf name = .error e ↔ name ∉ env ∧ e = .unknownVariable name := by
  rw [notMem_iff]
  grind [typeOf]

theorem bind_eq_ok_iff {env env' : TypeEnv} {name : String} {type : Ty} :
    env.bind name type = .ok env' ↔
      name ∉ env ∧ env' = { env with locals := (name, type) :: env.locals } := by
  grind [bind]

theorem bind_eq_error_iff {env : TypeEnv} {name : String} {type : Ty} {e : CheckError} :
    env.bind name type = .error e ↔ name ∈ env ∧ e = .duplicatedVariable name := by
  grind [bind]

end TypeEnv
end Frontend
