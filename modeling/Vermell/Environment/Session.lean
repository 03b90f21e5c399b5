import Vermell.Environment.Dotenv

/-! `Environment`: the values of `.env` files and those of the session in one table. -/
namespace Vermell
open Http

structure Environment where
  values : List (Bytes × Bytes) := []
  path : Bytes := []
  deriving DecidableEq, Repr

namespace Environment

/-- The files that an `ifstream` opens, with their contents. -/
abbrev Files := Bytes → Option Bytes

variable (files : Files)

/-- `get`, from a key that `getenv` gets as a C string. -/
def get (getenv : Bytes → Option Bytes) (env : Environment) (key fallback : Bytes) : Bytes :=
  match Assoc.get id key env.values with
  | some value => value
  | none =>
    match getenv (key.takeWhile (· ≠ 0)) with
    | some value => value
    | none => fallback

def set (env : Environment) (key value : Bytes) : Environment :=
  { env with values := Assoc.put id key value env.values }

def unset (env : Environment) (key : Bytes) : Environment :=
  { env with values := Assoc.erase id key env.values }

def load (env : Environment) (path : Bytes) : Bool × Environment :=
  match files path with
  | none => (false, env)
  | some contents => (true, ⟨Assoc.putAll id (parseEnv contents) env.values, path⟩)

def reload (env : Environment) : Bool × Environment :=
  if env.path = [] then (false, env) else env.load files env.path

/-- The constructor, in a process that runs in `pwd`. -/
def init (pwd : Bytes) : Environment := (load files {} (pwd ++ bytes "/.env")).2

inductive Op
  | load (path : Bytes)
  | reload
  | set (key value : Bytes)
  | unset (key : Bytes)

def perform (env : Environment) : Op → Environment
  | .load path => (env.load files path).2
  | .reload => (env.reload files).2
  | .set key value => env.set key value
  | .unset key => env.unset key

/-- Operations one after the other, each with the files of its time. -/
def run (env : Environment) (ops : List (Files × Op)) : Environment :=
  ops.foldl (fun env op => env.perform op.1 op.2) env

/-! What happened, with the newest event first. -/

inductive Event
  | loaded (values : List (Bytes × Bytes))
  | set (key value : Bytes)
  | unset (key : Bytes)

/-- The path that `reload` takes and the events so far. -/
structure History where
  path : Bytes := []
  events : List Event := []

def History.open (h : History) (path : Bytes) : History :=
  match files path with
  | none => h
  | some contents => ⟨path, .loaded (parseEnv contents) :: h.events⟩

def History.record (h : History) : Op → History
  | .load path => h.open files path
  | .reload => if h.path = [] then h else h.open files h.path
  | .set key value => { h with events := .set key value :: h.events }
  | .unset key => { h with events := .unset key :: h.events }

def History.after (h : History) (ops : List (Files × Op)) : History :=
  ops.foldl (fun h op => h.record op.1 op.2) h

/-- The value of the last `set` or `unset` of the key, where it is a `set`. -/
def sessionValue (key : Bytes) : List Event → Option Bytes
  | [] => none
  | .loaded _ :: rest => sessionValue key rest
  | .set key' value :: rest => if key' = key then some value else sessionValue key rest
  | .unset key' :: rest => if key' = key then none else sessionValue key rest

/-- The value in the newest file that defines the key, where no `unset` of the key came later. -/
def fileValue (key : Bytes) : List Event → Option Bytes
  | [] => none
  | .loaded values :: rest => (Assoc.get id key values).or (fileValue key rest)
  | .set _ _ :: rest => fileValue key rest
  | .unset key' :: rest => if key' = key then none else fileValue key rest

/-- The value in the newest file that defines the key, where no `set` or `unset` came later. -/
def reloadedValue (key : Bytes) : List Event → Option Bytes
  | [] => none
  | .loaded values :: rest => (Assoc.get id key values).or (reloadedValue key rest)
  | .set key' _ :: rest => if key' = key then none else reloadedValue key rest
  | .unset key' :: rest => if key' = key then none else reloadedValue key rest

/-- What `get` promises: a value of the session shadows the files and the OS. -/
def expected (getenv : Bytes → Option Bytes) (h : History) (key fallback : Bytes) : Bytes :=
  match sessionValue key h.events with
  | some value => value
  | none =>
    match fileValue key h.events with
    | some value => value
    | none => (getenv (key.takeWhile (· ≠ 0))).getD fallback

/-- The table holds what the newest event made of each key, and the path of the newest file. -/
structure Follows (env : Environment) (h : History) : Prop where
  path : env.path = h.path
  values : ∀ key, Assoc.get id key env.values =
    (reloadedValue key h.events).or
      ((sessionValue key h.events).or (fileValue key h.events))

variable {files : Files} {env : Environment} {h : History}

theorem Follows.load (hfollows : env.Follows h) (path : Bytes) :
    (env.load files path).2.Follows (h.open files path) := by
  unfold Environment.load History.open
  cases files path with
  | none => exact hfollows
  | some contents =>
    refine ⟨rfl, fun key => ?_⟩
    simp only [Assoc.get_putAll, Assoc.get_reverse id (nodup_keys_parseEnv contents),
      hfollows.values, reloadedValue, sessionValue, fileValue]
    cases Assoc.get id key (parseEnv contents) with
    | none => rfl
    | some value => rfl

theorem Follows.perform (hfollows : env.Follows h) (op : Op) :
    (env.perform files op).Follows (h.record files op) := by
  cases op with
  | load path => exact hfollows.load path
  | reload =>
    unfold Environment.perform Environment.reload History.record
    rw [hfollows.path]
    split_ifs
    · exact hfollows
    · exact hfollows.load h.path
  | set key' value =>
    refine ⟨hfollows.path, fun key => ?_⟩
    simp only [Environment.perform, Environment.set, History.record, Assoc.get_put, id_eq,
      hfollows.values, reloadedValue, sessionValue, fileValue]
    split_ifs
    · rfl
    · rfl
  | unset key' =>
    refine ⟨hfollows.path, fun key => ?_⟩
    simp only [Environment.perform, Environment.unset, History.record, Assoc.get_erase,
      hfollows.values, reloadedValue, sessionValue, fileValue]
    split_ifs
    · rfl
    · rfl

theorem Follows.run (hfollows : env.Follows h) (ops : List (Files × Op)) :
    (env.run ops).Follows (h.after ops) := by
  induction ops generalizing env h with
  | nil => exact hfollows
  | cons op ops ih => exact ih (hfollows.perform op.2)

/-- Without a value of the session, all files since the last `unset` count. -/
theorem reloadedValue_eq_fileValue {key : Bytes} {events : List Event}
    (hsession : sessionValue key events = none) :
    reloadedValue key events = fileValue key events := by
  induction events with
  | nil => rfl
  | cons event rest ih =>
    cases event with
    | loaded values => exact congrArg _ (ih hsession)
    | set key' value =>
      rw [sessionValue] at hsession
      rw [reloadedValue, fileValue]
      split_ifs at hsession ⊢ with hkey
      exact ih hsession
    | unset key' =>
      rw [sessionValue] at hsession
      rw [reloadedValue, fileValue]
      split_ifs at hsession ⊢ with hkey
      · rfl
      · exact ih hsession

theorem Follows.get_eq (hfollows : env.Follows h) (getenv : Bytes → Option Bytes)
    (key fallback : Bytes) :
    env.get getenv key fallback = expected getenv h key fallback ↔
      ∀ value, sessionValue key h.events = some value →
        ∀ newer, reloadedValue key h.events = some newer → newer = value := by
  unfold Environment.get expected
  rw [hfollows.values]
  cases hsession : sessionValue key h.events with
  | none =>
    rw [reloadedValue_eq_fileValue hsession, Option.none_or, Option.or_self]
    refine iff_of_true ?_ fun value hvalue => nomatch hvalue
    cases fileValue key h.events with
    | some value => rfl
    | none =>
      cases getenv (key.takeWhile (· ≠ 0)) with
      | none => rfl
      | some value => rfl
  | some value =>
    rw [Option.some_or]
    cases reloadedValue key h.events with
    | none => simp
    | some newer => simp

/-- A value of the session is kept unless a file that is loaded later has another one. -/
theorem session_value_kept_iff (files : Files) (pwd : Bytes) (ops : List (Files × Op))
    (getenv : Bytes → Option Bytes) (key fallback : Bytes) :
    let h := History.after {} ((files, .load (pwd ++ bytes "/.env")) :: ops)
    ((init files pwd).run ops).get getenv key fallback = expected getenv h key fallback ↔
      ∀ value, sessionValue key h.events = some value →
        ∀ newer, reloadedValue key h.events = some newer → newer = value := by
  intro h
  have hempty : ({} : Environment).Follows {} := ⟨rfl, fun key => rfl⟩
  have hfollows : ((init files pwd).run ops).Follows h :=
    hempty.run ((files, .load (pwd ++ bytes "/.env")) :: ops)
  exact hfollows.get_eq getenv key fallback

/-- A reload of the file that the process has started with puts its value back. -/
theorem reload_overwrites_session :
    let files : Files := fun path => if path = bytes "/app/.env" then some (bytes "A=1") else none
    let ops : List (Files × Op) := [(files, .set (bytes "A") (bytes "2")), (files, .reload)]
    let h := History.after {} ((files, .load (bytes "/app/.env")) :: ops)
    ((init files (bytes "/app")).run ops).get (fun _ => none) (bytes "A") [] = bytes "1" ∧
      expected (fun _ => none) h (bytes "A") [] = bytes "2" := by
  decide

end Environment
end Vermell
