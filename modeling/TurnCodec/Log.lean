import TurnCodec.Named
/-! Log entries, computations that leave entries behind, and the logger that
decides which entries are written and where: warnings and errors go to standard
error, the rest to standard output. -/

namespace TurnCodec

inductive Level
  | debug
  | info
  | warn
  | error
deriving DecidableEq

namespace Level

def name : Level → String
  | debug => "DEBUG"
  | info => "INFO"
  | warn => "WARN"
  | error => "ERROR"

instance : Named Level where
  all := [debug, info, warn, error]
  name := name
  mem_all := by intro a; cases a <;> decide
  name_injective := by intro a b; cases a <;> cases b <;> decide

def rank : Level → Nat
  | debug => 0
  | info => 1
  | warn => 2
  | error => 3

/-- The name in a column of five. -/
def label : Level → String
  | debug => "DEBUG"
  | info => "INFO "
  | warn => "WARN "
  | error => "ERROR"

/-- Whether entries of this level go to standard error. -/
def isUrgent (l : Level) : Bool := warn.rank ≤ l.rank

end Level

structure Entry where
  level : Level
  text : String
deriving DecidableEq

/-- A value and the entries left behind on the way to it, oldest first. -/
structure Logged (α : Type) where
  entries : List Entry
  value : α

namespace Logged

instance : Monad Logged where
  pure a := ⟨[], a⟩
  bind m f := ⟨m.entries ++ (f m.value).entries, (f m.value).value⟩

def tell (level : Level) (text : String) : Logged Unit := ⟨[⟨level, text⟩], ()⟩

variable {α β : Type}

@[simp]
theorem entries_pure (a : α) : (pure a : Logged α).entries = [] := rfl

@[simp]
theorem value_pure (a : α) : (pure a : Logged α).value = a := rfl

@[simp]
theorem entries_bind (m : Logged α) (f : α → Logged β) : (m >>= f).entries = m.entries ++ (f m.value).entries := rfl

@[simp]
theorem value_bind (m : Logged α) (f : α → Logged β) : (m >>= f).value = (f m.value).value := rfl

@[simp]
theorem entries_tell (level : Level) (text : String) : (tell level text).entries = [⟨level, text⟩] := rfl

end Logged

/-- What was written to the two standard streams. -/
structure Console where
  out : String := ""
  err : String := ""
deriving DecidableEq

def Console.append (a b : Console) : Console := ⟨a.out ++ b.out, a.err ++ b.err⟩

instance : Append Console := ⟨Console.append⟩

/-- Drops entries below `minLevel`, and shows a nonempty `context` with each line. -/
structure Logger where
  minLevel : Level := .warn
  context : String := ""
deriving DecidableEq

namespace Logger

def enabled (l : Logger) (level : Level) : Bool := l.minLevel.rank ≤ level.rank

def line (l : Logger) (e : Entry) : String :=
  "[" ++ e.level.label ++ "] " ++ (if l.context.isEmpty then "" else "[" ++ l.context ++ "] ") ++ e.text ++ "\n"

def writeEntry (l : Logger) (e : Entry) : Console :=
  if !l.enabled e.level then {}
  else if e.level.isUrgent then { err := l.line e }
  else { out := l.line e }

def write (l : Logger) (es : List Entry) : Console :=
  es.foldl (fun c e => c ++ l.writeEntry e) {}

end Logger

end TurnCodec
