import RoutePolicy.Command.Ask
import RoutePolicy.Command.Build
import RoutePolicy.Command.Condense

/-!
The command line: words in, an exit code out.
-/

set_option autoImplicit false

namespace RoutePolicy.Command

/-- What a command line asks for. -/
inductive Task where
  | help
  | version
  | perform (a : Arguments)

/-- Help is shown on demand and when no command is given. -/
def Arguments.task (a : Arguments) : Task :=
  if a.hasFlag "help" || a.command = "help" || a.command.isEmpty then .help
  else if a.hasFlag "version" || a.command = "version" then .version
  else .perform a

variable {m : Type → Type} [Monad m]

/-- Runs a command; the exit code is zero, or one for a query that is not accepted. -/
def perform (h : Host m) (a : Arguments) : Run m Nat := do
  let p ← prepare h a
  match a.command with
  | "build" => do
    Build.run h p
    pure 0
  | "simplify" => do
    Condense.run h p
    pure 0
  | "query" => do
    let accepted ← Ask.run h p
    pure (if accepted then 0 else 1)
  | name => throw (.usage (.unknownCommand name))

/-- Runs a command line and returns the exit code. -/
def run (h : Host m) (words : List String) : m Nat := do
  match Arguments.read words with
  | .error fault => do
    h.complain fault.text
    pure 2
  | .ok a =>
    match a.task with
    | .help => do
      h.print helpText
      pure 0
    | .version => do
      h.print versionText
      pure 0
    | .perform a => do
      match ← (perform h a).run with
      | .ok code => pure code
      | .error trouble => do
        trouble.lines.forM h.complain
        pure trouble.exitCode

end RoutePolicy.Command
