import RoutePolicy.Json.Parts
import RoutePolicy.Log

/-!
Repeating an action that may fail. A failure that is not transient ends the attempts at once;
between attempts there is a pause that doubles every time, up to a bound.
-/

set_option autoImplicit false

namespace RoutePolicy

/-- What repeating needs from its surroundings. -/
structure Pacing (m : Type → Type) where
  /-- Waits for a number of milliseconds. -/
  pause : Number → m Unit
  /-- A number between zero and one, to spread pauses. -/
  jitter : m Number
  tell : LogEntry → m Unit

/-- The same surroundings for actions of a larger kind. -/
def Pacing.lift {m n : Type → Type} [MonadLiftT m n] (p : Pacing m) : Pacing n where
  pause := fun delay => liftM (p.pause delay)
  jitter := liftM p.jitter
  tell := fun entry => liftM (p.tell entry)

/-- How often to try, and how long to wait. -/
structure RetryLimits where
  attempts : Int
  baseDelay : Number
  maxDelay : Number

namespace RetryLimits

def default : RetryLimits := ⟨2, 500, 5000⟩

def half : Number := .finite (1/2)

/-- The pause after an attempt: the base doubled for every attempt before, between half and all of
it, and never more than the bound. -/
def delay (l : RetryLimits) (attempt : Int) (jitter : Number) : Number :=
  (l.baseDelay * .twoPow attempt * (half + jitter * half)).min l.maxDelay

end RetryLimits

/-- How failures are read: a status code, if they have one, what is passed on for them, and the
message of that. -/
structure FailureReading (ε : Type) where
  status : ε → Option Number
  passedOn : ε → ε
  message : ε → String

/-- Anything that can be thrown: a failure of a known kind, another error, or a value that is no
error. -/
inductive Thrown (ε : Type) where
  | failure (f : ε)
  | error (message : String)
  | value (j : Json)

namespace Thrown

variable {ε : Type}

/-- The status code of a failure, or the one a value shows. -/
def status (own : ε → Option Number) : Thrown ε → Option Number
  | failure f => own f
  | error _ => none
  | value j => (j.get? "statusCode").bind Json.number?

def message (own : ε → String) : Thrown ε → String
  | failure f => own f
  | error message => message
  | value j => j.plain

/-- Errors are passed on as they are, any other value as an error with its text. -/
def passedOn : Thrown ε → Thrown ε
  | value j => error j.plain
  | thrown => thrown

def reading (ownStatus : ε → Option Number) (ownMessage : ε → String) :
    FailureReading (Thrown ε) :=
  ⟨status ownStatus, passedOn, message ownMessage⟩

end Thrown

/-- Without a status the transport failed, which may pass; so may an overload or a server fault. -/
def isTransient (status : Option Number) : Bool :=
  match status with
  | none => true
  | some code => code = 429 || (500 : Number).le code

/-- How repeated attempts end. -/
inductive RetryEnd (ε α : Type) where
  | done (value : α) (attempts : Nat)
  | fatal (failure : ε)
  | exhausted (attempts : Int) (last : Option ε)

namespace Retry

variable {m : Type → Type} [Monad m] {ε α : Type}

def skippedEntry (attempt : Nat) (status : Option Number) : LogEntry :=
  .debug "Non-retriable error, skipping retry"
    ([("attempt", .nat (attempt + 1))] ++ status.toList.map fun code => ("statusCode", .num code))

def repeatedEntry (l : RetryLimits) (attempt : Nat) (delay : Number) (message : String) :
    LogEntry :=
  .debug "Retrying after failure"
    [("attempt", .nat (attempt + 1)), ("maxAttempts", .int l.attempts),
      ("delayMs", .num delay.nearest), ("error", .str message)]

/-- Tries up to `left` more times after `attempt` attempts, the last of which failed with `last`. -/
def runFrom (p : Pacing m) (l : RetryLimits) (reading : FailureReading ε) (act : m (Except ε α))
    (attempt : Nat) (last : Option ε) : (left : Nat) → m (RetryEnd ε α)
  | 0 => pure (.exhausted l.attempts last)
  | left + 1 => do
    match ← act with
    | .ok value => pure (.done value (attempt + 1))
    | .error thrown =>
      let failure := reading.passedOn thrown
      if !isTransient (reading.status thrown) then do
        p.tell (skippedEntry attempt (reading.status thrown))
        pure (.fatal failure)
      else if left = 0 then pure (.exhausted l.attempts (some failure))
      else do
        let jitter ← p.jitter
        let delay := l.delay attempt jitter
        p.tell (repeatedEntry l attempt delay (reading.message failure))
        p.pause delay
        runFrom p l reading act (attempt + 1) (some failure) left

/-- Tries until the action succeeds, fails for good, or has been tried often enough. -/
def run (p : Pacing m) (l : RetryLimits) (reading : FailureReading ε) (act : m (Except ε α)) :
    m (RetryEnd ε α) :=
  runFrom p l reading act 0 none l.attempts.toNat

/-- The message of the last failure. -/
def lastMessage (reading : FailureReading ε) : Option ε → String
  | some failure => reading.message failure
  | none => "No attempts made"

def exhaustedMessage (attempts : Int) (last : String) : String :=
  "Gave up after " ++ toString attempts ++ " attempt(s): " ++ last

end Retry

end RoutePolicy
