import RoutePolicy.Service.Client

/-!
A scripted transport: its replies are prepared in advance, and it notes what it was asked to do.
-/

set_option autoImplicit false

namespace RoutePolicy.Service

structure Script where
  /-- The replies to come. -/
  replies : List Reply
  /-- The numbers that spread pauses; the last one stays, and without any it is one. -/
  jitters : List Number
  requests : List Request
  pauses : List Number
  log : List LogEntry

abbrev Scripted := StateM Script

namespace Script

def start (replies : List Reply) (jitters : List Number) : Script := ⟨replies, jitters, [], [], []⟩

/-- A script without replies left. -/
def exhausted : Reply := .failed "Error" "no scripted response"

def send (r : Request) : Scripted Reply := fun s =>
  let s := { s with requests := s.requests ++ [r] }
  match s.replies with
  | [] => (exhausted, s)
  | reply :: rest => (reply, { s with replies := rest })

/-- The next of several values, and what is left of them; the last one stays. -/
def next {α : Type} (otherwise : α) : List α → α × List α
  | [] => (otherwise, [])
  | [last] => (last, [last])
  | first :: rest => (first, rest)

def jitter : Scripted Number := fun s =>
  let (value, rest) := next 1 s.jitters
  (value, { s with jitters := rest })

def pause (delay : Number) : Scripted Unit := fun s => ((), { s with pauses := s.pauses ++ [delay] })

def tell (entry : LogEntry) : Scripted Unit := fun s => ((), { s with log := s.log ++ [entry] })

def pacing : Pacing Scripted := ⟨pause, jitter, tell⟩

def transport : Transport Scripted := { pacing with send := send }

end Script

end RoutePolicy.Service
