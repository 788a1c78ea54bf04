import Mathlib.Tactic.Linarith
import RoutePolicy.Proofs.Attempts
import RoutePolicy.Proofs.Evaluation
import RoutePolicy.Service.Client

/-!
Which replies make the client send a request again. Every operation of the client sends one request,
and sends it again after a failure that may pass: the transport failed, or the service was
overloaded or at fault. A success without an object in it has no status that would tell it from a
failed transport, so the request is sent again after it, too.
-/

set_option autoImplicit false

namespace RoutePolicy.Service

open Retry

/-! ### Replies -/

namespace Reply

/-- The transport failed, the service was overloaded, or it was at fault. -/
inductive Passing : Reply → Prop
  | lost (name message : String) : Passing (.failed name message)
  | overloaded (body : Except String Json) (text : Except String String) :
      Passing (.response 429 body text)
  | faulty (status : Number) (body : Except String Json) (text : Except String String)
      (fault : (500 : Number).le status = true) : Passing (.response status body text)

/-- Any other status that is no success. -/
def Refused (reply : Reply) : Prop :=
  ∃ status body text, reply = .response status body text ∧ isSuccess status = false ∧
    ¬reply.Passing

/-- A success whose body is no object. -/
def Unreadable (reply : Reply) : Prop :=
  ∃ status body text, reply = .response status body text ∧ isSuccess status = true ∧
    ∀ j, body = .ok j → j.members? = none

end Reply

/-- The replies after which a request is sent again. -/
def Reply.Repeats (method : Method) (reply : Reply) : Prop :=
  reply.Passing ∨ method = .post ∧ reply.Unreadable

/-- No success reports an overload or a fault. -/
theorem isSuccess_of_passing {status : Number} {body : Except String Json}
    {text : Except String String} (passing : (Reply.response status body text).Passing) :
    isSuccess status = false := by
  cases passing with
  | overloaded => decide
  | faulty _ _ _ fault =>
      have low : (299 : Number) = .finite 299 := rfl
      have high : (500 : Number) = .finite 500 := rfl
      rw [high] at fault
      rw [isSuccess, low, Bool.and_eq_false_iff]
      right
      cases status with
      | finite q =>
          have above : 500 ≤ q := of_decide_eq_true fault
          have outside : ¬q ≤ 299 := by
            intro below
            linarith
          exact decide_eq_false outside
      | infinite negative =>
          cases negative
          · rfl
          · cases fault
      | undefined => cases fault

section Contents

variable (timeout : Number) {method : Method} {reply : Reply}

/-- A status is transient if it reports an overload or a fault. -/
theorem isTransient_status {status : Number} {body : Except String Json}
    {text : Except String String} :
    isTransient (some status) = true ↔ (Reply.response status body text).Passing := by
  rw [isTransient, Bool.or_eq_true, decide_eq_true_iff]
  constructor
  · rintro (rfl | fault)
    · exact .overloaded body text
    · exact .faulty status body text fault
  · intro passing
    cases passing with
    | overloaded => exact .inl rfl
    | faulty _ _ _ fault => exact .inr fault

theorem content_of_unsuccessful (method : Method) {status : Number}
    (other : isSuccess status = false) (body : Except String Json) (text : Except String String) :
    ∃ shown, (Reply.response status body text).content timeout method =
      .error (.request (.status status shown)) := by
  simp only [Reply.content, other, Bool.false_eq_true, if_false]
  exact ⟨_, rfl⟩

/-- A success fails if it should have an object and has none. -/
theorem content_of_success (method : Method) {status : Number} (success : isSuccess status = true)
    (body : Except String Json) (text : Except String String) :
    (∃ content, (Reply.response status body text).content timeout method = .ok content ∧
      ¬(method = .post ∧ (Reply.response status body text).Unreadable)) ∨
    ∃ fault, (Reply.response status body text).content timeout method = .error (.request fault) ∧
      fault.code? = none ∧ method = .post ∧ (Reply.response status body text).Unreadable := by
  have unreadable : (∀ j, body = .ok j → j.members? = none) →
      (Reply.response status body text).Unreadable :=
    fun none => ⟨status, body, text, rfl, success, none⟩
  simp only [Reply.content, success, if_true]
  cases method with
  | get =>
      refine .inl ⟨[], rfl, ?_⟩
      rintro ⟨⟨⟩, -⟩
  | post =>
      cases body with
      | error message =>
          refine .inr ⟨_, rfl, rfl, rfl, unreadable ?_⟩
          rintro _ ⟨⟩
      | ok j =>
          cases members : j.members? with
          | some content =>
              refine .inl ⟨content, by simp only [members], ?_⟩
              rintro ⟨-, _, _, _, same, -, none⟩
              cases same
              cases members.symm.trans (none j rfl)
          | none =>
              refine .inr ⟨.notAnObject, by simp only [members], rfl, rfl, unreadable ?_⟩
              rintro _ ⟨⟩
              exact members

/-- A reply is a transient failure if it may pass, or if it is a success of a `POST` that has no
object in it. -/
theorem transient_content : Transient reading (reply.content timeout method) ↔
    reply.Repeats method := by
  cases reply with
  | failed name message =>
      refine iff_of_true ?_ (.inl (.lost name message))
      simp only [Reply.content]
      split
      · exact ⟨_, rfl, rfl⟩
      · exact ⟨_, rfl, rfl⟩
  | response status body text =>
      cases success : isSuccess status with
      | false =>
          obtain ⟨shown, content⟩ := content_of_unsuccessful timeout method success body text
          rw [content]
          constructor
          · rintro ⟨_, ⟨⟩, transient⟩
            exact .inl (isTransient_status.mp transient)
          · rintro (passing | ⟨-, _, _, _, ⟨⟩, succeeded, -⟩)
            · exact ⟨_, rfl, isTransient_status.mpr passing⟩
            · cases success.symm.trans succeeded
      | true =>
          have notPassing : ¬(Reply.response status body text).Passing := by
            intro passing
            cases success.symm.trans (isSuccess_of_passing passing)
          rcases content_of_success timeout method success body text with
            ⟨content, own, readable⟩ | ⟨fault, own, none, unreadable⟩
          · rw [own]
            refine iff_of_false ?_ (not_or.mpr ⟨notPassing, readable⟩)
            rintro ⟨_, ⟨⟩, -⟩
          · rw [own]
            refine iff_of_true ⟨_, rfl, ?_⟩ (.inr unreadable)
            change isTransient fault.code? = true
            rw [none]
            rfl

theorem content_of_refused (method : Method) (refused : reply.Refused) :
    ∃ code body, reply.content timeout method = .error (.request (.status code body)) := by
  obtain ⟨status, body, text, rfl, other, -⟩ := refused
  obtain ⟨shown, content⟩ := content_of_unsuccessful timeout method other body text
  exact ⟨status, shown, content⟩

theorem not_repeats_of_refused (refused : reply.Refused) : ¬reply.Repeats method := by
  obtain ⟨status, body, text, rfl, other, notPassing⟩ := refused
  rintro (passing | ⟨-, _, _, _, ⟨⟩, success, -⟩)
  · exact notPassing passing
  · cases other.symm.trans success

theorem request_of_content {f : Failure} (failed : reply.content timeout method = .error f) :
    ∃ fault, f = .request fault := by
  cases reply with
  | failed name message =>
      simp only [Reply.content] at failed
      split at failed
      · cases failed
        exact ⟨_, rfl⟩
      · cases failed
        exact ⟨_, rfl⟩
  | response status body text =>
      cases success : isSuccess status with
      | false =>
          obtain ⟨shown, content⟩ := content_of_unsuccessful timeout method success body text
          cases content.symm.trans failed
          exact ⟨_, rfl⟩
      | true =>
          rcases content_of_success timeout method success body text with
            ⟨_, own, -⟩ | ⟨fault, own, -⟩
          · cases own.symm.trans failed
          · cases own.symm.trans failed
            exact ⟨fault, rfl⟩

end Contents

/-! ### Operations -/

/-- What the client is used for. -/
inductive Operation : Type → Type
  | healthCheck : Operation Unit
  | upload (name : String) (files : List SnapshotFile) : Operation String
  | question (snapshot : String) (asked : Question) : Operation (List Json)

namespace Operation

variable {α : Type}

def perform {m : Type → Type} [Monad m] (t : Transport m) (s : ClientSettings) :
    {α : Type} → Operation α → m (Outcome α)
  | _, healthCheck => Client.healthCheck t s
  | _, upload name files => Client.upload t s name files
  | _, question snapshot asked => Client.ask t s snapshot asked

def method : Operation α → Method
  | healthCheck => .get
  | _ => .post

/-- The one request of an operation. -/
def request (s : ClientSettings) : Operation α → Request
  | healthCheck => Client.buildRequest s .get "/health" none
  | upload name files =>
    Client.buildRequest s .post "/snapshots" (some (Client.snapshotBody name files))
  | question snapshot asked =>
    Client.buildRequest s .post
      ("/snapshots/" ++ Text.percentEncode snapshot ++ "/questions/" ++ asked.name) (some (.obj []))

/-- What an operation makes of the object that comes back. -/
def read : {α : Type} → Operation α → Table Json → Outcome α
  | _, healthCheck, _ => .ok ()
  | _, upload _ _, content =>
    match content.get? "snapshot" with
    | some (.str snapshot) => .ok snapshot
    | _ => .error (.request .noSnapshot)
  | _, question _ asked, content => Client.answerRows asked content

theorem read_error {op : Operation α} {content : Table Json} {f : Failure}
    (failed : op.read content = .error f) : ∃ fault, f = .request fault := by
  cases op with
  | healthCheck => cases failed
  | upload name files =>
      simp only [read] at failed
      split at failed
      · cases failed
      · cases failed
        exact ⟨_, rfl⟩
  | question snapshot asked =>
      simp only [read, Client.answerRows] at failed
      split at failed
      · split at failed
        · cases failed
        · cases failed
          exact ⟨_, rfl⟩
      · cases failed
        exact ⟨_, rfl⟩

end Operation

/-- A transport with given replies and given numbers that spread pauses. -/
def scripted (replies : Nat → Reply) (jitters : Nat → Number) :
    Transport (StateM (History Request)) :=
  { pacing jitters with send := fun r => Retry.perform r replies }

/-- What repeated attempts to send a request come to. -/
def concluded (s : ClientSettings) : RetryEnd Failure (Table Json) → Outcome (Table Json)
  | .done content _ => .ok content
  | .fatal f => .error f
  | .exhausted _ last =>
    .error (.ofCause (.unavailable (.down s.base (Retry.lastMessage reading last))))

variable {α : Type} (op : Operation α) (s : ClientSettings) (replies : Nat → Reply)
  (jitters : Nat → Number)

/-- The attempts of an operation. -/
def attempts : RetryEnd Failure (Table Json) × History Request :=
  Retry.run (pacing jitters) s.limits reading
    (Retry.perform (op.request s) fun i => (replies i).content s.timeout op.method) .start

/-- A request is as good as its attempts. -/
theorem request_eq (method : Method) (path : String) (body : Option Json) :
    Client.request (scripted replies jitters) s method path body .start =
      let run := Retry.run (pacing jitters) s.limits reading
        (Retry.perform (Client.buildRequest s method path body)
          fun i => (replies i).content s.timeout method) .start
      (concluded s run.1, run.2) := by
  have act : (do
      let reply ← (scripted replies jitters).send (Client.buildRequest s method path body)
      pure (reply.content s.timeout method)) =
        Retry.perform (Client.buildRequest s method path body)
          fun i => (replies i).content s.timeout method := rfl
  rw [Client.request, act]
  change (Retry.run (pacing jitters) s.limits reading _ >>= _) _ = _
  rw [Retry.bind_apply]
  generalize Retry.run (pacing jitters) s.limits reading _ _ = run
  obtain ⟨ended, history⟩ := run
  cases ended <;> rfl

/-- What follows a request sends nothing more. -/
theorem request_bind (method : Method) (path : String) (body : Option Json)
    {next : Outcome (Table Json) → StateM (History Request) (Outcome α)}
    {read : Table Json → Outcome α} (failed : ∀ f h, next (.error f) h = (.error f, h))
    (answered : ∀ content h, next (.ok content) h = (read content, h)) :
    (Client.request (scripted replies jitters) s method path body >>= next) .start =
      let run := Retry.run (pacing jitters) s.limits reading
        (Retry.perform (Client.buildRequest s method path body)
          fun i => (replies i).content s.timeout method) .start
      ((concluded s run.1).bind read, run.2) := by
  rw [Retry.bind_apply, request_eq]
  generalize Retry.run (pacing jitters) s.limits reading _ _ = run
  obtain ⟨ended, history⟩ := run
  cases outcome : concluded s ended with
  | error f =>
      simp only [outcome, failed]
      rfl
  | ok content =>
      simp only [outcome, answered]
      rfl

/-- An operation is its attempts, and a look at the object that comes back. -/
theorem perform_eq : op.perform (scripted replies jitters) s .start =
    ((concluded s (attempts op s replies jitters).1).bind op.read,
      (attempts op s replies jitters).2) := by
  cases op with
  | healthCheck => exact request_bind s replies jitters .get _ _ (fun _ _ => rfl) fun _ _ => rfl
  | upload name files =>
      refine request_bind s replies jitters .post _ _ (fun _ _ => rfl) fun content h => ?_
      simp only [Operation.read]
      cases content.get? "snapshot" with
      | none => rfl
      | some j => cases j <;> rfl
  | question snapshot asked =>
      exact request_bind s replies jitters .post _ _ (fun _ _ => rfl) fun _ _ => rfl

/-! ### Requests that are sent -/

/-- What an action acted on. -/
def act? : Deed Request → Option Request
  | .acted r => some r
  | .paused _ => none

/-- The requests of a history. -/
def sent (h : History Request) : List Request := h.deeds.filterMap act?

theorem sent_course (l : RetryLimits) (r : Request) (pauses : Nat) :
    sent (course l r jitters pauses) = List.replicate (pauses + 1) r := by
  have earlier : ∀ times, (repeated l r jitters times).filterMap act? = List.replicate times r := by
    intro times
    induction times with
    | zero => rfl
    | succ times ih => simp [repeated_succ, ih, act?, List.replicate_succ']
  simp [sent, course, earlier, act?, List.replicate_succ']

/-- An operation ends with the first reply that is not to be repeated, or after as many attempts as
are allowed. -/
theorem performed_cases (natural : 0 ≤ s.retries) :
    ∃ pauses : Nat, (pauses : Int) ≤ s.retries ∧
      sent (op.perform (scripted replies jitters) s .start).2 =
        List.replicate (pauses + 1) (op.request s) ∧
      (∀ i < pauses, (replies i).Repeats op.method) ∧
      ((¬(replies pauses).Repeats op.method ∧ (op.perform (scripted replies jitters) s .start).1 =
          ((replies pauses).content s.timeout op.method).bind op.read) ∨
        ((pauses : Int) = s.retries ∧ (replies pauses).Repeats op.method ∧
          ∃ fault, (op.perform (scripted replies jitters) s .start).1 =
            .error (.ofCause (.unavailable fault)))) := by
  have positive : 0 < s.limits.attempts := by
    change 0 < 1 + s.retries
    omega
  rw [perform_eq]
  rcases run_cases s.limits (op.request s) jitters reading
      (fun i => (replies i).content s.timeout op.method) positive with
    ⟨k, within, ⟨earlier, settles⟩, ended⟩ | ⟨n, all, transient, failure, outcome, ended⟩
  · have few : (k : Int) < 1 + s.retries := within
    refine ⟨k, by omega, ?_, fun i below => (transient_content _).mp (earlier i below),
      .inl ⟨?_, ?_⟩⟩
    · rw [attempts, ended, sent_course]
    · exact fun repeats => settles ((transient_content _).mpr repeats)
    · rw [attempts, ended]
      cases (replies k).content s.timeout op.method <;> rfl
  · have many : 1 + s.retries = (n : Int) + 1 := all
    refine ⟨n, by omega, ?_, ?_, .inr ⟨by omega, ?_, ?_⟩⟩
    · rw [attempts, ended, sent_course]
    · exact fun i below => (transient_content _).mp (transient i (Nat.le_of_lt below))
    · exact (transient_content _).mp (transient n le_rfl)
    · rw [attempts, ended]
      exact ⟨_, rfl⟩

/-- Failures that an operation passes on are failures of its request. -/
theorem request_of_bind {reply : Reply} {f : Failure}
    (failed : (reply.content s.timeout op.method).bind op.read = .error f) :
    ∃ fault, f = .request fault := by
  rcases Outcome.bind_error.mp failed with own | ⟨content, -, read⟩
  · exact request_of_content _ own
  · exact Operation.read_error read

/-- The request of an operation is sent again exactly after replies that may pass and after
successes of a `POST` without an object in them, at most once for every retry. A refusal is the end
and fails the operation, no other failures arise than of the request or because the service is
unavailable, and it is unavailable exactly if all attempts that are allowed are to be repeated. -/
theorem requests_repeated_after (natural : 0 ≤ s.retries) :
    let result := op.perform (scripted replies jitters) s .start
    let count := (sent result.2).length
    ((∀ r ∈ sent result.2, r = op.request s) ∧ (count : Int) ≤ 1 + s.retries) ∧
    (∀ i, i + 1 < count → (replies i).Repeats op.method) ∧
    (∀ i < count, (replies i).Refused → count = i + 1 ∧
      ∃ code body, result.1 = .error (.request (.status code body))) ∧
    (∀ f, result.1 = .error f →
      (∃ fault, f = .request fault) ∨ ∃ fault, f = .ofCause (.unavailable fault)) ∧
    ((∃ fault, result.1 = .error (.ofCause (.unavailable fault))) ↔
      ∀ i : Nat, (i : Int) < 1 + s.retries → (replies i).Repeats op.method) := by
  intro result count
  obtain ⟨pauses, few, requests, earlier, ends⟩ :=
    performed_cases op s replies jitters natural
  have size : count = pauses + 1 := by
    change (sent result.2).length = _
    rw [requests, List.length_replicate]
  refine ⟨⟨?_, by omega⟩, fun i below => earlier i (by omega), ?_, ?_, ?_⟩
  · intro r member
    rw [requests] at member
    exact List.eq_of_mem_replicate member
  · intro i below refused
    have last : i = pauses := by
      by_contra other
      exact not_repeats_of_refused refused (earlier i (by omega))
    subst last
    refine ⟨size, ?_⟩
    rcases ends with ⟨-, ended⟩ | ⟨-, repeats, -⟩
    · obtain ⟨code, body, content⟩ := content_of_refused s.timeout op.method refused
      rw [content] at ended
      exact ⟨code, body, ended⟩
    · exact absurd repeats (not_repeats_of_refused refused)
  · intro f failed
    rcases ends with ⟨-, ended⟩ | ⟨-, -, fault, ended⟩
    · exact .inl (request_of_bind op s (ended.symm.trans failed))
    · cases ended.symm.trans failed
      exact .inr ⟨fault, rfl⟩
  · constructor
    · rintro ⟨fault, failed⟩ i allowed
      rcases ends with ⟨-, ended⟩ | ⟨all, repeats, -⟩
      · obtain ⟨_, same⟩ := request_of_bind op s (ended.symm.trans failed)
        cases same
      · by_cases last : i = pauses
        · rw [last]
          exact repeats
        · exact earlier i (by omega)
    · intro repeats
      rcases ends with ⟨settled, -⟩ | ⟨-, -, unavailable⟩
      · exact absurd (repeats pauses (by omega)) settled
      · exact unavailable

namespace Upload

/-! An upload to a service that is starting and then refuses, or that answers something else. -/

def settings : ClientSettings := ⟨"http://localhost:9996", 30000, 1, []⟩

def lab : Operation String := .upload "lab" []

/-- What comes of the upload. -/
def result (replies : Nat → Reply) : Outcome String × History Request :=
  lab.perform (scripted replies fun _ => 1) settings .start

def starting : Nat → Reply
  | 0 => .response 503 (.error "no body") (.ok "starting")
  | _ => .response 404 (.error "no body") (.ok "")

theorem refused : (starting 1).Refused := by
  refine ⟨_, _, _, rfl, by decide, ?_⟩
  intro passing
  exact absurd (isTransient_status.mpr passing) (by decide)

/-- A list is a success without an object. -/
def listing : Reply := .response 200 (.ok (.arr [.num 1, .num 2])) (.ok "")

theorem not_passing : ¬listing.Passing := by
  intro passing
  exact absurd (isTransient_status.mpr passing) (by decide)

end Upload

open Upload in
theorem starting_service_requests :
    0 ≤ settings.retries ∧
    ((∀ r ∈ sent (result starting).2, r = lab.request settings) ∧
      ((sent (result starting).2).length : Int) ≤ 1 + settings.retries) ∧
    (0 + 1 < (sent (result starting).2).length ∧ (starting 0).Repeats lab.method) ∧
    (1 < (sent (result starting).2).length ∧ (starting 1).Refused ∧
      (sent (result starting).2).length = 1 + 1 ∧
      ∃ code body, (result starting).1 = .error (.request (.status code body))) ∧
    ((∃ fault, (result starting).1 = .error (.ofCause (.unavailable fault))) ↔
      ∀ i : Nat, (i : Int) < 1 + settings.retries → (starting i).Repeats lab.method) := by
  have natural : 0 ≤ settings.retries := by decide
  have two : (sent (result starting).2).length = 2 := by rfl
  obtain ⟨bounded, repeats, refusal, -, unavailable⟩ :=
    requests_repeated_after lab settings starting (fun _ => 1) natural
  have first : 0 + 1 < (sent (result starting).2).length := by omega
  have second : 1 < (sent (result starting).2).length := by omega
  exact ⟨natural, bounded, ⟨first, repeats 0 first⟩, ⟨second, refused, refusal 1 second refused⟩,
    unavailable⟩

open Upload in
/-- A success without an object in it is no transient failure, but the request is sent again, and
the service is called unavailable. -/
theorem unreadable_success_repeated :
    (¬∀ (op : Operation String) (s : ClientSettings) (replies : Nat → Reply)
        (jitters : Nat → Number), 0 ≤ s.retries →
      ∀ i, i + 1 < (sent (op.perform (scripted replies jitters) s .start).2).length →
        (replies i).Passing) ∧
    ¬∀ (op : Operation String) (s : ClientSettings) (replies : Nat → Reply) (jitters : Nat → Number)
      (fault : OutageFault), 0 ≤ s.retries → (op.perform (scripted replies jitters) s .start).1 =
        .error (.ofCause (.unavailable fault)) → (replies 0).Passing := by
  constructor
  · intro claimed
    have two : (sent (result fun _ => listing).2).length = 2 := by rfl
    have again : 0 + 1 < (sent (result fun _ => listing).2).length := by omega
    exact not_passing (claimed lab settings (fun _ => listing) (fun _ => 1) (by decide) 0 again)
  · intro claimed
    exact not_passing (claimed lab settings (fun _ => listing) (fun _ => 1) _ (by decide) rfl)

end RoutePolicy.Service
