import Mathlib.Algebra.Order.Ring.Rat
import RoutePolicy.Failure
import RoutePolicy.Retry

/-!
Repeated attempts over a script: the outcome of every attempt and the numbers that spread the pauses
are given in advance, and what happens is kept in its order. The attempts end with the first outcome
that is no transient failure if there are enough of them, and otherwise when there are no more. Two
attempts are a pause apart, and there is no pause behind the last one.
-/

set_option autoImplicit false

namespace RoutePolicy

theorem Number.le_self {n : Number} (defined : n ≠ .undefined) : n.le n = true := by
  cases n with
  | finite q => exact decide_eq_true le_rfl
  | infinite negative => cases negative <;> rfl
  | undefined => exact absurd rfl defined

/-- The smaller of two numbers is not above the second one. -/
theorem Number.min_le (a b : Number) : a.min b = .undefined ∨ (a.min b).le b = true := by
  unfold Number.min
  by_cases undefined : a = .undefined ∨ b = .undefined
  · rw [if_pos undefined]
    exact .inl rfl
  · rw [if_neg undefined]
    right
    split
    · assumption
    · exact Number.le_self fun same => undefined (.inr same)

namespace Retry

/-! ### Scripts and histories -/

/-- What repeating does to its surroundings: it acts, or it waits. -/
inductive Deed (ρ : Type) where
  | acted (what : ρ)
  | paused (delay : Number)

/-- How many outcomes and how many numbers for pauses were taken, and all that was done. -/
structure History (ρ : Type) where
  outcomes : Nat
  jitters : Nat
  deeds : List (Deed ρ)

section Scripted

variable {ρ : Type}

/-- Nothing was done yet. -/
def History.start : History ρ := ⟨0, 0, []⟩

/-- Surroundings that spread pauses by given numbers. -/
def pacing (jitters : Nat → Number) : Pacing (StateM (History ρ)) where
  pause := fun delay h => ((), { h with deeds := h.deeds ++ [.paused delay] })
  jitter := fun h => (jitters h.jitters, { h with jitters := h.jitters + 1 })
  tell := fun _ h => ((), h)

/-- Acts, with the next of given outcomes. -/
def perform {β : Type} (what : ρ) (outcomes : Nat → β) : StateM (History ρ) β := fun h =>
  (outcomes h.outcomes, ⟨h.outcomes + 1, h.jitters, h.deeds ++ [.acted what]⟩)

/-- An action that is repeated after every of a number of attempts, with a pause each time. -/
def repeated (l : RetryLimits) (what : ρ) (jitters : Nat → Number) (times : Nat) : List (Deed ρ) :=
  (List.range times).flatMap fun (i : Nat) => [.acted what, .paused (l.delay i (jitters i))]

/-- The history of one attempt more than there are pauses. -/
def course (l : RetryLimits) (what : ρ) (jitters : Nat → Number) (pauses : Nat) : History ρ :=
  ⟨pauses + 1, pauses, repeated l what jitters pauses ++ [.acted what]⟩

variable {l : RetryLimits} {what : ρ} {jitters : Nat → Number}

theorem repeated_succ (times : Nat) : repeated l what jitters (times + 1) =
    repeated l what jitters times ++
      [.acted what, .paused (l.delay times (jitters times))] := by
  simp [repeated, List.range_succ]

/-- No pause is longer than the longest one. -/
theorem delay_le (attempt : Int) (jitter : Number) :
    l.delay attempt jitter = .undefined ∨ (l.delay attempt jitter).le l.maxDelay = true :=
  Number.min_le _ _

theorem paused_of_mem_course {pauses : Nat} {delay : Number}
    (member : .paused delay ∈ (course l what jitters pauses).deeds) :
    ∃ i < pauses, delay = l.delay i (jitters i) := by
  simpa [course, repeated] using member

/-! ### Single attempts -/

variable {ε α : Type} {reading : FailureReading ε} {script : Nat → Except ε α}

/-- A failure after which the action is tried again. -/
def Transient (reading : FailureReading ε) (outcome : Except ε α) : Prop :=
  ∃ thrown, outcome = .error thrown ∧ isTransient (reading.status thrown) = true

/-- How attempts end with an outcome that is no transient failure. -/
def ending (reading : FailureReading ε) (attempts : Nat) : Except ε α → RetryEnd ε α
  | .ok value => .done value attempts
  | .error thrown => .fatal (reading.passedOn thrown)

variable (l what jitters) (attempt : Nat) (last : Option ε) {h : History ρ}

theorem bind_apply {β γ : Type} (first : StateM (History ρ) β) (next : β → StateM (History ρ) γ)
    (h : History ρ) : (first >>= next) h = next (first h).1 (first h).2 := rfl

theorem runFrom_settled (left : Nat) (settled : ¬Transient reading (script h.outcomes)) :
    runFrom (pacing jitters) l reading (perform what script) attempt last (left + 1) h =
      (ending reading (attempt + 1) (script h.outcomes),
        ⟨h.outcomes + 1, h.jitters, h.deeds ++ [.acted what]⟩) := by
  rw [runFrom, bind_apply, perform]
  cases outcome : script h.outcomes with
  | ok value => rfl
  | error thrown =>
      have fatal : (!isTransient (reading.status thrown)) = true := by
        by_contra transient
        exact settled ⟨thrown, outcome, by simpa using transient⟩
      simp only [fatal, if_true]
      rfl

theorem runFrom_last (transient : Transient reading (script h.outcomes)) :
    ∃ thrown, script h.outcomes = .error thrown ∧
      runFrom (pacing jitters) l reading (perform what script) attempt last 1 h =
        (.exhausted l.attempts (some (reading.passedOn thrown)),
          ⟨h.outcomes + 1, h.jitters, h.deeds ++ [.acted what]⟩) := by
  obtain ⟨thrown, outcome, transient⟩ := transient
  refine ⟨thrown, outcome, ?_⟩
  rw [runFrom, bind_apply, perform, outcome]
  simp only [transient, Bool.not_true, Bool.false_eq_true, if_false, if_true]
  rfl

theorem runFrom_again (left : Nat) (transient : Transient reading (script h.outcomes)) :
    ∃ failure, runFrom (pacing jitters) l reading (perform what script) attempt last (left + 2) h =
      runFrom (pacing jitters) l reading (perform what script) (attempt + 1) (some failure)
        (left + 1) ⟨h.outcomes + 1, h.jitters + 1,
          h.deeds ++ [.acted what] ++ [.paused (l.delay attempt (jitters h.jitters))]⟩ := by
  obtain ⟨thrown, outcome, transient⟩ := transient
  refine ⟨reading.passedOn thrown, ?_⟩
  rw [runFrom, bind_apply, perform, outcome]
  simp only [transient, Bool.not_true, Bool.false_eq_true, if_false, Nat.add_one_ne_zero]
  rfl

/-! ### Whole runs -/

/-- The first outcome that is no transient failure is the one behind `k` others. -/
def Settles (reading : FailureReading ε) (script : Nat → Except ε α) (k : Nat) : Prop :=
  (∀ i < k, Transient reading (script i)) ∧ ¬Transient reading (script k)

theorem settles_or_transient (reading : FailureReading ε) (script : Nat → Except ε α) (n : Nat) :
    (∃ k < n, Settles reading script k) ∨ ∀ i < n, Transient reading (script i) := by
  induction n with
  | zero => exact .inr fun i below => absurd below (Nat.not_lt_zero i)
  | succ n ih =>
      rcases ih with ⟨k, below, settles⟩ | transient
      · exact .inl ⟨k, by omega, settles⟩
      · by_cases next : Transient reading (script n)
        · right
          intro i below
          by_cases same : i = n
          · rw [same]
            exact next
          · exact transient i (by omega)
        · exact .inl ⟨n, Nat.lt_succ_self n, transient, next⟩

/-- As many attempts as fail for passing reasons are each followed by a pause, while one is left. -/
theorem runFrom_repeated {left : Nat} (k : Nat) (within : k < left)
    (transient : ∀ i < k, Transient reading (script i)) :
    ∃ last, runFrom (pacing jitters) l reading (perform what script) 0 none left .start =
      runFrom (pacing jitters) l reading (perform what script) k last (left - k)
        ⟨k, k, repeated l what jitters k⟩ := by
  induction k with
  | zero => exact ⟨none, rfl⟩
  | succ k ih =>
      obtain ⟨last, before⟩ := ih (by omega) fun i below => transient i (by omega)
      have more : left - k = left - (k + 1) - 1 + 2 := by omega
      have rest : left - (k + 1) - 1 + 1 = left - (k + 1) := by omega
      have next : Transient reading
          (script (⟨k, k, repeated l what jitters k⟩ : History ρ).outcomes) :=
        transient k (by omega)
      obtain ⟨failure, again⟩ := runFrom_again l what jitters k last (left - (k + 1) - 1) next
      refine ⟨some failure, ?_⟩
      rw [before, more, again, rest, repeated_succ, List.append_assoc]
      rfl

theorem run_of_settles {k : Nat} (settles : Settles reading script k)
    (within : (k : Int) < l.attempts) :
    run (pacing jitters) l reading (perform what script) .start =
      (ending reading (k + 1) (script k), course l what jitters k) := by
  have room : k < l.attempts.toNat := by omega
  obtain ⟨last, before⟩ := runFrom_repeated l what jitters k room settles.1
  have more : l.attempts.toNat - k = l.attempts.toNat - k - 1 + 1 := by omega
  rw [run, before, more, runFrom_settled l what jitters k last _ settles.2]
  rfl

theorem run_of_transient {n : Nat} (attempts : l.attempts = (n : Int) + 1)
    (transient : ∀ i ≤ n, Transient reading (script i)) :
    ∃ thrown, script n = .error thrown ∧
      run (pacing jitters) l reading (perform what script) .start =
        (.exhausted l.attempts (some (reading.passedOn thrown)), course l what jitters n) := by
  have count : l.attempts.toNat = n + 1 := by omega
  obtain ⟨last, before⟩ := runFrom_repeated l what jitters n (Nat.lt_succ_self n)
    fun i below => transient i (Nat.le_of_lt below)
  have one : n + 1 - n = 1 := by omega
  have final : Transient reading
      (script (⟨n, n, repeated l what jitters n⟩ : History ρ).outcomes) :=
    transient n le_rfl
  obtain ⟨thrown, outcome, ended⟩ := runFrom_last l what jitters n last final
  refine ⟨thrown, outcome, ?_⟩
  rw [run, count, before, one, ended]
  rfl

theorem run_of_nonpos (none : l.attempts ≤ 0) :
    run (pacing jitters) l reading (perform what script) .start =
      (.exhausted l.attempts .none, .start) := by
  have count : l.attempts.toNat = 0 := Int.toNat_of_nonpos none
  rw [run, count]
  rfl

/-- Where there are attempts, one of them settles the matter or all of them fail. -/
theorem run_cases (reading : FailureReading ε) (script : Nat → Except ε α)
    (positive : 0 < l.attempts) :
    (∃ k : Nat, (k : Int) < l.attempts ∧ Settles reading script k ∧
      run (pacing jitters) l reading (perform what script) .start =
        (ending reading (k + 1) (script k), course l what jitters k)) ∨
    ∃ n : Nat, l.attempts = (n : Int) + 1 ∧ (∀ i ≤ n, Transient reading (script i)) ∧
      ∃ thrown, script n = .error thrown ∧
        run (pacing jitters) l reading (perform what script) .start =
          (.exhausted l.attempts (some (reading.passedOn thrown)), course l what jitters n) := by
  obtain ⟨n, attempts⟩ : ∃ n : Nat, l.attempts = (n : Int) + 1 := ⟨l.attempts.toNat - 1, by omega⟩
  rcases settles_or_transient reading script (n + 1) with ⟨k, below, settles⟩ | transient
  · left
    have within : (k : Int) < l.attempts := by omega
    exact ⟨k, within, settles, run_of_settles l what jitters settles within⟩
  · right
    have all : ∀ i ≤ n, Transient reading (script i) := fun i below => transient i (by omega)
    exact ⟨n, attempts, all, run_of_transient l what jitters attempts all⟩

/-- Whatever comes of it, two attempts are a pause apart. -/
theorem run_course : (run (pacing jitters) l reading (perform what script) .start).2 = .start ∨
    ∃ pauses, (run (pacing jitters) l reading (perform what script) .start).2 =
      course l what jitters pauses := by
  by_cases none : l.attempts ≤ 0
  · left
    rw [run_of_nonpos l what jitters none]
  · right
    have positive : 0 < l.attempts := by omega
    rcases run_cases l what jitters reading script positive with
      ⟨k, -, -, ended⟩ | ⟨n, -, -, thrown, -, ended⟩
    · exact ⟨k, congrArg Prod.snd ended⟩
    · exact ⟨n, congrArg Prod.snd ended⟩

end Scripted

namespace Outage

/-! A service that is unreachable, then overloaded, and then answers or refuses. -/

def limits (attempts : Int) : RetryLimits := { RetryLimits.default with attempts := attempts }

def reading : FailureReading (Thrown Number) := Thrown.reading some Number.text

def outcomes (settled : Except (Thrown Number) String) : Nat → Except (Thrown Number) String
  | 0 => .error (.error "unreachable")
  | 1 => .error (.failure 429)
  | _ => settled

def ends (attempts : Int) (script : Nat → Except (Thrown Number) String) :
    RetryEnd (Thrown Number) String × History Unit :=
  run (pacing fun _ => 1) (limits attempts) reading (perform () script) .start

theorem repeats (settled : Except (Thrown Number) String) :
    ∀ i < 2, Transient reading (outcomes settled i) := by
  intro i below
  have early : i = 0 ∨ i = 1 := by omega
  rcases early with rfl | rfl
  · exact ⟨_, rfl, rfl⟩
  · exact ⟨_, rfl, by decide⟩

theorem not_transient_ok (value : String) : ¬Transient reading (.ok value) := by
  rintro ⟨_, same, _⟩
  cases same

theorem not_transient_refusal : ¬Transient reading (.error (.failure 404) : Except _ String) := by
  rintro ⟨_, same, transient⟩
  cases same
  exact absurd transient (by decide)

/-- An action that always throws the same. -/
def throwing (j : Json) : Nat → Except (Thrown Number) String := fun _ => .error (.value j)

/-- A value that has a status but is no error. -/
def refusal : Json := .obj [("statusCode", .num 404)]

theorem refusal_settles : Settles reading (throwing refusal) 0 := by
  refine ⟨fun i below => absurd below (Nat.not_lt_zero i), ?_⟩
  rintro ⟨_, same, transient⟩
  cases same
  exact absurd transient (by decide)

theorem seven_repeats (i : Nat) : Transient reading (throwing (.num 7) i) := ⟨_, rfl, rfl⟩

end Outage

end Retry

end RoutePolicy
