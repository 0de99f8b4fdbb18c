import Unification.Session.Trial

namespace Unification.Action

variable {φ δ σ ρ β γ : Type}

/-- What an action that starts in a state ends with. -/
def outcome (action : EStateM φ σ β) (state : σ) : Except φ β :=
  match action state with
  | .ok result _ => .ok result
  | .error failure _ => .error failure

/-- The state that an action leaves, whatever it ends with. -/
def after (action : EStateM φ σ β) (state : σ) : σ :=
  match action state with
  | .ok _ left | .error _ left => left

/-- A list that goes on from what a call ends with. After a fault there is
    nothing to go on with. -/
def onward (call : EStateM Fault σ β) (state : σ) (next : β → σ → List γ) : List γ :=
  match call state with
  | .ok result left => next result left
  | .error _ _ => []

/-- The end of an action, from its outcome and the state that it leaves. -/
def ending (outcome : Except φ β) (left : σ) : EStateM.Result φ σ β :=
  match outcome with
  | .ok result => .ok result left
  | .error failure => .error failure left

theorem run_eq_ending (action : EStateM φ σ β) (state : σ) :
    action state = ending (outcome action state) (after action state) := by
  unfold ending outcome after
  cases action state <;> rfl

theorem outcome_of_eq_ending {action : EStateM φ σ β} {state left : σ} {result : Except φ β}
    (h : action state = ending result left) : outcome action state = result := by
  cases result <;> simp [outcome, h, ending]

theorem after_of_eq_ending {action : EStateM φ σ β} {state left : σ} {result : Except φ β}
    (h : action state = ending result left) : after action state = left := by
  cases result <;> simp [after, h, ending]

theorem outcome_of_ok {action : EStateM φ σ β} {state left : σ} {result : β}
    (h : action state = .ok result left) : outcome action state = .ok result := by
  simp [outcome, h]

theorem outcome_of_error {action : EStateM φ σ β} {state left : σ} {failure : φ}
    (h : action state = .error failure left) : outcome action state = .error failure := by
  simp [outcome, h]

theorem after_of_ok {action : EStateM φ σ β} {state left : σ} {result : β}
    (h : action state = .ok result left) : after action state = left := by
  simp [after, h]

theorem after_of_error {action : EStateM φ σ β} {state left : σ} {failure : φ}
    (h : action state = .error failure left) : after action state = left := by
  simp [after, h]

theorem bind_of_ok {action : EStateM φ σ β} {next : β → EStateM φ σ γ} {state left : σ}
    {result : β} (h : action state = .ok result left) :
    (action >>= next) state = next result left := by
  simp only [bind, EStateM.bind, h]

theorem bind_of_error {action : EStateM φ σ β} {next : β → EStateM φ σ γ} {state left : σ}
    {failure : φ} (h : action state = .error failure left) :
    (action >>= next) state = .error failure left := by
  simp only [bind, EStateM.bind, h]

/-- Only the results that an action has matter to what goes on from it. -/
theorem bind_congr {action : EStateM φ σ β} {next next' : β → EStateM φ σ γ} {state : σ}
    (h : ∀ result left, action state = .ok result left → next result left = next' result left) :
    (action >>= next) state = (action >>= next') state := by
  cases haction : action state with
  | ok result left => rw [bind_of_ok haction, bind_of_ok haction, h result left haction]
  | error failure left => rw [bind_of_error haction, bind_of_error haction]

theorem after_bind (action : EStateM φ σ β) (next : β → EStateM φ σ γ) (state : σ) :
    after (action >>= next) state =
      match action state with
      | .ok result left => after (next result) left
      | .error _ left => left := by
  simp only [after, bind, EStateM.bind]
  cases action state <;> rfl

theorem get_bind (next : σ → EStateM φ σ γ) (state : σ) :
    ((get : EStateM φ σ σ) >>= next) state = next state state :=
  rfl

theorem map_of_ok {action : EStateM φ σ β} {f : β → γ} {state left : σ} {result : β}
    (h : action state = .ok result left) : (f <$> action) state = .ok (f result) left := by
  simp only [Functor.map, EStateM.map, h]

theorem map_of_error {action : EStateM φ σ β} {f : β → γ} {state left : σ} {failure : φ}
    (h : action state = .error failure left) : (f <$> action) state = .error failure left := by
  simp only [Functor.map, EStateM.map, h]

theorem after_map (f : β → γ) (action : EStateM φ σ β) (state : σ) :
    after (f <$> action) state = after action state := by
  simp only [after, Functor.map, EStateM.map]
  cases action state <;> rfl

theorem outcome_map (f : β → γ) (action : EStateM φ σ β) (state : σ) :
    outcome (f <$> action) state = f <$> outcome action state := by
  simp only [outcome, Functor.map, EStateM.map]
  cases action state <;> rfl

/-- What an attempt makes of an outcome: a refusal is a result like any other. -/
def settle : Except (Failure φ) β → Except Fault (Except φ β)
  | .ok result => .ok (.ok result)
  | .error (.refused reason) => .ok (.error reason)
  | .error (.fault cause) => .error cause

theorem attempt_eq (action : EStateM (Failure φ) σ β) (state : σ) :
    Failure.attempt action state =
      ending (settle (outcome action state)) (after action state) := by
  unfold outcome after Failure.attempt
  rcases action state with _ | ⟨_ | _, _⟩ <;> rfl

theorem outcome_attempt (action : EStateM (Failure φ) σ β) (state : σ) :
    outcome (Failure.attempt action) state = settle (outcome action state) :=
  outcome_of_eq_ending (attempt_eq action state)

theorem after_attempt (action : EStateM (Failure φ) σ β) (state : σ) :
    after (Failure.attempt action) state = after action state :=
  after_of_eq_ending (attempt_eq action state)

/-- An attempt that goes on with what it has settled. -/
theorem relay_attempt_eq (action : EStateM (Failure φ) σ β) (state : σ) :
    Failure.relay (δ := γ) (Failure.attempt action) state =
      match outcome action state with
      | .ok result => .ok (.ok result) (after action state)
      | .error (.refused reason) => .ok (.error reason) (after action state)
      | .error (.fault cause) => .error (.fault cause) (after action state) := by
  unfold outcome after Failure.relay Failure.attempt
  rcases action state with _ | ⟨_ | _, _⟩ <;> rfl

theorem relay_bind (action : EStateM Fault σ β) (next : β → EStateM (Failure φ) σ γ) (state : σ) :
    (Failure.relay action >>= next) state =
      match action state with
      | .ok result left => next result left
      | .error cause left => .error (.fault cause) left := by
  simp only [bind, EStateM.bind, Failure.relay]
  cases action state <;> rfl

theorem after_relay_bind (action : EStateM Fault σ β) (next : β → EStateM (Failure φ) σ γ)
    (state : σ) :
    after (Failure.relay action >>= next) state =
      match action state with
      | .ok result left => after (next result) left
      | .error _ left => left := by
  rw [after, relay_bind]
  cases action state <;> rfl

theorem attempt_of_ok {action : EStateM (Failure φ) σ β} {state left : σ} {result : β}
    (h : action state = .ok result left) :
    Failure.attempt action state = .ok (.ok result) left := by
  simp only [Failure.attempt, h]

theorem attempt_of_refused {action : EStateM (Failure φ) σ β} {state left : σ} {reason : φ}
    (h : action state = .error (.refused reason) left) :
    Failure.attempt action state = .ok (.error reason) left := by
  simp only [Failure.attempt, h]

theorem attempt_of_fault {action : EStateM (Failure φ) σ β} {state left : σ} {cause : Fault}
    (h : action state = .error (.fault cause) left) :
    Failure.attempt action state = .error cause left := by
  simp only [Failure.attempt, h]

/-- An attempt at an action that goes on after one without refusals. -/
theorem exists_of_attempt_bind {action : EStateM Fault σ β}
    {next : β → EStateM (Failure φ) σ γ} {state left : σ} {result : Except φ γ}
    (h : Failure.attempt (Failure.relay action >>= next) state = .ok result left) :
    ∃ first middle, action state = .ok first middle ∧
      Failure.attempt (next first) middle = .ok result left := by
  rw [Failure.attempt, relay_bind] at h
  cases haction : action state with
  | ok first middle =>
    rw [haction] at h
    exact ⟨first, middle, rfl, h⟩
  | error cause middle =>
    rw [haction] at h
    cases h

/-- What an attempt and what follows it do depends on nothing but what the action
    does to the state at hand, and what follows to the state that it leaves. -/
theorem attempt_bind_congr {action action' : EStateM (Failure δ) σ β}
    {next next' : Except δ β → EStateM (Failure φ) σ γ} {state : σ}
    (haction : action state = action' state)
    (hnext : ∀ reply, next reply (after action' state) = next' reply (after action' state)) :
    (Failure.relay (Failure.attempt action) >>= next) state =
      (Failure.relay (Failure.attempt action') >>= next') state := by
  have hattempt : Failure.attempt action state = Failure.attempt action' state := by
    simp only [Failure.attempt, haction]
  rw [relay_bind, relay_bind, hattempt, attempt_eq]
  cases settle (outcome action' state) with
  | ok reply => exact hnext reply
  | error cause => rfl

/-- What an attempt and what follows it come to. -/
theorem outcome_attempt_bind (action : EStateM (Failure δ) σ β)
    (next : Except δ β → EStateM (Failure φ) σ γ) (state : σ) :
    outcome (Failure.relay (Failure.attempt action) >>= next) state =
      match outcome (Failure.attempt action) state with
      | .ok reply => outcome (next reply) (after action state)
      | .error cause => .error (.fault cause) := by
  rw [← after_attempt action state]
  simp only [outcome, after, relay_bind]
  cases Failure.attempt action state <;> rfl

/-- What the calls do that follow an attempt, seen in some part of the state: they
    lead on from where the attempt ends, and there are none after a fault. -/
theorem view_after_onward {τ : Type} (view : σ → τ) (perform : List γ → τ → τ)
    (hnil : ∀ seen, perform [] seen = seen) {action : EStateM (Failure δ) σ β}
    {next : Except δ β → EStateM (Failure φ) σ ρ} {calls : Except δ β → σ → List γ} {state : σ}
    (hnext : ∀ reply, view (after (next reply) (after action state)) =
      perform (calls reply (after action state)) (view (after action state))) :
    view (after (Failure.relay (Failure.attempt action) >>= next) state) =
      perform (onward (Failure.attempt action) state calls) (view (after action state)) := by
  have hleft := after_attempt action state
  rw [after_relay_bind, onward]
  cases hattempt : Failure.attempt action state with
  | ok reply left =>
    rw [← hleft, after_of_ok hattempt] at hnext ⊢
    exact hnext reply
  | error cause left =>
    rw [← hleft, after_of_error hattempt]
    exact (hnil (view left)).symm

/-- An attempt ends without a reply exactly if a fault ends the action. -/
theorem outcome_attempt_eq_error {action : EStateM (Failure φ) σ β} {state : σ} {cause : Fault} :
    outcome (Failure.attempt action) state = .error cause ↔
      outcome action state = .error (.fault cause) := by
  rw [outcome_attempt]
  rcases outcome action state with (reason | fault) | result <;> simp [settle]

end Unification.Action

namespace Unification.Session

theorem transcript_cons {σ ρ : Type} (call : EStateM Fault σ ρ) (rest : List (EStateM Fault σ ρ))
    (state : σ) :
    transcript (call :: rest) state =
      (Action.outcome call state, Action.after call state) ::
        transcript rest (Action.after call state) := by
  unfold Action.outcome Action.after
  rw [transcript]
  cases call state <;> rfl

end Unification.Session
