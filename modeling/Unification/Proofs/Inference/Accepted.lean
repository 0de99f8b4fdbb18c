import Unification.Proofs.Inference.Knowledge
import Unification.Proofs.Inference.Observation

namespace Unification

variable {state : Inference} {facts : Set Fact}

/-- Whether a constraint is met: its call ends with a result and records no
    type error. -/
def Constraint.accepted (constraint : Constraint) (state : Inference) : Bool :=
  match constraint.run state with
  | .ok () left => left.errors = state.errors
  | .error _ _ => false

/-- What a call adds to the facts that are known. -/
def InferenceOperation.accepted : InferenceOperation → Inference → List Fact
  | constrain constraint, state => if constraint.accepted state then [constraint.fact] else []
  | _, _ => []

/-- The facts of all constraints that calls impose and that are accepted. -/
def Inference.accepted : List InferenceOperation → Inference → List Fact
  | [], _ => []
  | operation :: rest, state =>
    operation.accepted state ++ accepted rest (Action.after operation.run state)

/-- A mere variable in the place of a type makes a fact of two variables. -/
theorem Constraint.fact_ne_denotes_var (constraint : Constraint) {var other : TypeVar} :
    constraint.fact ≠ .denotes var (.var other) := by
  cases constraint with
  | vars a b provenance => exact Fact.noConfusion
  | ty var type provenance => cases type <;> simp [fact]

theorem Constraint.accepted_of_ok {constraint : Constraint} {left : Inference}
    (hrun : constraint.run state = .ok () left) :
    constraint.accepted state = true ↔ left.errors = state.errors := by
  simp only [accepted, hrun, decide_eq_true_eq]

theorem Constraint.accepted_of_unknown {constraint : Constraint}
    (hunknown : ¬ constraint.fact.Known state.table.size) :
    Action.after constraint.run state = state ∧ constraint.accepted state = false := by
  obtain ⟨key, hkey⟩ := Option.ne_none_iff_exists'.mp (Fact.known_iff.not.mp hunknown)
  have hrun := run_of_unknown hkey
  refine ⟨Action.after_of_error hrun, ?_⟩
  simp only [accepted, hrun]

namespace Explains

private theorem constrain (h : Explains state.table.nodes facts) (constraint : Constraint) :
    Explains (Action.after constraint.run state).table.nodes
      (facts ∪ {fact | fact ∈ (InferenceOperation.constrain constraint).accepted state}) := by
  by_cases hknown : constraint.fact.Known state.table.size
  · cases h.answers hknown with
    | accepted hrun _ hleft =>
      have hok := Constraint.run_of_ok hrun
      have haccepted : constraint.accepted state = true := (Constraint.accepted_of_ok hok).mpr rfl
      rw [Action.after_of_ok hok]
      simpa [InferenceOperation.accepted, haccepted] using hleft
    | rejected _ hrun hflat =>
      have hok := Constraint.run_of_conflict hrun
      have hrejected : ¬ constraint.accepted state = true := by
        rw [Constraint.accepted_of_ok hok]
        exact fun hsame => by simpa using congrArg Array.size hsame
      rw [Action.after_of_ok hok]
      simpa [InferenceOperation.accepted, hrejected] using h.flattened hflat
  · obtain ⟨hsame, hrejected⟩ := Constraint.accepted_of_unknown hknown
    rw [hsame]
    simpa [InferenceOperation.accepted, hrejected] using h

/-- Calls that merge nothing change nothing of what a table says. -/
private theorem after_call {table : Table Binding} (h : Explains table.nodes facts)
    {call : Operation TypeVar Binding}
    (hcall : call = .newKey .unbound ∨ ∃ var, call = .probe var ∨ call = .find var) :
    Explains (Action.after (call.run typeVars) table).nodes facts := by
  have hplain : call.isPlain := by
    rcases hcall with rfl | ⟨var, rfl | rfl⟩ <;> rfl
  obtain ⟨outcome, left, hrun, heffect⟩ := Operation.exists_effect typeVars table hplain h.forest
  rw [Action.after_of_eq_ending hrun]
  generalize left.nodes = changed at heffect ⊢
  rcases hcall with rfl | ⟨var, rfl | rfl⟩
  · cases heffect with
    | refused _ hflat => exact h.flattened hflat
    | newKey => exact h.push
  · cases heffect with
    | refused _ hflat | probe _ _ hflat => exact h.flattened hflat
  · cases heffect with
    | refused _ hflat | find _ hflat => exact h.flattened hflat

/-- With every call that accepts a fact, the table comes to say what follows
    from it too. Other calls change nothing of what it says. -/
theorem run (h : Explains state.table.nodes facts) (operation : InferenceOperation) :
    Explains (Action.after operation.run state).table.nodes
      (facts ∪ {fact | fact ∈ operation.accepted state}) := by
  cases operation with
  | constrain constraint =>
    rw [InferenceOperation.run, Action.after_map]
    exact h.constrain constraint
  | fresh =>
    have hcall := h.after_call (.inl rfl)
    rw [InferenceOperation.after_run]
    simpa [InferenceOperation.accepted, InferenceOperation.operation?] using hcall
  | resolve var =>
    have hcall := h.after_call (.inr ⟨var, .inl rfl⟩)
    rw [InferenceOperation.after_run]
    simpa [InferenceOperation.accepted, InferenceOperation.operation?] using hcall
  | representative var =>
    have hcall := h.after_call (.inr ⟨var, .inr rfl⟩)
    rw [InferenceOperation.after_run]
    simpa [InferenceOperation.accepted, InferenceOperation.operation?] using hcall
  | errors =>
    rw [InferenceOperation.after_run]
    simpa [InferenceOperation.accepted, InferenceOperation.operation?] using h

theorem perform (h : Explains state.table.nodes facts) (operations : List InferenceOperation) :
    Explains (Inference.perform operations state).table.nodes
      (facts ∪ {fact | fact ∈ Inference.accepted operations state}) := by
  induction operations generalizing state facts with
  | nil => simpa [Inference.accepted, Inference.perform] using h
  | cons operation rest ih =>
    -- What the first call adds to the facts, the rest of them finds there.
    have hrest := ih (h.run operation)
    rw [Set.union_assoc] at hrest
    simpa [Inference.accepted, Inference.perform, Set.ofPred_or] using hrest

end Explains

namespace Inference

/-- What a state knows is what follows from facts. That shows in the answers to
    questions, and in how further constraints are met. A constraint is accepted
    exactly if it does not contradict the facts. One that does is recorded with
    the two types in question, and changes no answer. -/
structure KnowsExactly (state : Inference) (facts : Set Fact) : Prop where
  outcome_shareRepresentative : ∀ {a b : TypeVar}, a.id < state.table.size →
    b.id < state.table.size →
    ∃ shared, Action.outcome (shareRepresentative a b) state = .ok shared ∧
      (shared = true ↔ Connected facts a b)
  outcome_resolve : ∀ {var : TypeVar}, var.id < state.table.size →
    ∃ answer, Action.outcome (resolve var) state = .ok answer ∧ ∀ type, answer = some type ↔
      ∃ source, .denotes source type ∈ facts ∧ Connected facts source var
  resolve_ne_var : ∀ var other : TypeVar,
    Action.outcome (resolve var) state ≠ .ok (some (.var other))
  accepted_iff : ∀ {constraint : Constraint}, constraint.fact.Known state.table.size →
    (constraint.accepted state = true ↔ ∀ mismatch, ¬ constraint.fact.Contradicts facts mismatch)
  run_of_contradicts : ∀ {constraint : Constraint} {mismatch : TypeMismatch},
    constraint.fact.Known state.table.size → constraint.fact.Contradicts facts mismatch →
    ∃ left, constraint.run state = .ok () left ∧
      left.errors = state.errors.push { provenance := constraint.provenance, mismatch } ∧
      ∀ var, Action.outcome (resolve var) left = Action.outcome (resolve var) state ∧
        Action.outcome (representative var) left = Action.outcome (representative var) state
  run_of_unknown : ∀ {operation : InferenceOperation} {call : Operation TypeVar Binding}
    {key : TypeVar}, operation.operation? = some call →
    call.unknownKey? typeVars state.table.size = some key →
    operation.run state =
      .error (.refused (.unknownKey typeVars.tag key.id state.table.size)) state

/-- The first unknown variable of a call is reported, and nothing is changed. -/
private theorem run_of_unknown {operation : InferenceOperation}
    {call : Operation TypeVar Binding} {key : TypeVar} (hcall : operation.operation? = some call)
    (hunknown : call.unknownKey? typeVars state.table.size = some key) :
    operation.run state =
      .error (.refused (.unknownKey typeVars.tag key.id state.table.size)) state := by
  have hmentioned := List.mem_of_find?_eq_some hunknown
  have hindex : state.table.size ≤ typeVars.index key := by simpa using List.find?_some hunknown
  cases operation with
  | fresh =>
    cases hcall
    cases hmentioned
  | constrain constraint =>
    cases hcall
    exact Action.map_of_error (Constraint.run_of_unknown hunknown)
  | resolve var =>
    cases hcall
    obtain rfl := List.mem_singleton.mp hmentioned
    exact Action.map_of_error (resolve_of_le state hindex)
  | representative var =>
    cases hcall
    obtain rfl := List.mem_singleton.mp hmentioned
    exact Action.map_of_error (representative_of_le state hindex)
  | errors => cases hcall

/-- A mere variable never stands in the place of a type that was accepted. -/
private theorem denotes_var_notMem_accepted (operations : List InferenceOperation)
    (state : Inference) (var other : TypeVar) :
    .denotes var (.var other) ∉ accepted operations state := by
  induction operations generalizing state with
  | nil => exact List.not_mem_nil
  | cons operation rest ih =>
    rw [accepted, List.mem_append, not_or]
    refine ⟨fun hmem => ?_, ih _⟩
    cases operation with
    | constrain constraint =>
      rw [InferenceOperation.accepted] at hmem
      split at hmem
      next => exact constraint.fact_ne_denotes_var (List.mem_singleton.mp hmem).symm
      next => exact List.not_mem_nil hmem
    | _ => exact List.not_mem_nil hmem

private theorem outcome_resolve_ne_var (h : Explains state.table.nodes facts)
    (hvar : ∀ var other, .denotes var (.var other) ∉ facts) (var other : TypeVar) :
    Action.outcome (resolve var) state ≠ .ok (some (.var other)) := by
  intro houtcome
  by_cases hknown : var.id < state.table.size
  · obtain ⟨answer, hanswer, hiff⟩ := outcome_resolve h.forest hknown
    rw [houtcome] at hanswer
    cases hanswer
    obtain ⟨source, hsource, -⟩ := (h.holds_iff _).mp ((hiff (.var other)).mp rfl)
    exact hvar source other hsource
  · rw [Action.outcome_of_error (resolve_of_le state (Nat.not_lt.mp hknown))] at houtcome
    cases houtcome

private theorem accepted_iff_of_explains (h : Explains state.table.nodes facts)
    {constraint : Constraint} (hknown : constraint.fact.Known state.table.size) :
    constraint.accepted state = true ↔
      ∀ mismatch, ¬ constraint.fact.Contradicts facts mismatch := by
  cases h.answers hknown with
  | accepted hrun _ hleft =>
    rw [Constraint.accepted_of_ok (Constraint.run_of_ok hrun)]
    exact ⟨fun _ _ hcontradicts => hcontradicts.not_consistent hleft.consistent, fun _ => rfl⟩
  | rejected hcontradicts hrun _ =>
    rw [Constraint.accepted_of_ok (Constraint.run_of_conflict hrun)]
    constructor
    · exact fun hsame => by simpa using congrArg Array.size hsame
    · exact fun hfree => absurd hcontradicts (hfree _)

private theorem run_of_contradicts (h : Explains state.table.nodes facts)
    {constraint : Constraint} {mismatch : TypeMismatch}
    (hknown : constraint.fact.Known state.table.size)
    (hcontradicts : constraint.fact.Contradicts facts mismatch) :
    ∃ left, constraint.run state = .ok () left ∧
      left.errors = state.errors.push { provenance := constraint.provenance, mismatch } ∧
      Flattened state.table.nodes left.table.nodes := by
  cases h.answers hknown with
  | accepted _ _ hleft => exact absurd hleft.consistent hcontradicts.not_consistent
  | rejected hother hrun hflat =>
    obtain rfl := hcontradicts.unique h.consistent hother
    exact ⟨_, Constraint.run_of_conflict hrun, rfl, hflat⟩

/-- After any calls a state knows what follows from the constraints that were
    accepted, and nothing else. -/
theorem knows_exactly (operations : List InferenceOperation) :
    (perform operations {}).KnowsExactly {fact | fact ∈ accepted operations {}} := by
  have hempty : Explains ({} : Inference).table.nodes ∅ := .empty
  have h := hempty.perform operations
  rw [Set.empty_union] at h
  generalize hstate : perform operations {} = state at h ⊢
  exact {
    outcome_shareRepresentative := by
      intro a b ha hb
      obtain ⟨shared, hshared, hiff⟩ := outcome_shareRepresentative h.forest ha hb
      exact ⟨shared, hshared, hiff.trans (h.holds_iff (.equal a b))⟩
    outcome_resolve := by
      intro var hknown
      obtain ⟨answer, hanswer, hiff⟩ := outcome_resolve h.forest hknown
      exact ⟨answer, hanswer, fun type => (hiff type).trans (h.holds_iff (.denotes var type))⟩
    resolve_ne_var := outcome_resolve_ne_var h (denotes_var_notMem_accepted operations {})
    accepted_iff := accepted_iff_of_explains h
    run_of_contradicts := by
      intro constraint mismatch hknown hcontradicts
      obtain ⟨left, hrun, herrors, hflat⟩ := run_of_contradicts h hknown hcontradicts
      exact ⟨left, hrun, herrors, outcomes_of_flattened h.forest hflat⟩
    run_of_unknown := run_of_unknown }

end Inference

end Unification
