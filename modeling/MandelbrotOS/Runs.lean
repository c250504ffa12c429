import Mathlib.Tactic.Common

/-! Runs of a partial transition function. A step that never comes back (a
spin, an exhausted resource) is `none`, so a run is a list of calls that all
returned. What every call met and what every reached state satisfies are
separate predicates over the same run, and one induction connects them. -/
namespace MandelbrotOS.Runs

theorem bind_returns {first : Option α} {second : α → Option β} :
    (first >>= second) = some result ↔ ∃ value, first = some value ∧ second value = some result :=
  Option.bind_eq_some_iff

theorem bind_returned (value : α) (second : α → Option β) : (some value >>= second) = second value := rfl

variable {State Call : Type} {step : State → Call → Option State}

/-- Every call of the run, taken in the state it was made in, meets `cond`. -/
def Along (step : State → Call → Option State) (cond : State → Call → Prop) :
    State → List Call → Prop
  | _, [] => True
  | state, call :: rest =>
    cond state call ∧ ∀ next, step state call = some next → Along step cond next rest

/-- Every state the run passes through, the first one included, has `prop`. -/
def Throughout (step : State → Call → Option State) (prop : State → Prop) :
    State → List Call → Prop
  | state, [] => prop state
  | state, call :: rest =>
    prop state ∧ ∀ next, step state call = some next → Throughout step prop next rest

theorem throughout_start {prop : State → Prop} {calls : List Call}
    (held : Throughout step prop state calls) : prop state := by
  cases calls with
  | nil => exact held
  | cons call rest => exact held.1

theorem throughout_mono {prop prop' : State → Prop} (weaker : ∀ state, prop state → prop' state)
    {calls : List Call} (held : Throughout step prop state calls) :
    Throughout step prop' state calls := by
  induction calls generalizing state with
  | nil => exact weaker _ held
  | cons call rest ih => exact ⟨weaker _ held.1, fun next stepped => ih (held.2 next stepped)⟩

theorem along_mono {cond cond' : State → Call → Prop}
    (weaker : ∀ state call, cond state call → cond' state call)
    {calls : List Call} (met : Along step cond state calls) : Along step cond' state calls := by
  induction calls generalizing state with
  | nil => trivial
  | cons call rest ih => exact ⟨weaker _ _ met.1, fun next stepped => ih (met.2 next stepped)⟩

theorem along_of_mem {cond : State → Call → Prop} {calls : List Call}
    (each : ∀ call ∈ calls, ∀ state, cond state call) (state : State) : Along step cond state calls := by
  induction calls generalizing state with
  | nil => trivial
  | cons call rest ih =>
    exact ⟨each call List.mem_cons_self state, fun next _ =>
      ih (fun later member => each later (List.mem_cons_of_mem _ member)) next⟩

theorem along_always {cond : State → Call → Prop} (always : ∀ state call, cond state call)
    (state : State) (calls : List Call) : Along step cond state calls :=
  along_of_mem (fun call _ state => always state call) state

theorem along_or_const {fact : Prop} {cond : State → Call → Prop} {calls : List Call} :
    Along step (fun state call => fact ∨ cond state call) state calls ↔
      fact ∨ Along step cond state calls := by
  by_cases known : fact
  · simp_all [along_always]
  · simp only [known, false_or]

/-- A condition that can be tested in every state can be tested along a run. -/
instance decidableAlong {cond : State → Call → Prop} [∀ state call, Decidable (cond state call)] :
    (state : State) → (calls : List Call) → Decidable (Along step cond state calls)
  | _, [] => inferInstanceAs (Decidable True)
  | state, call :: rest =>
    match stepped : step state call with
    | none => decidable_of_iff (cond state call) (by simp [Along, stepped])
    | some next =>
      have : Decidable (Along step cond next rest) := decidableAlong next rest
      decidable_of_iff (cond state call ∧ Along step cond next rest) (by simp [Along, stepped])

theorem throughout_of_along {cond : State → Call → Prop} {inv : State → Prop}
    (kept : ∀ state call next, inv state → cond state call → step state call = some next → inv next)
    {calls : List Call} (start : inv state) (met : Along step cond state calls) :
    Throughout step inv state calls := by
  induction calls generalizing state with
  | nil => exact start
  | cons call rest ih =>
    refine ⟨start, fun next stepped => ?_⟩
    exact ih (kept state call next start met.1 stepped) (met.2 next stepped)

theorem throughout_end {prop : State → Prop} {calls : List Call}
    (held : Throughout step prop state calls) (ran : calls.foldlM step state = some final) : prop final := by
  induction calls generalizing state with
  | nil =>
    cases ran
    exact held
  | cons call rest ih =>
    rw [List.foldlM_cons] at ran
    obtain ⟨next, stepped, ran⟩ := Option.bind_eq_some_iff.mp ran
    exact ih (held.2 next stepped) ran

theorem throughout_of_kept {inv : State → Prop}
    (kept : ∀ state call next, inv state → step state call = some next → inv next)
    {calls : List Call} (start : inv state) : Throughout step inv state calls := by
  induction calls generalizing state with
  | nil => exact start
  | cons call rest ih => exact ⟨start, fun next stepped => ih (kept state call next start stepped)⟩

theorem along_of_throughout {cond : State → Call → Prop} {inv : State → Prop}
    (gives : ∀ state call, inv state → cond state call) {calls : List Call}
    (held : Throughout step inv state calls) : Along step cond state calls := by
  induction calls generalizing state with
  | nil => trivial
  | cons call rest ih => exact ⟨gives state call held.1, fun next stepped => ih (held.2 next stepped)⟩

theorem along_iff_along_of_valid {valid : Call → Prop} {cond cond' : State → Call → Prop} {inv : State → Prop}
    (same : ∀ state call, inv state → valid call → (cond state call ↔ cond' state call))
    (kept : ∀ state call next, inv state → valid call → cond' state call → step state call = some next → inv next)
    {calls : List Call} (allowed : ∀ call ∈ calls, valid call) (start : inv state) :
    Along step cond state calls ↔ Along step cond' state calls := by
  induction calls generalizing state with
  | nil => exact Iff.rfl
  | cons call rest ih =>
    have fits := allowed call List.mem_cons_self
    have onward {next : State} (holds : inv next) :=
      @ih next (fun later member => allowed later (List.mem_cons_of_mem _ member)) holds
    constructor
    · rintro ⟨met, later⟩
      have met' := (same state call start fits).mp met
      exact ⟨met', fun next stepped =>
        (onward (kept state call next start fits met' stepped)).mp (later next stepped)⟩
    · rintro ⟨met, later⟩
      exact ⟨(same state call start fits).mpr met, fun next stepped =>
        (onward (kept state call next start fits met stepped)).mpr (later next stepped)⟩

theorem along_iff_along {cond cond' : State → Call → Prop} {inv : State → Prop}
    (same : ∀ state call, inv state → (cond state call ↔ cond' state call))
    (kept : ∀ state call next, inv state → cond' state call → step state call = some next → inv next)
    {calls : List Call} (start : inv state) :
    Along step cond state calls ↔ Along step cond' state calls :=
  along_iff_along_of_valid (fun state call holds (_ : True) => same state call holds)
    (fun state call next holds _ => kept state call next holds) (fun _ _ => trivial) start

theorem throughout_iff_along_of_valid {valid : Call → Prop} {cond : State → Call → Prop}
    {inv prop : State → Prop} (gives : ∀ state, inv state → prop state)
    (kept : ∀ state call next, inv state → valid call → cond state call →
      step state call = some next → inv next)
    (broken : ∀ state call, inv state → valid call → ¬ cond state call →
      ∃ next, step state call = some next ∧ ¬ prop next)
    {calls : List Call} (allowed : ∀ call ∈ calls, valid call) (start : inv state) :
    Throughout step prop state calls ↔ Along step cond state calls := by
  induction calls generalizing state with
  | nil => exact ⟨fun _ => trivial, fun _ => gives state start⟩
  | cons call rest ih =>
    have fits := allowed call List.mem_cons_self
    have onward {next : State} (holds : inv next) :=
      @ih next (fun later member => allowed later (List.mem_cons_of_mem _ member)) holds
    constructor
    · rintro ⟨-, held⟩
      have met : cond state call := by
        grind [throughout_start]
      exact ⟨met, fun next stepped =>
        (onward (kept state call next start fits met stepped)).mp (held next stepped)⟩
    · rintro ⟨met, later⟩
      exact ⟨gives state start, fun next stepped =>
        (onward (kept state call next start fits met stepped)).mpr (later next stepped)⟩

theorem throughout_iff_along {cond : State → Call → Prop} {inv prop : State → Prop}
    (gives : ∀ state, inv state → prop state)
    (kept : ∀ state call next, inv state → cond state call → step state call = some next → inv next)
    (broken : ∀ state call, inv state → ¬ cond state call →
      ∃ next, step state call = some next ∧ ¬ prop next)
    {calls : List Call} (start : inv state) :
    Throughout step prop state calls ↔ Along step cond state calls :=
  throughout_iff_along_of_valid gives (fun state call next holds (_ : True) => kept state call next holds)
    (fun state call holds _ => broken state call holds) (fun _ _ => trivial) start

/-! ### Runs that must return -/

/-- Every call of the run returns, and every state it passes through has `prop`. -/
def Served (step : State → Call → Option State) (prop : State → Prop) :
    State → List Call → Prop
  | state, [] => prop state
  | state, call :: rest =>
    prop state ∧ ∃ next, step state call = some next ∧ Served step prop next rest

theorem served_start {prop : State → Prop} {calls : List Call}
    (served : Served step prop state calls) : prop state := by
  cases calls with
  | nil => exact served
  | cons call rest => exact served.1

theorem served_iff_along {valid cond : State → Call → Prop} {inv prop : State → Prop}
    (gives : ∀ state, inv state → prop state)
    (kept : ∀ state call, inv state → valid state call → cond state call →
      ∃ next, step state call = some next ∧ inv next)
    (broken : ∀ state call next, inv state → valid state call → ¬ cond state call →
      step state call = some next → ¬ prop next)
    {calls : List Call} (start : inv state) (fits : Along step valid state calls) :
    Served step prop state calls ↔ Along step cond state calls := by
  induction calls generalizing state with
  | nil => exact ⟨fun _ => trivial, fun _ => gives state start⟩
  | cons call rest ih =>
    constructor
    · rintro ⟨-, next, stepped, served⟩
      have met : cond state call := by
        by_contra missed
        exact broken state call next start fits.1 missed stepped (served_start served)
      obtain ⟨same, returned, holds⟩ := kept state call start fits.1 met
      obtain rfl : same = next := Option.some.inj (returned.symm.trans stepped)
      refine ⟨met, fun other reached => ?_⟩
      obtain rfl : same = other := Option.some.inj (stepped.symm.trans reached)
      exact (ih holds (fits.2 same stepped)).mp served
    · rintro ⟨met, later⟩
      obtain ⟨next, stepped, holds⟩ := kept state call start fits.1 met
      exact ⟨gives state start, next, stepped,
        (ih holds (fits.2 next stepped)).mpr (later next stepped)⟩

/-! ### Loops -/

theorem foldlM_keeps_along {turn : State → Call → Option State} {inv : State → Prop}
    {cond : State → Call → Prop} {calls : List Call}
    (kept : ∀ call ∈ calls, ∀ state next, inv state → cond state call →
      turn state call = some next → inv next)
    (start : inv state) (met : Along turn cond state calls)
    (ran : calls.foldlM turn state = some final) : inv final := by
  induction calls generalizing state with
  | nil => cases ran; exact start
  | cons call rest ih =>
    rw [List.foldlM_cons] at ran
    obtain ⟨next, stepped, ran⟩ := Option.bind_eq_some_iff.mp ran
    exact ih (fun later member => kept later (List.mem_cons_of_mem _ member))
      (kept call List.mem_cons_self state next start met.1 stepped) (met.2 next stepped) ran

theorem foldlM_keeps {turn : State → Call → Option State} {inv : State → Prop} {calls : List Call}
    (kept : ∀ call ∈ calls, ∀ state next, inv state → turn state call = some next → inv next)
    (start : inv state) (ran : calls.foldlM turn state = some final) : inv final :=
  foldlM_keeps_along (fun call member state next holds (_ : True) => kept call member state next holds) start
    (along_always (fun _ _ => trivial) state calls) ran

theorem foldlM_range_keeps {turn : State → Nat → Option State} {inv : Nat → State → Prop}
    (kept : ∀ i < turns, ∀ state next, inv i state → turn state i = some next → inv (i + 1) next)
    (start : inv 0 state) (ran : (List.range turns).foldlM turn state = some final) : inv turns final := by
  induction turns generalizing final with
  | zero =>
    cases ran
    exact start
  | succ turns ih =>
    rw [List.range_succ, List.foldlM_append] at ran
    obtain ⟨middle, before, last⟩ := Option.bind_eq_some_iff.mp ran
    have turned : turn middle turns = some final := by simpa using last
    grind

theorem foldlM_range_returns {turn : State → Nat → Option State} {inv : Nat → State → Prop}
    (one : ∀ i < turns, ∀ state, inv i state → ∃ next, turn state i = some next ∧ inv (i + 1) next)
    (start : inv 0 state) : ∃ final, (List.range turns).foldlM turn state = some final ∧ inv turns final := by
  induction turns with
  | zero => exact ⟨state, rfl, start⟩
  | succ turns ih =>
    obtain ⟨middle, before, reached⟩ := ih fun i below => one i (Nat.lt_succ_of_lt below)
    simp_all [List.range_succ]

theorem foldlM_establishes {turn : State → Call → Option State} {inv : State → Prop}
    {done : Call → State → Prop}
    (kept : ∀ state call next, inv state → turn state call = some next →
      inv next ∧ done call next ∧ ∀ other, done other state → done other next)
    {calls : List Call} (start : inv state) (ran : calls.foldlM turn state = some final) :
    inv final ∧ (∀ call ∈ calls, done call final) ∧ ∀ other, done other state → done other final := by
  induction calls generalizing state with
  | nil => cases ran; exact ⟨start, by simp, fun _ already => already⟩
  | cons call rest ih =>
    grind [Option.bind_eq_some_iff]

theorem foldlM_returns_kept {turn : State → Call → Option State} {inv : State → Prop} {calls : List Call}
    (one : ∀ call ∈ calls, ∀ state, inv state → ∃ next, turn state call = some next ∧ inv next)
    (start : inv state) : ∃ final, calls.foldlM turn state = some final ∧ inv final := by
  induction calls generalizing state with
  | nil => exact ⟨state, rfl, start⟩
  | cons call rest ih =>
    grind [List.mem_cons_self]

theorem foldlM_returns {turn : State → Call → Option State} {stock : State → Nat} {cost : Nat}
    (one : ∀ state call, cost ≤ stock state →
      ∃ next, turn state call = some next ∧ stock state ≤ stock next + cost)
    (calls : List Call) (enough : cost * calls.length ≤ stock state) :
    ∃ final, calls.foldlM turn state = some final ∧
      stock state ≤ stock final + cost * calls.length := by
  induction calls generalizing state with
  | nil => exact ⟨state, rfl, Nat.le_add_right _ _⟩
  | cons call rest ih =>
    rw [List.length_cons, Nat.mul_succ] at enough ⊢
    obtain ⟨next, stepped, used⟩ := one state call (by omega)
    grind

/-! ### Calls with answers -/

variable {Answer Abstract : Type}

/-- The answers of a sequence of calls that always return, and the state after
them. -/
def respond (serve : State → Call → Answer × State) : State → List Call → List Answer × State
  | state, [] => ([], state)
  | state, call :: rest =>
    let (answer, next) := serve state call
    let (answers, final) := respond serve next rest
    (answer :: answers, final)

theorem respond_refines {serve : State → Call → Answer × State}
    {spec : Abstract → Call → Answer × Abstract} {view : State → Abstract} {valid : Call → Prop}
    (one : ∀ state call, valid call → (serve state call).1 = (spec (view state) call).1 ∧
      view (serve state call).2 = (spec (view state) call).2)
    {calls : List Call} (allowed : ∀ call ∈ calls, valid call) :
    (respond serve state calls).1 = (respond spec (view state) calls).1 ∧
      view (respond serve state calls).2 = (respond spec (view state) calls).2 := by
  induction calls generalizing state with
  | nil => exact ⟨rfl, rfl⟩
  | cons call rest ih =>
    simp_all [respond]

/-- The answers of a sequence of calls that may fail to return. -/
def attempt (serve : State → Call → Option (Answer × State)) :
    State → List Call → Option (List Answer × State)
  | state, [] => some ([], state)
  | state, call :: rest => do
    let (answer, next) ← serve state call
    let (answers, final) ← attempt serve next rest
    some (answer :: answers, final)

theorem attempt_simulates {serve : State → Call → Option (Answer × State)}
    {spec : Abstract → Call → Answer × Abstract} {sim : Nat → State → Abstract → Prop}
    {valid : Call → Prop}
    (one : ∀ budget state abstract call, sim (budget + 1) state abstract → valid call →
      ∃ next, serve state call = some ((spec abstract call).1, next) ∧
        sim budget next (spec abstract call).2)
    {calls : List Call} (allowed : ∀ call ∈ calls, valid call)
    (start : sim (calls.length + budget) state abstract) :
    ∃ final, attempt serve state calls = some ((respond spec abstract calls).1, final) ∧
      sim budget final (respond spec abstract calls).2 := by
  induction calls generalizing state abstract with
  | nil =>
    rw [List.length_nil, Nat.zero_add] at start
    exact ⟨state, rfl, start⟩
  | cons call rest ih =>
    rw [List.length_cons, Nat.add_right_comm] at start
    obtain ⟨next, answered, sims⟩ := one _ state abstract call start (allowed call List.mem_cons_self)
    grind [attempt, respond]

end MandelbrotOS.Runs
