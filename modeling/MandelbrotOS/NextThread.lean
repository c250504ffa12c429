import MandelbrotOS.RoundRobin

/-! The search of `sched_get_next_thread`, with the lock bits it touches. It goes
round a queue once, starting one place behind the index it is given, and only the
equality of an index with that start ends a search that finds nothing. A start
outside the queue would never be met again; the indices recorded on a CPU are
inside whatever queue they are used with, because queues only grow. -/
namespace MandelbrotOS.NextThread
open Scheduler SchedulerRotation SchedulerProofs RoundRobin Runs

variable {Cpu : Type} {s next : State Cpu}

/-! ## The search -/

/-- `LOCK_ACQUIRE` on a thread's lock: the bit is set, the old one tells whether the
lock was free. -/
def lockAcquire (s : State Cpu) (t : ThreadPtr) : State Cpu × Bool :=
  (s.setLock t true, !(s.thread t).lock)

/-- The loop of `sched_get_next_thread` on the state, with the indices inspected so
far. It returns the new index and thread or NULL; `none` is a search that does not
end. -/
def searchLoop (current : Option ThreadPtr) (origI priority : Nat) :
    Nat → Nat → State Cpu → List Nat → Option (State Cpu × Option (Nat × ThreadPtr) × List Nat)
  | 0, _, _, _ => none
  | fuel + 1, index, s, seen =>
    let index := if index ≥ (s.threads priority).length then 0 else index
    match (s.threads priority)[index]? with
    | none => none
    | some t =>
      if current = some t then some (s, some (index, t), seen ++ [index])
      else if (lockAcquire s t).2 then
        some ((lockAcquire s t).1, some (index, t), seen ++ [index])
      else if index = origI then some ((lockAcquire s t).1, none, seen ++ [index])
      else searchLoop current origI priority fuel (index + 1) (lockAcquire s t).1 (seen ++ [index])

/-- `sched_get_next_thread`. -/
def search (s : State Cpu) (current : Option ThreadPtr) (origI priority : Nat) :
    Option (State Cpu × Option (Nat × ThreadPtr) × List Nat) :=
  searchLoop current origI priority ((s.threads priority).length + 1) (origI + 1) s []

/-! ## What is asked of it -/

/-- The order `orig_i + 1, ..., n - 1, 0, ..., orig_i`. -/
def scanOrder (n origI : Nat) : List Nat := List.range' (origI + 1) (n - (origI + 1)) ++ List.range (origI + 1)

/-- A thread the search may return. -/
def Takeable (s : State Cpu) (current : Option ThreadPtr) (t : ThreadPtr) : Prop :=
  current = some t ∨ (s.thread t).lock = false

/-- How a search is to end: at the first thread of the order that it may take, with that
lock acquired and no later thread inspected, or, exactly if there is none, with NULL
after all of them and nothing changed. -/
def Scans (s : State Cpu) (current : Option ThreadPtr) (origI level : Nat)
    (result : Option (State Cpu × Option (Nat × ThreadPtr) × List Nat)) : Prop :=
  (∃ passed index t, passed ++ [index] <+: scanOrder (s.threads level).length origI ∧
    (s.threads level)[index]? = some t ∧ Takeable s current t ∧
    (∀ place ∈ passed, ∀ other, (s.threads level)[place]? = some other → ¬ Takeable s current other) ∧
    result = some (acquire s current t, some (index, t), passed ++ [index])) ∨
  ((∀ t ∈ s.threads level, (s.thread t).lock = true ∧ current ≠ some t) ∧
    result = some (s, none, scanOrder (s.threads level).length origI))

/-- The same queues, records and CPUs with any other lock bits. -/
def relock (s : State Cpu) (locks : ThreadPtr → Bool) : State Cpu :=
  { s with thread := fun t => { s.thread t with lock := locks t } }

/-- A call of `sched_enqueue`, or of `schedule` on some CPU. -/
inductive Call (Cpu : Type) where
  | enqueue (t : ThreadPtr)
  | schedule (cpu : Cpu)

def step [DecidableEq Cpu] (s : State Cpu) : Call Cpu → Option (State Cpu)
  | .enqueue t => some (schedEnqueue s t)
  | .schedule cpu => schedule s cpu

/-- Every CPU has come up and not scheduled yet. The queues may hold anything. -/
def ComeUp (s : State Cpu) : Prop := ∀ cpu, ∃ locals, s.cpus cpu = smpInitCpu locals

/-- The search of the next call on any CPU starts inside its queue and, whatever the
lock bits are, scans all of it, each place once. -/
def Searching (s : State Cpu) : Prop := ∀ cpu chosen,
  chooseLevel s.threads levelTurns (s.cpus cpu) = some chosen →
    chosen.lastRunThreadIndex chosen.currentPriority < (s.threads chosen.currentPriority).length ∧
    (scanOrder (s.threads chosen.currentPriority).length
      (chosen.lastRunThreadIndex chosen.currentPriority)).Perm
        (List.range (s.threads chosen.currentPriority).length) ∧
    ∀ locks, Scans (relock s locks) (s.cpus cpu).currentThread
      (chosen.lastRunThreadIndex chosen.currentPriority) chosen.currentPriority
      (search (relock s locks) (s.cpus cpu).currentThread
        (chosen.lastRunThreadIndex chosen.currentPriority) chosen.currentPriority)

/-! ## One round -/

theorem scanOrder_perm (start : origI < n) : (scanOrder n origI).Perm (List.range n) := by
  have whole := @List.range'_append_1 0 (origI + 1) (n - (origI + 1))
  rw [Nat.zero_add, Nat.add_sub_cancel' start, ← List.range_eq_range', ← List.range_eq_range'] at whole
  rw [← whole]
  exact List.perm_append_comm

theorem scanOrder_getElem (start : origI < n) (k : Nat) : (scanOrder n origI)[k]? =
    if origI + 1 + k < n then some (origI + 1 + k) else if k < n then some (origI + 1 + k - n) else none := by
  rw [scanOrder, List.getElem?_append, List.length_range']
  grind

theorem scanOrder_next (start : origI < n) (order : scanOrder n origI = seen ++ here :: rest) :
    here < n ∧ (here = origI ↔ rest = []) ∧
      ∀ next later, rest = next :: later → (if here + 1 ≥ n then 0 else here + 1) = next := by
  have size := congrArg List.length order
  have now := scanOrder_getElem start seen.length
  have onward := scanOrder_getElem start (seen.length + 1)
  grind

theorem lockAcquire_locked (locked : (s.thread t).lock = true) : lockAcquire s t = (s, false) := by
  have same : { s.thread t with lock := true } = s.thread t := by rw [← locked]
  simp_all [lockAcquire, State.setLock, State.setThread]

theorem searchLoop_scans {index : Nat} (start : origI < (s.threads level).length)
    (order : scanOrder (s.threads level).length origI = seen ++ here :: rest)
    (wrapped : (if index ≥ (s.threads level).length then 0 else index) = here) (enough : rest.length < fuel)
    (passed : ∀ place ∈ seen, ∀ other, (s.threads level)[place]? = some other → ¬ Takeable s current other) :
    Scans s current origI level (searchLoop current origI level fuel index s seen) := by
  induction fuel generalizing seen here rest index with
  | zero => omega
  | succ fuel ih =>
    obtain ⟨inside, last, onward⟩ := scanOrder_next start order
    have held := List.getElem?_eq_getElem inside
    generalize (s.threads level)[here] = t at held
    have stretch : seen ++ [here] <+: scanOrder (s.threads level).length origI :=
      ⟨rest, by rw [order, List.append_assoc, List.singleton_append]⟩
    simp only [searchLoop, wrapped, held]
    by_cases own : current = some t
    · rw [if_pos own]
      exact Or.inl ⟨seen, here, t, stretch, held, Or.inl own, passed, by rw [acquire, if_pos own]⟩
    · rw [if_neg own]
      cases lock : (s.thread t).lock with
      | false =>
        rw [if_pos (by simp [lockAcquire, lock])]
        exact Or.inl ⟨seen, here, t, stretch, held, Or.inr lock, passed, by rw [acquire, if_neg own, lockAcquire]⟩
      | true =>
        have passed' : ∀ place ∈ seen ++ [here], ∀ other, (s.threads level)[place]? = some other →
            ¬ Takeable s current other := by
          grind [Takeable]
        simp only [lockAcquire_locked lock, Bool.false_eq_true, if_false]
        cases rest with
        | nil =>
          rw [if_pos (last.mpr rfl), ← order]
          refine Or.inr ⟨fun other member => ?_, rfl⟩
          obtain ⟨place, below, there⟩ := List.mem_iff_getElem.mp member
          have visited := (scanOrder_perm start).mem_iff.mpr (List.mem_range.mpr below)
          rw [order] at visited
          simpa [Takeable, and_comm] using passed' place visited other (by rw [List.getElem?_eq_getElem below, there])
        | cons next later =>
          rw [if_neg fun same => List.cons_ne_nil _ _ (last.mp same)]
          exact ih (by rw [order, List.append_assoc]; rfl) (onward next later rfl) (Nat.lt_of_succ_lt_succ enough) passed'

theorem search_scans (start : origI < (s.threads level).length) (current : Option ThreadPtr) :
    Scans s current origI level (search s current origI level) := by
  have size := (scanOrder_perm start).length_eq
  have first := scanOrder_getElem start 0
  cases order : scanOrder (s.threads level).length origI with
  | nil =>
    grind
  | cons here rest =>
    rw [order, List.length_cons, List.length_range] at size
    rw [order, List.getElem?_cons_zero] at first
    refine searchLoop_scans start order ?_ (by omega) (by simp)
    grind

/-! ## The search `schedule` makes -/

/-- How a search ends, without the state. -/
def pickOf : Option (State Cpu × Option (Nat × ThreadPtr) × List Nat) → Pick
  | none => .spins
  | some (_, none, _) => .null
  | some (_, some (index, _), _) => .found index

theorem nextThread_eq {index : Nat} {seen : List Nat} :
    nextThread (s.threads level) s.thread current origI fuel index =
      pickOf (searchLoop current origI level fuel index s seen) := by
  induction fuel generalizing index seen with
  | zero => rfl
  | succ fuel ih =>
    simp only [nextThread, searchLoop]
    generalize (if index ≥ (s.threads level).length then 0 else index) = here
    cases (s.threads level)[here]? with
    | none => rfl
    | some t =>
      by_cases own : current = some t
      · simp [own, pickOf]
      · cases lock : (s.thread t).lock with
        | false => simp [own, lock, lockAcquire, pickOf]
        | true =>
          simp only [own, lock, lockAcquire_locked lock, Bool.true_eq_false, Bool.false_eq_true, or_self, if_false]
          split
          · rfl
          · exact ih

theorem schedGetNextThread_eq (s : State Cpu) (current : Option ThreadPtr) (origI priority : Nat) :
    schedGetNextThread s current origI priority = pickOf (search s current origI priority) :=
  nextThread_eq

/-! ## Runs -/

/-- A CPU's rotation stays in the array, and what it recorded for a level is inside
the queue of that level, or still 0. -/
structure Recording (s : State Cpu) : Prop where
  inside : ∀ cpu, InRotation (s.cpus cpu)
  indexed : ∀ cpu level, level < priorityLevels →
    (s.cpus cpu).lastRunThreadIndex level = 0 ∨
      (s.cpus cpu).lastRunThreadIndex level < (s.threads level).length

theorem recording_comeUp (up : ComeUp s) : Recording s := by
  constructor
  · intro cpu
    obtain ⟨locals, fresh⟩ := up cpu
    simp [fresh, smpInitCpu, InRotation, priorityLevels]
  · intro cpu level low
    obtain ⟨locals, fresh⟩ := up cpu
    exact Or.inl (by simp [fresh, smpInitCpu, low])

theorem schedEnqueue_cpus (s : State Cpu) (t : ThreadPtr) : (schedEnqueue s t).cpus = s.cpus := by
  rw [schedEnqueue]
  split <;> rfl

theorem schedEnqueue_length (s : State Cpu) (t : ThreadPtr) (level : Nat) :
    (s.threads level).length ≤ ((schedEnqueue s t).threads level).length := by
  rw [schedEnqueue]
  split
  · exact Nat.le_refl _
  · grind

theorem recording_enqueue (recording : Recording s) (t : ThreadPtr) : Recording (schedEnqueue s t) := by
  constructor
  · rw [schedEnqueue_cpus]
    exact recording.inside
  · intro cpu level low
    rw [schedEnqueue_cpus]
    rcases recording.indexed cpu level low with zero | below
    · exact Or.inl zero
    · grind [schedEnqueue_length]

theorem start_inside (recording : Recording s)
    (picked : chooseLevel s.threads levelTurns (s.cpus cpu) = some chosen) :
    chosen.lastRunThreadIndex chosen.currentPriority < (s.threads chosen.currentPriority).length := by
  have level := (chooseLevel_inRotation (recording.inside cpu) picked)
  have some := List.length_pos_of_ne_nil (chooseLevel_threaded picked)
  rw [(chooseLevel_keeps picked).2]
  rcases recording.indexed cpu chosen.currentPriority (by rw [InRotation] at level; omega) with zero | below
  · rwa [zero]
  · exact below

variable [DecidableEq Cpu]

theorem schedule_records (ran : schedule s cpu = some next)
    (picked : chooseLevel s.threads levelTurns (s.cpus cpu) = some chosen) :
    (next.cpus cpu).lastRunThreadIndex = (s.cpus cpu).lastRunThreadIndex ∨
      ∃ index < (s.threads chosen.currentPriority).length, (next.cpus cpu).lastRunThreadIndex =
        Function.update (s.cpus cpu).lastRunThreadIndex chosen.currentPriority index := by
  have indices := (chooseLevel_keeps picked).2
  obtain ⟨chosen', picked', ⟨rfl, _⟩ | ⟨index, t, _, held, _, ⟨_, _, rfl⟩ | ⟨_, rfl⟩⟩⟩ := schedule_cases ran
  all_goals
    rw [picked] at picked'
    cases picked'
  · exact Or.inl (by simp [indices])
  · exact Or.inl (by simp [indices])
  · refine Or.inr ⟨index, (List.getElem?_eq_some_iff.mp held).1, ?_⟩
    rw [switchTo_cpus, Function.update_self, indices]

theorem recording_schedule (recording : Recording s) (ran : schedule s cpu = some next) : Recording next := by
  obtain ⟨queues, away, chosen, picked, priority, peg⟩ := schedule_frame ran
  constructor
  · intro other
    by_cases mine : other = cpu
    · subst mine
      rw [InRotation, priority, peg]
      exact chooseLevel_inRotation (recording.inside other) picked
    · rw [away other mine]
      exact recording.inside other
  · intro other level low
    rw [queues]
    by_cases mine : other = cpu
    · subst mine
      rcases schedule_records ran picked with same | ⟨index, inside, changed⟩
      · rw [same]
        exact recording.indexed other level low
      · rw [changed]
        by_cases here : level = chosen.currentPriority
        · simp_all
        · rw [Function.update_of_ne here]
          exact recording.indexed other level low
    · rw [away other mine]
      exact recording.indexed other level low

theorem step_recording (recording : Recording s) (stepped : step s call = some next) : Recording next := by
  cases call with
  | enqueue t =>
    cases stepped
    exact recording_enqueue recording t
  | schedule cpu => exact recording_schedule recording stepped

/-- A call of `schedule` returns as soon as some thread is queued, and every call keeps
what is asked of the records for that. -/
theorem schedule_ends (recording : Recording s) (cpu : Cpu) (low : level < priorityLevels)
    (threaded : s.threads level ≠ []) : (∃ next, schedule s cpu = some next) ∧
      ∀ (call : Call Cpu) (next : State Cpu), step s call = some next → Recording next := by
  refine ⟨?_, fun call next stepped => step_recording recording stepped⟩
  obtain ⟨chosen, picked⟩ := chooseLevel_returns (recording.inside cpu) low threaded
  simp only [schedule, picked, Option.bind_some, schedGetNextThread_eq]
  rcases search_scans (start_inside recording picked) (s.cpus cpu).currentThread with
    ⟨passed, index, t, _, held, _, _, found⟩ | ⟨_, nothing⟩
  · simp_all [pickOf]
  · rw [nothing]
    exact ⟨_, rfl⟩

theorem fourThreads_schedule_ends : ∃ next, schedule fourThreads () = some next ∧ Recording next := by
  obtain ⟨⟨next, ran⟩, kept⟩ := schedule_ends (s := fourThreads) (recording_comeUp fun _ => ⟨{}, rfl⟩) ()
    (show 0 < priorityLevels by decide) (by decide)
  exact ⟨next, ran, kept (.schedule ()) next ran⟩

/-- **The search is a complete cyclic scan**, whatever calls of `sched_enqueue` and
`schedule` came before on whatever CPUs. -/
theorem search_scans_queue (up : ComeUp s) (calls : List (Call Cpu)) : Throughout step Searching s calls := by
  have kept : Throughout step Recording s calls :=
    throughout_of_kept (fun _ _ _ recording stepped => step_recording recording stepped) (recording_comeUp up)
  refine throughout_mono (fun state recording cpu chosen picked => ?_) kept
  have start := start_inside recording picked
  simp_all [relock, scanOrder_perm, search_scans]

theorem fourThreads_scanned :
    Throughout step Searching fourThreads [.enqueue 5, .schedule (), .schedule ()] :=
  search_scans_queue (fun _ => ⟨{}, rfl⟩) _

end MandelbrotOS.NextThread
