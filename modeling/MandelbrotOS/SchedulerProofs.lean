import Mathlib.Data.List.Basic
import MandelbrotOS.Runs
import MandelbrotOS.SchedulerRotation

/-! Exclusive scheduling across CPUs. Each CPU decides "the same thread again"
by comparing a level and an index with the ones it recorded last. The record
names its current thread after a switch, and no longer does after a search
that came back empty-handed, which moves the level alone. Exclusion survives a
run exactly while no call trusts a record that misleads it and no running
thread has its record, lock included, rebuilt underneath it. -/
namespace MandelbrotOS.SchedulerProofs
open Scheduler SchedulerRotation Runs

variable {Cpu : Type} {s next : State Cpu}

/-- The interleaved events: a call that found `sched_lock` taken, a call that
ran under it, the enqueueing of a new thread, and a running thread replacing
its own program. -/
inductive Event (Cpu : Type) where
  | scheduleBusy (cpu : Cpu)
  | schedule (cpu : Cpu)
  | enqueueNew (t : ThreadPtr) (parent : ProcPtr) (priority : Nat) (uid gid : Int)
  | replaceProgram (cpu : Cpu) (pagemap : PagemapPtr)

/-- The thread is in some run queue. -/
def Queued (s : State Cpu) (t : ThreadPtr) : Prop := ∃ level, t ∈ s.threads level

/-- No record of that address is queued: what a fresh allocation promises. -/
def Unlisted (s : State Cpu) (t : ThreadPtr) : Prop := ∀ level < priorityLevels, t ∉ s.threads level

instance (s : State Cpu) (t : ThreadPtr) : Decidable (Unlisted s t) :=
  inferInstanceAs (Decidable (∀ level < priorityLevels, _))

def step [DecidableEq Cpu] (s : State Cpu) : Event Cpu → Option (State Cpu)
  | .scheduleBusy _ => some s
  | .schedule cpu => schedule s cpu
  | .enqueueNew t parent priority uid gid =>
    if Unlisted s t ∧ priority < priorityLevels then
      some (schedNewThread s t parent priority uid gid true)
    else none
  | .replaceProgram cpu pagemap =>
    (s.cpus cpu).currentThread.bind fun t => schedReplaceProgram s t pagemap

def Running (s : State Cpu) (cpu : Cpu) (t : ThreadPtr) : Prop := (s.cpus cpu).currentThread = some t

/-- At most one CPU runs a given thread, and a queued thread's lock bit is set
exactly while one CPU runs it. -/
structure Exclusive (s : State Cpu) : Prop where
  single : ∀ cpu other t, Running s cpu t → Running s other t → cpu = other
  locked : ∀ t, Queued s t → ((s.thread t).lock = true ↔ ∃! cpu, Running s cpu t)

/-- The level and index the next call on this CPU arrives at. -/
def Arrives (s : State Cpu) (cpu : Cpu) (level index : Nat) : Prop :=
  ∃ chosen, chooseLevel s.threads levelTurns (s.cpus cpu) = some chosen ∧
    chosen.currentPriority = level ∧
    schedGetNextThread s (s.cpus cpu).currentThread (chosen.lastRunThreadIndex level) level =
      .found index

/-- The level and index recorded on this CPU. -/
def Recorded (s : State Cpu) (cpu : Cpu) (level index : Nat) : Prop :=
  level = (s.cpus cpu).currentPriority ∧ index = (s.cpus cpu).lastRunThreadIndex level

/-- The record does not mislead the next call: the place it arrives at is the
recorded one exactly when the CPU's own thread stands there. -/
def RecordTells (s : State Cpu) (cpu : Cpu) : Prop :=
  ∀ own, Running s cpu own → ∀ level index, Arrives s cpu level index →
    (Recorded s cpu level index ↔ (s.threads level)[index]? = some own)

def Sensible (s : State Cpu) : Event Cpu → Prop
  | .scheduleBusy _ => True
  | .schedule cpu => RecordTells s cpu
  | .enqueueNew .. => True
  | .replaceProgram cpu _ => (s.cpus cpu).currentThread = none

/-- The recorded place still holds the CPU's own thread, as it does after every
switch. -/
def RecordNamesOwn (s : State Cpu) (cpu : Cpu) : Prop :=
  ∀ own, Running s cpu own → ∀ level index, Recorded s cpu level index →
    (s.threads level)[index]? = some own

/-- No thread stands in two places of the run queues. -/
def OnePlace (s : State Cpu) : Prop :=
  ∀ (level other index place : Nat) (t : ThreadPtr), (s.threads level)[index]? = some t →
    (s.threads other)[place]? = some t → level = other ∧ index = place

/-- Only the levels of the array are in use. -/
def Levelled (s : State Cpu) : Prop := ∀ level, priorityLevels ≤ level → s.threads level = []

/-- Any run queues of distinct threads before the first CPU schedules: every
lock is clear and nobody runs anything. -/
structure Start (s : State Cpu) : Prop where
  onePlace : OnePlace s
  levelled : Levelled s
  parented : ∀ t, Queued s t → (s.thread t).parent ≠ none
  unlocked : ∀ t, Queued s t → (s.thread t).lock = false
  idle : ∀ cpu, (s.cpus cpu).currentThread = none

/-- What every reachable state of a sensible run satisfies. -/
structure Inv (s : State Cpu) : Prop where
  exclusive : Exclusive s
  onePlace : OnePlace s
  levelled : Levelled s
  listed : ∀ cpu t, Running s cpu t → Queued s t
  parented : ∀ t, Queued s t → (s.thread t).parent ≠ none

theorem start_inv (start : Start s) : Inv s := by
  have nobody (cpu : Cpu) (t : ThreadPtr) : ¬ Running s cpu t := by
    simp [Running, start.idle cpu]
  refine ⟨⟨fun cpu _ t runs => absurd runs (nobody cpu t), fun t queued => ?_⟩, start.onePlace,
    start.levelled, fun cpu t runs => absurd runs (nobody cpu t), start.parented⟩
  simp [start.unlocked t queued, nobody]

theorem queued_of_place {level index : Nat} (place : (s.threads level)[index]? = some t) :
    Queued s t :=
  ⟨level, List.mem_of_getElem? place⟩

theorem existsUnique_running (single : ∀ cpu other t, Running s cpu t → Running s other t → cpu = other)
    (t : ThreadPtr) : (∃! cpu, Running s cpu t) ↔ ∃ cpu, Running s cpu t :=
  ⟨fun ⟨cpu, runs, _⟩ => ⟨cpu, runs⟩,
    fun ⟨cpu, runs⟩ => ⟨cpu, runs, fun other also => single other cpu t also runs⟩⟩

theorem locked_iff_running (exclusive : Exclusive s) (queued : Queued s t) :
    (s.thread t).lock = true ↔ ∃ cpu, Running s cpu t :=
  (exclusive.locked t queued).trans (existsUnique_running exclusive.single t)

theorem inv_frame (inv : Inv s) (queues : next.threads = s.threads) (records : next.thread = s.thread)
    (currents : ∀ cpu, (next.cpus cpu).currentThread = (s.cpus cpu).currentThread) : Inv next := by
  have running (cpu : Cpu) (t : ThreadPtr) : Running next cpu t ↔ Running s cpu t := by
    rw [Running, Running, currents]
  have queued (t : ThreadPtr) : Queued next t ↔ Queued s t := by rw [Queued, Queued, queues]
  refine ⟨⟨?_, ?_⟩, ?_, ?_, ?_, ?_⟩
  · simpa only [running] using inv.exclusive.single
  · simpa only [running, queued, records] using inv.exclusive.locked
  · simpa only [OnePlace, queues] using inv.onePlace
  · simpa only [Levelled, queues] using inv.levelled
  · simpa only [running, queued] using inv.listed
  · simpa only [queued, records] using inv.parented

theorem arrives_unique (one : Arrives s cpu level index) (two : Arrives s cpu level' index') :
    level = level' ∧ index = index' := by
  obtain ⟨chosen, picked, rfl, found⟩ := one
  obtain ⟨chosen', picked', rfl, found'⟩ := two
  simp_all

theorem recordTells_of_namesOwn (onePlace : OnePlace s) (names : RecordNamesOwn s cpu) :
    RecordTells s cpu := by
  intro own runs level index _
  refine ⟨fun recorded => names own runs level index recorded, fun here => ?_⟩
  have there := names own runs _ _ ⟨rfl, rfl⟩
  obtain ⟨sameLevel, samePlace⟩ := onePlace _ _ _ _ _ here there
  exact ⟨sameLevel, by rw [samePlace, sameLevel]⟩

theorem namesOwn_frame (names : RecordNamesOwn s cpu) (locals : next.cpus cpu = s.cpus cpu)
    (places : ∀ (level index : Nat) (t : ThreadPtr), (s.threads level)[index]? = some t →
      (next.threads level)[index]? = some t) : RecordNamesOwn next cpu := by
  intro own runs level index recorded
  rw [Running, locals] at runs
  rw [Recorded, locals] at recorded
  exact places level index own (names own runs level index recorded)

theorem acquire_threads : (acquire s current t).threads = s.threads := by
  rw [acquire]
  split <;> rfl

theorem acquire_cpus : (acquire s current t).cpus = s.cpus := by
  rw [acquire]
  split <;> rfl

/-! ## New threads and rebuilt ones -/

theorem schedNewThread_false (s : State Cpu) (t : ThreadPtr) (parent : ProcPtr) (priority : Nat)
    (uid gid : Int) :
    (schedNewThread s t parent priority uid gid false).threads = s.threads ∧
    (schedNewThread s t parent priority uid gid false).cpus = s.cpus ∧
    (schedNewThread s t parent priority uid gid false).thread =
      Function.update s.thread t (threadLiteral parent priority uid gid s.currentTid) := by
  by_cases user : (s.proc parent).user = true <;> simp [schedNewThread, user]

theorem pushed_place {threads : Nat → List ThreadPtr} {level index : Nat} :
    (Function.update threads priority (threads priority ++ [t]) level)[index]? = some x ↔
      (threads level)[index]? = some x ∨
        (level = priority ∧ index = (threads priority).length ∧ x = t) := by
  by_cases here : level = priority
  · grind
  · simp [here]

theorem append_keeps (inv : Inv s) (stranger : ¬ Queued s t) (level : priority < priorityLevels)
    (queues : next.threads = Function.update s.threads priority (s.threads priority ++ [t]))
    (currents : next.cpus = s.cpus) (others : ∀ x, x ≠ t → next.thread x = s.thread x)
    (free : (next.thread t).lock = false) (born : (next.thread t).parent ≠ none) : Inv next := by
  have place {here index : Nat} {x : ThreadPtr} : (next.threads here)[index]? = some x ↔
      (s.threads here)[index]? = some x ∨
        (here = priority ∧ index = (s.threads priority).length ∧ x = t) := by
    rw [queues]
    exact pushed_place
  have listed {x : ThreadPtr} : Queued next x ↔ Queued s x ∨ x = t := by
    simp only [Queued, List.mem_iff_getElem?, place]
    grind
  have running (cpu : Cpu) (x : ThreadPtr) : Running next cpu x ↔ Running s cpu x := by
    rw [Running, Running, currents]
  have other {x : ThreadPtr} (old : Queued s x) : x ≠ t := fun same => stranger (same ▸ old)
  have single : ∀ cpu other x, Running next cpu x → Running next other x → cpu = other := by
    simpa only [running] using inv.exclusive.single
  refine ⟨⟨single, fun x queued => ?_⟩, ?_, ?_, ?_, ?_⟩
  · rw [existsUnique_running single]
    simp only [running]
    rcases listed.mp queued with old | rfl
    · rw [others x (other old)]
      exact locked_iff_running inv.exclusive old
    · have nobody : ¬ ∃ cpu, Running s cpu x := fun ⟨cpu, runs⟩ => stranger (inv.listed cpu x runs)
      simp [free, nobody]
  · intro here there index index' x first second
    rcases place.mp first with first | ⟨rfl, rfl, rfl⟩ <;>
      rcases place.mp second with second | ⟨rfl, rfl, new⟩
    · exact inv.onePlace _ _ _ _ _ first second
    · grind [queued_of_place]
    · exact absurd (queued_of_place second) stranger
    · exact ⟨rfl, rfl⟩
  · intro here above
    rw [queues, Function.update_of_ne (by omega)]
    exact inv.levelled here above
  · intro cpu x runs
    exact listed.mpr (Or.inl (inv.listed cpu x ((running cpu x).mp runs)))
  · intro x queued
    rcases listed.mp queued with old | rfl
    · rw [others x (other old)]
      exact inv.parented x old
    · exact born

theorem not_queued_of_unlisted (inv : Inv s) (unlisted : Unlisted s t) : ¬ Queued s t := by
  rintro ⟨place, member⟩
  by_cases inside : place < priorityLevels
  · exact unlisted place inside member
  · rw [inv.levelled place (by omega)] at member
    cases member

theorem enqueueNew_joins (s : State Cpu) (t : ThreadPtr) (parent : ProcPtr) (priority : Nat)
    (uid gid : Int) :
    (schedNewThread s t parent priority uid gid true).threads =
      Function.update s.threads priority (s.threads priority ++ [t]) ∧
    (schedNewThread s t parent priority uid gid true).cpus = s.cpus ∧
    (schedNewThread s t parent priority uid gid true).thread = Function.update s.thread t
      { threadLiteral parent priority uid gid s.currentTid with queued := true } := by
  obtain ⟨queues, cpus, records⟩ := schedNewThread_false s t parent priority uid gid
  simp_all [schedNewThread, schedEnqueue, threadLiteral]

theorem enqueueNew_keeps (inv : Inv s) (unlisted : Unlisted s t) (level : priority < priorityLevels) :
    Inv (schedNewThread s t parent priority uid gid true) := by
  obtain ⟨queues, cpus, records⟩ := enqueueNew_joins s t parent priority uid gid
  refine append_keeps inv (not_queued_of_unlisted inv unlisted) level queues cpus ?_ ?_ ?_
  · simp_all
  · simp [records, threadLiteral]
  · simp [records, threadLiteral]

theorem replaceProgram_rebuilds (ran : schedReplaceProgram s t pagemap = some next) :
    next.threads = s.threads ∧ next.cpus = s.cpus ∧ ∃ parent, next.thread = Function.update s.thread t
      (threadLiteral parent (s.thread t).priority (s.thread t).uid (s.thread t).gid s.currentTid) := by
  obtain ⟨parent, held, rfl⟩ := Option.map_eq_some_iff.mp ran
  obtain ⟨queues, cpus, records⟩ := schedNewThread_false _ t parent
    (s.thread t).priority (s.thread t).uid (s.thread t).gid
  exact ⟨queues, cpus, parent, records⟩

theorem replaceProgram_breaks (inv : Inv s) (runs : Running s cpu t) :
    ∃ next, schedReplaceProgram s t pagemap = some next ∧ ¬ Exclusive next := by
  have queued := inv.listed cpu t runs
  obtain ⟨parent, held⟩ := Option.ne_none_iff_exists'.mp (inv.parented t queued)
  have returns : ∃ next, schedReplaceProgram s t pagemap = some next := by
    rw [schedReplaceProgram, held]
    exact ⟨_, rfl⟩
  obtain ⟨next, ran⟩ := returns
  refine ⟨next, ran, fun exclusive => ?_⟩
  obtain ⟨queues, cpus, _, records⟩ := replaceProgram_rebuilds ran
  have listed : Queued next t := by rwa [Queued, queues]
  have running : Running next cpu t := by rwa [Running, cpus]
  have locked := (locked_iff_running exclusive listed).mpr ⟨cpu, running⟩
  rw [records, Function.update_self] at locked
  cases locked

variable [DecidableEq Cpu]

/-! ## What one call of schedule does -/

theorem rotate_keeps (locals : Locals) :
    (rotate locals).currentThread = locals.currentThread ∧
      (rotate locals).lastRunThreadIndex = locals.lastRunThreadIndex := by
  dsimp only [rotate]
  split <;> exact ⟨rfl, rfl⟩

theorem chooseLevel_keeps (picked : chooseLevel threads fuel locals = some chosen) :
    chosen.currentThread = locals.currentThread ∧
      chosen.lastRunThreadIndex = locals.lastRunThreadIndex := by
  induction fuel generalizing locals with
  | zero => simp [chooseLevel] at picked
  | succ fuel ih =>
    grind [chooseLevel, rotate_keeps]

theorem nextThread_found (stopped : nextThread queue thread current origI fuel index = .found place) :
    ∃ t, queue[place]? = some t ∧ (current = some t ∨ (thread t).lock = false) := by
  induction fuel generalizing index with
  | zero => simp [nextThread] at stopped
  | succ fuel ih =>
    grind [nextThread]

theorem schedule_cases (ran : schedule s cpu = some next) :
    ∃ chosen, chooseLevel s.threads levelTurns (s.cpus cpu) = some chosen ∧
      ((next = s.setLocals cpu chosen ∧ ∀ level index, ¬ Arrives s cpu level index) ∨
      ∃ index t, Arrives s cpu chosen.currentPriority index ∧
        (s.threads chosen.currentPriority)[index]? = some t ∧
        ((s.cpus cpu).currentThread = some t ∨ (s.thread t).lock = false) ∧
        (((s.cpus cpu).currentThread.isSome ∧ Recorded s cpu chosen.currentPriority index ∧
            next = (acquire s (s.cpus cpu).currentThread t).setLocals cpu chosen) ∨
          (¬ ((s.cpus cpu).currentThread.isSome ∧ Recorded s cpu chosen.currentPriority index) ∧
            next = switchTo (acquire s (s.cpus cpu).currentThread t) cpu chosen t index))) := by
  obtain ⟨chosen, picked, ran⟩ := Option.bind_eq_some_iff.mp ran
  refine ⟨chosen, picked, ?_⟩
  dsimp only at ran
  generalize stopped : schedGetNextThread s (s.cpus cpu).currentThread
    (chosen.lastRunThreadIndex chosen.currentPriority) chosen.currentPriority = pick at ran
  cases pick with
  | spins => cases ran
  | null =>
    refine Or.inl ⟨(Option.some.inj ran).symm, ?_⟩
    rintro level index ⟨chosen', picked', rfl, found⟩
    simp_all
  | found index =>
    obtain ⟨t, place, result⟩ := Option.map_eq_some_iff.mp ran
    obtain ⟨t', place', takeable⟩ := nextThread_found stopped
    rw [place] at place'
    cases place'
    refine Or.inr ⟨index, t, ⟨chosen, picked, rfl, stopped⟩, place, takeable, ?_⟩
    grind [Recorded]

theorem schedule_returns (arrives : Arrives s cpu level index) :
    ∃ next, schedule s cpu = some next := by
  obtain ⟨chosen, picked, rfl, stopped⟩ := arrives
  obtain ⟨t, place, _⟩ := nextThread_found stopped
  simp_all [schedule]

/-! ## When a call keeps exclusion -/

theorem switchTo_threads : (switchTo s cpu chosen t index).threads = s.threads := by
  cases held : chosen.currentThread <;> simp [switchTo, held]

theorem switchTo_running :
    Running (switchTo s cpu chosen t index) other x ↔
      (other = cpu ∧ x = t) ∨ (other ≠ cpu ∧ Running s other x) := by
  by_cases own : other = cpu
  · subst own
    simp [switchTo, Running, eq_comm]
  · cases held : chosen.currentThread <;> simp [switchTo, held, Running, own]

theorem switchTo_thread (x : ThreadPtr) :
    (switchTo s cpu chosen t index).thread x =
      if chosen.currentThread = some x then { s.thread x with lock := false } else s.thread x := by
  cases held : chosen.currentThread with
  | none => simp [switchTo, held]
  | some old =>
    by_cases gone : old = x
    · subst gone
      simp [switchTo, held]
    · simp_all [switchTo, Ne.symm]

theorem handover_lock (same : chosen.currentThread = (s.cpus cpu).currentThread)
    (nobody : ¬ Running s cpu t) (x : ThreadPtr) :
    ((switchTo (s.setLock t true) cpu chosen t index).thread x).lock = true ↔
      x = t ∨ ((s.thread x).lock = true ∧ ¬ Running s cpu x) := by
  rw [switchTo_thread, Running, ← same]
  by_cases new : x = t
  · subst new
    have other : ¬ chosen.currentThread = some x := fun held => nobody (same.symm.trans held)
    simp [other]
  · by_cases gone : chosen.currentThread = some x <;> simp [gone, new]

theorem handover_parent (x : ThreadPtr) :
    ((switchTo (s.setLock t true) cpu chosen t index).thread x).parent = (s.thread x).parent := by
  have kept : ((s.setLock t true).thread x).parent = (s.thread x).parent := by
    by_cases new : x = t
    · subst new
      simp
    · simp [new]
  rw [switchTo_thread]
  split <;> exact kept

theorem switch_keeps (inv : Inv s) (queued : Queued s t) (free : (s.thread t).lock = false)
    (same : chosen.currentThread = (s.cpus cpu).currentThread) :
    Inv (switchTo (s.setLock t true) cpu chosen t index) := by
  have nobody (other : Cpu) : ¬ Running s other t := by
    intro runs
    have locked := (locked_iff_running inv.exclusive queued).mpr ⟨other, runs⟩
    simp [free] at locked
  have queues : (switchTo (s.setLock t true) cpu chosen t index).threads = s.threads := switchTo_threads
  have running (other : Cpu) (x : ThreadPtr) :
      Running (switchTo (s.setLock t true) cpu chosen t index) other x ↔
        (other = cpu ∧ x = t) ∨ (other ≠ cpu ∧ Running s other x) := switchTo_running
  have single : ∀ one other x, Running (switchTo (s.setLock t true) cpu chosen t index) one x →
      Running (switchTo (s.setLock t true) cpu chosen t index) other x → one = other := by
    intro one other x first second
    rcases (running one x).mp first with ⟨here, rfl⟩ | ⟨_, first⟩ <;>
      rcases (running other x).mp second with ⟨there, new⟩ | ⟨_, second⟩
    · exact here.trans there.symm
    · exact absurd second (nobody other)
    · exact absurd (new ▸ first) (nobody one)
    · exact inv.exclusive.single one other x first second
  refine ⟨⟨single, fun x listed => ?_⟩, ?_, ?_, ?_, ?_⟩
  · rw [existsUnique_running single, handover_lock same (nobody cpu)]
    have before := locked_iff_running inv.exclusive (t := x) (by simpa [Queued, queues] using listed)
    rw [before]
    constructor
    · grind
    · rintro ⟨other, runs⟩
      rcases (running other x).mp runs with ⟨_, rfl⟩ | ⟨away, runs⟩
      · exact Or.inl rfl
      · exact Or.inr ⟨⟨other, runs⟩, fun own => away (inv.exclusive.single other cpu x runs own)⟩
  · simpa only [OnePlace, queues] using inv.onePlace
  · simpa only [Levelled, queues] using inv.levelled
  · intro other x runs
    rw [Queued, queues]
    rcases (running other x).mp runs with ⟨_, rfl⟩ | ⟨_, runs⟩
    · exact queued
    · exact inv.listed other x runs
  · intro x listed
    rw [handover_parent]
    exact inv.parented x (by simpa [Queued, queues] using listed)

theorem schedule_keeps (inv : Inv s) (tells : RecordTells s cpu) (ran : schedule s cpu = some next) :
    Inv next := by
  have moved (chosen : Locals) (same : chosen.currentThread = (s.cpus cpu).currentThread) :
      Inv (s.setLocals cpu chosen) := by
    refine inv_frame inv rfl rfl fun other => ?_
    by_cases own : other = cpu
    · subst own
      simpa using same
    · simp [own]
  obtain ⟨chosen, picked, outcome⟩ := schedule_cases ran
  have same := (chooseLevel_keeps picked).1
  rcases outcome with ⟨rfl, _⟩ | ⟨index, t, arrives, place, takeable, outcome⟩
  · exact moved chosen same
  rcases outcome with ⟨busy, recorded, rfl⟩ | ⟨unrecorded, rfl⟩
  · obtain ⟨own, runs⟩ := Option.isSome_iff_exists.mp busy
    have here := (tells own runs _ index arrives).mp recorded
    simp_all [acquire]
  · have other : (s.cpus cpu).currentThread ≠ some t := by
      intro runs
      have recorded := (tells t runs _ index arrives).mpr place
      exact unrecorded ⟨by simp [runs], recorded⟩
    rw [acquire, if_neg other]
    grind [switch_keeps, queued_of_place]

theorem schedule_breaks (inv : Inv s) (misled : ¬ RecordTells s cpu) :
    ∃ next, schedule s cpu = some next ∧ ¬ Exclusive next := by
  simp only [RecordTells, not_forall] at misled
  obtain ⟨own, runs, level, index, arrives, wrong⟩ := misled
  obtain ⟨next, ran⟩ := schedule_returns arrives
  refine ⟨next, ran, fun exclusive => ?_⟩
  obtain ⟨chosen, picked, outcome⟩ := schedule_cases ran
  have same := (chooseLevel_keeps picked).1
  rcases outcome with ⟨_, nowhere⟩ | ⟨index', t, arrives', place, takeable, outcome⟩
  · exact nowhere level index arrives
  obtain ⟨rfl, rfl⟩ := arrives_unique arrives arrives'
  have queued := queued_of_place place
  rcases outcome with ⟨_, recorded, rfl⟩ | ⟨unrecorded, rfl⟩
  · -- The place is the recorded one, but another thread stands there.
    have other : (s.cpus cpu).currentThread ≠ some t := by
      grind [Running]
    have free := takeable.resolve_left other
    rw [acquire, if_neg other] at exclusive
    obtain ⟨holder, holds⟩ := (locked_iff_running exclusive queued).mp (by simp)
    have before : Running s holder t := by
      by_cases own : holder = cpu
      · simp_all [Running]
      · simpa [Running, own] using holds
    have locked := (locked_iff_running inv.exclusive queued).mpr ⟨holder, before⟩
    simp [free] at locked
  · -- The CPU's own thread stands elsewhere, and the switch unlocks it.
    have unlisted : ¬ Recorded s cpu chosen.currentPriority index :=
      fun recorded => unrecorded ⟨by rw [runs]; rfl, recorded⟩
    have here : t = own := by
      simp_all
    subst here
    have running : Running (switchTo (acquire s (s.cpus cpu).currentThread t) cpu chosen t index) cpu t :=
      switchTo_running.mpr (Or.inl ⟨rfl, rfl⟩)
    have listed : Queued (switchTo (acquire s (s.cpus cpu).currentThread t) cpu chosen t index) t := by
      rw [Queued, switchTo_threads, acquire, if_pos (show (s.cpus cpu).currentThread = some t from runs)]
      exact queued
    have locked := (locked_iff_running exclusive listed).mpr ⟨cpu, running⟩
    rw [switchTo_thread, if_pos (same.trans runs)] at locked
    simp at locked

/-! ## Whole runs -/

theorem step_keeps (s : State Cpu) (event : Event Cpu) (next : State Cpu) (inv : Inv s)
    (sensible : Sensible s event) (stepped : step s event = some next) : Inv next := by
  cases event with
  | scheduleBusy cpu =>
    cases stepped
    exact inv
  | schedule cpu => exact schedule_keeps inv sensible stepped
  | enqueueNew t parent priority uid gid =>
    grind [step, enqueueNew_keeps]
  | replaceProgram cpu pagemap =>
    simp_all [Sensible, step]

theorem step_breaks (s : State Cpu) (event : Event Cpu) (inv : Inv s)
    (foolish : ¬ Sensible s event) : ∃ next, step s event = some next ∧ ¬ Exclusive next := by
  cases event with
  | scheduleBusy cpu => exact absurd trivial foolish
  | schedule cpu => exact schedule_breaks inv foolish
  | enqueueNew t parent priority uid gid => exact absurd trivial foolish
  | replaceProgram cpu pagemap =>
    obtain ⟨t, runs⟩ := Option.ne_none_iff_exists'.mp foolish
    simp only [step, runs, Option.bind_some]
    exact replaceProgram_breaks inv runs

/-- **Exclusive scheduling.** From any run queues, under any interleaving of
the CPUs' calls, of new threads and of program replacements, exclusion holds
in every state reached exactly when no call is misled by its CPU's record and
no running thread replaces its program. -/
theorem exclusive_throughout_iff (start : Start s) (events : List (Event Cpu)) :
    Throughout step Exclusive s events ↔ Along step Sensible s events :=
  throughout_iff_along (fun _ inv => inv.exclusive) step_keeps step_breaks (start_inv start)

/-- A thread on each of the two lowest levels, and two CPUs. -/
def twoLevels : State Bool where
  threads := fun level => if level = 0 then [1] else if level = 1 then [2] else []
  thread := fun _ => { parent := some 0 }
  proc := fun _ => {}
  cpus := fun _ => {}

private theorem twoLevels_place {level index : Nat} : (twoLevels.threads level)[index]? = some t ↔
    index = 0 ∧ ((level = 0 ∧ t = 1) ∨ (level = 1 ∧ t = 2)) := by
  by_cases zero : level = 0
  · simp [twoLevels, zero, List.getElem?_singleton, eq_comm]
  · by_cases one : level = 1
    · simp [twoLevels, one, List.getElem?_singleton, eq_comm]
    · simp [twoLevels, zero, one]

theorem twoLevels_start : Start twoLevels where
  onePlace := by
    intro level other index place t first second
    grind [twoLevels_place]
  levelled := by
    intro level above
    grind [priorityLevels, twoLevels]
  parented := by simp [twoLevels]
  unlocked := by simp [twoLevels]
  idle := by simp [twoLevels]

theorem twoLevels_first_calls_exclusive :
    Throughout step Exclusive twoLevels [.schedule false, .schedule false, .schedule true] := by
  refine (exclusive_throughout_iff twoLevels_start _).mpr ⟨?_, ?_⟩
  · intro own runs
    cases runs
  · rintro _ ⟨⟩
    constructor
    · intro own runs level index arrives
      obtain ⟨rfl, rfl⟩ := arrives_unique arrives ⟨_, rfl, rfl, rfl⟩
      cases runs
      unfold Recorded
      decide
    · rintro _ ⟨⟩
      refine ⟨?_, fun _ _ => trivial⟩
      intro own runs
      cases runs

/-- CPU `false` runs thread 1, CPU `true` thread 2. A vain search of level 1 leaves CPU
`false` there; its next call takes its own thread on level 0 for another
and unlocks it, and CPU `true` runs it. -/
theorem two_cpus_run_one_thread :
    ¬ ∀ (s : State Bool) (events : List (Event Bool)), Start s → Throughout step Exclusive s events := by
  intro always
  have held := always twoLevels [.schedule false, .schedule true, .schedule true, .schedule false,
    .schedule false, .schedule true] twoLevels_start
  have reached := ((((((held.2 _ rfl).2 _ rfl).2 _ rfl).2 _ rfl).2 _ rfl).2 _ rfl)
  have both := reached.single false true 1 rfl rfl
  cases both

/-! ## Runs that need not look at the record -/

/-- The search of a call comes back with a thread; the other events as in
`Sensible`. -/
def FindsThread (s : State Cpu) : Event Cpu → Prop
  | .schedule cpu => ∃ level index, Arrives s cpu level index
  | event => Sensible s event

theorem switchTo_cpus : (switchTo s cpu chosen t index).cpus = Function.update s.cpus cpu { chosen with
    currentThread := some t
    lastRunThreadIndex := Function.update chosen.lastRunThreadIndex chosen.currentPriority index } := by
  cases held : chosen.currentThread <;> simp [switchTo, held]

theorem schedule_frame (ran : schedule s cpu = some next) :
    next.threads = s.threads ∧ (∀ other, other ≠ cpu → next.cpus other = s.cpus other) ∧
      ∃ chosen, chooseLevel s.threads levelTurns (s.cpus cpu) = some chosen ∧
        (next.cpus cpu).currentPriority = chosen.currentPriority ∧
        (next.cpus cpu).currentPriorityPeg = chosen.currentPriorityPeg := by
  obtain ⟨chosen, picked, ⟨rfl, _⟩ | ⟨index, t, _, _, _, ⟨_, _, rfl⟩ | ⟨_, rfl⟩⟩⟩ := schedule_cases ran
  · simp_all
  · simp_all [acquire_threads, acquire_cpus]
  · simp_all [switchTo_threads, acquire_threads, switchTo_cpus, acquire_cpus]

theorem schedule_namesOwn (names : ∀ cpu, RecordNamesOwn s cpu) (found : Arrives s cpu level index)
    (ran : schedule s cpu = some next) (other : Cpu) : RecordNamesOwn next other := by
  obtain ⟨queues, away, _⟩ := schedule_frame ran
  by_cases mine : other = cpu
  · subst mine
    intro own runs level' index' here
    rw [queues]
    obtain ⟨chosen, picked, outcome⟩ := schedule_cases ran
    obtain ⟨same, indices⟩ := chooseLevel_keeps picked
    rcases outcome with ⟨_, nowhere⟩ | ⟨index, t, _, place, _, ⟨_, recorded, rfl⟩ | ⟨_, rfl⟩⟩
    · exact absurd found (nowhere level _)
    · -- The level is the one it was, so the record is the old one.
      simp only [Running, setLocals_cpus, Function.update_self, same] at runs
      simp only [Recorded, setLocals_cpus, Function.update_self, indices, recorded.1] at here
      exact names other own runs level' index' here
    · simp_all [Running, switchTo_cpus, Recorded]
  · exact namesOwn_frame (names other) (away other mine) fun _ _ _ held => queues ▸ held

theorem step_namesOwn (names : ∀ cpu, RecordNamesOwn s cpu) (finds : FindsThread s event)
    (stepped : step s event = some next) (cpu : Cpu) : RecordNamesOwn next cpu := by
  cases event with
  | scheduleBusy _ =>
    cases stepped
    exact names cpu
  | schedule caller =>
    obtain ⟨level, index, found⟩ := finds
    exact schedule_namesOwn names found stepped cpu
  | enqueueNew t parent priority uid gid =>
    simp only [step] at stepped
    split at stepped
    · cases stepped
      obtain ⟨queues, cpus, _⟩ := enqueueNew_joins s t parent priority uid gid
      refine namesOwn_frame (names cpu) (congrFun cpus cpu) fun level index x held => ?_
      simp_all [pushed_place]
    · cases stepped
  | replaceProgram caller pagemap =>
    simp_all [FindsThread, Sensible, step]

/-- As long as every search finds a thread and no running thread replaces its
program, the records stay true and exclusion holds. -/
theorem exclusive_while_searches_find (start : Start s) (events : List (Event Cpu))
    (finds : Along step FindsThread s events) : Throughout step Exclusive s events := by
  have kept : ∀ s event next, (Inv s ∧ ∀ cpu, RecordNamesOwn s cpu) → FindsThread s event →
      step s event = some next → Inv next ∧ ∀ cpu : Cpu, RecordNamesOwn next cpu := by
    rintro s event next ⟨inv, names⟩ finds stepped
    refine ⟨step_keeps s event next inv ?_ stepped, step_namesOwn names finds stepped⟩
    cases event with
    | schedule cpu => exact recordTells_of_namesOwn inv.onePlace (names cpu)
    | _ => exact finds
  have idle : ∀ cpu, RecordNamesOwn s cpu := by
    intro cpu own runs
    rw [Running, start.idle cpu] at runs
    cases runs
  have held := throughout_of_along kept ⟨start_inv start, idle⟩ finds
  exact throughout_mono (fun _ both => both.1.exclusive) held

theorem twoLevels_first_search_exclusive :
    Throughout step Exclusive twoLevels [.schedule false, .scheduleBusy true] :=
  exclusive_while_searches_find twoLevels_start _
    ⟨⟨0, 0, _, rfl, rfl, rfl⟩, fun _ _ => ⟨trivial, fun _ _ => trivial⟩⟩

/-! ## The bound on the level loop -/

/-- Every CPU is in rotation, as CPUs are when they come up, and some queue of
the array has a thread. -/
def Rotating (s : State Cpu) : Prop :=
  (∀ cpu, InRotation (s.cpus cpu)) ∧ ∃ level < priorityLevels, s.threads level ≠ []

theorem step_rotating (s : State Cpu) (event : Event Cpu) (next : State Cpu) (rotating : Rotating s)
    (stepped : step s event = some next) : Rotating next := by
  obtain ⟨inside, level, small, threaded⟩ := rotating
  cases event with
  | scheduleBusy _ =>
    cases stepped
    exact ⟨inside, level, small, threaded⟩
  | schedule caller =>
    obtain ⟨queues, away, chosen, picked, priority, peg⟩ := schedule_frame stepped
    refine ⟨fun cpu => ?_, level, small, queues ▸ threaded⟩
    by_cases mine : cpu = caller
    · subst mine
      rw [InRotation, priority, peg]
      exact chooseLevel_inRotation (inside cpu) picked
    · rw [away cpu mine]
      exact inside cpu
  | enqueueNew t parent priority uid gid =>
    simp only [step] at stepped
    split at stepped
    · cases stepped
      obtain ⟨queues, cpus, _⟩ := enqueueNew_joins s t parent priority uid gid
      refine ⟨fun cpu => cpus ▸ inside cpu, level, small, ?_⟩
      rw [queues]
      grind [List.append_ne_nil_of_left_ne_nil]
    · cases stepped
  | replaceProgram caller pagemap =>
    obtain ⟨t, _, ran⟩ := Option.bind_eq_some_iff.mp stepped
    obtain ⟨queues, cpus, _⟩ := replaceProgram_rebuilds ran
    exact ⟨fun cpu => cpus ▸ inside cpu, level, small, queues ▸ threaded⟩

/-- **The level loop ends in every state of a run**: `levelTurns` turns are
never too few. -/
theorem level_found_throughout (rotating : Rotating s) (events : List (Event Cpu)) :
    Throughout step (fun s => ∀ cpu, ∃ chosen, chooseLevel s.threads levelTurns (s.cpus cpu) = some chosen)
      s events := by
  refine throughout_mono (fun state held cpu => ?_) (throughout_of_kept step_rotating rotating)
  obtain ⟨inside, level, small, threaded⟩ := held
  exact chooseLevel_returns (inside cpu) small threaded

theorem twoLevels_level_found :
    Throughout step (fun s => ∀ cpu, ∃ chosen, chooseLevel s.threads levelTurns (s.cpus cpu) = some chosen)
      twoLevels [.schedule false, .schedule true] :=
  level_found_throughout ⟨fun cpu => by cases cpu <;> exact ⟨by decide, by decide⟩, 0, by decide, by decide⟩ _

end MandelbrotOS.SchedulerProofs
