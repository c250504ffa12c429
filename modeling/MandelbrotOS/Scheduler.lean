import Mathlib.Algebra.Group.Nat.Defs
import Mathlib.Logic.Function.Basic
import Mathlib.Logic.Function.Iterate

/-! The scheduler, `tasking/scheduler.c`: run queues, per-CPU rotation state
and the records that fork, exec and program start build. Threads, processes
and pagemaps are named by their addresses; `get_locals()->current_thread` is
an argument of the functions that read it. Saved registers, FPU images, stacks
and timers take no part in which thread runs where and are left out. -/
namespace MandelbrotOS.Scheduler

def priorityLevels : Nat := 20
def schedStackTop : Nat := 0x70000000000
def schedMmapTop : Nat := 0x90000000000
def schedStackSize : Nat := 0x1000 * 0x40

abbrev ThreadPtr := Nat
abbrev ProcPtr := Nat
abbrev PagemapPtr := Nat

/-- `thread_t`. The lock is bit 0 of its `bits`. The default values are what
`kcalloc` leaves in a new record. -/
structure Thread where
  parent : Option ProcPtr := none
  alive : Bool := false
  gid : Int := 0
  uid : Int := 0
  tid : Nat := 0
  lock : Bool := false
  queued : Bool := false
  priority : Nat := 0
  deriving DecidableEq

structure Proc where
  user : Bool := false
  pid : Nat := 0
  parent : Option ProcPtr := none
  children : List ProcPtr := []
  threads : List ThreadPtr := []
  pagemap : PagemapPtr := 0
  stackTop : Nat := 0
  mmapTop : Nat := 0
  mmapedLen : Nat := 0
  deriving DecidableEq

/-- The rotation state of `cpu_locals_t`; both priorities are `uint8_t`. -/
structure Locals where
  currentThread : Option ThreadPtr := none
  lastRunThreadIndex : Nat → Nat := fun _ => 0
  currentPriorityPeg : Nat := 0
  currentPriority : Nat := 0

/-- The run queues, the thread and process records, and every CPU's locals. The two
counters are `size_t` in the source; here they do not wrap. -/
structure State (Cpu : Type) where
  threads : Nat → List ThreadPtr
  thread : ThreadPtr → Thread
  proc : ProcPtr → Proc
  cpus : Cpu → Locals
  currentPid : Nat := 0
  currentTid : Nat := 0

variable {Cpu : Type}

def State.setThread (s : State Cpu) (t : ThreadPtr) (record : Thread) : State Cpu :=
  { s with thread := Function.update s.thread t record }

def State.setProc (s : State Cpu) (p : ProcPtr) (record : Proc) : State Cpu :=
  { s with proc := Function.update s.proc p record }

/-- `LOCK_ACQUIRE` and `UNLOCK` on a thread's lock leave its bit like this. -/
def State.setLock (s : State Cpu) (t : ThreadPtr) (bit : Bool) : State Cpu :=
  s.setThread t { s.thread t with lock := bit }

@[simp] theorem setThread_threads (s : State Cpu) (t : ThreadPtr) (record : Thread) :
    (s.setThread t record).threads = s.threads := rfl
@[simp] theorem setThread_cpus (s : State Cpu) (t : ThreadPtr) (record : Thread) :
    (s.setThread t record).cpus = s.cpus := rfl
@[simp] theorem setThread_thread (s : State Cpu) (t : ThreadPtr) (record : Thread) :
    (s.setThread t record).thread = Function.update s.thread t record := rfl
@[simp] theorem setProc_threads (s : State Cpu) (p : ProcPtr) (record : Proc) :
    (s.setProc p record).threads = s.threads := rfl
@[simp] theorem setProc_cpus (s : State Cpu) (p : ProcPtr) (record : Proc) :
    (s.setProc p record).cpus = s.cpus := rfl
@[simp] theorem setProc_thread (s : State Cpu) (p : ProcPtr) (record : Proc) :
    (s.setProc p record).thread = s.thread := rfl
@[simp] theorem setLock_threads (s : State Cpu) (t : ThreadPtr) (bit : Bool) :
    (s.setLock t bit).threads = s.threads := rfl
@[simp] theorem setLock_cpus (s : State Cpu) (t : ThreadPtr) (bit : Bool) :
    (s.setLock t bit).cpus = s.cpus := rfl

@[simp] theorem setLock_thread (s : State Cpu) (t : ThreadPtr) (bit : Bool) :
    (s.setLock t bit).thread = Function.update s.thread t { s.thread t with lock := bit } := rfl

variable [DecidableEq Cpu]

def State.setLocals (s : State Cpu) (cpu : Cpu) (locals : Locals) : State Cpu :=
  { s with cpus := Function.update s.cpus cpu locals }

@[simp] theorem setLocals_threads (s : State Cpu) (cpu : Cpu) (locals : Locals) :
    (s.setLocals cpu locals).threads = s.threads := rfl
@[simp] theorem setLocals_thread (s : State Cpu) (cpu : Cpu) (locals : Locals) :
    (s.setLocals cpu locals).thread = s.thread := rfl
@[simp] theorem setLocals_cpus (s : State Cpu) (cpu : Cpu) (locals : Locals) :
    (s.setLocals cpu locals).cpus = Function.update s.cpus cpu locals := rfl

/-! ## schedule -/

/-- One turn of the `do` loop that picks a priority level. -/
def rotate (locals : Locals) : Locals :=
  let priority := (locals.currentPriority + 1) % 256
  if priority > locals.currentPriorityPeg then
    let peg := (locals.currentPriorityPeg + 1) % 256
    { locals with
      currentPriority := 0
      currentPriorityPeg := if peg = priorityLevels then 0 else peg }
  else { locals with currentPriority := priority }

/-- The `do` loop itself: turn until the level reached has threads. With
every queue empty it turns forever; `levelTurns` is enough for the rest. -/
def chooseLevel (threads : Nat → List ThreadPtr) : Nat → Locals → Option Locals
  | 0, _ => none
  | fuel + 1, locals =>
    let turned := rotate locals
    if (threads turned.currentPriority).length ≠ 0 then some turned
    else chooseLevel threads fuel turned

/-- Enough turns to come past every level from any rotation state. -/
def levelTurns : Nat := 460

/-- How the search for a runnable thread ends. -/
inductive Pick where
  | found (index : Nat)
  | null
  | spins
  deriving DecidableEq

/-- The loop of `sched_get_next_thread`: a thread is taken when it is the
caller's own or its lock bit was clear. -/
def nextThread (queue : List ThreadPtr) (thread : ThreadPtr → Thread)
    (current : Option ThreadPtr) (origI : Nat) : Nat → Nat → Pick
  | 0, _ => .spins
  | fuel + 1, index =>
    let index := if index ≥ queue.length then 0 else index
    match queue[index]? with
    | none => .spins
    | some t =>
      if current = some t ∨ (thread t).lock = false then .found index
      else if index = origI then .null
      else nextThread queue thread current origI fuel (index + 1)

/-- `sched_get_next_thread`, up to the lock bit it sets on success. -/
def schedGetNextThread (s : State Cpu) (current : Option ThreadPtr) (origI priority : Nat) : Pick :=
  nextThread (s.threads priority) s.thread current origI ((s.threads priority).length + 1) (origI + 1)

/-- The lock bit after a successful search: the caller's own thread is taken
without touching it. -/
def acquire (s : State Cpu) (current : Option ThreadPtr) (t : ThreadPtr) : State Cpu :=
  if current = some t then s else s.setLock t true

/-- The tail of `schedule`: the old thread is released and the new one becomes
current, at the level and index it was found. -/
def switchTo (s : State Cpu) (cpu : Cpu) (chosen : Locals) (t : ThreadPtr) (index : Nat) :
    State Cpu :=
  let released := match chosen.currentThread with
    | none => s
    | some old => s.setLock old false
  released.setLocals cpu { chosen with
    currentThread := some t
    lastRunThreadIndex :=
      Function.update chosen.lastRunThreadIndex chosen.currentPriority index }

/-- `schedule` on one CPU once it holds `sched_lock`. `none` is a call that
never returns. -/
def schedule (s : State Cpu) (cpu : Cpu) : Option (State Cpu) :=
  let locals := s.cpus cpu
  let oldIndex := locals.lastRunThreadIndex locals.currentPriority
  let oldPriority := locals.currentPriority
  (chooseLevel s.threads levelTurns locals).bind fun chosen =>
    let level := chosen.currentPriority
    match schedGetNextThread s locals.currentThread (chosen.lastRunThreadIndex level) level with
    | .spins => none
    | .null => some (s.setLocals cpu chosen)
    | .found newIndex =>
      ((s.threads level)[newIndex]?).map fun t =>
        let taken := acquire s locals.currentThread t
        if locals.currentThread.isSome ∧ level = oldPriority ∧ newIndex = oldIndex then
          taken.setLocals cpu chosen
        else switchTo taken cpu chosen t newIndex

/-! ## Threads and processes -/

def schedEnqueue (s : State Cpu) (t : ThreadPtr) : State Cpu :=
  if (s.thread t).queued then s
  else
    let marked := s.setThread t { s.thread t with queued := true }
    let level := (s.thread t).priority
    { marked with threads := Function.update s.threads level (s.threads level ++ [t]) }

/-- The struct literal of `sched_new_thread`. Every field it does not name, the
lock among them, is zeroed. -/
def threadLiteral (parent : ProcPtr) (priority : Nat) (uid gid : Int) (tid : Nat) : Thread :=
  { gid := gid, uid := uid, parent := some parent, alive := true, priority := priority,
    tid := tid, queued := false }

/-- `sched_new_thread` on the record at `t`, new or the caller's own. -/
def schedNewThread (s : State Cpu) (t : ThreadPtr) (parent : ProcPtr) (priority : Nat)
    (uid gid : Int) (autoStart : Bool) : State Cpu :=
  let literal := s.setThread t (threadLiteral parent priority uid gid s.currentTid)
  let stacked := if (s.proc parent).user then
      literal.setProc parent { s.proc parent with
        stackTop := ((s.proc parent).stackTop + 2 ^ 64 - schedStackSize) % 2 ^ 64 }
    else literal
  let listed := stacked.setProc parent
    { stacked.proc parent with threads := (stacked.proc parent).threads ++ [t] }
  let counted := { listed with currentTid := s.currentTid + 1 }
  if autoStart then schedEnqueue counted t else counted

/-- `sched_new_proc`, the branch without an old process. -/
def schedNewProc (s : State Cpu) (p : ProcPtr) (pagemap : PagemapPtr) (user : Bool) : State Cpu :=
  { s.setProc p { mmapTop := schedMmapTop, stackTop := schedStackTop, pagemap := pagemap,
                  user := user, pid := s.currentPid } with
    currentPid := s.currentPid + 1 }

/-- `sched_new_proc`, the branch that copies an old process; `pagemap` is what
`vmm_fork_pagemap` returned. -/
def schedCopyProc (s : State Cpu) (p old : ProcPtr) (pagemap : PagemapPtr) (user : Bool) : State Cpu :=
  { s.setProc p { mmapTop := (s.proc old).mmapTop, stackTop := (s.proc old).stackTop,
                  parent := some old, user := user, pid := s.currentPid, pagemap := pagemap } with
    currentPid := s.currentPid + 1 }

/-- `sched_fork` by the thread `current`, with the addresses the allocators
return for the new records. The new thread starts as `kcalloc` leaves it and
receives a parent, a priority and a tid. -/
def schedFork (s : State Cpu) (current t : ThreadPtr) (p : ProcPtr) (pagemap : PagemapPtr) :
    Option (State Cpu) :=
  (s.thread current).parent.map fun oldProc =>
    let copied := schedCopyProc s p oldProc pagemap true
    let made := copied.setThread t
      { parent := some p, priority := (s.thread current).priority, tid := copied.currentTid }
    let counted := { made with currentTid := copied.currentTid + 1 }
    let adopted := counted.setProc oldProc
      { counted.proc oldProc with children := (counted.proc oldProc).children ++ [p] }
    let listed := adopted.setProc p { adopted.proc p with threads := (adopted.proc p).threads ++ [t] }
    schedEnqueue listed t

/-- `sched_run_program` with `replace = 0`: a new process whose thread carries
the caller's priority, uid and gid. -/
def schedRunProgram (s : State Cpu) (current t : ThreadPtr) (p : ProcPtr) (pagemap : PagemapPtr) :
    State Cpu :=
  let made := schedNewProc s p pagemap true
  let adopted := made.setProc p { made.proc p with parent := (made.thread current).parent }
  let caller := adopted.thread current
  schedEnqueue (schedNewThread adopted t p caller.priority caller.uid caller.gid false) t

/-- `sched_run_program` with `replace = 1`: the caller's process gets a new
pid and image and its thread record is built again in place. -/
def schedReplaceProgram (s : State Cpu) (current : ThreadPtr) (pagemap : PagemapPtr) :
    Option (State Cpu) :=
  (s.thread current).parent.map fun p =>
    let caller := s.thread current
    let emptied := { s.setProc p { s.proc p with
        mmapTop := schedMmapTop, stackTop := schedStackTop, pid := s.currentPid,
        pagemap := pagemap, mmapedLen := 0 } with
      currentPid := s.currentPid + 1 }
    schedNewThread emptied current p caller.priority caller.uid caller.gid false

end MandelbrotOS.Scheduler
