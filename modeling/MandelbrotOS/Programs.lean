import MandelbrotOS.ArgStack
import MandelbrotOS.ElfImage
import MandelbrotOS.PagemapFrames
import MandelbrotOS.Scheduler

/-! Starting a program: `sched_run_program` of `tasking/scheduler.c`, with the loader,
the new stack and the arguments on it, and `syscall_execve` of `sys/syscall.c`. What
the loader returns is not looked at, so a file it rejects is run all the same, from
whatever the entry point happened to be. Nor is it asked whether the arguments fit on
the stack, and the stack is looked up by its address among ranges that the program
has chosen. -/
namespace MandelbrotOS.Programs
open ArgStack (CString Registers Write argWrites writtenSize)
open ByteMemory Descriptors Elf ElfImage ForkPagemap Mmap PagemapFrames Pmm Runs Scheduler Vectors Vfs Vmm

variable {Cpu α : Type}

/-! ### The code -/

def protRead : BitVec 32 := 0x1
def protExec : BitVec 32 := 0x4

/-- The saved registers of a thread, as far as they are set for a new program. -/
structure Context where
  rip : BitVec 64
  args : Registers

/-- The records of the scheduler, the pagemaps that live, the registers of the threads
and the descriptors of the processes. The host is memory and what there is in it. -/
structure Machine (Cpu α : Type) where
  sched : Scheduler.State Cpu
  host : Process α
  pagemaps : PagemapPtr → Option Pagemap
  regs : ThreadPtr → Context
  fds : ProcPtr → Nat → Option SyscallFile

/-- Where `kcalloc` puts the new records. -/
structure Fresh where
  pagemap : PagemapPtr
  proc : ProcPtr
  thread : ThreadPtr

/-- What a program is started with: the bytes of its file, its arguments, and what
`vfs_open` gives for the paths of its first three descriptors, as far as there are
any. `stale` is what the variable for the entry point holds when nothing is stored to
it. -/
structure Request where
  buffer : Memory
  stale : BitVec 64
  argv : Option (List CString)
  env : Option (List CString)
  stdin : Option FilePtr
  stdout : Option FilePtr
  stderr : Option FilePtr

def Request.fds (request : Request) : Nat → Option SyscallFile
  | 0 => request.stdin.map (⟨·, oRdonly⟩)
  | 1 => request.stdout.map (⟨·, oWronly⟩)
  | 2 => request.stderr.map (⟨·, oWronly⟩)
  | _ => none

def vmmRangeToAddr (ranges : Vec MmapRange) (virtAddr : BitVec 64) : BitVec 64 :=
  match (List.range ranges.length).find? fun i => (ranges.data i).virtAddr == virtAddr with
  | some i => (ranges.data i).physAddr
  | none => 0

/-- A new pagemap with the program in it, and the entry point if one was stored. -/
def loadProgram (A : Allocator α) (host : Process α) (buffer : Memory) :
    Option (Option (BitVec 64) × Process α) := do
  let (top, state) ← vmmCreateNewPagemap A host.state (host.kernelTop * pageSize)
  let (_, entry, p) ← elfRunBinary A (newPagemap host top state) buffer
  some (entry, p)

/-- A thread's stack: `rsp` as it begins, and where the frames of it are. -/
structure Stack where
  rsp : Nat
  frames : Nat

/-- The stacks that `sched_new_thread` makes. -/
def newStack (A : Allocator α) (p : Process α) (user : Bool) (stackTop : Nat) : Option (Stack × Process α) :=
  if user then do
    let (userStack, state) ← pcalloc A p.state (schedStackSize / pageSize)
    let (_, state) ← pcalloc A state (schedStackSize / pageSize)
    let p ← vmmMmapRange A { p with state := state } (BitVec.ofNat 64 userStack) (BitVec.ofNat 64 stackTop)
      schedStackSize (mapAnon ||| mapPrivate ||| mapFixed) (protRead ||| protWrite ||| protExec)
    some (⟨stackTop + schedStackSize, userStack⟩, p)
  else do
    let (kernelStack, state) ← pcalloc A p.state (schedStackSize / pageSize)
    some (⟨(kernelStack + physMemOffset.toNat + schedStackSize) % wordSize, kernelStack⟩, { p with state := state })

/-- The program and the stack its arguments go to. -/
def newImage (A : Allocator α) (host : Process α) (buffer : Memory) (user : Bool) :
    Option (Option (BitVec 64) × Stack × Process α) := do
  let (entry, p) ← loadProgram A host buffer
  let (stack, p) ← newStack A p user schedStackTop
  some (entry, stack, p)

/-- Where the arguments are stored from, downwards: the end of the stack, in physical
memory. -/
def argsTop (p : Process α) (stack : Stack) : Nat :=
  (vmmRangeToAddr p.ranges (BitVec.ofNat 64 (stack.rsp - schedStackSize))).toNat + schedStackSize

/-- `sched_load_args_to_stack` as it is called. -/
def loadArgs (p : Process α) (stack : Stack) (request : Request) : Registers × Process α :=
  let (regs, mem) := ArgStack.schedLoadArgsToStack ⟨0, 0, 0, stack.rsp⟩ p.state.mem (argsTop p stack) stack.rsp
    request.argv request.env
  (regs, { p with state := { p.state with mem := mem } })

/-- `sched_run_program`, called by the thread `current`. With `replace = 1` it does not
return: the program runs on that thread. -/
def schedRunProgram (A : Allocator α) (m : Machine Cpu α) (current : ThreadPtr) (fresh : Fresh) (request : Request)
    (replace : Bool) : Option (Option Int × Machine Cpu α) :=
  if !replace then do
    let (entry, stack, p) ← newImage A m.host request.buffer true
    let (regs, p) := loadArgs p stack request
    some (some 0, {
      sched := Scheduler.schedRunProgram m.sched current fresh.thread fresh.proc fresh.pagemap
      host := { m.host with state := p.state }
      pagemaps := Function.update m.pagemaps fresh.pagemap (some ⟨p.topLevel, p.ranges⟩)
      regs := Function.update m.regs fresh.thread ⟨entry.getD request.stale, regs⟩
      fds := Function.update m.fds fresh.proc request.fds })
  else do
    let proc ← (m.sched.thread current).parent
    let oldPagemap := (m.sched.proc proc).pagemap
    let old ← m.pagemaps oldPagemap
    let (entry, stack, p) ← newImage A m.host request.buffer (m.sched.proc proc).user
    let sched ← schedReplaceProgram m.sched current fresh.pagemap
    let (regs, p) := loadArgs p stack request
    let state ← vmmDestroyPagemap A { p with topLevel := old.topLevel, ranges := old.ranges }
    some (none, {
      sched := sched
      host := { m.host with state := state }
      pagemaps := Function.update (Function.update m.pagemaps fresh.pagemap (some ⟨p.topLevel, p.ranges⟩))
        oldPagemap none
      regs := Function.update m.regs current ⟨entry.getD request.stale, regs⟩
      fds := m.fds })

/-- `syscall_execve`; `opened` is what `vfs_open` gives for the path. -/
def syscallExecve (A : Allocator α) (m : Machine Cpu α) (current : ThreadPtr) (fresh : Fresh)
    (opened : Option FsFile) (request : Request) : Option (Option Int × Machine Cpu α) :=
  match opened with
  | none => some (some (-enoent), m)
  | some file =>
    let caller := m.sched.thread current
    if vfsCheckCanRead file caller.uid caller.gid ≠ 0 ∨ vfsCheckCanExec file caller.uid caller.gid ≠ 0 then
      some (some (-eacces), m)
    else schedRunProgram A m current fresh request true

/-! ### A file that is no program -/

/-- The file has the wrong type or identifier. -/
def Rejected (buffer : Memory) : Prop :=
  (elfHeader buffer).type ≠ elfExecutable ∨ (elfHeader buffer).identifier ≠ elfIdent

instance (buffer : Memory) : Decidable (Rejected buffer) := inferInstanceAs (Decidable (_ ∨ _))

/-- Nothing came of starting a program. A new process is not run; the caller that was
to be replaced gets an error and is what it was. -/
def LeftAlone (m : Machine Cpu α) (current : ThreadPtr) (result : Option (Option Int × Machine Cpu α)) :
    (replace : Bool) → Prop
  | false => ∀ ret m', result = some (ret, m') → m'.sched.threads = m.sched.threads
  | true => ∃ err m', err ≠ 0 ∧ result = some (some err, m') ∧ m'.regs current = m.regs current ∧
    ∀ proc, (m.sched.thread current).parent = some proc →
      (m'.sched.proc proc).pagemap = (m.sched.proc proc).pagemap ∧
      (m'.sched.proc proc).pid = (m.sched.proc proc).pid ∧
      (m'.sched.proc proc).stackTop = (m.sched.proc proc).stackTop ∧
      (m'.sched.proc proc).mmapTop = (m.sched.proc proc).mmapTop ∧
      m'.pagemaps (m.sched.proc proc).pagemap = m.pagemaps (m.sched.proc proc).pagemap

section
variable {A : Allocator α} {m m' : Machine Cpu α} {current : ThreadPtr} {fresh : Fresh} {request : Request}

theorem elfRunBinary_rejected (rejected : Rejected buffer) (p : Process α) :
    elfRunBinary A p buffer = some (1, none, p) := by
  rw [elfRunBinary]
  by_cases type : (elfHeader buffer).type ≠ elfExecutable
  · rw [if_pos type]
  · rw [if_neg type, if_pos (rejected.resolve_left type)]

theorem newImage_rejected (rejected : Rejected buffer) (ran : newImage A host buffer user = some (entry, stack, p)) :
    entry = none := by
  grind [newImage, loadProgram, elfRunBinary_rejected, bind_returns]

theorem schedRunProgram_threads (s : Scheduler.State Cpu) (current t : ThreadPtr) (p : ProcPtr) (pagemap : PagemapPtr) :
    ∃ level, (Scheduler.schedRunProgram s current t p pagemap).threads level = s.threads level ++ [t] := by
  refine ⟨(s.thread current).priority, ?_⟩
  simp [Scheduler.schedRunProgram, schedNewProc, schedNewThread, schedEnqueue, threadLiteral, State.setProc,
    State.setThread]

theorem schedReplaceProgram_proc {s next : Scheduler.State Cpu} (parent : (s.thread current).parent = some proc)
    (ran : schedReplaceProgram s current pagemap = some next) :
    (next.proc proc).pid = s.currentPid ∧ (next.proc proc).pagemap = pagemap := by
  rw [schedReplaceProgram, parent] at ran
  cases ran
  cases user : (s.proc proc).user <;> simp [schedNewThread, State.setProc, State.setThread, user]

theorem schedRunProgram_starts (ran : schedRunProgram A m current fresh request false = some (ret, m')) :
    ret = some 0 ∧ ∃ level, m'.sched.threads level = m.sched.threads level ++ [fresh.thread] := by
  simp only [schedRunProgram, Bool.not_false, if_true, bind_returns, Prod.exists, Option.some.injEq,
    Prod.mk.injEq] at ran
  obtain ⟨_, _, _, -, rfl, rfl⟩ := ran
  exact ⟨rfl, schedRunProgram_threads ..⟩

theorem schedRunProgram_replaces (ran : schedRunProgram A m current fresh request true = some (ret, m')) :
    ret = none ∧ ∃ proc, (m.sched.thread current).parent = some proc ∧
      (m'.sched.proc proc).pid = m.sched.currentPid ∧ (m'.sched.proc proc).pagemap = fresh.pagemap ∧
      m'.pagemaps (m.sched.proc proc).pagemap = none := by
  simp only [schedRunProgram, Bool.not_true, Bool.false_eq_true, if_false, bind_returns, Prod.exists,
    Option.some.injEq, Prod.mk.injEq] at ran
  obtain ⟨proc, parent, old, -, _, _, _, -, sched, replaced, _, -, rfl, rfl⟩ := ran
  grind [schedReplaceProgram_proc]

theorem schedRunProgram_rejected (rejected : Rejected request.buffer)
    (ran : schedRunProgram A m current fresh request replace = some (ret, m')) :
    (m'.regs (if replace then current else fresh.thread)).rip = request.stale := by
  cases replace with
  | false =>
    simp only [schedRunProgram, Bool.not_false, if_true, bind_returns, Prod.exists, Option.some.injEq,
      Prod.mk.injEq] at ran
    obtain ⟨entry, _, _, loaded, -, rfl⟩ := ran
    grind [newImage_rejected]
  | true =>
    simp only [schedRunProgram, Bool.not_true, Bool.false_eq_true, if_false, bind_returns, Prod.exists,
      Option.some.injEq, Prod.mk.injEq] at ran
    obtain ⟨_, _, _, -, entry, _, _, loaded, _, -, _, -, -, rfl⟩ := ran
    grind [newImage_rejected]

/-- **A rejected file is run.** Whatever file the loader rejects: a new process is
enqueued whenever `sched_run_program` comes back, and a process that was to be
replaced never gets an error; when the call comes to its end, its pid and its pagemap
are other ones, and the old pagemap is gone. Both begin at a place that was never
set. -/
theorem rejected_binary_runs (A : Allocator α) (m : Machine Cpu α) (current : ThreadPtr) (fresh : Fresh)
    (request : Request) (rejected : Rejected request.buffer) :
    (LeftAlone m current (schedRunProgram A m current fresh request false) false ↔
      schedRunProgram A m current fresh request false = none) ∧
    ¬ LeftAlone m current (schedRunProgram A m current fresh request true) true ∧
    (∀ ret m', schedRunProgram A m current fresh request false = some (ret, m') →
      (m'.regs fresh.thread).rip = request.stale) ∧
    ∀ ret m', schedRunProgram A m current fresh request true = some (ret, m') →
      (m'.regs current).rip = request.stale ∧ ∃ proc, (m.sched.thread current).parent = some proc ∧
        (m'.sched.proc proc).pid = m.sched.currentPid ∧ (m'.sched.proc proc).pagemap = fresh.pagemap ∧
        m'.pagemaps (m.sched.proc proc).pagemap = none := by
  refine ⟨⟨fun alone => ?_, fun none ret m' ran => ?_⟩, ?_, fun ret m' ran => ?_, fun ret m' ran => ⟨?_, ?_⟩⟩
  · cases ran : schedRunProgram A m current fresh request false with
    | none => rfl
    | some result =>
      obtain ⟨-, level, queued⟩ := schedRunProgram_starts ran
      rw [alone _ _ ran] at queued
      simp at queued
  · cases none.symm.trans ran
  · rintro ⟨err, m', -, ran, -⟩
    cases (schedRunProgram_replaces ran).1
  · exact schedRunProgram_rejected rejected ran
  · exact schedRunProgram_rejected rejected ran
  · exact (schedRunProgram_replaces ran).2

/-! ### Arguments on the stack -/

/-- The file is not there, or not to be run by the caller. -/
def Refused (m : Machine Cpu α) (current : ThreadPtr) (opened : Option FsFile) : Prop :=
  ∀ file, opened = some file →
    vfsCheckCanRead file (m.sched.thread current).uid (m.sched.thread current).gid ≠ 0 ∨
      vfsCheckCanExec file (m.sched.thread current).uid (m.sched.thread current).gid ≠ 0

/-- Either `syscall_execve` fails, with the caller as it was, or whatever
`sched_load_args_to_stack` stores is on the new stack. -/
def Contained (A : Allocator α) (m : Machine Cpu α) (current : ThreadPtr) (fresh : Fresh) (opened : Option FsFile)
    (request : Request) : Prop :=
  (∃ err : Int, err < 0 ∧ syscallExecve A m current fresh opened request = some (some err, m)) ∨
    ∀ proc, (m.sched.thread current).parent = some proc → ∀ entry stack p,
      newImage A m.host request.buffer (m.sched.proc proc).user = some (entry, stack, p) →
      ∀ write ∈ argWrites (argsTop p stack) request.argv request.env,
        write.Inside stack.frames (stack.frames + schedStackSize)

/-- A range that the loader has made for a program header. -/
def FromFile (buffer : Memory) (range : MmapRange) : Prop :=
  range.physAddr.toNat % pageSize = 0 ∧ ∃ i, Loads buffer i ∧ range.virtAddr = (progHeader buffer i).virtAddr

theorem pcalloc_bound {s s' : Vmm.State Pmm.State} (ran : pcalloc pmmAllocator s pages = some (ret, s')) :
    ret % pageSize = 0 ∧ ret < wordSize := by
  obtain ⟨lowest, bound, -, -, rfl, -⟩ := PmmSupply.pcalloc_lowest ran
  grind [pageSize, wordSize]

theorem loadSegment_ranges {p p' : Process Pmm.State} (inside : i < (elfHeader buffer).progHeadCount.toNat)
    (held : ∀ range ∈ p.ranges.toList, FromFile buffer range)
    (ran : loadSegment pmmAllocator buffer p i = some p') : ∀ range ∈ p'.ranges.toList, FromFile buffer range := by
  unfold loadSegment at ran
  by_cases loads : (progHeader buffer i).type = elfHeadLoad
  · simp only [loads, if_true, bind_returns, Prod.exists, Option.some.injEq] at ran
    obtain ⟨addr, state, given, state', -, rfl⟩ := ran
    obtain ⟨aligned, bound⟩ := pcalloc_bound given
    intro range member
    simp only [Process.pushRange, toList_vecPush, List.mem_append, List.mem_singleton] at member
    rcases member with old | rfl
    · exact held range old
    · refine ⟨?_, i, ⟨inside, loads⟩, rfl⟩
      have same : (BitVec.ofNat 64 addr).toNat = addr := (BitVec.toNat_ofNat ..).trans (Nat.mod_eq_of_lt bound)
      rw [same]
      exact aligned
  · simp_all

theorem elfRunBinary_ranges {p p' : Process Pmm.State} (none : p.ranges.toList = [])
    (ran : elfRunBinary pmmAllocator p buffer = some (ret, entry, p')) :
    ∀ range ∈ p'.ranges.toList, FromFile buffer range := by
  have start : ∀ range ∈ p.ranges.toList, FromFile buffer range := by
    rw [none]
    exact List.forall_mem_nil _
  unfold elfRunBinary at ran
  dsimp only at ran
  split at ran
  · cases ran
    exact start
  · split at ran
    · cases ran
      exact start
    · simp only [bind_returns, Option.some.injEq, Prod.mk.injEq] at ran
      obtain ⟨q, loaded, -, -, rfl⟩ := ran
      exact foldlM_keeps (fun i listed _ _ held turned => loadSegment_ranges (List.mem_range.mp listed) held turned)
        start loaded

theorem newStack_ranges {p p' : Process Pmm.State} (ran : newStack pmmAllocator p true stackTop = some (stack, p')) :
    stack.rsp = stackTop + schedStackSize ∧ stack.frames % pageSize = 0 ∧ stack.frames < wordSize ∧
      ∃ range : MmapRange, p'.ranges.toList = p.ranges.toList ++ [range] ∧
        range.virtAddr = BitVec.ofNat 64 stackTop ∧ range.physAddr = BitVec.ofNat 64 stack.frames := by
  simp only [newStack, vmmMmapRange, if_true, bind_returns, Prod.exists, Option.some.injEq,
    Prod.mk.injEq] at ran
  obtain ⟨userStack, state, given, _, _, -, q, ⟨_, -, rfl⟩, rfl, rfl⟩ := ran
  obtain ⟨aligned, bound⟩ := pcalloc_bound given
  exact ⟨rfl, aligned, bound, _, toList_vecPush .., rfl, rfl⟩

theorem vmmRangeToAddr_eq (ranges : Vec MmapRange) (virtAddr : BitVec 64) :
    vmmRangeToAddr ranges virtAddr =
      ((ranges.toList.find? fun range => range.virtAddr == virtAddr).map MmapRange.physAddr).getD 0 := by
  grind [vmmRangeToAddr, Vec.toList, Function.comp_def]

theorem newImage_argsTop {host : Process Pmm.State}
    (ran : newImage pmmAllocator host buffer true = some (entry, stack, p)) :
    argsTop p stack % 16 = 0 ∧
      ((∀ i, Loads buffer i → (progHeader buffer i).virtAddr ≠ BitVec.ofNat 64 schedStackTop) →
        argsTop p stack = stack.frames + schedStackSize) := by
  simp only [newImage, loadProgram, bind_returns, Prod.exists, Option.some.injEq, Prod.mk.injEq] at ran
  obtain ⟨_, _, ⟨top, state, -, _, _, q, loaded, -, rfl⟩, stack, p, stacked, -, rfl, rfl⟩ := ran
  have listed := elfRunBinary_ranges (show (newPagemap host top state).ranges.toList = [] from rfl) loaded
  obtain ⟨rsp, aligned, bound, range, ranges, virt, phys⟩ := newStack_ranges stacked
  have physAligned : range.physAddr.toNat = stack.frames := by
    rw [phys]
    exact (BitVec.toNat_ofNat ..).trans (Nat.mod_eq_of_lt bound)
  rw [argsTop, rsp, Nat.add_sub_cancel, vmmRangeToAddr_eq, ranges]
  constructor
  · have place : ∀ found ∈ q.ranges.toList ++ [range], found.physAddr.toNat % pageSize = 0 := by
      intro found member
      rcases List.mem_append.mp member with old | new
      · exact (listed found old).1
      · grind
    grind [schedStackSize, pageSize]
  · intro elsewhere
    have missed : q.ranges.toList.find? (fun range => range.virtAddr == BitVec.ofNat 64 schedStackTop) = none := by
      refine List.find?_eq_none.mpr fun found member => ?_
      obtain ⟨-, i, loads, same⟩ := listed found member
      simpa [same] using elsewhere i loads
    grind

/-- **Arguments stay on the new stack exactly when they fit there.** Whatever `argv` and
`env` a process gives to `syscall_execve`: the call fails before anything happens or
all that is stored for them is on the new stack, if and only if the file is refused,
or nothing is given, or the bytes from the place they are stored from down to the last
word are on the stack. That place is the end of the stack for every program without a
segment where the stack is. -/
theorem args_contained_iff (m : Machine Cpu Pmm.State) (current : ThreadPtr) (fresh : Fresh) (opened : Option FsFile)
    (request : Request) (parent : (m.sched.thread current).parent = some proc)
    (user : (m.sched.proc proc).user = true) :
    (Contained pmmAllocator m current fresh opened request ↔ Refused m current opened ∨
      ∀ entry stack p, newImage pmmAllocator m.host request.buffer true = some (entry, stack, p) →
        request.argv = none ∧ request.env = none ∨ argsTop p stack ≤ stack.frames + schedStackSize ∧
          stack.frames + writtenSize request.argv request.env ≤ argsTop p stack) ∧
    ((∀ i, Loads request.buffer i →
        (progHeader request.buffer i).virtAddr ≠ BitVec.ofNat 64 schedStackTop) →
      ∀ entry stack p, newImage pmmAllocator m.host request.buffer true = some (entry, stack, p) →
        argsTop p stack = stack.frames + schedStackSize) := by
  refine ⟨?_, fun elsewhere entry stack p made => (newImage_argsTop made).2 elsewhere⟩
  have fails : (∃ err : Int, err < 0 ∧ syscallExecve pmmAllocator m current fresh opened request = some (some err, m)) ↔
      Refused m current opened := by
    constructor
    · rintro ⟨err, -, failed⟩ file rfl
      by_contra granted
      rw [syscallExecve, if_neg granted] at failed
      cases (schedRunProgram_replaces failed).1
    · intro refused
      cases opened with
      | none => exact ⟨-enoent, by decide, rfl⟩
      | some file => exact ⟨-eacces, by decide, if_pos (refused file rfl)⟩
  rw [Contained, fails]
  refine or_congr_right ?_
  simp only [parent, Option.some.injEq, forall_eq', user]
  refine forall_congr' fun entry => forall_congr' fun stack => forall_congr' fun p => forall_congr' fun made => ?_
  have aligned := (newImage_argsTop made).1
  rw [ArgStack.argWrites_inside (by omega)]
  refine or_congr_right ?_
  omega

end

/-! ### A small machine -/

/-- A megabyte of memory, in which pages 0 and 1 are in use; page 1 is the kernel's top
level. -/
def megabyte : Process Pmm.State where
  state := ⟨fun _ => 0, ⟨fun byte => if byte = 0 then 0b11 else 0, 0x100000, by decide⟩⟩
  topLevel := 1
  ranges := ⟨fun _ => ⟨none, 0, 0, 0, 0, 0, 0⟩, 0⟩
  mmapTop := schedMmapTop
  mmapedLen := 0
  fds := fun _ => none
  files := fun _ => ⟨0, 0, 0, 0, 0, 0⟩
  mmapOps := fun _ => none
  kernelTop := 1
  framebuffer := 0

/-- Thread 0 of process 0 runs, with pagemap 0 and pid 1. -/
def oneProcess : Machine Unit Pmm.State where
  sched := {
    threads := fun _ => []
    thread := fun _ => { parent := some 0 }
    proc := fun _ => { user := true, pid := 1 }
    cpus := fun _ => {}
    currentPid := 2 }
  host := megabyte
  pagemaps pagemap := if pagemap = 0 then some ⟨1, megabyte.ranges⟩ else none
  regs _ := ⟨0, 0, 0, 0, 0⟩
  fds _ _ := none

theorem megabyte_stack : ((vmmCreateNewPagemap pmmAllocator megabyte.state (1 * pageSize)).bind fun made =>
    newStack pmmAllocator (newPagemap megabyte made.1 made.2) true schedStackTop).isSome := by
  decide +kernel

theorem megabyte_suffices (bare : ∀ p : Process Pmm.State, elfRunBinary pmmAllocator p buffer = some (ret, entry, p)) :
    ∃ stack p, newImage pmmAllocator megabyte buffer true = some (entry, stack, p) := by
  obtain ⟨⟨stack, p⟩, ran⟩ := Option.isSome_iff_exists.mp megabyte_stack
  obtain ⟨⟨top, state⟩, created, stacked⟩ := Option.bind_eq_some_iff.mp ran
  refine ⟨stack, p, ?_⟩
  simp only [newImage, loadProgram, show megabyte.kernelTop = 1 from rfl, created, bare, stacked, bind_returned]

/-- A file of zeros, to be run without arguments. -/
def noProgram : Request := ⟨fun _ => 0, 0xdead, none, none, none, none, none⟩

theorem noProgram_rejected : Rejected noProgram.buffer := by decide

theorem zeros_run : ¬ LeftAlone oneProcess 0
    (schedRunProgram pmmAllocator oneProcess 0 ⟨1, 1, 1⟩ noProgram true) true :=
  (rejected_binary_runs pmmAllocator oneProcess 0 ⟨1, 1, 1⟩ noProgram noProgram_rejected).2.1

/-- The file of zeros is run in a new process, and in the place of the caller. -/
theorem zeros_enqueued :
    (∃ m', schedRunProgram pmmAllocator oneProcess 0 ⟨1, 1, 1⟩ noProgram false = some (some 0, m') ∧
      oneProcess.sched.threads 0 = [] ∧ m'.sched.threads 0 = [1] ∧ (m'.regs 1).rip = 0xdead) ∧
    ∃ m', schedRunProgram pmmAllocator oneProcess 0 ⟨1, 1, 1⟩ noProgram true = some (none, m') ∧
      (oneProcess.sched.proc 0).pid = 1 ∧ (m'.sched.proc 0).pid = 2 ∧ (m'.sched.proc 0).pagemap = 1 ∧
      m'.pagemaps 0 = none ∧ (m'.regs 0).rip = 0xdead := by
  obtain ⟨stack, p, made⟩ := megabyte_suffices (elfRunBinary_rejected noProgram_rejected)
  constructor
  · simp only [schedRunProgram, show oneProcess.host = megabyte from rfl, made]
    exact ⟨_, rfl, rfl, rfl, rfl⟩
  · have parent : (oneProcess.sched.thread 0).parent = some 0 := rfl
    have old : oneProcess.pagemaps (oneProcess.sched.proc 0).pagemap = some ⟨1, megabyte.ranges⟩ := rfl
    have user : (oneProcess.sched.proc 0).user = true := rfl
    have destroyed (q : Process Pmm.State) :
        vmmDestroyPagemap pmmAllocator { q with topLevel := 1, ranges := megabyte.ranges } =
          some { q.state with alloc := pmmFreePages q.state.alloc (1 * pageSize) 1 } := rfl
    simp only [schedRunProgram, show oneProcess.host = megabyte from rfl, parent, old, user, made, destroyed,
      Bool.not_true, Bool.false_eq_true, if_false, Option.bind_eq_bind, Option.bind_some, schedReplaceProgram,
      Option.map_some]
    exact ⟨_, rfl, rfl, rfl, rfl, rfl, rfl⟩

/-- A file that everybody may read and run. -/
def runnable : FsFile := { uid := 0, gid := 0, mode := sIfreg ||| 0o755 }

/-- An executable of which nothing is loaded, with one argument. -/
def oneArgument (argument : CString) : Request := ⟨elfFile [], 0, some [argument], none, none, none, none⟩

theorem oneArgument_bare (argument : CString) (p : Process Pmm.State) :
    elfRunBinary pmmAllocator p (oneArgument argument).buffer = some (0, some 0x400000, p) := by
  have header : (elfHeader (elfFile [])).type = elfExecutable ∧ (elfHeader (elfFile [])).identifier = elfIdent ∧
      (elfHeader (elfFile [])).progHeadCount.toNat = 0 ∧ (elfHeader (elfFile [])).entry = 0x400000 := by
    decide +kernel
  simp only [oneArgument, elfRunBinary, header]
  rfl

theorem oneArgument_loads (argument : CString) (i : Nat) : ¬ Loads (oneArgument argument).buffer i := by
  rintro ⟨inside, -⟩
  rw [oneArgument, show (elfHeader (elfFile [])).progHeadCount.toNat = 0 by decide +kernel] at inside
  cases inside

theorem one_name_contained :
    let request := oneArgument ⟨[0x6c, 0x73], by decide⟩
    (∃ entry stack p, newImage pmmAllocator megabyte request.buffer true = some (entry, stack, p)) ∧
      Contained pmmAllocator oneProcess 0 ⟨1, 1, 1⟩ (some runnable) request := by
  intro request
  obtain ⟨stack, p, made⟩ := megabyte_suffices (oneArgument_bare ⟨[0x6c, 0x73], by decide⟩)
  refine ⟨⟨_, stack, p, made⟩, ?_⟩
  obtain ⟨contained, place⟩ := args_contained_iff oneProcess 0 ⟨1, 1, 1⟩ (some runnable) request rfl rfl
  refine contained.mpr (Or.inr fun entry stack p made => Or.inr ?_)
  rw [place (fun i loads => absurd loads (oneArgument_loads _ i)) entry stack p made]
  exact ⟨le_rfl, Nat.add_le_add_left (by decide) _⟩

/-- As many characters as the stack has bytes. -/
def longName : CString := ⟨List.replicate schedStackSize 0x61, fun byte member => by
  rw [List.eq_of_mem_replicate member]
  decide⟩

/-- A string as long as the stack, with its `NUL`, begins a byte below it. -/
theorem long_name_overruns : ∃ entry stack p,
    newImage pmmAllocator megabyte (oneArgument longName).buffer true = some (entry, stack, p) ∧
    ¬ Refused oneProcess 0 (some runnable) ∧
    ((stack.frames : Int) - 1, schedStackSize + 1) ∈
      argWrites (argsTop p stack) (oneArgument longName).argv (oneArgument longName).env ∧
    ¬ Contained pmmAllocator oneProcess 0 ⟨1, 1, 1⟩ (some runnable) (oneArgument longName) := by
  obtain ⟨stack, p, made⟩ := megabyte_suffices (oneArgument_bare longName)
  have place := (newImage_argsTop made).2 fun i loads => absurd loads (oneArgument_loads _ i)
  have long : ArgStack.strlen longName = schedStackSize := List.length_replicate
  have granted : ¬ Refused oneProcess 0 (some runnable) := fun refused => by
    rcases refused runnable rfl with read | exec
    · exact read rfl
    · exact exec rfl
  have written : ((stack.frames : Int) - 1, schedStackSize + 1) ∈
      argWrites (argsTop p stack) (oneArgument longName).argv (oneArgument longName).env := by
    rw [place]
    simp only [oneArgument, argWrites, Option.getD_none, Option.getD_some, ArgStack.stringWrites, long,
      ArgStack.stringsSize, List.map_nil, List.sum_nil, List.nil_append, List.mem_append, List.mem_singleton]
    refine Or.inl (Or.inl (Prod.mk.injEq .. ▸ ⟨?_, rfl⟩))
    generalize schedStackSize = size
    push_cast
    omega
  refine ⟨_, stack, p, made, granted, written, ?_⟩
  rintro (⟨err, -, failed⟩ | inside)
  · rw [syscallExecve, if_neg (fun refused => granted fun file same => Option.some.inj same ▸ refused)] at failed
    cases (schedRunProgram_replaces failed).1
  · have := (inside 0 rfl _ stack p made _ written).1
    dsimp only at this
    omega

end MandelbrotOS.Programs
