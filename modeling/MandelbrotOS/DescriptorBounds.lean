import Mathlib.Algebra.Group.Int.Defs
import MandelbrotOS.HandleBooks
import MandelbrotOS.Mmap
import MandelbrotOS.ReadBack

/-! The places of the descriptor table that the system calls touch:
`c_syscall_handler` of `sys/syscall.c` and the nine calls behind it that index
`fds`. Only `syscall_mmap` looks at its index before it uses it. -/
namespace MandelbrotOS.DescriptorBounds
open Descriptors Mmap Pmm Vfs
open Handles (Store)
open ReadBack (espipe seekCur seekEnd seekSet ssize)

/-- Memory around the table of the current process, read as pointers from the
table on, in both directions; everything else; and the indices used so far. -/
structure Machine (W : Type) where
  fds : Int → Option SyscallFile
  rest : W
  accesses : List Int

/-- What the calls do apart from the table: the file objects, the virtual file
system, user memory and the mapping of pages. -/
structure KernelOps (W : Type) where
  file : W → FilePtr → FsFile
  setOffset : W → FilePtr → Nat → W
  countUp : W → FilePtr → W
  uid : W → Int
  gid : W → Int
  vfsClose : W → FilePtr → W
  vfsRead : W → FilePtr → BitVec 64 → Nat → Nat → Nat × W
  vfsWrite : W → FilePtr → BitVec 64 → Nat → Nat → Nat × W
  vfsFstat : W → FilePtr → BitVec 64 → W
  vfsIoctl : W → FilePtr → BitVec 64 → BitVec 64 → Nat × W
  vfsMmap : W → FilePtr → BitVec 64 → MmapArgs → W
  mmapArgs : W → BitVec 64 → MmapArgs
  mmapedLen : W → Nat
  setMmapedLen : W → Nat → W
  mmapTop : W → Nat
  setMmapTop : W → Nat → W
  pcalloc : W → Nat → Nat × W
  vmmMmapRange : W → Nat → BitVec 64 → MmapArgs → W

/-- `registers_t`, as far as the handler reads it. -/
structure Registers where
  rdi : BitVec 64
  rsi : BitVec 64
  rdx : BitVec 64
  rcx : BitVec 64
  rax : BitVec 64

def fDupfd : Int := 1

variable {W : Type}

abbrev Handler (W : Type) (α : Type) := StateM (Machine W) α

/-- `CURRENT_PROC->fds[index]`. -/
def fdAt (index : Int) : Handler W (Option SyscallFile) := fun machine =>
  (machine.fds index, { machine with accesses := machine.accesses ++ [index] })

/-- `CURRENT_PROC->fds[index] = file`. -/
def setFdAt (index : Int) (file : Option SyscallFile) : Handler W Unit := fun machine =>
  ((), { machine with
    fds := Function.update machine.fds index file
    accesses := machine.accesses ++ [index] })

/-- A part of a call that has nothing to do with the table. -/
def elsewhere (action : W → α × W) : Handler W α := fun machine =>
  ((action machine.rest).1, { machine with rest := (action machine.rest).2 })

def look (read : W → α) : Handler W α := elsewhere fun rest => (read rest, rest)

def change (update : W → W) : Handler W Unit := elsewhere fun rest => ((), update rest)

variable (ops : KernelOps W)

def syscallClose (id : BitVec 64) : Handler W Reply := do
  match ← fdAt id.toNat with
  | none => return .error ebadf
  | some file =>
    change (ops.vfsClose · file.file)
    setFdAt id.toNat none
    return .value 0

/-- `syscall_read` and `syscall_write`, which differ in the flags they ask for,
in what they answer without them, and in the direction. -/
def transfer (move : W → FilePtr → BitVec 64 → Nat → Nat → Nat × W) (accepts : BitVec 32 → Bool)
    (missing refused : Reply) (id buffer : BitVec 64) (size : Nat) : Handler W Reply := do
  match ← fdAt id.toNat with
  | none => return missing
  | some sfile =>
    if !accepts sfile.flags then return refused
    if size = 0 then return .value 0
    let file ← look (ops.file · sfile.file)
    let size := clippedSize file size
    let moved ← elsewhere (move · sfile.file buffer file.offset size)
    change fun rest => ops.setOffset rest sfile.file (((ops.file rest sfile.file).offset + size) % wordSize)
    return .value moved

def syscallRead : BitVec 64 → BitVec 64 → Nat → Handler W Reply :=
  transfer ops ops.vfsRead readAccepts (.error ebadf) (.error einval)

def syscallWrite : BitVec 64 → BitVec 64 → Nat → Handler W Reply :=
  transfer ops ops.vfsWrite writeAccepts (.value 0) (.value 0)

def syscallFstat (id stat : BitVec 64) : Handler W Reply := do
  match ← fdAt id.toNat with
  | none => return .error ebadf
  | some sfile =>
    if (← look fun rest => vfsCheckCanRead (ops.file rest sfile.file) (ops.uid rest) (ops.gid rest)) ≠ 0 then
      return .error eacces
    change (ops.vfsFstat · sfile.file stat)
    return .value 0

def syscallFsync (id : BitVec 64) : Handler W Reply := do
  match ← fdAt id.toNat with
  | none => return .error ebadf
  | some sfile =>
    if isFifo (← look (ops.file · sfile.file)) then return .error einval
    return .value 0

def syscallIoctl (fd cmd arg : BitVec 64) : Handler W Reply := do
  match ← fdAt fd.toNat with
  | none => return .error ebadf
  | some sfile => return .value (← elsewhere (ops.vfsIoctl · sfile.file cmd arg))

def syscallSeek (fd offset : BitVec 64) (type : Nat) : Handler W Reply := do
  match ← fdAt fd.toNat with
  | none => return .error ebadf
  | some sfile =>
    let file ← look (ops.file · sfile.file)
    let moved (place : Int) : Handler W Reply := do
      change (ops.setOffset · sfile.file (place % 2 ^ 64).toNat)
      return .value (place % 2 ^ 64).toNat
    if isFifo file then return .error espipe
    if type = seekEnd then moved (file.length + offset.toInt)
    else if type = seekCur then
      if ssize file.offset + offset.toInt < 0 then return .error einval
      else moved (file.offset + offset.toInt)
    else if type = seekSet then if offset.toInt < 0 then return .error einval else moved offset.toInt
    else return .error einval

/-- The loop of `syscall_fcntl` over `i`, which stops at a free place. -/
def placeFrom (file : SyscallFile) : Nat → Nat → Handler W Nat
  | 0, i => return i
  | turns + 1, i => do
    match ← fdAt i with
    | none =>
      setFdAt i (some file)
      return i
    | some _ => placeFrom file turns (i + 1)

/-- `syscall_fcntl`. A negative `arg` becomes a large `i`. -/
def syscallFcntl (fd cmd arg : BitVec 32) : Handler W Reply := do
  match ← fdAt fd.toInt with
  | none => return .error ebadf
  | some sfile =>
    if cmd.toInt = fDupfd then
      change (ops.countUp · sfile.file)
      let first := (arg.signExtend 64).toNat
      return .value (← placeFrom sfile (fdsCount - first) first)
    else return .error einval

/-- `syscall_mmap` once the address is chosen. -/
def mmapAt (args : MmapArgs) (addr : BitVec 64) : Handler W Reply := do
  let flags := args.flags.setWidth 32
  let prot := args.prot.setWidth 32
  if has flags mapAnon then
    let givenPages ← elsewhere (ops.pcalloc · (neededPages args.length))
    if givenPages = 0 then return .error enomem
    change (ops.vmmMmapRange · givenPages addr args)
    return .value addr.toNat
  else if args.fd < 0 then return .error ebadf
  else
    match ← fdAt args.fd with
    | none => return .fault
    | some file =>
      if has prot protWrite && has flags mapShared && !has file.flags (oRdwr ||| oWronly) then
        return .error eacces
      if isFifo (← look (ops.file · file.file)) then return .error enodev
      change (ops.vfsMmap · file.file addr args)
      return .value addr.toNat

/-- The rest of `syscall_mmap`, once the descriptor has passed. -/
def mmapRest (args : MmapArgs) : Handler W Reply := do
  let flags := args.flags.setWidth 32
  if args.length = 0 then return .error einval
  if !has flags mapShared && !has flags mapPrivate then return .error einval
  let needed := neededPages args.length * pageSize
  let mapped ← look ops.mmapedLen
  if (mapped + needed) % wordSize > mmapMaxSize then return .error emfile
  change (ops.setMmapedLen · ((mapped + needed) % wordSize))
  if has flags mapFixed then
    if args.addr.toNat % pageSize ≠ 0 then return .error einval
    else mmapAt ops args args.addr
  else
    let top ← look ops.mmapTop
    change (ops.setMmapTop · ((top + (neededPages args.length + 1) * pageSize) % wordSize))
    mmapAt ops args (BitVec.ofNat 64 top)

def syscallMmap (args : MmapArgs) : Handler W Reply := do
  if args.fd > -1 then
    if args.fd ≥ fdsCount then return .error ebadf
    if (← fdAt args.fd).isNone then return .error ebadf
    if !(← fdAt args.fd).any fun file => readAccepts file.flags then return .error eacces
    mmapRest ops args
  else mmapRest ops args

/-- `c_syscall_handler`, for the calls that index the table; the others are
`other`. -/
def cSyscallHandler (other : Registers → W → Reply × W) (regs : Registers) : Handler W Reply :=
  match regs.rdi.toNat with
  | 1 => syscallClose ops regs.rsi -- SYSCALL_CLOSE
  | 2 => syscallRead ops regs.rsi regs.rdx regs.rcx.toNat -- SYSCALL_READ
  | 3 => syscallWrite ops regs.rsi regs.rdx regs.rcx.toNat -- SYSCALL_WRITE
  | 5 => do syscallMmap ops (← look (ops.mmapArgs · regs.rsi)) -- SYSCALL_MMAP
  | 8 => syscallFstat ops regs.rsi regs.rdx -- SYSCALL_FSTAT
  | 13 => do -- SYSCALL_FSYNC, whose answer is dropped
    let _ ← syscallFsync ops regs.rsi
    return .value regs.rax.toNat
  | 14 => syscallIoctl ops regs.rsi regs.rdx regs.rcx -- SYSCALL_IOCTL
  | 16 => syscallSeek ops regs.rsi regs.rdx (regs.rcx.setWidth 32).toNat -- SYSCALL_SEEK
  | 20 => -- SYSCALL_FCNTL
    syscallFcntl ops (regs.rsi.setWidth 32) (regs.rdx.setWidth 32) (regs.rcx.setWidth 32)
  | _ => elsewhere (other regs)

/-! ### Closing and seeking in a world of files -/

section
variable {Vol : Type} {ops : KernelOps (World (Store Vol))} {machine : Machine (World (Store Vol))}

/-- The world of a process, with the table it has come to. -/
def worldOf (machine : Machine (World (Store Vol))) : World (Store Vol) :=
  { machine.rest with fds := fun i => machine.fds i }

variable (table : (fun i : Nat => machine.fds i) = machine.rest.fds)
include table

theorem syscallClose_eq (closes : ops.vfsClose = Handles.vfsClose) (fd : BitVec 64) :
    Prod.map id worldOf (syscallClose ops fd machine) = Handles.syscallClose machine.rest fd.toNat := by
  obtain ⟨fds, world, accesses⟩ := machine
  dsimp only at table ⊢
  have emptied : (fun i : Nat => Function.update fds fd.toNat none i) = Function.update world.fds fd.toNat none := by
    rw [← table]
    funext i
    grind
  simp only [syscallClose, fdAt, bind, StateT.bind, Handles.syscallClose, ← congrFun table fd.toNat]
  cases fds fd.toNat with
  | none => exact Prod.ext rfl (congrArg (World.mk _ _) table)
  | some sfile =>
    simp only [closes, HandleBooks.fds_vfsClose, ← emptied]
    rfl

theorem syscallSeek_eq (file : ops.file = World.files) (sets : ops.setOffset = World.setOffset)
    (fd offset : BitVec 64) (type : Nat) : Prod.map id worldOf (syscallSeek ops fd offset type machine) =
      ReadBack.syscallSeek machine.rest fd.toNat offset.toInt type := by
  obtain ⟨fds, world, accesses⟩ := machine
  dsimp only at table ⊢
  simp only [syscallSeek, fdAt, bind, StateT.bind, ReadBack.syscallSeek, ← congrFun table fd.toNat]
  cases fds fd.toNat with
  | none => exact Prod.ext rfl (congrArg (World.mk _ _) table)
  | some sfile =>
    simp only [StateT.bind, bind, look, elsewhere, file, sets]
    split_ifs
    all_goals exact Prod.ext rfl (congrArg (World.mk _ _) table)

end

/-! ### The indices a program uses -/

/-- Every index the program adds to those used has the property. -/
def Only (allowed : Int → Prop) (program : Handler W α) : Prop :=
  ∀ machine, ∃ new, (program machine).2.accesses = machine.accesses ++ new ∧ ∀ index ∈ new, allowed index

section
variable {allowed : Int → Prop}

theorem only_pure (value : α) : Only (W := W) allowed (pure value) := fun machine =>
  ⟨[], (List.append_nil _).symm, by simp⟩

theorem only_elsewhere (action : W → α × W) : Only allowed (elsewhere action) := fun machine =>
  ⟨[], (List.append_nil _).symm, by simp⟩

theorem only_fdAt (fine : allowed index) : Only (W := W) allowed (fdAt index) := fun machine =>
  ⟨[index], rfl, by simpa using fine⟩

theorem only_setFdAt (fine : allowed index) (file : Option SyscallFile) :
    Only (W := W) allowed (setFdAt index file) := fun machine =>
  ⟨[index], rfl, by simpa using fine⟩

theorem only_bind {first : Handler W α} {next : α → Handler W β} (before : Only allowed first)
    (after : ∀ value, Only allowed (next value)) : Only allowed (first >>= next) := by
  intro machine
  obtain ⟨new, used, fine⟩ := before machine
  obtain ⟨more, used', fine'⟩ := after (first machine).1 (first machine).2
  refine ⟨new ++ more, used'.trans (by rw [used, List.append_assoc]), ?_⟩
  grind

theorem only_after {action : W → α × W} {next : α → Handler W β} (after : ∀ value, Only allowed (next value)) :
    Only allowed (elsewhere action >>= next) := only_bind (only_elsewhere action) after

theorem only_ite {cond : Prop} [Decidable cond] {first second : Handler W α} (one : Only allowed first)
    (other : Only allowed second) : Only allowed (if cond then first else second) := by
  split
  · exact one
  · exact other

end

theorem Only.mono {allowed allowed' : Int → Prop} {program : Handler W α} (only : Only allowed program)
    (weaker : ∀ index, allowed index → allowed' index) : Only allowed' program := by
  intro machine
  obtain ⟨new, used, fine⟩ := only machine
  simp_all

/-- An index within the table. -/
def InBounds (index : Int) : Prop := 0 ≤ index ∧ index < fdsCount

/-- The program uses the index, and no other outside the table. -/
structure Uses (index : Int) (program : Handler W α) : Prop where
  only : Only (fun other => other = index ∨ InBounds other) program
  used : ∀ machine, index ∈ (program machine).2.accesses

theorem uses_fdAt {next : Option SyscallFile → Handler W α}
    (after : ∀ file, Only (fun other => other = index ∨ InBounds other) (next file)) :
    Uses index (fdAt index >>= next) where
  only := only_bind (only_fdAt (Or.inl rfl)) after
  used machine := by
    obtain ⟨more, used, -⟩ := after (machine.fds index) (fdAt index machine).2
    have whole : ((fdAt index >>= next) machine).2.accesses = (fdAt index machine).2.accesses ++ more := used
    rw [whole]
    simp [fdAt]

theorem Uses.bind {first : Handler W α} {next : α → Handler W β} (uses : Uses index first)
    (after : ∀ value, Only (fun other => other = index ∨ InBounds other) (next value)) :
    Uses index (first >>= next) where
  only := only_bind uses.only after
  used machine := by
    obtain ⟨more, used, -⟩ := after (first machine).1 (first machine).2
    rw [show ((first >>= next) machine).2.accesses = (first machine).2.accesses ++ more from used]
    exact List.mem_append_left _ (uses.used machine)

theorem Uses.inBounds_iff {program : Handler W α} (uses : Uses index program) (machine : Machine W)
    (start : machine.accesses = []) :
    (∀ other ∈ (program machine).2.accesses, InBounds other) ↔ InBounds index := by
  constructor
  · exact fun all => all index (uses.used machine)
  · intro fine other member
    obtain ⟨new, used, only⟩ := uses.only machine
    grind

theorem Only.inBounds {program : Handler W α} (only : Only InBounds program) (machine : Machine W)
    (start : machine.accesses = []) : ∀ other ∈ (program machine).2.accesses, InBounds other := by
  intro other member
  obtain ⟨new, used, only⟩ := only machine
  simp_all

/-! ### The calls -/

theorem syscallClose_uses (id : BitVec 64) : Uses id.toNat (syscallClose ops id) := by
  apply uses_fdAt
  rintro (_ | file)
  · exact only_pure _
  · apply only_after
    grind [only_bind, only_setFdAt, only_pure]

theorem transfer_uses (move : W → FilePtr → BitVec 64 → Nat → Nat → Nat × W) (accepts : BitVec 32 → Bool)
    (missing refused : Reply) (id buffer : BitVec 64) (size : Nat) :
    Uses id.toNat (transfer ops move accepts missing refused id buffer size) := by
  apply uses_fdAt
  rintro (_ | sfile)
  · exact only_pure _
  · apply only_ite (only_pure _)
    apply only_ite (only_pure _)
    apply only_after
    intro
    apply only_after
    intro
    apply only_after
    intro
    exact only_pure _

theorem syscallFstat_uses (id stat : BitVec 64) : Uses id.toNat (syscallFstat ops id stat) := by
  apply uses_fdAt
  rintro (_ | sfile)
  · exact only_pure _
  · apply only_after
    intro
    apply only_ite (only_pure _)
    apply only_after
    intro
    exact only_pure _

theorem syscallFsync_uses (id : BitVec 64) : Uses id.toNat (syscallFsync ops id) := by
  apply uses_fdAt
  rintro (_ | sfile)
  · exact only_pure _
  · apply only_after
    intro
    exact only_ite (only_pure _) (only_pure _)

theorem syscallIoctl_uses (fd cmd arg : BitVec 64) : Uses fd.toNat (syscallIoctl ops fd cmd arg) := by
  apply uses_fdAt
  rintro (_ | sfile)
  · exact only_pure _
  · apply only_after
    intro
    exact only_pure _

theorem syscallSeek_uses (fd offset : BitVec 64) (type : Nat) :
    Uses fd.toNat (syscallSeek ops fd offset type) := by
  have moved (allowed : Int → Prop) (file : FilePtr) (place : Nat) :
      Only allowed (do change (ops.setOffset · file place); return Reply.value place : Handler W Reply) := by
    apply only_after
    intro
    exact only_pure _
  apply uses_fdAt
  rintro (_ | sfile)
  · exact only_pure _
  · apply only_after
    intro file
    apply only_ite (only_pure _)
    apply only_ite (moved _ _ _)
    apply only_ite (only_ite (only_pure _) (moved _ _ _))
    simp_all [only_ite, only_pure]

theorem placeFrom_only (file : SyscallFile) (turns i : Nat) (ends : turns = 0 ∨ i + turns ≤ fdsCount) :
    Only InBounds (placeFrom (W := W) file turns i) := by
  induction turns generalizing i with
  | zero => exact only_pure _
  | succ turns ih =>
    have inside : InBounds i := by
      rw [InBounds]
      omega
    apply only_bind (only_fdAt inside)
    grind [only_bind, only_setFdAt, only_pure]

theorem syscallFcntl_uses (fd cmd arg : BitVec 32) : Uses fd.toInt (syscallFcntl ops fd cmd arg) := by
  apply uses_fdAt
  rintro (_ | sfile)
  · exact only_pure _
  · apply only_ite
    · apply only_after
      intro
      apply only_bind
      · exact (placeFrom_only sfile _ _ (by omega)).mono fun _ => Or.inr
      · intro
        exact only_pure _
    · exact only_pure _

theorem mmapAt_only (args : MmapArgs) (checked : args.fd < fdsCount) (addr : BitVec 64) :
    Only InBounds (mmapAt ops args addr) := by
  apply only_ite
  · apply only_after
    intro
    apply only_ite (only_pure _)
    apply only_after
    intro
    exact only_pure _
  · by_cases negative : args.fd < 0
    · rw [if_pos negative]
      exact only_pure _
    · rw [if_neg negative]
      apply only_bind (only_fdAt ⟨Int.not_lt.mp negative, checked⟩)
      rintro (_ | file)
      · exact only_pure _
      · apply only_ite (only_pure _)
        apply only_after
        intro
        apply only_ite (only_pure _)
        apply only_after
        intro
        exact only_pure _

theorem mmapRest_only (args : MmapArgs) (checked : args.fd < fdsCount) : Only InBounds (mmapRest ops args) := by
  apply only_ite (only_pure _)
  apply only_ite (only_pure _)
  apply only_after
  intro
  apply only_ite (only_pure _)
  apply only_after
  intro
  apply only_ite
  · exact only_ite (only_pure _) (mmapAt_only ops args checked _)
  · apply only_after
    intro
    apply only_after
    intro
    exact mmapAt_only ops args checked _

theorem syscallMmap_only (args : MmapArgs) : Only InBounds (syscallMmap ops args) := by
  unfold syscallMmap
  by_cases given : args.fd > -1
  · rw [if_pos given]
    by_cases large : args.fd ≥ fdsCount
    · rw [if_pos large]
      exact only_pure _
    · rw [if_neg large]
      have inside : InBounds args.fd := ⟨by omega, Int.not_le.mp large⟩
      apply only_bind (only_fdAt inside)
      intro
      apply only_ite (only_pure _)
      apply only_bind (only_fdAt inside)
      simp_all [only_ite, only_pure, mmapRest_only]
  · rw [if_neg given]
    grind [mmapRest_only]

/-- The seven calls that use a whole register as an index. -/
def wholeRegister (call : Nat) : Bool := call ∈ [1, 2, 3, 8, 13, 14, 16]

/-- What the registers have to hold: a descriptor in `rsi` for the calls that
take one from there, of which `syscall_fcntl` takes an `int`. -/
def ValidIndex (regs : Registers) : Prop :=
  (wholeRegister regs.rdi.toNat = true → InBounds regs.rsi.toNat) ∧
    (regs.rdi.toNat = 20 → InBounds (regs.rsi.setWidth 32).toInt)

theorem validIndex_whole (whole : wholeRegister regs.rdi.toNat = true) :
    ValidIndex regs ↔ InBounds regs.rsi.toNat := by
  have other : regs.rdi.toNat ≠ 20 := by
    intro fcntl
    rw [fcntl] at whole
    cases whole
  exact ⟨fun valid => valid.1 whole, fun inside => ⟨fun _ => inside, fun fcntl => absurd fcntl other⟩⟩

theorem validIndex_fcntl (fcntl : regs.rdi.toNat = 20) :
    ValidIndex regs ↔ InBounds (regs.rsi.setWidth 32).toInt := by
  refine ⟨fun valid => valid.2 fcntl, fun inside => ⟨fun whole => ?_, fun _ => inside⟩⟩
  rw [fcntl] at whole
  cases whole

theorem validIndex_other (whole : wholeRegister regs.rdi.toNat = false) (fcntl : regs.rdi.toNat ≠ 20) :
    ValidIndex regs :=
  ⟨fun register => absurd register (by rw [whole]; decide), fun same => absurd same fcntl⟩

/-- **Descriptor indices.** Whatever the registers, memory and files, every
access to the table made by one of the nine calls is within it, if and only if
the register that seven of them use as an index, and the `int` that
`syscall_fcntl` takes from it, name a place of the table. -/
theorem accesses_in_bounds_iff (other : Registers → W → Reply × W) (regs : Registers) (machine : Machine W)
    (start : machine.accesses = []) :
    (∀ index ∈ (cSyscallHandler ops other regs machine).2.accesses, InBounds index) ↔ ValidIndex regs := by
  have whole {program : Handler W Reply} (uses : Uses regs.rsi.toNat program)
      (number : wholeRegister regs.rdi.toNat = true) :
      (∀ index ∈ (program machine).2.accesses, InBounds index) ↔ ValidIndex regs :=
    (uses.inBounds_iff machine start).trans (validIndex_whole number).symm
  have none {program : Handler W Reply} (only : Only InBounds program)
      (number : wholeRegister regs.rdi.toNat = false) (fcntl : regs.rdi.toNat ≠ 20) :
      (∀ index ∈ (program machine).2.accesses, InBounds index) ↔ ValidIndex regs :=
    iff_of_true (only.inBounds machine start) (validIndex_other number fcntl)
  generalize called : cSyscallHandler ops other regs = program
  unfold cSyscallHandler at called
  split at called <;> subst called <;> rename_i number
  · exact whole (syscallClose_uses ops _) (by rw [number]; rfl)
  · exact whole (transfer_uses ops _ _ _ _ _ _ _) (by rw [number]; rfl)
  · exact whole (transfer_uses ops _ _ _ _ _ _ _) (by rw [number]; rfl)
  · exact none (only_after fun args => syscallMmap_only ops args) (by rw [number]; rfl) (by rw [number]; decide)
  · exact whole (syscallFstat_uses ops _ _) (by rw [number]; rfl)
  · exact whole ((syscallFsync_uses ops _).bind fun _ => only_pure _) (by rw [number]; rfl)
  · exact whole (syscallIoctl_uses ops _ _ _) (by rw [number]; rfl)
  · exact whole (syscallSeek_uses ops _ _ _) (by rw [number]; rfl)
  · exact ((syscallFcntl_uses ops _ _ _).inBounds_iff machine start).trans (validIndex_fcntl number).symm
  · refine none (only_elsewhere _) ?_ (by assumption)
    simp only [wholeRegister, List.mem_cons, List.not_mem_nil, or_false, decide_eq_false_iff_not]
    rintro (same | same | same | same | same | same | same) <;> contradiction

/-- A machine with nothing in it. -/
def idle : KernelOps Unit where
  file _ _ := { uid := 0, gid := 0, mode := 0 }
  setOffset _ _ _ := ()
  countUp _ _ := ()
  uid _ := 0
  gid _ := 0
  vfsClose _ _ := ()
  vfsRead _ _ _ _ _ := (0, ())
  vfsWrite _ _ _ _ _ := (0, ())
  vfsFstat _ _ _ := ()
  vfsIoctl _ _ _ _ := (0, ())
  vfsMmap _ _ _ _ := ()
  mmapArgs _ _ := ⟨0, 0, 0, 0, 0, 0⟩
  mmapedLen _ := 0
  setMmapedLen _ _ := ()
  mmapTop _ := 0
  setMmapTop _ _ := ()
  pcalloc _ _ := (0, ())
  vmmMmapRange _ _ _ _ := ()

theorem close_three_in_bounds :
    let final := (cSyscallHandler idle (fun _ _ => (.value 0, ())) ⟨1, 3, 0, 0, 0⟩ ⟨fun _ => none, (), []⟩).2
    final.accesses = [3] ∧ ∀ index ∈ final.accesses, InBounds index :=
  ⟨rfl, (accesses_in_bounds_iff idle _ ⟨1, 3, 0, 0, 0⟩ ⟨fun _ => none, (), []⟩ rfl).mpr
    ⟨fun _ => ⟨by decide, by decide⟩, fun fcntl => absurd fcntl (by decide)⟩⟩

/-- Closing descriptor 128 reads the place behind the table. -/
theorem close_reads_behind_the_table : ¬ ∀ index ∈ (cSyscallHandler idle (fun _ _ => (.value 0, ()))
    ⟨1, 128, 0, 0, 0⟩ ⟨fun _ => none, (), []⟩).2.accesses, InBounds index := by
  intro all
  exact absurd (all 128 (List.mem_singleton.mpr rfl)).2 (by decide)

end MandelbrotOS.DescriptorBounds
