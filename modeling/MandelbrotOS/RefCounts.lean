import MandelbrotOS.Runs
import MandelbrotOS.Balance

/-! Reference counts over any number of processes: the descriptor calls of each,
in any order, over one store of file objects. -/
namespace MandelbrotOS.RefCounts
open Vfs Descriptors Handles HandleBooks DescriptorSlots Balance Runs

variable {Vol : Type}

/-- The descriptor tables of all processes over one store of file objects. -/
structure Kernel (Vol : Type) where
  store : Store Vol
  files : FilePtr → FsFile
  procs : Nat
  tables : Nat → Nat → Option SyscallFile

/-- What a process sees of the kernel during a call. -/
def Kernel.world (kernel : Kernel Vol) (proc : Nat) : World (Store Vol) :=
  ⟨kernel.store, kernel.files, kernel.tables proc⟩

def Kernel.put (kernel : Kernel Vol) (proc : Nat) (world : World (Store Vol)) : Kernel Vol :=
  ⟨world.fs, world.files, kernel.procs, Function.update kernel.tables proc world.fds⟩

/-- One turn of the loop in `sched_new_proc` that copies descriptors. -/
def countCopy (fds : Nat → Option SyscallFile) (files : FilePtr → FsFile) (i : Nat) : FilePtr → FsFile :=
  match fds i with
  | none => files
  | some sfile =>
    Function.update files sfile.file { files sfile.file with refCount := (files sfile.file).refCount + 1 }

/-- The descriptors of `sched_fork`: the new process gets a copy of each. -/
def schedFork (kernel : Kernel Vol) (proc : Nat) : Kernel Vol where
  store := kernel.store
  files := (List.range fdsCount).foldl (countCopy (kernel.tables proc)) kernel.files
  procs := kernel.procs + 1
  tables := Function.update kernel.tables kernel.procs fun i =>
    if i < fdsCount then kernel.tables proc i else none

inductive Call where
  | openPath (proc : Nat) (forOpen forCreate : Allocator) (uid gid : Int) (path : Path)
      (flags mode : BitVec 32)
  | pipe (proc : Nat) (kmalloc : Allocator) (uid gid : Int) (pipefd : Nat × Nat)
  | dupfd (proc fd : Nat) (arg : Int)
  | fork (proc : Nat)
  | close (proc fd : Nat)

/-- One system call by one process. There is no state after a fault, nor after a
call of no process or with a number beyond the table. -/
def step (base : FileOps (Store Vol)) (vols : Volumes Vol) (kernel : Kernel Vol) :
    Call → Option (Kernel Vol)
  | .openPath proc forOpen forCreate uid gid path flags mode =>
    let result := syscallOpen (handleOps base vols forOpen forCreate) (kernel.world proc) uid gid path
      flags mode
    if proc < kernel.procs ∧ result.1 ≠ .fault then some (kernel.put proc result.2) else none
  | .pipe proc kmalloc uid gid pipefd =>
    if proc < kernel.procs then
      some (kernel.put proc (syscallPipe kmalloc (kernel.world proc) uid gid pipefd).2.2)
    else none
  | .dupfd proc fd arg =>
    if proc < kernel.procs ∧ fd < fdsCount then
      some (kernel.put proc (syscallDupfd (kernel.world proc) fd arg).2)
    else none
  | .fork proc => if proc < kernel.procs then some (schedFork kernel proc) else none
  | .close proc fd =>
    if proc < kernel.procs ∧ fd < fdsCount then
      some (kernel.put proc (syscallClose (kernel.world proc) fd).2)
    else none

/-! ### Counting slots -/

/-- The slots over all processes that point to an object. -/
def slots (kernel : Kernel Vol) (file : FilePtr) : Nat :=
  ∑ proc ∈ Finset.range kernel.procs, heldBy (kernel.tables proc) file

def Kernel.ledger (kernel : Kernel Vol) : Ledger := HandleBooks.ledger (kernel.world 0)

/-- The slots of the other processes. -/
def others (kernel : Kernel Vol) (proc : Nat) (file : FilePtr) : Nat :=
  ∑ other ∈ (Finset.range kernel.procs).erase proc, heldBy (kernel.tables other) file

theorem slots_split (kernel : Kernel Vol) (running : proc < kernel.procs) (file : FilePtr) :
    slots kernel file = others kernel proc file + heldBy (kernel.tables proc) file :=
  (Finset.sum_erase_add _ _ (Finset.mem_range.mpr running)).symm

theorem slots_put (kernel : Kernel Vol) (running : proc < kernel.procs) (world : World (Store Vol))
    (file : FilePtr) :
    slots (kernel.put proc world) file = others kernel proc file + heldBy world.fds file := by
  have rest : others (kernel.put proc world) proc file = others kernel proc file :=
    Finset.sum_congr rfl fun other member =>
      congrArg (heldBy · file) (Function.update_of_ne (Finset.ne_of_mem_erase member) ..)
  have own : (kernel.put proc world).tables proc = world.fds := Function.update_self ..
  rw [slots_split (kernel.put proc world) running, rest, own]

/-! ### Fork -/

theorem countCopy_refCount (fds : Nat → Option SyscallFile) (files : FilePtr → FsFile) (file : FilePtr) :
    (((List.range fdsCount).foldl (countCopy fds) files) file).refCount =
      (files file).refCount + heldBy fds file := by
  unfold heldBy
  generalize fdsCount = count
  induction count with
  | zero => simp
  | succ count ih =>
    rw [List.range_succ, List.foldl_append, Finset.sum_range_succ, List.foldl_cons, List.foldl_nil]
    generalize (List.range count).foldl (countCopy fds) files = copied at *
    unfold countCopy
    cases fds count with
    | none => simp [ih]
    | some sfile =>
      by_cases same : file = sfile.file
      · subst same
        simp [ih, add_assoc]
      · simp [same, Ne.symm same, ih]

theorem heldBy_copy (fds : Nat → Option SyscallFile) (file : FilePtr) :
    heldBy (fun i => if i < fdsCount then fds i else none) file = heldBy fds file := by
  unfold heldBy
  exact Finset.sum_congr rfl fun i member =>
    congrArg (mentions · file) (if_pos (Finset.mem_range.mp member))

theorem fork_ledger (kernel : Kernel Vol) (proc : Nat) (file : FilePtr) :
    (schedFork kernel proc).ledger file =
      (kernel.ledger file).map fun entry => (entry.1, entry.2 + (heldBy (kernel.tables proc) file : Int)) := by
  simp only [Kernel.ledger, ledger, Kernel.world, schedFork, countCopy_refCount, Option.map_map,
    Function.comp_def]

theorem fork_slots (kernel : Kernel Vol) (proc : Nat) (file : FilePtr) :
    slots (schedFork kernel proc) file = slots kernel file + heldBy (kernel.tables proc) file := by
  have old : ∑ other ∈ Finset.range kernel.procs, heldBy ((schedFork kernel proc).tables other) file =
      slots kernel file := Finset.sum_congr rfl fun other member =>
    congrArg (heldBy · file) (Function.update_of_ne (Finset.mem_range.mp member).ne ..)
  have new : heldBy ((schedFork kernel proc).tables kernel.procs) file =
      heldBy (kernel.tables proc) file :=
    (congrArg (heldBy · file) (Function.update_self ..)).trans (heldBy_copy _ file)
  rw [slots, schedFork, Finset.sum_range_succ]
  exact congrArg₂ (· + ·) old new

theorem heldBy_le_slots {kernel : Kernel Vol} (running : proc < kernel.procs) (file : FilePtr) :
    heldBy (kernel.tables proc) file ≤ slots kernel file := by
  rw [slots_split _ running]
  omega

theorem fork_balanced {kernel : Kernel Vol} (running : proc < kernel.procs)
    (balanced : BalancedAt (kernel.ledger file) (slots kernel file)) :
    BalancedAt ((schedFork kernel proc).ledger file) (slots (schedFork kernel proc) file) := by
  have within := heldBy_le_slots running file
  rw [fork_ledger, fork_slots]
  cases noted : kernel.ledger file with
  | none =>
    simp_all [BalancedAt]
  | some entry =>
    grind [BalancedAt]

/-! ### Runs -/

/-- **The purpose of the counts.** An object is open from the call that made it to
the `vfs_close` that releases it, and a file of a tmpfs while a slot points to it. -/
structure Counted (kernel : Kernel Vol) : Prop where
  counts : ∀ file home count, kernel.ledger file = some (home, count) →
    home ≠ .tmpfs ∨ 0 < slots kernel file → count = slots kernel file
  pipes : ∀ file count, kernel.ledger file = some (.anonymous, count) → 0 < slots kernel file
  alive : ∀ file, 0 < slots kernel file → kernel.ledger file ≠ none

theorem Counted.at_ {kernel : Kernel Vol} (counted : Counted kernel) (file : FilePtr) :
    CountedAt (kernel.ledger file) (slots kernel file) := by
  cases noted : kernel.ledger file with
  | none =>
    by_contra held
    exact counted.alive file (Nat.pos_of_ne_zero held) noted
  | some entry =>
    obtain ⟨home, count⟩ := entry
    exact ⟨counted.counts file home count noted, fun pipe => counted.pipes file count (pipe ▸ noted)⟩

structure Inv (vols : Volumes Vol) (kernel : Kernel Vol) : Prop where
  balanced : ∀ file, BalancedAt (kernel.ledger file) (slots kernel file)
  owned : ∀ file, vols.owns kernel.store.volume file → IsNode kernel.ledger file

theorem Inv.counted {kernel : Kernel Vol} (inv : Inv vols kernel) : Counted kernel := by
  refine ⟨?_, ?_, ?_⟩
  · intro file home count noted isOpen
    have own := (inv.balanced file).counted
    rw [noted] at own
    exact own.1 isOpen
  · intro file count noted
    have own := (inv.balanced file).counted
    rw [noted] at own
    exact own.2 rfl
  · intro file held
    obtain ⟨home, noted⟩ := (inv.balanced file).of_held held
    simp [noted]

section Runs
variable {vols : Volumes Vol} {kernel : Kernel Vol} {proc : Nat}

theorem Inv.books (inv : Inv vols kernel) (running : proc < kernel.procs) :
    Balanced (others kernel proc) (books (kernel.world proc)) ∧ OwnedIn vols (books (kernel.world proc)) := by
  refine ⟨fun file => ?_, inv.owned⟩
  have own := inv.balanced file
  rwa [slots_split _ running] at own

theorem put_inv (running : proc < kernel.procs) {world : World (Store Vol)}
    (balanced : Balanced (others kernel proc) (HandleBooks.books world))
    (owned : OwnedIn vols (HandleBooks.books world)) : Inv vols (kernel.put proc world) := by
  refine ⟨fun file => ?_, owned⟩
  rw [slots_put _ running]
  exact balanced file

theorem put_counted (running : proc < kernel.procs) {world : World (Store Vol)}
    (counted : Counted (kernel.put proc world)) :
    CountedIn (others kernel proc) (HandleBooks.books world) := by
  intro file
  have own := counted.at_ file
  rwa [slots_put _ running] at own

/-- The condition on a call. Only `sched_fork` and `syscall_close` have none; a
pipe is counted right only when there is no slot for it. -/
def KeepsCounts (vols : Volumes Vol) (kernel : Kernel Vol) : Call → Prop
  | .openPath proc _ forCreate uid gid path flags mode => proc < kernel.procs →
      OpenCounted (kernel.world proc) vols forCreate uid gid path flags mode (slots kernel)
  | .pipe proc _ _ _ _ => proc < kernel.procs → ¬ HasFree (kernel.tables proc) 0
  | .dupfd proc fd arg => proc < kernel.procs → fd < fdsCount →
      kernel.tables proc fd = none ∨ (0 ≤ arg ∧ HasFree (kernel.tables proc) arg.toNat)
  | .fork _ => True
  | .close _ _ => True

/-- What a call does to the invariant, and to the counts when it misses its condition. -/
def Exact (base : FileOps (Store Vol)) (vols : Volumes Vol) (kernel : Kernel Vol) (call : Call) : Prop :=
  (KeepsCounts vols kernel call → ∀ next, step base vols kernel call = some next → Inv vols next) ∧
    (¬ KeepsCounts vols kernel call → ∃ next, step base vols kernel call = some next ∧ ¬ Counted next)

theorem exact_of_books {base : FileOps (Store Vol)} {call : Call} {world : World (Store Vol)} {cond : Prop}
    (running : proc < kernel.procs)
    (stepped : step base vols kernel call = some (kernel.put proc world))
    (condition : KeepsCounts vols kernel call ↔ cond) (owned : OwnedIn vols (books world))
    (right : cond → Balanced (others kernel proc) (books world))
    (wrong : ¬ cond → ¬ CountedIn (others kernel proc) (books world)) : Exact base vols kernel call := by
  unfold Exact
  grind [put_counted, put_inv]

theorem exact_of_none {base : FileOps (Store Vol)} {call : Call}
    (stuck : step base vols kernel call = none) (condition : KeepsCounts vols kernel call) :
    Exact base vols kernel call := by
  simp_all [Exact]

section
variable (base : FileOps (Store Vol))
include base

section
variable (inv : Inv vols kernel)
include inv

theorem openPath_exact :
    Exact base vols kernel (.openPath proc forOpen forCreate uid gid path flags mode) := by
  by_cases running : proc < kernel.procs
  · obtain ⟨balanced, owned⟩ := inv.books running
    have refined := syscallOpen_books (kernel.world proc) vols forOpen forCreate uid gid path flags mode
      base (owned_iff.mpr owned)
    obtain ⟨right, wrong⟩ := bookOpen_counted forOpen forCreate uid gid path flags mode
      (owned_iff.mpr owned) balanced
    have kept := bookOpen_owned forOpen forCreate owned uid gid path flags mode
    rw [← refined] at right wrong kept
    have all : (fun file => others kernel proc file + heldBy (kernel.world proc).fds file) = slots kernel :=
      funext fun file => (slots_split _ running file).symm
    rw [all] at right wrong
    by_cases fault : (syscallOpen (handleOps base vols forOpen forCreate) (kernel.world proc) uid gid path
        flags mode).1 = .fault
    · refine exact_of_none ?_ fun _ => ?_
      · exact if_neg fun returned => returned.2 fault
      · grind
    · exact exact_of_books running (if_pos ⟨running, fault⟩) (forall_prop_of_true running) (kept fault)
        (fun met => right met fault) fun missed => (wrong missed).2
  · exact exact_of_none (if_neg fun valid => running valid.1) fun runs => absurd runs running

theorem pipe_exact : Exact base vols kernel (.pipe proc kmalloc uid gid pipefd) := by
  by_cases running : proc < kernel.procs
  · obtain ⟨balanced, owned⟩ := inv.books running
    have refined := syscallPipe_books (kernel.world proc) kmalloc uid gid pipefd
    have unused := ledger_place (kernel.world proc) kmalloc
    have unheld := balanced (kmalloc.place (kernel.world proc).fs.live)
    rw [ledger_books, unused] at unheld
    obtain ⟨right, wrong⟩ := pipe_counted (books (kernel.world proc)) unused unheld pipefd
    have kept := pipe_owned owned unused pipefd
    rw [← refined] at right wrong kept
    refine exact_of_books running (if_pos running) (forall_prop_of_true running) kept
      (fun met => ?_) fun missed => wrong (not_not.mp missed)
    have same : books (syscallPipe kmalloc (kernel.world proc) uid gid pipefd).2.2 =
      books (kernel.world proc) := right met
    rw [same]
    exact balanced
  · exact exact_of_none (if_neg running) fun runs => absurd runs running

theorem dupfd_exact : Exact base vols kernel (.dupfd proc fd arg) := by
  by_cases valid : proc < kernel.procs ∧ fd < fdsCount
  · obtain ⟨running, inside⟩ := valid
    obtain ⟨balanced, owned⟩ := inv.books running
    have refined := syscallDupfd_books (kernel.world proc) fd arg
    obtain ⟨right, wrong⟩ := dupfd_counted balanced inside arg
    have kept := dupfd_owned owned fd arg
    rw [← refined] at right wrong kept
    exact exact_of_books running (if_pos ⟨running, inside⟩)
      ((forall_prop_of_true running).trans (forall_prop_of_true inside)) kept right wrong
  · exact exact_of_none (if_neg valid) fun running inside => absurd ⟨running, inside⟩ valid

theorem close_exact : Exact base vols kernel (.close proc fd) := by
  by_cases valid : proc < kernel.procs ∧ fd < fdsCount
  · obtain ⟨running, inside⟩ := valid
    obtain ⟨balanced, owned⟩ := inv.books running
    have refined := syscallClose_books (kernel.world proc) fd
    have right := close_balanced balanced inside
    have kept := close_owned owned fd
    rw [← refined] at right kept
    exact exact_of_books running (if_pos ⟨running, inside⟩) Iff.rfl kept (fun _ => right)
      fun missed => absurd trivial missed
  · exact exact_of_none (if_neg valid) trivial

theorem fork_exact : Exact base vols kernel (.fork proc) := by
  refine ⟨fun _ next stepped => ?_, fun missed => absurd trivial missed⟩
  by_cases running : proc < kernel.procs
  case neg => exact absurd ((if_neg running).symm.trans stepped) (by simp)
  case pos =>
    cases (if_pos running).symm.trans stepped
    refine ⟨fun file => fork_balanced running (inv.balanced file), fun file owns => ?_⟩
    obtain ⟨count, noted⟩ := inv.owned file owns
    exact ⟨count + heldBy (kernel.tables proc) file, by rw [fork_ledger, noted]; rfl⟩

theorem step_exact (call : Call) : Exact base vols kernel call := by
  cases call with
  | openPath => exact openPath_exact base inv
  | pipe => exact pipe_exact base inv
  | dupfd => exact dupfd_exact base inv
  | fork => exact fork_exact base inv
  | close => exact close_exact base inv

end

end

/-- **Reference counts.** From a state with right counts, the runs of
`syscall_open`, `syscall_pipe`, `F_DUPFD`, `sched_fork` and `syscall_close` that keep
them right throughout are those whose calls all meet their condition. -/
theorem counts_kept_iff (base : FileOps (Store Vol)) (vols : Volumes Vol) (kernel : Kernel Vol)
    (start : Inv vols kernel) (calls : List Call) :
    Throughout (step base vols) Counted kernel calls ↔
      Along (step base vols) (KeepsCounts vols) kernel calls :=
  throughout_iff_along (fun _ inv => inv.counted)
    (fun _ call next inv met stepped => (step_exact base inv call).1 met next stepped)
    (fun _ call inv missed => (step_exact base inv call).2 missed) start

end Runs

/-- One process with nothing open. -/
def boot : Kernel Unit where
  store := ⟨(), fun _ => none, 0, fun _ _ => rfl⟩
  files _ := ⟨0, 0, 0, 0, 0, 0⟩
  procs := 1
  tables _ _ := none

/-- A FAT volume on which every path is one file. -/
def oneEntry : Volumes Unit :=
  .readOnly (fun _ => .entry ⟨0, 0, 0o100444, 0, 0, 1⟩) fun _ _ found => by cases found

def noTransfers : FileOps (Store Unit) :=
  ⟨fun world _ => (none, world), fun world _ _ _ _ => (none, world), fun world _ => world,
    fun world _ _ _ => ((0, []), world), fun world _ _ _ _ => (0, world)⟩

theorem boot_unheld (fds : Nat → Option SyscallFile) (empty : ∀ i, fds i = none) (file : FilePtr) :
    heldBy fds file = 0 := by
  unfold heldBy
  simp_all

theorem boot_inv (vols : Volumes Unit) (none : ∀ file, ¬ vols.owns () file) : Inv vols boot where
  balanced file := Finset.sum_eq_zero fun _ _ => boot_unheld _ (fun _ => rfl) file
  owned file owns := absurd owns (none file)

theorem inherited_file_counted :
    Throughout (step noTransfers oneEntry) Counted boot
      [.openPath 0 someAllocator someAllocator 0 0 [0x2f, 0x61] oRdonly 0, .fork 0, .close 0 0, .close 1 0] :=
  (counts_kept_iff noTransfers oneEntry boot (boot_inv _ fun _ owned => owned) _).mpr
    ⟨fun _ => rfl, fun _ _ => ⟨trivial, fun _ _ => ⟨trivial, fun _ _ => ⟨trivial, fun _ _ => trivial⟩⟩⟩⟩

/-- A new pipe has one reference and two slots. -/
theorem pipe_counts_one_of_two :
    ∃ next, step noTransfers oneEntry boot (.pipe 0 someAllocator 0 0 (0, 0)) = some next ∧
      (∃ file, next.ledger file = some (.anonymous, 1) ∧ slots next file = 2) ∧ ¬ Counted next := by
  have refined := syscallPipe_books (boot.world 0) someAllocator 0 0 (0, 0)
  have one : freeSlot (boot.world 0).fds 0 = some 0 := rfl
  have two (sfile : SyscallFile) :
      freeSlot (Function.update (boot.world 0).fds 0 (some sfile)) 0 = some 1 := rfl
  simp only [Books.pipe, fds_books, one, two] at refined
  generalize someAllocator.place (boot.world 0).fs.live = file at refined
  generalize made : (syscallPipe someAllocator (boot.world 0) 0 0 (0, 0)).2.2 = world at refined
  have table := congrArg (fun result => Books.fds result.2.2) refined
  have entries := congrArg (fun result => Books.ledger result.2.2 file) refined
  simp only [Prod.map, id, made, fds_books, ledger_books, Ledger.enter, Function.update_self] at table entries
  have held : slots (boot.put 0 world) file = 2 := by
    rw [slots_put boot (by decide), table, heldBy_fill (freeSlot_some (two _)),
      heldBy_fill (freeSlot_some one), boot_unheld (boot.world 0).fds fun _ => rfl]
    simp [others, boot]
  refine ⟨boot.put 0 world, made ▸ rfl, ⟨file, entries, held⟩, fun counted => ?_⟩
  have counts := counted.counts file .anonymous 1 entries (.inl (by simp))
  omega

end MandelbrotOS.RefCounts
