import Mathlib.Algebra.BigOperators.Group.Finset.Basic
import MandelbrotOS.DescriptorSlots

/-! Reference counts and slots, object by object. `ref_count` is to be the number
of slots that point to an object; each call changes the count and the slots of an
object or two, so the balance is kept or lost there. -/
namespace MandelbrotOS.Balance
open Vfs Descriptors Handles HandleBooks DescriptorSlots

variable {Vol : Type}

/-! ### Counting slots -/

def mentions (slot : Option SyscallFile) (file : FilePtr) : Nat :=
  if slot.map SyscallFile.file = some file then 1 else 0

@[simp] theorem mentions_none (file : FilePtr) : mentions none file = 0 := by
  simp [mentions]

@[simp] theorem mentions_some (sfile : SyscallFile) (file : FilePtr) :
    mentions (some sfile) file = if sfile.file = file then 1 else 0 := by
  simp [mentions]

/-- The slots of one table that point to an object. -/
@[irreducible] def heldBy (fds : Nat → Option SyscallFile) (file : FilePtr) : Nat :=
  ∑ i ∈ Finset.range fdsCount, mentions (fds i) file

theorem heldBy_update (fds : Nat → Option SyscallFile) (inside : i < fdsCount) (slot : Option SyscallFile) (file : FilePtr) :
    heldBy (Function.update fds i slot) file + mentions (fds i) file =
      heldBy fds file + mentions slot file := by
  have member : i ∈ Finset.range fdsCount := Finset.mem_range.mpr inside
  unfold heldBy
  rw [← Finset.add_sum_erase _ _ member, ← Finset.add_sum_erase _ (fun j => mentions (fds j) file) member,
    Function.update_self]
  grind [Finset.sum_congr]

theorem heldBy_pos (inside : i < fdsCount) (slot : fds i = some sfile) : 0 < heldBy fds sfile.file := by
  have emptied := heldBy_update fds inside none sfile.file
  rw [slot, mentions_some, if_pos rfl, mentions_none] at emptied
  omega

/-! ### The balance of one object -/

/-- An object and the slots that point to it: what was made to be opened is there
as long as it is held and counts its slots, and so does a file of a tmpfs while it
is held. -/
def BalancedAt : Option (Home × Int) → Nat → Prop
  | none, held => held = 0
  | some (home, count), held => (home = .tmpfs ∧ held = 0) ∨ (0 < held ∧ count = held)

/-- What the counts are for: an open object counts its slots, a pipe is released
with its last slot, and no slot points to a released object. -/
def CountedAt : Option (Home × Int) → Nat → Prop
  | none, held => held = 0
  | some (home, count), held =>
    (home ≠ .tmpfs ∨ 0 < held → count = held) ∧ (home = .anonymous → 0 < held)

theorem BalancedAt.counted (balanced : BalancedAt entry held) : CountedAt entry held := by
  unfold BalancedAt CountedAt at *
  grind

theorem BalancedAt.of_held (balanced : BalancedAt entry held) (positive : 0 < held) :
    ∃ home, entry = some (home, (held : Int)) := by
  unfold BalancedAt at balanced
  grind

theorem BalancedAt.retain (balanced : BalancedAt entry held) (positive : 0 < held) :
    BalancedAt (entry.map retained) (held + 1) := by
  obtain ⟨home, rfl⟩ := balanced.of_held positive
  simp [BalancedAt, retained]

theorem BalancedAt.drop (balanced : BalancedAt entry (held + 1)) : BalancedAt (entry.bind dropped) held := by
  obtain ⟨home, rfl⟩ := balanced.of_held (Nat.succ_pos held)
  grind [dropped, BalancedAt]

/-- What opening does to an object and its slots: nothing when it is denied, one
slot more when there is a free one, and one reference less when there is none. -/
def OpenedAt (denied : Bool) (free : Prop) (entry : Option (Home × Int)) (held : Nat)
    (entry' : Option (Home × Int)) (held' : Nat) : Prop :=
  (denied = true ∧ entry' = entry ∧ held' = held) ∨
    (denied = false ∧ free ∧ entry' = entry ∧ held' = held + 1) ∨
    (denied = false ∧ ¬ free ∧ entry' = entry.bind dropped ∧ held' = held)

theorem OpenedAt.entry (opened : OpenedAt denied free (some (.fat, 1)) 0 entry' held') :
    (denied = false → BalancedAt entry' held') ∧ (denied = true → ¬ CountedAt entry' held') := by
  rcases opened with ⟨rfl, rfl, rfl⟩ | ⟨rfl, _, rfl, rfl⟩ | ⟨rfl, _, rfl, rfl⟩
  · simp [CountedAt]
  · simp [BalancedAt]
  · simp [BalancedAt, dropped]

theorem OpenedAt.newNode (opened : OpenedAt denied free (some (.tmpfs, 1)) 0 entry' held') :
    BalancedAt entry' held' := by
  rcases opened with ⟨rfl, rfl, rfl⟩ | ⟨rfl, _, rfl, rfl⟩ | ⟨rfl, _, rfl, rfl⟩ <;>
    simp [BalancedAt, dropped]

/-- A file of a tmpfs is opened without being counted, so that it must come with
the one reference it was made with; and without a slot it must not lose one. -/
def NodeCounted (held : Nat) (count : Int) (denied : Bool) (free : Prop) : Prop :=
  denied = true ∨ (held = 0 ∧ (free → count = 1))

theorem OpenedAt.node (opened : OpenedAt denied free (some (.tmpfs, count)) held entry' held')
    (balanced : BalancedAt (some (.tmpfs, count)) held) :
    (NodeCounted held count denied free → BalancedAt entry' held') ∧
      (¬ NodeCounted held count denied free → ¬ CountedAt entry' held') := by
  unfold NodeCounted
  rcases opened with ⟨rfl, rfl, rfl⟩ | ⟨rfl, free, rfl, rfl⟩ | ⟨rfl, full, rfl, rfl⟩
  · simp [balanced]
  · grind [BalancedAt, CountedAt]
  · grind [BalancedAt, CountedAt, dropped]

/-! ### The balance of one process's books -/

/-- All objects balanced, `rest` being the slots of the other processes. -/
def Balanced (rest : FilePtr → Nat) (books : Books Vol) : Prop :=
  ∀ file, BalancedAt (books.ledger file) (rest file + heldBy books.fds file)

def CountedIn (rest : FilePtr → Nat) (books : Books Vol) : Prop :=
  ∀ file, CountedAt (books.ledger file) (rest file + heldBy books.fds file)

section Books
variable {rest : FilePtr → Nat} {before books : Books Vol}

theorem heldBy_fill (lowest : LowestFree fds low i) (sfile : SyscallFile) (file : FilePtr) :
    heldBy (Function.update fds i (some sfile)) file =
      heldBy fds file + if sfile.file = file then 1 else 0 := by
  have filled := heldBy_update fds lowest.below (some sfile) file
  rwa [lowest.free, mentions_none, Nat.add_zero, mentions_some] at filled

theorem openFile_cases (books : Books Vol) (file : FilePtr) (denied : Bool) (flags : BitVec 32) :
    let after := (books.openFile file denied flags).2
    (denied = true ∧ after = books) ∨
      (denied = false ∧ HasFree books.fds 0 ∧ after.ledger = books.ledger ∧
        ∀ other, heldBy after.fds other = heldBy books.fds other + if file = other then 1 else 0) ∨
      (denied = false ∧ ¬ HasFree books.fds 0 ∧ after = { books with ledger := books.ledger.drop file }) := by
  unfold Books.openFile
  cases denied with
  | true => exact .inl ⟨rfl, rfl⟩
  | false =>
    refine .inr ?_
    simp only [Bool.false_eq_true, if_false]
    cases found : freeSlot books.fds 0 with
    | some i =>
      have lowest := freeSlot_some found
      exact .inl ⟨trivial, lowest.hasFree, rfl, heldBy_fill lowest ⟨file, flags⟩⟩
    | none => exact .inr ⟨trivial, freeSlot_none.mp found, rfl⟩

theorem openFile_apart (books : Books Vol) (denied : Bool) (flags : BitVec 32) (apart : other ≠ file) :
    (books.openFile file denied flags).2.ledger other = books.ledger other ∧
      heldBy (books.openFile file denied flags).2.fds other = heldBy books.fds other := by
  rcases openFile_cases books file denied flags with ⟨_, after⟩ | ⟨_, _, table, held⟩ | ⟨_, _, after⟩
  · rw [after]
    exact ⟨rfl, rfl⟩
  · grind
  · rw [after]
    exact ⟨Function.update_of_ne apart .., rfl⟩

theorem openFile_at (rest : FilePtr → Nat) (books : Books Vol) (file : FilePtr) (denied : Bool) (flags : BitVec 32) :
    OpenedAt denied (HasFree books.fds 0) (books.ledger file) (rest file + heldBy books.fds file)
      ((books.openFile file denied flags).2.ledger file)
      (rest file + heldBy (books.openFile file denied flags).2.fds file) := by
  rcases openFile_cases books file denied flags with
    ⟨denial, after⟩ | ⟨granted, free, table, held⟩ | ⟨granted, full, after⟩
  · rw [after]
    exact .inl ⟨denial, rfl, rfl⟩
  · rw [table, held file, if_pos rfl]
    exact .inr (.inl ⟨granted, free, rfl, rfl⟩)
  · rw [after]
    exact .inr (.inr ⟨granted, full, Function.update_self .., rfl⟩)

theorem openFile_entered_at (before books : Books Vol) (denied : Bool) (flags : BitVec 32)
    (entered : books.ledger = before.ledger.enter file home) (table : books.fds = before.fds)
    (unheld : rest file + heldBy before.fds file = 0) :
    OpenedAt denied (HasFree before.fds 0) (some (home, 1)) 0
      ((books.openFile file denied flags).2.ledger file)
      (rest file + heldBy (books.openFile file denied flags).2.fds file) := by
  have opened := openFile_at rest books file denied flags
  simp_all [Ledger.enter]

theorem openFile_entered (balanced : Balanced rest before) (entered : books.ledger = before.ledger.enter file home)
    (table : books.fds = before.fds)
    (own : BalancedAt ((books.openFile file denied flags).2.ledger file)
      (rest file + heldBy (books.openFile file denied flags).2.fds file)) :
    Balanced rest (books.openFile file denied flags).2 := by
  intro other
  by_cases same : other = file
  · rw [same]
    exact own
  · obtain ⟨ledger, held⟩ := openFile_apart books denied flags same
    rw [ledger, held, entered, table, Ledger.enter, Function.update_of_ne same]
    exact balanced other

theorem openFile_off (before books : Books Vol) (entered : books.ledger = before.ledger.enter file home)
    (table : books.fds = before.fds)
    (off : ∃ other ≠ file, ¬ CountedAt (before.ledger other) (rest other + heldBy before.fds other)) :
    ¬ CountedIn rest (books.openFile file denied flags).2 := by
  obtain ⟨other, apart, wrong⟩ := off
  intro counted
  obtain ⟨ledger, held⟩ := openFile_apart books denied flags apart
  have right := counted other
  simp_all [Ledger.enter]

end Books

section Open
variable (world : World (Store Vol)) (vols : Volumes Vol) (forOpen forCreate : Allocator) (uid gid : Int)
  (path : Path) (flags mode : BitVec 32)

/-- What `vfs_create` makes must be open to the caller if it is an object of FAT,
and the parent must have been closed for good. -/
def CreateCounted (parent : Prop) : Prop :=
  match (vols.make world.fs.volume path mode uid gid (forCreate.place world.fs.live)).1 with
  | .failed => True
  | .entry file => parent ∧ accessDenied file flags uid gid = false
  | .node _ => parent

/-- When `syscall_open` keeps every count right, `held` being the number of slots
that point to an object. -/
def OpenCounted (held : FilePtr → Nat) : Prop :=
  match vols.find world.fs.volume path with
  | .entry file => accessDenied file flags uid gid = false
  | .node file => NodeCounted (held file) (world.files file).refCount
      (accessDenied (world.files file) flags uid gid) (HasFree world.fds 0)
  | .missing => has flags oCreat = true →
    match vols.find world.fs.volume (cutAtLastSlash path path.length) with
    | .missing => True
    | .entry parent => accessDenied parent flags uid gid = false ∧
        CreateCounted world vols forCreate uid gid path flags mode True
    | .node parent => accessDenied (world.files parent) flags uid gid = true ∨
        CreateCounted world vols forCreate uid gid path flags mode (held parent = 0)

variable {world vols forOpen forCreate uid gid path flags mode} {rest : FilePtr → Nat} {after : Books Vol}

theorem noted_node (owned : Owned world vols) (found : vols.find world.fs.volume path = .node file) :
    ledger world file = some (.tmpfs, (world.files file).refCount) := by
  simp only [ledger, owned file (vols.find_owns _ _ _ found), Option.map_some]

theorem dropped_node {books : Books Vol} (balanced : Balanced rest books)
    (noted : books.ledger file = some (.tmpfs, count)) :
    (rest file + heldBy books.fds file = 0 →
        Balanced rest { books with ledger := books.ledger.drop file }) ∧
      (rest file + heldBy books.fds file ≠ 0 →
        ¬ CountedAt (books.ledger.drop file file) (rest file + heldBy books.fds file)) := by
  have own := balanced file
  have entry : books.ledger.drop file file = some (.tmpfs, count - 1) := by
    simp [Ledger.drop, dropped, noted]
  rw [noted] at own
  constructor
  · intro unheld other
    by_cases same : other = file
    · subst same
      dsimp only
      rw [entry, unheld]
      exact .inl ⟨rfl, rfl⟩
    · dsimp only [Ledger.drop]
      rw [Function.update_of_ne same]
      exact balanced other
  · grind [BalancedAt, CountedAt]

theorem openFile_no_fault (books : Books Vol) (file : FilePtr) (denied : Bool) (flags : BitVec 32) :
    (books.openFile file denied flags).1 ≠ .fault := by
  grind [Books.openFile]

theorem bookCreated_counted {parent : Prop}
    (unheld : rest (forCreate.place world.fs.live) + heldBy after.fds (forCreate.place world.fs.live) = 0)
    (fine : parent → Balanced rest after)
    (off : ¬ parent → ∃ file ≠ forCreate.place world.fs.live,
      ¬ CountedAt (after.ledger file) (rest file + heldBy after.fds file)) :
    let result := bookCreated world vols forCreate uid gid path flags mode after
    let cond := CreateCounted world vols forCreate uid gid path flags mode parent
    (cond → result.1 ≠ .fault → Balanced rest result.2) ∧
      (¬ cond → result.1 ≠ .fault ∧ ¬ CountedIn rest result.2) := by
  unfold bookCreated CreateCounted
  dsimp only
  generalize forCreate.place world.fs.live = place at *
  cases (vols.make world.fs.volume path mode uid gid place).1 with
  | failed => simp
  | entry file =>
    dsimp only
    obtain ⟨right, wrong⟩ := (openFile_entered_at after ⟨_, after.ledger.enter place .fat, after.fds⟩
      (accessDenied file flags uid gid) flags rfl rfl unheld).entry
    refine ⟨fun ⟨closed, granted⟩ _ => openFile_entered (fine closed) rfl rfl (right granted),
      fun missed => ⟨openFile_no_fault _ _ _ _, fun counted => ?_⟩⟩
    by_cases closed : parent
    · refine wrong ?_ (counted place)
      by_contra granted
      simp_all
    · grind [openFile_off]
  | node file =>
    dsimp only
    have right := (openFile_entered_at after
      ⟨(vols.make world.fs.volume path mode uid gid place).2, after.ledger.enter place .tmpfs, after.fds⟩
      (accessDenied file flags uid gid) flags rfl rfl unheld).newNode
    grind [openFile_entered, openFile_no_fault, openFile_off]

variable (forOpen forCreate uid gid path flags mode) in
/-- `syscall_open` keeps the books balanced under its condition, and under no other. -/
theorem bookOpen_counted (owned : Owned world vols) (balanced : Balanced rest (books world)) :
    let result := bookOpen world vols forOpen forCreate uid gid path flags mode
    let cond := OpenCounted world vols forCreate uid gid path flags mode
      fun file => rest file + heldBy world.fds file
    (cond → result.1 ≠ .fault → Balanced rest result.2) ∧
      (¬ cond → result.1 ≠ .fault ∧ ¬ CountedIn rest result.2) := by
  have unheld (kmalloc : Allocator) :
      rest (kmalloc.place world.fs.live) + heldBy world.fds (kmalloc.place world.fs.live) = 0 := by
    have own := balanced (kmalloc.place world.fs.live)
    rwa [ledger_books, ledger_place] at own
  unfold bookOpen OpenCounted
  dsimp only
  cases looked : vols.find world.fs.volume path with
  | entry file =>
    dsimp only
    obtain ⟨right, wrong⟩ := (openFile_entered_at (books world)
      ⟨_, (ledger world).enter (forOpen.place world.fs.live) .fat, world.fds⟩
      (accessDenied file flags uid gid) flags rfl rfl (unheld forOpen)).entry
    refine ⟨fun granted _ => openFile_entered balanced rfl rfl (right granted),
      fun denial => ⟨openFile_no_fault _ _ _ _, fun counted => wrong (by simpa using denial) (counted _)⟩⟩
  | node file =>
    have noted := noted_node owned looked
    have own := balanced file
    have opened := openFile_at rest (books world) file
      (accessDenied (world.files file) flags uid gid) flags
    rw [ledger_books, noted] at own opened
    obtain ⟨right, wrong⟩ := opened.node own
    refine ⟨fun met _ => ?_, fun missed => ⟨openFile_no_fault _ _ _ _, fun counted => wrong missed (counted _)⟩⟩
    intro other
    by_cases same : other = file
    · rw [same]
      exact right met
    · obtain ⟨ledger, held⟩ := openFile_apart (books world)
        (accessDenied (world.files file) flags uid gid) flags same
      dsimp only
      rw [ledger, held]
      exact balanced other
  | missing =>
    dsimp only
    cases has flags oCreat with
    | false => simp [balanced]
    | true =>
      simp only [Bool.not_true, Bool.false_eq_true, if_false, forall_const]
      cases above : vols.find world.fs.volume (cutAtLastSlash path path.length) with
      | missing => simp [balanced]
      | entry parent =>
        dsimp only
        cases accessDenied parent flags uid gid with
        | true =>
          -- the parent's object is left behind
          refine ⟨fun met => absurd met.1 (by simp), fun _ => ⟨by simp, fun counted => ?_⟩⟩
          have left := counted (forOpen.place world.fs.live)
          simp_all [Ledger.enter, CountedAt]
        | false =>
          simp only [Bool.false_eq_true, if_false, true_and]
          exact bookCreated_counted (unheld forCreate) (fun _ => balanced) (fun no => absurd trivial no)
      | node parent =>
        dsimp only
        cases accessDenied (world.files parent) flags uid gid with
        | true => simp [balanced]
        | false =>
          simp only [Bool.false_eq_true, if_false, false_or]
          have noted := noted_node owned above
          obtain ⟨right, wrong⟩ := dropped_node balanced noted
          refine bookCreated_counted (unheld forCreate) right fun held => ⟨parent, ?_, wrong held⟩
          grind

end Open

section Others
variable {rest : FilePtr → Nat} {before : Books Vol}

theorem pipe_counted (before : Books Vol) (unused : before.ledger place = none)
    (unheld : rest place + heldBy before.fds place = 0) (pipefd : Nat × Nat) :
    (¬ HasFree before.fds 0 → (before.pipe place pipefd).2.2 = before) ∧
      (HasFree before.fds 0 → ¬ CountedIn rest (before.pipe place pipefd).2.2) := by
  unfold Books.pipe
  cases one : freeSlot before.fds 0 with
  | none => exact ⟨fun _ => rfl, fun free => absurd free (freeSlot_none.mp one)⟩
  | some i =>
    have first := freeSlot_some one
    refine ⟨fun full => absurd first.hasFree full, fun _ counted => ?_⟩
    have own := counted place
    have single := heldBy_fill first ⟨place, oRdonly⟩ place
    rw [if_pos rfl] at single
    dsimp only at own
    cases two : freeSlot (Function.update before.fds i (some ⟨place, oRdonly⟩)) 0 with
    | none =>
      simp_all [CountedAt]
    | some j =>
      have double := heldBy_fill (freeSlot_some two) ⟨place, oWronly⟩ place
      rw [if_pos rfl] at double
      rw [two] at own
      dsimp only [Ledger.enter] at own
      rw [Function.update_self, double, single] at own
      have counts := own.1 (.inl (by simp))
      omega

theorem dupfd_counted (balanced : Balanced rest before) (inside : fd < fdsCount) (arg : Int) :
    let cond := before.fds fd = none ∨ (0 ≤ arg ∧ HasFree before.fds arg.toNat)
    (cond → Balanced rest (before.dupfd fd arg).2) ∧
      (¬ cond → ¬ CountedIn rest (before.dupfd fd arg).2) := by
  unfold Books.dupfd
  cases slot : before.fds fd with
  | none => simp [balanced]
  | some file =>
    have positive : 0 < rest file.file + heldBy before.fds file.file :=
      Nat.add_pos_right _ (heldBy_pos inside slot)
    have own := balanced file.file
    -- one reference more, with no slot for it
    have lost : ¬ CountedIn rest { before with ledger := before.ledger.retain file.file } := by
      intro counted
      obtain ⟨home, noted⟩ := own.of_held positive
      have more := counted file.file
      dsimp only [Ledger.retain] at more
      rw [Function.update_self, noted] at more
      have counts := more.1 (.inr positive)
      omega
    simp only [reduceCtorEq, false_or]
    split
    case isTrue outside =>
      refine ⟨?_, fun _ => lost⟩
      rintro ⟨_, i, above, below, _⟩
      omega
    case isFalse =>
      cases found : freeSlot before.fds arg.toNat with
      | none => exact ⟨fun ⟨_, free⟩ => absurd free (freeSlot_none.mp found), fun _ => lost⟩
      | some i =>
        have lowest := freeSlot_some found
        refine ⟨fun _ other => ?_, fun missed => absurd ⟨by omega, lowest.hasFree⟩ missed⟩
        dsimp only
        rw [heldBy_fill lowest file other]
        by_cases same : other = file.file
        · subst same
          rw [if_pos rfl, Ledger.retain, Function.update_self, ← Nat.add_assoc]
          exact own.retain positive
        · rw [if_neg (Ne.symm same), Ledger.retain, Function.update_of_ne same]
          exact balanced other

theorem close_balanced (balanced : Balanced rest before) (inside : fd < fdsCount) :
    Balanced rest (before.close fd).2 := by
  unfold Books.close
  cases slot : before.fds fd with
  | none => exact balanced
  | some file =>
    intro other
    have emptied := heldBy_update before.fds inside none other
    rw [slot, mentions_some, mentions_none, Nat.add_zero] at emptied
    have own := balanced other
    dsimp only
    by_cases same : other = file.file
    · simp_all [Ledger.drop, BalancedAt.drop, Nat.add_assoc]
    · simp_all [Ne.symm, Ledger.drop]

end Others

/-! ### The files of a tmpfs stay -/

def IsNode (ledger : Ledger) (file : FilePtr) : Prop := ∃ count, ledger file = some (.tmpfs, count)

theorem IsNode.drop {ledger : Ledger} (node : IsNode ledger file) (other : FilePtr) :
    IsNode (ledger.drop other) file := by
  obtain ⟨count, noted⟩ := node
  by_cases same : file = other
  · subst same
    exact ⟨count - 1, by simp [Ledger.drop, dropped, noted]⟩
  · exact ⟨count, (Function.update_of_ne same ..).trans noted⟩

theorem IsNode.retain {ledger : Ledger} (node : IsNode ledger file) (other : FilePtr) :
    IsNode (ledger.retain other) file := by
  obtain ⟨count, noted⟩ := node
  by_cases same : file = other
  · subst same
    exact ⟨count + 1, by simp [Ledger.retain, retained, noted]⟩
  · exact ⟨count, (Function.update_of_ne same ..).trans noted⟩

theorem IsNode.enter {ledger : Ledger} (node : IsNode ledger file) (unused : ledger place = none)
    (home : Home) : IsNode (ledger.enter place home) file := by
  obtain ⟨count, noted⟩ := node
  have apart : file ≠ place := by
    rintro rfl
    rw [unused] at noted
    cases noted
  exact ⟨count, (Function.update_of_ne apart ..).trans noted⟩

/-- The files a tmpfs can find are in the ledger as its own. -/
def OwnedIn (vols : Volumes Vol) (books : Books Vol) : Prop :=
  ∀ file, vols.owns books.volume file → IsNode books.ledger file

theorem owned_iff {world : World (Store Vol)} {vols : Volumes Vol} :
    Owned world vols ↔ OwnedIn vols (books world) := by
  refine forall_congr' fun file => imp_congr_right fun _ => ?_
  simp [IsNode, ledger]

section Nodes
variable {vols : Volumes Vol} {before : Books Vol}

theorem openFile_owned (owned : OwnedIn vols before) (file : FilePtr) (denied : Bool) (flags : BitVec 32) :
    OwnedIn vols (before.openFile file denied flags).2 := by
  unfold Books.openFile
  split
  · exact owned
  · split
    · exact owned
    · exact fun other owns => (owned other owns).drop file

theorem bookCreated_owned (before : Books Vol) {world : World (Store Vol)} {forCreate : Allocator}
    (owned : OwnedIn vols before) (volume : before.volume = world.fs.volume)
    (unused : before.ledger (forCreate.place world.fs.live) = none) (uid gid : Int) (path : Path)
    (flags mode : BitVec 32)
    (returned : (bookCreated world vols forCreate uid gid path flags mode before).1 ≠ .fault) :
    OwnedIn vols (bookCreated world vols forCreate uid gid path flags mode before).2 := by
  have made := vols.make_owns world.fs.volume path mode uid gid (forCreate.place world.fs.live)
  unfold bookCreated at returned ⊢
  dsimp only at returned ⊢
  cases kind : (vols.make world.fs.volume path mode uid gid (forCreate.place world.fs.live)).1 with
  | failed => simp [kind] at returned
  | entry file =>
    refine openFile_owned (fun other owns => ?_) _ _ _
    rcases made other owns with old | ⟨⟨_, new⟩, _⟩
    · exact (owned other (volume ▸ old)).enter unused .fat
    · rw [kind] at new
      cases new
  | node file =>
    refine openFile_owned (fun other owns => ?_) _ _ _
    rcases made other owns with old | ⟨_, rfl⟩
    · exact (owned other (volume ▸ old)).enter unused .tmpfs
    · exact ⟨1, Function.update_self ..⟩

theorem bookOpen_owned {world : World (Store Vol)} (forOpen forCreate : Allocator)
    (owned : OwnedIn vols (books world)) (uid gid : Int) (path : Path) (flags mode : BitVec 32)
    (returned : (bookOpen world vols forOpen forCreate uid gid path flags mode).1 ≠ .fault) :
    OwnedIn vols (bookOpen world vols forOpen forCreate uid gid path flags mode).2 := by
  have entered : OwnedIn vols
      { books world with ledger := (books world).ledger.enter (forOpen.place world.fs.live) .fat } :=
    fun other owns => (owned other owns).enter (ledger_place world forOpen) .fat
  unfold bookOpen at returned ⊢
  dsimp only at returned ⊢
  cases looked : vols.find world.fs.volume path with
  | entry file => exact openFile_owned entered _ _ _
  | node file => exact openFile_owned owned _ _ _
  | missing =>
    rw [looked] at returned
    dsimp only at returned ⊢
    split at returned
    case isTrue refused =>
      rw [if_pos refused]
      exact owned
    case isFalse creating =>
      rw [if_neg creating]
      cases above : vols.find world.fs.volume (cutAtLastSlash path path.length) with
      | missing => exact owned
      | entry parent =>
        rw [above] at returned
        dsimp only at returned ⊢
        split at returned
        case isTrue denied =>
          rw [if_pos denied]
          exact entered
        case isFalse granted =>
          rw [if_neg granted]
          exact bookCreated_owned _ owned rfl (ledger_place world forCreate) _ _ _ _ _ returned
      | node parent =>
        rw [above] at returned
        dsimp only at returned ⊢
        split at returned
        case isTrue denied =>
          rw [if_pos denied]
          exact owned
        case isFalse granted =>
          rw [if_neg granted]
          exact bookCreated_owned { books world with ledger := (books world).ledger.drop parent }
            (fun other owns => (owned other owns).drop parent) rfl
            (drop_unused (ledger_place world forCreate) parent) _ _ _ _ _ returned

theorem pipe_owned (owned : OwnedIn vols before) (unused : before.ledger place = none) (pipefd : Nat × Nat) :
    OwnedIn vols (before.pipe place pipefd).2.2 := by
  unfold Books.pipe
  split
  · exact owned
  · dsimp only
    split
    · exact owned
    · exact fun other owns => (owned other owns).enter unused .anonymous

theorem dupfd_owned (owned : OwnedIn vols before) (fd : Nat) (arg : Int) :
    OwnedIn vols (before.dupfd fd arg).2 := by
  unfold Books.dupfd
  split
  · exact owned
  · rename_i file _
    have kept : ∀ other, vols.owns before.volume other → IsNode (before.ledger.retain file.file) other :=
      fun other owns => (owned other owns).retain file.file
    dsimp only
    split
    · exact kept
    · split <;> exact kept

theorem close_owned (owned : OwnedIn vols before) (fd : Nat) : OwnedIn vols (before.close fd).2 := by
  unfold Books.close
  split
  · exact owned
  · exact fun other owns => (owned other owns).drop _

end Nodes

end MandelbrotOS.Balance
