import Mathlib.Algebra.Group.Nat.Defs
import Mathlib.Data.Nat.Bitwise
import MandelbrotOS.ByteMemory
import MandelbrotOS.Pmm
import MandelbrotOS.Scheduler

/-! `sched_load_args_to_stack` of `tasking/scheduler.c`: the strings of a new
program's arguments and environment go onto its stack through the kernel's own
mapping of it, and the tables of pointers to them are computed a second time for
the addresses the program will use. -/
namespace MandelbrotOS.ArgStack
open ByteMemory
open Pmm (pageSize)
open Scheduler (schedStackSize)

/-- A C string: its bytes before the terminating `NUL`. -/
structure CString where
  bytes : List (BitVec 8)
  noNul : ∀ byte ∈ bytes, byte ≠ 0

def strlen (string : CString) : Nat := string.bytes.length

def strcpy (mem : Memory) (dest : Nat) (source : CString) : Memory :=
  copy mem dest (source.bytes ++ [0]).length fun k => (source.bytes ++ [0]).getD k 0

/-- The registers of a thread the function sets. -/
structure Registers where
  rdi : Nat
  rsi : Nat
  rdx : Nat
  rsp : Nat

/-- `stack`, counted in bytes, and the memory below and above it. -/
structure Image where
  mem : Memory
  stack : Nat

/-- One of the two loops that push strings. -/
def pushStrings (image : Image) : List CString → Image
  | [] => image
  | elem :: rest =>
    let stack := image.stack - (strlen elem + 1)
    pushStrings ⟨strcpy image.mem stack elem, stack⟩ rest

/-- The loop that fills a table of pointers from `adr`, counting `sa` down. -/
def storePointers (mem : Memory) (adr sa : Nat) : List CString → Memory × Nat
  | [] => (mem, sa)
  | elem :: rest =>
    let sa := sa - (strlen elem + 1)
    storePointers (storeWord mem adr (BitVec.ofNat 64 sa)) (adr + 8) sa rest

/-- The body of `if (env)` and of `if (argv)`, and `sa` after it. -/
def pushTable (image : Image) (sa : Nat) : Option (List CString) → Image × Nat
  | none => (image, sa)
  | some strings =>
    let mem := storeWord image.mem (image.stack - 8) 0
    let stack := image.stack - 8 - 8 * strings.length
    let stored := storePointers mem stack sa strings
    (⟨stored.1, stack⟩, stored.2)

/-- The first pass of the function: all strings, then the alignment of `stack`. -/
def pushAllStrings (mem : Memory) (stackTop : Nat) (argv env : Option (List CString)) : Image :=
  let image := pushStrings ⟨mem, stackTop⟩ (env.getD [])
  let image := pushStrings image (argv.getD [])
  { image with stack := image.stack - (image.stack &&& 0xf) }

/-- `sched_load_args_to_stack`; `argv` and `env` are `NULL` or an array of strings. -/
def schedLoadArgsToStack (regs : Registers) (mem : Memory) (physAddr virtAddr : Nat)
    (argv env : Option (List CString)) : Registers × Memory :=
  let envTable := pushTable (pushAllStrings mem physAddr argv env) virtAddr env
  let argvTable := pushTable envTable.1 envTable.2 argv
  let rsp := regs.rsp - (physAddr - argvTable.1.stack)
  ({ rdi := (argv.getD []).length
     rsi := if argv.isSome then virtAddr - (physAddr - argvTable.1.stack) else 0
     rdx := if env.isSome then virtAddr - (physAddr - envTable.1.stack) else 0
     rsp := rsp - (rsp &&& 8) }, argvTable.1.mem)

/-! ### What the program finds -/

/-- Memory as the program sees it: its stack top is mapped to `phys`. -/
def userView (mem : Memory) (phys virt : Nat) : Memory := fun adr => mem (phys + adr - virt)

def stringsSize (strings : List CString) : Nat := (strings.map fun string => strlen string + 1).sum

def tableSize : Option (List CString) → Nat
  | none => 0
  | some strings => 8 * (strings.length + 1)

def roundUp (size : Nat) : Nat := (size + 15) / 16 * 16

/-- The bytes of stack that the arguments take. -/
def imageSize (argv env : Option (List CString)) : Nat :=
  roundUp (roundUp (stringsSize (env.getD []) + stringsSize (argv.getD [])) +
    tableSize env + tableSize argv)

/-- Each pointer leads to a copy of its string, `NUL` included. -/
def CopiesAt (user : Memory) : List CString → List Nat → Prop :=
  List.Forall₂ fun string pointer => bytesAt user pointer (strlen string + 1) = string.bytes ++ [0]

/-- A table of pointers to copies of the strings, closed by a zero word. -/
structure TableOf (user : Memory) (adr : Nat) (strings : List CString) (pointers : List Nat) : Prop where
  words : (wordsAt user adr (strings.length + 1)).map BitVec.toNat = pointers ++ [0]
  copies : CopiesAt user strings pointers

/-- A stretch of memory: where it starts and how many bytes it has. -/
abbrev Stretch := Nat × Nat

def Apart (left right : Stretch) : Prop := left.1 + left.2 ≤ right.1 ∨ right.1 + right.2 ≤ left.1

def copyStretches (strings : List CString) (pointers : List Nat) : List Stretch :=
  List.zipWith (fun string pointer => (pointer, strlen string + 1)) strings pointers

def tableStretch (adr : Nat) : Option (List CString) → List Stretch
  | none => []
  | some strings => [(adr, 8 * (strings.length + 1))]

/-- Everything the function puts on the stack: both tables and all the strings. -/
def objects (regs : Registers) (argv env : Option (List CString)) (argvAt envAt : List Nat) :
    List Stretch :=
  copyStretches (env.getD []) envAt ++ copyStretches (argv.getD []) argvAt ++
    tableStretch regs.rdx env ++ tableStretch regs.rsi argv

/-- What a program may rely on when it starts: `argvAt` and `envAt` are the
pointers in its two tables. -/
structure Delivered (user : Memory) (regs : Registers) (top : Nat) (argv env : Option (List CString))
    (argvAt envAt : List Nat) : Prop where
  argc : regs.rdi = (argv.getD []).length
  argvTable : ∀ strings, argv = some strings → TableOf user regs.rsi strings argvAt
  argvNull : argv = none → regs.rsi = 0
  envTable : ∀ strings, env = some strings → TableOf user regs.rdx strings envAt
  envNull : env = none → regs.rdx = 0
  aligned : regs.rsp % 16 = 0
  inside : ∀ object ∈ objects regs argv env argvAt envAt,
    regs.rsp ≤ object.1 ∧ object.1 + object.2 ≤ top
  apart : (objects regs argv env argvAt envAt).Pairwise Apart

/-! ### The stack only grows downwards -/

/-- Memory from `floor` up is as it was. -/
def KeptFrom (floor : Nat) (before after : Memory) : Prop :=
  ∀ place, floor ≤ place → after place = before place

theorem KeptFrom.trans (first : KeptFrom floor before middle) (second : KeptFrom floor' middle after)
    (lower : floor' ≤ floor) : KeptFrom floor before after := by
  intro place above
  rw [second place (by omega), first place above]

/-- The places that strings pushed from `top` down take, in order. -/
def stringPlaces (top : Nat) : List CString → List Nat
  | [] => []
  | elem :: rest => (top - (strlen elem + 1)) :: stringPlaces (top - (strlen elem + 1)) rest

@[simp] theorem stringsSize_cons (elem : CString) (rest : List CString) :
    stringsSize (elem :: rest) = strlen elem + 1 + stringsSize rest := by
  simp [stringsSize]

theorem userView_lower (mem : Memory) (physRoom : size ≤ phys) (virtRoom : size ≤ virt) :
    userView mem (phys - size) (virt - size) = userView mem phys virt := by
  funext adr
  unfold userView
  congr 1
  omega

theorem userView_kept (kept : KeptFrom floor before after) (above : floor + virt ≤ phys + adr) (k : Nat) :
    userView after phys virt (adr + k) = userView before phys virt (adr + k) :=
  kept _ (by omega)

theorem pushStrings_spec (image : Image) (virt : Nat) (strings : List CString)
    (physRoom : stringsSize strings ≤ image.stack) (virtRoom : stringsSize strings ≤ virt) :
    (pushStrings image strings).stack = image.stack - stringsSize strings ∧
      KeptFrom image.stack image.mem (pushStrings image strings).mem ∧
      CopiesAt (userView (pushStrings image strings).mem image.stack virt) strings
        (stringPlaces virt strings) := by
  induction strings generalizing image virt with
  | nil => exact ⟨by simp [pushStrings, stringsSize], fun _ _ => rfl, .nil⟩
  | cons elem rest ih =>
    rw [stringsSize_cons] at physRoom virtRoom
    unfold pushStrings
    dsimp only
    obtain ⟨pointer, kept, copies⟩ :=
      ih ⟨strcpy image.mem (image.stack - (strlen elem + 1)) elem, image.stack - (strlen elem + 1)⟩
        (virt - (strlen elem + 1)) (by dsimp only; omega) (by omega)
    dsimp only at pointer kept copies
    have long : (elem.bytes ++ [0]).length = strlen elem + 1 := by simp [strlen]
    refine ⟨?_, ?_, .cons ?_ ?_⟩
    · rw [pointer, stringsSize_cons]
      omega
    · intro place above
      rw [kept place (by omega), strcpy, copy_apart (by omega)]
    · -- the strings pushed after this one go below it
      calc bytesAt (userView _ image.stack virt) (virt - (strlen elem + 1)) (strlen elem + 1)
          = bytesAt (strcpy image.mem (image.stack - (strlen elem + 1)) elem)
              (image.stack - (strlen elem + 1)) (strlen elem + 1) := by
            refine bytesAt_congr fun k _ => ?_
            unfold userView
            rw [kept _ (by omega)]
            congr 1
            omega
        _ = elem.bytes ++ [0] := by
            rw [← long]
            exact bytesAt_copy_self _ _ _
    · rwa [userView_lower _ (by omega) (by omega)] at copies

theorem storePointers_spec (mem : Memory) (adr sa : Nat) (strings : List CString)
    (room : stringsSize strings ≤ sa) :
    (storePointers mem adr sa strings).2 = sa - stringsSize strings ∧
      wordsAt (storePointers mem adr sa strings).1 adr strings.length =
        (stringPlaces sa strings).map (BitVec.ofNat 64) ∧
      ∀ place, place < adr ∨ adr + 8 * strings.length ≤ place →
        (storePointers mem adr sa strings).1 place = mem place := by
  induction strings generalizing mem adr sa with
  | nil => exact ⟨by simp [storePointers, stringsSize], rfl, fun _ _ => rfl⟩
  | cons elem rest ih =>
    rw [stringsSize_cons] at room
    unfold storePointers
    grind [stringsSize_cons, wordsAt, stringPlaces, word_congr, word_storeWord_self, storeWord_apart]

theorem pushTable_spec (image : Image) (sa : Nat) (strings : Option (List CString))
    (room : stringsSize (strings.getD []) ≤ sa) (physRoom : tableSize strings ≤ image.stack) :
    (pushTable image sa strings).1.stack = image.stack - tableSize strings ∧
      (pushTable image sa strings).2 = sa - stringsSize (strings.getD []) ∧
      KeptFrom image.stack image.mem (pushTable image sa strings).1.mem ∧
      ∀ listed, strings = some listed →
        wordsAt (pushTable image sa strings).1.mem (pushTable image sa strings).1.stack
          (listed.length + 1) = (stringPlaces sa listed).map (BitVec.ofNat 64) ++ [0] := by
  cases strings with
  | none =>
    refine ⟨rfl, ?_, fun _ _ => rfl, fun listed given => by cases given⟩
    simp [pushTable, stringsSize]
  | some listed =>
    dsimp only [tableSize] at physRoom ⊢
    dsimp only [Option.getD_some] at room
    unfold pushTable
    dsimp only [Option.getD_some]
    obtain ⟨after, words, kept⟩ := storePointers_spec (storeWord image.mem (image.stack - 8) 0)
      (image.stack - 8 - 8 * listed.length) sa listed room
    refine ⟨by omega, after, ?_, ?_⟩
    · intro place above
      grind [storeWord_apart]
    · grind [wordsAt_succ, word_congr, word_storeWord_self]

/-! ### Nothing overlaps -/

/-- Stretches that follow each other downwards from `top` to `bottom`. -/
structure Stacked (top bottom : Nat) (stretches : List Stretch) : Prop where
  ordered : bottom ≤ top
  downwards : stretches.Pairwise fun upper lower => lower.1 + lower.2 ≤ upper.1
  within : ∀ stretch ∈ stretches, bottom ≤ stretch.1 ∧ stretch.1 + stretch.2 ≤ top

theorem Stacked.append (upper : Stacked top middle above) (lower : Stacked middle bottom below) :
    Stacked top bottom (above ++ below) := by
  have span := upper.ordered
  have span' := lower.ordered
  refine ⟨by omega, List.pairwise_append.mpr ⟨upper.downwards, lower.downwards, ?_⟩, ?_⟩
  · intro high highIn low lowIn
    have := upper.within high highIn
    have := lower.within low lowIn
    omega
  · intro stretch listed
    rcases List.mem_append.mp listed with high | low
    · have := upper.within stretch high
      omega
    · have := lower.within stretch low
      omega

theorem Stacked.lower (stacked : Stacked top bottom stretches) (below : bottom' ≤ bottom) :
    Stacked top bottom' stretches := by
  have span := stacked.ordered
  refine ⟨by omega, stacked.downwards, fun stretch listed => ?_⟩
  have := stacked.within stretch listed
  omega

theorem Stacked.apart (stacked : Stacked top bottom stretches) : stretches.Pairwise Apart :=
  stacked.downwards.imp fun below => .inr below

theorem stringPlaces_stacked (top : Nat) (strings : List CString) (room : stringsSize strings ≤ top) :
    Stacked top (top - stringsSize strings) (copyStretches strings (stringPlaces top strings)) := by
  induction strings generalizing top with
  | nil => exact ⟨by omega, .nil, by simp [copyStretches]⟩
  | cons elem rest ih =>
    rw [stringsSize_cons] at room ⊢
    have first : Stacked top (top - (strlen elem + 1)) [(top - (strlen elem + 1), strlen elem + 1)] :=
      ⟨by omega, List.pairwise_singleton _ _, by simp; omega⟩
    have others := ih (top - (strlen elem + 1)) (by omega)
    rw [Nat.sub_sub] at others
    exact first.append others

theorem tableStretch_stacked (top : Nat) (strings : Option (List CString)) (room : tableSize strings ≤ top)
    (place : strings ≠ none → adr = top - tableSize strings) :
    Stacked top (top - tableSize strings) (tableStretch adr strings) := by
  cases strings with
  | none => exact ⟨by omega, .nil, by simp [tableStretch]⟩
  | some listed =>
    have := place (by simp)
    dsimp only [tableSize] at this room ⊢
    exact ⟨by omega, List.pairwise_singleton _ _, by simp [tableStretch]; omega⟩

/-! ### The whole function -/

theorem roundUp_bounds (size : Nat) :
    size ≤ roundUp size ∧ roundUp size < size + 16 ∧ roundUp size % 16 = 0 := by
  unfold roundUp
  omega

theorem align_sixteen (aligned : top % pageSize = 0) (room : roundUp size ≤ top) :
    top - size - (top - size &&& 0xf) = top - roundUp size := by
  have low : (top - size) &&& 0xf = (top - size) % 16 := Nat.and_two_pow_sub_one_eq_mod _ 4
  grind [pageSize, roundUp]

theorem align_eight (aligned : top % pageSize = 0) (room : roundUp size ≤ top) (words : size % 8 = 0) :
    top - size - (top - size &&& 8) = top - roundUp size := by
  have low : (top - size) &&& 8 = ((top - size).testBit 3).toNat * 8 := Nat.and_two_pow _ 3
  have bit : ((top - size).testBit 3).toNat = (top - size) / 8 % 2 := by
    grind
  grind [pageSize, roundUp]

theorem mem_stringPlaces (strings : List CString) (listed : pointer ∈ stringPlaces top strings) :
    top - stringsSize strings ≤ pointer ∧ pointer ≤ top := by
  induction strings generalizing top with
  | nil => cases listed
  | cons elem rest ih =>
    rw [stringsSize_cons]
    rcases List.mem_cons.mp listed with rfl | later
    · omega
    · have := ih later
      omega

theorem stringPlaces_words (strings : List CString) (inSpace : top < 2 ^ 64) :
    ((stringPlaces top strings).map (BitVec.ofNat 64) ++ [0]).map BitVec.toNat = stringPlaces top strings ++ [0] := by
  rw [List.map_append, List.map_map]
  congr 1
  refine (List.map_congr_left fun pointer listed => ?_).trans (List.map_id _)
  have := mem_stringPlaces strings listed
  grind

theorem copies_kept {strings : List CString} (kept : KeptFrom floor before after)
    (above : ∀ pointer ∈ pointers, floor + virt ≤ phys + pointer)
    (copies : CopiesAt (userView before phys virt) strings pointers) :
    CopiesAt (userView after phys virt) strings pointers := by
  induction copies with
  | nil => exact .nil
  | cons copied _ ih =>
    refine .cons ?_ (ih fun pointer listed => above pointer (List.mem_cons_of_mem _ listed))
    grind [bytesAt_congr, userView_kept]

theorem pushAllStrings_spec (mem : Memory) (virt : Nat) (argv env : Option (List CString))
    (aligned : phys % pageSize = 0)
    (physRoom : roundUp (stringsSize (env.getD []) + stringsSize (argv.getD [])) ≤ phys)
    (virtRoom : roundUp (stringsSize (env.getD []) + stringsSize (argv.getD [])) ≤ virt) :
    (pushAllStrings mem phys argv env).stack =
        phys - roundUp (stringsSize (env.getD []) + stringsSize (argv.getD [])) ∧
      CopiesAt (userView (pushAllStrings mem phys argv env).mem phys virt) (env.getD [])
        (stringPlaces virt (env.getD [])) ∧
      CopiesAt (userView (pushAllStrings mem phys argv env).mem phys virt) (argv.getD [])
        (stringPlaces (virt - stringsSize (env.getD [])) (argv.getD [])) := by
  have bounds := roundUp_bounds (stringsSize (env.getD []) + stringsSize (argv.getD []))
  unfold pushAllStrings
  dsimp only
  obtain ⟨envPointer, envKept, envCopies⟩ :=
    pushStrings_spec ⟨mem, phys⟩ virt (env.getD []) (by dsimp only; omega) (by omega)
  dsimp only at envPointer envKept envCopies
  obtain ⟨pointer, kept, copies⟩ := pushStrings_spec (pushStrings ⟨mem, phys⟩ (env.getD []))
    (virt - stringsSize (env.getD [])) (argv.getD []) (by omega) (by omega)
  rw [envPointer] at pointer kept copies
  refine ⟨?_, ?_, ?_⟩
  · grind [align_sixteen]
  · refine copies_kept kept (fun spot listed => ?_) envCopies
    have := mem_stringPlaces _ listed
    omega
  · grind [userView_lower]

theorem tableSize_words (strings : Option (List CString)) : tableSize strings % 8 = 0 := by
  cases strings <;> simp [tableSize]

theorem tableOf_pushed {strings : List CString} {mem : Memory} (inSpace : sa < 2 ^ 64)
    (words : wordsAt mem stack (strings.length + 1) = (stringPlaces sa strings).map (BitVec.ofNat 64) ++ [0])
    (copies : CopiesAt (userView mem phys virt) strings (stringPlaces sa strings))
    (place : phys + adr = stack + virt) :
    TableOf (userView mem phys virt) adr strings (stringPlaces sa strings) := by
  refine ⟨?_, copies⟩
  grind [userView, wordsAt_congr, stringPlaces_words]

theorem objects_stacked (top : Nat) (regs : Registers) {argv env : Option (List CString)}
    (size : stringsSize (env.getD []) + stringsSize (argv.getD []) = strings)
    (room : roundUp (roundUp strings + tableSize env + tableSize argv) ≤ top)
    (rdx : env ≠ none → regs.rdx = top - roundUp strings - tableSize env)
    (rsi : argv ≠ none → regs.rsi = top - roundUp strings - tableSize env - tableSize argv) :
    Stacked top (top - roundUp (roundUp strings + tableSize env + tableSize argv))
      (objects regs argv env (stringPlaces (top - stringsSize (env.getD [])) (argv.getD []))
        (stringPlaces top (env.getD []))) := by
  have strung := roundUp_bounds strings
  have whole := roundUp_bounds (roundUp strings + tableSize env + tableSize argv)
  have envCopies := stringPlaces_stacked top (env.getD []) (by omega)
  have argvCopies := stringPlaces_stacked (top - stringsSize (env.getD [])) (argv.getD []) (by omega)
  have envTable := tableStretch_stacked (top - roundUp strings) env (by omega) rdx
  have argvTable := tableStretch_stacked (top - roundUp strings - tableSize env) argv (by omega) rsi
  refine Stacked.lower (((envCopies.append (argvCopies.lower ?_)).append envTable).append argvTable) ?_
  all_goals omega

/-- Arguments survive the stack encoding: a new program finds its arguments and
its environment behind `rsi` and `rdx`, and its stack pointer below them. -/
theorem args_delivered (regs : Registers) (mem : Memory) (physAddr virtAddr : Nat)
    (argv env : Option (List CString)) (physAligned : physAddr % pageSize = 0)
    (virtAligned : virtAddr % pageSize = 0) (atTop : regs.rsp = virtAddr)
    (fits : imageSize argv env ≤ schedStackSize) (physRoom : schedStackSize ≤ physAddr)
    (virtRoom : schedStackSize ≤ virtAddr) (inSpace : virtAddr < 2 ^ 64) :
    ∃ argvAt envAt,
      Delivered (userView (schedLoadArgsToStack regs mem physAddr virtAddr argv env).2 physAddr virtAddr)
        (schedLoadArgsToStack regs mem physAddr virtAddr argv env).1 virtAddr argv env argvAt envAt := by
  generalize size : stringsSize (env.getD []) + stringsSize (argv.getD []) = strings
  have strungBounds := roundUp_bounds strings
  have wholeBounds := roundUp_bounds (roundUp strings + tableSize env + tableSize argv)
  unfold imageSize at fits
  rw [size] at fits
  obtain ⟨pointer, envCopies, argvCopies⟩ := pushAllStrings_spec mem virtAddr argv env
    physAligned (by rw [size]; omega) (by rw [size]; omega)
  rw [size] at pointer
  obtain ⟨envStack, envSa, envKept, envWords⟩ :=
    pushTable_spec (pushAllStrings mem physAddr argv env) virtAddr env (by omega) (by omega)
  obtain ⟨argvStack, _, argvKept, argvWords⟩ :=
    pushTable_spec (pushTable (pushAllStrings mem physAddr argv env) virtAddr env).1
      (virtAddr - stringsSize (env.getD [])) argv (by omega) (by omega)
  rw [← envSa] at argvStack argvKept argvWords
  refine ⟨stringPlaces (virtAddr - stringsSize (env.getD [])) (argv.getD []), stringPlaces virtAddr (env.getD []), ?_⟩
  unfold schedLoadArgsToStack
  dsimp only
  generalize pushAllStrings mem physAddr argv env = strung at *
  generalize pushTable strung virtAddr env = envTable at *
  generalize pushTable envTable.1 envTable.2 argv = argvTable at *
  have kept := envKept.trans argvKept (by omega)
  have envAbove : ∀ spot ∈ stringPlaces virtAddr (env.getD []), strung.stack + virtAddr ≤ physAddr + spot := by
    intro spot member
    have := mem_stringPlaces _ member
    omega
  have argvAbove : ∀ spot ∈ stringPlaces (virtAddr - stringsSize (env.getD [])) (argv.getD []),
      strung.stack + virtAddr ≤ physAddr + spot := by
    intro spot member
    have := mem_stringPlaces _ member
    omega
  -- the three addresses, all counted down from the user's stack top
  have argvPlace : physAddr + (virtAddr - roundUp strings - tableSize env - tableSize argv) =
      argvTable.1.stack + virtAddr := by omega
  have envPlace : physAddr + (virtAddr - roundUp strings - tableSize env) =
      envTable.1.stack + virtAddr := by omega
  have rsi : virtAddr - (physAddr - argvTable.1.stack) =
      virtAddr - roundUp strings - tableSize env - tableSize argv := by omega
  have rdx : virtAddr - (physAddr - envTable.1.stack) = virtAddr - roundUp strings - tableSize env := by
    omega
  have rsp : virtAddr - roundUp strings - tableSize env - tableSize argv -
      (virtAddr - roundUp strings - tableSize env - tableSize argv &&& 8) =
      virtAddr - roundUp (roundUp strings + tableSize env + tableSize argv) := by
    have words : (roundUp strings + tableSize env + tableSize argv) % 8 = 0 := by
      have := tableSize_words env
      have := tableSize_words argv
      omega
    rw [Nat.sub_sub virtAddr, Nat.sub_sub virtAddr]
    exact align_eight virtAligned (by omega) words
  rw [atTop, rsi, rdx, rsp]
  generalize made : Registers.mk (argv.getD []).length _ _ _ = after
  have stacked := objects_stacked virtAddr after size (by omega)
    (by rintro given; subst made; exact if_pos (Option.isSome_iff_ne_none.mpr given))
    (by rintro given; subst made; exact if_pos (Option.isSome_iff_ne_none.mpr given))
  subst made
  constructor
  · rfl
  · rintro listed rfl
    exact tableOf_pushed (Nat.lt_of_le_of_lt (Nat.sub_le _ _) inSpace) (envSa ▸ argvWords listed rfl)
      (copies_kept kept argvAbove argvCopies) argvPlace
  · rintro rfl
    rfl
  · rintro listed rfl
    have words : wordsAt argvTable.1.mem envTable.1.stack (listed.length + 1) =
        wordsAt envTable.1.mem envTable.1.stack (listed.length + 1) :=
      wordsAt_congr fun k _ => argvKept _ (Nat.le_add_right _ k)
    exact tableOf_pushed inSpace (words.trans (envWords listed rfl))
      (copies_kept kept envAbove envCopies) envPlace
  · rintro rfl
    rfl
  · unfold pageSize at virtAligned
    dsimp only
    omega
  · exact stacked.within
  · exact stacked.apart

theorem ls_delivered :
    let argv := some [⟨[0x6c, 0x73], by decide⟩, ⟨[0x2d, 0x6c], by decide⟩]
    let env := some [⟨[0x41, 0x3d, 0x62], by decide⟩]
    let loaded := schedLoadArgsToStack ⟨0, 0, 0, 0x70000000000⟩ (fun _ => 0) 0x80000 0x70000000000 argv env
    ∃ argvAt envAt, Delivered (userView loaded.2 0x80000 0x70000000000) loaded.1 0x70000000000 argv env argvAt envAt :=
  args_delivered _ _ _ _ _ _ (by decide) (by decide) rfl (by decide) (by decide) (by decide) (by decide)

/-! ### Where the function writes -/

/-- A store: where it begins and how many bytes it has. The address is counted down
from the stack top without a bound; the machine's is that modulo `2 ^ 64`. -/
abbrev Write := Int × Nat

def Write.Inside (bottom top : Int) (write : Write) : Prop := bottom ≤ write.1 ∧ write.1 + write.2 ≤ top

/-- A write that is not of this byte. -/
def Write.Misses (place : Nat) (write : Write) : Prop := ¬ (write.1 ≤ place ∧ place < write.1 + write.2)

/-- The `strcpy` calls of one of the two loops. -/
def stringWrites (stack : Int) : List CString → List Write
  | [] => []
  | elem :: rest =>
    (stack - (strlen elem + 1), strlen elem + 1) :: stringWrites (stack - (strlen elem + 1)) rest

/-- The words of a table, from `adr` up. -/
def pointerWrites (adr : Int) : List CString → List Write
  | [] => []
  | _ :: rest => (adr, 8) :: pointerWrites (adr + 8) rest

def tableWrites (stack : Int) : Option (List CString) → List Write
  | none => []
  | some strings => (stack - 8, 8) :: pointerWrites (stack - 8 - 8 * strings.length) strings

/-- All that `sched_load_args_to_stack` stores, in order. -/
def argWrites (stackTop : Int) (argv env : Option (List CString)) : List Write :=
  let envEnd := stackTop - stringsSize (env.getD [])
  let argvEnd := envEnd - stringsSize (argv.getD [])
  let aligned := argvEnd - argvEnd % 16
  stringWrites stackTop (env.getD []) ++ stringWrites envEnd (argv.getD []) ++ tableWrites aligned env ++
    tableWrites (aligned - tableSize env) argv

/-- The bytes from the stack top down to the last word stored. -/
def writtenSize (argv env : Option (List CString)) : Nat :=
  roundUp (stringsSize (env.getD []) + stringsSize (argv.getD [])) + tableSize env + tableSize argv

theorem inside_cons {bottom top lower upper adr : Int} {size : Nat} {writes : List Write} {empty : Prop}
    (others : (∀ write ∈ writes, write.Inside bottom top) ↔ empty ∨ bottom ≤ lower ∧ upper ≤ top)
    (nothing : empty → lower = upper) (beside : upper = adr ∨ adr + size = lower) :
    (∀ write ∈ (adr, size) :: writes, Write.Inside bottom top write) ↔
      bottom ≤ min lower adr ∧ max upper (adr + size) ≤ top := by
  rw [List.forall_mem_cons, others, Write.Inside]
  grind

theorem stringWrites_inside (bottom top stack : Int) (strings : List CString) :
    (∀ write ∈ stringWrites stack strings, write.Inside bottom top) ↔
      strings = [] ∨ stack ≤ top ∧ bottom ≤ stack - stringsSize strings := by
  induction strings generalizing stack with
  | nil => simp [stringWrites]
  | cons elem rest ih =>
    have nothing : rest = [] → stack - (strlen elem + 1) - stringsSize rest = stack - (strlen elem + 1) := by
      rintro rfl
      exact Int.sub_zero _
    rw [stringWrites, inside_cons ((ih _).trans (or_congr_right and_comm)) nothing (Or.inl rfl),
      stringsSize_cons]
    simp only [List.cons_ne_nil, false_or]
    omega

theorem pointerWrites_inside (bottom top adr : Int) (strings : List CString) :
    (∀ write ∈ pointerWrites adr strings, write.Inside bottom top) ↔
      strings = [] ∨ bottom ≤ adr ∧ adr + 8 * strings.length ≤ top := by
  induction strings generalizing adr with
  | nil => simp [pointerWrites]
  | cons elem rest ih =>
    have nothing : rest = [] → adr + 8 = adr + 8 + 8 * rest.length := by
      rintro rfl
      exact (Int.add_zero _).symm
    rw [pointerWrites, inside_cons (ih _) nothing (Or.inr rfl), List.length_cons]
    simp only [List.cons_ne_nil, false_or]
    omega

theorem tableWrites_inside (bottom top stack : Int) (strings : Option (List CString)) :
    (∀ write ∈ tableWrites stack strings, write.Inside bottom top) ↔
      strings = none ∨ stack ≤ top ∧ bottom ≤ stack - tableSize strings := by
  cases strings with
  | none => simp [tableWrites]
  | some strings =>
    have nothing : strings = [] → stack - 8 - 8 * strings.length =
        stack - 8 - 8 * strings.length + 8 * strings.length := by
      rintro rfl
      exact (Int.add_zero _).symm
    rw [tableWrites, inside_cons (pointerWrites_inside ..) nothing (by omega), tableSize]
    simp only [reduceCtorEq, false_or]
    omega

/-! ### The bytes that are stored -/

/-- A byte that none of the writes is of stays as it was, and one that a write is of
does not depend on what was there. -/
structure Makes (writes : List Write) (change : Memory → Memory) : Prop where
  kept : ∀ mem place, (∀ write ∈ writes, write.Misses place) → change mem place = mem place
  stored : ∀ mem mem' place, (∃ write ∈ writes, ¬ write.Misses place) → change mem place = change mem' place

theorem makes_nothing : Makes [] id := ⟨fun _ _ _ => rfl, fun _ _ _ hit => absurd hit (by simp)⟩

theorem makes_one (adr count : Nat) (bytes : Nat → BitVec 8) : Makes [(adr, count)]
    fun mem place => if adr ≤ place ∧ place < adr + count then bytes place else mem place := by
  constructor
  · intro mem place missed
    have apart := missed _ (List.mem_singleton_self _)
    rw [Write.Misses] at apart
    exact if_neg (by omega)
  · rintro mem mem' place ⟨write, member, hit⟩
    rw [List.mem_singleton.mp member, Write.Misses] at hit
    dsimp only at hit ⊢
    rw [if_pos (by omega), if_pos (by omega)]

theorem strcpy_makes (dest : Nat) (source : CString) :
    Makes [(dest, strlen source + 1)] (strcpy · dest source) := by
  rw [show strlen source + 1 = (source.bytes ++ [0]).length by simp [strlen]]
  exact makes_one dest _ fun place => (source.bytes ++ [0]).getD (place - dest) 0

theorem storeWord_makes (adr : Nat) (value : BitVec 64) : Makes [(adr, 8)] (storeWord · adr value) :=
  makes_one adr 8 fun place => (value >>> (8 * (place - adr))).setWidth 8

theorem Makes.append (one : Makes writes first) (other : Makes writes' second) :
    Makes (writes ++ writes') (second ∘ first) := by
  constructor
  · intro mem place missed
    rw [List.forall_mem_append] at missed
    rw [Function.comp_apply, other.kept _ _ missed.2, one.kept _ _ missed.1]
  · intro mem mem' place hit
    by_cases later : ∃ write ∈ writes', ¬ write.Misses place
    · exact other.stored _ _ _ later
    · have missed : ∀ write ∈ writes', write.Misses place := by
        simpa using later
      rw [Function.comp_apply, Function.comp_apply, other.kept _ _ missed, other.kept _ _ missed]
      refine one.stored _ _ _ ?_
      obtain ⟨write, member, at_⟩ := hit
      exact ⟨write, (List.mem_append.mp member).resolve_right fun late => at_ (missed write late), at_⟩

/-- One pass after another, when the stack is the same whatever the memory holds. -/
theorem Makes.pass (before : Memory → Image) (change : Image → Memory)
    (makes : Makes writes fun mem => (before mem).mem) (level : ∀ mem, (before mem).stack = stack)
    (after : Makes writes' fun mem => change ⟨mem, stack⟩) :
    Makes (writes ++ writes') fun mem => change (before mem) := by
  have same : (fun mem => change (before mem)) = (fun mem => change ⟨mem, stack⟩) ∘ fun mem => (before mem).mem := by
    funext mem
    rw [Function.comp_apply, ← level mem]
  rw [same]
  exact makes.append after

theorem pushStrings_makes (strings : List CString) (room : stringsSize strings ≤ stack) :
    Makes (stringWrites stack strings) fun mem => (pushStrings ⟨mem, stack⟩ strings).mem := by
  induction strings generalizing stack with
  | nil => exact makes_nothing
  | cons elem rest ih =>
    rw [stringsSize_cons] at room
    have down : (stack : Int) - (strlen elem + 1) = (stack - (strlen elem + 1) : Nat) := by omega
    rw [stringWrites, down]
    exact (strcpy_makes _ elem).append (ih (by omega))

theorem storePointers_makes (adr sa : Nat) (strings : List CString) :
    Makes (pointerWrites adr strings) fun mem => (storePointers mem adr sa strings).1 := by
  induction strings generalizing adr sa with
  | nil => exact makes_nothing
  | cons elem rest ih => exact (storeWord_makes adr _).append (ih (adr + 8) (sa - (strlen elem + 1)))

theorem pushTable_makes (sa : Nat) (strings : Option (List CString)) (room : tableSize strings ≤ stack) :
    Makes (tableWrites stack strings) fun mem => (pushTable ⟨mem, stack⟩ sa strings).1.mem := by
  cases strings with
  | none => exact makes_nothing
  | some strings =>
    rw [tableSize] at room
    have table : (stack : Int) - 8 - 8 * strings.length = (stack - 8 - 8 * strings.length : Nat) := by omega
    have zero : (stack : Int) - 8 = (stack - 8 : Nat) := by omega
    rw [tableWrites, table, zero]
    exact (storeWord_makes _ 0).append (storePointers_makes _ sa strings)

theorem pushTable_frame (image other : Image) (sa : Nat) (strings : Option (List CString)) :
    (pushTable image sa strings).1.stack = image.stack - tableSize strings ∧
      (pushTable image sa strings).2 = (pushTable other sa strings).2 := by
  have counted (listed : List CString) (mem mem' : Memory) (adr adr' sa : Nat) :
      (storePointers mem adr sa listed).2 = (storePointers mem' adr' sa listed).2 := by
    induction listed generalizing mem mem' adr adr' sa with
    | nil => rfl
    | cons elem rest ih => exact ih ..
  cases strings with
  | none => exact ⟨rfl, rfl⟩
  | some strings => exact ⟨by rw [pushTable, tableSize]; dsimp only; omega, counted ..⟩

/-- The function stores the bytes of these writes and no others. -/
theorem schedLoadArgsToStack_makes (regs : Registers) (virtAddr : Nat) (argv env : Option (List CString))
    (aligned : physAddr % pageSize = 0) (room : writtenSize argv env ≤ physAddr) :
    Makes (argWrites physAddr argv env)
      fun mem => (schedLoadArgsToStack regs mem physAddr virtAddr argv env).2 := by
  unfold pageSize at aligned
  rw [writtenSize] at room
  have strung := roundUp_bounds (stringsSize (env.getD []) + stringsSize (argv.getD []))
  -- the stack after each of the passes
  have envStack (mem : Memory) :=
    (pushStrings_spec ⟨mem, physAddr⟩ physAddr (env.getD []) (by dsimp only; omega) (by omega)).1
  have stack (mem : Memory) := (pushAllStrings_spec mem physAddr argv env aligned (by omega) (by omega)).1
  have tableStack (mem : Memory) := (pushTable_frame (pushAllStrings mem physAddr argv env) ⟨mem, 0⟩ virtAddr env).1
  simp only [stack] at tableStack
  obtain ⟨sa, tableSa⟩ : ∃ sa, ∀ mem, (pushTable (pushAllStrings mem physAddr argv env) virtAddr env).2 = sa :=
    ⟨_, fun mem => (pushTable_frame _ ⟨fun _ => 0, 0⟩ virtAddr env).2⟩
  have strings := Makes.pass _ (fun image => (pushStrings image (argv.getD [])).mem)
    (pushStrings_makes (env.getD []) (show _ ≤ physAddr by omega)) envStack
    (pushStrings_makes (argv.getD []) (show _ ≤ physAddr - stringsSize (env.getD []) by omega))
  have envTable := Makes.pass (fun mem => pushAllStrings mem physAddr argv env)
    (fun image => (pushTable image virtAddr env).1.mem) strings stack (pushTable_makes virtAddr env (by omega))
  have tables := Makes.pass (fun mem => (pushTable (pushAllStrings mem physAddr argv env) virtAddr env).1)
    (fun image => (pushTable image sa argv).1.mem) envTable tableStack (pushTable_makes sa argv (by omega))
  -- the same places, counted without a bound
  have rounded : (physAddr : Int) - stringsSize (env.getD []) - stringsSize (argv.getD []) -
      (physAddr - stringsSize (env.getD []) - stringsSize (argv.getD [])) % 16 =
      (physAddr - roundUp (stringsSize (env.getD []) + stringsSize (argv.getD [])) : Nat) := by
    unfold roundUp
    omega
  have below : ((physAddr - roundUp (stringsSize (env.getD []) + stringsSize (argv.getD [])) : Nat) : Int) -
      tableSize env =
      (physAddr - roundUp (stringsSize (env.getD []) + stringsSize (argv.getD [])) - tableSize env : Nat) := by
    omega
  have argvStart : (physAddr : Int) - stringsSize (env.getD []) = (physAddr - stringsSize (env.getD []) : Nat) := by
    omega
  simp only [schedLoadArgsToStack, tableSa, argWrites]
  rw [rounded, below, argvStart]
  exact tables

theorem argWrites_inside {bottom top stackTop : Int} (aligned : stackTop % 16 = 0) (argv env : Option (List CString)) :
    (∀ write ∈ argWrites stackTop argv env, write.Inside bottom top) ↔
      argv = none ∧ env = none ∨ stackTop ≤ top ∧ bottom ≤ stackTop - writtenSize argv env := by
  have strung := roundUp_bounds (stringsSize (env.getD []) + stringsSize (argv.getD []))
  have rounded : stackTop - stringsSize (env.getD []) - stringsSize (argv.getD []) -
      (stackTop - stringsSize (env.getD []) - stringsSize (argv.getD [])) % 16 =
      stackTop - roundUp (stringsSize (env.getD []) + stringsSize (argv.getD [])) := by
    unfold roundUp
    omega
  have empty : stringsSize [] = 0 ∧ roundUp 0 = 0 := ⟨rfl, rfl⟩
  simp only [argWrites, List.forall_mem_append, stringWrites_inside, tableWrites_inside, rounded, writtenSize]
  -- what is stored first and last depends on which lists there are, and on which have strings
  rcases env with _ | (_ | ⟨first, rest⟩) <;> rcases argv with _ | (_ | ⟨first', rest'⟩) <;>
    simp only [Option.getD_none, Option.getD_some, reduceCtorEq, List.cons_ne_nil, false_or, true_or, and_true,
      true_and, false_and, tableSize, empty, Nat.add_zero, List.length_nil] at strung ⊢ <;>
    push_cast <;> omega

end MandelbrotOS.ArgStack
