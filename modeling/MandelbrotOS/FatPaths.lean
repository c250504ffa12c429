import Mathlib.Data.List.Find
import MandelbrotOS.FatChains
import MandelbrotOS.FatLookup

/-! Looking up paths of 8.3 names with `fat_find` of `fs/fat32.c`. Before it goes
down into a directory the code looks two and three characters behind the slash
for the dots of `..`, which come one and two behind it; a short name with an
extension has its dot there. It then starts again in the directory it is in,
four characters on. -/
namespace MandelbrotOS.FatPaths
open ByteMemory Fat FatChains FatLookup Runs
open Blocks (gather)

/-! ### Paths -/

/-- Neither the end of a string, nor a slash, nor a dot. -/
def IsPlain (char : BitVec 8) : Prop := char ≠ 0 ∧ char ≠ 0x2f ∧ char ≠ 0x2e

instance (char : BitVec 8) : Decidable (IsPlain char) := inferInstanceAs (Decidable (_ ∧ _))

/-- A name of one to eight characters and, after a dot, an extension of up to
three. Without an extension there is no dot. -/
structure Component where
  name : List (BitVec 8)
  ext : List (BitVec 8)
  nonempty : 0 < name.length
  nameFits : name.length ≤ 8
  extFits : ext.length ≤ 3
  namePlain : ∀ char ∈ name, IsPlain char
  extPlain : ∀ char ∈ ext, IsPlain char
  noSpace : ∀ char rest, name = char :: rest → char ≠ 0x20

def Component.text (c : Component) : List (BitVec 8) :=
  c.name ++ (if c.ext = [] then [] else 0x2e :: c.ext)

def spell (path : List Component) : List (BitVec 8) := path.flatMap fun c => 0x2f :: c.text

/-- The string at a place in memory. -/
def Reads (path : Path) : Int → List (BitVec 8) → Prop
  | cursor, [] => path cursor = 0
  | cursor, char :: rest => path cursor = char ∧ Reads path (cursor + 1) rest

/-- The eleven bytes of a name in a directory, in upper case. -/
def Component.encoded (c : Component) (k : Nat) : BitVec 8 :=
  if k < 8 then (c.name[k]?.map upperCase).getD 0x20 else (c.ext[k - 8]?.map upperCase).getD 0x20

/-! ### What a path stands for -/

/-- An entry that is neither free nor deleted. -/
def live (entry : DirEntry) : Bool := entry 0 != 0 && entry 0 != 0xe5

/-- The entry has the name of the component, in either case. -/
def named (c : Component) (entry : DirEntry) : Bool :=
  (List.range 11).all fun k => c.encoded k == upperCase (entry k)

/-- The first entry of a directory with a name, and its index. -/
def entryNamed (v : Volume) (directory : Nat) (c : Component) : Option (Nat × DirEntry) := do
  let (buffer, size) ← readDirectory v directory
  let index ← (List.range size).find? fun i => live (entryOf buffer i) && named c (entryOf buffer i)
  some (index, entryOf buffer index)

structure Place where
  directory : Nat
  index : Nat
  entry : DirEntry

/-- The entry reached from a directory by following the components. -/
def resolve (v : Volume) : Nat → List Component → Option Place
  | _, [] => none
  | directory, [c] => (entryNamed v directory c).map fun (index, entry) => ⟨directory, index, entry⟩
  | directory, c :: next :: rest => do
    let (_, entry) ← entryNamed v directory c
    if entry.directory then resolve v entry.clusterNo (next :: rest) else none

/-- A component before the last names something that is not a directory. -/
def ThroughFile (v : Volume) : Nat → List Component → Prop
  | directory, c :: next :: rest => ∃ index entry, entryNamed v directory c = some (index, entry) ∧
    (entry.directory = false ∨ ThroughFile v entry.clusterNo (next :: rest))
  | _, _ => False

/-- What is returned for a path that stands for this entry, or for none. -/
def Answers (lookup : Lookup) : Option Place → Prop
  | none => lookup.ret = notFound
  | some place => lookup.ret = place.entry.clusterNo ∧ lookup.parentClusterDir = place.directory ∧
    lookup.found = some (place.entry, place.index)

/-- `fat_find` returns what the path stands for, wherever the string is. -/
def Resolves (v : Volume) (path : List Component) : Prop :=
  ∀ string, Reads string 0 (spell path) → ∃ lookup, fatFind v string = some lookup ∧
    Answers lookup (resolve v v.boot.rootCluster path)

/-- The character two or three behind the slash before this component is a dot.
`beyond` says that the byte behind the end of the string is one. -/
def Misleads (beyond : Prop) (c : Component) (rest : List Component) : Prop :=
  (c.ext ≠ [] ∧ c.name.length ≤ 2) ∨ (rest = [] ∧ beyond ∧ c.ext = [] ∧ c.name.length = 1)

/-- None of these components misleads. -/
def Straight (beyond : Prop) : List Component → Prop
  | [] => True
  | c :: rest => ¬ Misleads beyond c rest ∧ Straight beyond rest

/-- No component that is looked for below a directory misleads: those behind a
component that is missing, or names no directory, are not come to. -/
def Unmisled (v : Volume) : Nat → List Component → Prop
  | directory, c :: next :: rest => ∀ index entry, entryNamed v directory c = some (index, entry) →
    entry.directory = true → ¬ Misleads True next rest ∧ Unmisled v entry.clusterNo (next :: rest)
  | _, _ => True

/-- The directories of a volume with 8.3 names only, at their depths: each can be
read, holds no long name and no label, has its subdirectories one below, and its
names are in upper case, as they are to be on a disk. -/
structure Tree (v : Volume) (directories : List Nat) (depth : Nat → Nat) : Prop where
  root : v.boot.rootCluster ∈ directories
  valid : ∀ directory ∈ directories, 2 ≤ directory ∧ directory < 0xffffff7
  readable : ∀ directory ∈ directories, readDirectory v directory ≠ none
  plain : ∀ directory ∈ directories, ∀ buffer size, readDirectory v directory = some (buffer, size) →
    ∀ i < size, live (entryOf buffer i) = true → (entryOf buffer i 11).getLsbD 3 = false ∧
      (∀ k < 11, upperCase (entryOf buffer i k) = entryOf buffer i k) ∧
      (entryOf buffer i).clusterNo < 0xffffff7
  below : ∀ directory ∈ directories, ∀ buffer size, readDirectory v directory = some (buffer, size) →
    ∀ i < size, live (entryOf buffer i) = true → (entryOf buffer i).directory = true →
      entryOf buffer i 0 ≠ 0x2e → (entryOf buffer i).clusterNo ∈ directories ∧
        depth (entryOf buffer i).clusterNo = depth directory + 1

/-- What the lookup needs of one directory. -/
structure Legible (v : Volume) (directory : Nat) : Prop where
  valid : 2 ≤ directory ∧ directory < 0xffffff7
  readable : readDirectory v directory ≠ none
  plain : ∀ buffer size, readDirectory v directory = some (buffer, size) →
    ∀ i < size, live (entryOf buffer i) = true → (entryOf buffer i 11).getLsbD 3 = false ∧
      (∀ k < 11, upperCase (entryOf buffer i k) = entryOf buffer i k) ∧
      (entryOf buffer i).clusterNo < 0xffffff7

theorem Tree.legible (tree : Tree v directories depth) (inside : directory ∈ directories) :
    Legible v directory :=
  ⟨tree.valid directory inside, tree.readable directory inside, tree.plain directory inside⟩

/-! ### Reading strings -/

theorem reads_append {chars : List (BitVec 8)} (reads : Reads path cursor (chars ++ rest)) :
    Reads path (cursor + chars.length) rest := by
  induction chars generalizing cursor with
  | nil => simpa using reads
  | cons char chars ih =>
    have later := ih reads.2
    grind

theorem shortName_plain {chars : List (BitVec 8)} (plain : ∀ char ∈ chars, IsPlain char)
    (reads : Reads path cursor (chars ++ rest)) (fits : pos + chars.length ≤ 11) (turns : Nat)
    (name : Memory) :
    shortName path (chars.length + turns) cursor pos name =
      shortName path turns (cursor + chars.length) (pos + chars.length)
        (copy name pos chars.length fun i => upperCase (chars.getD i 0)) := by
  induction chars generalizing cursor pos name with
  | nil =>
    have nothing : copy name pos 0 (fun i => upperCase (([] : List (BitVec 8)).getD i 0)) = name := by
      funext k
      rw [copy, if_neg (by omega)]
    simp_all
  | cons char chars ih =>
    obtain ⟨first, later⟩ := reads
    obtain ⟨notEnd, notSlash, notDot⟩ := plain char List.mem_cons_self
    rw [List.length_cons] at fits ⊢
    have onward := ih (fun other member => plain other (List.mem_cons_of_mem _ member)) later
      (show pos + 1 + chars.length ≤ 11 by omega) (Function.update name pos (upperCase char))
    have filled : copy (Function.update name pos (upperCase char)) (pos + 1) chars.length
          (fun i => upperCase (chars.getD i 0)) =
        copy name pos (chars.length + 1) fun i => upperCase ((char :: chars).getD i 0) := by
      funext k
      simp only [copy, Function.update_apply]
      grind
    have goesOn : ¬ (path cursor = 0 ∨ pos = 11 ∨ path cursor = 0x2f) := by
      grind
    rw [show chars.length + 1 + turns = (chars.length + turns) + 1 by omega, shortName, if_neg goesOn,
      if_neg (first ▸ notDot), first, onward, filled, Int.add_assoc, Nat.add_assoc]
    congr 1
    · push_cast
      omega
    · omega

theorem name_shape (c : Component) : ∃ char rest, c.name = char :: rest ∧ IsPlain char ∧ char ≠ 0x20 := by
  cases shape : c.name with
  | nil =>
    have nonempty := c.nonempty
    rw [shape] at nonempty
    cases nonempty
  | cons char rest =>
    exact ⟨char, rest, rfl, c.namePlain char (by rw [shape]; exact List.mem_cons_self),
      c.noSpace char rest shape⟩

theorem text_shape (c : Component) : ∃ char rest, c.text = char :: rest ∧ IsPlain char ∧ char ≠ 0x20 := by
  obtain ⟨char, rest, shape, facts⟩ := name_shape c
  simp_all [Component.text]

theorem spell_stops (reads : Reads path cursor (spell rest)) :
    (path cursor = 0x2f ↔ rest ≠ []) ∧ (path cursor = 0 ∨ path cursor = 0x2f) := by
  cases rest with
  | nil =>
    have stop : path cursor = 0 := reads
    rw [stop]
    simp_all
  | cons c rest =>
    have slash : path cursor = 0x2f := reads.1
    simp_all

theorem encoded_low (c : Component) (low : k < 8) :
    copy (fun _ => 0x20) 0 c.name.length (fun i => upperCase (c.name.getD i 0)) k = c.encoded k := by
  rw [Component.encoded, if_pos low, copy]
  grind

theorem encoded_high (c : Component) (name : Memory) (blank : ∀ k, 8 ≤ k → name k = 0x20) (high : 8 ≤ k) :
    copy name 8 c.ext.length (fun i => upperCase (c.ext.getD i 0)) k = c.encoded k := by
  rw [Component.encoded, if_neg (Nat.not_lt.mpr high), copy]
  grind

/-- The eleven bytes made of a component. -/
theorem shortName_component {c : Component} (reads : Reads path cursor (c.text ++ tail))
    (stop : path (cursor + c.text.length) = 0 ∨ path (cursor + c.text.length) = 0x2f) (enough : 12 < turns) :
    ∃ pos name, shortName path turns cursor 0 (fun _ => 0x20) =
        some (cursor + c.text.length, pos, name) ∧ ∀ k < 11, name k = c.encoded k := by
  have nameFits := c.nameFits
  have extFits := c.extFits
  rw [Component.text, List.append_assoc] at reads
  rw [Component.text] at stop
  obtain ⟨left, rfl⟩ : ∃ left, turns = c.name.length + left := ⟨turns - c.name.length, by omega⟩
  have named := shortName_plain c.namePlain reads (show 0 + c.name.length ≤ 11 by omega) left fun _ => 0x20
  have later := reads_append reads
  generalize filled : copy (fun _ => 0x20) 0 c.name.length (fun i => upperCase (c.name.getD i 0)) = name at named
  have high (k : Nat) (past : 8 ≤ k) : name k = 0x20 := by
    rw [← filled, copy, if_neg (by omega)]
  rw [named, Nat.zero_add]
  by_cases bare : c.ext = []
  · rw [if_pos bare, List.append_nil] at stop
    obtain ⟨turns, rfl⟩ : ∃ turns, left = turns + 1 := ⟨left - 1, by omega⟩
    refine ⟨c.name.length, name, ?_, fun k inside => ?_⟩
    · rw [shortName, if_pos (stop.imp_right Or.inr), Component.text, if_pos bare, List.append_nil]
    · by_cases low : k < 8
      · rw [← filled]
        exact encoded_low c low
      · simp_all [Component.encoded]
  · rw [if_neg bare] at later
    obtain ⟨dot, ext⟩ := later
    obtain ⟨turns, rfl⟩ : ∃ turns, left = (c.ext.length + (turns + 1)) + 1 :=
      ⟨left - c.ext.length - 2, by omega⟩
    have nonempty : 0 < c.ext.length := List.length_pos_iff.mpr bare
    have extended := shortName_plain c.extPlain ext (show 8 + c.ext.length ≤ 11 by omega) (turns + 1) name
    have length : cursor + ((c.name ++ 0x2e :: c.ext).length : Int) =
        cursor + c.name.length + 1 + c.ext.length := by
      grind
    rw [if_neg bare, length] at stop
    have goesOn : ¬ (path (cursor + c.name.length) = 0 ∨ c.name.length = 11 ∨
        path (cursor + c.name.length) = 0x2f) := by
      grind
    have eight : (if c.name.length < 8 then 8 else c.name.length) = 8 := by
      split <;> omega
    refine ⟨8 + c.ext.length, copy name 8 c.ext.length fun i => upperCase (c.ext.getD i 0), ?_,
      fun k inside => ?_⟩
    · rw [shortName, if_neg goesOn, if_pos dot, eight, extended, shortName,
        if_pos (stop.imp_right Or.inr), Component.text, if_neg bare, length]
    · by_cases low : k < 8
      · rw [copy, if_neg (by omega), ← filled]
        exact encoded_low c low
      · exact encoded_high c name high (by omega)

/-! ### One component -/

theorem live_iff (entry : DirEntry) : live entry = true ↔ ¬ (entry 0 = 0 ∨ entry 0 = 0xe5) := by
  simp [live]

theorem scan_plain (plain : ∀ i < size, live (entryOf buffer i) = true → entryOf buffer i 11 ≠ 0xf)
    (enough : i + turns = size) :
    scan path name buffer size turns i cursor pos = some (((List.range' i turns).find? fun j =>
      live (entryOf buffer j) && sameBytes name (entryOf buffer j) 11).map fun j =>
        ⟨j, entryOf buffer j, cursor⟩) := by
  induction turns generalizing i with
  | zero => rfl
  | succ turns ih =>
    have onward := @ih (i + 1) (by omega)
    rw [scan, if_pos (by omega), List.range'_succ, List.find?_cons]
    dsimp only
    by_cases free : entryOf buffer i 0 = 0 ∨ entryOf buffer i 0 = 0xe5
    · have dead : live (entryOf buffer i) = false :=
        Bool.eq_false_iff.mpr fun alive => (live_iff _).mp alive free
      rw [if_pos free, dead, Bool.false_and, onward]
    · grind [live_iff]

theorem sameBytes_named (made : ∀ k < 11, name k = c.encoded k)
    (upper : ∀ k < 11, upperCase (entry k) = entry k) : sameBytes name entry 11 = named c entry := by
  rw [sameBytes, named, Bool.eq_iff_iff, List.all_eq_true, List.all_eq_true]
  simp_all

section
variable {v : Volume} {directories : List Nat} {depth : Nat → Nat} {c : Component} {rest : List Component}

theorem Legible.notLong (legible : Legible v directory)
    (read : readDirectory v directory = some (buffer, size)) :
    ∀ i < size, live (entryOf buffer i) = true → entryOf buffer i 11 ≠ 0xf := by
  intro i small alive long
  have label := (legible.plain buffer size read i small alive).1
  rw [long] at label
  exact absurd label (by decide)

theorem fatFindFrom_text (legible : Legible v directory)
    (reads : Reads path cursor (c.text ++ tail))
    (stop : path (cursor + c.text.length) = 0 ∨ path (cursor + c.text.length) = 0x2f) (fuel parent : Nat) :
    fatFindFrom v path (fuel + 1) parent directory cursor =
      match entryNamed v directory c with
      | none => some ⟨notFound, directory, none⟩
      | some (index, entry) =>
        if path (cursor + c.text.length) = 0x2f ∧ entry.directory = true then
          if path (cursor + c.text.length + 2) ≠ 0x2e ∧ path (cursor + c.text.length + 3) ≠ 0x2e then
            fatFindFrom v path fuel directory entry.clusterNo (cursor + c.text.length + 1)
          else fatFindFrom v path fuel directory directory (cursor + c.text.length + 4)
        else some ⟨entry.clusterNo, directory, some (entry, index)⟩ := by
  obtain ⟨low, high⟩ := legible.valid
  obtain ⟨⟨buffer, size⟩, read⟩ := Option.ne_none_iff_exists'.mp legible.readable
  obtain ⟨char, tail, shape, ⟨notEnd, notSlash, notDot⟩, notSpace⟩ := text_shape c
  have first : path cursor = char := by
    rw [shape] at reads
    exact reads.1
  obtain ⟨pos, name, made, bytes⟩ := shortName_component reads stop (show 12 < 2 ^ 64 by decide)
  have found : ((List.range' 0 size).find? fun j =>
      live (entryOf buffer j) && sameBytes name (entryOf buffer j) 11) =
      (List.range size).find? fun i => live (entryOf buffer i) && named c (entryOf buffer i) := by
    rw [← List.range_eq_range']
    refine List.find?_congr fun i member => ?_
    cases alive : live (entryOf buffer i) with
    | false => rfl
    | true =>
      have upper := (legible.plain buffer size read i (List.mem_range.mp member) alive).2.1
      rw [sameBytes_named bytes upper]
  rw [fatFindFrom, if_neg (by omega)]
  simp only [orRoot, if_neg (show directory ≠ 0 by omega), first, notEnd, notSpace, notSlash, notDot, if_false,
    or_self, made, read, bind_returned, scan_plain (legible.notLong read) (Nat.zero_add size), found,
    entryNamed]
  cases (List.range size).find? fun i => live (entryOf buffer i) && named c (entryOf buffer i) with
  | none => rfl
  | some index => rfl

theorem fatFindFrom_component (tree : Tree v directories depth) (inside : directory ∈ directories)
    (reads : Reads path cursor (c.text ++ spell rest)) (fuel parent : Nat) :
    fatFindFrom v path (fuel + 1) parent directory cursor =
      match entryNamed v directory c with
      | none => some ⟨notFound, directory, none⟩
      | some (index, entry) =>
        if rest ≠ [] ∧ entry.directory = true then
          if path (cursor + c.text.length + 2) ≠ 0x2e ∧ path (cursor + c.text.length + 3) ≠ 0x2e then
            fatFindFrom v path fuel directory entry.clusterNo (cursor + c.text.length + 1)
          else fatFindFrom v path fuel directory directory (cursor + c.text.length + 4)
        else some ⟨entry.clusterNo, directory, some (entry, index)⟩ := by
  obtain ⟨slash, stop⟩ := spell_stops (reads_append reads)
  simp only [fatFindFrom_text (tree.legible inside) reads stop, slash]

theorem upperCase_dot : ∀ char : BitVec 8, upperCase char = 0x2e → char = 0x2e := by decide

theorem entryNamed_spec (tree : Tree v directories depth) (inside : directory ∈ directories)
    (found : entryNamed v directory c = some (index, entry)) :
    entry.clusterNo < 0xffffff7 ∧ (entry.directory = true →
      entry.clusterNo ∈ directories ∧ depth entry.clusterNo = depth directory + 1) := by
  simp only [entryNamed, bind_returns, Prod.exists, Option.some.injEq, Prod.mk.injEq] at found
  obtain ⟨buffer, size, read, _, first, rfl, rfl⟩ := found
  have both := List.find?_some first
  rw [Bool.and_eq_true] at both
  obtain ⟨alive, same⟩ := both
  have small := List.mem_range.mp (List.mem_of_find?_eq_some first)
  refine ⟨(tree.plain directory inside buffer size read _ small alive).2.2, fun isDirectory =>
    tree.below directory inside buffer size read _ small alive isDirectory fun dot => ?_⟩
  obtain ⟨head, tail, shape, ⟨-, -, notDot⟩, -⟩ := name_shape c
  rw [named, List.all_eq_true] at same
  have char := same 0 (List.mem_range.mpr (by decide))
  have encoded : c.encoded 0 = upperCase head := by
    rw [Component.encoded, shape]
    rfl
  rw [encoded, dot, beq_iff_eq] at char
  exact notDot (upperCase_dot head char)

/-! ### Looking for the dots -/

/-- What the code looks at behind a slash. -/
theorem looksAhead_iff (reads : Reads path cursor (spell (c :: rest))) :
    (path (cursor + 2) ≠ 0x2e ∧ path (cursor + 3) ≠ 0x2e) ↔
      ¬ Misleads (path (cursor + (spell (c :: rest)).length + 1) = 0x2e) c rest := by
  obtain ⟨name, ext, nonempty, nameFits, extFits, plain, extPlain, noSpace⟩ := c
  have two : cursor + 1 + 1 = cursor + 2 := by omega
  have three : cursor + 1 + 1 + 1 = cursor + 3 := by omega
  cases name with
  | nil => cases nonempty
  | cons first name =>
    cases name with
    | nil =>
      cases ext with
      | nil =>
        have later : Reads path (cursor + 1 + 1) (spell rest) := reads.2.2
        rw [two] at later
        cases rest with
        | nil =>
          have stop : path (cursor + 2) = 0 := later
          simp_all [spell, Component.text, Misleads]
        | cons next rest =>
          have slash : path (cursor + 2) = 0x2f := later.1
          obtain ⟨char, tail, shape, ⟨-, -, notDot⟩, -⟩ := text_shape next
          simp_all [Reads, spell, Misleads]
      | cons char ext =>
        have dot : path (cursor + 1 + 1) = 0x2e := reads.2.2.1
        rw [two] at dot
        simp [Misleads, dot]
    | cons second name =>
      have there : path (cursor + 1 + 1) = second := reads.2.2.1
      have notDot := (plain second (by simp)).2.2
      rw [two] at there
      cases name with
      | nil =>
        cases ext with
        | nil =>
          have later : Reads path (cursor + 1 + 1 + 1) (spell rest) := reads.2.2.2
          rw [three] at later
          have stop : path (cursor + 3) ≠ 0x2e := by
            grind [spell_stops]
          simp_all [Misleads]
        | cons char ext =>
          have dot : path (cursor + 1 + 1 + 1) = 0x2e := reads.2.2.2.1
          simp_all [Misleads]
      | cons third name =>
        have behind : path (cursor + 1 + 1 + 1) = third := reads.2.2.2.1
        have notDot' := (plain third (by simp)).2.2
        simp_all [Misleads]

/-- The byte behind the end of the string, if it is a dot, is the last before
another end. -/
def Tame (path : Path) (stop : Int) : Prop := path (stop + 1) = 0x2e → path (stop + 2) = 0

theorem misled_reads (reads : Reads path cursor (spell (c :: rest)))
    (tame : Tame path (cursor + (spell (c :: rest)).length))
    (misled : Misleads (path (cursor + (spell (c :: rest)).length + 1) = 0x2e) c rest) :
    ∃ tail : List (BitVec 8), (∀ char ∈ tail, IsPlain char) ∧ tail.length ≤ 3 ∧
      Reads path (cursor + 4) (tail ++ spell rest) ∧
      (rest ≠ [] → Tame path (cursor + 4 + (tail ++ spell rest).length)) := by
  rcases misled with ⟨dotted, short⟩ | ⟨rfl, beyond, bare, one⟩
  · have text : ∃ front tail, c.text = front ++ tail ∧ front.length = 3 ∧ (∀ char ∈ tail, IsPlain char) ∧
        tail.length ≤ 3 := by
      have extFits := c.extFits
      have extPlain := c.extPlain
      rw [Component.text, if_neg dotted]
      obtain ⟨first, name, shape, -⟩ := name_shape c
      rw [shape] at short ⊢
      match name, short with
      | [], _ =>
        cases ext : c.ext with
        | nil => exact absurd ext dotted
        | cons char tail =>
          rw [ext] at extFits extPlain
          exact ⟨[first, 0x2e, char], tail, rfl, rfl,
            fun other member => extPlain other (List.mem_cons_of_mem _ member), by
              rw [List.length_cons] at extFits
              omega⟩
      | [second], _ => exact ⟨[first, second, 0x2e], c.ext, rfl, rfl, extPlain, extFits⟩
    obtain ⟨front, tail, shape, three, plain, few⟩ := text
    have later : Reads path (cursor + 1) (c.text ++ spell rest) := reads.2
    rw [shape, List.append_assoc] at later
    have landed := reads_append later
    rw [three, show cursor + 1 + ((3 : Nat) : Int) = cursor + 4 by omega] at landed
    refine ⟨tail, plain, few, landed, fun _ => ?_⟩
    grind [spell]
  · refine ⟨[], nofun, Nat.zero_le _, ?_, fun nonempty => absurd rfl nonempty⟩
    have length : cursor + ((spell [c]).length : Int) = cursor + 2 := by
      simp_all [spell, Component.text]
    rw [length] at tame beyond
    have zero := tame beyond
    rwa [show cursor + 2 + 2 = cursor + 4 by omega] at zero

/-! ### How deep a lookup gets -/

/-- A lookup from here on ends no deeper than this. -/
def NoDeeper (v : Volume) (path : Path) (depth : Nat → Nat) (directory : Nat) (cursor : Int) (bound : Nat) :
    Prop :=
  ∀ fuel parent lookup, fatFindFrom v path fuel parent directory cursor = some lookup →
    lookup.found ≠ none → depth lookup.parentClusterDir ≤ bound

theorem noDeeper_stop (stop : path cursor = 0) : NoDeeper v path depth directory cursor bound := by
  intro fuel parent lookup ran found
  cases fuel with
  | zero => cases ran
  | succ fuel =>
    grind [fatFindFrom]

theorem noDeeper_skip (tree : Tree v directories depth) (inside : directory ∈ directories)
    (skipped : path cursor = 0x20 ∨ path cursor = 0x2f)
    (onward : NoDeeper v path depth directory (cursor + 1) bound) :
    NoDeeper v path depth directory cursor bound := by
  intro fuel parent lookup ran found
  have valid := tree.valid directory inside
  cases fuel with
  | zero => cases ran
  | succ fuel =>
    have notEnd : path cursor ≠ 0 := by
      grind
    rw [fatFindFrom, if_neg (by omega)] at ran
    simp only [orRoot, if_neg (show directory ≠ 0 by omega), notEnd, if_false, skipped, if_true] at ran
    exact onward fuel directory lookup ran found

/-- Each slash leads at most one directory down. -/
def ComponentBound (v : Volume) (path : Path) (directories : List Nat) (depth : Nat → Nat)
    (rest : List Component) : Prop :=
  ∀ (c : Component) directory cursor, directory ∈ directories → Reads path cursor (c.text ++ spell rest) →
    (rest ≠ [] → Tame path (cursor + (c.text ++ spell rest).length)) →
    NoDeeper v path depth directory cursor (depth directory + rest.length)

/-- The same after what is left of an extension. -/
def TailBound (v : Volume) (path : Path) (directories : List Nat) (depth : Nat → Nat)
    (rest : List Component) : Prop :=
  ∀ (tail : List (BitVec 8)) directory cursor, directory ∈ directories → (∀ char ∈ tail, IsPlain char) →
    tail.length ≤ 3 → Reads path cursor (tail ++ spell rest) →
    (rest ≠ [] → Tame path (cursor + (tail ++ spell rest).length)) →
    NoDeeper v path depth directory cursor (depth directory + rest.length)

theorem spell_cons (c : Component) (rest : List Component) :
    spell (c :: rest) = 0x2f :: (c.text ++ spell rest) := rfl

theorem end_of_component (c next : Component) (rest : List Component) (cursor : Int) :
    cursor + c.text.length + (spell (next :: rest)).length =
        cursor + ((c.text ++ spell (next :: rest)).length : Int) ∧
      cursor + c.text.length + 1 + ((next.text ++ spell rest).length : Int) =
        cursor + ((c.text ++ spell (next :: rest)).length : Int) := by
  grind [spell_cons]

section
variable (tree : Tree v directories depth)
include tree

theorem componentBound_nil : ComponentBound v path directories depth [] := by
  intro c directory cursor inside reads tame fuel parent lookup ran found
  cases fuel with
  | zero => cases ran
  | succ fuel =>
    grind [fatFindFrom_component]

theorem fatFindFrom_onward (inside : directory ∈ directories)
    (reads : Reads path cursor (c.text ++ spell (next :: rest)))
    (tame : Tame path (cursor + (c.text ++ spell (next :: rest)).length))
    (ran : fatFindFrom v path fuel parent directory cursor = some lookup) (found : lookup.found ≠ none) :
    (∃ fewer below, below ∈ directories ∧ depth below = depth directory + 1 ∧
      ¬ Misleads (path (cursor + (c.text ++ spell (next :: rest)).length + 1) = 0x2e) next rest ∧
      fatFindFrom v path fewer directory below (cursor + c.text.length + 1) = some lookup) ∨
    (∃ fewer, ∃ tail : List (BitVec 8), (∀ char ∈ tail, IsPlain char) ∧ tail.length ≤ 3 ∧
      Reads path (cursor + c.text.length + 4) (tail ++ spell rest) ∧
      (rest ≠ [] → Tame path (cursor + c.text.length + 4 + (tail ++ spell rest).length)) ∧
      fatFindFrom v path fewer directory directory (cursor + c.text.length + 4) = some lookup) ∨
    lookup.parentClusterDir = directory := by
  have spelled := reads_append reads
  have sameEnd := (end_of_component c next rest cursor).1
  cases fuel with
  | zero => cases ran
  | succ fuel =>
    rw [fatFindFrom_component tree inside reads] at ran
    split at ran
    · cases ran
      exact absurd rfl found
    · rename_i index entry named
      split at ran
      · rename_i goesDown
        obtain ⟨known, deeper⟩ := (entryNamed_spec tree inside named).2 goesDown.2
        split at ran
        · grind [looksAhead_iff]
        · rename_i misled
          rw [looksAhead_iff spelled, not_not] at misled
          obtain ⟨tail, plain, few, landed, still⟩ := misled_reads spelled (sameEnd ▸ tame) misled
          exact Or.inr (Or.inl ⟨fuel, tail, plain, few, landed, still, ran⟩)
      · cases ran
        exact Or.inr (Or.inr rfl)

theorem componentBound_cons (below : ComponentBound v path directories depth rest) (beside : TailBound v path directories depth rest)
    (next : Component) : ComponentBound v path directories depth (next :: rest) := by
  intro c directory cursor inside reads tame fuel parent lookup ran found
  have tame := tame (List.cons_ne_nil _ _)
  have lastEnd := (end_of_component c next rest cursor).2
  rw [List.length_cons]
  rcases fatFindFrom_onward tree inside reads tame ran found with
    ⟨fewer, entered, known, deeper, -, ran⟩ | ⟨fewer, tail, plain, few, landed, still, ran⟩ | stopped
  · have bound := below next entered _ known (reads_append reads).2 (fun _ => lastEnd ▸ tame) fewer directory
      lookup ran found
    omega
  · have bound := beside tail directory _ inside plain few landed still fewer directory lookup ran found
    omega
  · rw [stopped]
    omega

theorem tailBound_of_components (here : ComponentBound v path directories depth rest)
    (below : ∀ next later, rest = next :: later → ComponentBound v path directories depth later) :
    TailBound v path directories depth rest := by
  intro tail
  induction tail with
  | nil =>
    intro directory cursor inside _ _ reads tame
    rw [List.nil_append] at reads tame
    cases rest with
    | nil => exact noDeeper_stop reads
    | cons next later =>
      refine noDeeper_skip tree inside (Or.inr reads.1) ?_
      intro fuel parent lookup ran found
      have sameEnd : cursor + 1 + ((next.text ++ spell later).length : Int) =
          cursor + ((spell (next :: later)).length : Int) := by
        grind [spell_cons]
      have bound := below next later rfl next directory (cursor + 1) inside reads.2
        (fun _ => sameEnd ▸ tame (List.cons_ne_nil _ _)) fuel parent lookup ran found
      rw [List.length_cons]
      omega
  | cons char tail ih =>
    intro directory cursor inside plain few reads tame
    by_cases space : char = 0x20
    · refine noDeeper_skip tree inside (Or.inl (reads.1.trans space)) ?_
      refine ih directory (cursor + 1) inside (fun other member => plain other (List.mem_cons_of_mem _ member))
        (by rw [List.length_cons] at few; omega) reads.2 fun nonempty => ?_
      grind
    · -- the rest of the extension is read as a name of its own
      let word : Component := ⟨char :: tail, [], Nat.succ_pos _, Nat.le_trans few (by decide), Nat.zero_le _,
        plain, nofun, fun first later same => by cases same; exact space⟩
      have text : word.text = char :: tail := List.append_nil _
      refine here word directory cursor inside ?_ ?_
      · rw [text]
        exact reads
      · rw [text]
        exact tame

theorem bounds (rest : List Component) :
    ComponentBound v path directories depth rest ∧ TailBound v path directories depth rest := by
  induction rest with
  | nil =>
    grind [componentBound_nil, tailBound_of_components]
  | cons next rest ih =>
    simp_all [componentBound_cons, tailBound_of_components]

theorem straight_of_deep (inside : directory ∈ directories) (reads : Reads path cursor (c.text ++ spell rest))
    (tame : rest ≠ [] → Tame path (cursor + (c.text ++ spell rest).length))
    (ran : fatFindFrom v path fuel parent directory cursor = some lookup) (found : lookup.found ≠ none)
    (deep : depth lookup.parentClusterDir = depth directory + rest.length) :
    Straight (path (cursor + (c.text ++ spell rest).length + 1) = 0x2e) rest := by
  induction rest generalizing c directory cursor fuel parent with
  | nil => trivial
  | cons next rest ih =>
    have tame := tame (List.cons_ne_nil _ _)
    have lastEnd := (end_of_component c next rest cursor).2
    rw [List.length_cons] at deep
    rcases fatFindFrom_onward tree inside reads tame ran found with
      ⟨fewer, entered, known, deeper, ahead, ran⟩ | ⟨fewer, tail, plain, few, landed, still, ran⟩ | stopped
    · have later := ih known (reads_append reads).2 (fun _ => lastEnd ▸ tame) ran (by omega)
      rw [lastEnd] at later
      exact ⟨ahead, later⟩
    · have bound := (bounds tree rest).2 tail directory _ inside plain few landed still fewer directory lookup
        ran found
      omega
    · rw [stopped] at deep
      omega

/-! ### Paths that do not mislead -/

theorem resolve_depth (inside : directory ∈ directories)
    (reached : resolve v directory (c :: rest) = some place) :
    depth place.directory = depth directory + rest.length := by
  induction rest generalizing c directory with
  | nil =>
    obtain ⟨_, -, rfl⟩ := Option.map_eq_some_iff.mp reached
    rfl
  | cons next rest ih =>
    grind [resolve, bind_returns, entryNamed_spec]

end

theorem resolve_throughFile (through : ThroughFile v directory path) : resolve v directory path = none := by
  induction path generalizing directory with
  | nil => cases through
  | cons c rest ih =>
    cases rest with
    | nil => cases through
    | cons next rest =>
      obtain ⟨index, entry, named, file | later⟩ := through
      · simp_all [resolve]
      · simp_all [resolve]

theorem misleads_mono {one other : Prop} (weaker : one → other) (misleads : Misleads one c rest) :
    Misleads other c rest :=
  misleads.imp_right fun ⟨last, beyond, bare⟩ => ⟨last, weaker beyond, bare⟩

theorem unmisled_of_straight (straight : Straight True rest) : Unmisled v directory (c :: rest) := by
  induction rest generalizing c directory with
  | nil => trivial
  | cons next rest ih => exact fun index entry _ _ => ⟨straight.1, ih straight.2⟩

theorem unmisled_lookup (tree : Tree v directories depth) (inside : directory ∈ directories)
    (reads : Reads path cursor (c.text ++ spell rest)) (unmisled : Unmisled v directory (c :: rest))
    (enough : rest.length < fuel) (parent : Nat) :
    ∃ lookup, fatFindFrom v path fuel parent directory cursor = some lookup ∧
      (¬ ThroughFile v directory (c :: rest) → Answers lookup (resolve v directory (c :: rest))) ∧
      (ThroughFile v directory (c :: rest) → lookup.ret ≠ notFound) := by
  induction rest generalizing c directory cursor fuel parent with
  | nil =>
    obtain ⟨fuel, rfl⟩ : ∃ less, fuel = less + 1 := ⟨fuel - 1, by omega⟩
    rw [fatFindFrom_component tree inside reads]
    cases named : entryNamed v directory c with
    | none => exact ⟨_, rfl, fun _ => by rw [resolve, named]; rfl, nofun⟩
    | some hit =>
      refine ⟨_, if_neg fun both => both.1 rfl, fun _ => ?_, nofun⟩
      rw [resolve, named]
      exact ⟨rfl, rfl, rfl⟩
  | cons next rest ih =>
    obtain ⟨fuel, rfl⟩ : ∃ less, fuel = less + 1 := ⟨fuel - 1, by omega⟩
    have spelled := reads_append reads
    rw [fatFindFrom_component tree inside reads]
    cases named : entryNamed v directory c with
    | none =>
      refine ⟨_, rfl, fun _ => ?_, fun ⟨_, _, other, _⟩ => ?_⟩
      · simp only [resolve, named, Option.bind_eq_bind, Option.bind_none]
        rfl
      · rw [named] at other
        cases other
    | some hit =>
      obtain ⟨index, entry⟩ := hit
      obtain ⟨small, goesDown⟩ := entryNamed_spec tree inside named
      cases isDirectory : entry.directory with
      | false =>
        have file : ThroughFile v directory (c :: next :: rest) := ⟨index, entry, named, Or.inl isDirectory⟩
        refine ⟨_, if_neg fun both => ?_, fun clean => absurd file clean, fun _ => ?_⟩
        · grind
        · grind [notFound]
      | true =>
        obtain ⟨known, -⟩ := goesDown isDirectory
        obtain ⟨straight, later⟩ := unmisled index entry named isDirectory
        have ahead := (looksAhead_iff spelled).mpr fun misled =>
          straight (misleads_mono (fun _ => trivial) misled)
        obtain ⟨lookup, ran, clean, through⟩ := ih known spelled.2 later
          (Nat.lt_of_succ_lt_succ enough) directory
        grind [ThroughFile, resolve]

theorem fatFind_slash (slash : path 0 = 0x2f) :
    fatFind v path = fatFindFrom v path (2 ^ 64 - 1) v.boot.rootCluster v.boot.rootCluster 1 := by
  change fatFindFrom v path ((2 ^ 64 - 1) + 1) 0 0 0 = _
  rw [fatFindFrom, if_neg (by decide)]
  simp only [orRoot, if_true, slash]
  rfl

/-- The string, with a dot behind its end and nothing after that. -/
def dotBehind (text : List (BitVec 8)) : Path := fun i =>
  if i = text.length + 1 then 0x2e else text.getD i.toNat 0

theorem reads_of_bytes {text : List (BitVec 8)} (bytes : ∀ i < text.length, path (cursor + i) = text.getD i 0)
    (stop : path (cursor + text.length) = 0) : Reads path cursor text := by
  induction text generalizing cursor with
  | nil => simpa [Reads] using stop
  | cons char text ih =>
    refine ⟨by simpa using bytes 0 (Nat.succ_pos _), ih (fun i inside => ?_) ?_⟩
    · have here := bytes (i + 1) (Nat.succ_lt_succ inside)
      grind
    · rw [List.length_cons] at stop
      grind

theorem dotBehind_reads (text : List (BitVec 8)) :
    Reads (dotBehind text) 0 text ∧ Tame (dotBehind text) text.length ∧
      dotBehind text (text.length + 1) = 0x2e := by
  have behind (k : Nat) (past : text.length ≤ k) (other : k ≠ text.length + 1) : dotBehind text k = 0 := by
    rw [dotBehind, if_neg (by omega), Int.toNat_natCast, List.getD_eq_default _ _ past]
  refine ⟨reads_of_bytes (fun i inside => ?_) ?_, fun _ => ?_, if_pos rfl⟩
  · rw [Int.zero_add, dotBehind, if_neg (by omega), Int.toNat_natCast]
  · simp_all
  · exact behind (text.length + 2) (by omega) (by omega)

theorem length_spell (path : List Component) : path.length ≤ (spell path).length := by
  induction path with
  | nil => exact Nat.le_refl 0
  | cons c rest ih =>
    grind [spell_cons]

/-- **Lookup is right on paths that do not mislead it.** On a volume with 8.3
names only, in upper case, for a path on which no component that is come to behind
the first has a dot in second or third place or is last with one character:
`fat_find` is right if and only if no component before the last names something that
is not a directory. For every path that stands for an entry it is right, whatever is
behind the string in memory, if and only if the path is of that form. -/
theorem fat_find_iff (tree : Tree v directories depth) (c : Component) (rest : List Component)
    (fits : (spell (c :: rest)).length < 2 ^ 64) :
    (Unmisled v v.boot.rootCluster (c :: rest) →
      (Resolves v (c :: rest) ↔ ¬ ThroughFile v v.boot.rootCluster (c :: rest))) ∧
    (resolve v v.boot.rootCluster (c :: rest) ≠ none →
      (Resolves v (c :: rest) ↔ Unmisled v v.boot.rootCluster (c :: rest))) := by
  have enough : rest.length < 2 ^ 64 - 1 := by
    have short := length_spell (c :: rest)
    rw [List.length_cons] at short
    omega
  obtain ⟨reads, tame, dot⟩ := dotBehind_reads (spell (c :: rest))
  have onUnmisled (unmisled : Unmisled v v.boot.rootCluster (c :: rest)) :
      Resolves v (c :: rest) ↔ ¬ ThroughFile v v.boot.rootCluster (c :: rest) := by
    constructor
    · intro finds through
      obtain ⟨lookup, ran, answers⟩ := finds _ reads
      obtain ⟨same, again, -, wrong⟩ := unmisled_lookup tree tree.root reads.2 unmisled enough _
      rw [fatFind_slash reads.1, show (1 : Int) = 0 + 1 from rfl, again] at ran
      cases ran
      rw [resolve_throughFile through] at answers
      exact wrong through answers
    · intro clean string spelled
      obtain ⟨lookup, ran, answers, -⟩ := unmisled_lookup tree tree.root spelled.2 unmisled enough _
      exact ⟨lookup, (fatFind_slash spelled.1).trans ran, answers clean⟩
  refine ⟨onUnmisled, fun stands => ⟨fun finds => ?_, fun unmisled => (onUnmisled unmisled).mpr ?_⟩⟩
  · obtain ⟨place, reached⟩ := Option.ne_none_iff_exists'.mp stands
    obtain ⟨lookup, ran, answers⟩ := finds _ reads
    rw [reached] at answers
    obtain ⟨-, directory, found⟩ := answers
    have length : (0 : Int) + 1 + ((c.text ++ spell rest).length : Int) = (spell (c :: rest)).length := by
      rw [spell_cons, List.length_cons]
      push_cast
      omega
    rw [fatFind_slash reads.1] at ran
    have straight := straight_of_deep tree tree.root reads.2 (fun _ => length ▸ tame) ran
      (by rw [found]; exact Option.some_ne_none _) (directory ▸ resolve_depth tree tree.root reached)
    rw [length, eq_true dot] at straight
    exact unmisled_of_straight straight
  · exact fun through => stands (resolve_throughFile through)

end

/-! ### A volume with a subdirectory -/

/-- The first bytes of a directory entry; the others are zero. -/
def shortEntry (name : List (BitVec 8)) (flags cluster : BitVec 8) : List (BitVec 8) :=
  name ++ flags :: (List.replicate 14 0 ++ [cluster])

/-- `/A` is a directory, in cluster 3, with the files `B.C` and `FILE.TXT`. -/
def twoLevels : Volume := ⟨⟨1, 1, 1, 1, 2⟩, fun adr =>
  if adr < 520 then 0
  else if adr < 528 then [0xf8, 0xff, 0xff, 0x0f].getD (adr % 4) 0
  else if adr < 1024 then 0
  else if adr < 1536 then (shortEntry (0x41 :: List.replicate 10 0x20) 0x10 3).getD (adr - 1024) 0
  else if adr < 1568 then
    (shortEntry (0x42 :: List.replicate 7 0x20 ++ [0x43, 0x20, 0x20]) 0 4).getD (adr - 1536) 0
  else if adr < 1600 then (shortEntry
    ([0x46, 0x49, 0x4c, 0x45] ++ List.replicate 4 0x20 ++ [0x54, 0x58, 0x54]) 0 5).getD (adr - 1568) 0
  else 0⟩

theorem twoLevels_read (member : directory ∈ [2, 3]) : readDirectory twoLevels directory =
    some (gather 512 twoLevels.disk (fun _ => 0) 0 [512 * directory], 16) := by
  simp only [List.mem_cons, List.not_mem_nil, or_false] at member
  rcases member with rfl | rfl
  · have walked : chain twoLevels 2 = some [2] := by decide +kernel
    rw [readDirectory_eq, walked]
    rfl
  · have walked : chain twoLevels 3 = some [3] := by decide +kernel
    rw [readDirectory_eq, walked]
    rfl

theorem twoLevels_tree : Tree twoLevels [2, 3] fun directory => directory - 2 where
  root := List.mem_cons_self
  valid := by decide
  readable directory member := by
    simp_all [twoLevels_read]
  plain directory member buffer size read := by
    rw [twoLevels_read member] at read
    cases read
    revert directory
    decide +kernel
  below directory member buffer size read := by
    rw [twoLevels_read member] at read
    cases read
    revert directory
    set_option synthInstance.maxSize 1000 in
    decide +kernel

def wordA : Component :=
  ⟨[0x61], [], by decide, by decide, by decide, by decide, by decide, by rintro _ _ ⟨⟩; decide⟩

def wordBC : Component :=
  ⟨[0x62], [0x63], by decide, by decide, by decide, by decide, by decide, by rintro _ _ ⟨⟩; decide⟩

def wordFile : Component :=
  ⟨[0x66, 0x69, 0x6c, 0x65], [0x74, 0x78, 0x74], by decide, by decide, by decide, by decide, by decide,
    by rintro _ _ ⟨⟩; decide⟩

theorem file_in_directory_found : resolve twoLevels 2 [wordA, wordFile] ≠ none ∧
    Resolves twoLevels [wordA, wordFile] := by
  have stands : (resolve twoLevels 2 [wordA, wordFile]).isSome = true := by decide +kernel
  have standing := Option.isSome_iff_ne_none.mp stands
  refine ⟨standing, ((fat_find_iff twoLevels_tree wordA [wordFile] (by decide)).2 standing).mpr ?_⟩
  exact unmisled_of_straight ⟨by simp [Misleads, wordFile], trivial⟩

/-- `/a/b.c` is there, in cluster 4, and the root directory is returned for it. -/
theorem short_name_misleads : ∃ string lookup, Reads string 0 (spell [wordA, wordBC]) ∧
    fatFind twoLevels string = some lookup ∧ lookup.ret = 2 ∧
    (resolve twoLevels 2 [wordA, wordBC]).map (·.entry.clusterNo) = some 4 ∧
    ¬ Resolves twoLevels [wordA, wordBC] := by
  obtain ⟨reads, -⟩ := dotBehind_reads (spell [wordA, wordBC])
  have ran : (fatFind twoLevels (dotBehind (spell [wordA, wordBC]))).map (·.ret) = some 2 := by decide +kernel
  have stands : (resolve twoLevels 2 [wordA, wordBC]).map (·.entry.clusterNo) = some 4 := by decide +kernel
  obtain ⟨lookup, found, root⟩ := Option.map_eq_some_iff.mp ran
  refine ⟨_, lookup, reads, found, root, stands, fun finds => ?_⟩
  obtain ⟨same, again, answers⟩ := finds _ reads
  rw [found] at again
  cases again
  obtain ⟨place, reached, four⟩ := Option.map_eq_some_iff.mp stands
  rw [show twoLevels.boot.rootCluster = 2 from rfl, reached] at answers
  have ret := answers.1
  omega

end MandelbrotOS.FatPaths
