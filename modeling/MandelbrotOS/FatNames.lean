import MandelbrotOS.FatCreate
import MandelbrotOS.FatPaths

/-! The names that `fat_create` and `fat_mkdir` store and the name that `fat_find`
looks for, and how a lookup comes to the directory of a path. -/
namespace MandelbrotOS.FatNames
open ByteMemory Fat FatChains FatCreate FatLookup FatPaths Runs

/-! ### Names -/

/-- The last component of a path. A lookup skips a blank at the start, and two
characters for a dot. -/
structure FileName where
  chars : List (BitVec 8)
  plain : ∀ char ∈ chars, char ≠ 0 ∧ char ≠ 0x2f
  starts : ∃ first rest, chars = first :: rest ∧ first ≠ 0x20 ∧ first ≠ 0x2e
  fits : chars.length ≤ 255

/-- The eleven bytes before anything is put in. -/
def blank : Memory := fun _ => 0x20

/-- The loops that make a short name, on the characters themselves: how many
are taken, where in the name they end and the name. -/
def encoding (dots tilde : Bool) : List (BitVec 8) → Nat → Memory → Nat × Nat × Memory
  | [], pos, name => (0, pos, name)
  | char :: rest, pos, name =>
    if pos = 11 then (0, pos, name)
    else
      let name := if tilde ∧ pos > 6 then Function.update (Function.update name 6 0x7e) 7 0x30 else name
      let done := if dots ∧ char = 0x2e then encoding dots tilde rest (if pos < 8 then 8 else pos) name
        else encoding dots tilde rest (pos + 1) (Function.update name pos (upperCase char))
      (done.1 + 1, done.2)

/-- The name a lookup compares with. -/
def FileName.sought (name : FileName) : Memory := (encoding true false name.chars 0 blank).2.2

/-- More than eleven characters that are no dots. -/
def FileName.long (name : FileName) : Bool := 11 < (name.chars.filter (· != 0x2e)).length

theorem encodeName_reads {chars : List (BitVec 8)} (reads : Reads path cursor chars)
    (nonzero : ∀ char ∈ chars, char ≠ 0) (enough : chars.length < turns) (dots tilde : Bool) (pos : Nat)
    (name : Memory) :
    encodeName dots tilde path turns cursor pos name =
      some (cursor + (encoding dots tilde chars pos name).1, (encoding dots tilde chars pos name).2) := by
  induction chars generalizing cursor turns pos name with
  | nil =>
    obtain ⟨turns, rfl⟩ : ∃ fewer, turns = fewer + 1 := ⟨turns - 1, by omega⟩
    have stop : path cursor = 0 := reads
    rw [encodeName, if_pos (Or.inl stop)]
    exact congrArg (fun place => some (place, pos, name)) (Int.add_zero cursor).symm
  | cons char rest ih =>
    obtain ⟨here, later⟩ := reads
    obtain ⟨turns, rfl⟩ : ∃ fewer, turns = fewer + 1 := ⟨turns - 1, by omega⟩
    have some : char ≠ 0 := nonzero char List.mem_cons_self
    have onward (pos : Nat) (name : Memory) := ih later (fun c member => nonzero c (List.mem_cons_of_mem _ member))
      (Nat.lt_of_succ_lt_succ enough) pos name
    rw [encodeName, encoding, here]
    grind

theorem shortName_reads {chars : List (BitVec 8)} (reads : Reads path cursor chars)
    (plain : ∀ char ∈ chars, char ≠ 0 ∧ char ≠ 0x2f) (enough : chars.length < turns) (pos : Nat)
    (name : Memory) :
    shortName path turns cursor pos name =
      some (cursor + (encoding true false chars pos name).1, (encoding true false chars pos name).2) := by
  rw [← encodeName_reads reads (fun char member => (plain char member).1) enough]
  induction chars generalizing cursor turns pos name with
  | nil =>
    obtain ⟨turns, rfl⟩ : ∃ fewer, turns = fewer + 1 := ⟨turns - 1, by omega⟩
    have stop : path cursor = 0 := reads
    simp_all [encodeName, shortName]
  | cons char rest ih =>
    obtain ⟨here, later⟩ := reads
    obtain ⟨turns, rfl⟩ : ∃ fewer, turns = fewer + 1 := ⟨turns - 1, by omega⟩
    simp_all [encodeName, shortName]

theorem isLongFilename_reads {chars : List (BitVec 8)} (reads : Reads path cursor chars)
    (nonzero : ∀ char ∈ chars, char ≠ 0) (enough : chars.length < turns) (few : count ≤ 11) :
    isLongFilename path turns cursor count =
      some (decide (11 < count + (chars.filter (· != 0x2e)).length)) := by
  induction chars generalizing cursor turns count with
  | nil =>
    obtain ⟨turns, rfl⟩ : ∃ fewer, turns = fewer + 1 := ⟨turns - 1, by omega⟩
    have stop : path cursor = 0 := reads
    simp_all [isLongFilename]
  | cons char rest ih =>
    obtain ⟨here, later⟩ := reads
    obtain ⟨turns, rfl⟩ : ∃ fewer, turns = fewer + 1 := ⟨turns - 1, by omega⟩
    have onward {count : Nat} (few : count ≤ 11) := ih later
      (fun c member => nonzero c (List.mem_cons_of_mem _ member)) (Nat.lt_of_succ_lt_succ enough) few
    rw [isLongFilename, here, if_neg (nonzero char List.mem_cons_self)]
    by_cases dot : char = 0x2e
    · simp_all
    · have counted : ((char :: rest).filter (· != 0x2e)).length = (rest.filter (· != 0x2e)).length + 1 :=
        congrArg List.length (List.filter_cons_of_pos (p := (· != 0x2e)) (bne_iff_ne.mpr dot))
      rw [if_neg dot, counted]
      split
      · rw [decide_eq_true (by omega)]
      · grind

theorem strlen_reads {chars : List (BitVec 8)} (reads : Reads path cursor chars)
    (nonzero : ∀ char ∈ chars, char ≠ 0) (enough : chars.length < turns) :
    strlen path turns cursor = some chars.length := by
  induction chars generalizing cursor turns with
  | nil =>
    obtain ⟨turns, rfl⟩ : ∃ fewer, turns = fewer + 1 := ⟨turns - 1, by omega⟩
    exact if_pos reads
  | cons char rest ih =>
    obtain ⟨here, later⟩ := reads
    obtain ⟨turns, rfl⟩ : ∃ fewer, turns = fewer + 1 := ⟨turns - 1, by omega⟩
    simp_all [strlen]

theorem strrchr_none {chars : List (BitVec 8)} (reads : Reads path cursor chars)
    (plain : ∀ char ∈ chars, char ≠ 0 ∧ char ≠ 0x2f) (enough : chars.length < turns) (last : Option Int) :
    strrchr path 0x2f turns cursor last = some last := by
  induction chars generalizing cursor turns with
  | nil =>
    obtain ⟨turns, rfl⟩ : ∃ fewer, turns = fewer + 1 := ⟨turns - 1, by omega⟩
    exact if_pos reads
  | cons char rest ih =>
    obtain ⟨here, later⟩ := reads
    obtain ⟨turns, rfl⟩ : ∃ fewer, turns = fewer + 1 := ⟨turns - 1, by omega⟩
    simp_all [strrchr]

theorem strrchr_reads {before chars : List (BitVec 8)} (reads : Reads path cursor (before ++ 0x2f :: chars))
    (nonzero : ∀ char ∈ before, char ≠ 0) (plain : ∀ char ∈ chars, char ≠ 0 ∧ char ≠ 0x2f)
    (enough : (before ++ 0x2f :: chars).length < turns) (last : Option Int) :
    strrchr path 0x2f turns cursor last = some (some (cursor + before.length)) := by
  induction before generalizing cursor turns last with
  | nil =>
    obtain ⟨slash, later⟩ := reads
    obtain ⟨turns, rfl⟩ : ∃ fewer, turns = fewer + 1 := ⟨turns - 1, by omega⟩
    rw [strrchr, slash, if_neg (by decide), if_pos rfl, strrchr_none later plain (Nat.lt_of_succ_lt_succ enough)]
    simp
  | cons char before ih =>
    obtain ⟨here, later⟩ := reads
    obtain ⟨turns, rfl⟩ : ∃ fewer, turns = fewer + 1 := ⟨turns - 1, by omega⟩
    rw [strrchr, here, if_neg (nonzero char List.mem_cons_self),
      ih later (fun c member => nonzero c (List.mem_cons_of_mem _ member)) (Nat.lt_of_succ_lt_succ enough)]
    grind

/-! ### What is in a short name -/

theorem encoding_below (dots : Bool) (chars : List (BitVec 8)) (name : Memory) (below : k < pos)
    (kept : tilde = false ∨ k < 6) : (encoding dots tilde chars pos name).2.2 k = name k := by
  induction chars generalizing pos name with
  | nil => rfl
  | cons char rest ih =>
    rw [encoding]
    split
    · rfl
    · grind

theorem encoding_first (tilde dots : Bool) (rest : List (BitVec 8)) (notDot : first ≠ 0x2e) :
    (encoding dots tilde (first :: rest) 0 blank).2.2 0 = upperCase first := by
  simp_all [encoding, encoding_below]

theorem encoding_all {p : BitVec 8 → Prop} (sign : p 0x7e ∧ p 0x30) (chars : List (BitVec 8))
    (each : ∀ char ∈ chars, (dots = true → char ≠ 0x2e) → p (upperCase char)) (name : Memory)
    (start : ∀ k, p (name k)) (k : Nat) : p ((encoding dots tilde chars pos name).2.2 k) := by
  induction chars generalizing pos name with
  | nil => exact start k
  | cons char rest ih =>
    have onward {pos : Nat} := @ih pos fun c member => each c (List.mem_cons_of_mem _ member)
    rw [encoding]
    split
    · exact start k
    · grind

theorem encoding_noDot (chars : List (BitVec 8)) (name : Memory) (none : ∀ k, name k ≠ 0x2e) (k : Nat) :
    (encoding true tilde chars pos name).2.2 k ≠ 0x2e :=
  encoding_all (p := (· ≠ 0x2e)) (by decide) chars
    (fun char _ notDot dot => notDot rfl (upperCase_dot char dot)) name none k

theorem encoding_eq {chars : List (BitVec 8)} (within : pos ≤ 11)
    (noDot : ∀ char ∈ chars.take (11 - pos), char ≠ 0x2e) (tilde : Bool) (name : Memory) :
    encoding false tilde chars pos name = encoding true tilde chars pos name := by
  induction chars generalizing pos name with
  | nil => rfl
  | cons char rest ih =>
    rw [encoding, encoding]
    split
    · rfl
    · rename_i left
      rw [show 11 - pos = (11 - (pos + 1)) + 1 by omega, List.take_succ_cons] at noDot
      grind

theorem encoding_dot {chars : List (BitVec 8)} (within : pos ≤ 11)
    (dot : ∃ char ∈ chars.take (11 - pos), char = 0x2e) (name : Memory) :
    ∃ k < 11, (encoding false false chars pos name).2.2 k = 0x2e := by
  induction chars generalizing pos name with
  | nil =>
    simp_all
  | cons char rest ih =>
    rw [encoding]
    split
    · simp_all
    · rename_i left
      rw [show 11 - pos = (11 - (pos + 1)) + 1 by omega, List.take_succ_cons] at dot
      obtain ⟨_, member, rfl⟩ := dot
      simp only [Bool.false_eq_true, false_and, if_false]
      obtain rfl | later := List.mem_cons.mp member
      · refine ⟨pos, by omega, ?_⟩
        rw [encoding_below false rest _ (Nat.lt_succ_self pos) (Or.inl rfl), Function.update_self]
        decide
      · exact ih (by omega) ⟨_, later, rfl⟩ _

theorem upperCase_zero : ∀ char : BitVec 8, upperCase char = 0 → char = 0 := by decide

theorem upperCase_deleted : ∀ char : BitVec 8, upperCase char = 0xe5 ↔ char = 0xe5 := by decide

/-! ### Going to the directory -/

/-- The directory that is come to by following the components. -/
def enter (v : Volume) : Nat → List Component → Option Nat
  | directory, [] => some directory
  | directory, c :: rest => do
    let (_, entry) ← entryNamed v directory c
    if entry.directory then enter v entry.clusterNo rest else none

/-- No dot is where a lookup takes it for one of `..`: two and three behind each
slash, where the second may be behind the end of the string. -/
def Direct : List Component → List (BitVec 8) → Prop
  | [], _ => True
  | _ :: rest, chars =>
    ((spell rest ++ 0x2f :: chars).getD 2 0 ≠ 0x2e ∧ (spell rest ++ 0x2f :: chars).getD 3 0 ≠ 0x2e ∧
      3 ≤ (spell rest ++ 0x2f :: chars).length) ∧ Direct rest chars

theorem reads_getD {text : List (BitVec 8)} (reads : Reads path cursor text) (inside : k ≤ text.length) :
    path (cursor + k) = text.getD k 0 := by
  induction text generalizing cursor k with
  | nil =>
    obtain rfl : k = 0 := Nat.le_zero.mp inside
    exact (congrArg path (Int.add_zero cursor)).trans reads
  | cons char rest ih =>
    cases k with
    | zero => exact (congrArg path (Int.add_zero cursor)).trans reads.1
    | succ k =>
      rw [List.getD_cons_succ, ← ih reads.2 (Nat.le_of_succ_le_succ inside)]
      congr 1
      push_cast
      omega

theorem spell_slash (rest : List Component) (chars : List (BitVec 8)) :
    ∃ tail, spell rest ++ 0x2f :: chars = 0x2f :: tail := by
  cases rest with
  | nil => exact ⟨chars, rfl⟩
  | cons c rest => exact ⟨_, rfl⟩

section
variable {v v' : Volume} {directories : List Nat} {depth : Nat → Nat} {parents : List Component}

theorem enter_depth (tree : Tree v directories depth) (inside : directory ∈ directories)
    (entered : enter v directory parents = some parent) :
    parent ∈ directories ∧ depth parent = depth directory + parents.length := by
  induction parents generalizing directory with
  | nil =>
    cases entered
    exact ⟨inside, rfl⟩
  | cons c rest ih =>
    grind [enter, bind_returns, entryNamed_spec]

theorem descends (tree : Tree v directories depth) (inside : directory ∈ directories)
    (entered : enter v directory parents = some parent)
    (same : ∀ d ∈ directories, d ≠ parent → readDirectory v' d = readDirectory v d)
    (reads : Reads path cursor (spell parents ++ 0x2f :: chars)) (direct : Direct parents chars)
    (fuel before : Nat) : ∃ before', fatFindFrom v' path (fuel + parents.length) before directory (cursor + 1) =
      fatFindFrom v' path fuel before' parent (cursor + (spell parents).length + 1) := by
  induction parents generalizing directory cursor before with
  | nil =>
    cases entered
    exact ⟨before, by rw [show cursor + ((spell []).length : Int) = cursor from Int.add_zero cursor]; rfl⟩
  | cons c rest ih =>
    have lower := (enter_depth tree inside entered).2
    have other : directory ≠ parent := by
      grind
    simp only [enter, bind_returns, Prod.exists] at entered
    obtain ⟨index, entry, found, entered⟩ := entered
    split at entered
    case isFalse => cases entered
    case isTrue isDirectory =>
      have below := ((entryNamed_spec tree inside found).2 isDirectory).1
      have read := same directory inside other
      have legible : Legible v' directory := by
        obtain ⟨valid, readable, plain⟩ := tree.legible inside
        rw [← read] at readable
        exact ⟨valid, readable, fun buffer size => read ▸ plain buffer size⟩
      have found' : entryNamed v' directory c = some (index, entry) := by
        rw [← found, entryNamed, entryNamed, read]
      rw [spell_cons, List.cons_append, List.append_assoc] at reads
      have next := reads_append reads.2
      obtain ⟨tail, slash⟩ := spell_slash rest chars
      obtain ⟨⟨second, third, long⟩, onward⟩ := direct
      have here : path (cursor + 1 + c.text.length) = 0x2f := by
        rw [slash] at next
        exact next.1
      rw [List.length_cons, ← Nat.add_assoc, fatFindFrom_text legible reads.2 (Or.inr here), found']
      dsimp only
      have ahead : path (cursor + 1 + c.text.length + 2) ≠ 0x2e ∧
          path (cursor + 1 + c.text.length + 3) ≠ 0x2e := by
        grind [reads_getD]
      rw [if_pos ⟨here, isDirectory⟩, if_pos ahead]
      obtain ⟨before', ran⟩ := ih below entered next onward directory
      refine ⟨before', ran.trans ?_⟩
      grind [spell_cons]

/-- A path on a volume: the components before the last lead to a directory, and
no dot in it leads astray. -/
structure Site (v : Volume) (path : Path) (parents : List Component) (name : FileName) (parent : Nat) : Prop where
  entered : enter v v.boot.rootCluster parents = some parent
  reads : Reads path 0 (spell parents ++ 0x2f :: name.chars)
  direct : Direct parents name.chars
  fits : (spell parents ++ 0x2f :: name.chars).length < 2 ^ 64

theorem Site.fatFind (site : Site v path parents name parent) (tree : Tree v directories depth)
    (boot : v'.boot = v.boot)
    (same : ∀ d ∈ directories, d ≠ parent → readDirectory v' d = readDirectory v d) :
    ∃ fuel before, fatFind v' path =
      fatFindFrom v' path (fuel + 1) before parent ((spell parents).length + 1) := by
  obtain ⟨tail, slash⟩ := spell_slash parents name.chars
  have reads := site.reads
  have first : path 0 = 0x2f := by
    rw [slash] at reads
    exact reads.1
  have fits := site.fits
  have length := length_spell parents
  rw [List.length_append, List.length_cons] at fits
  obtain ⟨before, ran⟩ := descends tree tree.root site.entered same reads site.direct
    (2 ^ 64 - 2 - parents.length + 1) v.boot.rootCluster
  refine ⟨2 ^ 64 - 2 - parents.length, before, ?_⟩
  rw [fatFind_slash first, boot, show 2 ^ 64 - 1 = 2 ^ 64 - 2 - parents.length + 1 + parents.length by omega]
  rw [Int.zero_add, Int.zero_add] at ran
  exact ran

theorem Site.name_reads (site : Site v path parents name parent) :
    Reads path ((spell parents).length + 1) name.chars := by
  have reads := (reads_append site.reads).2
  rwa [Int.zero_add] at reads

end

theorem encoding_taken (dots tilde : Bool) (chars : List (BitVec 8)) (pos : Nat) (name : Memory) :
    (encoding dots tilde chars pos name).1 ≤ chars.length := by
  induction chars generalizing pos name with
  | nil => exact Nat.le_refl 0
  | cons char rest ih =>
    rw [encoding]
    grind

theorem reads_noSlash {chars : List (BitVec 8)} (reads : Reads path cursor chars)
    (plain : ∀ char ∈ chars, char ≠ 0 ∧ char ≠ 0x2f) (inside : k ≤ chars.length) : path (cursor + k) ≠ 0x2f := by
  rw [reads_getD reads inside]
  grind

/-- What is returned for the last component, by what was found in the directory. -/
def answer (directory : Nat) : Option Match → Lookup
  | none => ⟨notFound, directory, none⟩
  | some found => ⟨found.entry.clusterNo, directory, some (found.entry, found.index)⟩

section
variable (valid : 2 ≤ directory ∧ directory < 0xffffff7)
  (read : readDirectory v directory = some (buffer, size)) (name : FileName)
  (reads : Reads path cursor name.chars)
include valid read name reads

theorem fatFindFrom_name (scanned : scan path name.sought buffer size size 0 (cursor + (encoding true false name.chars 0 blank).1)
      (encoding true false name.chars 0 blank).2.1 = some result)
    (stop : ∀ found, result = some found → path found.cursor ≠ 0x2f) (fuel before : Nat) :
    fatFindFrom v path (fuel + 1) before directory cursor = some (answer directory result) := by
  obtain ⟨first, rest, shape, notSpace, notDot⟩ := name.starts
  have fits := name.fits
  have made := shortName_reads reads name.plain (show name.chars.length < 2 ^ 64 by omega) 0 blank
  have here : path cursor = first := by
    rw [shape] at reads
    exact reads.1
  obtain ⟨notEnd, notSlash⟩ := name.plain first (by rw [shape]; exact List.mem_cons_self)
  have start : ¬ (first = 0x20 ∨ first = 0x2f) := by
    simp_all
  rw [fatFindFrom, if_neg (by omega)]
  simp only [orRoot, if_neg (show directory ≠ 0 by omega), here, notEnd, start, notDot, if_false]
  rw [show (fun _ => 0x20) = blank from rfl, made]
  simp only [read, bind_returned]
  rw [show (encoding true false name.chars 0 blank).2.2 = name.sought from rfl, scanned]
  cases result with
  | none => rfl
  | some found =>
    obtain ⟨index, entry, place⟩ := found
    dsimp only [bind_returned]
    rw [if_neg (fun both => stop _ rfl both.1)]
    rfl

/-- An entry that a lookup takes for the name. -/
def bears (name : FileName) (entry : DirEntry) : Bool := live entry && sameBytes name.sought entry 11

theorem fatFindFrom_plain (plain : ∀ i < size, live (entryOf buffer i) = true → entryOf buffer i 11 ≠ 0xf) (fuel before : Nat) :
    fatFindFrom v path (fuel + 1) before directory cursor = some (answer directory
      (((List.range size).find? fun j => bears name (entryOf buffer j)).map fun j =>
        ⟨j, entryOf buffer j, cursor + (encoding true false name.chars 0 blank).1⟩)) := by
  rw [List.range_eq_range']
  refine fatFindFrom_name valid read name reads (scan_plain plain (Nat.zero_add size)) ?_ fuel before
  intro found matched
  obtain ⟨index, -, rfl⟩ := Option.map_eq_some_iff.mp matched
  exact reads_noSlash reads name.plain (encoding_taken _ _ _ _ _)

end

end MandelbrotOS.FatNames
