import MandelbrotOS.Fat

/-! Path lookup and opening on a FAT volume: `fat_find` and `fat_open` of
`fs/fat32.c`. A path is the memory its pointer points into, so that what the
code reads before the start of the string or behind its end is there too. The
heap leaves the bytes of what was freed, some of which is read again. -/
namespace MandelbrotOS.FatLookup
open ByteMemory Fat Runs

abbrev Path := Int → BitVec 8

/-- The value returned for a path that is not found. -/
def notFound : Nat := 0xfffffff

/-- `*path - 'a' + 'A'` for the letters `a` to `z`. -/
def upperCase (char : BitVec 8) : BitVec 8 := if 0x61 ≤ char ∧ char ≤ 0x7a then char - 0x20 else char

/-- The loop that makes the short name of a component. It ends at a slash, at
the end of the string, or when the eleven bytes are full. -/
def shortName (path : Path) : Nat → Int → Nat → Memory → Option (Int × Nat × Memory)
  | 0, _, _, _ => none
  | turns + 1, cursor, pos, name =>
    if path cursor = 0 ∨ pos = 11 ∨ path cursor = 0x2f then some (cursor, pos, name)
    else if path cursor = 0x2e then
      shortName path turns (cursor + 1) (if pos < 8 then 8 else pos) name
    else
      shortName path turns (cursor + 1) (pos + 1) (Function.update name pos (upperCase (path cursor)))

/-- The loop that copies a component for comparison with a long name; `pos` is
a byte. -/
def component (path : Path) : Nat → Int → Nat → Memory → Option (Int × Nat × Memory)
  | 0, _, _, _ => none
  | turns + 1, cursor, pos, name =>
    if path cursor = 0 ∨ path cursor = 0x2f then some (cursor, pos, Function.update name pos 0)
    else component path turns (cursor + 1) ((pos + 1) % 256) (Function.update name pos (path cursor))

/-- The number of entries a long name takes from the `i`th on: up to the one
numbered 1. Entries behind the buffer are not looked at. -/
def longCount (buffer : Memory) (size i : Nat) : Nat → Nat → Option Nat
  | 0, _ => none
  | turns + 1, count =>
    if i + count < size then
      let flags := entryOf buffer (i + count) 0
      if flags ≠ 0x1 ∧ flags ≠ 0x41 then longCount buffer size i turns (count + 1) else some (count + 1)
    else none

/-- The `k`th character of a long name, the last entry holding the first
thirteen. -/
def longName (buffer : Memory) (i count k : Nat) : BitVec 8 :=
  let entry := entryOf buffer (i + count - 1 - k / 13)
  let x := k % 13
  if x < 5 then entry (1 + 2 * x) else if x < 11 then entry (14 + 2 * (x - 5)) else entry (28 + 2 * (x - 11))

/-- `!strncmp(s1, s2, n)` of the kernel, which does not stop at a zero. -/
def sameBytes (one other : Memory) (n : Nat) : Bool := (List.range n).all fun k => one k == other k

/-- An entry that matched, and where in the path the match ended. -/
structure Match where
  index : Nat
  entry : DirEntry
  cursor : Int

/-- The loop over the entries of a directory. After a long name that does not match
`short_name` is freed, and compared with and freed again all the same; here its bytes
stay. -/
def scan (path : Path) (name buffer : Memory) (size : Nat) :
    Nat → Nat → Int → Nat → Option (Option Match)
  | 0, _, _, _ => some none
  | turns + 1, i, cursor, pos =>
    if i < size then
      let entry := entryOf buffer i
      if entry 0 = 0 ∨ entry 0 = 0xe5 then scan path name buffer size turns (i + 1) cursor pos
      else if entry 11 = 0xf then do
        let count ← longCount buffer size i size 0
        let (cursor, pos, pathName) ← component path (2 ^ 64) (cursor - pos) 0 fun _ => 0xff
        if sameBytes pathName (longName buffer i count) (count * 13) then
          if i + count < size then some (some ⟨i + count, entryOf buffer (i + count), cursor⟩) else none
        else scan path name buffer size turns (i + count) cursor pos
      else if sameBytes name entry 11 then some (some ⟨i, entry, cursor⟩)
      else scan path name buffer size turns (i + 1) cursor pos
    else some none

/-- What `fat_find` returns and stores through its pointers: the directory, and
the entry and its index when there is one. -/
structure Lookup where
  ret : Nat
  parentClusterDir : Nat
  found : Option (DirEntry × Nat)

/-- `fat_find`, down to so many nested calls. `parent` is what
`parent_cluster_dir` points to at the call. -/
def fatFindFrom (v : Volume) (path : Path) : Nat → Nat → Nat → Int → Option Lookup
  | 0, _, _, _ => none
  | depth + 1, parent, directory, cursor =>
    if directory ≥ 0xffffff7 then some ⟨notFound, parent, none⟩
    else
      let directory := orRoot v.boot directory
      if path cursor = 0 then some ⟨directory, directory, none⟩
      else if path cursor = 0x20 ∨ path cursor = 0x2f then
        fatFindFrom v path depth directory directory (cursor + 1)
      else do
        let start := if path cursor = 0x2e then cursor + 2 else cursor
        let (cursor, pos, name) ← shortName path (2 ^ 64) start 0 fun _ => 0x20
        let (buffer, size) ← readDirectory v directory
        match ← scan path name buffer size size 0 cursor pos with
        | none => some ⟨notFound, directory, none⟩
        | some ⟨index, entry, cursor⟩ =>
          if path cursor = 0x2f ∧ entry.directory then
            if path (cursor + 2) ≠ 0x2e ∧ path (cursor + 3) ≠ 0x2e then
              fatFindFrom v path depth directory entry.clusterNo (cursor + 1)
            else fatFindFrom v path depth directory directory (cursor + 4)
          else some ⟨entry.clusterNo, directory, some (entry, index)⟩

/-- `fat_find(dev, 0, ...)`, as for an absolute path. -/
def fatFind (v : Volume) (path : Path) : Option Lookup := fatFindFrom v path (2 ^ 64) 0 0 0

/-- `fat_file_private_info_t`. -/
structure Handle where
  dir : DirEntry
  index : Nat
  cluster : Nat
  parentCluster : Nat

/-- `fat_open`. A lookup that ends at a directory without an entry of its own
leaves the handle's entry unset. -/
def fatOpen (v : Volume) (path : Path) : Option (Option Handle) := do
  let lookup ← fatFind v path
  if lookup.ret = notFound then some none
  else
    let (dir, index) ← lookup.found
    some (some ⟨dir, index, lookup.ret, lookup.parentClusterDir⟩)

/-! ### What a lookup finds -/

theorem scan_found (ran : scan path name buffer size turns i cursor pos = some (some found)) :
    found.index < size ∧ found.entry = entryOf buffer found.index := by
  induction turns generalizing i cursor pos with
  | zero => cases ran
  | succ turns ih =>
    grind [scan, bind_returns]

theorem fatFindFrom_found (ran : fatFindFrom v path depth parent directory cursor = some lookup)
    (found : lookup.found = some (entry, index)) :
    ∃ buffer size, readDirectory v lookup.parentClusterDir = some (buffer, size) ∧ index < size ∧
      entry = entryOf buffer index := by
  induction depth generalizing parent directory cursor with
  | zero => cases ran
  | succ depth ih =>
    rw [fatFindFrom] at ran
    split at ran
    · cases ran
      cases found
    · dsimp only at ran
      split at ran
      · cases ran
        cases found
      · split at ran
        · exact ih ran
        · simp only [bind_returns, Prod.exists] at ran
          obtain ⟨cursor, pos, name, _, buffer, size, read, result, scanned, ran⟩ := ran
          split at ran
          · cases ran
            cases found
          · split at ran
            · grind
            · cases ran
              cases found
              obtain ⟨inside, same⟩ := scan_found scanned
              exact ⟨buffer, size, read, inside, same⟩

end MandelbrotOS.FatLookup
