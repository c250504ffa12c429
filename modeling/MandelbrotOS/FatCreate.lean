import MandelbrotOS.FatAlloc

/-! Making files and directories on a FAT volume: `fat_create` and `fat_mkdir` of
`fs/fat32.c`. The entry that is free in the directory is found by its index, and
the index is then used as the number of a cluster: the table has its entry of
that number marked as the end of a chain. -/
namespace MandelbrotOS.FatCreate
open ByteMemory Fat FatAlloc FatFiles FatLookup

/-! ### Strings -/

/-- `strrchr`: the last place of a character in a string. -/
def strrchr (path : Path) (char : BitVec 8) : Nat → Int → Option Int → Option (Option Int)
  | 0, _, _ => none
  | turns + 1, cursor, last =>
    if path cursor = 0 then some last
    else strrchr path char turns (cursor + 1) (if path cursor = char then some cursor else last)

def strlen (path : Path) : Nat → Int → Option Nat
  | 0, _ => none
  | turns + 1, cursor => if path cursor = 0 then some 0 else (strlen path turns (cursor + 1)).map (· + 1)

/-- The loop that sets `is_long_filename`: twelve characters that are no dots. -/
def isLongFilename (path : Path) : Nat → Int → Nat → Option Bool
  | 0, _, _ => none
  | turns + 1, cursor, nameLength =>
    if path cursor = 0 then some false
    else if path cursor = 0x2e then isLongFilename path turns (cursor + 1) nameLength
    else if nameLength > 10 then some true
    else isLongFilename path turns (cursor + 1) (nameLength + 1)

/-- The loops that make `short_path`. `fat_create` goes on to the extension at a
dot and `fat_mkdir` keeps the dot; for a long name both put `~0` in. -/
def encodeName (dots tilde : Bool) (path : Path) : Nat → Int → Nat → Memory → Option (Int × Nat × Memory)
  | 0, _, _, _ => none
  | turns + 1, cursor, pos, name =>
    if path cursor = 0 ∨ pos = 11 then some (cursor, pos, name)
    else
      let name := if tilde ∧ pos > 6 then Function.update (Function.update name 6 0x7e) 7 0x30 else name
      if dots ∧ path cursor = 0x2e then
        encodeName dots tilde path turns (cursor + 1) (if pos < 8 then 8 else pos) name
      else
        encodeName dots tilde path turns (cursor + 1) (pos + 1)
          (Function.update name pos (upperCase (path cursor)))

/-! ### Free entries -/

def fatGetFreeDirEntry (v : Volume) (directory : Nat) : Option Nat := do
  let (entries, size) ← readDirectory v (orRoot v.boot directory)
  match (List.range size).find? fun i => entryOf entries i 0 == 0 || entryOf entries i 0 == 0xe5 with
  | some i => some (i % 2 ^ 32)
  | none => some notFound

/-- One turn of the loop of `fat_get_free_dir_entry_chain`. Nothing is stored in
the directory, so that the next turn finds the same entry. -/
def entryTurn (directory : Nat) (s : Chaining) : Option Chaining := do
  let newCluster ← fatGetFreeDirEntry s.volume directory
  let v := s.volume
  let disk := if s.previous ≠ 0 then fatChangeFatValue v.boot v.disk s.previous newCluster else v.disk
  some ⟨{ v with disk := disk }, if s.start = 0 then newCluster else s.start, newCluster⟩

/-- `fat_get_free_dir_entry_chain`, for at least one entry. -/
def fatGetFreeDirEntryChain (v : Volume) (directory count : Nat) : Option (Nat × Volume) := do
  let s ← (List.range count).foldlM (fun s _ => entryTurn directory s) (⟨v, 0, 0⟩ : Chaining)
  some (s.start, { s.volume with disk := fatChangeFatValue v.boot s.volume.disk s.previous 0xffffff8 })

/-! ### Long names -/

/-- `tmp_short_name`: a slash and the eleven bytes. The block is one byte longer,
and that byte is not set. -/
def tmpShortName (shortPath : Memory) (stale : Path) : Path := fun i =>
  if i = 0 then 0x2f else if 1 ≤ i ∧ i ≤ 11 then shortPath (i - 1).toNat else stale i

/-- The loop that counts the byte with the tilde up until no entry has the name.
After 256 turns it would be at the first name again. -/
def freeAlias (v : Volume) (parentCluster : Nat) : Nat → Path → Option Path
  | 0, _ => none
  | turns + 1, name => do
    let lookup ← fatFindFrom v name (2 ^ 64) 0 parentCluster 0
    if lookup.ret ≠ notFound then freeAlias v parentCluster turns (Function.update name 7 (name 7 + 1))
    else some name

def fatGetShortFilenameChecksum (name : Memory) : BitVec 8 :=
  (List.range 11).foldl (fun sum i => ((sum &&& 1) <<< 7) + (sum >>> 1) + name i) 0

/-- The 16 bits stored for the `n`th character of a long name: behind the last
one comes a zero and then `0xffff`. A `char` is signed. -/
def longChar (path : Path) (cursor : Int) (length n : Nat) : BitVec 16 :=
  if n < length then (path (cursor + n)).signExtend 16 else if n = length then 0 else 0xffff

def byteOf (char : BitVec 16) (k : Nat) : BitVec 8 :=
  if k = 0 then char.setWidth 8 else (char >>> 8).setWidth 8

/-- The `i`th `long_filename_t` that is made, with thirteen characters. -/
def longEntry (char : Nat → BitVec 16) (i : Nat) (placement checksum : BitVec 8) : DirEntry := fun k =>
  if k = 0 then placement
  else if k < 11 then byteOf (char (13 * i + (k - 1) / 2)) ((k - 1) % 2)
  else if k = 11 then 0xf
  else if k = 12 then 0
  else if k = 13 then checksum
  else if k < 26 then byteOf (char (13 * i + 5 + (k - 14) / 2)) ((k - 14) % 2)
  else if k < 28 then 0
  else byteOf (char (13 * i + 11 + (k - 28) / 2)) ((k - 28) % 2)

def nextPlacement (len : Nat) (placement : BitVec 8) : BitVec 8 :=
  if placement.toNat = len - 1 then (placement + 1) ||| 0x40 else placement + 1

/-- The loop that stores the entries of a long name, the first one last. -/
def storeLongName (char : Nat → BitVec 16) (checksum : BitVec 8) (parentCluster index len : Nat)
    (v : Volume) : Option Volume :=
  ((List.range len).foldlM (fun (s : Volume × BitVec 8) i => do
    let v ← fatSetDirEntry s.1 parentCluster (index + len - 1 - i) (longEntry char i s.2 checksum)
    some (v, nextPlacement len s.2)) (v, 1)).map Prod.fst

/-- What the branches for long names have in common: the index for the entry
itself, its name and the volume with the long name stored. To get back to the
start of the name the cursor is taken back by `pos`. -/
def writeLongName (dots : Bool) (v : Volume) (parentCluster : Nat) (path : Path) (cursor : Int)
    (stale : Path) : Option (Nat × Memory × Volume) := do
  let (cursor, pos, shortPath) ← encodeName dots true path (2 ^ 64) cursor 0 fun _ => 0x20
  let name ← freeAlias v parentCluster 256 (tmpShortName shortPath stale)
  let shortPath := Function.update shortPath 6 (name 7)
  let cursor := cursor - pos
  let length ← strlen path (2 ^ 64) cursor
  let len := length / 13 + 1
  let (index, v) ← fatGetFreeDirEntryChain v parentCluster len
  let v ← storeLongName (longChar path cursor length) (fatGetShortFilenameChecksum shortPath)
    parentCluster index len v
  some (index + len, shortPath, v)

/-! ### The calls -/

/-- The fields `fat_create` and `fat_mkdir` set in a new entry. -/
def newEntry (now : Datetime) (ticks : Nat) (flags : BitVec 8) (cluster : Nat) (filename : Memory) :
    DirEntry :=
  let now := { now with year := (now.year + 1900) % 2 ^ 16 }
  let entry := setField (setField (fun _ => 0) 26 2 cluster) 20 2 (cluster / 2 ^ 16)
  let entry := setAccessed entry now.day now.month now.year
  let entry := setField entry 16 2 (dateBits now.day now.month now.year)
  let entry := setField entry 14 2 (timeBits (now.seconds / 2) now.minutes now.hours)
  let entry := setModified (setField entry 13 1 ticks) now
  copy (Function.update entry 11 flags) 0 11 filename

/-- `"."` and `".."`, with blanks behind. -/
def dotName (dots : Nat) : Memory := fun k => if k < dots then 0x2e else 0x20

/-- The entry for a dot that `fat_mkdir` makes in the branch for long names. -/
def dotDir (cluster dots : Nat) : DirEntry :=
  copy (Function.update (setField (setField (fun _ => 0) 26 2 cluster) 20 2 (cluster / 2 ^ 16)) 11 0x10)
    0 11 (dotName dots)

/-- `fat_create` between the two lookups, from the name on. -/
def createNamed (v : Volume) (now : Datetime) (path stale : Path) (parentCluster : Nat) (cursor : Int) :
    Option Volume := do
  let entry := newEntry now (now.seconds % 2) 0
  if ← isLongFilename path (2 ^ 64) cursor 0 then
    let (index, shortPath, v) ← writeLongName true v parentCluster path cursor stale
    let (newWritingCluster, v) := fatFindFreeClusterChain v 1
    fatSetDirEntry v parentCluster index (entry newWritingCluster shortPath)
  else
    let (_, _, shortPath) ← encodeName true false path (2 ^ 64) cursor 0 fun _ => 0x20
    let (index, v) ← fatGetFreeDirEntryChain v parentCluster 1
    let (newWritingCluster, v) := fatFindFreeClusterChain v 1
    fatSetDirEntry v parentCluster index (entry newWritingCluster shortPath)

/-- `fat_mkdir` between the two lookups. For a short name the entries of the new
directory are looked for like that of the directory itself. -/
def mkdirNamed (v : Volume) (now : Datetime) (path stale : Path) (parentCluster : Nat) (cursor : Int) :
    Option Volume := do
  let entry := newEntry now (now.seconds % 2 * 100) 0x10
  if ← isLongFilename path (2 ^ 64) cursor 0 then
    let (index, shortPath, v) ← writeLongName false v parentCluster path cursor stale
    let (newWritingCluster, v) := fatFindFreeClusterChain v 1
    let v ← fatSetDirEntry v parentCluster index (entry newWritingCluster shortPath)
    let v ← fatSetDirEntry v newWritingCluster 0 (dotDir newWritingCluster 1)
    fatSetDirEntry v newWritingCluster 1 (dotDir newWritingCluster 2)
  else
    let (_, _, shortPath) ← encodeName false false path (2 ^ 64) cursor 0 fun _ => 0x20
    let (index, v) ← fatGetFreeDirEntryChain v parentCluster 1
    let (newWritingCluster, v) := fatFindFreeClusterChain v 1
    let dir := entry newWritingCluster shortPath
    let v ← fatSetDirEntry v parentCluster index dir
    let (index, v) ← fatGetFreeDirEntryChain v newWritingCluster 1
    let v ← fatSetDirEntry v newWritingCluster index (copy dir 0 11 (dotName 1))
    let (index, v) ← fatGetFreeDirEntryChain v newWritingCluster 1
    fatSetDirEntry v newWritingCluster index (copy dir 0 11 (dotName 2))

/-- What the two calls do before and after: a path that is found is opened, and
the new entry is looked up again. -/
def findOrMake (v : Volume) (path : Path) (make : Nat → Int → Option Volume) :
    Option (Option Handle × Volume) := do
  let lookup ← fatFind v path
  if lookup.ret ≠ notFound then
    let file ← fatOpen v path
    some (file, v)
  else
    match ← strrchr path 0x2f (2 ^ 64) 0 none with
    | none => some (none, v)
    | some slash =>
      let v ← make lookup.parentClusterDir (slash + 1)
      let file ← fatOpen v path
      some (file, v)

/-- `fat_create`: the handle and the volume. -/
def fatCreate (v : Volume) (now : Datetime) (path stale : Path) : Option (Option Handle × Volume) :=
  findOrMake v path (createNamed v now path stale)

def fatMkdir (v : Volume) (now : Datetime) (path stale : Path) : Option (Option Handle × Volume) :=
  findOrMake v path (mkdirNamed v now path stale)

end MandelbrotOS.FatCreate
