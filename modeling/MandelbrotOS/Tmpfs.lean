import Mathlib.Algebra.Group.Int.Defs
import MandelbrotOS.Kheap
import MandelbrotOS.Mounts
import MandelbrotOS.Pipes
import MandelbrotOS.Runs

/-! The tree of `fs/tmpfs.c` as it lies in memory: nodes at addresses, each
directory with a growing array of child pointers. Reading through a pointer
that is `NULL`, dangling or not set is `none`, as is a write outside its block. -/
namespace MandelbrotOS.Tmpfs
open Kheap Pmm Runs Vfs Descriptors Mounts Pipes

abbrev NodePtr := Nat

/-- The bytes of `name` in `dirent_t`, the terminator among them. -/
def nameSize : Nat := 512

/-- `sizeof(fs_file_t)`. -/
def fileBytes : Nat := 152

def defaultPipeSize : Nat := pageSize * 16

/-- What a pointer to an array points to: nothing; memory that may not be read;
memory that may, but is no live block of the heap; a block of so many bytes. -/
inductive Block where
  | null
  | unmapped
  | stray
  | bytes (size : Nat)

/-- `krealloc`: what there is behind the old or the new pointer then, and whether a
pointer is returned and not `NULL`. A pointer to no block is only found not to be
one. -/
def Block.krealloc : Block → Nat → Option (Block × Bool)
  | .unmapped, _ => none
  | .stray, _ => some (.stray, false)
  | .null, size => some (if size = 0 then (.null, false) else (.bytes (kmallocSize size), true))
  | .bytes old, size =>
    if size = 0 then some (.stray, false)
    else if size ≤ old then some (.bytes size, true)
    else if old ≤ kmallocSize size then some (.bytes (kmallocSize size), true)
    else none

/-- `children` in `tmpfs_dirent_t`. -/
structure Children where
  data : Nat → Option NodePtr
  block : Block
  length : Int
  capacity : Int

/-- A result cut to a C `int`. -/
def int32 (value : Int) : Int := (value + 2 ^ 31) % 2 ^ 32 - 2 ^ 31

/-- A C `int` as a `size_t`. -/
def sizeT (value : Int) : Nat := if value < 0 then (2 ^ 64 + value).toNat else value.toNat

/-- The entries a loop up to `(size_t)length` visits. -/
def Children.entries (dir : Children) : List (Option NodePtr) :=
  (List.range (sizeT dir.length)).map dir.data

/-- The capacity `vec_expand_` asks for, and the bytes; the product is an `int`. -/
def widened (capacity : Int) : Int := int32 (if capacity = 0 then 1 else capacity * 2)

def askedBytes (capacity : Int) : Nat := sizeT (int32 (widened capacity * 8))

/-- `vec_expand_`, and whether there is room. Pointers in a block that was freed are
not there any more. -/
def Children.expand (dir : Children) : Option (Children × Bool) :=
  if int32 (dir.length + 1) > dir.capacity then
    (dir.block.krealloc (askedBytes dir.capacity)).map fun
      | (block, true) => ({ dir with block, capacity := widened dir.capacity }, true)
      | (block, false) => ({ dir with block, data := fun _ => none }, false)
  else some (dir, true)

/-- A pointer is stored in a block of so many bytes. -/
def InBlock (length : Int) (size : Nat) : Prop := 0 ≤ length ∧ 8 * length + 8 ≤ size

instance (length : Int) (size : Nat) : Decidable (InBlock length size) := inferInstanceAs (Decidable (_ ∧ _))

/-- `data[length++] = val`. -/
def Children.store (dir : Children) (node : NodePtr) : Option Children :=
  match dir.block with
  | .bytes size =>
    if InBlock dir.length size then
      some { dir with data := Function.update dir.data dir.length.toNat (some node), length := int32 (dir.length + 1) }
    else none
  | _ => none

/-- `vec_push`, which does nothing when there is no room. -/
def Children.push (dir : Children) (node : NodePtr) : Option Children := do
  let (dir, room) ← dir.expand
  if room then dir.store node else some dir

/-- What `private_data` points to. -/
inductive PrivateData where
  | null
  | directory (children : Children)
  | contents (size : Nat) (bytes : Nat → UInt8)

/-- A node: its `path`, which holds one name, and the fields the operations use. -/
structure Node where
  path : Path
  file : FsFile
  privateData : PrivateData := .null
  dev : Option Nat := none
  pipe : Option Pipe := none

def Node.children (node : Node) : Option Children :=
  match node.privateData with
  | .directory children => some children
  | _ => none

/-- A mounted tmpfs: the heap its nodes lie in, the next address `kmalloc` gives
out for one, and the root. An inode number is the node's address. -/
structure Fs where
  nodes : NodePtr → Option Node
  next : NodePtr
  root : NodePtr

/-- The loop of `tmpfs_finddir`. The name found is copied to the 512 bytes in
front of the serial number. -/
def finddirIn (nodes : NodePtr → Option Node) (name : Path) :
    List (Option NodePtr) → Option (Option NodePtr)
  | [] => some none
  | entry :: rest =>
    match entry.bind nodes with
    | none => none
    | some child =>
      if name = child.path then if child.path.length < nameSize then some entry else none
      else finddirIn nodes name rest

def tmpfsFinddir (fs : Fs) (file : NodePtr) (name : Path) : Option (Option NodePtr) := do
  let node ← fs.nodes file
  let dir ← node.children
  finddirIn fs.nodes name dir.entries

/-- What `tmpfs_find` leaves in `*ref`, or in `*parent_dir` when it returns 1. -/
inductive Find where
  | found (node : NodePtr)
  | missing (parent : NodePtr)

/-- `*path == '/' || !*path`, which ends a token. -/
def token (path : Path) : Path := path.takeWhile (· != slash)

/-- The loop of `tmpfs_find`. The slash that ends a token is never stepped over. -/
def findFrom (fs : Fs) : Nat → NodePtr → Path → Option Find
  | 0, _, _ => none
  | turns + 1, root, path =>
    if path = [] then some (.found root)
    else
      match tmpfsFinddir fs root (token path) with
      | none => none
      | some none => some (.missing root)
      | some (some node) => findFrom fs turns node (path.dropWhile (· != slash))

def tmpfsFind (fs : Fs) (path : Path) : Option Find :=
  findFrom fs (2 ^ 64) fs.root (if path.head? = some slash then path.tail else path)

/-- `tmpfs_open`: the node, or `none` inside for `NULL`. -/
def tmpfsOpen (fs : Fs) (name : Path) : Option (Option NodePtr) :=
  (tmpfsFind fs name).map fun
    | .found node => some node
    | .missing _ => none

/-- `kfree` of a node. -/
def Fs.free (fs : Fs) (ptr : NodePtr) : Fs :=
  { fs with nodes := Function.update fs.nodes ptr none }

/-- A new node in the next place, its parent rewritten. -/
def Fs.attach (fs : Fs) (parentDir : NodePtr) (parent node : Node) : Fs where
  nodes := Function.update (Function.update fs.nodes parentDir (some parent)) fs.next (some node)
  next := fs.next + 1
  root := fs.root

/-- The common body of the four functions that make a node. The new node gets
the first name of the path. -/
def tmpfsMake (made : Path → Node) (fs : Fs) (path : Path) : Option (Option NodePtr × Fs) := do
  match ← tmpfsFind fs path with
  | .found _ => (tmpfsOpen fs path).map (·, fs)
  | .missing parentDir =>
    let parent ← fs.nodes parentDir
    let children ← (← parent.children).push fs.next
    some (some fs.next, fs.attach parentDir { parent with privateData := .directory children }
      (made (token (path.drop 1))))

def tmpfsCreate (mode : BitVec 32) (uid gid : Int) : Fs → Path → Option (Option NodePtr × Fs) :=
  tmpfsMake fun name => { path := name, file := { uid, gid, mode := sIfreg ||| mode } }

/-- `buffer` is what `pipe_init` gets from `kmalloc`. -/
def tmpfsMkfifo (mode : BitVec 32) (uid gid : Int) (mem : ByteMemory.Memory) (buffer : Nat) :
    Fs → Path → Option (Option NodePtr × Fs) :=
  tmpfsMake fun name =>
    { path := name, file := { uid, gid, mode := sIfifo ||| mode },
      pipe := some (pipeInit mem buffer defaultPipeSize) }

/-- `length` and `capacity` are what the new `tmpfs_dirent_t` happens to hold. -/
def tmpfsMkdir (mode : BitVec 32) (uid gid : Int) (length capacity : BitVec 32) :
    Fs → Path → Option (Option NodePtr × Fs) :=
  tmpfsMake fun name =>
    { path := name, file := { uid, gid, mode := sIfdir ||| mode },
      privateData := .directory ⟨fun _ => none, .bytes fileBytes, length.toInt, capacity.toInt⟩ }

def tmpfsMknod (mode : BitVec 32) (uid gid : Int) (dev : Option Nat) :
    Fs → Path → Option (Option NodePtr × Fs) :=
  tmpfsMake fun name => { path := name, file := { uid, gid, mode }, dev }

def tmpfsRmdir (fs : Fs) (file : NodePtr) : Option (Nat × Fs) := do
  let node ← fs.nodes file
  if !isDir node.file.mode then some (1, fs)
  else
    let _ ← node.children
    some (0, fs.free file)

def tmpfsDelete (fs : Fs) (file : NodePtr) : Option (Nat × Fs) := do
  let node ← fs.nodes file
  if isDir node.file.mode then some (1, fs) else some (0, fs.free file)

def rootMode : BitVec 32 := sIfdir ||| 0o777

/-- The file system `tmpfs_mount` leaves, its root empty. -/
def mounted : Fs where
  nodes := Function.update (fun _ => none) 0 (some
    { path := [slash], file := { uid := 0, gid := 0, mode := rootMode },
      privateData := .directory ⟨fun _ => none, .bytes fileBytes, 0, 1⟩ })
  next := 1
  root := 0

/-- A `children` in new memory: some pointer, and two numbers. If there happens to be
a block behind the pointer, it is none that the file system uses. -/
structure Fresh where
  block : Block
  length : BitVec 32
  capacity : BitVec 32

def Fresh.children (fresh : Fresh) : Children :=
  ⟨fun _ => none, fresh.block, fresh.length.toInt, fresh.capacity.toInt⟩

/-- `tmpfs_mount`, which first pushes the root on the array it has yet to set up. -/
def tmpfsMount (fresh : Fresh) : Option Fs := (fresh.children.push 0).map fun _ => mounted

/-! ### The child array -/

variable {dir grown : Children} {fs : Fs} {node : Node}

theorem store_inside (block : dir.block = .bytes size) (inside : InBlock dir.length size) (ptr : NodePtr) :
    dir.store ptr = some { dir with
      data := Function.update dir.data dir.length.toNat (some ptr), length := int32 (dir.length + 1) } := by
  rw [Children.store, block]
  exact if_pos inside

theorem store_cases (stored : dir.store ptr = some grown) : ∃ size, dir.block = .bytes size ∧
    InBlock dir.length size ∧ grown = { dir with
      data := Function.update dir.data dir.length.toNat (some ptr), length := int32 (dir.length + 1) } := by
  rw [Children.store] at stored
  split at stored
  · obtain ⟨inside, same⟩ := Option.ite_none_right_eq_some.mp stored
    cases same
    exact ⟨_, ‹_›, inside, rfl⟩
  · cases stored

theorem sizeT_of_nonneg {value : Int} (nonneg : 0 ≤ value) : sizeT value = value.toNat :=
  if_neg (Int.not_lt.mpr nonneg)

theorem int32_eq {value : Int} (low : -2 ^ 31 ≤ value) (high : value < 2 ^ 31) : int32 value = value := by
  rw [int32]
  omega

theorem entries_store (stored : dir.store ptr = some grown) (short : dir.length < 2 ^ 31 - 1) :
    grown.entries = dir.entries ++ [some ptr] := by
  obtain ⟨size, -, ⟨nonneg, -⟩, rfl⟩ := store_cases stored
  have one : sizeT (int32 (dir.length + 1)) = dir.length.toNat + 1 := by
    rw [int32_eq (by omega) (by omega), sizeT_of_nonneg (by omega)]
    omega
  rw [Children.entries, Children.entries, one, sizeT_of_nonneg nonneg, List.range_succ, List.map_append]
  simp_all [Nat.ne_of_lt]

theorem expand_cases (expanded : dir.expand = some (wider, room)) : wider.length = dir.length ∧
    if room then wider.data = dir.data else wider.data = fun _ => none := by
  rw [Children.expand] at expanded
  split at expanded
  · obtain ⟨⟨block, given⟩, -, same⟩ := Option.map_eq_some_iff.mp expanded
    cases given <;> cases same <;> exact ⟨rfl, rfl⟩
  · cases expanded
    exact ⟨rfl, rfl⟩

/-- The most children a directory can have: the bytes for twice as many are none, as an
`int`. -/
def mostChildren : Int := 2 ^ 28

/-- An array that was set up, as opposed to one left as the heap had it. -/
structure Children.Sound (dir : Children) : Prop where
  nonneg : 0 ≤ dir.length
  full : dir.length ≤ dir.capacity
  power : ∃ e ≤ 28, dir.capacity = 2 ^ e
  block : ∃ size, dir.block = .bytes size ∧ 8 * dir.capacity ≤ size ∧
    (size = 8 * dir.capacity ∨ dir.capacity = 1 ∧ size = fileBytes ∨ dir.capacity = mostChildren)

theorem krealloc_in_place (some : 0 < size) (shorter : size ≤ old) :
    (Block.bytes old).krealloc size = .some (.bytes size, true) := by
  rw [Block.krealloc, if_neg (Nat.ne_of_gt some), if_pos shorter]

theorem krealloc_moved (longer : old < size) (fits : old ≤ kmallocSize size) :
    (Block.bytes old).krealloc size = .some (.bytes (kmallocSize size), true) := by
  rw [Block.krealloc, if_neg (by omega), if_neg (Nat.not_le.mpr longer), if_pos fits]

theorem Children.Sound.grow (sound : dir.Sound) (less : dir.capacity < mostChildren) :
    ∃ size, dir.block.krealloc (askedBytes dir.capacity) = some (.bytes size, true) ∧
      widened dir.capacity = 2 * dir.capacity ∧ 8 * (2 * dir.capacity) ≤ size ∧
      (size = 8 * (2 * dir.capacity) ∨ 2 * dir.capacity = mostChildren) := by
  obtain ⟨-, -, ⟨e, small, power⟩, old, block, enough, exact⟩ := sound
  rw [mostChildren] at less exact ⊢
  have positive : 1 ≤ dir.capacity := by
    rw [power]
    exact_mod_cast Nat.one_le_two_pow
  have twice : widened dir.capacity = 2 * dir.capacity := by
    rw [widened, if_neg (by omega), int32_eq (by omega) (by omega)]
    omega
  rw [block]
  obtain early | rfl | rfl : e ≤ 26 ∨ e = 27 ∨ e = 28 := by omega
  · have bound : dir.capacity ≤ 2 ^ 26 := by
      rw [power]
      exact_mod_cast Nat.pow_le_pow_right (by decide) early
    have asked : askedBytes dir.capacity = (16 * dir.capacity).toNat := by
      rw [askedBytes, twice, int32_eq (by omega) (by omega), sizeT_of_nonneg (by omega)]
      omega
    have servable : Servable (16 * dir.capacity).toNat := by
      rw [Servable]
      omega
    have whole := kmallocSize_servable servable
    refine ⟨(16 * dir.capacity).toNat, ?_, twice, by omega, by omega⟩
    rw [asked]
    by_cases shorter : (16 * dir.capacity).toNat ≤ old
    · exact krealloc_in_place (by omega) shorter
    · rw [krealloc_moved (Nat.not_le.mp shorter) (by omega), whole]
  · -- 2^31 bytes are a negative `int`, for which as many are allocated
    have asked : askedBytes dir.capacity = 2 ^ 64 - 2 ^ 31 := by
      rw [power]
      rfl
    have given : kmallocSize (2 ^ 64 - 2 ^ 31) = 2 ^ 31 + 4000 := by decide
    refine ⟨2 ^ 31 + 4000, ?_, twice, by omega, by omega⟩
    rw [asked, krealloc_moved (by omega) (by omega), given]
  · omega

theorem Children.Sound.bounds (sound : dir.Sound) : 1 ≤ dir.capacity ∧ dir.capacity ≤ mostChildren := by
  obtain ⟨e, few, power⟩ := sound.power
  rw [power, mostChildren]
  constructor
  · exact_mod_cast Nat.one_le_two_pow
  · exact_mod_cast Nat.pow_le_pow_right (by decide) few

theorem Children.Sound.expand (sound : dir.Sound) (less : dir.length < mostChildren) : ∃ wider,
    dir.expand = some (wider, true) ∧ wider.Sound ∧ wider.length = dir.length ∧ wider.data = dir.data ∧
      dir.length < wider.capacity := by
  have bounds := sound.bounds
  have nonneg := sound.nonneg
  have full := sound.full
  rw [mostChildren] at less bounds
  have next : int32 (dir.length + 1) = dir.length + 1 := int32_eq (by omega) (by omega)
  by_cases grows : dir.length + 1 > dir.capacity
  · obtain ⟨size, moved, twice, holds, same⟩ := sound.grow (by rw [mostChildren]; omega)
    obtain ⟨e, few, power⟩ := sound.power
    refine ⟨{ dir with block := .bytes size, capacity := widened dir.capacity }, ?_, ?_, rfl, rfl, ?_⟩
    · rw [Children.expand, next, if_pos grows, moved]
      rfl
    · refine ⟨nonneg, ?_, ⟨e + 1, ?_, ?_⟩, size, rfl, ?_, ?_⟩
      · dsimp only
        omega
      · by_contra late
        obtain rfl : e = 28 := by omega
        omega
      · dsimp only
        rw [twice, power, Int.pow_succ']
      · dsimp only
        omega
      · dsimp only
        rw [twice]
        omega
    · dsimp only
      omega
  · exact ⟨dir, by rw [Children.expand, next, if_neg grows], sound, rfl, rfl, by omega⟩

theorem Children.Sound.push (sound : dir.Sound) (less : dir.length < mostChildren) (ptr : NodePtr) :
    ∃ grown, dir.push ptr = some grown ∧ grown.Sound ∧ grown.entries = dir.entries ++ [some ptr] := by
  obtain ⟨wider, expanded, sound', length, data, room⟩ := sound.expand less
  have nonneg := sound.nonneg
  obtain ⟨size, block, enough, exact⟩ := sound'.block
  have word : wider.length < 2 ^ 31 - 1 := by
    rw [length]
    rw [mostChildren] at less
    omega
  have inside : InBlock wider.length size := ⟨by omega, by omega⟩
  have stored := store_inside block inside ptr
  have entries := entries_store stored word
  refine ⟨{ wider with
    data := Function.update wider.data wider.length.toNat (some ptr), length := int32 (wider.length + 1) }, ?_,
      ⟨?_, ?_, sound'.power, size, block, enough, exact⟩, ?_⟩
  · rw [Children.push, expanded]
    exact stored
  · dsimp only
    rw [int32_eq (by omega) (by omega)]
    omega
  · dsimp only
    rw [int32_eq (by omega) (by omega)]
    omega
  · rw [entries, Children.entries, Children.entries, length, data]

theorem Children.Sound.push_full (sound : dir.Sound) (most : dir.length = mostChildren) (ptr : NodePtr) :
    dir.push ptr = some { dir with block := .stray, data := fun _ => none } := by
  have bounds := sound.bounds
  have full := sound.full
  obtain ⟨size, block, -⟩ := sound.block
  have capacity : dir.capacity = mostChildren := by omega
  have grows : int32 (dir.length + 1) > dir.capacity := by
    rw [most, capacity]
    decide
  have nothing : askedBytes dir.capacity = 0 := by
    rw [capacity]
    decide
  rw [Children.push, Children.expand, if_pos grows, nothing, block]
  rfl

/-! ### Finding -/

theorem finddir_eq (held : fs.nodes file = some node) (directory : node.children = some dir)
    (name : Path) : tmpfsFinddir fs file name = finddirIn fs.nodes name dir.entries := by
  simp only [tmpfsFinddir, held, directory, bind_returned]

theorem finddirIn_append (missed : finddirIn nodes name entries = some none)
    (more : List (Option NodePtr)) :
    finddirIn nodes name (entries ++ more) = finddirIn nodes name more := by
  induction entries with
  | nil => rfl
  | cons entry rest ih =>
    grind [finddirIn]

/-! ### Listing -/

/-- The loop of `tmpfs_readdir`, from place `i` on. The name is copied to 512 bytes. -/
def readdirIn (nodes : NodePtr → Option Node) (pos : Nat) :
    Nat → List (Option NodePtr) → Option (Option Path)
  | _, [] => some none
  | i, entry :: rest =>
    if i = pos then (entry.bind nodes).bind fun child =>
      if child.path.length < nameSize then some (some child.path) else none
    else readdirIn nodes pos (i + 1) rest

/-- `tmpfs_readdir`: the name in a place, or `none` inside behind the last. -/
def tmpfsReaddir (fs : Fs) (file : NodePtr) (pos : Nat) : Option (Option Path) :=
  if pos = 0 then some (some [0x2e])
  else if pos = 1 then some (some [0x2e])
  else do
    let node ← fs.nodes file
    let dir ← node.children
    readdirIn fs.nodes pos 0 dir.entries

/-- The names of a directory's children. -/
def names (fs : Fs) (dir : Children) : List Path :=
  dir.entries.map fun entry => ((entry.bind fs.nodes).map Node.path).getD []

theorem readdirIn_eq {entries : List (Option NodePtr)}
    (named : ∀ entry ∈ entries, ∃ child, entry.bind nodes = some child ∧ child.path.length < nameSize)
    (i k : Nat) : readdirIn nodes (i + k) i entries =
      some ((entries.map fun entry => ((entry.bind nodes).map Node.path).getD [])[k]?) := by
  induction entries generalizing i k with
  | nil => rfl
  | cons entry rest ih =>
    obtain ⟨⟨child, held, short⟩, others⟩ := List.forall_mem_cons.mp named
    cases k with
    | zero =>
      rw [Nat.add_zero, readdirIn, if_pos rfl, held, Option.bind_some, if_pos short, List.map_cons, held]
      rfl
    | succ k =>
      rw [readdirIn, if_neg (by omega), show i + (k + 1) = i + 1 + k by omega, ih others]
      rfl

/-- **The first two children of a directory are never listed**: the places of `.` and `..`, which
both read `.`, are counted as places of the array. -/
theorem readdir_skips_two (held : fs.nodes file = some node) (directory : node.children = some dir)
    (named : ∀ entry ∈ dir.entries, ∃ child, entry.bind fs.nodes = some child ∧ child.path.length < nameSize)
    (pos : Nat) : tmpfsReaddir fs file pos = some (([0x2e] :: [0x2e] :: (names fs dir).drop 2)[pos]?) := by
  match pos with
  | 0 | 1 => rfl
  | pos + 2 =>
    rw [tmpfsReaddir, if_neg (by omega), if_neg (by omega)]
    have place := readdirIn_eq named 0 (pos + 2)
    rw [Nat.zero_add] at place
    simp only [held, directory, bind_returned, place, names, List.getElem?_cons_succ, List.getElem?_drop]
    rw [Nat.add_comm]

theorem only_child_unlisted :
    let dir : Children := ⟨fun _ => some 1, .bytes 8, 1, 1⟩
    let root : Node := ⟨[slash], ⟨0, 0, rootMode, 0, 0, 1⟩, .directory dir, none, none⟩
    let fs : Fs := ⟨fun ptr => some (if ptr = 0 then root else { root with path := [0x61], privateData := .null }), 2, 0⟩
    names fs dir = [[0x61]] ∧ tmpfsReaddir fs 0 2 = some none := by
  intro dir root fs
  have held : fs.nodes 0 = some root := rfl
  have named : ∀ entry ∈ dir.entries, ∃ child, entry.bind fs.nodes = some child ∧ child.path.length < nameSize := by
    intro entry member
    obtain rfl : entry = some 1 := List.mem_singleton.mp member
    exact ⟨_, rfl, by decide⟩
  exact ⟨rfl, readdir_skips_two held rfl named 2⟩

end MandelbrotOS.Tmpfs
