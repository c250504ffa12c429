import Mathlib.Data.List.TakeWhile
import MandelbrotOS.Tmpfs

/-! A tmpfs against the tree its calls describe. Three things fall apart: a
lookup never gets past the slash behind the first name and a node made deeper
down is filed under the first name of its path; a directory is not set up
before it is used; and what is removed stays in the array of its parent. What
is left is exact: one level of nodes, none of them ever removed. -/
namespace MandelbrotOS.TmpfsTree
open Kheap Vfs Descriptors Mounts Runs Tmpfs

/-! ### Paths -/

/-- One component of a path. -/
structure IsName (name : Path) : Prop where
  nonempty : name ≠ []
  plain : slash ∉ name
  unterminated : 0 ∉ name

/-- The absolute path through these names. -/
def render : List Path → Path
  | [] => [slash]
  | first :: rest => (first :: rest).flatMap (slash :: ·)

private theorem plain_bytes (name : IsName first) : ∀ byte ∈ first, (byte != slash) = true := by
  intro byte member
  exact bne_iff_ne.mpr fun same => name.plain (same ▸ member)

theorem token_append (name : IsName first) (rest : Path) : token (first ++ slash :: rest) = first := by
  rw [token, List.takeWhile_append_of_pos (plain_bytes name), List.takeWhile_cons_of_neg (by simp),
    List.append_nil]

theorem token_name (name : IsName first) : token first = first :=
  List.takeWhile_eq_self_iff.mpr (plain_bytes name)

theorem token_render (name : IsName first) (rest : List Path) :
    token ((render (first :: rest)).drop 1) = first := by
  cases rest with
  | nil => simpa [render] using token_name name
  | cons second rest => simpa [render] using token_append name (second ++ rest.flatMap (slash :: ·))

variable {fs : Fs}

theorem find_absolute (fs : Fs) (path : Path) : tmpfsFind fs (slash :: path) =
    findFrom fs (2 ^ 64 - 2 + 1 + 1) fs.root path := rfl

private theorem findFrom_succ {path : Path} (more : path ≠ []) (turns : Nat) (root : NodePtr) :
    findFrom fs (turns + 1) root path =
      match tmpfsFinddir fs root (token path) with
      | none => none
      | some none => some (.missing root)
      | some (some node) => findFrom fs turns node (path.dropWhile (· != slash)) := if_neg more

theorem find_name (name : IsName first) : tmpfsFind fs (render [first]) =
    (tmpfsFinddir fs fs.root first).map fun
      | none => .missing fs.root
      | some node => .found node := by
  have shown : render [first] = slash :: first := by simp [render]
  have used : first.dropWhile (· != slash) = [] := List.dropWhile_eq_nil_iff.mpr (plain_bytes name)
  rw [shown, find_absolute, findFrom_succ name.nonempty, token_name name, used]
  rcases tmpfsFinddir fs fs.root first with _ | _ | node <;> rfl

theorem find_below (name : IsName first) (second : Path) (rest : List Path) :
    tmpfsFind fs (render (first :: second :: rest)) =
      match tmpfsFinddir fs fs.root first with
      | none => none
      | some none => some (.missing fs.root)
      | some (some node) =>
        match tmpfsFinddir fs node [] with
        | none => none
        | some none => some (.missing node)
        | some (some deeper) => findFrom fs (2 ^ 64 - 2) deeper (render (second :: rest)) := by
  have shown : render (first :: second :: rest) = slash :: (first ++ render (second :: rest)) := by
    simp [render]
  have again : render (second :: rest) = slash :: (second ++ rest.flatMap (slash :: ·)) := by
    simp [render]
  have more : first ++ render (second :: rest) ≠ [] := by simp [name.nonempty]
  have behind : (first ++ render (second :: rest)).dropWhile (· != slash) = render (second :: rest) := by
    rw [List.dropWhile_append_of_pos (plain_bytes name), again, List.dropWhile_cons_of_neg (by simp)]
  have here : token (first ++ render (second :: rest)) = first := by rw [again, token_append name]
  have empty : token (render (second :: rest)) = [] := by
    simp_all [token]
  have stays : (render (second :: rest)).dropWhile (· != slash) = render (second :: rest) := by
    rw [again, List.dropWhile_cons_of_neg (by simp)]
  rw [shown, find_absolute, findFrom_succ more, here, behind]
  rcases tmpfsFinddir fs fs.root first with _ | _ | node
  · rfl
  · rfl
  · refine (findFrom_succ (by rw [again]; exact List.cons_ne_nil _ _) _ node).trans ?_
    rw [empty, stays]

theorem open_found_iff : tmpfsOpen fs path = some (some node) ↔ tmpfsFind fs path = some (.found node) := by
  rw [tmpfsOpen]
  rcases tmpfsFind fs path with _ | _ | _ <;> simp

/-! ### Histories -/

/-- What stands at a path: its node, and how it was made. -/
structure Entry where
  node : NodePtr
  directory : Bool
  mode : BitVec 32

abbrev Tree := List Path → Option Entry

/-- The functions that make a node, with what each finds in new memory. -/
inductive Maker where
  | create
  | mkfifo (mem : ByteMemory.Memory) (buffer : Nat)
  | mkdir (length capacity : BitVec 32)
  | mknod (dev : Option Nat)

def Maker.run (mode : BitVec 32) (uid gid : Int) : Maker → Fs → Path → Option (Option NodePtr × Fs)
  | .create => tmpfsCreate mode uid gid
  | .mkfifo mem buffer => tmpfsMkfifo mode uid gid mem buffer
  | .mkdir length capacity => tmpfsMkdir mode uid gid length capacity
  | .mknod dev => tmpfsMknod mode uid gid dev

def Maker.directory : Maker → Bool
  | .mkdir _ _ => true
  | _ => false

def Maker.mode (mode : BitVec 32) : Maker → BitVec 32
  | .create => sIfreg ||| mode
  | .mkfifo _ _ => sIfifo ||| mode
  | .mkdir _ _ => sIfdir ||| mode
  | .mknod _ => mode

/-- The calls, each on an absolute path. -/
inductive Call where
  | make (maker : Maker) (path : List Path) (mode : BitVec 32) (uid gid : Int)
  | delete (path : List Path)
  | rmdir (path : List Path)

def Call.path : Call → List Path
  | .make _ path _ _ _ | .delete path | .rmdir path => path

/-- A tmpfs, the tree its calls have described so far, and the directory the
last of them made, if it made one. -/
structure History where
  fs : Fs
  tree : Tree
  newest : Option NodePtr

def start (fs : Fs) : History where
  fs := fs
  tree path := if path = [] then some ⟨fs.root, true, rootMode⟩ else none
  newest := none

/-- An entry put at a path. -/
def History.add (history : History) (path : List Path) (entry : Entry) (fs : Fs) : History where
  fs := fs
  tree := Function.update history.tree path (some entry)
  newest := if entry.directory then some entry.node else none

/-- The node a maker returned stands at a path where nothing stood. -/
def History.made (history : History) (path : List Path) (directory : Bool) (mode : BitVec 32) :
    Option NodePtr × Fs → History
  | (none, fs) => ⟨fs, history.tree, none⟩
  | (some node, fs) =>
    if (history.tree path).isSome then ⟨fs, history.tree, none⟩
    else history.add path ⟨node, directory, mode⟩ fs

/-- What is `gone` is gone when the removal returned 0. -/
def History.removed (history : History) (gone : List Path → Bool) : Nat × Fs → History
  | (0, fs) => ⟨fs, fun path => if gone path then none else history.tree path, none⟩
  | (_, fs) => ⟨fs, history.tree, none⟩

/-- `operation` on the node that stands at a path. -/
def History.remove (history : History) (operation : Fs → NodePtr → Option (Nat × Fs))
    (path : List Path) (gone : List Path → Bool) : Option History :=
  match tmpfsOpen history.fs (render path) with
  | none => none
  | some none => some { history with newest := none }
  | some (some node) => (operation history.fs node).map (history.removed gone)

def exec (history : History) : Call → Option History
  | .make maker path mode uid gid => (maker.run mode uid gid history.fs (render path)).map
      (history.made path maker.directory (maker.mode mode))
  | .delete path => history.remove tmpfsDelete path (· == path)
  | .rmdir path => history.remove tmpfsRmdir path (path.isPrefixOf ·)

/-- The parent of the path is a directory of the tree. -/
def Valid (history : History) (call : Call) : Prop :=
  (∀ name ∈ call.path, IsName name) ∧
    (call.path = [] ∨ ∃ parent, history.tree call.path.dropLast = some parent ∧ parent.directory = true)

/-- No proper part of the path is a node that is not a directory. -/
def Walkable (tree : Tree) (path : List Path) : Prop :=
  ∀ above, above <+: path → above ≠ path → ∀ entry, tree above = some entry → entry.directory = true

/-- The tmpfs is the tree: every path opens to what the tree has there, and a
directory just made has no children. `pastFiles` says whether paths that lead
through a node that is not a directory are asked for as well. -/
structure Matches (pastFiles : Bool) (history : History) : Prop where
  opens : ∀ path, (∀ name ∈ path, IsName name) → (pastFiles = true ∨ Walkable history.tree path) →
    tmpfsOpen history.fs (render path) = some ((history.tree path).map Entry.node)
  empty : ∀ ptr, history.newest = some ptr → ∃ node dir,
    history.fs.nodes ptr = some node ∧ node.children = some dir ∧ dir.length = 0

/-- Mounting returns, and so does every call after it, the tmpfs being the tree
all along. -/
def IsTree (pastFiles : Bool) (fresh : Fresh) (calls : List Call) : Prop :=
  ∃ fs, tmpfsMount fresh = some fs ∧ Served exec (Matches pastFiles) (start fs) calls

/-! ### One level of nodes -/

/-- An entry as it lies in memory. A directory of the tree is an empty one. -/
structure Stored (fs : Fs) (name : Path) (entry : Entry) : Prop where
  isName : IsName name
  short : name.length < nameSize
  used : entry.node < fs.next
  apart : entry.node ≠ fs.root
  node : ∃ node, fs.nodes entry.node = some node ∧ node.path = name ∧ node.file.mode = entry.mode ∧
    if entry.directory then ∃ dir, node.children = some dir ∧ dir.length = 0 else node.children = none

/-- The root's array lists these entries, and all its nodes are live. -/
structure Listed (fs : Fs) (listing : List (Path × Entry)) : Prop where
  used : fs.root < fs.next
  root : ∃ node dir, fs.nodes fs.root = some node ∧ node.children = some dir ∧
    node.file.mode = rootMode ∧ dir.Sound ∧ dir.entries = listing.map (some ·.2.node)
  stored : ∀ item ∈ listing, Stored fs item.1 item.2

def treeOf (root : NodePtr) (listing : List (Path × Entry)) : Tree
  | [] => some ⟨root, true, rootMode⟩
  | [name] => listing.lookup name
  | _ => none

structure Flat (pastFiles : Bool) (history : History) (listing : List (Path × Entry)) : Prop where
  listed : Listed history.fs listing
  tree : history.tree = treeOf history.fs.root listing
  files : pastFiles = true → ∀ item ∈ listing, item.2.directory = true
  empty : ∀ ptr, history.newest = some ptr → ∃ node dir,
    history.fs.nodes ptr = some node ∧ node.children = some dir ∧ dir.length = 0

theorem mem_of_lookup {listing : List (Path × Entry)} (found : listing.lookup name = some entry) :
    (name, entry) ∈ listing := by
  grind [List.lookup_eq_some_iff]

theorem finddirIn_listing {nodes : NodePtr → Option Node} {listing : List (Path × Entry)}
    (live : ∀ item ∈ listing, item.1.length < nameSize ∧
      ∃ node, nodes item.2.node = some node ∧ node.path = item.1) (name : Path) :
    finddirIn nodes name (listing.map (some ·.2.node)) = some ((listing.lookup name).map Entry.node) := by
  induction listing with
  | nil => rfl
  | cons item rest ih =>
    grind [finddirIn]

variable {listing : List (Path × Entry)}

theorem Listed.live (listed : Listed fs listing) : ∀ item ∈ listing, item.1.length < nameSize ∧
    ∃ node, fs.nodes item.2.node = some node ∧ node.path = item.1 := by
  intro item member
  obtain ⟨node, held, path, -⟩ := (listed.stored item member).node
  exact ⟨(listed.stored item member).short, node, held, path⟩

theorem Listed.finddir (listed : Listed fs listing) (name : Path) :
    tmpfsFinddir fs fs.root name = some ((listing.lookup name).map Entry.node) := by
  obtain ⟨node, dir, held, directory, -, -, entries⟩ := listed.root
  rw [finddir_eq held directory, entries, finddirIn_listing listed.live]

theorem Stored.finddir (stored : Stored fs name entry) (wanted : Path) :
    tmpfsFinddir fs entry.node wanted = if entry.directory then some none else none := by
  obtain ⟨node, held, -, -, children⟩ := stored.node
  split at children
  case isTrue is =>
    obtain ⟨dir, directory, length⟩ := children
    rw [finddir_eq held directory, Children.entries, length, if_pos is]
    rfl
  simp_all [tmpfsFinddir]

theorem open_name (listed : Listed fs listing) (name : IsName first) :
    tmpfsOpen fs (render [first]) = some ((listing.lookup first).map Entry.node) := by
  rw [tmpfsOpen, find_name name, listed.finddir]
  rcases listing.lookup first <;> rfl

theorem find_below_listed (listed : Listed fs listing) (name : IsName first) (second : Path)
    (rest : List Path) (found : listing.lookup first = some entry) :
    tmpfsFind fs (render (first :: second :: rest)) =
      if entry.directory then some (.missing entry.node) else none := by
  rw [find_below name, listed.finddir, found]
  dsimp only [Option.map_some]
  rw [(listed.stored _ (mem_of_lookup found)).finddir]
  cases entry.directory <;> rfl

theorem find_below_unlisted (listed : Listed fs listing) (name : IsName first) (second : Path)
    (rest : List Path) (absent : listing.lookup first = none) :
    tmpfsFind fs (render (first :: second :: rest)) = some (.missing fs.root) := by
  rw [find_below name, listed.finddir, absent]
  rfl

variable {pastFiles : Bool} {history : History}

section
variable (flat : Flat pastFiles history listing)
include flat

theorem Flat.matches : Matches pastFiles history := by
  refine ⟨?_, flat.empty⟩
  intro path names asked
  rw [flat.tree]
  match path with
  | [] => rfl
  | [first] => exact open_name flat.listed (names first List.mem_cons_self)
  | first :: second :: rest =>
    have name := names first List.mem_cons_self
    cases found : listing.lookup first with
    | none => rw [tmpfsOpen, find_below_unlisted flat.listed name second rest found]; rfl
    | some entry =>
      have directory : entry.directory = true := by
        rcases asked with every | walkable
        · exact flat.files every _ (mem_of_lookup found)
        · refine walkable [first] (by simp) (by simp) entry ?_
          rw [flat.tree]
          exact found
      rw [tmpfsOpen, find_below_listed flat.listed name second rest found, if_pos directory]
      rfl

theorem Flat.places (valid : Valid history call) :
    call.path = [] ∨ (∃ name, call.path = [name]) ∨ ∃ first second entry,
      call.path = [first, second] ∧ listing.lookup first = some entry ∧ entry.directory = true := by
  rcases valid.2 with top | ⟨parent, lives, directory⟩
  · exact Or.inl top
  · rw [flat.tree] at lives
    match shape : call.path with
    | [] => exact Or.inl rfl
    | [name] => exact Or.inr (Or.inl ⟨name, rfl⟩)
    | [first, second] =>
      rw [shape] at lives
      exact Or.inr (Or.inr ⟨first, second, parent, rfl, lives, directory⟩)
    | first :: second :: third :: rest => rw [shape] at lives; cases lives

theorem Flat.walkable (valid : Valid history call) : Walkable history.tree call.path := by
  intro above part proper entry lives
  rw [flat.tree] at lives
  rcases flat.places valid with top | ⟨name, one⟩ | ⟨first, second, parent, two, found, directory⟩
  · simp_all
  · rw [one] at part proper
    rcases List.prefix_cons_iff.mp part with rfl | ⟨tail, rfl, rest⟩
    · cases lives; rfl
    · simp_all
  · rw [two] at part proper
    rcases List.prefix_cons_iff.mp part with rfl | ⟨tail, rfl, rest⟩
    · cases lives; rfl
    · rcases List.prefix_cons_iff.mp rest with rfl | ⟨tail, rfl, beyond⟩
      · cases found.symm.trans lives; exact directory
      · simp_all

theorem Flat.opens (valid : Valid history call) :
    tmpfsOpen history.fs (render call.path) = some ((history.tree call.path).map Entry.node) :=
  flat.matches.opens call.path valid.1 (Or.inr (flat.walkable valid))

theorem Flat.live (lives : history.tree path = some entry) :
    ∃ node, history.fs.nodes entry.node = some node ∧ node.file.mode = entry.mode := by
  rw [flat.tree] at lives
  match path with
  | [] =>
    cases lives
    obtain ⟨node, dir, held, -, mode, -⟩ := flat.listed.root
    exact ⟨node, held, mode⟩
  | [name] =>
    obtain ⟨node, held, -, mode, -⟩ := (flat.listed.stored _ (mem_of_lookup lives)).node
    exact ⟨node, held, mode⟩

end

/-! ### Making nodes -/

theorem make_found (found : tmpfsFind fs path = some (.found node)) (made : Path → Node) :
    tmpfsMake made fs path = some (some node, fs) := by
  simp_all [tmpfsMake, open_found_iff]

theorem make_missing {parent : Node} {dir : Children}
    (missing : tmpfsFind fs path = some (.missing parentDir))
    (held : fs.nodes parentDir = some parent) (directory : parent.children = some dir)
    (made : Path → Node) : tmpfsMake made fs path = (dir.push fs.next).map fun children =>
      (some fs.next, fs.attach parentDir { parent with privateData := .directory children }
        (made (token (path.drop 1)))) := by
  simp only [tmpfsMake, missing, held, directory, bind_returned]
  rcases dir.push fs.next <;> rfl

theorem attach_next (fs : Fs) (parentDir : NodePtr) (parent node : Node) :
    (fs.attach parentDir parent node).nodes fs.next = some node := Function.update_self ..

theorem attach_parent (used : parentDir < fs.next) (parent node : Node) :
    (fs.attach parentDir parent node).nodes parentDir = some parent := by
  exact (Function.update_of_ne (Nat.ne_of_lt used) ..).trans (Function.update_self ..)

theorem attach_other (used : other < fs.next) (apart : other ≠ parentDir) (parent node : Node) :
    (fs.attach parentDir parent node).nodes other = fs.nodes other := by
  exact (Function.update_of_ne (Nat.ne_of_lt used) ..).trans (Function.update_of_ne apart ..)

/-- The child array of a new node. -/
def Maker.children : Maker → Option Children
  | .mkdir length capacity => some ⟨fun _ => none, .bytes fileBytes, length.toInt, capacity.toInt⟩
  | _ => none

theorem Maker.run_eq (maker : Maker) (mode : BitVec 32) (uid gid : Int) :
    ∃ made : Path → Node, maker.run mode uid gid = tmpfsMake made ∧ ∀ name, (made name).path = name ∧
      (made name).file.mode = maker.mode mode ∧ (made name).children = maker.children := by
  cases maker <;> dsimp only [Maker.run, tmpfsCreate, tmpfsMkfifo, tmpfsMkdir, tmpfsMknod] <;>
    exact ⟨_, rfl, fun name => ⟨rfl, rfl, rfl⟩⟩

/-- A call of this maker on a free name leaves the tree right. -/
def Maker.Clean (pastFiles : Bool) : Maker → Prop
  | .mkdir length _ => length = 0
  | _ => pastFiles = false

theorem Maker.Clean.children {maker : Maker} (clean : maker.Clean pastFiles) :
    if maker.directory then ∃ dir, maker.children = some dir ∧ dir.length = 0
    else maker.children = none := by
  cases maker with
  | mkdir length capacity => exact ⟨_, rfl, congrArg BitVec.toInt clean⟩
  | create => rfl
  | mkfifo => rfl
  | mknod => rfl

theorem Listed.length {root : Node} {dir : Children} (listed : Listed fs listing) (held : fs.nodes fs.root = some root)
    (directory : root.children = some dir) : dir.length = listing.length := by
  obtain ⟨_, _, held', directory', -, sound, entries⟩ := listed.root
  cases held.symm.trans held'
  cases directory.symm.trans directory'
  have count := congrArg List.length entries
  rw [Children.entries, List.length_map, List.length_range, List.length_map, sizeT_of_nonneg sound.nonneg] at count
  rw [← count, Int.toNat_of_nonneg sound.nonneg]

section
variable (listed : Listed fs listing) (name : IsName first) (absent : listing.lookup first = none)
include listed name absent

theorem find_unlisted : tmpfsFind fs (render [first]) = some (.missing fs.root) := by
  rw [find_name name, listed.finddir, absent]
  rfl

theorem make_name (few : listing.length < mostChildren) (made : Path → Node) :
    ∃ root children, tmpfsMake made fs (render [first]) =
        some (some fs.next, fs.attach fs.root root (made first)) ∧
      root.children = some children ∧ root.file.mode = rootMode ∧ children.Sound ∧
      children.entries = listing.map (some ·.2.node) ++ [some fs.next] := by
  obtain ⟨root, dir, held, directory, mode, sound, entries⟩ := listed.root
  obtain ⟨children, pushed, grown, longer⟩ := sound.push (listed.length held directory ▸ few) fs.next
  refine ⟨{ root with privateData := .directory children }, children, ?_, rfl, mode, grown, ?_⟩
  · rw [make_missing (find_unlisted listed name absent) held directory, pushed, token_render name]
    rfl
  · rw [longer, entries]

theorem make_name_full (full : ¬ (listing.length < mostChildren)) (made : Path → Node) :
    ∃ root, tmpfsMake made fs (render [first]) = some (some fs.next, fs.attach fs.root root (made first)) ∧
      tmpfsFinddir (fs.attach fs.root root (made first)) fs.root first = none := by
  obtain ⟨root, dir, held, directory, mode, sound, entries⟩ := listed.root
  have count := listed.length held directory
  have most : dir.length = mostChildren := by
    have bounds := sound.bounds
    have within := sound.full
    omega
  refine ⟨{ root with privateData := .directory { dir with block := .stray, data := fun _ => none } }, ?_, ?_⟩
  · rw [make_missing (find_unlisted listed name absent) held directory, sound.push_full most, token_render name]
    rfl
  · have some : sizeT mostChildren = 2 ^ 28 - 1 + 1 := by decide
    rw [finddir_eq (attach_parent listed.used _ _) rfl, Children.entries, most, some, List.range_succ_eq_map,
      List.map_cons]
    rfl

end

theorem Listed.attach (listed : Listed fs listing) {root : Node} (directory : root.children = some children)
    (mode : root.file.mode = rootMode) (sound : children.Sound)
    (entries : children.entries = listing.map (some ·.2.node) ++ [some fs.next])
    (entry : Entry) (place : entry.node = fs.next)
    (stored : Stored (fs.attach fs.root root node) first entry) :
    Listed (fs.attach fs.root root node) (listing ++ [(first, entry)]) := by
  refine ⟨Nat.lt_succ_of_lt listed.used, ?_, ?_⟩
  · refine ⟨root, children, attach_parent listed.used root node, directory, mode, sound, ?_⟩
    rw [entries, List.map_append, ← place]
    rfl
  · intro item member
    rcases List.mem_append.mp member with old | new
    · have before := listed.stored item old
      refine ⟨before.isName, before.short, Nat.lt_succ_of_lt before.used, before.apart, ?_⟩
      rw [attach_other before.used before.apart]
      exact before.node
    · simp_all

theorem treeOf_append (root : NodePtr) (absent : listing.lookup first = none) (entry : Entry) :
    treeOf root (listing ++ [(first, entry)]) =
      Function.update (treeOf root listing) [first] (some entry) := by
  funext path
  match path with
  | [] => rfl
  | [name] =>
    grind [treeOf]
  | _ :: _ :: _ => exact (Function.update_of_ne (by simp) ..).symm

/-- The root does not have the most children yet. -/
def Spacious (fs : Fs) : Prop :=
  ∃ root dir, fs.nodes fs.root = some root ∧ root.children = some dir ∧ dir.length < mostChildren

theorem Listed.spacious_iff (listed : Listed fs listing) : Spacious fs ↔ listing.length < mostChildren := by
  constructor
  · rintro ⟨root, dir, held, directory, few⟩
    rwa [← listed.length held directory]
  · intro few
    obtain ⟨root, dir, held, directory, -⟩ := listed.root
    exact ⟨root, dir, held, directory, listed.length held directory ▸ few⟩

/-- The calls after which the tmpfs is still the tree: a node that is made
exists already or is a first-level one that there is room for and that leaves no trap
behind, and a removal finds nothing to remove or refuses. -/
def Allowed (pastFiles : Bool) (history : History) : Call → Prop
  | .make maker path _ _ _ => (history.tree path).isSome = true ∨
      (maker.Clean pastFiles ∧ Spacious history.fs) ∧ ∃ name, path = [name] ∧ name.length < nameSize
  | .delete path => ∀ entry, history.tree path = some entry → isDir entry.mode = true
  | .rmdir path => ∀ entry, history.tree path = some entry → isDir entry.mode = false

section
variable (flat : Flat pastFiles history listing)
include flat

theorem Flat.forget : Flat pastFiles { history with newest := none } listing :=
  ⟨flat.listed, flat.tree, flat.files, fun _ none => nomatch none⟩

theorem make_again (valid : Valid history (.make maker path mode uid gid)) (lives : history.tree path = some entry) :
    exec history (.make maker path mode uid gid) = some { history with newest := none } := by
  have opened := flat.opens valid
  rw [Call.path, lives, Option.map_some] at opened
  obtain ⟨made, run, -⟩ := maker.run_eq mode uid gid
  rw [exec, run, make_found (open_found_iff.mp opened), Option.map_some]
  simp_all [History.made]

/-- The entry a maker puts in the next place. -/
def Maker.entry (maker : Maker) (mode : BitVec 32) (fs : Fs) : Entry :=
  ⟨fs.next, maker.directory, maker.mode mode⟩

theorem make_new (name : IsName first)
    (free : history.tree [first] = none) (room : Spacious history.fs) (maker : Maker) (mode : BitVec 32) (uid gid : Int) :
    ∃ root children node, exec history (.make maker [first] mode uid gid) = some (history.add [first]
        (maker.entry mode history.fs) (history.fs.attach history.fs.root root node)) ∧
      (root.children = some children ∧ root.file.mode = rootMode ∧ children.Sound ∧
        children.entries = listing.map (some ·.2.node) ++ [some history.fs.next]) ∧
      node.path = first ∧ node.file.mode = maker.mode mode ∧ node.children = maker.children := by
  have absent : listing.lookup first = none := by rw [flat.tree] at free; exact free
  obtain ⟨made, run, shape⟩ := maker.run_eq mode uid gid
  obtain ⟨root, children, ran, filed⟩ :=
    make_name flat.listed name absent (flat.listed.spacious_iff.mp room) made
  refine ⟨root, children, made first, ?_, filed, shape first⟩
  rw [exec, run, ran, Option.map_some]
  simp only [History.made, free, Option.isSome_none, Bool.false_eq_true, if_false]
  rfl

theorem make_kept (valid : Valid history (.make maker path mode uid gid))
    (allowed : Allowed pastFiles history (.make maker path mode uid gid)) :
    ∃ next, exec history (.make maker path mode uid gid) = some next ∧
      ∃ listing, Flat pastFiles next listing := by
  cases lives : history.tree path with
  | some entry => exact ⟨_, make_again flat valid lives, listing, flat.forget⟩
  | none =>
    rw [Allowed, lives] at allowed
    obtain missing | ⟨⟨clean, room⟩, first, rfl, short⟩ := allowed
    · cases missing
    have name : IsName first := valid.1 first List.mem_cons_self
    have absent : listing.lookup first = none := by rw [flat.tree] at lives; exact lives
    obtain ⟨root, children, node, ran, ⟨directory, rootIs, sound, entries⟩, path, modeSet, childless⟩ :=
      make_new flat name lives room maker mode uid gid
    have held := attach_next history.fs history.fs.root root node
    have shape := clean.children
    rw [← childless] at shape
    have stored : Stored (history.fs.attach history.fs.root root node) first (maker.entry mode history.fs) :=
      ⟨name, short, Nat.lt_succ_self _, Nat.ne_of_gt flat.listed.used, node, held, path, modeSet, shape⟩
    refine ⟨_, ran, listing ++ [(first, maker.entry mode history.fs)], ?_, ?_, ?_, ?_⟩
    · exact flat.listed.attach directory rootIs sound entries _ rfl stored
    · rw [History.add, flat.tree]
      exact (treeOf_append _ absent _).symm
    · intro past item member
      rcases List.mem_append.mp member with old | new
      · exact flat.files past item old
      · cases List.mem_singleton.mp new
        subst past
        cases maker <;> first | rfl | cases clean
    · intro ptr newest
      by_cases is : maker.directory = true
      · rw [if_pos is] at shape
        obtain ⟨dir, set, empty⟩ := shape
        cases (if_pos is).symm.trans newest
        exact ⟨node, dir, held, set, empty⟩
      · cases (if_neg is).symm.trans newest

end

theorem Walkable.of_sub {tree tree' : Tree} (walkable : Walkable tree path)
    (sub : ∀ above, above ≠ path → ∀ entry, tree' above = some entry → tree above = some entry) :
    Walkable tree' path := fun above part proper entry lives =>
  walkable above part proper entry (sub above proper entry lives)

theorem add_opens (walkable : Walkable history.tree path) (names : ∀ name ∈ path, IsName name)
    (right : Matches pastFiles (history.add path entry fs)) :
    tmpfsOpen fs (render path) = some (some entry.node) := by
  have asked : Walkable (history.add path entry fs).tree path :=
    walkable.of_sub fun above proper entry lives => (Function.update_of_ne proper ..).symm.trans lives
  have opened := right.opens path names (Or.inr asked)
  rwa [show (history.add path entry fs).tree path = some entry from Function.update_self ..] at opened

/-- A node of the first level at which the loop over the root goes wrong. -/
theorem unfound_broken (walkable : Walkable history.tree [first]) (names : ∀ name ∈ [first], IsName name)
    (lost : tmpfsFinddir fs fs.root first = none) : ¬ Matches pastFiles (history.add [first] entry fs) := by
  intro right
  have opened := add_opens walkable names right
  rw [tmpfsOpen, find_name (names first List.mem_cons_self), lost] at opened
  cases opened

theorem Maker.unclean {maker : Maker} (unclean : ¬ maker.Clean pastFiles) :
    (∃ length capacity, maker = .mkdir length capacity ∧ length ≠ 0) ∨
      maker.children = none ∧ pastFiles = true := by
  cases maker with
  | mkdir length capacity => exact Or.inl ⟨length, capacity, rfl, unclean⟩
  | create => exact Or.inr ⟨rfl, Bool.not_eq_false _ ▸ unclean⟩
  | mkfifo => exact Or.inr ⟨rfl, Bool.not_eq_false _ ▸ unclean⟩
  | mknod => exact Or.inr ⟨rfl, Bool.not_eq_false _ ▸ unclean⟩

theorem finddir_new (listed : Listed fs listing) (absent : listing.lookup first = none) {root : Node}
    (directory : root.children = some children)
    (entries : children.entries = listing.map (some ·.2.node) ++ [some fs.next])
    (path : node.path = first) : tmpfsFinddir (fs.attach fs.root root node) fs.root first =
      if first.length < nameSize then some (some fs.next) else none := by
  have passed : finddirIn (fs.attach fs.root root node).nodes first (listing.map (some ·.2.node)) =
      some none := by
    rw [finddirIn_listing, absent, Option.map_none]
    intro item member
    have stored := listed.stored item member
    rw [attach_other stored.used stored.apart]
    exact listed.live item member
  rw [finddir_eq (attach_parent listed.used root node) directory, entries, finddirIn_append passed]
  simp_all [finddirIn, attach_next]

section
variable (flat : Flat pastFiles history listing) (valid : Valid history (.make maker [first] mode uid gid))
  (free : history.tree [first] = none)
include flat valid free

theorem make_full_broken (full : ¬ Spacious history.fs) (ran : exec history (.make maker [first] mode uid gid) = some next) :
    ¬ Matches pastFiles next := by
  intro right
  have name : IsName first := valid.1 first List.mem_cons_self
  have absent : listing.lookup first = none := by rw [flat.tree] at free; exact free
  obtain ⟨made, run, -⟩ := maker.run_eq mode uid gid
  obtain ⟨root, filed, lost⟩ :=
    make_name_full flat.listed name absent (fun few => full (flat.listed.spacious_iff.mpr few)) made
  rw [exec, run, filed, Option.map_some] at ran
  simp only [History.made, free, Option.isSome_none, Bool.false_eq_true, if_false, Option.some.injEq] at ran
  subst ran
  exact unfound_broken (flat.walkable valid) valid.1 lost right

theorem make_new_broken (room : Spacious history.fs) (missed : ¬ (maker.Clean pastFiles ∧ first.length < nameSize))
    (ran : exec history (.make maker [first] mode uid gid) = some next) : ¬ Matches pastFiles next := by
  intro right
  have name : IsName first := valid.1 first List.mem_cons_self
  have absent : listing.lookup first = none := by rw [flat.tree] at free; exact free
  obtain ⟨root, children, node, made, ⟨directory, -, -, entries⟩, path, -, childless⟩ :=
    make_new flat name free room maker mode uid gid
  cases made.symm.trans ran
  have held := attach_next history.fs history.fs.root root node
  have reached := finddir_new flat.listed absent directory entries path
  by_cases short : first.length < nameSize
  · rw [if_pos short] at reached
    rcases Maker.unclean fun clean => missed ⟨clean, short⟩ with ⟨length, capacity, rfl, dirty⟩ | ⟨file, past⟩
    · obtain ⟨same, dir, held', set, empty⟩ := right.empty history.fs.next rfl
      cases held'.symm.trans held
      cases childless.symm.trans set
      exact dirty (BitVec.eq_of_toInt_eq empty)
    · have opened := right.opens [first, first] (by simp [name]) (Or.inl past)
      have shut : tmpfsFinddir (history.fs.attach history.fs.root root node) history.fs.next [] = none := by
        simp_all [tmpfsFinddir]
      have stuck : tmpfsFind (history.fs.attach history.fs.root root node) (render [first, first]) = none := by
        rw [find_below name, show (history.fs.attach history.fs.root root node).root = history.fs.root from rfl,
          reached]
        dsimp only
        rw [shut]
      cases opened.symm.trans (congrArg (Option.map _) stuck)
  · rw [if_neg short] at reached
    exact unfound_broken (flat.walkable valid) valid.1 reached right

end

theorem finddir_attach (listed : Listed fs listing) (found : listing.lookup first = some entry)
    (held : fs.nodes entry.node = some parent) (same : parent'.path = parent.path) (node : Node) :
    tmpfsFinddir (fs.attach entry.node parent' node) fs.root first = some (some entry.node) := by
  have stored := listed.stored _ (mem_of_lookup found)
  obtain ⟨root, dir, rootHeld, directory, -, -, entries⟩ := listed.root
  have rootStays := (attach_other listed.used stored.apart.symm parent' node).trans rootHeld
  rw [finddir_eq rootStays directory, entries, finddirIn_listing, found, Option.map_some]
  intro item member
  obtain ⟨short, child, childHeld, path⟩ := listed.live item member
  refine ⟨short, ?_⟩
  by_cases touched : item.2.node = entry.node
  · rw [touched] at childHeld ⊢
    cases held.symm.trans childHeld
    exact ⟨parent', attach_parent stored.used parent' node, same.trans path⟩
  · exact ⟨child, (attach_other (listed.stored item member).used touched parent' node).trans childHeld, path⟩

theorem push_empty {dir grown : Children} (empty : dir.length = 0) (pushed : dir.push ptr = some grown) :
    grown.entries = [] ∨ grown.entries = [some ptr] := by
  obtain ⟨⟨wider, room⟩, expanded, pushed⟩ := Option.bind_eq_some_iff.mp pushed
  have length := (expand_cases expanded).1.trans empty
  cases room with
  | false =>
    cases pushed
    rw [Children.entries, length]
    exact Or.inl rfl
  | true =>
    rw [entries_store pushed (by omega), Children.entries, length]
    exact Or.inr rfl

section
variable (flat : Flat pastFiles history listing)
include flat

theorem make_below_broken (valid : Valid history (.make maker [first, last] mode uid gid))
    (found : listing.lookup first = some entry) (directory : entry.directory = true)
    (ran : exec history (.make maker [first, last] mode uid gid) = some next) :
    ¬ Matches pastFiles next := by
  intro right
  have name : IsName first := valid.1 first List.mem_cons_self
  have stored := flat.listed.stored _ (mem_of_lookup found)
  obtain ⟨parent, held, path, -, children⟩ := stored.node
  rw [if_pos directory] at children
  obtain ⟨dir, set, empty⟩ := children
  have missing := find_below_listed flat.listed name last [] found
  rw [if_pos directory] at missing
  have free : history.tree [first, last] = none := by rw [flat.tree]; rfl
  obtain ⟨made, run, shape⟩ := maker.run_eq mode uid gid
  rw [exec, run, make_missing missing held set, token_render name] at ran
  cases pushed : dir.push history.fs.next with
  | none => rw [pushed] at ran; cases ran
  | some grown =>
    rw [pushed] at ran
    simp only [Option.map_some, History.made, free, Option.isSome_none, Bool.false_eq_true, if_false,
      Option.some.injEq] at ran
    subst ran
    have opened := add_opens (flat.walkable valid) valid.1 right
    generalize again : { parent with privateData := PrivateData.directory grown } = parent' at *
    have few := push_empty empty pushed
    have filled : parent'.children = some grown := by rw [← again]; rfl
    have unlike : tmpfsFinddir (history.fs.attach entry.node parent' (made first)) entry.node [] =
        some none := by
      rw [finddir_eq (attach_parent stored.used parent' (made first)) filled]
      obtain none | one := few
      · rw [none]
        rfl
      · rw [one]
        simp only [finddirIn, Option.bind_some, attach_next, (shape first).1, if_neg name.nonempty.symm]
    have lost : tmpfsFind (history.fs.attach entry.node parent' (made first)) (render [first, last]) =
        some (.missing entry.node) := by
      rw [find_below name, show (history.fs.attach entry.node parent' (made first)).root = history.fs.root from rfl,
        finddir_attach flat.listed found held (by rw [← again])]
      dsimp only
      rw [unlike]
    cases opened.symm.trans (congrArg (Option.map _) lost)

theorem make_broken (valid : Valid history (.make maker path mode uid gid))
    (missed : ¬ Allowed pastFiles history (.make maker path mode uid gid))
    (ran : exec history (.make maker path mode uid gid) = some next) : ¬ Matches pastFiles next := by
  obtain ⟨free, unfit⟩ := not_or.mp missed
  have free : history.tree path = none := Option.not_isSome_iff_eq_none.mp free
  rcases flat.places valid with top | ⟨name, one⟩ | ⟨first, second, entry, two, found, directory⟩
  · cases top
    rw [flat.tree] at free
    cases free
  · cases one
    by_cases room : Spacious history.fs
    · refine make_new_broken flat valid free room (fun both => unfit ?_) ran
      exact ⟨⟨both.1, room⟩, name, rfl, both.2⟩
    · exact make_full_broken flat valid free room ran
  · cases two
    exact make_below_broken flat valid found directory ran

/-! ### Removing nodes -/

theorem remove_absent (valid : Valid history call)
    (absent : history.tree call.path = none) (operation : Fs → NodePtr → Option (Nat × Fs))
    (gone : List Path → Bool) :
    history.remove operation call.path gone = some { history with newest := none } := by
  rw [History.remove, flat.opens valid, absent]
  rfl

theorem remove_live (valid : Valid history call)
    (lives : history.tree call.path = some entry) (operation : Fs → NodePtr → Option (Nat × Fs))
    (gone : List Path → Bool) : history.remove operation call.path gone =
      (operation history.fs entry.node).map (history.removed gone) := by
  rw [History.remove, flat.opens valid, lives]
  rfl

end

theorem finddir_freed (listed : Listed fs listing) (found : listing.lookup first = some entry) :
    tmpfsFinddir (fs.free entry.node) fs.root first = none := by
  have stored := listed.stored _ (mem_of_lookup found)
  obtain ⟨root, dir, held, directory, -, -, entries⟩ := listed.root
  have stays : (fs.free entry.node).nodes fs.root = some root :=
    (Function.update_of_ne stored.apart.symm ..).trans held
  rw [finddir_eq stays directory, entries]
  have live := listed.live
  clear entries listed stored
  induction listing with
  | nil => cases found
  | cons item rest ih =>
    obtain ⟨-, child, held, path⟩ := live item List.mem_cons_self
    rw [List.map_cons, finddirIn, Option.bind_some]
    by_cases freed : item.2.node = entry.node
    · rw [show (fs.free entry.node).nodes item.2.node = none from freed ▸ Function.update_self ..]
    · rw [show (fs.free entry.node).nodes item.2.node = some child from
        (Function.update_of_ne freed ..).trans held]
      grind

theorem removed_broken (flat : Flat pastFiles history listing) (valid : Valid history call)
    (lives : history.tree call.path = some entry) {gone : List Path → Bool} (self : gone call.path = true) :
    ¬ Matches pastFiles (history.removed gone (0, history.fs.free entry.node)) := by
  intro right
  have asked : Walkable (history.removed gone (0, history.fs.free entry.node)).tree call.path := by
    refine (flat.walkable valid).of_sub fun above _ entry lives => ?_
    exact (Option.ite_none_left_eq_some.mp lives).2
  have opened := right.opens call.path valid.1 (Or.inr asked)
  rw [show (history.removed gone (0, history.fs.free entry.node)).tree call.path = none from if_pos self]
    at opened
  rw [flat.tree] at lives
  match shape : call.path with
  | [] => rw [shape] at opened; cases opened
  | [name] =>
    rw [shape] at opened lives
    have freed := finddir_freed flat.listed lives
    have stuck : tmpfsFind (history.fs.free entry.node) (render [name]) = none := by
      rw [find_name (valid.1 name (by rw [shape]; exact List.mem_cons_self)),
        show (history.fs.free entry.node).root = history.fs.root from rfl, freed]
      rfl
    cases opened.symm.trans (congrArg (Option.map _) stuck)
  | _ :: _ :: _ => rw [shape] at lives; cases lives

theorem delete_eq (held : fs.nodes file = some node) : tmpfsDelete fs file =
    some (if isDir node.file.mode then (1, fs) else (0, fs.free file)) := by
  grind [tmpfsDelete]

theorem rmdir_refuses (held : fs.nodes file = some node) (other : isDir node.file.mode = false) :
    tmpfsRmdir fs file = some (1, fs) := by
  simp_all [tmpfsRmdir]

theorem rmdir_frees (held : fs.nodes file = some node) (directory : isDir node.file.mode = true)
    (ran : tmpfsRmdir fs file = some answer) : answer = (0, fs.free file) := by
  simp only [tmpfsRmdir, held, directory, bind_returned, Bool.not_true, Bool.false_eq_true, if_false,
    bind_returns, Option.some.injEq] at ran
  obtain ⟨-, -, rfl⟩ := ran
  rfl

theorem exec_kept (flat : Flat pastFiles history listing) (valid : Valid history call)
    (allowed : Allowed pastFiles history call) :
    ∃ next, exec history call = some next ∧ ∃ listing, Flat pastFiles next listing := by
  refine match call with
  | .make maker path mode uid gid => make_kept flat valid allowed
  | .delete path => ⟨{ history with newest := none }, ?delete, listing, flat.forget⟩
  | .rmdir path => ⟨{ history with newest := none }, ?rmdir, listing, flat.forget⟩
  case delete =>
    cases lives : history.tree path with
    | none => exact remove_absent flat valid lives tmpfsDelete _
    | some entry =>
      obtain ⟨node, held, mode⟩ := flat.live lives
      refine (remove_live flat valid lives tmpfsDelete _).trans ?_
      rw [delete_eq held, if_pos (mode ▸ allowed entry lives)]
      rfl
  case rmdir =>
    cases lives : history.tree path with
    | none => exact remove_absent flat valid lives tmpfsRmdir _
    | some entry =>
      obtain ⟨node, held, mode⟩ := flat.live lives
      refine (remove_live flat valid lives tmpfsRmdir _).trans ?_
      rw [rmdir_refuses held (mode ▸ allowed entry lives)]
      rfl

theorem exec_broken (flat : Flat pastFiles history listing) (valid : Valid history call)
    (missed : ¬ Allowed pastFiles history call) (ran : exec history call = some next) :
    ¬ Matches pastFiles next := by
  match call with
  | .make maker path mode uid gid => exact make_broken flat valid missed ran
  | .delete path =>
    simp only [Allowed, not_forall] at missed
    obtain ⟨entry, lives, file⟩ := missed
    obtain ⟨node, held, mode⟩ := flat.live lives
    have ran := (remove_live flat valid lives tmpfsDelete (· == path)).symm.trans ran
    rw [delete_eq held, if_neg (mode ▸ file)] at ran
    cases ran
    exact removed_broken flat valid lives (beq_self_eq_true path)
  | .rmdir path =>
    simp only [Allowed, not_forall, Bool.not_eq_false] at missed
    obtain ⟨entry, lives, directory⟩ := missed
    obtain ⟨node, held, mode⟩ := flat.live lives
    have ran := (remove_live flat valid lives tmpfsRmdir (path.isPrefixOf ·)).symm.trans ran
    obtain ⟨answer, removed, rfl⟩ := Option.map_eq_some_iff.mp ran
    rw [rmdir_frees held (mode ▸ directory) removed]
    exact removed_broken flat valid lives (List.isPrefixOf_iff_prefix.mpr (List.prefix_refl path))

/-! ### Mounting -/

/-- `vec_expand_` finds the array full. -/
def Grows (fresh : Fresh) : Prop := int32 (fresh.length.toInt + 1) > fresh.capacity.toInt

instance (fresh : Fresh) : Decidable (Grows fresh) := inferInstanceAs (Decidable (_ > _))

/-- Memory on which the first push of `tmpfs_mount` does no harm: `krealloc` refuses
the pointer, or asked for nothing, so that nothing is pushed; or the place behind the
last is in the block there is then. -/
def Harmless (fresh : Fresh) : Prop :=
  let asked := askedBytes fresh.capacity.toInt
  match fresh.block with
  | .unmapped => False
  | .stray => Grows fresh
  | .null => Grows fresh ∧ (asked = 0 ∨ InBlock fresh.length.toInt (kmallocSize asked))
  | .bytes size => ¬ Grows fresh ∧ InBlock fresh.length.toInt size ∨ Grows fresh ∧ (asked = 0 ∨
      asked ≤ size ∧ InBlock fresh.length.toInt asked ∨
      size < asked ∧ size ≤ kmallocSize asked ∧ InBlock fresh.length.toInt (kmallocSize asked))

theorem push_returns_iff {dir : Children} : (∃ grown, dir.push ptr = some grown) ↔ ∃ wider room,
    dir.expand = some (wider, room) ∧ (room = true → ∃ size, wider.block = .bytes size ∧ InBlock wider.length size) := by
  rw [Children.push]
  constructor
  · rintro ⟨grown, pushed⟩
    obtain ⟨⟨wider, room⟩, expanded, stored⟩ := Option.bind_eq_some_iff.mp pushed
    refine ⟨wider, room, expanded, fun given => ?_⟩
    obtain ⟨size, block, inside, -⟩ := store_cases ((if_pos given).symm.trans stored)
    exact ⟨size, block, inside⟩
  · rintro ⟨wider, room, expanded, stores⟩
    rw [expanded]
    cases room with
    | false => exact ⟨wider, rfl⟩
    | true =>
      obtain ⟨size, block, inside⟩ := stores rfl
      exact ⟨_, store_inside block inside ptr⟩

theorem harmless_iff (fresh : Fresh) : (∃ grown, fresh.children.push 0 = some grown) ↔ Harmless fresh := by
  rw [push_returns_iff]
  by_cases grows : Grows fresh
  · have expanded : fresh.children.expand = _ := if_pos grows
    rw [expanded, Harmless, show fresh.children.block = fresh.block from rfl,
      show fresh.children.capacity = fresh.capacity.toInt from rfl]
    cases fresh.block with
    | unmapped => simp [Block.krealloc]
    | stray => simp [Block.krealloc, grows]
    | null =>
      dsimp only [Block.krealloc]
      by_cases nothing : askedBytes fresh.capacity.toInt = 0
      · simp [nothing, grows]
      · simp [nothing, grows, Fresh.children]
    | bytes size =>
      dsimp only [Block.krealloc]
      by_cases nothing : askedBytes fresh.capacity.toInt = 0
      · simp [nothing, grows]
      · by_cases shorter : askedBytes fresh.capacity.toInt ≤ size
        · simp [nothing, shorter, Nat.not_lt.mpr shorter, grows, Fresh.children]
        · by_cases fits : size ≤ kmallocSize (askedBytes fresh.capacity.toInt)
          · simp [nothing, shorter, Nat.not_le.mp shorter, fits, grows, Fresh.children]
          · simp [nothing, shorter, fits, grows]
  · have expanded : fresh.children.expand = some (fresh.children, true) := if_neg grows
    rw [expanded, Harmless]
    cases block : fresh.block <;> simp [Fresh.children, block, grows]

theorem mount_iff (fresh : Fresh) : tmpfsMount fresh = some fs ↔ Harmless fresh ∧ fs = mounted := by
  rw [← harmless_iff, tmpfsMount, Option.map_eq_some_iff]
  constructor
  · rintro ⟨grown, pushed, rfl⟩
    exact ⟨⟨grown, pushed⟩, rfl⟩
  · rintro ⟨⟨grown, pushed⟩, rfl⟩
    exact ⟨grown, pushed, rfl⟩

theorem start_flat (pastFiles : Bool) : Flat pastFiles (start mounted) [] := by
  refine ⟨⟨by decide, ?_, nofun⟩, ?_, nofun, nofun⟩
  · exact ⟨_, _, rfl, rfl, rfl,
      ⟨by decide, by decide, ⟨0, by decide, by decide⟩, fileBytes, rfl, by decide, by decide⟩, rfl⟩
  · funext path
    match path with
    | [] => rfl
    | [_] => rfl
    | _ :: _ :: _ => rfl

/-- A tmpfs is the tree its calls describe exactly when the memory it is
mounted in is harmless and every call is one that does no harm: nothing is made
below the first level or beyond its most nodes, no directory in memory that makes it
look filled, and nothing is removed. -/
theorem tmpfs_is_tree_iff (pastFiles : Bool) (fresh : Fresh) (calls : List Call)
    (valid : Along exec Valid (start mounted) calls) :
    IsTree pastFiles fresh calls ↔
      Harmless fresh ∧ Along exec (Allowed pastFiles) (start mounted) calls := by
  have gives : ∀ history, (∃ listing, Flat pastFiles history listing) → Matches pastFiles history :=
    fun history ⟨listing, flat⟩ => flat.matches
  have kept : ∀ history call, (∃ listing, Flat pastFiles history listing) → Valid history call →
      Allowed pastFiles history call →
      ∃ next, exec history call = some next ∧ ∃ listing, Flat pastFiles next listing :=
    fun history call ⟨listing, flat⟩ fits allowed => exec_kept flat fits allowed
  have broken : ∀ history call next, (∃ listing, Flat pastFiles history listing) → Valid history call →
      ¬ Allowed pastFiles history call → exec history call = some next → ¬ Matches pastFiles next :=
    fun history call next ⟨listing, flat⟩ fits missed ran => exec_broken flat fits missed ran
  have exact := served_iff_along gives kept broken ⟨[], start_flat pastFiles⟩ valid
  constructor
  · rintro ⟨fs, ran, served⟩
    obtain ⟨harmless, rfl⟩ := (mount_iff fresh).mp ran
    exact ⟨harmless, exact.mp served⟩
  · rintro ⟨harmless, met⟩
    exact ⟨mounted, (mount_iff fresh).mpr ⟨harmless, rfl⟩, exact.mpr met⟩

def zeroed : Fresh := ⟨.null, 0, 0⟩
def mkdirA : Call := .make (.mkdir 0 0) [[0x61]] 0o755 0 0
def createB : Call := .make .create [[0x62]] 0o644 0 0
def createAB : Call := .make .create [[0x61], [0x62]] 0o644 0 0

theorem isName_letter {byte : UInt8} (letter : byte ≠ slash ∧ byte ≠ 0) : IsName [byte] :=
  ⟨by simp, by simpa using letter.1.symm, by simpa using letter.2.symm⟩

theorem mkdirA_valid : Valid (start mounted) mkdirA :=
  ⟨by simpa [mkdirA, Call.path] using isName_letter (by decide), Or.inr ⟨_, rfl, rfl⟩⟩

theorem mounted_spacious : Spacious mounted := ⟨_, _, rfl, rfl, by decide⟩

theorem first_level_is_tree : Along exec Valid (start mounted) [mkdirA, createB] ∧
    IsTree false zeroed [mkdirA, createB] := by
  have valid : Along exec Valid (start mounted) [mkdirA, createB] := by
    refine ⟨mkdirA_valid, ?_⟩
    rintro next ⟨⟩
    refine ⟨⟨by simpa [createB, Call.path] using isName_letter (by decide), Or.inr ⟨_, rfl, rfl⟩⟩, ?_⟩
    exact fun _ _ => trivial
  refine ⟨valid, (tmpfs_is_tree_iff false zeroed _ valid).mpr ⟨⟨by decide, Or.inr (by decide)⟩, ?_, ?_⟩⟩
  · exact Or.inr ⟨⟨rfl, mounted_spacious⟩, _, rfl, by decide⟩
  · rintro next ⟨⟩
    exact ⟨Or.inr ⟨⟨rfl, _, _, rfl, rfl, by decide⟩, _, rfl, by decide⟩, fun _ _ => trivial⟩

/-- In zeroed memory, `/a` is made and `/a/b` in it, and `/a/b` is not there:
the node lies in `/a` under the name `a`. -/
theorem file_in_directory_lost : Along exec Valid (start mounted) [mkdirA, createAB] ∧
    ([mkdirA, createAB].foldlM exec (start mounted)).map (fun history =>
      (tmpfsOpen history.fs (render [[0x61], [0x62]]),
        (history.tree [[0x61], [0x62]]).map Entry.node)) = some (some none, some 2) ∧
    ¬ IsTree false zeroed [mkdirA, createAB] := by
  have valid : Along exec Valid (start mounted) [mkdirA, createAB] := by
    refine ⟨mkdirA_valid, ?_⟩
    rintro next ⟨⟩
    refine ⟨⟨?_, Or.inr ⟨_, rfl, rfl⟩⟩, fun _ _ => trivial⟩
    simpa [createAB, Call.path] using ⟨isName_letter (by decide), isName_letter (by decide)⟩
  refine ⟨valid, by decide +kernel, ?_⟩
  rintro ⟨fs, ran, -, next, first, -, final, second, right⟩
  obtain ⟨-, rfl⟩ := (mount_iff zeroed).mp ran
  obtain ⟨same, stepped, listing, flat⟩ :=
    exec_kept (start_flat false) mkdirA_valid (Or.inr ⟨⟨rfl, mounted_spacious⟩, _, rfl, by decide⟩)
  cases stepped.symm.trans first
  refine exec_broken flat (valid.2 next first).1 ?_ second right
  rintro (lives | ⟨-, name, one, -⟩)
  · rw [flat.tree] at lives
    cases lives
  · cases one

end MandelbrotOS.TmpfsTree
