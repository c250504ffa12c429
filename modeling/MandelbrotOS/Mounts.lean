import Mathlib.Data.List.Infix
import MandelbrotOS.Descriptors

/-! The mount table of `fs/vfs.c`. A path is resolved by cutting characters off
its end until a mounted path remains, and the file system gets what follows the
mount, slash included. The two are computed apart, the second from lengths. To
create a file `syscall_open` first looks at its directory, by the path cut at its
last slash; the path of a mounted directory then lacks the slash it is mounted
with. -/
namespace MandelbrotOS.Mounts
open Descriptors

def slash : UInt8 := 0x2f

/-- `vfs_mount_info_t`; a file system mounted without a device has none. -/
structure MountInfo (Dev Fs : Type) where
  dev : Option Dev
  path : Path
  fs : Fs

/-- `vfs_mounts` and `root_mount`. -/
structure MountTable (Dev Fs : Type) where
  mounts : List (MountInfo Dev Fs) := []
  rootMount : Option (MountInfo Dev Fs) := none

/-- `fs_ops_t`: its name, its `mount` where it has one, and the operations that
take a path. What an operation gives back is left open. -/
structure FsOps (Dev Fs Result : Type) where
  fsName : Path
  mount : Option (Option Dev → Option Fs)
  openAt : Fs → Path → Result
  createAt : Fs → Path → BitVec 32 → Int → Int → Result
  mkdirAt : Fs → Path → BitVec 32 → Int → Int → Result
  mknodAt : Fs → Path → BitVec 32 → Int → Int → Dev → Result
  mkfifoAt : Fs → Path → BitVec 32 → Int → Int → Result

variable {Dev Fs Result : Type}

def vfsIsMounted (table : MountTable Dev Fs) (path : Path) : Bool :=
  table.mounts.any fun info => info.path == path

/-- The loop of `vfs_find_mount`, where `path_dup` has been cut to `count`
characters. -/
def findCut (table : MountTable Dev Fs) (path : Path) : Nat → Option (MountInfo Dev Fs)
  | 0 | 1 => table.rootMount
  | count + 2 =>
    match table.mounts.find? fun info => info.path == path.take (count + 2) with
    | some info => some info
    | none => findCut table path (count + 1)

def vfsFindMount (table : MountTable Dev Fs) (path : Path) : Option (MountInfo Dev Fs) :=
  if path = [slash] then table.rootMount else findCut table path path.length

/-- The first registered file system, of that name where one is given, whose
`mount` takes the device. -/
def vfsMountFs (registered : List (FsOps Dev Fs Result)) (dev : Option Dev) (name : Option Path) :
    Option Fs :=
  registered.findSome? fun ops =>
    match ops.mount, name with
    | none, _ => none
    | some mount, none => mount dev
    | some mount, some wanted => if wanted = ops.fsName then mount dev else none

/-- `vfs_mount`: 0 on success. -/
def vfsMount (registered : List (FsOps Dev Fs Result)) (table : MountTable Dev Fs) (path : Path)
    (dev : Option Dev) (fsName : Option Path) : Nat × MountTable Dev Fs :=
  if table.rootMount.isNone && path != [slash] then (1, table)
  else if vfsIsMounted table path then (1, table)
  else
    match vfsMountFs registered dev fsName with
    | none => (1, table)
    | some fs =>
      let info : MountInfo Dev Fs := ⟨dev, path, fs⟩
      (0, ⟨table.mounts ++ [info], table.rootMount <|> some info⟩)

/-- The string `vfs_open` and its siblings hand on for a path under a mount. -/
def residual (info : MountInfo Dev Fs) (path : Path) : Path :=
  if path.length = info.path.length then [slash] else path.drop (info.path.length - 1)

/-- The mount of a path and what is left of it; `none` follows a `NULL` mount. -/
def resolve (table : MountTable Dev Fs) (path : Path) : Option (Fs × Path) :=
  (vfsFindMount table path).map fun info => (info.fs, residual info path)

section Calls
variable (opsOf : Fs → FsOps Dev Fs Result) (table : MountTable Dev Fs)

/-- The common shape of the path calls: resolve, then call the mount's file system. -/
def handOn (path : Path) (operation : FsOps Dev Fs Result → Fs → Path → Result) : Option Result :=
  (resolve table path).map fun found => operation (opsOf found.1) found.1 found.2

def vfsOpen (name : Path) : Option Result :=
  handOn opsOf table name fun ops fs str => ops.openAt fs str

def vfsCreate (path : Path) (mode : BitVec 32) (uid gid : Int) : Option Result :=
  handOn opsOf table path fun ops fs str => ops.createAt fs str mode uid gid

def vfsMkdir (path : Path) (mode : BitVec 32) (uid gid : Int) : Option Result :=
  handOn opsOf table path fun ops fs str => ops.mkdirAt fs str mode uid gid

def vfsMknod (path : Path) (mode : BitVec 32) (uid gid : Int) (dev : Dev) : Option Result :=
  handOn opsOf table path fun ops fs str => ops.mknodAt fs str mode uid gid dev

/-- `vfs_mkfifo` of a named fifo; an anonymous one has no path to resolve. -/
def vfsMkfifo (name : Path) (mode : BitVec 32) (uid gid : Int) : Option Result :=
  handOn opsOf table name fun ops fs str => ops.mkfifoAt fs str mode uid gid

end Calls

structure MountCall (Dev : Type) where
  path : Path
  dev : Option Dev
  fsName : Option Path

/-- A call of `vfs_mount` that succeeds. -/
def mountStep (registered : List (FsOps Dev Fs Result)) (table : MountTable Dev Fs)
    (call : MountCall Dev) : Option (MountTable Dev Fs) :=
  match vfsMount registered table call.path call.dev call.fsName with
  | (0, after) => some after
  | _ => none

def Absolute (path : Path) : Prop := ∃ rest, path = slash :: rest

def SlashEnded (path : Path) : Prop := ∃ front, path = front ++ [slash]

structure WellFormed (table : MountTable Dev Fs) : Prop where
  ended : ∀ info ∈ table.mounts, SlashEnded info.path
  rooted : ∀ info, table.rootMount = some info → info ∈ table.mounts ∧ info.path = [slash]
  unrooted : table.rootMount = none → table.mounts = []
  distinct : ∀ info ∈ table.mounts, ∀ other ∈ table.mounts, info.path = other.path → info = other

theorem mountStep_cases {registered : List (FsOps Dev Fs Result)} {table after : MountTable Dev Fs}
    {call : MountCall Dev} (ran : mountStep registered table call = some after) :
    ∃ info : MountInfo Dev Fs, info.path = call.path ∧
      (table.rootMount = none → call.path = [slash]) ∧
      (∀ other ∈ table.mounts, other.path ≠ call.path) ∧
      after = ⟨table.mounts ++ [info], table.rootMount <|> some info⟩ := by
  unfold mountStep vfsMount at ran
  split at ran
  case h_2 => cases ran
  case h_1 same =>
    cases ran
    split at same
    · cases same
    rename_i rooted
    split at same
    · cases same
    rename_i fresh
    split at same
    · cases same
    rename_i fs mounted
    cases same
    refine ⟨⟨call.dev, call.path, fs⟩, rfl, ?_, ?_, rfl⟩
    · intro unset
      simpa [unset] using rooted
    · intro other held same
      exact fresh (List.any_eq_true.mpr ⟨other, held, by simpa using same⟩)

theorem mountStep_keeps {registered : List (FsOps Dev Fs Result)} {table after : MountTable Dev Fs}
    {call : MountCall Dev} (formed : WellFormed table) (ended : SlashEnded call.path)
    (ran : mountStep registered table call = some after) : WellFormed after := by
  obtain ⟨info, path, first, fresh, rfl⟩ := mountStep_cases ran
  constructor
  · intro mounted held
    rcases List.mem_append.mp held with old | new
    · exact formed.ended mounted old
    · simp_all
  · intro root set
    cases before : table.rootMount with
    | none =>
      simp_all
    | some old =>
      rw [before] at set
      obtain rfl : old = root := Option.some.inj set
      obtain ⟨held, slashed⟩ := formed.rooted old before
      exact ⟨List.mem_append_left _ held, slashed⟩
  · intro unset
    simp_all
  · intro left leftHeld right rightHeld same
    rcases List.mem_append.mp leftHeld with leftOld | leftNew <;>
      rcases List.mem_append.mp rightHeld with rightOld | rightNew
    · exact formed.distinct left leftOld right rightOld same
    · simp_all
    · grind
    · simp_all

/-- What the mounted file systems see of a path: it is resolved to the one
longest mount that is a prefix of it, and nothing of it is lost. -/
structure Resolved (table : MountTable Dev Fs) (path : Path) (info : MountInfo Dev Fs)
    (str : Path) : Prop where
  mounted : info ∈ table.mounts
  found : vfsFindMount table path = some info
  above : info.path <+: path
  longest : ∀ other ∈ table.mounts, other.path <+: path →
    other = info ∨ other.path.length < info.path.length
  absolute : Absolute str
  lossless : info.path.dropLast ++ str = path

theorem findCut_longest {table : MountTable Dev Fs} {path : Path} {root : MountInfo Dev Fs}
    (rooted : table.rootMount = some root) (rootHeld : root ∈ table.mounts)
    (rootPath : root.path = [slash]) (absolute : Absolute path) :
    ∀ count ≤ path.length, ∃ info ∈ table.mounts, findCut table path count = some info ∧
      info.path <+: path ∧ ∀ other ∈ table.mounts, other.path <+: path →
        other.path.length ≤ count → other.path.length ≤ info.path.length := by
  have atRoot : root.path <+: path ∧ ∀ other : MountInfo Dev Fs, other.path.length ≤ 1 →
      other.path.length ≤ root.path.length := by
    obtain ⟨rest, rfl⟩ := absolute
    simp_all
  intro count
  -- the recursion of the loop: one character less each time round
  induction count using findCut.induct table path with
  | case1 | case2 =>
    intro _
    exact ⟨root, rootHeld, rooted, atRoot.1, fun other _ _ short => atRoot.2 other (by omega)⟩
  | case3 count info found =>
    grind [findCut]
  | case4 count missing ih =>
    grind [findCut, List.prefix_iff_eq_take]

theorem residual_lossless {info : MountInfo Dev Fs} {path : Path} (ended : SlashEnded info.path)
    (above : info.path <+: path) :
    Absolute (residual info path) ∧ info.path.dropLast ++ residual info path = path := by
  obtain ⟨front, ends⟩ := ended
  obtain ⟨rest, rfl⟩ := above
  unfold residual
  rw [ends]
  split
  case isTrue same =>
    have nothing : rest = [] := by simpa using same
    subst nothing
    exact ⟨⟨[], rfl⟩, by simp⟩
  case isFalse =>
    have left : ((front ++ [slash]) ++ rest).drop ((front ++ [slash]).length - 1) = slash :: rest := by
      simp
    rw [left]
    exact ⟨⟨rest, rfl⟩, by simp⟩

theorem wellFormed_resolves {table : MountTable Dev Fs} {path : Path} (formed : WellFormed table)
    (inUse : table.mounts ≠ []) (absolute : Absolute path) :
    ∃ info, Resolved table path info (residual info path) := by
  obtain ⟨root, rooted⟩ : ∃ root, table.rootMount = some root :=
    Option.ne_none_iff_exists'.mp fun unset => inUse (formed.unrooted unset)
  obtain ⟨rootHeld, rootPath⟩ := formed.rooted root rooted
  obtain ⟨info, held, found, above, longest⟩ :=
    findCut_longest rooted rootHeld rootPath absolute path.length le_rfl
  obtain ⟨begins, lossless⟩ := residual_lossless (formed.ended info held) above
  refine ⟨info, held, ?_, above, ?_, begins, lossless⟩
  · unfold vfsFindMount
    split
    case isTrue short =>
      -- the shortcut for the root directory finds what the loop would
      rw [← found, short]
      rfl
    case isFalse => exact found
  · intro other otherHeld otherAbove
    rcases Nat.lt_or_eq_of_le (longest other otherHeld otherAbove otherAbove.length_le) with
      shorter | same
    · exact .inr shorter
    · have paths : other.path = info.path := by
        rw [List.prefix_iff_eq_take.mp otherAbove, List.prefix_iff_eq_take.mp above, same]
      exact .inl (formed.distinct other otherHeld info held paths)

theorem mountSteps_keep {registered : List (FsOps Dev Fs Result)}
    {table after : MountTable Dev Fs} {calls : List (MountCall Dev)}
    (ended : ∀ call ∈ calls, SlashEnded call.path) (formed : WellFormed table)
    (built : calls.foldlM (mountStep registered) table = some after) :
    WellFormed after ∧ (calls ≠ [] ∨ table.mounts ≠ [] → after.mounts ≠ []) := by
  induction calls generalizing table with
  | nil =>
    cases built
    exact ⟨formed, by simp⟩
  | cons call rest ih =>
    obtain ⟨next, stepped, built⟩ := Option.bind_eq_some_iff.mp built
    obtain ⟨info, _, _, _, pushed⟩ := mountStep_cases stepped
    grind [mountStep_keeps, List.mem_cons_self, List.mem_cons_of_mem]

theorem wellFormed_empty : WellFormed ({} : MountTable Dev Fs) := by
  constructor <;> simp

/-- Mount resolution is longest-prefix and lossless: after any sequence of
successful mounts of paths between slashes, every absolute path goes to the one
longest mount above it, and the five path calls hand on the rest of it. -/
theorem mounts_resolve (registered : List (FsOps Dev Fs Result)) (opsOf : Fs → FsOps Dev Fs Result)
    (calls : List (MountCall Dev)) (table : MountTable Dev Fs) (path : Path)
    (slashed : ∀ call ∈ calls, Absolute call.path ∧ SlashEnded call.path)
    (first : calls.head?.map MountCall.path = some [slash])
    (built : calls.foldlM (mountStep registered) {} = some table) (absolute : Absolute path) :
    ∃ info str, Resolved table path info str ∧
      vfsOpen opsOf table path = some ((opsOf info.fs).openAt info.fs str) ∧
      ∀ mode uid gid,
        vfsCreate opsOf table path mode uid gid =
          some ((opsOf info.fs).createAt info.fs str mode uid gid) ∧
        vfsMkdir opsOf table path mode uid gid =
          some ((opsOf info.fs).mkdirAt info.fs str mode uid gid) ∧
        (∀ dev, vfsMknod opsOf table path mode uid gid dev =
          some ((opsOf info.fs).mknodAt info.fs str mode uid gid dev)) ∧
        vfsMkfifo opsOf table path mode uid gid =
          some ((opsOf info.fs).mkfifoAt info.fs str mode uid gid) := by
  have listed : calls ≠ [] := by
    rintro rfl
    cases first
  obtain ⟨formed, inUse⟩ :=
    mountSteps_keep (fun call member => (slashed call member).2) wellFormed_empty built
  obtain ⟨info, resolved⟩ := wellFormed_resolves formed (inUse (.inl listed)) absolute
  have through : resolve table path = some (info.fs, residual info path) := by
    simp only [resolve, resolved.found, Option.map_some]
  refine ⟨info, residual info path, resolved, ?_, fun mode uid gid => ⟨?_, ?_, fun dev => ?_, ?_⟩⟩ <;>
    simp only [vfsOpen, vfsCreate, vfsMkdir, vfsMknod, vfsMkfifo, handOn, through, Option.map_some]

def keepsPath : FsOps Nat Nat Path :=
  ⟨[], some fun dev => some (dev.getD 0), fun _ str => str, fun _ str _ _ _ => str,
    fun _ str _ _ _ => str, fun _ str _ _ _ _ => str, fun _ str _ _ _ => str⟩

theorem console_resolves :
    let calls : List (MountCall Nat) := [⟨[slash], some 1, none⟩, ⟨[slash, 100, slash], none, none⟩]
    ∃ table, calls.foldlM (mountStep [keepsPath]) {} = some table ∧
      ∃ info str, Resolved table [slash, 100, slash, 99] info str := by
  refine ⟨_, rfl, ?_⟩
  obtain ⟨info, str, resolved, _⟩ := mounts_resolve [keepsPath] (fun _ => keepsPath)
    [⟨[slash], some 1, none⟩, ⟨[slash, 100, slash], none, none⟩] _ [slash, 100, slash, 99]
    (by
      simp only [List.forall_mem_cons, List.not_mem_nil, false_implies, implies_true, and_true]
      exact ⟨⟨⟨_, rfl⟩, [], rfl⟩, ⟨_, rfl⟩, [slash, 100], rfl⟩)
    rfl rfl ⟨_, rfl⟩
  exact ⟨info, str, resolved⟩

/-! ### The directory a file is created in -/

/-- The file is created as an entry of the directory that was looked at: by the same
mount, under the path of that and a slash. -/
structure SameDirectory (checked made : MountInfo Dev Fs) (parent name : Path) : Prop where
  mount : checked = made
  path : residual made (parent ++ slash :: name) = residual checked parent ++ slash :: name

theorem cutAtLastSlash_name (parent : Path) {name : Path} (plain : slash ∉ name) :
    cutAtLastSlash (parent ++ slash :: name) (parent ++ slash :: name).length = parent := by
  have cut : ∀ k ≤ name.length, cutAtLastSlash (parent ++ slash :: name) (parent.length + 1 + k) = parent := by
    intro k
    induction k with
    | zero =>
      intro _
      rw [Nat.add_zero, cutAtLastSlash, if_pos, List.take_left]
      rw [List.getElem?_append_right (Nat.le_refl _), Nat.sub_self]
      rfl
    | succ k ih =>
      intro within
      rw [← Nat.add_assoc, cutAtLastSlash, if_neg, ih (by omega)]
      rw [List.getElem?_append_right (by omega), show parent.length + 1 + k - parent.length = k + 1 by omega,
        List.getElem?_cons_succ]
      exact fun found => plain (List.mem_of_getElem? found)
  have length : (parent ++ slash :: name).length = parent.length + 1 + name.length := by
    rw [List.length_append, List.length_cons]
    omega
  rw [length]
  exact cut name.length le_rfl

theorem above_parent {mount parent name : Path} (plain : slash ∉ name) (ended : SlashEnded mount)
    (above : mount <+: parent ++ slash :: name) : mount <+: parent ∨ mount = parent ++ [slash] := by
  obtain ⟨after, same⟩ := above
  rcases List.append_eq_append_iff.mp same with ⟨rest, inside, -⟩ | ⟨beyond, inside, begins⟩
  · exact Or.inl ⟨rest, inside.symm⟩
  · cases beyond with
    | nil => exact Or.inl ⟨[], by rw [inside, List.append_nil, List.append_nil]⟩
    | cons first beyond =>
      obtain ⟨rfl, named⟩ := List.cons.inj begins
      rcases List.eq_nil_or_concat beyond with rfl | ⟨init, last, rfl⟩
      · exact Or.inr inside
      · -- the slash at the end would be one of the name
        obtain ⟨front, ends⟩ := ended
        grind [List.append_inj_right']

theorem residual_child {info : MountInfo Dev Fs} {parent name : Path} (ended : SlashEnded info.path)
    (above : info.path <+: parent) :
    residual info (parent ++ slash :: name) = residual info parent ++ slash :: name := by
  grind [residual_lossless, List.append_cancel_left_eq]

theorem Resolved.eq_of_longest {table : MountTable Dev Fs} {path str : Path} {info other : MountInfo Dev Fs}
    (resolved : Resolved table path info str) (mounted : other ∈ table.mounts) (above : other.path <+: path)
    (longest : info.path.length ≤ other.path.length) : other = info := by
  rcases resolved.longest other mounted above with same | shorter
  · exact same
  · omega

theorem parent_resolves {table : MountTable Dev Fs} {parent name str : Path} {made : MountInfo Dev Fs}
    (formed : WellFormed table) (absolute : Absolute (parent ++ slash :: name)) (plain : slash ∉ name)
    (resolved : Resolved table (parent ++ slash :: name) made str) :
    ∃ checked, vfsFindMount table parent = some checked ∧
      (SameDirectory checked made parent name ↔
        parent = [] ∨ ∀ info ∈ table.mounts, info.path ≠ parent ++ [slash]) := by
  have inUse : table.mounts ≠ [] := List.ne_nil_of_mem resolved.mounted
  have ended := formed.ended made resolved.mounted
  cases parent with
  | nil =>
    obtain ⟨root, rooted⟩ : ∃ root, table.rootMount = some root :=
      Option.ne_none_iff_exists'.mp fun unset => inUse (formed.unrooted unset)
    obtain ⟨held, path⟩ := formed.rooted root rooted
    have same : root = made := by
      apply formed.distinct root held made resolved.mounted
      rcases above_parent plain ended resolved.above with inside | whole
      · obtain ⟨front, ends⟩ := ended
        simp_all
      · rw [path, whole, List.nil_append]
    subst same
    refine ⟨root, rooted, iff_of_true ⟨rfl, ?_⟩ (Or.inl rfl)⟩
    simp_all [residual]
  | cons first rest =>
    obtain ⟨_, begins⟩ := absolute
    obtain rfl : first = slash := (List.cons.inj begins).1
    obtain ⟨checked, above⟩ := wellFormed_resolves formed inUse ⟨rest, rfl⟩
    refine ⟨checked, above.found, ?_⟩
    constructor
    · rintro ⟨rfl, -⟩
      refine Or.inr fun info held path => ?_
      have short := above.above.length_le
      have same := resolved.eq_of_longest held (by rw [path]; exact ⟨name, by simp⟩)
        (by rw [path, List.length_append]; omega)
      grind
    · rintro (empty | unmounted)
      · cases empty
      · have inside : made.path <+: slash :: rest :=
          (above_parent plain ended resolved.above).resolve_right (unmounted made resolved.mounted)
        rcases above.longest made resolved.mounted inside with rfl | shorter
        · exact ⟨rfl, residual_child ended inside⟩
        · have longer := resolved.longest checked above.mounted
            (above.above.trans (List.prefix_append (slash :: rest) (slash :: name)))
          grind

/-- **`O_CREAT` looks at the directory it creates in unless that is a mount point.**
After any sequence of successful mounts of paths between slashes, `/` first, and for
every absolute path with a name at its end: what `syscall_open` asks for permission is
the directory the file is created in, by the same mount, if and only if that is the
root directory or no mount has its path. -/
theorem creat_checks_parent_iff (registered : List (FsOps Dev Fs Result)) (opsOf : Fs → FsOps Dev Fs Result)
    (calls : List (MountCall Dev)) (table : MountTable Dev Fs) (parent name : Path)
    (slashed : ∀ call ∈ calls, Absolute call.path ∧ SlashEnded call.path)
    (first : calls.head?.map MountCall.path = some [slash])
    (built : calls.foldlM (mountStep registered) {} = some table)
    (absolute : Absolute (parent ++ slash :: name)) (plain : slash ∉ name) :
    cutAtLastSlash (parent ++ slash :: name) (parent ++ slash :: name).length = parent ∧
    ∃ checked made, vfsFindMount table parent = some checked ∧
      vfsFindMount table (parent ++ slash :: name) = some made ∧
      vfsOpen opsOf table parent = some ((opsOf checked.fs).openAt checked.fs (residual checked parent)) ∧
      (∀ mode uid gid, vfsCreate opsOf table (parent ++ slash :: name) mode uid gid =
        some ((opsOf made.fs).createAt made.fs (residual made (parent ++ slash :: name)) mode uid gid)) ∧
      (SameDirectory checked made parent name ↔
        parent = [] ∨ ∀ info ∈ table.mounts, info.path ≠ parent ++ [slash]) := by
  have listed : calls ≠ [] := by
    rintro rfl
    cases first
  obtain ⟨formed, inUse⟩ :=
    mountSteps_keep (fun call member => (slashed call member).2) wellFormed_empty built
  obtain ⟨made, resolved⟩ := wellFormed_resolves formed (inUse (.inl listed)) absolute
  obtain ⟨checked, found, same⟩ := parent_resolves formed absolute plain resolved
  refine ⟨cutAtLastSlash_name parent plain, checked, made, found, resolved.found, ?_, fun mode uid gid => ?_, same⟩
  · simp only [vfsOpen, handOn, resolve, found, Option.map_some]
  · simp only [vfsCreate, handOn, resolve, resolved.found, Option.map_some]

/-- `/` and `/d/` mounted as at boot. -/
def bootMounts : List (MountCall Nat) := [⟨[slash], some 1, none⟩, ⟨[slash, 100, slash], none, none⟩]

theorem bootMounts_slashed : ∀ call ∈ bootMounts, Absolute call.path ∧ SlashEnded call.path := by
  simp only [bootMounts, List.forall_mem_cons, List.not_mem_nil, false_implies, implies_true, and_true]
  exact ⟨⟨⟨_, rfl⟩, [], rfl⟩, ⟨_, rfl⟩, [slash, 100], rfl⟩

theorem nested_parent_checked : ∃ table checked made, bootMounts.foldlM (mountStep [keepsPath]) {} = some table ∧
    vfsFindMount table [slash, 100, slash, 97] = some checked ∧
    vfsFindMount table [slash, 100, slash, 97, slash, 99] = some made ∧
    SameDirectory checked made [slash, 100, slash, 97] [99] := by
  obtain ⟨-, checked, made, above, found, -, -, same⟩ := creat_checks_parent_iff [keepsPath] (fun _ => keepsPath)
    bootMounts _ [slash, 100, slash, 97] [99] bootMounts_slashed rfl rfl ⟨_, rfl⟩ (by decide)
  refine ⟨_, checked, made, rfl, above, found, same.mpr (Or.inr ?_)⟩
  simp only [List.nil_append, List.cons_append, List.forall_mem_cons]
  decide

/-- To create `/d/c`, which comes to be `/c` of the second mount, `/d` of the first one
is asked. -/
theorem mount_point_not_checked : ∃ table checked made, bootMounts.foldlM (mountStep [keepsPath]) {} = some table ∧
    cutAtLastSlash [slash, 100, slash, 99] 4 = [slash, 100] ∧
    vfsFindMount table [slash, 100] = some checked ∧ checked.path = [slash] ∧
    residual checked [slash, 100] = [slash, 100] ∧
    vfsFindMount table [slash, 100, slash, 99] = some made ∧ made.path = [slash, 100, slash] ∧
    residual made [slash, 100, slash, 99] = [slash, 99] ∧ ¬ SameDirectory checked made [slash, 100] [99] := by
  refine ⟨_, _, _, rfl, by decide, rfl, rfl, by decide, rfl, rfl, by decide, fun same => ?_⟩
  exact absurd (congrArg MountInfo.path same.mount) (by decide)

end MandelbrotOS.Mounts
