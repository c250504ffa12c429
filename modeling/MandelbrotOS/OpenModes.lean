import MandelbrotOS.Descriptors

/-! An open descriptor can be used only as the file permitted when it was
opened: the cascade in `syscall_open` and the masks in `syscall_read` and
`syscall_write` test the same bits. -/
namespace MandelbrotOS.OpenModes
open Vfs Descriptors

variable {Fs : Type} {ops : FileOps Fs}

theorem has_or (value first second : BitVec 32) :
    has value (first ||| second) = (has value first || has value second) := by
  simp only [has, BitVec.and_or_distrib_left]
  grind

theorem permitted_of_not_denied (passed : accessDenied file flags uid gid = false) :
    (readAccepts flags = true → vfsCheckCanRead file uid gid = 0) ∧
      (writeAccepts flags = true → vfsCheckCanWrite file uid gid = 0) := by
  unfold accessDenied at passed
  split at passed
  · cases passed
  · rename_i readOnly
    split at passed
    · cases passed
    · rename_i writeOnly
      split at passed
      · cases passed
      · rename_i readWrite
        simp only [Bool.and_eq_true, bne_iff_ne, ne_eq, not_and, not_not, Bool.or_eq_true,
          not_or] at readOnly writeOnly readWrite
        simp only [readAccepts, writeAccepts, has_or, Bool.or_eq_true]
        grind

/-- The permissions the file at a descriptor gave, checked on the object as
the call leaves it. -/
def ModesPermitted (world : World Fs) (d : Nat) (flags : BitVec 32) (uid gid : Int) : Prop :=
  ∃ file, world.fds d = some ⟨file, flags⟩ ∧
    (readAccepts flags = true → vfsCheckCanRead (world.files file) uid gid = 0) ∧
    (writeAccepts flags = true → vfsCheckCanWrite (world.files file) uid gid = 0)

theorem openFile_permitted (opened : openFile ops world file flags uid gid = (.value d, after)) :
    ModesPermitted after d flags uid gid := by
  unfold openFile at opened
  split at opened
  · cases opened
  · rename_i passed
    obtain ⟨reads, writes⟩ := permitted_of_not_denied (Bool.eq_false_iff.mpr passed)
    dsimp only at opened
    split at opened
    · cases opened
      -- Only the offset of the object changes after the checks.
      have same : ∀ usr grp oth, vfsCheck usr grp oth ((world.setOffset file 0).files file) uid gid =
          vfsCheck usr grp oth (world.files file) uid gid := by
        intro usr grp oth
        apply vfsCheck_congr <;> simp [World.setOffset]
      refine ⟨file, by simp, fun asked => ?_, fun asked => ?_⟩
      · exact (same ..).trans (reads asked)
      · exact (same ..).trans (writes asked)
    · cases opened

/-- **Access modes imply permission.** Whatever the file system, the path and
the flags, a descriptor that `syscall_open` returns passes the flag test of
`syscall_read` only if the file could be read at that time, and the one of
`syscall_write` only if it could be written, for found and created files. -/
theorem open_modes_permitted (ops : FileOps Fs) (world : World Fs) (uid gid : Int) (path : Path)
    (flags mode : BitVec 32) (d : Nat) (after : World Fs)
    (opened : syscallOpen ops world uid gid path flags mode = (.value d, after)) :
    ModesPermitted after d flags uid gid := by
  unfold syscallOpen at opened
  split at opened
  · exact openFile_permitted opened
  · split at opened
    · cases opened
    · split at opened
      · cases opened
      · split at opened
        · cases opened
        · split at opened
          · cases opened
          · exact openFile_permitted opened

/-- One file, readable and writable by its owner alone, and every other path
free for creation. -/
def oneFile : FileOps Unit where
  vfsOpen world path := (if path.length = 1 then some 0 else none, world)
  vfsCreate world _ mode uid gid :=
    (some 1, { world with files := Function.update world.files 1 ⟨uid, gid, mode, 0, 0, 1⟩ })
  vfsClose world _ := world
  vfsRead world _ _ _ := ((0, []), world)
  vfsWrite world _ _ _ _ := (0, world)

def ownersFile : World Unit := ⟨(), fun _ => ⟨1000, 1000, 0o600, 0, 0, 1⟩, fun _ => none⟩

theorem owner_open_modes_permitted :
    ModesPermitted (syscallOpen oneFile ownersFile 1000 1000 [0x2f] oRdwr 0).2 0 oRdwr 1000 1000 ∧
    ModesPermitted (syscallOpen oneFile ownersFile 1000 1000 [0x2f, 0x2f, 0x61] (oRdwr ||| oCreat) 0o600).2
      0 (oRdwr ||| oCreat) 1000 1000 :=
  ⟨open_modes_permitted oneFile ownersFile 1000 1000 [0x2f] oRdwr 0 0 _ rfl,
    open_modes_permitted oneFile ownersFile 1000 1000 [0x2f, 0x2f, 0x61] (oRdwr ||| oCreat) 0o600 0 _ rfl⟩

end MandelbrotOS.OpenModes
