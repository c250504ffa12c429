import Mathlib.Algebra.Group.Int.Defs
import Mathlib.Data.List.Induction
import MandelbrotOS.Runs
import MandelbrotOS.Scheduler

/-! Parents, children and pids, `tasking/scheduler.c`: what `sched_fork` and
both modes of `sched_run_program` leave of the tree, and which event
`sched_waitpid` takes. A started program has a parent that does not list it,
and a replaced one has a pid nobody was told. -/
namespace MandelbrotOS.ProcessTree
open Runs Scheduler

/-- The `size_t` returned as an `int`. -/
def toInt (pid : Nat) : Int := (BitVec.ofNat 32 pid).toInt

/-- What `sched_waitpid` waits for: the events of all children, the event of
one, or whatever `kmalloc` left where no child was found. -/
inductive Awaited where
  | anyChild (children : List ProcPtr)
  | child (p : ProcPtr)
  | unset
  | invalid
  deriving DecidableEq

/-- The loop over the children, of which the last one that matches stays. -/
def lastMatch (isMatch : ProcPtr → Bool) (children : List ProcPtr) : Option ProcPtr :=
  children.foldl (fun found child => if isMatch child then some child else found) none

section
variable {Cpu : Type}

/-- The choice `sched_waitpid` makes, called in the process `current`. -/
def schedWaitpid (s : State Cpu) (current : ProcPtr) (pid : Int) : Awaited :=
  let children := (s.proc current).children
  if pid = -1 then .anyChild children
  else if pid > 0 then
    match lastMatch (fun child => (s.proc child).pid == pid.toNat) children with
    | some child => .child child
    | none => .unset
  else .invalid

/-! ### The tree in the records -/

/-- What the records say about who is whose child. -/
structure Tree where
  pid : ProcPtr → Nat
  parent : ProcPtr → Option ProcPtr
  children : ProcPtr → List ProcPtr
  owner : ThreadPtr → Option ProcPtr
  next : Nat

def tree (s : State Cpu) : Tree where
  pid := Proc.pid ∘ s.proc
  parent := Proc.parent ∘ s.proc
  children := Proc.children ∘ s.proc
  owner := Thread.parent ∘ s.thread
  next := s.currentPid

/-- A new process `p` of thread `t`, with the given parent and no children. -/
def Tree.born (T : Tree) (parent : Option ProcPtr) (p : ProcPtr) (t : ThreadPtr) : Tree where
  pid := Function.update T.pid p T.next
  parent := Function.update T.parent p parent
  children := Function.update T.children p []
  owner := Function.update T.owner t (some p)
  next := T.next + 1

def Tree.adopt (T : Tree) (q p : ProcPtr) : Tree :=
  { T with children := Function.update T.children q (T.children q ++ [p]) }

def Tree.renamed (T : Tree) (p : ProcPtr) : Tree :=
  { T with pid := Function.update T.pid p T.next, next := T.next + 1 }

/-- The record of `p` replaced. -/
def Tree.put (T : Tree) (p : ProcPtr) (record : Proc) : Tree :=
  { T with
    pid := Function.update T.pid p record.pid
    parent := Function.update T.parent p record.parent
    children := Function.update T.children p record.children }

theorem tree_setThread (s : State Cpu) (t : ThreadPtr) (record : Thread) :
    tree (s.setThread t record) =
      { tree s with owner := Function.update (tree s).owner t record.parent } := by
  rw [tree, setThread_thread, Function.comp_update]
  rfl

theorem tree_setProc (s : State Cpu) (p : ProcPtr) (record : Proc) :
    tree (s.setProc p record) = (tree s).put p record := by
  rw [tree, State.setProc, Function.comp_update, Function.comp_update, Function.comp_update]
  rfl

theorem tree_enqueue (s : State Cpu) (t : ThreadPtr) : tree (schedEnqueue s t) = tree s := by
  have same : Function.update (tree s).owner t (s.thread t).parent = (tree s).owner :=
    Function.update_eq_self t _
  unfold schedEnqueue
  split
  · rfl
  · have marked := tree_setThread s t { s.thread t with queued := true }
    rw [same] at marked
    exact marked

theorem tree_setProc_same (s : State Cpu) (p : ProcPtr) (record : Proc) (pid : record.pid = (s.proc p).pid)
    (parent : record.parent = (s.proc p).parent) (children : record.children = (s.proc p).children) :
    tree (s.setProc p record) = tree s := by
  rw [tree_setProc, Tree.put, pid, parent, children]
  simp [tree]

theorem tree_setChildren (s : State Cpu) (q : ProcPtr) (record : Proc) (pid : record.pid = (s.proc q).pid)
    (parent : record.parent = (s.proc q).parent) :
    tree (s.setProc q record) =
      { tree s with children := Function.update (tree s).children q record.children } := by
  rw [tree_setProc, Tree.put, pid, parent]
  simp [tree]

theorem tree_newThread (s : State Cpu) (t : ThreadPtr) (p : ProcPtr) (priority : Nat) (uid gid : Int)
    (autoStart : Bool) :
    tree (schedNewThread s t p priority uid gid autoStart) =
      { tree s with owner := Function.update (tree s).owner t (some p) } := by
  have unstarted : tree (schedNewThread s t p priority uid gid false) =
      { tree s with owner := Function.update (tree s).owner t (some p) } := by
    refine Eq.trans ?_ (tree_setThread s t (threadLiteral p priority uid gid s.currentTid))
    refine (tree_setProc_same _ p _ (by rfl) (by rfl) (by rfl)).trans ?_
    split
    · exact tree_setProc_same _ p _ (by rfl) (by rfl) (by rfl)
    · rfl
  cases autoStart with
  | false => exact unstarted
  | true => exact (tree_enqueue _ t).trans unstarted

theorem tree_newRecord (s : State Cpu) (p : ProcPtr) (record : Proc) :
    tree { s.setProc p record with currentPid := s.currentPid + 1 } =
      { (tree s).put p record with next := s.currentPid + 1 } :=
  congrArg (fun T : Tree => { T with next := s.currentPid + 1 }) (tree_setProc s p record)

theorem tree_fork (ran : schedFork s current t p pagemap = some (s' : State Cpu)) :
    ∃ q, (tree s).owner current = some q ∧ tree s' = ((tree s).born (some q) p t).adopt q p := by
  obtain ⟨q, owned, rfl⟩ := Option.map_eq_some_iff.mp ran
  refine ⟨q, owned, (tree_enqueue _ t).trans ?_⟩
  refine (tree_setProc_same _ p _ (by rfl) (by rfl) (by rfl)).trans ?_
  refine (tree_setChildren _ q _ (by rfl) (by rfl)).trans ?_
  refine congrArg (fun T : Tree => T.adopt q p) ?_
  refine (tree_setThread (schedCopyProc s p q pagemap true) t _).trans ?_
  rw [schedCopyProc, tree_newRecord]
  rfl

theorem tree_runProgram (s : State Cpu) (current t : ThreadPtr) (p : ProcPtr) (pagemap : PagemapPtr) :
    tree (schedRunProgram s current t p pagemap) = (tree s).born ((tree s).owner current) p t := by
  refine (tree_enqueue _ t).trans ((tree_newThread _ t p _ _ _ _).trans ?_)
  rw [tree_setProc, schedNewProc, tree_newRecord]
  simp only [Tree.put, State.setProc, Function.update_self, Function.update_idem]
  rfl

theorem tree_replaceProgram (ran : schedReplaceProgram s current pagemap = some (s' : State Cpu)) :
    ∃ p, (tree s).owner current = some p ∧ tree s' = (tree s).renamed p := by
  obtain ⟨p, owned, rfl⟩ := Option.map_eq_some_iff.mp ran
  refine ⟨p, owned, (tree_newThread _ current p _ _ _ _).trans ?_⟩
  rw [tree_newRecord]
  simp_all [tree, Tree.put, Tree.renamed]

/-! ### Runs -/

/-- What `sched_fork` told a parent: the number it returned for a child. -/
structure Promise where
  parent : ProcPtr
  child : ProcPtr
  returned : Int

/-- The scheduler, the process records allocated so far and the answers of
all calls of `sched_fork`. -/
structure Family (Cpu : Type) where
  sched : State Cpu
  known : List ProcPtr
  promised : List Promise

/-- A call and the thread that makes it; `t`, `p` and `pagemap` are what the
allocators return. -/
inductive Call where
  | fork (current t : ThreadPtr) (p : ProcPtr) (pagemap : PagemapPtr)
  | runProgram (current t : ThreadPtr) (p : ProcPtr) (pagemap : PagemapPtr)
  | replaceProgram (current : ThreadPtr) (pagemap : PagemapPtr)
  | waitpid (current : ThreadPtr) (pid : Int)

/-- One call. A record in use is not allocated again. -/
def step (F : Family Cpu) : Call → Option (Family Cpu)
  | .fork current t p pagemap =>
    if p ∈ F.known then none
    else do
      let q ← (F.sched.thread current).parent
      let sched ← schedFork F.sched current t p pagemap
      some ⟨sched, p :: F.known, ⟨q, p, toInt (sched.proc p).pid⟩ :: F.promised⟩
  | .runProgram current t p pagemap =>
    if p ∈ F.known then none
    else some { F with sched := schedRunProgram F.sched current t p pagemap, known := p :: F.known }
  | .replaceProgram current pagemap =>
    (schedReplaceProgram F.sched current pagemap).map fun sched => { F with sched }
  | .waitpid _ _ => some F

/-- Every process is listed once by its parent, and waiting for the number
that `sched_fork` returned finds the child it was returned for. -/
def Agree (F : Family Cpu) : Prop :=
  (∀ p ∈ F.known, ∀ q, (F.sched.proc p).parent = some q → (F.sched.proc q).children.count p = 1) ∧
  ∀ promise ∈ F.promised,
    schedWaitpid F.sched promise.parent promise.returned = .child promise.child

/-- A fork whose pid fits an `int`, a started program only where there is no
process to be its parent, and a replaced program only in a process that no
`sched_fork` returned. -/
def Harmless (F : Family Cpu) : Call → Prop
  | .fork current _ p _ =>
    p ∈ F.known ∨ (F.sched.thread current).parent = none ∨ F.sched.currentPid < 2 ^ 31
  | .runProgram current _ p _ => p ∈ F.known ∨ (F.sched.thread current).parent = none
  | .replaceProgram current _ =>
    ∀ promise ∈ F.promised, (F.sched.thread current).parent ≠ some promise.child
  | .waitpid _ _ => True

instance (F : Family Cpu) : (call : Call) → Decidable (Harmless F call)
  | .fork _ _ _ _ => inferInstanceAs (Decidable (_ ∨ _ ∨ _))
  | .runProgram _ _ _ _ => inferInstanceAs (Decidable (_ ∨ _))
  | .replaceProgram _ _ => inferInstanceAs (Decidable (∀ _ ∈ _, _))
  | .waitpid _ _ => inferInstanceAs (Decidable True)

/-- Pids tell the known processes apart and lie below the next one, everything
points to known processes, and both halves of `Agree` hold. -/
structure Sound (T : Tree) (known : List ProcPtr) (promised : List Promise) : Prop where
  positive : 0 < T.next
  below : ∀ p ∈ known, T.pid p < T.next
  distinct : ∀ p ∈ known, ∀ p' ∈ known, T.pid p = T.pid p' → p = p'
  owners : ∀ t q, T.owner t = some q → q ∈ known
  parents : ∀ p ∈ known, ∀ q, T.parent p = some q → q ∈ known
  children : ∀ q ∈ known, ∀ p ∈ T.children q, p ∈ known
  listed : ∀ p ∈ known, ∀ q, T.parent p = some q → (T.children q).count p = 1
  named : ∀ promise ∈ promised, promise.parent ∈ known ∧
    promise.child ∈ T.children promise.parent ∧ 0 < promise.returned ∧
    promise.returned = T.pid promise.child

def Family.Sound (F : Family Cpu) : Prop := ProcessTree.Sound (tree F.sched) F.known F.promised

theorem lastMatch_eq (isMatch : ProcPtr → Bool) {children : List ProcPtr} (member : child ∈ children)
    (fits : isMatch child) (only : ∀ other ∈ children, isMatch other → other = child) :
    lastMatch isMatch children = some child := by
  unfold lastMatch
  induction children using List.reverseRecOn with
  | nil => cases member
  | append_singleton rest last ih =>
    grind

theorem lastMatch_fits (isMatch : ProcPtr → Bool) {children : List ProcPtr}
    (found : lastMatch isMatch children = some child) : isMatch child := by
  unfold lastMatch at found
  induction children using List.reverseRecOn with
  | nil => cases found
  | append_singleton rest last ih =>
    grind

theorem waitpid_child {s : State Cpu} (found : schedWaitpid s q pid = .child child) :
    0 < pid ∧ ((s.proc child).pid : Int) = pid := by
  unfold schedWaitpid at found
  dsimp only at found
  split at found
  · cases found
  split at found
  · rename_i positive
    split at found
    · rename_i matched
      cases found
      have fits := lastMatch_fits _ matched
      have same := eq_of_beq fits
      omega
    · cases found
  · cases found

theorem agree_of_sound {F : Family Cpu} (sound : F.Sound) : Agree F := by
  refine ⟨sound.listed, fun promise member => ?_⟩
  obtain ⟨known, inside, positive, numbered⟩ := sound.named promise member
  have pid : (tree F.sched).pid promise.child = promise.returned.toNat := by omega
  have only : ∀ other ∈ (F.sched.proc promise.parent).children,
      ((F.sched.proc other).pid == promise.returned.toNat) = true → other = promise.child := by
    intro other listed fits
    have same : (tree F.sched).pid other = promise.returned.toNat := eq_of_beq fits
    exact sound.distinct other (sound.children _ known other listed) promise.child
      (sound.children _ known _ inside) (same.trans pid.symm)
  have found : lastMatch (fun other => (F.sched.proc other).pid == promise.returned.toNat)
      (F.sched.proc promise.parent).children = some promise.child :=
    lastMatch_eq _ inside (beq_iff_eq.mpr pid) only
  have notAny : promise.returned ≠ -1 := by omega
  simp only [schedWaitpid, notAny, if_false, gt_iff_lt, positive, if_true]
  rw [found]

/-! ### What each call keeps -/

theorem toInt_small (small : pid < 2 ^ 31) : toInt pid = pid := by
  unfold toInt
  grind [BitVec.toNat_ofNat]

theorem toInt_lt (pid : Nat) : toInt pid < 2 ^ 31 := BitVec.toInt_lt

theorem below_renewed {pid : ProcPtr → Nat} (below : ∀ p ∈ known, pid p < next) (p : ProcPtr) :
    ∀ x ∈ p :: known, Function.update pid p next x < next + 1 := by
  grind

theorem distinct_renewed {pid : ProcPtr → Nat} (below : ∀ p ∈ known, pid p < next)
    (distinct : ∀ p ∈ known, ∀ p' ∈ known, pid p = pid p' → p = p') (p : ProcPtr) :
    ∀ x ∈ p :: known, ∀ y ∈ p :: known,
      Function.update pid p next x = Function.update pid p next y → x = y := by
  intro x insideX y insideY same
  grind

theorem Sound.unlisted {T : Tree} (sound : Sound T known promised) (fresh : p ∉ known)
    (member : q ∈ known) : p ∉ T.children q :=
  fun listed => fresh (sound.children q member p listed)

theorem Sound.owners_born {T : Tree} (sound : Sound T known promised) (parent : Option ProcPtr)
    (p : ProcPtr) (t : ThreadPtr) :
    ∀ t' q, (T.born parent p t).owner t' = some q → q ∈ p :: known := by
  intro t' q owned
  simp only [Tree.born, Function.update_apply] at owned
  split at owned
  · cases owned
    exact List.mem_cons_self
  · exact List.mem_cons_of_mem _ (sound.owners t' q owned)

theorem Sound.born {T : Tree} (sound : Sound T known promised) (fresh : p ∉ known) (t : ThreadPtr) :
    Sound (T.born none p t) (p :: known) promised := by
  have apart : ∀ x ∈ known, x ≠ p := fun x inside same => fresh (same ▸ inside)
  have lists : ∀ q ∈ known, (T.born none p t).children q = T.children q :=
    fun q inside => Function.update_of_ne (apart q inside) _ _
  have parents : ∀ x ∈ p :: known, ∀ q, (T.born none p t).parent x = some q →
      x ∈ known ∧ T.parent x = some q := by
    simp_all [Tree.born]
  refine ⟨Nat.succ_pos _, below_renewed sound.below p, distinct_renewed sound.below sound.distinct p,
    sound.owners_born none p t, ?_, ?_, ?_, ?_⟩
  · intro x inside q parent
    obtain ⟨known, parent⟩ := parents x inside q parent
    exact List.mem_cons_of_mem _ (sound.parents x known q parent)
  · intro q inside x listed
    rcases List.mem_cons.mp inside with rfl | inside
    · simp [Tree.born] at listed
    · rw [lists q inside] at listed
      exact List.mem_cons_of_mem _ (sound.children q inside x listed)
  · intro x inside q parent
    obtain ⟨known, parent⟩ := parents x inside q parent
    rw [lists q (sound.parents x known q parent)]
    exact sound.listed x known q parent
  · intro promise member
    obtain ⟨known, listed, positive, numbered⟩ := sound.named promise member
    have child := apart _ (sound.children _ known _ listed)
    refine ⟨List.mem_cons_of_mem _ known, by rwa [lists _ known], positive, ?_⟩
    exact numbered.trans (congrArg Nat.cast (Function.update_of_ne child _ _).symm)

/-- A new process that its parent lists. -/
theorem Sound.forked {T : Tree} (sound : Sound T known promised) (fresh : p ∉ known)
    (member : q ∈ known) (fits : T.next < 2 ^ 31) (t : ThreadPtr) :
    Sound ((T.born (some q) p t).adopt q p) (p :: known) (⟨q, p, toInt T.next⟩ :: promised) := by
  have apart : ∀ x ∈ known, x ≠ p := fun x inside same => fresh (same ▸ inside)
  have grown : ((T.born (some q) p t).adopt q p).children q = T.children q ++ [p] := by
    simp_all [Tree.adopt, Tree.born]
  have lists : ∀ x ∈ known, x ≠ q → ((T.born (some q) p t).adopt q p).children x = T.children x := by
    simp_all [Tree.adopt, Tree.born]
  have kept : ∀ x ∈ known, ∀ y ∈ T.children x, y ∈ ((T.born (some q) p t).adopt q p).children x := by
    grind
  refine ⟨Nat.succ_pos _, below_renewed sound.below p, distinct_renewed sound.below sound.distinct p,
    sound.owners_born (some q) p t, ?_, ?_, ?_, ?_⟩
  · intro x inside y parent
    simp only [Tree.adopt, Tree.born, Function.update_apply] at parent
    split at parent
    · simp_all
    · rename_i other
      exact List.mem_cons_of_mem _
        (sound.parents x ((List.mem_cons.mp inside).resolve_left other) y parent)
  · intro y inside x listed
    rcases eq_or_ne y q with rfl | other
    · rw [grown] at listed
      rcases List.mem_append.mp listed with listed | new
      · exact List.mem_cons_of_mem _ (sound.children y member x listed)
      · simp_all
    rcases List.mem_cons.mp inside with rfl | inside
    · simp [Tree.adopt, Tree.born, other] at listed
    · rw [lists y inside other] at listed
      exact List.mem_cons_of_mem _ (sound.children y inside x listed)
  · intro x inside y parent
    simp only [Tree.adopt, Tree.born, Function.update_apply] at parent
    split at parent
    · rename_i isNew
      cases parent
      rw [isNew, grown, List.count_append, List.count_eq_zero.mpr (sound.unlisted fresh member),
        List.count_singleton_self]
    · rename_i other
      have known := (List.mem_cons.mp inside).resolve_left other
      have once := sound.listed x known y parent
      rcases eq_or_ne y q with rfl | elsewhere
      · grind
      · rw [lists y (sound.parents x known y parent) elsewhere, once]
  · intro promise told
    rcases List.mem_cons.mp told with rfl | told
    · refine ⟨List.mem_cons_of_mem _ member, ?_, ?_, ?_⟩
      · rw [grown]
        simp
      · show 0 < toInt T.next
        rw [toInt_small fits]
        exact Int.natCast_pos.mpr sound.positive
      · show toInt T.next = _
        simp_all [Tree.adopt, Tree.born, toInt_small]
    · obtain ⟨known, listed, positive, numbered⟩ := sound.named promise told
      have child := apart _ (sound.children _ known _ listed)
      refine ⟨List.mem_cons_of_mem _ known, kept _ known _ listed, positive, ?_⟩
      exact numbered.trans (congrArg Nat.cast (Function.update_of_ne child _ _).symm)

theorem Sound.renamed {T : Tree} (sound : Sound T known promised)
    (unpromised : ∀ promise ∈ promised, p ≠ promise.child) : Sound (T.renamed p) known promised := by
  refine ⟨Nat.succ_pos _, ?_, ?_, sound.owners, sound.parents, sound.children, sound.listed, ?_⟩
  · intro x inside
    exact below_renewed sound.below p x (List.mem_cons_of_mem _ inside)
  · intro x insideX y insideY
    exact distinct_renewed sound.below sound.distinct p x (List.mem_cons_of_mem _ insideX) y
      (List.mem_cons_of_mem _ insideY)
  · intro promise told
    obtain ⟨known, listed, positive, numbered⟩ := sound.named promise told
    refine ⟨known, listed, positive, numbered.trans (congrArg Nat.cast ?_)⟩
    exact (Function.update_of_ne (unpromised promise told).symm _ _).symm

/-! ### Runs that keep the tree -/

theorem fork_eq_some {F next : Family Cpu} (ran : step F (.fork current t p pagemap) = some next) :
    p ∉ F.known ∧ ∃ q, (tree F.sched).owner current = some q ∧
      tree next.sched = ((tree F.sched).born (some q) p t).adopt q p ∧ next.known = p :: F.known ∧
      next.promised = ⟨q, p, toInt F.sched.currentPid⟩ :: F.promised := by
  simp only [step] at ran
  split at ran
  · cases ran
  rename_i fresh
  obtain ⟨q, owned, ran⟩ := Option.bind_eq_some_iff.mp ran
  obtain ⟨sched, forked, ran⟩ := Option.bind_eq_some_iff.mp ran
  cases ran
  obtain ⟨q', owned', same⟩ := tree_fork forked
  cases owned.symm.trans owned'
  refine ⟨fresh, q, owned, same, rfl, ?_⟩
  have pid : (tree sched).pid p = F.sched.currentPid := by
    rw [same]
    exact Function.update_self p _ _
  exact congrArg (fun n => ⟨q, p, toInt n⟩ :: F.promised) pid

theorem sound_step (F : Family Cpu) (call : Call) (next : Family Cpu) (sound : F.Sound)
    (harmless : Harmless F call) (ran : step F call = some next) : next.Sound := by
  cases call with
  | fork current t p pagemap =>
    obtain ⟨fresh, q, owned, same, known, promised⟩ := fork_eq_some ran
    have fits : F.sched.currentPid < 2 ^ 31 := by
      rcases harmless with used | alone | fits
      · contradiction
      · cases alone.symm.trans owned
      · exact fits
    unfold Family.Sound
    rw [same, known, promised]
    exact Sound.forked sound fresh (sound.owners current q owned) fits t
  | runProgram current t p pagemap =>
    simp only [step] at ran
    split at ran
    · cases ran
    rename_i fresh
    cases ran
    have alone : (tree F.sched).owner current = none := harmless.resolve_left fresh
    simp_all [Family.Sound, tree_runProgram, Sound.born]
  | replaceProgram current pagemap =>
    obtain ⟨sched, replaced, rfl⟩ := Option.map_eq_some_iff.mp ran
    obtain ⟨p, owned, same⟩ := tree_replaceProgram replaced
    unfold Family.Sound
    rw [same]
    refine Sound.renamed sound fun promise told isChild => ?_
    exact harmless promise told (isChild ▸ owned)
  | waitpid current pid =>
    cases ran
    exact sound

/-- Each kind of call that is not harmless returns and leaves the tree and
`sched_waitpid` apart. -/
theorem not_agree_step (F : Family Cpu) (call : Call) (sound : F.Sound) (harmful : ¬ Harmless F call) :
    ∃ next, step F call = some next ∧ ¬ Agree next := by
  cases call with
  | fork current t p pagemap =>
    obtain ⟨fresh, owned, large⟩ := by simpa only [Harmless, not_or] using harmful
    obtain ⟨q, owned⟩ := Option.ne_none_iff_exists'.mp owned
    have forked : (schedFork F.sched current t p pagemap).isSome := by
      rw [schedFork, owned]
      rfl
    obtain ⟨sched, forked⟩ := Option.isSome_iff_exists.mp forked
    have ran : step F (.fork current t p pagemap) =
        some ⟨sched, p :: F.known, ⟨q, p, toInt (sched.proc p).pid⟩ :: F.promised⟩ := by
      simp_all [step]
    refine ⟨_, ran, fun agree => ?_⟩
    obtain ⟨-, numbered⟩ := waitpid_child (agree.2 _ List.mem_cons_self)
    have short := toInt_lt (sched.proc p).pid
    obtain ⟨q', -, same⟩ := tree_fork forked
    have pid : (tree sched).pid p = F.sched.currentPid := by
      rw [same]
      exact Function.update_self p _ _
    change (((tree sched).pid p : Nat) : Int) = toInt ((tree sched).pid p) at numbered
    grind [toInt]
  | runProgram current t p pagemap =>
    obtain ⟨fresh, owned⟩ := by simpa only [Harmless, not_or] using harmful
    obtain ⟨q, owned⟩ := Option.ne_none_iff_exists'.mp owned
    refine ⟨_, if_neg fresh, fun agree => ?_⟩
    have same := tree_runProgram F.sched current t p pagemap
    have member := sound.owners current q owned
    have other : q ≠ p := fun isNew => fresh (isNew ▸ member)
    have parent : (tree (schedRunProgram F.sched current t p pagemap)).parent p = some q := by
      rw [same]
      exact (Function.update_self p _ _).trans owned
    have list : (tree (schedRunProgram F.sched current t p pagemap)).children q =
        (tree F.sched).children q := by
      rw [same]
      exact Function.update_of_ne other _ _
    have once : ((tree (schedRunProgram F.sched current t p pagemap)).children q).count p = 1 :=
      agree.1 p List.mem_cons_self q parent
    rw [list, List.count_eq_zero.mpr (sound.unlisted fresh member)] at once
    cases once
  | replaceProgram current pagemap =>
    simp only [Harmless, not_forall, not_not] at harmful
    obtain ⟨promise, told, owned⟩ := harmful
    have replaced : (schedReplaceProgram F.sched current pagemap).isSome := by
      rw [schedReplaceProgram, owned]
      rfl
    obtain ⟨sched, replaced⟩ := Option.isSome_iff_exists.mp replaced
    refine ⟨{ F with sched }, congrArg (Option.map _) replaced, fun agree => ?_⟩
    obtain ⟨p, owned', same⟩ := tree_replaceProgram replaced
    cases owned.symm.trans owned'
    obtain ⟨-, numbered⟩ := waitpid_child (agree.2 promise told)
    obtain ⟨known, listed, -, told⟩ := sound.named promise told
    have below := sound.below _ (sound.children _ known _ listed)
    have pid : (tree sched).pid promise.child = (tree F.sched).next := by
      rw [same]
      exact Function.update_self _ _ _
    change (((tree sched).pid promise.child : Nat) : Int) = _ at numbered
    omega
  | waitpid current pid => exact absurd trivial harmful

/-- What `init_sched` leaves: the kernel's process and its first thread. -/
def booted : Family Unit where
  sched := schedNewThread (schedNewProc
    { threads := fun _ => [], thread := fun _ => {}, proc := fun _ => {}, cpus := fun _ => {} } 0 0 false)
    0 0 0 0 0 true
  known := [0]
  promised := []

theorem booted_sound : booted.Sound := by
  have parent : ∀ p ∈ booted.known, (tree booted.sched).parent p = none := by decide
  have owner : (tree booted.sched).owner = Function.update (fun _ => none) 0 (some 0) :=
    congrArg Tree.owner (tree_newThread _ 0 0 0 0 0 true)
  refine ⟨by decide, by decide, by decide, ?_, ?_, by decide, ?_, ?_⟩
  · intro t q owned
    rw [owner, Function.update_apply] at owned
    split at owned <;> cases owned
    exact List.mem_cons_self
  · simp_all
  · simp_all
  · intro promise told
    cases told

/-- From every consistent family the tree and `sched_waitpid` agree throughout
exactly the runs of harmless calls. -/
theorem tree_and_wait_agree_iff {F : Family Cpu} (sound : F.Sound) (calls : List Call) :
    Throughout step Agree F calls ↔ Along step Harmless F calls :=
  throughout_iff_along (fun _ => agree_of_sound) sound_step not_agree_step sound

end

theorem forks_and_own_exec_agree : Throughout step Agree booted
    [.fork 0 1 1 1, .waitpid 0 1, .fork 1 2 2 2, .replaceProgram 0 3, .waitpid 1 2] :=
  (tree_and_wait_agree_iff booted_sound _).mpr (by decide)

/-- A child that runs another program is no longer found under the pid that
`sched_fork` returned, and a started program is missing in its parent's list. -/
theorem exec_changes_the_pid :
    (∃ final, [.fork 0 1 1 1, .replaceProgram 1 2].foldlM step booted = some final ∧
      final.promised.map (·.returned) = [1] ∧ (final.sched.proc 1).pid = 2 ∧
      (final.sched.proc 0).children = [1] ∧ schedWaitpid final.sched 0 1 = .unset ∧ ¬ Agree final) ∧
    ∃ final, [.runProgram 0 1 1 1].foldlM step booted = some final ∧
      (final.sched.proc 1).parent = some 0 ∧ (final.sched.proc 0).children = [] ∧ ¬ Agree final := by
  refine ⟨⟨_, rfl, by decide, by decide, by decide, by decide, fun agree => ?_⟩,
    ⟨_, rfl, by decide, by decide, fun agree => ?_⟩⟩
  · have found := agree.2 ⟨0, 1, 1⟩ (List.mem_singleton_self _)
    revert found
    decide
  · have once := agree.1 1 (by decide) 0 (by decide)
    revert once
    decide

end MandelbrotOS.ProcessTree
