import MandelbrotOS.Runs
import MandelbrotOS.Scheduler
import MandelbrotOS.SchedulerProofs
import MandelbrotOS.Vfs

/-! Who a thread's descendants act for. Program start and replacement hand uid
and gid on explicitly; fork builds the child's record field by field and names
neither, so the child keeps what `kcalloc` left there: uid 0 and gid 0. -/
namespace MandelbrotOS.Credentials
open Scheduler SchedulerProofs Runs Vfs

variable {Cpu : Type} {s next : State Cpu}

/-- A thread's descendants, itself included, and the system they live in. -/
structure Family (Cpu : Type) where
  state : State Cpu
  members : List ThreadPtr

/-- Any member may fork, start a program or replace its own; the other
arguments are the addresses the allocators return. -/
inductive Call where
  | fork (actor t : ThreadPtr) (p : ProcPtr) (pagemap : PagemapPtr)
  | runProgram (actor t : ThreadPtr) (p : ProcPtr) (pagemap : PagemapPtr)
  | replaceProgram (actor : ThreadPtr) (pagemap : PagemapPtr)

def step (family : Family Cpu) : Call → Option (Family Cpu)
  | .fork actor t p pagemap =>
    if actor ∈ family.members ∧ t ∉ family.members then
      (schedFork family.state actor t p pagemap).map fun state => ⟨state, t :: family.members⟩
    else none
  | .runProgram actor t p pagemap =>
    if actor ∈ family.members ∧ t ∉ family.members then
      some ⟨schedRunProgram family.state actor t p pagemap, t :: family.members⟩
    else none
  | .replaceProgram actor pagemap =>
    if actor ∈ family.members then
      (schedReplaceProgram family.state actor pagemap).map fun state => ⟨state, family.members⟩
    else none

/-- Every member acts for `uid` and `gid`; when `uid` is not root's, no member
is granted anything without a look at the file. -/
def Kept (uid gid : Int) (family : Family Cpu) : Prop :=
  ∀ member ∈ family.members,
    (family.state.thread member).uid = uid ∧ (family.state.thread member).gid = gid ∧
      (uid ≠ 0 → rootShortcut (family.state.thread member).uid = false)

/-- The call is a fork that comes back. -/
def Forks (family : Family Cpu) : Call → Prop
  | .fork actor t _ _ => actor ∈ family.members ∧ t ∉ family.members ∧
      (family.state.thread actor).parent ≠ none
  | _ => False

/-- What decides for whom a thread acts. -/
def Same (record old : Thread) : Prop := record.uid = old.uid ∧ record.gid = old.gid

theorem enqueue_same (kept : Same (s.thread x) old) : Same ((schedEnqueue s t).thread x) old := by
  unfold schedEnqueue
  split
  · exact kept
  · by_cases here : x = t
    · subst here
      simpa [Same] using kept
    · simpa [Same, here] using kept

theorem fork_records (ran : schedFork s actor t p pagemap = some next) :
    (s.thread actor).parent ≠ none ∧ Same (next.thread t) { uid := 0, gid := 0 } ∧
      ∀ x, x ≠ t → Same (next.thread x) (s.thread x) := by
  obtain ⟨oldProc, held, rfl⟩ := Option.map_eq_some_iff.mp ran
  refine ⟨by simp [held], enqueue_same ?_, fun x other => enqueue_same ?_⟩
  · simp [Same]
  · simp [Same, schedCopyProc, other]

theorem fork_returns (t : ThreadPtr) (p : ProcPtr) (pagemap : PagemapPtr)
    (parented : (s.thread actor).parent ≠ none) :
    ∃ next, schedFork s actor t p pagemap = some next := by
  obtain ⟨oldProc, held⟩ := Option.ne_none_iff_exists'.mp parented
  simp_all [schedFork]

theorem runProgram_records (s : State Cpu) (actor t : ThreadPtr) (p : ProcPtr) (pagemap : PagemapPtr) :
    Same ((schedRunProgram s actor t p pagemap).thread t) (s.thread actor) ∧
    ∀ x, x ≠ t → Same ((schedRunProgram s actor t p pagemap).thread x) (s.thread x) := by
  refine ⟨enqueue_same ?_, fun x other => enqueue_same ?_⟩
  · rw [(schedNewThread_false _ t p _ _ _).2.2]
    simp [Same, threadLiteral, schedNewProc]
  · simp_all [schedNewThread_false, Same, schedNewProc]

theorem replaceProgram_records (ran : schedReplaceProgram s actor pagemap = some next) (x : ThreadPtr) :
    Same (next.thread x) (s.thread x) := by
  obtain ⟨p, held, rfl⟩ := Option.map_eq_some_iff.mp ran
  dsimp only
  rw [(schedNewThread_false _ actor p _ _ _).2.2]
  by_cases here : x = actor
  · subst here
    simp [Same, threadLiteral]
  · simp [Same, here]

theorem kept_of_same (kept : Kept uid gid family) (same : ∀ x ∈ family.members,
    Same (next.thread x) (family.state.thread x)) : Kept uid gid ⟨next, family.members⟩ := by
  intro x member
  obtain ⟨user, group⟩ := same x member
  dsimp only
  rw [user, group]
  exact kept x member

theorem kept_cons (kept : Kept uid gid ⟨next, members⟩) (born : Same (next.thread t) record)
    (user : record.uid = uid) (group : record.gid = gid) : Kept uid gid ⟨next, t :: members⟩ := by
  intro x member
  rcases List.mem_cons.mp member with rfl | old
  · refine ⟨born.1.trans user, born.2.trans group, fun ordinary => ?_⟩
    simpa [born.1, user, rootShortcut] using ordinary
  · exact kept x old

theorem step_keeps {uid gid : Int} (family : Family Cpu) (call : Call) (next : Family Cpu)
    (kept : Kept uid gid family) (allowed : (uid = 0 ∧ gid = 0) ∨ ¬ Forks family call)
    (stepped : step family call = some next) : Kept uid gid next := by
  cases call with
  | fork actor t p pagemap =>
    simp only [step] at stepped
    split at stepped
    · rename_i guard
      obtain ⟨state, ran, rfl⟩ := Option.map_eq_some_iff.mp stepped
      obtain ⟨parented, child, others⟩ := fork_records ran
      obtain ⟨user, group⟩ := allowed.resolve_right (fun never => never ⟨guard.1, guard.2, parented⟩)
      grind [kept_cons, kept_of_same]
    · cases stepped
  | runProgram actor t p pagemap =>
    simp only [step] at stepped
    split at stepped
    · rename_i guard
      cases stepped
      obtain ⟨born, others⟩ := runProgram_records family.state actor t p pagemap
      obtain ⟨user, group, _⟩ := kept actor guard.1
      grind [kept_cons, kept_of_same]
    · cases stepped
  | replaceProgram actor pagemap =>
    grind [step, Option.map_eq_some_iff, kept_of_same, replaceProgram_records]

theorem step_breaks {uid gid : Int} (family : Family Cpu) (call : Call)
    (refused : ¬ ((uid = 0 ∧ gid = 0) ∨ ¬ Forks family call)) :
    ∃ next, step family call = some next ∧ ¬ Kept uid gid next := by
  obtain ⟨ordinary, forks⟩ := not_or.mp refused
  cases call with
  | fork actor t p pagemap =>
    obtain ⟨member, fresh, parented⟩ := not_not.mp forks
    obtain ⟨state, ran⟩ := fork_returns t p pagemap parented
    refine ⟨⟨state, t :: family.members⟩, ?_, fun kept => ?_⟩
    · simp [step, member, fresh, ran]
    · obtain ⟨_, child, _⟩ := fork_records ran
      obtain ⟨user, group, _⟩ := kept t (List.mem_cons_self ..)
      exact ordinary ⟨user.symm.trans child.1, group.symm.trans child.2⟩
  | runProgram actor t p pagemap => exact absurd id forks
  | replaceProgram actor pagemap => exact absurd id forks

/-- **Credentials across fork and exec.** In a run of a thread's descendants,
every thread created acts for the thread the run started from exactly when
that thread is root's, uid and gid both 0, or nobody in the run forks. -/
theorem credentials_kept_iff (s : State Cpu) (root : ThreadPtr) (calls : List Call) :
    Throughout step (Kept (s.thread root).uid (s.thread root).gid) ⟨s, [root]⟩ calls ↔
      ((s.thread root).uid = 0 ∧ (s.thread root).gid = 0) ∨
        Along step (fun family call => ¬ Forks family call) ⟨s, [root]⟩ calls := by
  have start : Kept (s.thread root).uid (s.thread root).gid ⟨s, [root]⟩ := by
    intro x member
    cases List.mem_singleton.mp member
    exact ⟨rfl, rfl, fun ordinary => by simpa [rootShortcut] using ordinary⟩
  rw [throughout_iff_along (fun _ kept => kept) step_keeps
    (fun family call _ refused => step_breaks family call refused) start]
  exact along_or_const

/-- A system whose threads all belong to an ordinary user. -/
def ordinary : State Unit where
  threads := fun _ => []
  thread := fun _ => { parent := some 0, uid := 1000, gid := 1000 }
  proc := fun _ => {}
  cpus := fun _ => {}

/-- One fork hands an ordinary user's child the rights of root. -/
theorem fork_gains_root :
    ¬ ∀ (s : State Unit) (root : ThreadPtr) (calls : List Call),
      Throughout step (Kept (s.thread root).uid (s.thread root).gid) ⟨s, [root]⟩ calls := by
  intro always
  have held := always ordinary 1 [.fork 1 2 1 1]
  have child := (held.2 _ rfl) 2 (by decide)
  exact absurd child.1 (by decide)

end MandelbrotOS.Credentials
