import Mathlib.Algebra.Group.Nat.Defs
import Mathlib.Tactic.Common

/-! `sched_waitpid`. The child and the event to wait for are in a local variable and in
fresh memory that only some branches assign, so what was there before shows through:
an unknown pid waits for a stray event, and -1 answers with a stray process. -/
namespace MandelbrotOS.WaitPid

/-! ### The code -/

def wnohang : BitVec 32 := 1
def echild : Int := 12
def einval : Int := 28

abbrev ProcPtr := Nat
abbrev EventPtr := Nat

/-- The `pid` and `event` of the process at any address, and `children` of the caller:
the pointers from its data on, of which the first `length` are processes. -/
structure Family where
  pid : ProcPtr → BitVec 64
  event : ProcPtr → EventPtr
  length : Nat
  data : Int → ProcPtr
  valid : ∀ i < length, data i ≠ 0

/-- What stands in the local `child` and in the memory that `kmalloc` returns. -/
structure Uninitialised where
  child : ProcPtr
  event : EventPtr

/-- What a call does: it returns at once, or it calls `event_await` and answers for the
result; `none` is an endless loop. -/
inductive Outcome where
  | returns (result : Int)
  | awaits (events : List EventPtr) (block : Bool) (answer : Int → Option Int)

/-- What follows `event_await`. The pid is returned as an `int`. -/
def afterAwait (family : Family) (child : ProcPtr) (which : Int) : Option Int :=
  if which = -1 then some 0
  else
    let child := if child = 0 then family.data which else child
    if child = 0 then none else some ((family.pid child).setWidth 32).toInt

/-- The events of all children. -/
def Family.events (family : Family) : List EventPtr :=
  (List.range family.length).map fun (i : Nat) => family.event (family.data i)

/-- A turn of the loop that looks for a pid. -/
def tryChild (family : Family) (pid : BitVec 64) (found : EventPtr × ProcPtr) (i : Nat) : EventPtr × ProcPtr :=
  if family.pid (family.data i) = pid then (family.event (family.data i), family.data i) else found

/-- The loop, which does not stop at the first child it finds. -/
def findChild (family : Family) (pid : BitVec 64) (before : EventPtr × ProcPtr) : EventPtr × ProcPtr :=
  (List.range family.length).foldl (tryChild family pid) before

def schedWaitpid (family : Family) (stray : Uninitialised) (pid : BitVec 64) (options : BitVec 32) : Outcome :=
  let block : Bool := options &&& wnohang = 0
  if pid.toInt = -1 then
    .awaits family.events block (afterAwait family stray.child)
  else if pid.toInt > 0 then
    let found := findChild family pid (stray.event, stray.child)
    if found.1 = 0 then .returns (-echild) else .awaits [found.1] block (afterAwait family found.2)
  else .returns (-einval)

/-! ### What is asked of it -/

/-- The children have distinct pids. -/
def Family.Distinct (family : Family) : Prop :=
  ∀ i < family.length, ∀ j < family.length, family.pid (family.data i) = family.pid (family.data j) → i = j

/-- The child whose pid it is. -/
def Family.Child (family : Family) (pid : BitVec 64) (i : Nat) : Prop :=
  i < family.length ∧ family.pid (family.data i) = pid

/-- A positive pid waits for the event of that child and answers with its pid, or is
-ECHILD exactly if there is none; -1 waits for the events of all children and answers
with the pid of the one whose event was consumed. Where nothing was pending the answer
is 0. Any other pid is -EINVAL. -/
def Right (family : Family) (pid : BitVec 64) (options : BitVec 32) (outcome : Outcome) : Prop :=
  if pid.toInt = -1 then
    ∃ answer, outcome = .awaits family.events (options &&& wnohang = 0) answer ∧
      (∀ i < family.length, answer i = some ((family.pid (family.data i)).toNat : Int)) ∧ answer (-1) = some 0
  else if pid.toInt > 0 then
    (outcome = .returns (-echild) ↔ ∀ i, ¬ family.Child pid i) ∧
      ∀ i, family.Child pid i → ∃ answer, outcome = .awaits [family.event (family.data i)]
        (options &&& wnohang = 0) answer ∧ answer 0 = some (pid.toNat : Int) ∧ answer (-1) = some 0
  else outcome = .returns (-einval)

/-- When a call is right, by the contents of what it does not initialise. -/
def Lucky (family : Family) (stray : Uninitialised) (pid : BitVec 64) : Prop :=
  if pid.toInt = -1 then
    ∀ i < family.length, (family.pid (family.data i)).toNat < 2 ^ 31 ∧
      (stray.child = 0 ∨ (family.pid stray.child).setWidth 32 = (family.pid (family.data i)).setWidth 32)
  else if pid.toInt > 0 then
    ((∀ i, ¬ family.Child pid i) → stray.event = 0) ∧
      ∀ i, family.Child pid i → family.event (family.data i) ≠ 0 ∧ pid.toNat < 2 ^ 31
  else True

/-! ### When it is right -/

theorem int_eq_iff (pid : BitVec 64) : (pid.setWidth 32).toInt = pid.toNat ↔ pid.toNat < 2 ^ 31 := by
  grind

theorem findChild_none {family : Family} (none : ∀ i, ¬ family.Child pid i) (before : EventPtr × ProcPtr) :
    findChild family pid before = before := by
  have each : ∀ turns ≤ family.length, (List.range turns).foldl (tryChild family pid) before = before := by
    intro turns within
    induction turns with
    | zero => rfl
    | succ i ih =>
      rw [List.range_succ, List.foldl_append, List.foldl_cons, List.foldl_nil, ih (by omega), tryChild,
        if_neg fun same => none i ⟨within, same⟩]
  exact each family.length (Nat.le_refl _)

theorem findChild_some {family : Family} (distinct : family.Distinct) (child : family.Child pid i)
    (before : EventPtr × ProcPtr) :
    findChild family pid before = (family.event (family.data i), family.data i) := by
  have each : ∀ turns ≤ family.length, i < turns → (List.range turns).foldl (tryChild family pid) before =
      (family.event (family.data i), family.data i) := by
    intro turns within after
    induction turns with
    | zero => omega
    | succ j ih =>
      rw [List.range_succ, List.foldl_append, List.foldl_cons, List.foldl_nil, tryChild]
      split
      next same => rw [distinct i child.1 j within (child.2.trans same.symm)]
      next other =>
        have earlier : i ≠ j := fun here => other (here ▸ child.2)
        exact ih (by omega) (by omega)
  exact each family.length (Nat.le_refl _) child.1

theorem right_all_iff (family : Family) (stray : Uninitialised) (options : BitVec 32) (all : pid.toInt = -1) :
    Right family pid options (schedWaitpid family stray pid options) ↔ Lucky family stray pid := by
  rw [Right, Lucky, schedWaitpid, if_pos all, if_pos all, if_pos all]
  have answer (i : Nat) (inside : i < family.length) : afterAwait family stray.child i =
      some ((family.pid (family.data i)).toNat : Int) ↔ (family.pid (family.data i)).toNat < 2 ^ 31 ∧
        (stray.child = 0 ∨ (family.pid stray.child).setWidth 32 = (family.pid (family.data i)).setWidth 32) := by
    rw [afterAwait, if_neg (by omega)]
    by_cases null : stray.child = 0
    · simp only [null, if_true, if_neg (family.valid i inside), Option.some.injEq, true_or, and_true, int_eq_iff]
    · simp only [null, if_false, Option.some.injEq, false_or]
      constructor
      · intro same
        have small : (family.pid (family.data i)).toNat < 2 ^ 31 := by
          grind
        exact ⟨small, BitVec.toInt_inj.mp (same.trans ((int_eq_iff _).mpr small).symm)⟩
      · grind
  constructor
  · simp_all
  · intro lucky
    exact ⟨_, rfl, fun i inside => (answer i inside).mpr (lucky i inside), rfl⟩

theorem right_one_iff (family : Family) (stray : Uninitialised) (options : BitVec 32) (distinct : family.Distinct)
    (all : pid.toInt ≠ -1) (one : pid.toInt > 0) :
    Right family pid options (schedWaitpid family stray pid options) ↔ Lucky family stray pid := by
  rw [Right, Lucky, schedWaitpid, if_neg all, if_neg all, if_neg all, if_pos one, if_pos one, if_pos one]
  by_cases known : ∃ i, family.Child pid i
  · obtain ⟨i, child⟩ := known
    have unique (j : Nat) (other : family.Child pid j) : j = i :=
      distinct j other.1 i child.1 (other.2.trans child.2.symm)
    have answer : afterAwait family (family.data i) 0 = some (pid.toNat : Int) ↔ pid.toNat < 2 ^ 31 := by
      simp only [afterAwait, if_neg (family.valid i child.1), child.2, Option.some.injEq, int_eq_iff,
        show ¬(0 : Int) = -1 by decide, if_false]
    rw [findChild_some distinct child]
    by_cases null : family.event (family.data i) = 0
    · grind
    · simp only [null, if_false]
      constructor
      · rintro ⟨_, awaited⟩
        refine ⟨fun none => absurd child (none i), fun j other => ?_⟩
        obtain ⟨_, same, answers, _⟩ := awaited i child
        cases same
        simp_all
      · rintro ⟨_, lucky⟩
        refine ⟨iff_of_false Outcome.noConfusion fun none => none i child, fun j other => ?_⟩
        rw [unique j other]
        exact ⟨_, rfl, answer.mpr (lucky i child).2, rfl⟩
  · simp_all [findChild_none]

/-- **`sched_waitpid` is right exactly where the stray contents happen to be**, for
children with distinct pids. -/
theorem waitpid_right_iff (family : Family) (stray : Uninitialised) (pid : BitVec 64) (options : BitVec 32)
    (distinct : family.Distinct) :
    Right family pid options (schedWaitpid family stray pid options) ↔ Lucky family stray pid := by
  by_cases all : pid.toInt = -1
  · exact right_all_iff family stray options all
  · by_cases one : pid.toInt > 0
    · exact right_one_iff family stray options distinct all one
    · rw [Right, Lucky, schedWaitpid, if_neg all, if_neg all, if_neg all, if_neg one, if_neg one, if_neg one]
      exact iff_true_intro rfl

/-- Two children, at addresses 1 and 2. -/
def twoChildren : Family where
  pid process := if process = 1 then 10 else 11
  event process := 100 + process
  length := 2
  data i := i.toNat + 1
  valid _ _ := Nat.succ_ne_zero _

theorem twoChildren_distinct : twoChildren.Distinct := by
  unfold Family.Distinct
  decide

theorem zeroes_right :
    Right twoChildren 11 0 (schedWaitpid twoChildren ⟨0, 0⟩ 11 0) ∧
      Right twoChildren (-1) 0 (schedWaitpid twoChildren ⟨0, 0⟩ (-1) 0) := by
  refine ⟨(waitpid_right_iff twoChildren ⟨0, 0⟩ 11 0 twoChildren_distinct).mpr ?_,
    (waitpid_right_iff twoChildren ⟨0, 0⟩ (-1) 0 twoChildren_distinct).mpr ?_⟩
  · rw [Lucky, if_neg (by decide), if_pos (by decide)]
    exact ⟨fun _ => rfl, fun i _ => ⟨by simp [twoChildren], by decide⟩⟩
  · rw [Lucky, if_pos (by decide)]
    decide

/-- An unknown pid waits for the stray event, and -1 answers with the stray process. -/
theorem strays_shown :
    (∃ answer, schedWaitpid twoChildren ⟨0, 7⟩ 12 0 = .awaits [7] true answer) ∧
      ∃ answer, schedWaitpid twoChildren ⟨1, 0⟩ (-1) 0 = .awaits [101, 102] true answer ∧ answer 1 = some 10 :=
  ⟨⟨_, rfl⟩, _, rfl, rfl⟩

end MandelbrotOS.WaitPid
