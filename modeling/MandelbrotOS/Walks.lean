import Mathlib.Data.Fintype.Pigeonhole
import Mathlib.Data.List.Nodup
import Mathlib.Logic.Function.Iterate
import Mathlib.Tactic.Common

/-! Walks along the links of a linked structure, from a node until the first
one that is not live. A walk that ends goes through no node twice, and sees
nothing of the links of other nodes. -/
namespace MandelbrotOS.Walks

variable {Node : Type} {next next' : Node → Node} {live : Node → Bool}

/-- The live nodes from the given one on, or `none` when they go on for more
than so many steps. -/
def walk (next : Node → Node) (live : Node → Bool) : Nat → Node → Option (List Node)
  | 0, node => if live node then none else some []
  | steps + 1, node => if live node then (walk next live steps (next node)).map (node :: ·) else some []

theorem walk_dead (dead : live node = false) (steps : Nat) : walk next live steps node = some [] := by
  cases steps <;> simp [walk, dead]

theorem walk_cases (ran : walk next live steps node = some path) :
    (live node = false ∧ path = []) ∨
      (live node = true ∧ ∃ fewer rest, steps = fewer + 1 ∧ path = node :: rest ∧
        walk next live fewer (next node) = some rest) := by
  cases alive : live node with
  | false =>
    simp_all [walk_dead]
  | true =>
    cases steps with
    | zero => simp [walk, alive] at ran
    | succ fewer =>
      simp only [walk, alive, if_true, Option.map_eq_some_iff] at ran
      grind

theorem walk_nil (ran : walk next live steps node = some []) : live node = false := by
  grind [walk_cases]

theorem walk_cons (ran : walk next live steps node = some (first :: rest)) :
    node = first ∧ live first = true ∧ ∃ fewer, steps = fewer + 1 ∧
      walk next live fewer (next first) = some rest := by
  rcases walk_cases ran with ⟨_, empty⟩ | ⟨alive, fewer, _, taken, shape, onward⟩
  · cases empty
  · simp_all

section
variable {node : Node} {steps : Nat} {path : List Node} (ran : walk next live steps node = some path)
include ran

theorem walk_live : ∀ x ∈ path, live x = true := by
  induction path generalizing steps node with
  | nil => exact fun x member => absurd member List.not_mem_nil
  | cons first rest ih =>
    grind [walk_cons]

theorem walk_length : path.length ≤ steps := by
  induction path generalizing steps node with
  | nil => exact Nat.zero_le _
  | cons first rest ih =>
    grind [walk_cons]

theorem walk_linked (member : x ∈ path) : x = node ∨ ∃ y ∈ path, x = next y := by
  induction path generalizing steps node with
  | nil => exact absurd member List.not_mem_nil
  | cons first rest ih =>
    grind [walk_cons]

theorem walk_ends (nonempty : path ≠ []) : ∃ x ∈ path, live (next x) = false := by
  induction path generalizing steps node with
  | nil => exact absurd rfl nonempty
  | cons first rest ih =>
    obtain ⟨rfl, _, _, _, onward⟩ := walk_cons ran
    cases rest with
    | nil => exact ⟨node, List.mem_cons_self, walk_nil onward⟩
    | cons second rest =>
      grind

theorem walk_last (last : path.getLast? = some x) : live (next x) = false := by
  induction path generalizing steps node with
  | nil => cases last
  | cons first rest ih =>
    grind [walk_cons, walk_nil]

theorem walk_more (more : path.length ≤ steps') : walk next live steps' node = some path := by
  induction path generalizing steps steps' node with
  | nil => exact walk_dead (walk_nil ran) steps'
  | cons first rest ih =>
    obtain ⟨rfl, alive, _, _, onward⟩ := walk_cons ran
    cases steps' with
    | zero => exact absurd more (Nat.not_succ_le_zero _)
    | succ steps' =>
      grind [walk]

theorem walk_relinked (same : ∀ x ∈ path, next' x = next x ∨ live (next x) = false ∧ live (next' x) = false) :
    walk next' live steps node = some path := by
  induction path generalizing steps node with
  | nil => exact walk_dead (walk_nil ran) steps
  | cons first rest ih =>
    obtain ⟨rfl, alive, fewer, rfl, onward⟩ := walk_cons ran
    have tail : walk next' live fewer (next' node) = some rest := by
      grind [walk_dead]
    simp_all [walk]

theorem walk_congr (same : ∀ x ∈ path, next' x = next x) : walk next' live steps node = some path :=
  walk_relinked ran fun x member => Or.inl (same x member)

theorem walk_extends (ran' : walk next' live steps' node = some path')
    (same : ∀ x ∈ path, live (next x) = true → next' x = next x) : ∃ more, path' = path ++ more := by
  induction path generalizing steps steps' node path' with
  | nil => exact ⟨path', rfl⟩
  | cons first rest ih =>
    obtain ⟨rfl, alive, _, _, onward⟩ := walk_cons ran
    obtain ⟨dead, _⟩ | ⟨_, _, rest', _, rfl, onward'⟩ := walk_cases ran'
    · rw [alive] at dead
      cases dead
    · cases linked : live (next node) with
      | false =>
        simp_all [walk_dead]
      | true =>
        grind

theorem walk_from (member : x ∈ path) :
    ∃ fewer part, walk next live fewer x = some part ∧ part.length ≤ path.length := by
  induction path generalizing steps node with
  | nil => exact absurd member List.not_mem_nil
  | cons first rest ih =>
    grind [walk_cons]

end

theorem walk_inside {inside : Node → Prop} (ran : walk next live steps node = some path)
    (start : live node = true → inside node)
    (closed : ∀ x ∈ path, inside x → live (next x) = true → inside (next x)) : ∀ x ∈ path, inside x := by
  induction path generalizing steps node with
  | nil =>
    intro x member
    cases member
  | cons first rest ih =>
    grind [walk_cons]

theorem walk_nodup (ran : walk next live steps node = some path) : path.Nodup := by
  induction path generalizing steps node with
  | nil => exact List.nodup_nil
  | cons first rest ih =>
    obtain ⟨rfl, _, _, _, onward⟩ := walk_cons ran
    refine List.nodup_cons.mpr ⟨fun again => ?_, ih onward⟩
    -- the walk from a repeated node would be shorter than itself
    obtain ⟨fewer, part, from_here, shorter⟩ := walk_from onward again
    have long := walk_more ran (Nat.le_refl (node :: rest).length)
    grind [walk_more]

/-! ### Walks that end -/

theorem walk_iterate (ran : walk next live steps node = some path) :
    path = (List.range path.length).map fun i => next^[i] node := by
  induction path generalizing steps node with
  | nil => rfl
  | cons first rest ih =>
    obtain ⟨rfl, _, _, _, onward⟩ := walk_cons ran
    rw [List.length_cons, List.range_succ_eq_map, List.map_cons, List.map_map]
    exact congrArg (node :: ·) (ih onward)

theorem walk_out (ran : walk next live steps node = some path) : live (next^[path.length] node) = false := by
  induction path generalizing steps node with
  | nil => exact walk_nil ran
  | cons first rest ih =>
    obtain ⟨rfl, _, _, _, onward⟩ := walk_cons ran
    exact ih onward

theorem walk_of_iterate (dead : live (next^[n] node) = false) : ∃ path, walk next live n node = some path := by
  induction n generalizing node with
  | zero => exact ⟨[], walk_dead dead 0⟩
  | succ n ih =>
    obtain ⟨rest, onward⟩ := ih dead
    grind [walk]

/-- The links lead, by live nodes, to a node and from there to it again. -/
def Circular (next : Node → Node) (live : Node → Bool) (node : Node) : Prop :=
  ∃ i k, 0 < k ∧ next^[i + k] node = next^[i] node ∧ ∀ j < i + k, live (next^[j] node) = true

theorem Circular.alive (circular : Circular next live node) (n : Nat) : live (next^[n] node) = true := by
  obtain ⟨i, k, positive, again, alive⟩ := circular
  induction n using Nat.strongRecOn with
  | ind n ih =>
    by_cases early : n < i + k
    · exact alive n early
    · obtain ⟨more, rfl⟩ := Nat.exists_eq_add_of_le (Nat.not_lt.mp early)
      have earlier := ih (more + i) (by omega)
      rw [Function.iterate_add_apply, ← again, ← Function.iterate_add_apply] at earlier
      rwa [Nat.add_comm]

end MandelbrotOS.Walks
