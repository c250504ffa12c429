import MandelbrotOS.Scheduler

/-! The level loop of `schedule` ends. The peg climbs one level per round and
each round visits every level up to it, so a round whose peg is the highest
level comes past every queue. -/
namespace MandelbrotOS.SchedulerRotation
open Scheduler

/-- The rotation states a CPU passes through: a level at or below the peg. -/
def InRotation (locals : Locals) : Prop :=
  locals.currentPriority ≤ locals.currentPriorityPeg ∧ locals.currentPriorityPeg < priorityLevels

section
variable (inside : InRotation locals)
include inside

theorem rotate_climbs (below : locals.currentPriority < locals.currentPriorityPeg) :
    rotate locals = { locals with currentPriority := locals.currentPriority + 1 } := by
  obtain ⟨_, top⟩ := inside
  simp only [priorityLevels] at top
  have small : (locals.currentPriority + 1) % 256 = locals.currentPriority + 1 :=
    Nat.mod_eq_of_lt (by omega)
  rw [rotate, small, if_neg (by omega)]

theorem rotate_wraps (atPeg : locals.currentPriority = locals.currentPriorityPeg) :
    rotate locals = { locals with
      currentPriority := 0
      currentPriorityPeg :=
        if locals.currentPriorityPeg + 1 = priorityLevels then 0
        else locals.currentPriorityPeg + 1 } := by
  obtain ⟨_, top⟩ := inside
  simp only [priorityLevels] at top
  have small : (locals.currentPriority + 1) % 256 = locals.currentPriority + 1 :=
    Nat.mod_eq_of_lt (by omega)
  simp_all [Nat.mod_eq_of_lt, rotate]

theorem rotate_inRotation : InRotation (rotate locals) := by
  by_cases below : locals.currentPriority < locals.currentPriorityPeg
  · rw [rotate_climbs inside below]
    exact ⟨below, inside.2⟩
  · rw [rotate_wraps inside (by have := inside.1; omega)]
    refine ⟨Nat.zero_le _, ?_⟩
    have top := inside.2
    grind

theorem iterate_climbs (below : locals.currentPriority + turns ≤ locals.currentPriorityPeg) :
    rotate^[turns] locals = { locals with currentPriority := locals.currentPriority + turns } := by
  induction turns with
  | zero => rfl
  | succ turns ih =>
    rw [Function.iterate_succ_apply', ih (by omega), rotate_climbs]
    · simp only [Nat.add_assoc]
    · exact ⟨by dsimp only; omega, inside.2⟩
    · dsimp only
      omega

theorem iterate_next_round (atPeg : locals.currentPriority = locals.currentPriorityPeg)
    (room : locals.currentPriorityPeg + 1 < priorityLevels)
    (level : turns ≤ locals.currentPriorityPeg + 1) :
    rotate^[turns + 1] locals = { locals with
      currentPriority := turns, currentPriorityPeg := locals.currentPriorityPeg + 1 } := by
  rw [Function.iterate_succ_apply, rotate_wraps inside atPeg, if_neg (by omega), iterate_climbs]
  · simp
  · exact ⟨Nat.zero_le _, room⟩
  · dsimp only
    omega

end

/-- At most `turns` turns lead from one rotation state to the other. -/
def Within (turns : Nat) (start goal : Locals) : Prop := ∃ few ≤ turns, rotate^[few] start = goal

theorem within_trans (first : Within m a b) (second : Within n b c) : Within (m + n) a c := by
  obtain ⟨i, few, rfl⟩ := first
  obtain ⟨j, more, rfl⟩ := second
  exact ⟨j + i, by omega, Function.iterate_add_apply rotate j i a⟩

theorem reaches_last_but_one (locals : Locals) (rounds : Nat) (inside : InRotation locals)
    (atPeg : locals.currentPriority = locals.currentPriorityPeg)
    (below : locals.currentPriorityPeg + rounds + 2 = priorityLevels) :
    Within (20 * rounds) locals { locals with currentPriority := 18, currentPriorityPeg := 18 } := by
  simp only [priorityLevels] at below
  induction rounds generalizing locals with
  | zero =>
    refine ⟨0, Nat.le_refl _, ?_⟩
    have peg : locals.currentPriorityPeg = 18 := by omega
    cases locals
    simp_all
  | succ rounds ih =>
    have climbed : Within 20 locals { locals with
        currentPriority := locals.currentPriorityPeg + 1
        currentPriorityPeg := locals.currentPriorityPeg + 1 } :=
      ⟨locals.currentPriorityPeg + 1 + 1, by omega,
        iterate_next_round inside atPeg (by simp only [priorityLevels]; omega) (Nat.le_refl _)⟩
    have onward := within_trans climbed
      (ih _ ⟨Nat.le_refl _, by simp only [priorityLevels]; omega⟩ rfl (by dsimp only; omega))
    grind

theorem reaches_last_round (inside : InRotation locals) :
    Within (19 + (1 + 360)) locals { locals with currentPriority := 18, currentPriorityPeg := 18 } := by
  have bounds := inside
  simp only [InRotation, priorityLevels] at bounds
  have climbed : Within 19 locals { locals with currentPriority := locals.currentPriorityPeg } := by
    refine ⟨locals.currentPriorityPeg - locals.currentPriority, by omega, ?_⟩
    simp_all [iterate_climbs]
  refine within_trans climbed ?_
  by_cases top : locals.currentPriorityPeg = 19
  · have wrapped : Within 1 { locals with currentPriority := locals.currentPriorityPeg }
        { locals with currentPriority := 0, currentPriorityPeg := 0 } := by
      refine ⟨1, Nat.le_refl _, ?_⟩
      have atTop : InRotation { locals with currentPriority := locals.currentPriorityPeg } :=
        ⟨Nat.le_refl _, inside.2⟩
      simp_all [rotate_wraps, priorityLevels]
    exact within_trans wrapped (reaches_last_but_one _ 18
      ⟨Nat.le_refl _, by simp [priorityLevels]⟩ rfl rfl)
  · obtain ⟨turns, few, reached⟩ :=
      reaches_last_but_one { locals with currentPriority := locals.currentPriorityPeg }
        (18 - locals.currentPriorityPeg) ⟨Nat.le_refl _, inside.2⟩ rfl (by simp only [priorityLevels]; omega)
    exact ⟨turns, by omega, reached⟩

theorem rotation_visits (inside : InRotation locals) (level : target < priorityLevels) :
    ∃ turns < levelTurns, (rotate^[turns + 1] locals).currentPriority = target := by
  simp only [priorityLevels] at level
  obtain ⟨turns, few, reached⟩ := reaches_last_round inside
  refine ⟨target + turns, by simp only [levelTurns]; omega, ?_⟩
  rw [show target + turns + 1 = (target + 1) + turns by omega, Function.iterate_add_apply, reached,
    iterate_next_round ⟨Nat.le_refl _, by simp [priorityLevels]⟩ rfl (by simp [priorityLevels])
      (by dsimp only; omega)]

theorem chooseLevel_stops (soon : turns < fuel)
    (threaded : threads (rotate^[turns + 1] locals).currentPriority ≠ []) :
    ∃ chosen, chooseLevel threads fuel locals = some chosen := by
  induction fuel generalizing locals turns with
  | zero => omega
  | succ fuel ih =>
    simp only [chooseLevel]
    split
    · exact ⟨_, rfl⟩
    · rename_i empty
      cases turns with
      | zero =>
        simp_all
      | succ turns =>
        grind [Function.iterate_succ_apply]

theorem chooseLevel_inRotation (inside : InRotation locals)
    (picked : chooseLevel threads fuel locals = some chosen) : InRotation chosen := by
  induction fuel generalizing locals with
  | zero => cases picked
  | succ fuel ih =>
    grind [chooseLevel, rotate_inRotation]

theorem chooseLevel_threaded (picked : chooseLevel threads fuel locals = some chosen) :
    threads chosen.currentPriority ≠ [] := by
  induction fuel generalizing locals with
  | zero => cases picked
  | succ fuel ih =>
    grind [chooseLevel]

theorem chooseLevel_returns (inside : InRotation locals) (level : target < priorityLevels)
    (threaded : threads target ≠ []) :
    ∃ chosen, chooseLevel threads levelTurns locals = some chosen := by
  obtain ⟨turns, soon, visits⟩ := rotation_visits inside level
  exact chooseLevel_stops soon (by rwa [visits])

end MandelbrotOS.SchedulerRotation
