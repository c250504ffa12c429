import Mathlib.Data.List.Nodup
import MandelbrotOS.PmmProofs

/-! The page allocator on several CPUs, `mm/pmm.c`. `pmalloc` gives `pmm_lock`
back between its search and `pmm_alloc_pages`, so a call is two sections, and
sections of other CPUs can fall between them: a page that one CPU has found
can be marked and returned by another before the first one marks it too. -/
namespace MandelbrotOS.PmmSections
open Pmm PmmProofs Runs

/-- Where a CPU stands: outside the allocator, between the two sections of
`pmalloc(1)`, or in the endless loop of a call that found no page. -/
inductive Place where
  | outside
  | found (page : Nat)
  | halted
  deriving DecidableEq

/-- The allocator, the place of every CPU and the pages each CPU was given and
has not freed. -/
structure Machine (Cpu : Type) where
  pmm : State
  place : Cpu → Place
  held : List (Cpu × Nat)

/-- One section under `pmm_lock`: the search of `pmalloc(1)`, the
`pmm_alloc_page` it ends with, or one turn of `pmm_free_pages`. -/
inductive Section (Cpu : Type) where
  | search (cpu : Cpu)
  | mark (cpu : Cpu)
  | free (cpu : Cpu) (page : Nat)

variable {Cpu : Type} [DecidableEq Cpu]

/-- The page the two loops of `pmalloc(1)` stop at. -/
def firstFree (pmm : State) : Option Nat :=
  (List.range (pmm.highestPage / pageSize)).find? fun i => pmallocTries pmm 1 i (List.range 1)

def step (machine : Machine Cpu) : Section Cpu → Option (Machine Cpu)
  | .search cpu =>
    match machine.place cpu, firstFree machine.pmm with
    | .outside, some page => some { machine with place := Function.update machine.place cpu (.found page) }
    | .outside, none => some { machine with place := Function.update machine.place cpu .halted }
    | _, _ => none
  | .mark cpu =>
    match machine.place cpu with
    | .found page => some
      { pmm := pmmAllocPage machine.pmm (page * pageSize)
        place := Function.update machine.place cpu .outside
        held := (cpu, page) :: machine.held }
    | _ => none
  | .free cpu page =>
    if machine.place cpu = .outside ∧ (cpu, page) ∈ machine.held then some
      { machine with
        pmm := pmmFreePage machine.pmm (page * pageSize)
        held := machine.held.erase (cpu, page) }
    else none

def start (pmm : State) : Machine Cpu := ⟨pmm, fun _ => .outside, []⟩

/-- No page is held twice, by two CPUs or by one. -/
def Exclusive (machine : Machine Cpu) : Prop := (machine.held.map Prod.snd).Nodup

/-- The page that is about to be marked is still free. -/
def StillFree (machine : Machine Cpu) : Section Cpu → Prop
  | .mark cpu => ∀ page, machine.place cpu = .found page → ¬ machine.pmm.Taken page
  | _ => True

instance (machine : Machine Cpu) : (sect : Section Cpu) → Decidable (StillFree machine sect)
  | .search _ => inferInstanceAs (Decidable True)
  | .mark cpu =>
    match place : machine.place cpu with
    | .outside => isTrue fun _ found => by rw [place] at found; cases found
    | .halted => isTrue fun _ found => by rw [place] at found; cases found
    | .found page => decidable_of_iff (¬ machine.pmm.Taken page)
        ⟨fun clear _ found => by rw [place] at found; cases found; exact clear, fun clear => clear page place⟩
  | .free _ _ => inferInstanceAs (Decidable True)

theorem firstFree_free (found : firstFree pmm = some page) : page < pmm.limit ∧ ¬ pmm.Taken page := by
  obtain ⟨accepted, inside, -⟩ := List.find?_range_eq_some.mp found
  exact ⟨List.mem_range.mp inside, ((tries_iff pmm 1 page).mp accepted).2⟩

/-! ### Sections of one call -/

/-- With no section between them, the turns of `pmm_free_pages` on a CPU's own
pages are the whole call. -/
theorem frees_eq_pmmFreePages (machine : Machine Cpu) (cpu : Cpu) (idle : machine.place cpu = .outside)
    (fits : (first + count) * pageSize ≤ wordSize)
    (owned : ∀ i < count, (cpu, first + i) ∈ machine.held) :
    ∃ held, ((List.range count).map fun i => Section.free cpu (first + i)).foldlM step machine =
      some { machine with pmm := pmmFreePages machine.pmm (first * pageSize) count, held } ∧
      ∀ page, page < first ∨ first + count ≤ page → (cpu, page) ∈ machine.held → (cpu, page) ∈ held := by
  induction count with
  | zero => exact ⟨machine.held, rfl, fun page _ member => member⟩
  | succ count ih =>
    have earlier : (first + count) * pageSize ≤ wordSize :=
      Nat.le_trans (Nat.mul_le_mul_right _ (by omega)) fits
    obtain ⟨held, ran, kept⟩ := ih earlier fun i turn => owned i (by omega)
    have last := kept (first + count) (Or.inr (Nat.le_refl _)) (owned count (by omega))
    refine ⟨held.erase (cpu, first + count), ?_, ?_⟩
    · rw [List.range_succ, List.map_append, List.foldlM_append, ran]
      have turn : (first * pageSize + count * pageSize) % wordSize = (first + count) * pageSize := by
        rw [← Nat.add_mul]
        refine Nat.mod_eq_of_lt (Nat.lt_of_lt_of_le ?_ fits)
        exact Nat.mul_lt_mul_of_pos_right (by omega) (by decide)
      simp [step, idle, last, pmmFreePages, List.range_succ, turn]
    · grind

theorem two_pages_freed :
    let machine : Machine Bool := ⟨⟨fun _ => 3#8, 4 * pageSize, by decide⟩, fun _ => .outside, [(true, 0), (true, 1)]⟩
    ∃ held, [Section.free true 0, .free true 1].foldlM step machine =
      some { machine with pmm := pmmFreePages machine.pmm (0 * pageSize) 2, held := held } := by
  intro machine
  have owned : ∀ i < 2, (true, 0 + i) ∈ machine.held := by decide
  obtain ⟨held, freed, -⟩ := frees_eq_pmmFreePages machine true rfl (by decide) owned
  exact ⟨held, freed⟩

/-! ### Interleaved sections -/

/-- What holds as long as every marked page was free: the bitmap is what it was
at the start and the pages held, and a page that was found was free then. -/
structure Sound (before : State) (machine : Machine Cpu) : Prop where
  exclusive : Exclusive machine
  taken : ∀ page, machine.pmm.Taken page ↔ before.Taken page ∨ page ∈ machine.held.map Prod.snd
  found : ∀ cpu page, machine.place cpu = .found page → ¬ before.Taken page
  apart : ∀ page ∈ machine.held.map Prod.snd, ¬ before.Taken page

omit [DecidableEq Cpu] in
theorem start_sound (before : State) : Sound before (start before : Machine Cpu) where
  exclusive := List.nodup_nil
  taken := by simp [start]
  found := by simp [start]
  apart := by simp [start]

theorem found_moved {place : Cpu → Place} {fact : Nat → Prop}
    (held : ∀ cpu page, place cpu = .found page → fact page) (cpu : Cpu) (target : Place)
    (new : ∀ page, target = .found page → fact page) :
    ∀ other page, Function.update place cpu target other = .found page → fact page := by
  grind

theorem sound_search {machine : Machine Cpu} (sound : Sound before machine)
    (ran : step machine (.search cpu) = some next) : Sound before next := by
  simp only [step] at ran
  split at ran
  · rename_i page idle stops
    cases ran
    refine ⟨sound.exclusive, sound.taken, found_moved sound.found cpu _ fun page' found => ?_, sound.apart⟩
    cases found
    intro taken
    exact (firstFree_free stops).2 ((sound.taken page).mpr (Or.inl taken))
  · cases ran
    exact ⟨sound.exclusive, sound.taken, found_moved sound.found cpu _ (by simp), sound.apart⟩
  · cases ran

theorem mark_eq_some {machine : Machine Cpu} (ran : step machine (.mark cpu) = some next) :
    ∃ page, machine.place cpu = .found page ∧ next =
      { pmm := pmmAllocPage machine.pmm (page * pageSize)
        place := Function.update machine.place cpu .outside
        held := (cpu, page) :: machine.held } := by
  simp only [step] at ran
  grind

theorem sound_mark {machine : Machine Cpu} (sound : Sound before machine)
    (clear : StillFree machine (.mark cpu)) (ran : step machine (.mark cpu) = some next) :
    Sound before next := by
  obtain ⟨page, found, rfl⟩ := mark_eq_some ran
  have fresh : page ∉ machine.held.map Prod.snd :=
    fun member => clear page found ((sound.taken page).mpr (Or.inr member))
  refine ⟨List.nodup_cons.mpr ⟨fresh, sound.exclusive⟩, fun other => ?_,
    found_moved sound.found cpu _ (by simp), ?_⟩
  · rw [taken_pmmAllocPage, page_of_address, List.map_cons, List.mem_cons]
    by_cases same : other = page
    · simp [same]
    · simp [same, sound.taken other]
  · intro other member
    rcases List.mem_cons.mp member with rfl | member
    · exact sound.found cpu _ found
    · exact sound.apart other member

theorem held_erase {held : List (Cpu × Nat)} (exclusive : (held.map Prod.snd).Nodup)
    (owned : (cpu, page) ∈ held) (other : Nat) :
    other ∈ (held.erase (cpu, page)).map Prod.snd ↔ other ∈ held.map Prod.snd ∧ other ≠ page := by
  constructor
  · intro member
    obtain ⟨⟨owner, other⟩, inside, rfl⟩ := List.mem_map.mp member
    have before := List.mem_of_mem_erase inside
    refine ⟨List.mem_map_of_mem before, fun same => ?_⟩
    have whole : (owner, other) = (cpu, page) := List.inj_on_of_nodup_map exclusive before owned same
    rw [whole] at inside
    exact (List.Nodup.of_map _ exclusive).not_mem_erase inside
  · simp_all

theorem sound_free {machine : Machine Cpu} (sound : Sound before machine)
    (ran : step machine (.free cpu page) = some next) : Sound before next := by
  simp only [step] at ran
  split at ran
  · rename_i allowed
    obtain ⟨idle, owned⟩ := allowed
    cases ran
    have rest := held_erase sound.exclusive owned
    refine ⟨sound.exclusive.sublist (List.erase_sublist.map _), fun other => ?_, sound.found, ?_⟩
    · rw [taken_pmmFreePage, page_of_address, rest]
      by_cases same : other = page
      · have early := sound.apart page (List.mem_map_of_mem owned)
        simp [same, early]
      · simp [same, sound.taken other]
    · intro other member
      exact sound.apart other ((rest other).mp member).1
  · cases ran

theorem sound_step (machine : Machine Cpu) (sect : Section Cpu) (next : Machine Cpu)
    (sound : Sound before machine) (clear : StillFree machine sect)
    (ran : step machine sect = some next) : Sound before next := by
  cases sect with
  | search cpu => exact sound_search sound ran
  | mark cpu => exact sound_mark sound clear ran
  | free cpu page => exact sound_free sound ran

theorem not_exclusive_step (machine : Machine Cpu) (sect : Section Cpu) (sound : Sound before machine)
    (missed : ¬ StillFree machine sect) : ∃ next, step machine sect = some next ∧ ¬ Exclusive next := by
  cases sect with
  | search cpu => exact absurd trivial missed
  | free cpu page => exact absurd trivial missed
  | mark cpu =>
    simp only [StillFree, not_forall, not_not] at missed
    obtain ⟨page, found, taken⟩ := missed
    have held := ((sound.taken page).mp taken).resolve_left (sound.found cpu page found)
    have ran : step machine (.mark cpu) = some
        { pmm := pmmAllocPage machine.pmm (page * pageSize)
          place := Function.update machine.place cpu .outside
          held := (cpu, page) :: machine.held } := by
      simp only [step, found]
    exact ⟨_, ran, fun exclusive => (List.nodup_cons.mp exclusive).1 held⟩

/-- No page is held twice in any state of a run exactly when each
`pmm_alloc_page` of the run marks a page that is still free. -/
theorem exclusive_pages_iff (before : State) (sections : List (Section Cpu)) :
    Throughout step Exclusive (start before) sections ↔ Along step StillFree (start before) sections :=
  throughout_iff_along (fun _ sound => sound.exclusive) sound_step not_exclusive_step
    (start_sound before)

/-- Four free pages and two CPUs: both find page 0 before either marks it, and
both are given it. -/
theorem two_cpus_get_one_page :
    let before : State := ⟨fun _ => 0#8, 4 * pageSize, by decide⟩
    ∃ final : Machine Bool,
      [.search false, .search true, .mark false, .mark true].foldlM step (start before) = some final ∧
        final.held = [(true, 0), (false, 0)] ∧ ¬ Exclusive final := by
  intro before
  have stops : firstFree before = some 0 := by decide
  refine ⟨_, by simp [step, start, stops]; rfl, ?_, ?_⟩
  · rfl
  · unfold Exclusive
    decide

end MandelbrotOS.PmmSections
