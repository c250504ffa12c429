import MandelbrotOS.Pmm
import MandelbrotOS.Runs

/-! Histories of the page allocator: any sequence of allocations and of
releases of runs still held. `pmalloc` accepts the lowest free page as the
start of a run of any length, so a history keeps its runs apart exactly when
the pages after that lowest free page happen to be free as well. -/
namespace MandelbrotOS.PmmProofs
open Pmm Runs

/-- The pages handed out by one `pmalloc` call that came back. -/
structure PageRun where
  adr : Nat
  pages : Nat
  deriving DecidableEq

def PageRun.first (run : PageRun) : Nat := run.adr / pageSize

/-- The run's pages are `[adr / PAGE_SIZE, adr / PAGE_SIZE + pages)`. -/
def PageRun.Covers (run : PageRun) (page : Nat) : Prop :=
  run.first ≤ page ∧ page < run.first + run.pages

def PageRun.Apart (a b : PageRun) : Prop := ∀ page, ¬ (a.Covers page ∧ b.Covers page)

/-- The allocator together with the allocations not given back yet. -/
structure Ledger where
  pmm : State
  live : List PageRun

/-- `pmalloc(n)`, or `pmm_free_pages` on one of the runs still held. -/
inductive Call where
  | pmalloc (pages : Nat)
  | release (index : Nat)

def step (ledger : Ledger) : Call → Option Ledger
  | .pmalloc pages => (Pmm.pmalloc ledger.pmm pages).map
      fun (adr, pmm) => ⟨pmm, ⟨adr, pages⟩ :: ledger.live⟩
  | .release index => (ledger.live[index]?).map fun run =>
      ⟨pmmFreePages ledger.pmm run.adr run.pages, ledger.live.eraseIdx index⟩

/-- What one call owes: a run that comes back was free, lies below the scan's
bound, and the call takes exactly its pages. -/
def CallSound (ledger : Ledger) : Call → Prop
  | .pmalloc pages => ∀ adr pmm, Pmm.pmalloc ledger.pmm pages = some (adr, pmm) →
      (∀ page, PageRun.Covers ⟨adr, pages⟩ page → ¬ ledger.pmm.Taken page) ∧
      adr / pageSize + pages ≤ ledger.pmm.limit ∧
      ∀ page, pmm.Taken page ↔ ledger.pmm.Taken page ∨ PageRun.Covers ⟨adr, pages⟩ page
  | .release _ => True

def LiveApart (ledger : Ledger) : Prop := ledger.live.Pairwise PageRun.Apart

/-- The lowest free page begins `pages` free pages that end below the bound. -/
def LowestRunFree (ledger : Ledger) : Call → Prop
  | .pmalloc pages => ∀ lowest, lowest < ledger.pmm.limit → ¬ ledger.pmm.Taken lowest →
      (∀ page < lowest, ledger.pmm.Taken page) →
      (∀ page, lowest ≤ page → page < lowest + pages → ¬ ledger.pmm.Taken page) ∧
      lowest + pages ≤ ledger.pmm.limit
  | .release _ => True

theorem tries_iff (pmm : State) (pages i : Nat) :
    pmallocTries pmm pages i (List.range pages) = true ↔ 0 < pages ∧ ¬ pmm.Taken i := by
  have turns (count start : Nat) (ends : start + count = pages) :
      pmallocTries pmm pages i (List.range' start count) = true ↔ 0 < count ∧ ¬ pmm.Taken i := by
    induction count generalizing start with
    | zero => simp [pmallocTries]
    | succ count ih =>
      rw [List.range'_succ, pmallocTries]
      grind [State.Taken]
  simp_all [List.range_eq_range']

theorem pmalloc_cases (ran : Pmm.pmalloc pmm pages = some (adr, after)) :
    0 < pages ∧ ∃ lowest < pmm.limit, ¬ pmm.Taken lowest ∧ (∀ page < lowest, pmm.Taken page) ∧
      adr = lowest * pageSize ∧ after = pmmAllocPages pmm (lowest * pageSize) pages := by
  obtain ⟨lowest, found, result⟩ := Option.map_eq_some_iff.mp ran
  rw [List.find?_range_eq_some] at found
  obtain ⟨accepted, inside, earlier⟩ := found
  obtain ⟨positive, free⟩ := (tries_iff pmm pages lowest).mp accepted
  refine ⟨positive, lowest, List.mem_range.mp inside, free, ?_, ?_⟩
  · intro page below
    have refused := earlier page below
    simp only [Bool.not_eq_true', ← Bool.not_eq_true, tries_iff] at refused
    simp_all
  · grind

theorem pmalloc_returns (positive : 0 < pages) (inside : lowest < pmm.limit)
    (free : ¬ pmm.Taken lowest) (earlier : ∀ page < lowest, pmm.Taken page) :
    Pmm.pmalloc pmm pages =
      some (lowest * pageSize, pmmAllocPages pmm (lowest * pageSize) pages) := by
  have found : (List.range (pmm.highestPage / pageSize)).find?
      (fun i => pmallocTries pmm pages i (List.range pages)) = some lowest := by
    rw [List.find?_range_eq_some]
    refine ⟨(tries_iff pmm pages lowest).mpr ⟨positive, free⟩, List.mem_range.mpr inside, ?_⟩
    grind [tries_iff]
  rw [Pmm.pmalloc, found]
  rfl

theorem page_of_address (first : Nat) : first * pageSize / pageSize = first :=
  Nat.mul_div_cancel _ (by decide)

theorem fits_of_below_limit {pmm : State} (below : last ≤ pmm.limit) :
    last * pageSize ≤ wordSize := by
  have whole : pmm.limit * pageSize ≤ pmm.highestPage := Nat.div_mul_le_self _ _
  have bounded := pmm.bounded
  exact Nat.le_trans (Nat.mul_le_mul_right _ below) (by omega)

theorem call_sound_iff (ledger : Ledger) (call : Call) :
    CallSound ledger call ↔ LowestRunFree ledger call := by
  cases call with
  | release index => exact Iff.rfl
  | pmalloc pages =>
    constructor
    · intro sound lowest inside free earlier
      by_cases none : pages = 0
      · grind
      · obtain ⟨clear, below, _⟩ :=
          sound _ _ (pmalloc_returns (Nat.pos_of_ne_zero none) inside free earlier)
        simp_all [page_of_address, PageRun.Covers, PageRun.first]
    · intro fits adr after ran
      obtain ⟨_, lowest, inside, free, earlier, rfl, rfl⟩ := pmalloc_cases ran
      obtain ⟨clear, below⟩ := fits lowest inside free earlier
      simp only [PageRun.Covers, PageRun.first, page_of_address]
      grind [taken_pmmAllocPages, fits_of_below_limit]

/-- A held run starts on a page, ends below the bound, and all its pages are
taken. -/
def Held (pmm : State) (run : PageRun) : Prop :=
  run.adr = run.first * pageSize ∧ run.first + run.pages ≤ pmm.limit ∧
    ∀ page, run.Covers page → pmm.Taken page

/-- The allocator's bookkeeping agrees with the history: the runs still held
are taken, and no page belongs to two of them. -/
structure Books (ledger : Ledger) : Prop where
  held : ∀ run ∈ ledger.live, Held ledger.pmm run
  apart : LiveApart ledger

theorem pmalloc_keeps_books (books : Books ledger)
    (met : LowestRunFree ledger (.pmalloc pages))
    (ran : Pmm.pmalloc ledger.pmm pages = some (adr, after)) :
    Books ⟨after, ⟨adr, pages⟩ :: ledger.live⟩ := by
  obtain ⟨clear, below, exactly⟩ := (call_sound_iff ledger (.pmalloc pages)).mpr met adr after ran
  obtain ⟨_, lowest, _, _, _, rfl, rfl⟩ := pmalloc_cases ran
  have kept : ∀ run ∈ ledger.live, Held (pmmAllocPages ledger.pmm (lowest * pageSize) pages) run := by
    intro run member
    obtain ⟨aligned, inside, taken⟩ := books.held run member
    refine ⟨aligned, ?_, fun page covered => (exactly page).mpr (Or.inl (taken page covered))⟩
    simpa [State.limit] using inside
  refine ⟨?_, List.pairwise_cons.mpr ⟨?_, books.apart⟩⟩
  · intro run member
    rcases List.mem_cons.mp member with rfl | member
    · refine ⟨?_, ?_, fun page covered => (exactly page).mpr (Or.inr covered)⟩
      · rw [PageRun.first, page_of_address]
      · simpa [State.limit, PageRun.first] using below
    · exact kept run member
  · rintro run member page ⟨fresh, old⟩
    exact clear page fresh ((books.held run member).2.2 page old)

theorem release_keeps_books (books : Books ledger) (found : ledger.live[index]? = some run) :
    Books ⟨pmmFreePages ledger.pmm run.adr run.pages, ledger.live.eraseIdx index⟩ := by
  obtain ⟨aligned, below, _⟩ := books.held run (List.mem_of_getElem? found)
  have exactly (page : Nat) : (pmmFreePages ledger.pmm run.adr run.pages).Taken page ↔
      ledger.pmm.Taken page ∧ ¬ run.Covers page := by
    rw [aligned, taken_pmmFreePages ledger.pmm (fits_of_below_limit below)]
    exact Iff.rfl
  have others : ∀ other ∈ ledger.live.eraseIdx index, other.Apart run := by
    intro other member
    obtain ⟨position, different, place⟩ := List.mem_eraseIdx_iff_getElem?.mp member
    have ordered := List.pairwise_iff_getElem.mp books.apart
    obtain ⟨insideOther, rfl⟩ := List.getElem?_eq_some_iff.mp place
    obtain ⟨insideRun, rfl⟩ := List.getElem?_eq_some_iff.mp found
    rcases Nat.lt_or_gt_of_ne different with before | behind
    · simp_all
    · exact fun page both => ordered index position insideRun insideOther behind page both.symm
  refine ⟨?_, List.Pairwise.sublist (List.eraseIdx_sublist ..) books.apart⟩
  intro other member
  obtain ⟨otherAligned, inside, taken⟩ := books.held other (List.mem_of_mem_eraseIdx member)
  refine ⟨otherAligned, ?_, fun page covered => ?_⟩
  · simpa [State.limit] using inside
  · exact (exactly page).mpr ⟨taken page covered, fun same => others other member page ⟨covered, same⟩⟩

theorem step_keeps_books (ledger : Ledger) (call : Call) (next : Ledger) (books : Books ledger)
    (met : LowestRunFree ledger call) (stepped : step ledger call = some next) : Books next := by
  cases call with
  | pmalloc pages =>
    obtain ⟨⟨adr, after⟩, ran, rfl⟩ := Option.map_eq_some_iff.mp stepped
    exact pmalloc_keeps_books books met ran
  | release index =>
    obtain ⟨run, found, rfl⟩ := Option.map_eq_some_iff.mp stepped
    exact release_keeps_books books found

/-- Every call of the history does what it owes and every ledger it passes
through keeps the live runs apart. -/
def HistorySound (start : Ledger) (calls : List Call) : Prop :=
  Along step CallSound start calls ∧ Throughout step LiveApart start calls

/-- **Histories of the page allocator.** From any bitmap, a history of
allocations and releases is sound exactly when each `pmalloc(n)` in it is made
while the `n` pages from the lowest free page on are free and below the bound. -/
theorem history_sound_iff (pmm : State) (calls : List Call) :
    HistorySound ⟨pmm, []⟩ calls ↔ Along step LowestRunFree ⟨pmm, []⟩ calls := by
  constructor
  · rintro ⟨sound, _⟩
    exact along_mono (fun ledger call => (call_sound_iff ledger call).mp) sound
  · intro met
    have start : Books ⟨pmm, []⟩ := ⟨by simp, List.Pairwise.nil⟩
    refine ⟨along_mono (fun ledger call => (call_sound_iff ledger call).mpr) met, ?_⟩
    exact throughout_mono (fun _ books => books.apart)
      (throughout_of_along step_keeps_books start met)

/-- Four pages, all free. -/
def fourPages : State := ⟨fun _ => 0, 4 * pageSize, by decide⟩

/-- Take pages 0 and 1 one by one, give page 0 back, and ask for two pages:
page 0 is the lowest free page, so the new run covers page 1 a second time. -/
theorem pmalloc_covers_a_held_page : ¬ ∀ pmm calls, HistorySound ⟨pmm, []⟩ calls := by
  intro always
  have sound := (always fourPages [.pmalloc 1, .pmalloc 1, .release 1, .pmalloc 2]).1
  have second := sound.2 _ rfl
  have released := second.2 _ rfl
  have last := released.2 _ rfl
  have clear := (last.1 _ _ rfl).1
  exact clear 1 ⟨by decide, by decide⟩ (by decide)

end MandelbrotOS.PmmProofs
