import Mathlib.Data.List.Rotate
import MandelbrotOS.SchedulerProofs

/-! Turns on one CPU. Only the current thread is locked and the record names it, so
every search stops at its first probe, one place behind the index recorded for the
level. The threads of a level therefore run in the order of its queue, however the
calls are spread over the levels. -/
namespace MandelbrotOS.RoundRobin
open Scheduler SchedulerRotation SchedulerProofs

/-- What `smp_init_cpu` leaves in a CPU's locals. -/
def smpInitCpu (locals : Locals) : Locals where
  currentThread := none
  lastRunThreadIndex level := if level < priorityLevels then 0 else locals.lastRunThreadIndex level
  currentPriorityPeg := 0
  currentPriority := 0

/-- Run queues of distinct threads whose locks are free, with one in all at least, and
a CPU that has just come up. -/
structure Fresh (s : State Unit) : Prop where
  cpu : ∃ locals, s.cpus () = smpInitCpu locals
  onePlace : OnePlace s
  levelled : Levelled s
  unlocked : ∀ t, Queued s t → (s.thread t).lock = false
  threaded : ∃ level, s.threads level ≠ []

/-- The level and index of the thread that the next call selects; `none` if the call
takes the exit without a thread or does not return. -/
def selects (s : State Unit) : Option (Nat × Nat) :=
  (chooseLevel s.threads levelTurns (s.cpus ())).bind fun chosen =>
    match schedGetNextThread s (s.cpus ()).currentThread
      (chosen.lastRunThreadIndex chosen.currentPriority) chosen.currentPriority with
    | .found index => some (chosen.currentPriority, index)
    | _ => none

/-- Calls one after another, with what each selects; `none` once a call selects no
thread. -/
def run (s : State Unit) : Nat → Option (List (Nat × Nat) × State Unit)
  | 0 => some ([], s)
  | calls + 1 => (run s calls).bind fun (picks, state) =>
    (selects state).bind fun pick => (schedule state ()).map fun next => (picks ++ [pick], next)

/-- The indices selected at one level, in order. -/
def indicesAt (level : Nat) (picks : List (Nat × Nat)) : List Nat :=
  (picks.filter fun pick => pick.1 = level).map Prod.snd

theorem selects_of_arrives {s : State Unit} (arrives : Arrives s () level index) :
    selects s = some (level, index) := by
  obtain ⟨chosen, picked, rfl, found⟩ := arrives
  rw [selects, picked, Option.bind_some, found]

/-! ### One call -/

/-- Before every call: only the current thread is locked, the record names it, and
the index recorded for a level is one of its queue. -/
structure Turning (s : State Unit) : Prop where
  inside : InRotation (s.cpus ())
  onePlace : OnePlace s
  locked : ∀ t, Queued s t → (s.thread t).lock = true → Running s () t
  names : RecordNamesOwn s ()
  bounded : ∀ level, s.threads level ≠ [] → (s.cpus ()).lastRunThreadIndex level < (s.threads level).length

theorem nextThread_first {queue : List ThreadPtr} {thread : ThreadPtr → Thread} (bounded : origI < queue.length)
    (free : ∀ t ∈ queue, current = some t ∨ (thread t).lock = false) :
    nextThread queue thread current origI (queue.length + 1) (origI + 1) = .found ((origI + 1) % queue.length) := by
  have first : (if origI + 1 ≥ queue.length then 0 else origI + 1) = (origI + 1) % queue.length := by
    split
    all_goals grind [Nat.mod_self, Nat.mod_eq_of_lt]
  have inside : (origI + 1) % queue.length < queue.length := Nat.mod_lt _ (by omega)
  simp_all [nextThread]

theorem level_small {s : State Unit} (levelled : Levelled s) (threaded : s.threads level ≠ []) :
    level < priorityLevels := by
  by_contra above
  exact threaded (levelled level (Nat.not_lt.mp above))

theorem turning_arrives {s : State Unit} (turning : Turning s) (threaded : ∃ level, s.threads level ≠ [])
    (levelled : Levelled s) : ∃ level, s.threads level ≠ [] ∧
      Arrives s () level (((s.cpus ()).lastRunThreadIndex level + 1) % (s.threads level).length) := by
  obtain ⟨target, threaded⟩ := threaded
  obtain ⟨chosen, picked⟩ := chooseLevel_returns turning.inside (level_small levelled threaded) threaded
  have some : s.threads chosen.currentPriority ≠ [] := chooseLevel_threaded picked
  refine ⟨chosen.currentPriority, some, chosen, picked, rfl, ?_⟩
  rw [(chooseLevel_keeps picked).2]
  refine nextThread_first (turning.bounded _ some) fun t member => ?_
  by_cases free : (s.thread t).lock = false
  · exact .inr free
  · exact .inl (turning.locked t ⟨_, member⟩ (by simpa using free))

theorem schedule_moves {s next : State Unit} (turning : Turning s) (arrives : Arrives s () level index)
    (ran : schedule s () = some next) :
    (next.cpus ()).currentThread = (s.threads level)[index]? ∧
      (next.cpus ()).lastRunThreadIndex = Function.update (s.cpus ()).lastRunThreadIndex level index ∧
      ∀ t, Queued s t → (next.thread t).lock = true → Running next () t := by
  have tells := recordTells_of_namesOwn turning.onePlace turning.names
  obtain ⟨chosen, picked, outcome⟩ := schedule_cases ran
  obtain ⟨same, indices⟩ := chooseLevel_keeps picked
  rcases outcome with ⟨_, nowhere⟩ | ⟨index', t, arrives', place, takeable, outcome⟩
  · exact absurd arrives (nowhere level index)
  obtain ⟨rfl, rfl⟩ := arrives_unique arrives arrives'
  rcases outcome with ⟨busy, recorded, rfl⟩ | ⟨unrecorded, rfl⟩
  · -- The place is the recorded one, where the current thread stands.
    obtain ⟨own, runs⟩ := Option.isSome_iff_exists.mp busy
    have here := (tells own runs _ index arrives).mp recorded
    have itself : t = own := by
      simp_all
    rw [acquire, itself, if_pos runs, setLocals_cpus, Function.update_self, same, runs, here, indices, recorded.2,
      Function.update_eq_self]
    refine ⟨rfl, rfl, fun x queued locked => ?_⟩
    rw [Running, setLocals_cpus, Function.update_self, same]
    exact turning.locked x queued locked
  · have other : (s.cpus ()).currentThread ≠ some t := fun runs =>
      unrecorded ⟨by rw [runs]; rfl, (tells t runs _ index arrives).mpr place⟩
    rw [acquire, if_neg other]
    refine ⟨?_, ?_, fun x queued locked => switchTo_running.mpr (.inl ⟨rfl, ?_⟩)⟩
    · rw [switchTo_cpus, Function.update_self, place]
    · rw [switchTo_cpus, Function.update_self, indices]
    · rcases (handover_lock same other x).mp locked with here | ⟨before, gone⟩
      · exact here
      · exact absurd (turning.locked x queued before) gone

theorem schedule_selects {s : State Unit} (turning : Turning s) (arrives : Arrives s () level index)
    (inside : index < (s.threads level).length) :
    ∃ next, schedule s () = some next ∧ next.threads = s.threads ∧ Turning next ∧
      (next.cpus ()).currentThread = (s.threads level)[index]? ∧
      (next.cpus ()).lastRunThreadIndex = Function.update (s.cpus ()).lastRunThreadIndex level index := by
  obtain ⟨next, ran⟩ := schedule_returns arrives
  obtain ⟨queues, _, chosen, picked, priority, peg⟩ := schedule_frame ran
  obtain ⟨current, indices, locked⟩ := schedule_moves turning arrives ran
  refine ⟨next, ran, queues, ?_, current, indices⟩
  constructor
  case inside =>
    rw [InRotation, priority, peg]
    exact chooseLevel_inRotation turning.inside picked
  case onePlace => simpa only [OnePlace, queues] using turning.onePlace
  case locked => simpa only [Queued, queues] using locked
  case names => exact schedule_namesOwn (fun _ => turning.names) arrives ran ()
  case bounded =>
    intro other some
    rw [queues] at some ⊢
    rw [indices]
    by_cases same : other = level
    · simp_all
    · rw [Function.update_of_ne same]
      exact turning.bounded other some

/-! ### Whole runs -/

/-- After some calls: each level's record counts its calls around its queue, and so
did the calls. -/
structure Turned (s : State Unit) (picks : List (Nat × Nat)) (state : State Unit) : Prop where
  queues : state.threads = s.threads
  turning : Turning state
  recorded : ∀ level, s.threads level ≠ [] →
    (state.cpus ()).lastRunThreadIndex level = (indicesAt level picks).length % (s.threads level).length
  indices : ∀ level, indicesAt level picks =
    (List.range (indicesAt level picks).length).map fun m => (m + 1) % (s.threads level).length
  current : (state.cpus ()).currentThread = picks.getLast?.bind fun pick => (s.threads pick.1)[pick.2]?

theorem fresh_turned {s : State Unit} (fresh : Fresh s) : Turned s [] s := by
  obtain ⟨locals, cpu⟩ := fresh.cpu
  have idle (t : ThreadPtr) : ¬ Running s () t := by simp [Running, cpu, smpInitCpu]
  have zero (level : Nat) (some : s.threads level ≠ []) : (s.cpus ()).lastRunThreadIndex level = 0 := by
    simp [cpu, smpInitCpu, level_small fresh.levelled some]
  refine ⟨rfl, ?_, fun level some => by simp [indicesAt, zero level some], fun level => rfl, by simp [cpu, smpInitCpu]⟩
  constructor
  case inside => simp [cpu, smpInitCpu, InRotation, priorityLevels]
  case onePlace => exact fresh.onePlace
  case locked => exact fun t queued locked => by simp [fresh.unlocked t queued] at locked
  case names => exact fun own runs => absurd runs (idle own)
  simp_all [List.length_pos_of_ne_nil]

theorem indicesAt_append (level : Nat) (picks : List (Nat × Nat)) (pick : Nat × Nat) :
    indicesAt level (picks ++ [pick]) =
      if pick.1 = level then indicesAt level picks ++ [pick.2] else indicesAt level picks := by
  grind [indicesAt]

theorem turned_step {s state : State Unit} (fresh : Fresh s) (turned : Turned s picks state) :
    ∃ pick next, selects state = some pick ∧ schedule state () = some next ∧ Turned s (picks ++ [pick]) next := by
  obtain ⟨queues, turning, recorded, indices, _⟩ := turned
  obtain ⟨level, some, arrives⟩ := turning_arrives turning (queues ▸ fresh.threaded)
    (by simpa only [Levelled, queues] using fresh.levelled)
  have positive := List.length_pos_of_ne_nil some
  obtain ⟨next, ran, queues', turning', current', indices'⟩ :=
    schedule_selects turning arrives (Nat.mod_lt _ positive)
  refine ⟨_, next, selects_of_arrives arrives, ran, queues'.trans queues, turning', ?_, ?_, ?_⟩
  · intro other threaded
    rw [indices', indicesAt_append]
    by_cases same : level = other
    · subst same
      rw [Function.update_self, if_pos rfl, recorded level threaded, queues, List.length_append, List.length_singleton,
        Nat.mod_add_mod]
    · grind
  · intro other
    rw [indicesAt_append]
    by_cases same : level = other
    · subst same
      rw [if_pos rfl, List.length_append, List.length_singleton, List.range_succ, List.map_append, ← indices level,
        queues, recorded level (queues ▸ some), Nat.mod_add_mod]
      rfl
    · rw [if_neg same]
      exact indices other
  · grind

theorem run_turned {s : State Unit} (fresh : Fresh s) (calls : Nat) :
    ∃ picks final, run s calls = some (picks, final) ∧ picks.length = calls ∧ Turned s picks final := by
  induction calls with
  | zero => exact ⟨[], s, rfl, rfl, fresh_turned fresh⟩
  | succ calls ih =>
    grind [turned_step, run]

theorem window_rotates {queue : List ThreadPtr} {indices : List Nat}
    (turns : indices = (List.range indices.length).map fun m => (m + 1) % queue.length)
    (window : start + queue.length ≤ indices.length) :
    ((indices.drop start).take queue.length).filterMap (fun index => queue[index]?) = queue.rotate (start + 1) := by
  have both : ((indices.drop start).take queue.length).map (fun index => queue[index]?) =
      (queue.rotate (start + 1)).map some := by
    apply List.ext_getElem?
    intro j
    by_cases inside : j < queue.length
    · grind [Nat.mod_lt, List.getElem?_rotate]
    · rw [List.getElem?_eq_none (by simp; omega), List.getElem?_eq_none (by simp; omega)]
  have dropped := congrArg (List.filterMap id) both
  rwa [List.filterMap_map, List.filterMap_map, Function.id_comp, Function.id_comp, List.filterMap_some] at dropped

/-- **Round robin**: every call selects a thread, which is then the current one. The
selections at a level go around its queue from its second place on, so as many of
them in a row as the queue has threads run each of its threads once. -/
theorem round_robin {s : State Unit} (fresh : Fresh s) (calls : Nat) :
    ∃ picks final, run s calls = some (picks, final) ∧ picks.length = calls ∧
      (final.cpus ()).currentThread = picks.getLast?.bind (fun pick => (s.threads pick.1)[pick.2]?) ∧
      ∀ level,
        (∀ m, 1 ≤ m → m ≤ (indicesAt level picks).length →
          (indicesAt level picks)[m - 1]? = some (m % (s.threads level).length)) ∧
        ∀ start, start + (s.threads level).length ≤ (indicesAt level picks).length →
          ((((indicesAt level picks).drop start).take (s.threads level).length).filterMap
            fun index => (s.threads level)[index]?).Perm (s.threads level) := by
  obtain ⟨picks, final, ran, length, turned⟩ := run_turned fresh calls
  refine ⟨picks, final, ran, length, turned.current, fun level => ⟨fun m first last => ?_, fun start window => ?_⟩⟩
  · rw [turned.indices level, List.getElem?_map, List.getElem?_range (by omega), Option.map_some,
      Nat.sub_add_cancel first]
  · rw [window_rotates (turned.indices level) window]
    exact List.rotate_perm _ _

/-- Three threads on level 0 and one on level 2. -/
def fourThreads : State Unit where
  threads := fun level => if level = 0 then [1, 2, 3] else if level = 2 then [4] else []
  thread := fun _ => {}
  proc := fun _ => {}
  cpus := fun _ => smpInitCpu {}

theorem fourThreads_place {level index t : Nat} : (fourThreads.threads level)[index]? = some t ↔
    (level = 0 ∧ index < 3 ∧ t = index + 1) ∨ (level = 2 ∧ index = 0 ∧ t = 4) := by
  by_cases low : level = 0
  · match index with
    | 0 | 1 | 2 => simp [fourThreads, low, eq_comm]
    | n + 3 => simp [fourThreads, low, show ¬ n + 3 < 3 by omega]
  · by_cases high : level = 2
    · simp [fourThreads, high, List.getElem?_singleton, eq_comm]
    · simp [fourThreads, low, high]

theorem fourThreads_fresh : Fresh fourThreads where
  cpu := ⟨{}, rfl⟩
  onePlace level other index place t here there := by
    grind [fourThreads_place]
  levelled level above := by
    grind [priorityLevels, fourThreads]
  unlocked _ _ := rfl
  threaded := ⟨0, by decide⟩

theorem fourThreads_turns :
    ∃ picks final, run fourThreads 8 = some (picks, final) ∧ picks.length = 8 ∧
      ∀ m, 1 ≤ m → m ≤ (indicesAt 0 picks).length → (indicesAt 0 picks)[m - 1]? = some (m % 3) := by
  obtain ⟨picks, final, ran, length, _, turns⟩ := round_robin fourThreads_fresh 8
  exact ⟨picks, final, ran, length, (turns 0).1⟩

example : (run fourThreads 6).map Prod.fst = some [(0, 1), (0, 2), (2, 0), (0, 0), (2, 0), (0, 1)] := by decide

end MandelbrotOS.RoundRobin
