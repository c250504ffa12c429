import Mathlib.Algebra.Group.Nat.Defs
import Mathlib.Logic.Function.Basic
import MandelbrotOS.Runs

/-! Events, `event.c`, under any interleaving of calls. `event_await` takes the locks of
all its events and looks for one that is pending; if it finds one it returns with the
locks still taken. Otherwise it gives them back and, if it may block, looks again
without them. A count is loaded and stored in two steps, so calls without the lock can
fall in between. A lock bit is modelled with the call that set it. -/
namespace MandelbrotOS.Events
open Runs

/-! ### The code -/

/-- Where a caller stands in `event_await` or `event_trigger`. A loop's place carries
its index; a place behind a test carries the event that was found pending, and one
behind a load the value. `counts` is what the events held when the scan ended. -/
inductive Place (Event : Type) where
  | outside
  | locking (events : List Event) (block : Bool) (i : Nat)
  | scanning (events : List Event) (block : Bool) (i : Nat)
  | scanFound (events : List Event) (i : Nat) (event : Event)
  | scanLoaded (events : List Event) (i : Nat) (event : Event) (pending : BitVec 64)
  | unlocking (events : List Event) (block : Bool) (counts : List (BitVec 64)) (i : Nat)
  | polling (events : List Event) (i : Nat)
  | pollFound (events : List Event) (i : Nat) (event : Event)
  | pollLoaded (events : List Event) (i : Nat) (event : Event) (pending : BitVec 64)
  | triggerLocking (event : Event)
  | triggerLocked (event : Event)
  | triggerLoaded (event : Event) (pending : BitVec 64)
  | triggerUnlocking (event : Event)

/-- What a call has done: `event_await` returned an index, with the event it stored to,
the count before and after, and the locks it still holds; it returned -1; or
`event_trigger` stored. -/
inductive Entry (Event : Type) where
  | took (events : List Event) (result : Int) (event : Event) (before after : BitVec 64) (held : List Event)
  | gaveUp (counts : List (BitVec 64)) (held : List Event)
  | added (event : Event) (before after : BitVec 64)
  deriving DecidableEq

structure Machine (Caller Event : Type) where
  pending : Event → BitVec 64
  holder : Event → Option Caller
  place : Caller → Place Event
  log : List (Entry Event)

inductive Action (Caller Event : Type) where
  | callAwait (caller : Caller) (events : List Event) (block : Bool)
  | callTrigger (caller : Caller) (event : Event)
  | advance (caller : Caller)

variable {Caller Event : Type}

def Machine.record (m : Machine Caller Event) (entry : Entry Event) : Machine Caller Event :=
  { m with log := m.log ++ [entry] }

section Code
variable [DecidableEq Caller] [DecidableEq Event]

def Machine.moveTo (m : Machine Caller Event) (caller : Caller) (place : Place Event) : Machine Caller Event :=
  { m with place := Function.update m.place caller place }

/-- `LOCK`; a caller that finds the bit set stays where it is. -/
def Machine.lock (m : Machine Caller Event) (caller : Caller) (event : Event) (place : Place Event) : Machine Caller Event :=
  if m.holder event = none then
    { m with
      holder := Function.update m.holder event (some caller)
      place := Function.update m.place caller place }
  else m

def Machine.unlock (m : Machine Caller Event) (caller : Caller) (event : Event) (place : Place Event) :
    Machine Caller Event :=
  { m with
    holder := Function.update m.holder event none
    place := Function.update m.place caller place }

def Machine.store (m : Machine Caller Event) (event : Event) (count : BitVec 64) : Machine Caller Event :=
  { m with pending := Function.update m.pending event count }

/-- The locks of these events that a caller holds. -/
def Machine.heldOf (m : Machine Caller Event) (caller : Caller) (events : List Event) : List Event :=
  events.filter fun event => m.holder event = some caller

/-- The end of `events[i]->pending--; return i;`, the same in both loops. The index is
returned as an `int`. -/
def Machine.take (m : Machine Caller Event) (caller : Caller) (events : List Event) (i : Nat) (event : Event)
    (loaded : BitVec 64) : Machine Caller Event :=
  ((m.store event (loaded - 1)).moveTo caller .outside).record
    (.took events (BitVec.ofNat 32 i).toInt event (m.pending event) (loaded - 1) (m.heldOf caller events))

/-- The next access of a caller to memory, or the end of a loop. -/
def Machine.advance (m : Machine Caller Event) (caller : Caller) : Option (Machine Caller Event) :=
  match m.place caller with
  | .outside => none
  | .locking events block i =>
    match events[i]? with
    | none => some (m.moveTo caller (.scanning events block 0))
    | some event => some (m.lock caller event (.locking events block (i + 1)))
  | .scanning events block i =>
    match events[i]? with
    | none => some (m.moveTo caller (.unlocking events block (events.map m.pending) 0))
    | some event =>
      if m.pending event ≠ 0 then some (m.moveTo caller (.scanFound events i event))
      else some (m.moveTo caller (.scanning events block (i + 1)))
  | .scanFound events i event => some (m.moveTo caller (.scanLoaded events i event (m.pending event)))
  | .scanLoaded events i event loaded => some (m.take caller events i event loaded)
  | .unlocking events block counts i =>
    match events[i]? with
    | none =>
      if block then some (m.moveTo caller (.polling events 0))
      else some ((m.moveTo caller .outside).record (.gaveUp counts (m.heldOf caller events)))
    | some event => some (m.unlock caller event (.unlocking events block counts (i + 1)))
  | .polling events i =>
    match events[i]? with
    | none => some (m.moveTo caller (.polling events 0))
    | some event =>
      if m.pending event ≠ 0 then some (m.moveTo caller (.pollFound events i event))
      else some (m.moveTo caller (.polling events (i + 1)))
  | .pollFound events i event => some (m.moveTo caller (.pollLoaded events i event (m.pending event)))
  | .pollLoaded events i event loaded => some (m.take caller events i event loaded)
  | .triggerLocking event => some (m.lock caller event (.triggerLocked event))
  | .triggerLocked event => some (m.moveTo caller (.triggerLoaded event (m.pending event)))
  | .triggerLoaded event loaded =>
    some (((m.store event (loaded + 1)).moveTo caller (.triggerUnlocking event)).record
      (.added event (m.pending event) (loaded + 1)))
  | .triggerUnlocking event => some (m.unlock caller event .outside)

/-- A caller that is outside may call; `event_await` is called with distinct events. -/
def step (m : Machine Caller Event) : Action Caller Event → Option (Machine Caller Event)
  | .callAwait caller events block =>
    match m.place caller with
    | .outside => if events.Nodup then some (m.moveTo caller (.locking events block 0)) else none
    | _ => none
  | .callTrigger caller event =>
    match m.place caller with
    | .outside => some (m.moveTo caller (.triggerLocking event))
    | _ => none
  | .advance caller => m.advance caller

end Code

/-! ### What is asked of a run -/

/-- An index is returned for the one event whose count went down by one, -1 only if all
counts were 0 when the scan ended, and no lock is kept; a trigger adds one. -/
def Entry.Exact : Entry Event → Prop
  | .took events result event before after held =>
    (∃ i : Nat, result = i ∧ events[i]? = some event) ∧ before ≠ 0 ∧ after = before - 1 ∧ held = []
  | .gaveUp counts held => (∀ count ∈ counts, count = 0) ∧ held = []
  | .added _ before after => after = before + 1

/-- The places inside a call up to its last `UNLOCK`. -/
def Place.Locks : Place Event → Prop
  | .locking .. | .scanning .. | .scanFound .. | .scanLoaded .. | .unlocking .. => True
  | .triggerLocking _ | .triggerLocked _ | .triggerLoaded .. | .triggerUnlocking _ => True
  | .outside | .polling .. | .pollFound .. | .pollLoaded .. => False

/-- Every call so far was exact, and a lock that is taken belongs to a call that has
not come to its last `UNLOCK`. -/
structure Exact (m : Machine Caller Event) : Prop where
  entries : ∀ entry ∈ m.log, entry.Exact
  locks : ∀ event caller, m.holder event = some caller → (m.place caller).Locks

/-- The steps that go wrong: the return from the scan under the locks, and a store over
a count that is no longer the one that was loaded. A count loaded as 0 had been
consumed by another call since it was tested. -/
def Place.Careful (pending : Event → BitVec 64) : Place Event → Prop
  | .scanLoaded .. => False
  | .pollLoaded _ i event loaded => i < 2 ^ 31 ∧ loaded ≠ 0 ∧ pending event = loaded
  | .triggerLoaded event loaded => pending event = loaded
  | _ => True

def Careful (m : Machine Caller Event) : Action Caller Event → Prop
  | .advance caller => (m.place caller).Careful m.pending
  | _ => True

instance (pending : Event → BitVec 64) : (place : Place Event) → Decidable (place.Careful pending)
  | .scanLoaded .. => inferInstanceAs (Decidable False)
  | .pollLoaded .. => inferInstanceAs (Decidable (_ ∧ _ ∧ _))
  | .triggerLoaded event loaded => inferInstanceAs (Decidable (pending event = loaded))
  | .outside | .locking .. | .scanning .. | .scanFound .. | .unlocking .. | .polling .. | .pollFound ..
  | .triggerLocking _ | .triggerLocked _ | .triggerUnlocking _ => inferInstanceAs (Decidable True)

instance (m : Machine Caller Event) : (action : Action Caller Event) → Decidable (Careful m action)
  | .callAwait .. => inferInstanceAs (Decidable True)
  | .callTrigger .. => inferInstanceAs (Decidable True)
  | .advance caller => inferInstanceAs (Decidable ((m.place caller).Careful m.pending))

structure Start (m : Machine Caller Event) : Prop where
  outside : ∀ caller, m.place caller = .outside
  unlocked : ∀ event, m.holder event = none
  nothing : m.log = []

/-! ### The counts -/

/-- The count of an event that an entry is about, before and after. -/
def Entry.Stores (event : Event) (before after : BitVec 64) : Entry Event → Prop
  | .took _ _ own old new _ => own = event ∧ old = before ∧ new = after
  | .added own old new => own = event ∧ old = before ∧ new = after
  | .gaveUp .. => False

/-- A step changes no count but the one of its entry. -/
theorem step_counts [DecidableEq Caller] [DecidableEq Event] {m next : Machine Caller Event}
    (ran : step m action = some next) (event : Event) : next.pending event = m.pending event ∨
      ∃ entry, next.log = m.log ++ [entry] ∧ entry.Stores event (m.pending event) (next.pending event) := by
  have stored (caller : Caller) (own : Event) (count : BitVec 64) (place : Place Event) (entry : Entry Event)
      (made : ((m.store own count).moveTo caller place).record entry = next)
      (about : entry.Stores own (m.pending own) count) : next.pending event = m.pending event ∨
        ∃ entry, next.log = m.log ++ [entry] ∧ entry.Stores event (m.pending event) (next.pending event) := by
    subst made
    by_cases same : event = own
    · subst same
      refine Or.inr ⟨entry, rfl, ?_⟩
      have new : (((m.store event count).moveTo caller place).record entry).pending event = count :=
        Function.update_self ..
      rwa [new]
    · exact Or.inl (Function.update_of_ne same ..)
  have locked (caller : Caller) (own : Event) (place : Place Event) :
      (m.lock caller own place).pending = m.pending := by
    rw [Machine.lock]
    split <;> rfl
  cases action with
  | callAwait caller events block => grind [step, Machine.moveTo]
  | callTrigger caller own => grind [step, Machine.moveTo]
  | advance caller =>
    simp only [step, Machine.advance] at ran
    split at ran
    case h_5 | h_9 | h_12 => exact stored _ _ _ _ _ (Option.some.inj ran) ⟨rfl, rfl, rfl⟩
    all_goals grind [Machine.moveTo, Machine.unlock, Machine.record]

/-! ### The invariant -/

/-- The locks a caller holds at a place. -/
def Place.Holds : Place Event → Event → Prop
  | .locking events _ i, event => event ∈ events.take i
  | .scanning events _ _, event => event ∈ events
  | .scanFound events _ _, event => event ∈ events
  | .scanLoaded events _ _ _, event => event ∈ events
  | .unlocking events _ _ i, event => event ∈ events.drop i
  | .triggerLocked own, event => event = own
  | .triggerLoaded own _, event => event = own
  | .triggerUnlocking own, event => event = own
  | .outside, _ | .polling .., _ | .pollFound .., _ | .pollLoaded .., _ | .triggerLocking _, _ => False

/-- The events a scan has seen without a count. -/
def Place.Seen : Place Event → Event → Prop
  | .scanning events _ i, event => event ∈ events.take i
  | _, _ => False

/-- What a place carries: distinct events, the one found at its index, and counts of 0
after a scan that found none. -/
def Place.Sound : Place Event → Prop
  | .locking events _ _ => events.Nodup
  | .scanning events _ _ => events.Nodup
  | .scanFound events i event => events.Nodup ∧ events[i]? = some event
  | .scanLoaded events i event _ => events.Nodup ∧ events[i]? = some event
  | .unlocking events _ counts _ => events.Nodup ∧ ∀ count ∈ counts, count = 0
  | .polling events _ => events.Nodup
  | .pollFound events i event => events.Nodup ∧ events[i]? = some event
  | .pollLoaded events i event _ => events.Nodup ∧ events[i]? = some event
  | .outside | .triggerLocking _ | .triggerLocked _ | .triggerLoaded .. | .triggerUnlocking _ => True

structure Inv (m : Machine Caller Event) : Prop where
  holds : ∀ event caller, m.holder event = some caller ↔ (m.place caller).Holds event
  seen : ∀ caller event, (m.place caller).Seen event → m.pending event = 0
  sound : ∀ caller, (m.place caller).Sound
  entries : ∀ entry ∈ m.log, entry.Exact

theorem start_inv {m : Machine Caller Event} (start : Start m) : Inv m where
  holds event caller := by simp [start.unlocked event, start.outside caller, Place.Holds]
  seen caller event seen := by simp [start.outside caller, Place.Seen] at seen
  sound caller := by simp [start.outside caller, Place.Sound]
  entries := by simp [start.nothing]

theorem locks_of_holds {place : Place Event} (holds : place.Holds event) : place.Locks := by
  cases place <;> trivial

theorem inv_exact {m : Machine Caller Event} (inv : Inv m) : Exact m where
  entries := inv.entries
  locks event caller held := locks_of_holds ((inv.holds event caller).mp held)

theorem inv_record {m : Machine Caller Event} (inv : Inv m) (exact : entry.Exact) : Inv (m.record entry) where
  holds := inv.holds
  seen := inv.seen
  sound := inv.sound
  entries other member := by
    rcases List.mem_append.mp member with earlier | last
    · exact inv.entries other earlier
    · exact List.mem_singleton.mp last ▸ exact

theorem mem_take_succ {events : List Event} (found : events[i]? = some own) :
    event ∈ events.take (i + 1) ↔ event = own ∨ event ∈ events.take i := by
  simp_all [List.take_add_one, or_comm]

theorem mem_drop_succ {events : List Event} (distinct : events.Nodup) (found : events[i]? = some own) :
    event ∈ events.drop (i + 1) ↔ event ≠ own ∧ event ∈ events.drop i := by
  grind [List.drop_eq_getElem_cons, List.nodup_cons]

theorem holds_of_seen {place : Place Event} (seen : place.Seen event) : place.Holds event := by
  cases place with
  | scanning events block i => exact List.mem_of_mem_take seen
  | _ => cases seen

theorem unseen_of_positive {m : Machine Caller Event} (inv : Inv m) (positive : m.pending event ≠ 0)
    (caller : Caller) : ¬(m.place caller).Seen event :=
  fun seen => positive (inv.seen caller event seen)

theorem unseen_of_held {m : Machine Caller Event} (inv : Inv m) (holds : (m.place own).Holds event)
    (scans : ¬(m.place own).Seen event) (caller : Caller) : ¬(m.place caller).Seen event := by
  intro seen
  have other := (inv.holds event caller).mpr (holds_of_seen seen)
  rw [(inv.holds event own).mpr holds] at other
  cases other
  exact scans seen

section Moves
variable [DecidableEq Caller] {m : Machine Caller Event}

theorem seen_moved (inv : Inv m) (seen : ∀ event, place.Seen event → m.pending event = 0) :
    ∀ other event, (Function.update m.place caller place other).Seen event → m.pending event = 0 :=
  (Function.forall_update_iff m.place fun _ place => ∀ event, place.Seen event → m.pending event = 0).mpr
    ⟨seen, fun other _ => inv.seen other⟩

theorem sound_moved (inv : Inv m) (sound : place.Sound) :
    ∀ other, (Function.update m.place caller place other).Sound :=
  (Function.forall_update_iff m.place fun _ place => place.Sound).mpr ⟨sound, fun other _ => inv.sound other⟩

theorem inv_moveTo (inv : Inv m) (holds : ∀ event, place.Holds event ↔ (m.place caller).Holds event)
    (seen : ∀ event, place.Seen event → m.pending event = 0) (sound : place.Sound) : Inv (m.moveTo caller place) where
  holds event other := by
    by_cases same : other = caller
    · subst same
      simpa [Machine.moveTo, holds] using inv.holds event other
    · simpa [Machine.moveTo, Function.update_of_ne same] using inv.holds event other
  seen := seen_moved inv seen
  sound := sound_moved inv sound
  entries := inv.entries

theorem inv_moveTo_same (inv : Inv m) (here : m.place caller = old) (holds : place.Holds = old.Holds)
    (unseen : ∀ event, ¬ place.Seen event) (sound : place.Sound) : Inv (m.moveTo caller place) := by
  simp_all [inv_moveTo]

theorem inv_moveTo_free (inv : Inv m) (before : ∀ event, ¬(m.place caller).Holds event)
    (after : ∀ event, ¬ place.Holds event) (sound : place.Sound) : Inv (m.moveTo caller place) :=
  inv_moveTo inv (fun event => iff_of_false (after event) (before event))
    (fun event seen => absurd (holds_of_seen seen) (after event)) sound

variable [DecidableEq Event]

theorem holds_moved (inv : Inv m) (old : ∀ other, m.holder own = some other → other = caller)
    (new : ∀ other, holder = some other → other = caller)
    (holds : ∀ event, place.Holds event ↔ if event = own then holder = some caller else (m.place caller).Holds event)
    (event : Event) (other : Caller) :
    Function.update m.holder own holder event = some other ↔
      (Function.update m.place caller place other).Holds event := by
  have before := inv.holds event other
  grind

theorem inv_lock (inv : Inv m) (holds : ∀ event, place.Holds event ↔ event = own ∨ (m.place caller).Holds event)
    (seen : ∀ event, ¬ place.Seen event) (sound : place.Sound) : Inv (m.lock caller own place) := by
  rw [Machine.lock]
  split
  next free =>
    refine ⟨holds_moved inv (fun other held => ?_) (fun other => ?_) fun event => ?_,
      seen_moved inv fun event earlier => absurd earlier (seen event), sound_moved inv sound, inv.entries⟩
    · rw [free] at held
      cases held
    · exact fun held => (Option.some.inj held).symm
    · grind
  next => exact inv

theorem inv_unlock (inv : Inv m) (own : (m.place caller).Holds mine)
    (holds : ∀ event, place.Holds event ↔ event ≠ mine ∧ (m.place caller).Holds event)
    (seen : ∀ event, ¬ place.Seen event) (sound : place.Sound) : Inv (m.unlock caller mine place) where
  holds := by
    refine holds_moved inv (fun other held => ?_) (fun other => ?_) fun event => ?_
    · rw [(inv.holds mine caller).mpr own] at held
      exact (Option.some.inj held).symm
    · exact fun held => nomatch held
    · simp_all
  seen := seen_moved inv fun event earlier => absurd earlier (seen event)
  sound := sound_moved inv sound
  entries := inv.entries

omit [DecidableEq Caller] in
theorem inv_store (inv : Inv m) (count : BitVec 64) (unseen : ∀ caller, ¬(m.place caller).Seen event) :
    Inv (m.store event count) where
  holds := inv.holds
  seen caller other seen := by
    have different : other ≠ event := fun same => unseen caller (same ▸ seen)
    simpa [Machine.store, Function.update_of_ne different] using inv.seen caller other seen
  sound := inv.sound
  entries := inv.entries

end Moves

/-! ### One step -/

section Steps
variable [DecidableEq Caller] {m next : Machine Caller Event}

theorem heldOf_eq_nil (inv : Inv m) (none : ∀ event, ¬(m.place caller).Holds event) (events : List Event) :
    m.heldOf caller events = [] := by
  rw [Machine.heldOf, List.filter_eq_nil_iff]
  intro event _ held
  exact none event ((inv.holds event caller).mp (of_decide_eq_true held))

variable [DecidableEq Event]

theorem locking_keeps (inv : Inv m) (here : m.place caller = .locking events block i)
    (ran : m.advance caller = some next) : Inv next := by
  have sound := inv.sound caller
  rw [here] at sound
  simp only [Machine.advance, here] at ran
  cases found : events[i]? with
  | none =>
    simp only [found, Option.some.injEq] at ran
    subst ran
    refine inv_moveTo inv (fun event => ?_) (fun event seen => ?_) sound
    · simp_all [Place.Holds, List.take_of_length_le]
    · simp [Place.Seen] at seen
  | some own =>
    simp only [found, Option.some.injEq] at ran
    subst ran
    refine inv_lock inv (fun event => ?_) (fun event seen => seen) sound
    grind [Place.Holds, mem_take_succ]

theorem scanning_keeps (inv : Inv m) (here : m.place caller = .scanning events block i)
    (ran : m.advance caller = some next) : Inv next := by
  have sound := inv.sound caller
  have seen := inv.seen caller
  rw [here] at sound seen
  simp only [Machine.advance, here] at ran
  cases found : events[i]? with
  | none =>
    simp only [found, Option.some.injEq] at ran
    subst ran
    refine inv_moveTo inv (fun event => ?_) (fun event seen => seen.elim) ⟨sound, fun count member => ?_⟩
    · rw [here, Place.Holds, Place.Holds, List.drop_zero]
    · grind [Place.Seen, List.take_of_length_le]
  | some own =>
    simp only [found] at ran
    split at ran
    next pending =>
      cases ran
      exact inv_moveTo_same inv here rfl (fun _ => id) ⟨sound, found⟩
    next zero =>
      cases ran
      refine inv_moveTo inv (fun event => by rw [here]; rfl) (fun event earlier => ?_) sound
      rcases (mem_take_succ found).mp earlier with rfl | earlier
      · exact not_not.mp zero
      · exact seen event earlier

theorem unlocking_keeps (inv : Inv m) (here : m.place caller = .unlocking events block counts i)
    (ran : m.advance caller = some next) : Inv next := by
  have sound := inv.sound caller
  rw [here] at sound
  simp only [Machine.advance, here] at ran
  cases found : events[i]? with
  | none =>
    have none (event : Event) : ¬(m.place caller).Holds event := by
      simp_all [Place.Holds, List.drop_eq_nil_of_le]
    simp only [found] at ran
    split at ran
    next =>
      cases ran
      exact inv_moveTo_free inv none (fun _ => id) sound.1
    next =>
      cases ran
      exact inv_record (inv_moveTo_free inv none (fun _ => id) trivial) ⟨sound.2, heldOf_eq_nil inv none events⟩
  | some own =>
    simp only [found, Option.some.injEq] at ran
    subst ran
    obtain ⟨inside, rfl⟩ := List.getElem?_eq_some_iff.mp found
    refine inv_unlock inv ?_ (fun event => ?_) (fun event seen => seen) sound
    · grind [Place.Holds, List.drop_eq_getElem_cons]
    · rw [here, Place.Holds, Place.Holds, mem_drop_succ sound.1 found]

theorem polling_keeps (inv : Inv m) (here : m.place caller = .polling events i)
    (ran : m.advance caller = some next) : Inv next := by
  have sound := inv.sound caller
  rw [here] at sound
  simp only [Machine.advance, here] at ran
  have none (event : Event) : ¬(m.place caller).Holds event := by
    rw [here]
    exact id
  cases found : events[i]? with
  | none =>
    simp only [found, Option.some.injEq] at ran
    subst ran
    exact inv_moveTo_free inv none (fun _ => id) sound
  | some own =>
    simp only [found] at ran
    split at ran
    next =>
      cases ran
      exact inv_moveTo_free inv none (fun _ => id) ⟨sound, found⟩
    next =>
      cases ran
      exact inv_moveTo_free inv none (fun _ => id) sound

theorem pollLoaded_keeps (inv : Inv m) (here : m.place caller = .pollLoaded events i own loaded)
    (careful : i < 2 ^ 31 ∧ loaded ≠ 0 ∧ m.pending own = loaded) : Inv (m.take caller events i own loaded) := by
  obtain ⟨small, positive, rfl⟩ := careful
  have sound := inv.sound caller
  rw [here] at sound
  have none (event : Event) : ¬(m.place caller).Holds event := by
    rw [here]
    exact id
  have result : (BitVec.ofNat 32 i).toInt = i := by
    grind [BitVec.toInt_eq_toNat_of_lt]
  refine inv_record (inv_moveTo_free (inv_store inv _ (unseen_of_positive inv positive)) none (fun _ => id)
    trivial) ?_
  exact ⟨⟨i, result, sound.2⟩, positive, rfl, heldOf_eq_nil inv none events⟩

/-- A careful step keeps the invariant. -/
theorem advance_keeps (inv : Inv m) (careful : (m.place caller).Careful m.pending)
    (ran : m.advance caller = some next) : Inv next := by
  have sound := inv.sound caller
  cases here : m.place caller with
  | outside =>
    simp_all [Machine.advance]
  | locking events block i => exact locking_keeps inv here ran
  | scanning events block i => exact scanning_keeps inv here ran
  | scanFound events i own =>
    rw [here] at sound
    simp only [Machine.advance, here, Option.some.injEq] at ran
    subst ran
    exact inv_moveTo_same inv here rfl (fun _ => id) sound
  | scanLoaded events i own loaded =>
    rw [here] at careful
    exact careful.elim
  | unlocking events block counts i => exact unlocking_keeps inv here ran
  | polling events i => exact polling_keeps inv here ran
  | pollFound events i own =>
    rw [here] at sound
    simp only [Machine.advance, here, Option.some.injEq] at ran
    subst ran
    exact inv_moveTo_same inv here rfl (fun _ => id) sound
  | pollLoaded events i own loaded =>
    rw [here] at careful
    simp only [Machine.advance, here, Option.some.injEq] at ran
    subst ran
    exact pollLoaded_keeps inv here careful
  | triggerLocking own =>
    simp only [Machine.advance, here, Option.some.injEq] at ran
    subst ran
    refine inv_lock inv (fun event => ?_) (fun event seen => seen) trivial
    rw [here, Place.Holds, Place.Holds, or_false]
  | triggerLocked own =>
    simp only [Machine.advance, here, Option.some.injEq] at ran
    subst ran
    exact inv_moveTo_same inv here rfl (fun _ => id) trivial
  | triggerLoaded own loaded =>
    rw [here] at careful
    simp only [Machine.advance, here, Option.some.injEq] at ran
    subst ran
    have unseen := unseen_of_held inv (show (m.place caller).Holds own by rw [here]; rfl) (by rw [here]; exact id)
    refine inv_record (inv_moveTo_same (inv_store inv _ unseen) here rfl (fun _ => id) trivial) ?_
    exact congrArg (· + 1) careful.symm
  | triggerUnlocking own =>
    simp only [Machine.advance, here, Option.some.injEq] at ran
    subst ran
    refine inv_unlock inv (show (m.place caller).Holds own by rw [here]; rfl) (fun event => ?_) (fun event seen => seen)
      trivial
    simp_all [Place.Holds]

theorem step_keeps (m : Machine Caller Event) (action : Action Caller Event) (next : Machine Caller Event)
    (inv : Inv m) (careful : Careful m action) (ran : step m action = some next) : Inv next := by
  cases action with
  | callAwait caller events block =>
    simp only [step] at ran
    split at ran
    next here =>
      split at ran
      next distinct =>
        cases ran
        refine inv_moveTo_free inv (fun event => ?_) (fun event => ?_) distinct
        · rw [here]
          exact id
        · simp [Place.Holds]
      next => cases ran
    next => cases ran
  | callTrigger caller event =>
    simp only [step] at ran
    split at ran
    next here =>
      cases ran
      exact inv_moveTo_same inv here rfl (fun _ => id) trivial
    next => cases ran
  | advance caller => exact advance_keeps inv careful ran

theorem step_breaks (m : Machine Caller Event) (action : Action Caller Event) (inv : Inv m)
    (careless : ¬ Careful m action) : ∃ next, step m action = some next ∧ ¬ Exact next := by
  cases action with
  | callAwait caller events block => exact absurd trivial careless
  | callTrigger caller event => exact absurd trivial careless
  | advance caller =>
    have sound := inv.sound caller
    simp only [Careful] at careless
    cases here : m.place caller with
    | scanLoaded events i own loaded =>
      rw [here] at sound
      refine ⟨m.take caller events i own loaded, by simp [step, Machine.advance, here], fun exact => ?_⟩
      obtain ⟨_, _, _, released⟩ := exact.entries _ (List.mem_append_right _ List.mem_cons_self)
      have member := List.mem_of_getElem? sound.2
      have held : m.holder own = some caller := (inv.holds own caller).mpr (by rw [here]; exact member)
      simp_all [Machine.heldOf]
    | pollLoaded events i own loaded =>
      rw [here] at sound careless
      refine ⟨m.take caller events i own loaded, by simp [step, Machine.advance, here], fun exact => careless ?_⟩
      obtain ⟨⟨j, result, place⟩, positive, stored, _⟩ := exact.entries _ (List.mem_append_right _ List.mem_cons_self)
      have same : m.pending own = loaded := ((BitVec.sub_left_inj _).mp stored).symm
      have index : j = i :=
        (List.getElem?_inj (List.getElem?_eq_some_iff.mp place).1 sound.1).mp (place.trans sound.2.symm)
      have bound := BitVec.toInt_lt (x := BitVec.ofNat 32 i)
      exact ⟨by omega, same ▸ positive, same⟩
    | triggerLoaded own loaded =>
      rw [here] at careless
      refine ⟨_, by simp only [step, Machine.advance, here]; rfl, fun exact => careless ?_⟩
      have stored := exact.entries _ (List.mem_append_right _ List.mem_cons_self)
      exact ((BitVec.add_left_inj _).mp stored).symm
    | _ =>
      rw [here] at careless
      exact absurd trivial careless

/-- **Counting is exact and no lock is left behind exactly in the runs whose steps are
all careful**. -/
theorem counting_exact_iff (start : Start m) (actions : List (Action Caller Event)) :
    Throughout step Exact m actions ↔ Along step Careful m actions :=
  throughout_iff_along (fun _ inv => inv_exact inv) step_keeps step_breaks (start_inv start)

end Steps

/-- An event that has been triggered once. -/
def pendingOnce : Machine Bool Unit where
  pending := fun _ => 1
  holder := fun _ => none
  place := fun _ => .outside
  log := []

/-- The same event without a count. -/
def quietEvent : Machine Bool Unit := { pendingOnce with pending := fun _ => 0 }

theorem quietEvent_start : Start quietEvent := ⟨fun _ => rfl, fun _ => rfl, rfl⟩

theorem quietEvent_exact :
    Throughout step Exact quietEvent (.callAwait false [()] true :: List.replicate 6 (.advance false) ++
      .callTrigger true () :: List.replicate 4 (.advance true) ++ List.replicate 3 (.advance false)) :=
  (counting_exact_iff quietEvent_start _).mpr (by decide)

/-- The event is pending when `event_await` has its lock: the call returns 0 and still
holds the lock, and `event_trigger` never gets it. -/
theorem pendingOnce_leaks :
    ∃ m, List.foldlM step pendingOnce [.callAwait false [()] false, .advance false, .advance false, .advance false,
        .advance false, .advance false, .callTrigger true ()] = some m ∧
      m.log = [.took [()] 0 () 1 0 [()]] ∧ m.place false = .outside ∧ step m (.advance true) = some m :=
  ⟨_, rfl, rfl, rfl, rfl⟩

end MandelbrotOS.Events
