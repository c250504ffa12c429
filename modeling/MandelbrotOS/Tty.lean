import Mathlib.Logic.Function.Basic
import Mathlib.Tactic.Common

/-! Reading from the terminal: `tty_read` of `dev/tty.c` and the keyboard half of
`drivers/ps2.c`. The keyboard keeps one key, which every poll takes away; the
interrupts that come between two polls are a list of scan codes. The byte that ends
the string goes one place too far, so a line that fills its buffer, or leaves one
byte of it, is written past its end. -/
namespace MandelbrotOS.Tty

/-! ### The code -/

/-- `ps2_kbd_scancodes`, up to its last character; the other places are zero. -/
def ps2KbdScancodes : List (BitVec 8) :=
  [0, 27, 49, 50, 51, 52, 53, 54, 55, 56, 57, 48, 45, 61, 8,
   9, 113, 119, 101, 114, 116, 121, 117, 105, 111, 112, 91, 93, 10, 0,
   97, 115, 100, 102, 103, 104, 106, 107, 108, 59, 39, 96, 0, 92, 122,
   120, 99, 118, 98, 110, 109, 44, 46, 47, 0, 42, 0, 32, 0, 0,
   0, 0, 0, 0, 0, 0, 0, 0, 0, 0, 0, 0, 0, 0, 45,
   0, 0, 0, 43]

/-- `kbd_handler`: the new `curr_key`. -/
def kbdHandler (currKey c : BitVec 8) : BitVec 8 :=
  if 0x1#8 < c ∧ c < 0x59#8 then ps2KbdScancodes.getD (c &&& 0x7f#8).toNat 0 else currKey

/-- `getchar`: the key it returns and what it leaves in `curr_key`. -/
def getchar (currKey : BitVec 8) : BitVec 8 × BitVec 8 := (currKey, 0)

def newline : BitVec 8 := 10

/-- The loop of `tty_read`: what it reads and writes. A store is a byte and the index
of `buf` it goes to. -/
structure Reading where
  currKey : BitVec 8
  count : Nat
  stores : List (BitVec 8 × Nat) := []
  echoed : List (BitVec 8) := []
  broke : Bool := false

/-- The loop is not over. -/
def Reading.Polling (s : Reading) : Prop := s.count ≠ 0 ∧ s.broke = false

instance (s : Reading) : Decidable s.Polling := inferInstanceAs (Decidable (_ ∧ _))

/-- A turn of the loop, after the interrupts that came before it. -/
def turn (initCount : Nat) (arrived : List (BitVec 8)) (s : Reading) : Reading :=
  let (c, currKey) := getchar (arrived.foldl kbdHandler s.currKey)
  if c = 0 then { s with currKey := currKey }
  else
    { currKey := currKey
      count := s.count - 1
      stores := s.stores ++ [(c, initCount - s.count)]
      echoed := s.echoed ++ [c]
      broke := c = newline }

/-- The loop after so many polls, or at its end. -/
def ttyLoop (arrived : Nat → List (BitVec 8)) (currKey : BitVec 8) (count : Nat) : Nat → Reading
  | 0 => { currKey := currKey, count := count }
  | polls + 1 =>
    let s := ttyLoop arrived currKey count polls
    if s.Polling then turn count (arrived polls) s else s

/-- `tty_read`: what it returns and the stores it made, if so many polls are enough. -/
def ttyRead (arrived : Nat → List (BitVec 8)) (currKey : BitVec 8) (count polls : Nat) :
    Option (Nat × List (BitVec 8 × Nat)) :=
  let s := ttyLoop arrived currKey count polls
  if s.Polling then none
  else some (count - s.count, s.stores ++ [(0, count - s.count + 1)])

/-! ### What is asked of it -/

/-- The code a poll sees: what the interrupts since the last poll left. -/
def seen (arrived : Nat → List (BitVec 8)) (currKey : BitVec 8) (poll : Nat) : BitVec 8 :=
  (arrived poll).foldl kbdHandler (if poll = 0 then currKey else 0)

/-- The keys among the codes of the first polls. -/
def keys (arrived : Nat → List (BitVec 8)) (currKey : BitVec 8) (polls : Nat) : List (BitVec 8) :=
  ((List.range polls).map (seen arrived currKey)).filter (· ≠ 0)

/-- The keys up to the first newline, with it, and at most `count` of them. -/
def line : Nat → List (BitVec 8) → List (BitVec 8)
  | 0, _ => []
  | _, [] => []
  | count + 1, key :: rest => if key = newline then [key] else key :: line count rest

/-- The keys make a whole line. -/
def Complete (count : Nat) (keys : List (BitVec 8)) : Prop :=
  (line count keys).length = count ∨ newline ∈ line count keys

instance (count : Nat) (keys : List (BitVec 8)) : Decidable (Complete count keys) :=
  inferInstanceAs (Decidable (_ ∨ _))

/-- The buffer after some stores. -/
def storedIn (buf : Nat → BitVec 8) (stores : List (BitVec 8 × Nat)) : Nat → BitVec 8 :=
  stores.foldl (fun buf store => Function.update buf store.2 store.1) buf

/-- The read comes back once there is a whole line, with the line in the buffer and its
length, and no store goes past the buffer. -/
structure Respects (arrived : Nat → List (BitVec 8)) (currKey : BitVec 8) (count : Nat) : Prop where
  returns : ∀ polls, (ttyRead arrived currKey count polls).isSome ↔ Complete count (keys arrived currKey polls)
  result : ∀ polls n stores, ttyRead arrived currKey count polls = some (n, stores) →
    n = (line count (keys arrived currKey polls)).length ∧
      (∀ buf, ∀ i < n, some (storedIn buf stores i) = (line count (keys arrived currKey polls))[i]?) ∧
      ∀ store ∈ stores, store.2 < count

/-! ### Lines -/

theorem line_prefix (count : Nat) (keys : List (BitVec 8)) : line count keys <+: keys := by
  induction count, keys using line.induct with
  | case1 keys => simp [line]
  | case2 => simp [line]
  | case3 count rest => simp [line]
  | case4 count key rest other ih => simpa [line, other] using ih

theorem line_append (count : Nat) (keys : List (BitVec 8)) (key : BitVec 8) :
    line count (keys ++ [key]) = if Complete count keys then line count keys else line count keys ++ [key] := by
  induction count, keys using line.induct with
  | case1 keys => simp [line, Complete]
  | case2 count nonzero =>
    obtain ⟨count, rfl⟩ := Nat.exists_eq_succ_of_ne_zero nonzero
    have nothing : line count [] = [] := by cases count <;> rfl
    simp [line, Complete, nothing]
  | case3 count rest => simp [line, Complete]
  | case4 count first rest other ih =>
    have whole : Complete (count + 1) (first :: rest) ↔ Complete count rest := by
      simp [Complete, line, other, Ne.symm other]
    simp only [List.cons_append, line, if_neg other, ih, whole]
    split <;> rfl

theorem line_length_of_newline (count : Nat) (keys : List (BitVec 8)) (early : newline ∈ keys.take m) :
    (line count keys).length ≤ m := by
  induction count, keys using line.induct generalizing m with
  | case1 => simp [line]
  | case2 => simp [line]
  | case3 count rest =>
    cases m with
    | zero => simp at early
    | succ m => simp [line]
  | case4 count key rest other ih =>
    cases m with
    | zero => simp at early
    | succ m =>
      simp_all [line, Ne.symm]

theorem keys_succ (arrived : Nat → List (BitVec 8)) (currKey : BitVec 8) (polls : Nat) :
    keys arrived currKey (polls + 1) = if seen arrived currKey polls = 0 then keys arrived currKey polls
      else keys arrived currKey polls ++ [seen arrived currKey polls] := by
  grind [keys, List.range_succ]

/-! ### The loop -/

/-- After some polls the line so far is stored and echoed, and `count` is what is left. -/
structure Holds (count : Nat) (typed : List (BitVec 8)) (s : Reading) : Prop where
  stores : s.stores = (line count typed).zipIdx
  echoed : s.echoed = line count typed
  left : s.count + (line count typed).length = count
  broke : s.broke = true ↔ newline ∈ line count typed

theorem Holds.polling_iff (holds : Holds count typed s) : s.Polling ↔ ¬ Complete count typed := by
  have left := holds.left
  rw [Reading.Polling, Complete, ← holds.broke, not_or, Bool.not_eq_true]
  refine and_congr_left fun _ => ?_
  omega

theorem turn_idle (nothing : arrived.foldl kbdHandler s.currKey = 0) :
    turn initCount arrived s = { s with currKey := 0 } := if_pos nothing

theorem turn_key (key : arrived.foldl kbdHandler s.currKey ≠ 0) :
    turn initCount arrived s =
      { currKey := 0
        count := s.count - 1
        stores := s.stores ++ [(arrived.foldl kbdHandler s.currKey, initCount - s.count)]
        echoed := s.echoed ++ [arrived.foldl kbdHandler s.currKey]
        broke := arrived.foldl kbdHandler s.currKey = newline } := if_neg key

theorem turn_clears (initCount : Nat) (arrived : List (BitVec 8)) (s : Reading) :
    (turn initCount arrived s).currKey = 0 := by
  grind [turn_idle, turn_key]

theorem turn_holds (holds : Holds count typed s) (polling : s.Polling)
    (key : arrived.foldl kbdHandler s.currKey = c) :
    Holds count (if c = 0 then typed else typed ++ [c]) (turn count arrived s) := by
  by_cases nothing : c = 0
  · rw [if_pos nothing, turn_idle (key.trans nothing)]
    exact ⟨holds.stores, holds.echoed, holds.left, holds.broke⟩
  · have unfinished := holds.polling_iff.mp polling
    have noNewline : newline ∉ line count typed := fun member => unfinished (.inr member)
    have left := holds.left
    have place : count - s.count = (line count typed).length := by omega
    have longer : line count (typed ++ [c]) = line count typed ++ [c] := by
      rw [line_append, if_neg unfinished]
    rw [if_neg nothing, turn_key (by rwa [key]), key]
    constructor
    case stores => rw [longer, List.zipIdx_append, holds.stores, place, List.zipIdx_singleton, Nat.zero_add]
    case echoed => rw [longer, holds.echoed]
    case left =>
      have some := polling.1
      grind
    grind

theorem ttyLoop_holds (arrived : Nat → List (BitVec 8)) (currKey : BitVec 8) (count polls : Nat) :
    Holds count (keys arrived currKey polls) (ttyLoop arrived currKey count polls) ∧
      ((ttyLoop arrived currKey count polls).Polling →
        (ttyLoop arrived currKey count polls).currKey = if polls = 0 then currKey else 0) := by
  induction polls with
  | zero =>
    have nothing : line count (keys arrived currKey 0) = [] := by cases count <;> rfl
    exact ⟨⟨by rw [nothing]; rfl, by rw [nothing]; rfl, by rw [nothing]; rfl, by simp [nothing, ttyLoop]⟩, fun _ => rfl⟩
  | succ polls ih =>
    obtain ⟨holds, cleared⟩ := ih
    rw [ttyLoop]
    split
    next polling =>
      have key : (arrived polls).foldl kbdHandler (ttyLoop arrived currKey count polls).currKey =
          seen arrived currKey polls := by
        rw [seen, cleared polling]
      rw [keys_succ]
      exact ⟨turn_holds holds polling key, fun _ => turn_clears ..⟩
    next ended =>
      have complete := not_not.mp (mt holds.polling_iff.mpr ended)
      have same : line count (keys arrived currKey (polls + 1)) = line count (keys arrived currKey polls) := by
        rw [keys_succ]
        split
        all_goals simp_all [line_append]
      refine ⟨?_, fun polling => absurd polling ended⟩
      exact ⟨by rw [same, holds.stores], by rw [same, holds.echoed], by rw [same, holds.left],
        by rw [same, holds.broke]⟩

theorem ttyRead_eq (arrived : Nat → List (BitVec 8)) (currKey : BitVec 8) (count polls : Nat) :
    ttyRead arrived currKey count polls =
      if Complete count (keys arrived currKey polls) then
        some ((line count (keys arrived currKey polls)).length,
          (line count (keys arrived currKey polls)).zipIdx ++
            [(0, (line count (keys arrived currKey polls)).length + 1)])
      else none := by
  obtain ⟨holds, -⟩ := ttyLoop_holds arrived currKey count polls
  have left := holds.left
  rw [ttyRead]
  by_cases complete : Complete count (keys arrived currKey polls)
  · rw [if_pos complete, if_neg fun polling => holds.polling_iff.mp polling complete, holds.stores,
      show count - (ttyLoop arrived currKey count polls).count = (line count (keys arrived currKey polls)).length by
        omega]
  · rw [if_neg complete, if_pos (holds.polling_iff.mpr complete)]

theorem storedIn_append (buf : Nat → BitVec 8) (stores : List (BitVec 8 × Nat)) (byte : BitVec 8) (place : Nat) :
    storedIn buf (stores ++ [(byte, place)]) = Function.update (storedIn buf stores) place byte :=
  List.foldl_append

theorem storedIn_zipIdx (buf : Nat → BitVec 8) (items : List (BitVec 8)) (start place : Nat) :
    storedIn buf (items.zipIdx start) place =
      if start ≤ place ∧ place < start + items.length then items.getD (place - start) 0 else buf place := by
  induction items generalizing buf start with
  | nil =>
    rw [if_neg (by simp)]
    rfl
  | cons item rest ih =>
    have onward := ih (Function.update buf start item) (start + 1)
    rw [List.zipIdx_cons]
    refine onward.trans ?_
    grind

/-- **tty_read** stores the line and returns its length for all keys and every buffer.
It stays inside the buffer as long as a line that comes to its end has its newline
among the first `count - 2` keys. -/
theorem respects_iff (arrived : Nat → List (BitVec 8)) (currKey : BitVec 8) (count : Nat) :
    Respects arrived currKey count ↔ ∀ polls, Complete count (keys arrived currKey polls) →
      newline ∈ (keys arrived currKey polls).take (count - 2) := by
  constructor
  · intro respects polls complete
    obtain ⟨-, -, inside⟩ := respects.result polls _ _ ((ttyRead_eq ..).trans (if_pos complete))
    have last := inside _ (List.mem_append_right _ List.mem_cons_self)
    have within : newline ∈ line count (keys arrived currKey polls) := complete.resolve_left (by omega)
    have start : line count (keys arrived currKey polls) <+: (keys arrived currKey polls).take (count - 2) :=
      List.prefix_take_iff.mpr ⟨ line_prefix _ _, by omega⟩
    exact start.subset within
  · intro early
    refine ⟨fun polls => ?_, fun polls n stores ran => ?_⟩
    · rw [ttyRead_eq]
      split <;> simp [*]
    · rw [ttyRead_eq] at ran
      split at ran
      next complete =>
        cases ran
        have short := line_length_of_newline count _ (early polls complete)
        have room : 2 < count := by
          by_contra small
          simpa [show count - 2 = 0 by omega] using early polls complete
        refine ⟨rfl, fun buf i inside => ?_, fun store member => ?_⟩
        · rw [storedIn_append, Function.update_of_ne (by omega), storedIn_zipIdx, if_pos (by omega), Nat.sub_zero,
            List.getD_eq_getElem?_getD, List.getElem?_eq_getElem inside, Option.getD_some]
        · rcases List.mem_append.mp member with key | last
          · have place := List.snd_lt_of_mem_zipIdx key
            omega
          · rw [List.mem_singleton.mp last]
            omega
      next => cases ran

/-- The keys a, b and return, one before each poll. -/
def abReturn (poll : Nat) : List (BitVec 8) :=
  if poll = 0 then [0x1e] else if poll = 1 then [0x30] else if poll = 2 then [0x1c] else []

/-- A line of three keys in a buffer of three bytes: the last store is at index 4. -/
theorem stored_past_buffer :
    ttyRead abReturn 0 3 3 = some (3, [(97, 0), (98, 1), (10, 2), (0, 4)]) ∧ ¬ Respects abReturn 0 3 := by
  have ran : ttyRead abReturn 0 3 3 = some (3, [(97, 0), (98, 1), (10, 2), (0, 4)]) := by decide
  refine ⟨ran, fun respects => ?_⟩
  exact absurd ((respects.result 3 _ _ ran).2.2 (0, 4) (by decide)) (by decide)

end MandelbrotOS.Tty
