import Mathlib.Order.Bounds.Basic
import MandelbrotOS.ArgStack

/-! The span functions of the C library, `libc/src/string.c`. The loops of
`strspn` and `strcspn` differ in one comparison, but the test behind the inner
loop is the same in both: it asks whether the whole set was walked. For `strspn`
that means that the character is not in the set; for `strcspn` it means that the
set has no other character. -/
namespace MandelbrotOS.Spans
open ArgStack

/-! ### The code -/

/-- The inner loop: `p` goes through the set while its characters pass the test
against `*cs`. The result is the set from where `p` stops. -/
def walk (test : BitVec 8 → BitVec 8 → Bool) (c : BitVec 8) : List (BitVec 8) → List (BitVec 8)
  | [] => []
  | p :: rest => if test p c then walk test c rest else p :: rest

/-- The outer loop, from a place in the string on. -/
def spanLoop (test : BitVec 8 → BitVec 8 → Bool) (ct : List (BitVec 8)) : List (BitVec 8) → Nat → Nat
  | [], n => n
  | c :: cs, n => if walk test c ct = [] then n else spanLoop test ct cs (n + 1)

def strspn (cs ct : CString) : Nat := spanLoop (fun p c => p != c) ct.bytes cs.bytes 0

def strcspn (cs ct : CString) : Nat := spanLoop (fun p c => p == c) ct.bytes cs.bytes 0

/-- `strpbrk`, as the distance of the result from `s`; `none` is `NULL`. -/
def strpbrk (s b : CString) : Option Nat :=
  let n := strcspn s b
  if s.bytes.getD n 0 ≠ 0 then some n else none

/-! ### What they are for -/

/-- The longest prefix of a string whose characters all satisfy `p` has `n` of them. -/
def LongestPrefix (p : BitVec 8 → Prop) (string : List (BitVec 8)) (n : Nat) : Prop :=
  IsGreatest {k | k ≤ string.length ∧ ∀ c ∈ string.take k, p c} n

/-- The first character of a string that is in a set stands at `i`. -/
def FirstIn (set string : List (BitVec 8)) (i : Nat) : Prop :=
  (∃ c ∈ set, string[i]? = some c) ∧ ∀ c ∈ string.take i, c ∉ set

/-- The three functions do what the C standard asks, for a string and a set. -/
structure SpansRight (s t : CString) : Prop where
  strspn : LongestPrefix (· ∈ t.bytes) s.bytes (strspn s t)
  strcspn : LongestPrefix (· ∉ t.bytes) s.bytes (strcspn s t)
  strpbrk : ∀ i, strpbrk s t = some i ↔ FirstIn t.bytes s.bytes i

theorem longestPrefix_takeWhile (p : BitVec 8 → Bool) (string : List (BitVec 8)) :
    LongestPrefix (fun c => p c = true) string (string.takeWhile p).length := by
  induction string with
  | nil => exact ⟨by simp, fun k inside => by simpa using inside.1⟩
  | cons c rest ih =>
    by_cases passes : p c
    · rw [List.takeWhile_cons_of_pos passes, List.length_cons]
      refine ⟨⟨by simpa using ih.1.1, ?_⟩, ?_⟩
      · rw [List.take_succ_cons]
        exact List.forall_mem_cons.mpr ⟨passes, ih.1.2⟩
      · rintro (_ | k) inside
        · exact Nat.zero_le _
        · rw [Set.mem_ofPred_eq, List.take_succ_cons, List.forall_mem_cons] at inside
          exact Nat.succ_le_succ (ih.2 ⟨by simpa using inside.1, inside.2.2⟩)
    · rw [List.takeWhile_cons_of_neg passes, List.length_nil]
      refine ⟨by simp, ?_⟩
      rintro (_ | k) inside
      · exact Nat.le_refl _
      · simp_all

theorem longestPrefix_length_iff {p : BitVec 8 → Prop} {string : List (BitVec 8)} :
    LongestPrefix p string string.length ↔ ∀ c ∈ string, p c := by
  constructor
  · intro longest
    simpa using longest.1.2
  · exact fun all => ⟨⟨Nat.le_refl _, by simpa using all⟩, fun k inside => inside.1⟩

theorem longestPrefix_stops {p : BitVec 8 → Prop} {string : List (BitVec 8)} (longest : LongestPrefix p string n)
    (here : string[n]? = some c) : ¬ p c := by
  intro passes
  obtain ⟨inside, rfl⟩ := List.getElem?_eq_some_iff.mp here
  have more : n + 1 ≤ n := by
    refine longest.2 ⟨inside, fun d member => ?_⟩
    rw [List.take_add_one, List.mem_append, here] at member
    rcases member with before | last
    · exact longest.1.2 d before
    · simp_all
  omega

/-! ### The loops -/

theorem walk_eq_nil_iff {set : List (BitVec 8)} : walk test c set = [] ↔ ∀ p ∈ set, test p c = true := by
  induction set with
  | nil => simp [walk]
  | cons p rest ih =>
    rw [walk, List.forall_mem_cons]
    grind

theorem spanLoop_eq (test : BitVec 8 → BitVec 8 → Bool) (set cs : List (BitVec 8)) (n : Nat) :
    spanLoop test set cs n = n + (cs.takeWhile fun c => decide (walk test c set ≠ [])).length := by
  induction cs generalizing n with
  | nil => rfl
  | cons c rest ih =>
    rw [spanLoop]
    by_cases walked : walk test c set = []
    · simp_all
    · rw [if_neg walked, List.takeWhile_cons_of_pos (by simpa using walked), List.length_cons, ih]
      omega

theorem spanLoop_longest (test : BitVec 8 → BitVec 8 → Bool) (set string : List (BitVec 8)) :
    LongestPrefix (fun c => ∃ p ∈ set, test p c = false) string (spanLoop test set string 0) := by
  have stops (c : BitVec 8) : decide (walk test c set ≠ []) = true ↔ ∃ p ∈ set, test p c = false := by
    rw [decide_eq_true_iff, ne_eq, walk_eq_nil_iff]
    push Not
    simp only [Bool.not_eq_true]
  have longest := longestPrefix_takeWhile (fun c => decide (walk test c set ≠ [])) string
  simp_all [spanLoop_eq]

theorem strspn_longest (s t : CString) : LongestPrefix (· ∈ t.bytes) s.bytes (strspn s t) := by
  simpa [strspn] using spanLoop_longest (fun p c => p != c) t.bytes s.bytes

theorem strcspn_longest (s t : CString) :
    LongestPrefix (fun c => ∃ p ∈ t.bytes, p ≠ c) s.bytes (strcspn s t) := by
  grind [strcspn, spanLoop_longest]

theorem strcspn_of_two {s t : CString} (one : a ∈ t.bytes) (two : b ∈ t.bytes) (distinct : a ≠ b) :
    strcspn s t = s.bytes.length := by
  refine (strcspn_longest s t).unique (longestPrefix_length_iff.mpr fun c _ => ?_)
  grind

theorem strpbrk_of_longest {s t : CString} (longest : LongestPrefix (· ∉ t.bytes) s.bytes (strcspn s t)) (i : Nat) :
    strpbrk s t = some i ↔ FirstIn t.bytes s.bytes i := by
  rw [strpbrk]
  constructor
  · intro found
    split at found
    next there =>
      cases found
      obtain ⟨c, here⟩ : ∃ c, s.bytes[strcspn s t]? = some c := by
        grind
      exact ⟨⟨c, not_not.mp (longestPrefix_stops longest here), here⟩, longest.1.2⟩
    next => cases found
  · rintro ⟨⟨c, member, here⟩, before⟩
    obtain ⟨inside, rfl⟩ := List.getElem?_eq_some_iff.mp here
    have reached : i ≤ strcspn s t := longest.2 ⟨inside.le, before⟩
    have count : strcspn s t = i := by
      by_contra other
      have within : s.bytes[i] ∈ s.bytes.take (strcspn s t) :=
        List.mem_take_iff_getElem.mpr ⟨i, by have := longest.1.1; omega, rfl⟩
      exact longest.1.2 _ within member
    have there : s.bytes.getD i 0 = s.bytes[i] := List.getD_eq_getElem _ _ inside
    rw [count, there, if_pos (s.noNul _ (List.getElem_mem inside))]

theorem strcspn_right_iff (s t : CString) :
    LongestPrefix (· ∉ t.bytes) s.bytes (strcspn s t) ↔
      s.bytes = [] ∨ t.bytes ≠ [] ∧
        ((∀ a ∈ t.bytes, ∀ b ∈ t.bytes, a = b) ∨ ∀ c ∈ s.bytes, c ∉ t.bytes) := by
  have counted := strcspn_longest s t
  by_cases bare : t.bytes = []
  · -- Nothing is counted, where everything should be.
    have zero : LongestPrefix (fun c => ∃ p ∈ t.bytes, p ≠ c) s.bytes 0 := by
      refine ⟨by simp, fun k inside => ?_⟩
      by_contra more
      obtain ⟨c, rest, string⟩ : ∃ c rest, s.bytes = c :: rest :=
        List.exists_cons_of_length_pos (by have := inside.1; omega)
      grind [List.take_cons, List.mem_cons_self]
    have all : LongestPrefix (· ∉ t.bytes) s.bytes s.bytes.length :=
      longestPrefix_length_iff.mpr (by simp [bare])
    rw [counted.unique zero]
    constructor
    · intro longest
      exact .inl (List.length_eq_zero_iff.mp (all.unique longest))
    · grind
  by_cases single : ∀ a ∈ t.bytes, ∀ b ∈ t.bytes, a = b
  · grind [List.exists_mem_of_ne_nil]
  · have many := single
    push Not at many
    grind [strcspn_of_two, longestPrefix_length_iff]

/-- **The span functions**: `strspn` is right for every string and set; `strcspn`
and with it `strpbrk` are right for sets of one character, and otherwise only where
the count that ignores the set comes out right by chance. -/
theorem spans_right_iff (s t : CString) :
    SpansRight s t ↔
      s.bytes = [] ∨ t.bytes ≠ [] ∧
        ((∀ a ∈ t.bytes, ∀ b ∈ t.bytes, a = b) ∨ ∀ c ∈ s.bytes, c ∉ t.bytes) := by
  rw [← strcspn_right_iff]
  exact ⟨fun right => right.strcspn, fun longest => ⟨strspn_longest s t, longest, strpbrk_of_longest longest⟩⟩

/-- `WHITESPACE` of the shell: a blank, a comma and a tab. -/
def whitespace : CString := ⟨[32, 44, 9], by decide⟩

/-- The command line `a b`. -/
def twoWords : CString := ⟨[97, 32, 98], by decide⟩

/-- The shell does not find the blank between two words. -/
theorem blank_not_found :
    strpbrk twoWords whitespace = none ∧ strcspn twoWords whitespace = 3 ∧ ¬ SpansRight twoWords whitespace := by
  have missed : strpbrk twoWords whitespace = none := by decide
  refine ⟨missed, by decide, fun right => ?_⟩
  have found := (right.strpbrk 1).mpr ⟨⟨32, by decide, rfl⟩, by decide⟩
  rw [missed] at found
  cases found

end MandelbrotOS.Spans
