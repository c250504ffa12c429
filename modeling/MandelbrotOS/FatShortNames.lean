import Mathlib.Data.List.DropRight
import MandelbrotOS.FatNames

/-! Short names. A lookup makes eleven bytes of a name, `fat_create` makes them in
the same way, and `fat_mkdir` keeps the dots. The bytes say the stem, cut at eight
characters, and the extension, cut at three, with neither the case of the letters
nor the blanks at the end. -/
namespace MandelbrotOS.FatShortNames
open ByteMemory Fat FatLookup FatCreate FatPaths FatNames

/-- A name that is made short, as it stands in memory. -/
structure ShortNamed (path : Path) (cursor : Int) (chars : List (BitVec 8)) : Prop where
  reads : Reads path cursor chars
  plain : ∀ char ∈ chars, char ≠ 0 ∧ char ≠ 0x2f
  starts : ∀ first ∈ chars.head?, first ≠ 0x20 ∧ first ≠ 0x2e
  fits : chars.length < 2 ^ 64
  short : isLongFilename path (2 ^ 64) cursor 0 = some false

/-- The eleven bytes a lookup compares with. -/
def soughtName (path : Path) (cursor : Int) : Option Memory :=
  (shortName path (2 ^ 64) cursor 0 blank).map fun made => made.2.2

/-- The eleven bytes that are stored, by `fat_create` and, with the dots kept, by
`fat_mkdir`. -/
def storedName (dots : Bool) (path : Path) (cursor : Int) : Option Memory :=
  (encodeName dots false path (2 ^ 64) cursor 0 blank).map fun made => made.2.2

theorem ShortNamed.soughtName (named : ShortNamed path cursor chars) :
    soughtName path cursor = some (encoding true false chars 0 blank).2.2 := by
  rw [FatShortNames.soughtName, shortName_reads named.reads named.plain named.fits]
  rfl

theorem ShortNamed.storedName (named : ShortNamed path cursor chars) (dots : Bool) :
    storedName dots path cursor = some (encoding dots false chars 0 blank).2.2 := by
  rw [FatShortNames.storedName,
    encodeName_reads named.reads (fun char member => (named.plain char member).1) named.fits]
  rfl

theorem storedName_eq_iff (named : ShortNamed path cursor chars) (dots : Bool) :
    storedName dots path cursor = soughtName path cursor ↔
      dots = true ∨ ∀ char ∈ chars.take 11, char ≠ 0x2e := by
  rw [named.soughtName, named.storedName]
  cases dots with
  | true => exact iff_of_true rfl (Or.inl rfl)
  | false =>
    by_cases noDot : ∀ char ∈ chars.take 11, char ≠ 0x2e
    · simp_all [encoding_eq]
    · refine iff_of_false (fun same => ?_) (not_or.mpr ⟨Bool.false_ne_true, noDot⟩)
      have dot : ∃ char ∈ chars.take 11, char = 0x2e := by
        simp_all
      obtain ⟨k, -, kept⟩ := encoding_dot (Nat.zero_le 11) dot blank
      have blanks (k : Nat) : blank k ≠ 0x2e := show (0x20 : BitVec 8) ≠ 0x2e by decide
      rw [Option.some.inj same] at kept
      exact encoding_noDot chars blank blanks k kept

/-! ### What the eleven bytes say -/

def notDot (char : BitVec 8) : Bool := char != 0x2e

/-- The characters before the first dot, eight at most. -/
def stem (chars : List (BitVec 8)) : List (BitVec 8) := (chars.takeWhile notDot).take 8

/-- The characters that come behind the stem, dots left out, three at most. -/
def extension (chars : List (BitVec 8)) : List (BitVec 8) :=
  ((chars.takeWhile notDot).drop 8 ++ (chars.dropWhile notDot).filter notDot).take 3

/-- What is left of a text without its case and the blanks at its end. -/
def folded (chars : List (BitVec 8)) : List (BitVec 8) := (chars.map upperCase).rdropWhile (· == 0x20)

/-- The text in upper case, with blanks behind. -/
def laid (chars : List (BitVec 8)) (k : Nat) : BitVec 8 := (chars.map upperCase).getD k 0x20

theorem laid_cons_zero (char : BitVec 8) (rest : List (BitVec 8)) : laid (char :: rest) 0 = upperCase char := rfl

theorem laid_cons (char : BitVec 8) (rest : List (BitVec 8)) (before : pos < k) :
    laid (char :: rest) (k - pos) = laid rest (k - (pos + 1)) := by
  rw [show k - pos = k - (pos + 1) + 1 by omega]
  rfl

theorem laid_take (chars : List (BitVec 8)) (inside : k < n) : laid (chars.take n) k = laid chars k := by
  simp_all [laid]

theorem laid_take_out (chars : List (BitVec 8)) (outside : n ≤ k) : laid (chars.take n) k = 0x20 := by
  simp_all [laid]

theorem getD_rdropWhile (text : List (BitVec 8)) (k : Nat) :
    (text.rdropWhile (· == 0x20)).getD k 0x20 = text.getD k 0x20 := by
  induction text using List.reverseRecOn with
  | nil => rfl
  | append_singleton text last ih =>
    grind [List.rdropWhile_concat_pos, List.rdropWhile_concat_neg]

theorem length_le_of_getD {one other : List (BitVec 8)} (same : ∀ k, one.getD k 0x20 = other.getD k 0x20) :
    (one.rdropWhile (· == 0x20)).length ≤ (other.rdropWhile (· == 0x20)).length := by
  by_contra longer
  have nonempty : one.rdropWhile (· == 0x20) ≠ [] := by
    grind
  have last := List.rdropWhile_last_not (· == 0x20) one nonempty
  have positive := List.length_pos_of_ne_nil nonempty
  have outside : (other.rdropWhile (· == 0x20)).length ≤ (one.rdropWhile (· == 0x20)).length - 1 := by omega
  have blank := same ((one.rdropWhile (· == 0x20)).length - 1)
  rw [← getD_rdropWhile one, ← getD_rdropWhile other, List.getD_eq_default _ _ outside,
    List.getD_eq_getElem _ _ (Nat.sub_lt positive Nat.one_pos)] at blank
  grind

theorem folded_eq_iff : folded one = folded other ↔ ∀ k, laid one k = laid other k := by
  constructor
  · intro same k
    rw [laid, laid, ← getD_rdropWhile (one.map upperCase), ← getD_rdropWhile (other.map upperCase)]
    exact congrArg (fun text => text.getD k 0x20) same
  · intro same
    have lengths := Nat.le_antisymm (length_le_of_getD same) (length_le_of_getD fun k => (same k).symm)
    refine List.ext_getElem lengths fun k inside inside' => ?_
    rw [← List.getD_eq_getElem _ 0x20 inside, ← List.getD_eq_getElem _ 0x20 inside', folded, folded,
      getD_rdropWhile, getD_rdropWhile]
    exact same k

theorem encoding_tail (chars : List (BitVec 8)) (late : 8 ≤ pos) (within : pos ≤ 11) (name : Memory)
    (spaces : ∀ k, pos ≤ k → name k = 0x20) (behind : pos ≤ k) (inside : k < 11) :
    (encoding true false chars pos name).2.2 k = laid (chars.filter notDot) (k - pos) := by
  induction chars generalizing pos name with
  | nil => exact spaces k behind
  | cons char rest ih =>
    rw [encoding, if_neg (by omega)]
    simp only [Bool.false_eq_true, false_and, if_false, true_and]
    split
    · simp_all [notDot, if_neg]
    · rename_i plain
      have kept : notDot char = true := bne_iff_ne.mpr plain
      rw [List.filter_cons_of_pos kept]
      obtain rfl | later := Nat.eq_or_lt_of_le behind
      · rw [encoding_below _ _ _ (Nat.lt_succ_self pos) (Or.inl rfl), Function.update_self, Nat.sub_self,
          laid_cons_zero]
      · grind [laid_cons]

theorem encoding_parts (chars : List (BitVec 8)) (early : pos ≤ 8) (name : Memory)
    (spaces : ∀ k, pos ≤ k → name k = 0x20) (behind : pos ≤ k) (inside : k < 11) :
    (encoding true false chars pos name).2.2 k =
      if k < 8 then laid (chars.takeWhile notDot) (k - pos)
      else laid ((chars.takeWhile notDot).drop (8 - pos) ++
        (chars.dropWhile notDot).filter notDot) (k - 8) := by
  induction chars generalizing pos name with
  | nil =>
    rw [List.takeWhile_nil, List.drop_nil]
    exact (spaces k behind).trans (ite_self _).symm
  | cons char rest ih =>
    obtain full | left := Nat.eq_or_lt_of_le early
    · rw [encoding_tail _ (Nat.le_of_eq full.symm) (by omega) name spaces behind inside, if_neg (by omega),
        full, Nat.sub_self, List.drop_zero]
      grind [List.takeWhile_append_dropWhile, List.filter_eq_self, List.mem_takeWhile_imp]
    · rw [encoding, if_neg (by omega)]
      simp only [Bool.false_eq_true, false_and, if_false, true_and]
      by_cases dot : char = 0x2e
      · have stops : ¬ notDot char = true := by rw [dot]; decide
        rw [if_pos dot, if_pos left, List.takeWhile_cons_of_neg stops, List.drop_nil, List.nil_append,
          List.dropWhile_cons_of_neg stops, List.filter_cons_of_neg stops]
        split
        · rename_i low
          rw [encoding_below _ _ _ low (Or.inl rfl), spaces k behind]
          rfl
        · exact encoding_tail rest (Nat.le_refl 8) (by decide) name
            (fun k far => spaces k (by omega)) (by omega) inside
      · have goesOn : notDot char = true := bne_iff_ne.mpr dot
        rw [if_neg dot, List.takeWhile_cons_of_pos goesOn, List.dropWhile_cons_of_pos goesOn,
          show 8 - pos = 8 - (pos + 1) + 1 by omega, List.drop_succ_cons]
        grind [encoding_below, laid_cons_zero, laid_cons]

theorem encoding_above (chars : List (BitVec 8)) (within : pos ≤ 11) (name : Memory) (above : 11 ≤ k) :
    (encoding true false chars pos name).2.2 k = name k := by
  induction chars generalizing pos name with
  | nil => rfl
  | cons char rest ih =>
    rw [encoding]
    split
    · rfl
    · grind

theorem encoding_laid (chars : List (BitVec 8)) (inside : k < 11) :
    (encoding true false chars 0 blank).2.2 k =
      if k < 8 then laid (stem chars) k else laid (extension chars) (k - 8) := by
  rw [encoding_parts chars (Nat.zero_le 8) blank (fun _ _ => rfl) (Nat.zero_le k) inside]
  split
  · simp_all [stem, laid_take]
  · rw [extension, laid_take _ (by omega), Nat.sub_zero]

theorem encoding_same_iff (one other : List (BitVec 8)) :
    (encoding true false one 0 blank).2.2 = (encoding true false other 0 blank).2.2 ↔
      folded (stem one) = folded (stem other) ∧ folded (extension one) = folded (extension other) := by
  rw [folded_eq_iff, folded_eq_iff]
  constructor
  · intro same
    constructor
    · intro k
      by_cases low : k < 8
      · have byte := congrFun same k
        rwa [encoding_laid _ (by omega), encoding_laid _ (by omega), if_pos low, if_pos low] at byte
      · simp_all [stem, laid_take_out]
    · intro k
      by_cases low : k < 3
      · have byte := congrFun same (k + 8)
        rwa [encoding_laid _ (by omega), encoding_laid _ (by omega), if_neg (by omega), if_neg (by omega),
          Nat.add_sub_cancel] at byte
      · simp_all [extension, laid_take_out]
  · rintro ⟨stems, extensions⟩
    funext k
    grind [encoding_laid, encoding_above]

/-- Equal up to the case of the letters. -/
def SameLetters (one other : List (BitVec 8)) : Prop := one.map upperCase = other.map upperCase

/-- The name is stored as it is looked for, and is looked for as the other one
only if it is the same. -/
structure Agrees (dots : Bool) (path path' : Path) (cursor cursor' : Int) (chars chars' : List (BitVec 8)) :
    Prop where
  stored : storedName dots path cursor = soughtName path cursor
  distinct : soughtName path cursor = soughtName path' cursor' → SameLetters chars chars'

/-- `fat_create` stores every short name as it is looked for, and `fat_mkdir` those
without a dot. Names that differ in more than case are looked for as one when
nothing of the difference is in the stem and the extension, or it is only blanks. -/
theorem short_names_agree_iff (named : ShortNamed path cursor chars) (named' : ShortNamed path' cursor' chars')
    (dots : Bool) :
    Agrees dots path path' cursor cursor' chars chars' ↔
      (dots = true ∨ ∀ char ∈ chars.take 11, char ≠ 0x2e) ∧
      (SameLetters chars chars' ∨ folded (stem chars) ≠ folded (stem chars') ∨
        folded (extension chars) ≠ folded (extension chars')) := by
  have keys : soughtName path cursor = soughtName path' cursor' ↔
      folded (stem chars) = folded (stem chars') ∧ folded (extension chars) = folded (extension chars') := by
    rw [named.soughtName, named'.soughtName, Option.some_inj, encoding_same_iff]
  constructor
  · rintro ⟨stored, distinct⟩
    refine ⟨(storedName_eq_iff named dots).mp stored, ?_⟩
    by_cases same : soughtName path cursor = soughtName path' cursor'
    · exact Or.inl (distinct same)
    · exact Or.inr (not_and_or.mp (mt keys.mpr same))
  · rintro ⟨stored, apart⟩
    refine ⟨(storedName_eq_iff named dots).mpr stored, fun same => ?_⟩
    obtain letters | differ := apart
    · exact letters
    · exact absurd (keys.mp same) (not_and_or.mpr differ)

theorem dotBehind_named {chars : List (BitVec 8)} (plain : ∀ char ∈ chars, char ≠ 0 ∧ char ≠ 0x2f)
    (starts : ∀ first ∈ chars.head?, first ≠ 0x20 ∧ first ≠ 0x2e) (few : chars.length < 12) :
    ShortNamed (dotBehind chars) 0 chars := by
  have reads := (dotBehind_reads chars).1
  have short := List.length_filter_le (· != 0x2e) chars
  refine ⟨reads, plain, starts, by omega, ?_⟩
  rw [isLongFilename_reads reads (fun char member => (plain char member).1) (by omega) (Nat.zero_le 11),
    decide_eq_false (by omega)]

theorem letters_named : ShortNamed (dotBehind [0x61, 0x2e, 0x62]) 0 [0x61, 0x2e, 0x62] ∧
    ShortNamed (dotBehind [0x61, 0x62]) 0 [0x61, 0x62] ∧
    ShortNamed (dotBehind [0x61, 0x62, 0x2e]) 0 [0x61, 0x62, 0x2e] := by
  refine ⟨dotBehind_named ?_ ?_ ?_, dotBehind_named ?_ ?_ ?_, dotBehind_named ?_ ?_ ?_⟩ <;> decide

theorem letters_agree : Agrees true (dotBehind [0x61, 0x2e, 0x62]) (dotBehind [0x61, 0x62]) 0 0
    [0x61, 0x2e, 0x62] [0x61, 0x62] := by
  refine (short_names_agree_iff letters_named.1 letters_named.2.1 true).mpr ⟨Or.inl rfl, Or.inr (Or.inl ?_)⟩
  decide

/-- The directory "a.b" is stored as "A.B" and looked for as "A" with the
extension "B", and "ab." is looked for as "ab" is. -/
theorem kept_dot_not_found :
    storedName false (dotBehind [0x61, 0x2e, 0x62]) 0 ≠ soughtName (dotBehind [0x61, 0x2e, 0x62]) 0 ∧
    soughtName (dotBehind [0x61, 0x62, 0x2e]) 0 = soughtName (dotBehind [0x61, 0x62]) 0 ∧
    ¬ SameLetters [0x61, 0x62, 0x2e] [0x61, 0x62] := by
  obtain ⟨dotted, plain, trailing⟩ := letters_named
  refine ⟨?_, ?_, ?_⟩
  · rw [Ne, storedName_eq_iff dotted]
    decide
  · rw [trailing.soughtName, plain.soughtName, Option.some_inj, encoding_same_iff]
    decide
  · unfold SameLetters
    decide

end MandelbrotOS.FatShortNames
