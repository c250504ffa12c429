import Mathlib.Data.BitVec
import Mathlib.Tactic.IntervalCases
import Mathlib.Tactic.Ring

/-! Numbers as text and back: `__int_str` of `printf`, which the kernel and its C library share,
the kernel's `__uint_str`, and the library's `atoi` and `atoll`. A buffer is the text up to its
`NUL`; `vprintf` hands it over zeroed, as the loops that append to it rely on. -/
namespace MandelbrotOS.Printf

/-! ### The code -/

/-- The values of `base`; 17 stands for 16 with small letters. -/
inductive Base where
  | octal
  | decimal
  | hex
  | smallHex

def Base.radix : Base → Nat
  | octal => 8
  | decimal => 10
  | hex | smallHex => 16

/-- The table `digit`. -/
def Base.digit : Base → Nat → BitVec 8
  | smallHex, d => BitVec.ofNat 8 (if d < 10 then 0x30 + d else 0x61 + (d - 10))
  | _, d => BitVec.ofNat 8 (if d < 10 then 0x30 + d else 0x41 + (d - 10))

theorem Base.radix_large (base : Base) : 2 ≤ base.radix := by cases base <;> decide

theorem div_radix_lt {base : Base} (more : i / base.radix ≠ 0) : i / base.radix < i :=
  Nat.div_lt_self (Nat.pos_of_ne_zero fun zero => more (by rw [zero, Nat.zero_div])) base.radix_large

/-- The loop over `shifter`: how far `p` goes for the digits. -/
def shiftLoop (base : Base) (shifter p : Nat) : Nat :=
  if shifter / base.radix = 0 then p + 1 else shiftLoop base (shifter / base.radix) (p + 1)
termination_by shifter
decreasing_by exact div_radix_lt ‹_›

/-- The loop that stores the digits from the last one on, in front of `text`. -/
def digitLoop (base : Base) (i : Nat) (text : List (BitVec 8)) : List (BitVec 8) :=
  let text := base.digit (i % base.radix) :: text
  if i / base.radix = 0 then text else digitLoop base (i / base.radix) text
termination_by i
decreasing_by exact div_radix_lt ‹_›

/-- The padding; there are 256 bytes for the text, its padding and the `NUL`. -/
def pad (text : List (BitVec 8)) (paddingNo : Int) (justify zeroPad : Bool) : Option (List (BitVec 8)) :=
  let padding := List.replicate (paddingNo - text.length).toNat (if zeroPad then 0x30#8 else 0x20#8)
  if text.length + padding.length < 256 then some (if justify then text ++ padding else padding ++ text)
  else none

def uintStr (i : Nat) (base : Base) (plusSign spaceSign : Bool) (paddingNo : Int) (justify zeroPad : Bool) :
    Option (List (BitVec 8)) :=
  let sign := if plusSign then [0x2b#8] else if spaceSign then [0x20#8] else []
  pad (sign ++ digitLoop base i []) paddingNo justify zeroPad

/-- The least `intmax_t` is its own negative, and its digits are looked up in front of the table. -/
def intStr (i : Int) (base : Base) (plusSign spaceSign : Bool) (paddingNo : Int) (justify zeroPad : Bool) :
    Option (List (BitVec 8)) :=
  if i = -2 ^ 63 then none
  else if i < 0 then pad (0x2d#8 :: digitLoop base (-i).toNat []) paddingNo justify zeroPad
  else uintStr i.toNat base plusSign spaceSign paddingNo justify zeroPad

/-- One turn of the loop of `atoi` and its kin. -/
def atoTurn (k : BitVec w) (p : BitVec 8) : BitVec w := (k <<< 3) + (k <<< 1) + p.signExtend w - 48

def atoi (text : List (BitVec 8)) : BitVec 32 := text.foldl atoTurn 0
def atoll (text : List (BitVec 8)) : BitVec 64 := text.foldl atoTurn 0

/-! ### The digits -/

theorem length_digitLoop (base : Base) (i : Nat) (text : List (BitVec 8)) :
    (digitLoop base i text).length = shiftLoop base i text.length := by
  fun_induction digitLoop base i text with
  | case1 i text text' done =>
    rw [shiftLoop, if_pos done]
    rfl
  | case2 i text text' more ih =>
    rw [ih, shiftLoop.eq_def base i, if_neg more]
    rfl

theorem shiftLeft_eq_mul (k : BitVec w) (n : Nat) : k <<< n = k * BitVec.ofNat w (2 ^ n) := by
  apply BitVec.eq_of_toNat_eq
  rw [BitVec.toNat_shiftLeft, BitVec.toNat_mul, BitVec.toNat_ofNat, Nat.mul_mod_mod, Nat.shiftLeft_eq]

theorem atoTurn_eq (k : BitVec w) (p : BitVec 8) (low : p.toNat < 128) :
    atoTurn k p = k * 10 + BitVec.ofNat w p.toNat - 48 := by
  have extended : p.signExtend w = BitVec.ofNat w p.toNat := by
    rw [BitVec.signExtend_eq_setWidth_of_msb_false (BitVec.msb_eq_false_iff_two_mul_lt.mpr (by omega))]
    exact BitVec.eq_of_toNat_eq (by simp)
  rw [atoTurn, extended, shiftLeft_eq_mul, shiftLeft_eq_mul]
  have eight : BitVec.ofNat w (2 ^ 3) = 8 := rfl
  have two : BitVec.ofNat w (2 ^ 1) = 2 := rfl
  rw [eight, two]
  ring

theorem atoTurn_digit (k : BitVec w) (small : d < 10) :
    atoTurn k (Base.decimal.digit d) = k * 10 + BitVec.ofNat w d := by
  have digit : (Base.decimal.digit d).toNat = d + 48 := by
    interval_cases d <;> rfl
  rw [atoTurn_eq k _ (by omega), digit, BitVec.ofNat_add]
  exact add_sub_assoc (k * 10) _ _ ▸ congrArg (k * 10 + ·) (add_sub_cancel_right _ _)

theorem digitLoop_spec (i : Nat) (text : List (BitVec 8)) :
    ∃ count, (digitLoop .decimal i text).length = text.length + count ∧ 0 < count ∧ i < 10 ^ count ∧
      (count = 1 ∨ 10 ^ (count - 1) ≤ i) ∧ ∀ (w : Nat) (k : BitVec w),
        (digitLoop .decimal i text).foldl atoTurn k = text.foldl atoTurn (k * 10 ^ count + BitVec.ofNat w i) := by
  fun_induction digitLoop .decimal i text with
  | case1 i text text' done =>
    simp only [Base.radix, text'] at done ⊢
    refine ⟨1, rfl, Nat.one_pos, by omega, Or.inl rfl, fun w k => ?_⟩
    rw [List.foldl_cons, atoTurn_digit k (Nat.mod_lt _ (by decide)), pow_one, Nat.mod_eq_of_lt (by omega)]
  | case2 i text text' more ih =>
    simp only [Base.radix, text'] at more ih ⊢
    obtain ⟨count, length, some, upper, lower, reads⟩ := ih
    refine ⟨count + 1, ?_, Nat.succ_pos _, ?_, Or.inr ?_, fun w k => ?_⟩
    · rw [length, List.length_cons]
      omega
    · rw [pow_succ]
      omega
    · rw [Nat.add_sub_cancel]
      rcases lower with rfl | lower
      · omega
      · obtain ⟨count, rfl⟩ := Nat.exists_eq_succ_of_ne_zero some.ne'
        rw [Nat.succ_eq_add_one, Nat.add_sub_cancel] at lower
        rw [Nat.succ_eq_add_one, pow_succ]
        omega
    · rw [reads, List.foldl_cons, atoTurn_digit _ (Nat.mod_lt _ (by decide))]
      congr 1
      have split : BitVec.ofNat w i = BitVec.ofNat w (i / 10) * 10 + BitVec.ofNat w (i % 10) := by
        rw [show (10 : BitVec w) = BitVec.ofNat w 10 from rfl, ← BitVec.ofNat_mul, ← BitVec.ofNat_add,
          Nat.div_add_mod']
      rw [split]
      ring

/-! ### Reading numbers back -/

theorem foldl_zeros (count : Nat) (k : BitVec w) :
    (List.replicate count 0x30#8).foldl atoTurn k = k * 10 ^ count := by
  induction count generalizing k with
  | zero => simp
  | succ count ih =>
    have digit : atoTurn k 0x30#8 = k * 10 := by
      rw [show 0x30#8 = Base.decimal.digit 0 from rfl, atoTurn_digit k (by decide)]
      exact add_zero _
    rw [List.replicate_succ, List.foldl_cons, digit, ih]
    ring

theorem pad_zero (short : text.length < 256) : pad text 0 justify zeroPad = some text := by
  simp [pad, short]

theorem few_digits (some : 0 < most) (small : i < 10 ^ most) (lower : count = 1 ∨ 10 ^ (count - 1) ≤ i) :
    count ≤ most := by
  rcases lower with rfl | lower
  · exact some
  · have := (Nat.pow_lt_pow_iff_right (by decide : 1 < 10)).mp (Nat.lt_of_le_of_lt lower small)
    omega

/-- **Zeros in front of a number are none of it, zeros behind it are**: `%0*lld` is read back, and
with `-` a power of ten comes in. -/
theorem atoll_intStr_padded (i : Nat) (small : i < 2 ^ 63) (width : Int) (narrow : width < 256) (justify : Bool) :
    ∃ text, intStr i .decimal false false width justify true = some text ∧
      atoll text = BitVec.ofNat 64 (if justify then i * 10 ^ (width - shiftLoop .decimal i 0).toNat else i) := by
  obtain ⟨count, length, -, -, lower, reads⟩ := digitLoop_spec i []
  have few : count ≤ 19 := few_digits (by decide) (by omega) lower
  have digits := length_digitLoop .decimal i []
  rw [List.length_nil] at digits length
  have text : intStr i .decimal false false width justify true =
      some (if justify then digitLoop .decimal i [] ++ List.replicate (width - shiftLoop .decimal i 0).toNat 0x30#8
        else List.replicate (width - shiftLoop .decimal i 0).toNat 0x30#8 ++ digitLoop .decimal i []) := by
    rw [intStr, if_neg (by omega), if_neg (by omega)]
    simp only [uintStr, pad, Bool.false_eq_true, if_false, List.nil_append, if_true, List.length_replicate, digits,
      Int.toNat_natCast]
    rw [if_pos (by omega)]
  refine ⟨_, text, ?_⟩
  cases justify with
  | false =>
    simp only [atoll, Bool.false_eq_true, if_false, List.foldl_append, foldl_zeros, reads, List.foldl_nil]
    rw [zero_mul, zero_mul, zero_add]
  | true =>
    simp only [atoll, if_true, List.foldl_append, foldl_zeros, reads, List.foldl_nil]
    rw [zero_mul, zero_add, BitVec.ofNat_mul, ← BitVec.natCast_eq_ofNat 64 (10 ^ _), Nat.cast_pow]
    rfl

theorem fortyTwo_padded : ∃ text, intStr 42 .decimal false false 5 false true = some text ∧ atoll text = 42 :=
  atoll_intStr_padded 42 (by decide) 5 (by decide) false

theorem intStr_negative (justify zeroPad : Bool) (i : Int) (negative : i < 0) (low : -2 ^ 63 < i) :
    ∃ count text, 0 < count ∧ count ≤ 19 ∧ -i < 10 ^ count ∧ (count = 1 ∨ 10 ^ (count - 1) ≤ -i) ∧
      intStr i .decimal false false 0 justify zeroPad = some text ∧
      ∀ w, text.foldl atoTurn (0 : BitVec w) = BitVec.ofInt w (-i - 3 * 10 ^ count) := by
  obtain ⟨n, rfl⟩ := Int.exists_eq_neg_ofNat (Int.le_of_lt negative)
  obtain ⟨count, length, some, upper, lower, reads⟩ := digitLoop_spec n []
  have few : count ≤ 19 := few_digits (by decide) (by omega) lower
  refine ⟨count, 0x2d#8 :: digitLoop .decimal n [], some, few, ?_, ?_, ?_, fun w => ?_⟩
  · rw [neg_neg]
    exact_mod_cast upper
  · rw [neg_neg]
    exact_mod_cast lower
  · rw [intStr, if_neg (by omega), if_pos negative, neg_neg, Int.toNat_natCast]
    exact pad_zero (by rw [List.length_cons, length, List.length_nil]; omega)
  · rw [List.foldl_cons, reads, atoTurn_eq _ _ (by decide), List.foldl_nil]
    have sign : (0 : BitVec w) * 10 + BitVec.ofNat w (0x2d#8).toNat - 48 = -3 := by
      rw [show BitVec.ofNat w (0x2d#8).toNat = (45 : BitVec w) from rfl]
      ring
    rw [sign, neg_neg, ← BitVec.natCast_eq_ofNat, show BitVec.ofInt w _ = Int.cast _ from rfl]
    push_cast
    ring

theorem intStr_natural (justify zeroPad : Bool) (i : Int) (natural : 0 ≤ i) (high : i < 2 ^ 63) :
    ∃ text, intStr i .decimal false false 0 justify zeroPad = some text ∧
      ∀ w, text.foldl atoTurn (0 : BitVec w) = BitVec.ofInt w i := by
  obtain ⟨n, rfl⟩ := Int.eq_ofNat_of_zero_le natural
  obtain ⟨count, length, -, -, lower, reads⟩ := digitLoop_spec n []
  have few : count ≤ 19 := few_digits (by decide) (by omega) lower
  refine ⟨digitLoop .decimal n [], ?_, fun w => ?_⟩
  · rw [intStr, if_neg (by omega), if_neg (by omega), uintStr, Int.toNat_natCast]
    exact pad_zero (by simp only [Bool.false_eq_true, if_false, List.nil_append, length, List.length_nil]; omega)
  · rw [reads, List.foldl_nil, zero_mul, zero_add, BitVec.ofInt_natCast]

/-- **`%d` and `%lld` are read back** by `atoi` and `atoll` where there is no sign, and below 0
for one number each: elsewhere the `-` is taken for a digit. -/
theorem reads_back_iff_natural (justify zeroPad : Bool) :
    (∀ i : Int, -2 ^ 31 ≤ i → i < 2 ^ 31 →
      ((intStr i .decimal false false 0 justify zeroPad).map atoi = some (BitVec.ofInt 32 i) ↔
        0 ≤ i ∨ i = -2115098112)) ∧
    ∀ i : Int, -2 ^ 63 < i → i < 2 ^ 63 →
      ((intStr i .decimal false false 0 justify zeroPad).map atoll = some (BitVec.ofInt 64 i) ↔
        0 ≤ i ∨ i = -5776627963145224192) := by
  constructor
  all_goals
    intro i low high
    by_cases natural : 0 ≤ i
    · obtain ⟨text, made, reads⟩ := intStr_natural justify zeroPad i natural (by omega)
      simp only [made, Option.map_some, atoi, atoll, reads, natural, true_or]
    · obtain ⟨count, text, some, few, upper, lower, made, reads⟩ :=
        intStr_negative justify zeroPad i (by omega) (by omega)
      simp only [made, Option.map_some, atoi, atoll, reads, Option.some.injEq, ← BitVec.toNat_inj, BitVec.toNat_ofInt]
      -- twice the number would have to be the weight of the sign, up to a multiple of the modulus
      interval_cases count <;> omega

theorem minus_one_misread : (intStr (-1) .decimal false false 0 false false).map atoi ≠ some (BitVec.ofInt 32 (-1)) :=
  fun read => absurd (((reads_back_iff_natural false false).1 (-1) (by decide) (by decide)).mp read) (by decide)

end MandelbrotOS.Printf
