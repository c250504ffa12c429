import MandelbrotOS.FatSlots

/-! Long names on a FAT volume, as `fat_create` and `fat_mkdir` store them and
`fat_find` reads them. To come back to the start of a name both take the cursor
back by the eleven bytes of the short name, which is by more or less than the
characters that were taken when there is a dot; they do so alike, so that a name
is found again when the cursor is not before its start. -/
namespace MandelbrotOS.FatLongNames
open ByteMemory Fat FatAlloc FatChains FatCreate FatFiles FatLookup FatNames FatPaths FatSlots Runs Walks

/-! ### How far the loops go -/

theorem encoding_full (dots tilde : Bool) {chars : List (BitVec 8)} (within : pos ≤ 11)
    (enough : 11 ≤ pos + (chars.filter (· != 0x2e)).length) (name : Memory) :
    (encoding dots tilde chars pos name).2.1 = 11 := by
  induction chars generalizing pos name with
  | nil =>
    rw [List.filter_nil, List.length_nil] at enough
    exact Nat.le_antisymm within enough
  | cons char rest ih =>
    rw [encoding]
    grind

theorem encoding_late (tilde : Bool) {chars : List (BitVec 8)}
    (late : ∀ char ∈ chars.take (7 - pos), char ≠ 0x2e) (name : Memory) :
    (encoding true tilde chars pos name).2.1 ≤ pos + (encoding true tilde chars pos name).1 := by
  induction chars generalizing pos name with
  | nil => exact Nat.le_refl pos
  | cons char rest ih =>
    rw [encoding]
    split
    · exact Nat.le_refl pos
    · dsimp only
      split
      · rename_i dot
        have high : 7 ≤ pos := by
          by_contra low
          rw [show 7 - pos = (6 - pos) + 1 by omega, List.take_succ_cons] at late
          exact late char List.mem_cons_self dot.2
        have onward := @ih (if pos < 8 then 8 else pos) (by
          rw [show 7 - (if pos < 8 then 8 else pos) = 0 by split <;> omega]
          exact fun _ member => absurd member List.not_mem_nil)
        grind
      · have onward := @ih (pos + 1) (by
          intro c member
          refine late c ?_
          by_cases low : pos < 7
          · rw [show 7 - pos = (7 - (pos + 1)) + 1 by omega, List.take_succ_cons]
            exact List.mem_cons_of_mem _ member
          · rw [show 7 - (pos + 1) = 0 by omega] at member
            cases member)
        refine Nat.le_trans (onward _) ?_
        omega

theorem encoding_tilde (dots tilde tilde' : Bool) (chars : List (BitVec 8)) (pos : Nat) (name name' : Memory) :
    (encoding dots tilde chars pos name).1 = (encoding dots tilde' chars pos name').1 ∧
      (encoding dots tilde chars pos name).2.1 = (encoding dots tilde' chars pos name').2.1 := by
  induction chars generalizing pos name name' with
  | nil => exact ⟨rfl, rfl⟩
  | cons char rest ih =>
    rw [encoding, encoding]
    grind

theorem shortName_bytes (bytes : ∀ k < n, path (cursor + k) ≠ 0 ∧ path (cursor + k) ≠ 0x2f ∧
    path (cursor + k) ≠ 0x2e) (full : pos + n = 11) (enough : n < turns) (name : Memory) :
    ∃ stop made, shortName path turns cursor pos name = some (stop, 11, made) ∧
      (∀ k < pos, made k = name k) ∧ ∀ k < n, made (pos + k) = upperCase (path (cursor + k)) := by
  induction n generalizing cursor pos turns name with
  | zero =>
    obtain ⟨turns, rfl⟩ : ∃ fewer, turns = fewer + 1 := ⟨turns - 1, by omega⟩
    obtain rfl : pos = 11 := full
    exact ⟨cursor, name, if_pos (Or.inr (Or.inl rfl)), fun _ _ => rfl, fun k few => absurd few (Nat.not_lt_zero k)⟩
  | succ n ih =>
    obtain ⟨turns, rfl⟩ : ∃ fewer, turns = fewer + 1 := ⟨turns - 1, by omega⟩
    obtain ⟨notEnd, notSlash, notDot⟩ := bytes 0 (Nat.succ_pos n)
    rw [show cursor + ((0 : Nat) : Int) = cursor from Int.add_zero cursor] at notEnd notSlash notDot
    have shift (k : Nat) : cursor + 1 + (k : Int) = cursor + ((k + 1 : Nat) : Int) := by
      push_cast
      omega
    have goesOn : ¬ (path cursor = 0 ∨ pos = 11 ∨ path cursor = 0x2f) := by
      grind
    have rest : ∀ k < n, path (cursor + 1 + (k : Int)) ≠ 0 ∧ path (cursor + 1 + (k : Int)) ≠ 0x2f ∧
        path (cursor + 1 + (k : Int)) ≠ 0x2e := fun k few => by
      rw [shift]
      exact bytes (k + 1) (Nat.succ_lt_succ few)
    obtain ⟨stop, made, ran, before, after⟩ := ih rest (show pos + 1 + n = 11 by omega)
      (Nat.lt_of_succ_lt_succ enough) (Function.update name pos (upperCase (path cursor)))
    refine ⟨stop, made, by rw [shortName, if_neg goesOn, if_neg notDot, ran], fun k low => ?_, fun k few => ?_⟩
    · rw [before k (by omega), Function.update_of_ne (by omega)]
    · cases k with
      | zero =>
        grind
      | succ k =>
        grind

theorem component_reads {chars : List (BitVec 8)}
    (bytes : ∀ k < chars.length, path (cursor + k) = chars.getD k 0)
    (stop : path (cursor + chars.length) = 0 ∨ path (cursor + chars.length) = 0x2f)
    (plain : ∀ char ∈ chars, char ≠ 0 ∧ char ≠ 0x2f) (fits : pos + chars.length < 256)
    (enough : chars.length < turns) (name : Memory) :
    ∃ stop made, component path turns cursor pos name = some (cursor + chars.length, stop, made) ∧
      (∀ k < pos, made k = name k) ∧ (∀ k < chars.length, made (pos + k) = chars.getD k 0) ∧
      made (pos + chars.length) = 0 ∧ ∀ k, pos + chars.length < k → made k = name k := by
  induction chars generalizing cursor pos turns name with
  | nil =>
    obtain ⟨turns, rfl⟩ : ∃ fewer, turns = fewer + 1 := ⟨turns - 1, by omega⟩
    rw [List.length_nil, show cursor + ((0 : Nat) : Int) = cursor from Int.add_zero cursor] at stop
    refine ⟨pos, Function.update name pos 0, ?_, fun k low => Function.update_of_ne (by omega) _ _,
      fun k few => absurd few (Nat.not_lt_zero k), Function.update_self _ _ _,
      fun k high => Function.update_of_ne (by rw [List.length_nil] at high; omega) _ _⟩
    rw [component, if_pos stop]
    simp
  | cons char rest ih =>
    obtain ⟨turns, rfl⟩ : ∃ fewer, turns = fewer + 1 := ⟨turns - 1, by omega⟩
    have here : path cursor = char := by
      grind
    have shift (k : Nat) : cursor + 1 + (k : Int) = cursor + ((k + 1 : Nat) : Int) := by
      push_cast
      omega
    obtain ⟨notEnd, notSlash⟩ := plain char List.mem_cons_self
    rw [List.length_cons] at fits
    have later : ∀ k < rest.length, path (cursor + 1 + k) = rest.getD k 0 := fun k few => by
      rw [shift, bytes (k + 1) (Nat.succ_lt_succ few), List.getD_cons_succ]
    obtain ⟨stop, made, ran, before, inside, zero, after⟩ := ih later (by rw [shift]; exact stop)
      (fun c member => plain c (List.mem_cons_of_mem _ member)) (show pos + 1 + rest.length < 256 by omega)
      (Nat.lt_of_succ_lt_succ enough) (Function.update name pos char)
    refine ⟨stop, made, ?_, fun k low => ?_, fun k few => ?_, ?_, fun k high => ?_⟩
    · rw [component, here, if_neg (by rintro (stop | slash); exacts [notEnd stop, notSlash slash]),
        Nat.mod_eq_of_lt (by omega), ran]
      congr 2
      rw [List.length_cons]
      push_cast
      omega
    · grind [Function.update_of_ne]
    · cases k with
      | zero => rw [Nat.add_zero, before pos (Nat.lt_succ_self pos), Function.update_self, List.getD_cons_zero]
      | succ k =>
        grind
    · rw [List.length_cons, ← zero, Nat.add_assoc, Nat.add_comm 1 rest.length]
    · rw [List.length_cons] at high
      grind [Function.update_of_ne]

/-- A text as it is compared: with a zero at its end and then `0xff`. -/
def padded (chars : List (BitVec 8)) (k : Nat) : BitVec 8 :=
  if k < chars.length then chars.getD k 0 else if k = chars.length then 0 else 0xff

theorem component_padded {chars : List (BitVec 8)}
    (bytes : ∀ k < chars.length, path (cursor + k) = chars.getD k 0)
    (stop : path (cursor + chars.length) = 0 ∨ path (cursor + chars.length) = 0x2f)
    (plain : ∀ char ∈ chars, char ≠ 0 ∧ char ≠ 0x2f) (fits : chars.length < 256) :
    ∃ stop made, component path (2 ^ 64) cursor 0 (fun _ => 0xff) = some (cursor + chars.length, stop, made) ∧
      ∀ k, made k = padded chars k := by
  obtain ⟨stop, made, ran, -, inside, zero, after⟩ := component_reads bytes stop plain
    (show 0 + chars.length < 256 by omega) (show chars.length < 2 ^ 64 by omega) fun _ => 0xff
  grind [padded]

theorem padded_injective {one other : List (BitVec 8)} (plain : ∀ char ∈ one, char ≠ 0)
    (plain' : ∀ char ∈ other, char ≠ 0) (within : one.length < n)
    (same : ∀ k < n, padded one k = padded other k) : one = other := by
  have nonzero {text : List (BitVec 8)} {k : Nat} (plain : ∀ char ∈ text, char ≠ 0) (low : k < text.length) :
      padded text k ≠ 0 := by
    simp_all [padded]
  have zero (text : List (BitVec 8)) : padded text text.length = 0 := by
    rw [padded, if_neg (Nat.lt_irrefl _), if_pos rfl]
  have length : one.length = other.length := by
    grind
  refine List.ext_getElem length fun k low low' => ?_
  grind [padded]

theorem reads_drop {chars : List (BitVec 8)} (reads : Reads path cursor chars) (inside : skipped ≤ chars.length) :
    Reads path (cursor + skipped) (chars.drop skipped) := by
  rw [← List.take_append_drop skipped chars] at reads
  grind [reads_append, List.length_take]

/-! ### The entries of a long name -/

/-- The number in the `i`th entry that is made. -/
def placement (len : Nat) : Nat → BitVec 8
  | 0 => 1
  | i + 1 => nextPlacement len (placement len i)

theorem placement_spec : ∀ len ≤ 20, ∀ i < len, placement len i ≠ 0 ∧ placement len i ≠ 0xe5 ∧
    (placement len i ≠ 0x1 ∧ placement len i ≠ 0x41 ↔ 0 < i) := by decide

/-- The entries of a long name are in a buffer, the first one last. -/
def Spelled (char : Nat → BitVec 16) (checksum : BitVec 8) (buffer : Memory) (index len : Nat) : Prop :=
  ∀ i < len, ∀ k < 32, entryOf buffer (index + len - 1 - i) k =
    longEntry char i (placement len i) checksum k

theorem longCount_spelled (spelled : Spelled char checksum buffer index len) (few : len ≤ 20)
    (inside : index + len ≤ size) (left : count + n + 1 = len) (enough : n < turns) :
    longCount buffer size index turns count = some len := by
  induction n generalizing count turns with
  | zero =>
    obtain ⟨turns, rfl⟩ : ∃ fewer, turns = fewer + 1 := ⟨turns - 1, by omega⟩
    have here : entryOf buffer (index + len - 1 - 0) 0 = placement len 0 := spelled 0 (by omega) 0 (by decide)
    rw [show index + len - 1 - 0 = index + count by omega] at here
    rw [longCount, if_pos (by omega), here]
    dsimp only
    rw [if_neg fun both => absurd ((placement_spec len few 0 (by omega)).2.2.mp both) (Nat.lt_irrefl 0),
      show count + 1 = len by omega]
  | succ n ih =>
    obtain ⟨turns, rfl⟩ : ∃ fewer, turns = fewer + 1 := ⟨turns - 1, by omega⟩
    have here : entryOf buffer (index + len - 1 - (n + 1)) 0 = placement len (n + 1) :=
      spelled (n + 1) (by omega) 0 (by decide)
    rw [show index + len - 1 - (n + 1) = index + count by omega] at here
    rw [longCount, if_pos (by omega), here]
    dsimp only
    rw [if_pos ((placement_spec len few (n + 1) (by omega)).2.2.mpr (Nat.succ_pos n)), ih (by omega) (by omega)]

theorem longEntry_char (char : Nat → BitVec 16) (i : Nat) (number checksum : BitVec 8) (inside : x < 13) :
    (if x < 5 then longEntry char i number checksum (1 + 2 * x)
      else if x < 11 then longEntry char i number checksum (14 + 2 * (x - 5))
      else longEntry char i number checksum (28 + 2 * (x - 11))) = (char (13 * i + x)).setWidth 8 := by
  have low (n : Nat) : byteOf (char n) 0 = (char n).setWidth 8 := rfl
  split
  · rw [longEntry, if_neg (by omega), if_pos (by omega), ← low]
    congr 2 <;> omega
  · split
    · rw [longEntry, if_neg (by omega), if_neg (by omega), if_neg (by omega), if_neg (by omega),
        if_neg (by omega), if_pos (by omega), ← low]
      congr 2 <;> omega
    · rw [longEntry, if_neg (by omega), if_neg (by omega), if_neg (by omega), if_neg (by omega),
        if_neg (by omega), if_neg (by omega), if_neg (by omega), ← low]
      congr 2 <;> omega

theorem longName_spelled (spelled : Spelled char checksum buffer index len) (inside : k < len * 13) :
    longName buffer index len k = (char k).setWidth 8 := by
  have part : k / 13 < len := by omega
  have here := spelled (k / 13) part
  have read := longEntry_char char (k / 13) (placement len (k / 13)) checksum (Nat.mod_lt k (by decide))
  grind [longName]

theorem longName_padded {chars : List (BitVec 8)} (reads : Reads path cursor chars)
    (spelled : Spelled (longChar path cursor chars.length) checksum buffer index len) (inside : k < len * 13) :
    longName buffer index len k = padded chars k := by
  grind [longName_spelled, longChar, padded, reads_getD]

theorem longName_same_iff {chars component : List (BitVec 8)} (reads : Reads path cursor chars)
    (spelled : Spelled (longChar path cursor chars.length) checksum buffer index len)
    (within : chars.length < len * 13) (plain : ∀ char ∈ chars, char ≠ 0)
    (plain' : ∀ char ∈ component, char ≠ 0) (copied : ∀ k, made k = padded component k) :
    sameBytes made (longName buffer index len) (len * 13) = true ↔ component = chars := by
  rw [sameBytes, List.all_eq_true]
  constructor
  · intro same
    refine (padded_injective plain plain' within fun k inside => ?_).symm
    grind [longName_padded]
  · rintro rfl k member
    rw [longName_padded reads spelled (List.mem_range.mp member), copied]
    exact beq_iff_eq.mpr rfl

theorem scan_skip (passed : ∀ j, i ≤ j → j < i + n → live (entryOf buffer j) = true ∧
    entryOf buffer j 11 ≠ 0xf ∧ sameBytes name (entryOf buffer j) 11 = false) (inside : i + n ≤ size)
    (turns : Nat) (cursor : Int) (pos : Nat) :
    scan path name buffer size (n + turns) i cursor pos = scan path name buffer size turns (i + n) cursor pos := by
  induction n generalizing i with
  | zero => rw [Nat.zero_add, Nat.add_zero]
  | succ n ih =>
    obtain ⟨alive, short, other⟩ := passed i (Nat.le_refl i) (by omega)
    rw [show n + 1 + turns = (n + turns) + 1 by omega, scan, if_pos (by omega)]
    grind

theorem scan_long {chars component : List (BitVec 8)} {pos : Nat} (reads : Reads path start chars)
    (nonzero : ∀ char ∈ chars, char ≠ 0)
    (spelled : Spelled (longChar path start chars.length) checksum buffer index len)
    (whole : chars.length < len * 13) (few : len ≤ 20) (inside : index + len ≤ size)
    (bytes : ∀ k < component.length, path' (cursor - pos + k) = component.getD k 0)
    (stop : path' (cursor - pos + component.length) = 0 ∨ path' (cursor - pos + component.length) = 0x2f)
    (plain : ∀ char ∈ component, char ≠ 0 ∧ char ≠ 0x2f) (fits : component.length < 256)
    (name : Memory) (turns : Nat) :
    longCount buffer size index size 0 = some len ∧ ∃ stop made,
      FatLookup.component path' (2 ^ 64) (cursor - pos) 0 (fun _ => 0xff) =
        some (cursor - pos + component.length, stop, made) ∧
      (sameBytes made (longName buffer index len) (len * 13) = true ↔ component = chars) ∧
      scan path' name buffer size (turns + 1) index cursor pos =
        if component = chars then
          if index + len < size then
            some (some ⟨index + len, entryOf buffer (index + len), cursor - pos + component.length⟩)
          else none
        else scan path' name buffer size turns (index + len) (cursor - pos + component.length) stop := by
  have here (k : Nat) (part : k < 32) : entryOf buffer index k =
      longEntry (longChar path start chars.length) (len - 1) (placement len (len - 1)) checksum k := by
    have last := spelled (len - 1) (by omega) k part
    rwa [show index + len - 1 - (len - 1) = index by omega] at last
  obtain ⟨notFree, notDeleted, -⟩ := placement_spec len few (len - 1) (by omega)
  have number : entryOf buffer index 0 = placement len (len - 1) := here 0 (by decide)
  have flags : entryOf buffer index 11 = 0xf := here 11 (by decide)
  have counted := longCount_spelled spelled few inside (show 0 + (len - 1) + 1 = len by omega)
    (show len - 1 < size by omega)
  obtain ⟨stop, made, ran, copied⟩ := component_padded bytes stop plain fits
  have same := longName_same_iff reads spelled whole nonzero (fun char member => (plain char member).1) copied
  refine ⟨counted, stop, made, ran, same, ?_⟩
  rw [scan, if_pos (by omega)]
  simp_all

theorem scan_spelled {chars : List (BitVec 8)} {pos : Nat} (passed : ∀ j < index, live (entryOf buffer j) = true ∧
    entryOf buffer j 11 ≠ 0xf ∧ sameBytes name (entryOf buffer j) 11 = false)
    (reads : Reads path start chars) (plain : ∀ char ∈ chars, char ≠ 0 ∧ char ≠ 0x2f) (fits : chars.length < 256)
    (spelled : Spelled (longChar path start chars.length) checksum buffer index len)
    (whole : chars.length < len * 13) (few : len ≤ 20) (inside : index + len < size)
    (back : cursor - (pos : Int) = start) :
    scan path name buffer size size 0 cursor pos =
      .some (.some ⟨index + len, entryOf buffer (index + len), start + chars.length⟩) := by
  have stops : path (start + chars.length) = 0 := by
    rw [reads_getD reads (Nat.le_refl _), List.getD_eq_default _ _ (Nat.le_refl _)]
  obtain ⟨turns, left⟩ : ∃ turns, size = index + (turns + 1) := ⟨size - index - 1, by omega⟩
  subst back
  obtain ⟨-, _, _, -, -, scanned⟩ := scan_long reads (fun char member => (plain char member).1) spelled whole few
    (Nat.le_of_lt inside) (fun k low => reads_getD reads (Nat.le_of_lt low)) (Or.inl stops) plain fits name turns
  have skipped : scan path name buffer size (index + (turns + 1)) 0 cursor pos =
      scan path name buffer size (turns + 1) (0 + index) cursor pos :=
    scan_skip (fun j _ high => passed j (by omega)) (by omega) (turns + 1) cursor pos
  simp_all

/-- **The entries that are made for a name are read as that name.** From the first
of them on as many are counted as were made, and a component is taken for the
name exactly when it is the same. -/
theorem long_name_decodes {name component : List (BitVec 8)} {pos : Nat}
    (plain : ∀ char ∈ name, char ≠ 0 ∧ char ≠ 0x2f) (short : name.length ≤ 246) (reads : Reads path start name)
    (stored : Spelled (longChar path start name.length) checksum buffer index (name.length / 13 + 1))
    (inside : index + (name.length / 13 + 1) ≤ size)
    (bytes : ∀ k < component.length, path' (cursor - pos + k) = component.getD k 0)
    (stop : path' (cursor - pos + component.length) = 0 ∨ path' (cursor - pos + component.length) = 0x2f)
    (plain' : ∀ char ∈ component, char ≠ 0 ∧ char ≠ 0x2f) (fits : component.length ≤ 255)
    (key : Memory) (turns : Nat) :
    longCount buffer size index size 0 = some (name.length / 13 + 1) ∧ ∃ stop made,
      FatLookup.component path' (2 ^ 64) (cursor - pos) 0 (fun _ => 0xff) =
        some (cursor - pos + component.length, stop, made) ∧
      (sameBytes made (longName buffer index (name.length / 13 + 1)) ((name.length / 13 + 1) * 13) = true ↔
        component = name) ∧
      scan path' key buffer size (turns + 1) index cursor pos =
        if component = name then
          if index + (name.length / 13 + 1) < size then
            some (some ⟨index + (name.length / 13 + 1), entryOf buffer (index + (name.length / 13 + 1)),
              cursor - pos + component.length⟩)
          else none
        else scan path' key buffer size turns (index + (name.length / 13 + 1))
          (cursor - pos + component.length) stop :=
  scan_long reads (fun char member => (plain char member).1) stored (by omega) (by omega) inside bytes stop plain'
    (by omega) key turns

/-- A buffer with the entries of a name and nothing else. -/
def spelledBuffer (char : Nat → BitVec 16) (checksum : BitVec 8) (len : Nat) : Memory := fun adr =>
  longEntry char (len - 1 - adr / 32) (placement len (len - 1 - adr / 32)) checksum (adr % 32)

theorem spelledBuffer_spelled (char : Nat → BitVec 16) (checksum : BitVec 8) (len : Nat) :
    Spelled char checksum (spelledBuffer char checksum len) 0 len := by
  intro i few k part
  grind [entryOf, spelledBuffer]

def thirteenLetters : List (BitVec 8) := List.replicate 13 0x61

theorem thirteen_characters_decoded :
    ∃ stop made, FatLookup.component (dotBehind thirteenLetters) (2 ^ 64) (0 - (0 : Nat)) 0 (fun _ => 0xff) =
        some ((0 : Int) - (0 : Nat) + thirteenLetters.length, stop, made) ∧
      sameBytes made (longName (spelledBuffer (longChar (dotBehind thirteenLetters) 0 13) 0 2) 0 2) 26 = true := by
  have plain : ∀ char ∈ thirteenLetters, char ≠ 0 ∧ char ≠ 0x2f := by decide
  have reads : Reads (dotBehind thirteenLetters) 0 thirteenLetters := (dotBehind_reads thirteenLetters).1
  have bytes : ∀ k < thirteenLetters.length,
      dotBehind thirteenLetters (0 - (0 : Nat) + k) = thirteenLetters.getD k 0 := by decide
  have stop : dotBehind thirteenLetters (0 - (0 : Nat) + thirteenLetters.length) = 0 := by decide
  have stored : Spelled (longChar (dotBehind thirteenLetters) 0 thirteenLetters.length) 0
      (spelledBuffer (longChar (dotBehind thirteenLetters) 0 13) 0 2) 0 (thirteenLetters.length / 13 + 1) := by
    rw [show thirteenLetters.length = 13 from rfl]
    exact spelledBuffer_spelled _ 0 2
  have inside : 0 + (thirteenLetters.length / 13 + 1) ≤ 2 := by decide
  obtain ⟨-, stop, made, copied, same, -⟩ := long_name_decodes plain (by decide) reads stored inside bytes
    (Or.inl stop) plain (by decide) (fun _ => 0x20) 0
  rw [show thirteenLetters.length / 13 + 1 = 2 by decide] at same
  exact ⟨stop, made, copied, same.mpr rfl⟩

/-! ### Storing a long name -/

section
variable {v w : Volume} {directories : List Nat} {depth : Nat → Nat} {parent cluster index len : Nat}
  {clusters : List Nat} {image : Image} {parents : List Component} {name : FileName} {path stale : Path}

/-- A volume with another low byte in the table at a cluster. -/
def relinked (v : Volume) (x : Nat) (byte : BitVec 8) : Volume :=
  { v with disk := Function.update v.disk (entryAddress v.boot x) byte }

theorem relinked_boot (v : Volume) (x : Nat) (byte : BitVec 8) : (relinked v x byte).boot = v.boot := rfl

theorem slot_relinked (aside : Aside v.boot clusters x) (few : i < slotCount v.boot clusters) (part : k < 32)
    (byte : BitVec 8) : slot (relinked v x byte) clusters i k = slot v clusters i k := by
  obtain ⟨y, member, low, high⟩ := slot_in_cluster few part
  have apart := aside y member
  refine Function.update_of_ne ?_ _ _
  rw [relinked_boot]
  omega

theorem link_relinked (small : x < 2 ^ 28) (small' : y < 2 ^ 28) (other : y ≠ x) (byte : BitVec 8) :
    fatGetNextCluster (relinked v x byte).boot (relinked v x byte).disk y =
      fatGetNextCluster v.boot v.disk y := by
  have same : relinked v x byte = { v with disk := fatChangeFatValue v.boot v.disk x byte.toNat } := by
    simp [relinked, fatChangeFatValue]
  rw [same]
  grind [fatGetNextCluster_change_other]

theorem search_relinked (spot : Spot v directories depth parent clusters cluster)
    (vacant : Vacant v clusters index) (apart : index ∉ clusters) (byte : BitVec 8) :
    fatGetFreeDirEntry (relinked v index byte) parent = some index := by
  have bound := vacant.bound spot
  have small := spot.sound.proper.table
  have size := spot.sound.sizes parent spot.member clusters spot.walked
  have inside := vacant.inside
  have valid := spot.valid.1
  have walked : chain (relinked v index byte) parent = some clusters := by
    refine walk_congr spot.walked fun x member => ?_
    have there := (spot.sound.taken parent spot.member clusters spot.walked x member).1
    grind [link_relinked]
  have same (j : Nat) (few : j < slotCount v.boot clusters) :
      live (slot (relinked v index byte) clusters j) = live (slot v clusters j) :=
    live_congr fun k part => slot_relinked
      (aside_of_table spot.sound.tables small (walk_live spot.walked) bound) few part byte
  refine fatGetFreeDirEntry_slot (by rwa [orRoot, if_neg (by omega)]) inside (by omega)
    ((same index inside).trans vacant.free) fun j earlier => ?_
  exact (same j (Nat.lt_trans earlier inside)).trans (vacant.first j earlier)

theorem relinked_low (low : Low v x) : relinked v x 0xf8 = v := marked_low low

theorem turn_relinked (found : fatGetFreeDirEntry (relinked v index byte) parent = some index) :
    entryTurn parent ⟨relinked v index byte, index, index⟩ =
      some ⟨relinked v index (if index = 0 then byte else BitVec.ofNat 8 index), index, index⟩ := by
  rw [entryTurn, found]
  dsimp only [bind_returned]
  rw [ite_self]
  by_cases zero : index = 0
  · rw [if_neg (not_not.mpr zero), if_pos zero]
  · simp_all [fatChangeFatValue, relinked]

theorem fatGetFreeDirEntryChain_many (spot : Spot v directories depth parent clusters cluster)
    (vacant : Vacant v clusters index) (low : Low v index)
    (steady : len ≤ 2 ∨ index = 0 ∨ index ∉ clusters) (some : 0 < len) :
    fatGetFreeDirEntryChain v parent len = .some (index, v) := by
  have first := (search_of_chain (vacant.search spot)).1
  have turns (n : Nat) (few : n < len) : ∃ byte, (n = 0 ∨ index = 0 → byte = 0xf8) ∧
      (List.range (n + 1)).foldlM (fun s _ => entryTurn parent s) (⟨v, 0, 0⟩ : Chaining) =
        .some ⟨relinked v index byte, index, index⟩ := by
    induction n with
    | zero =>
      refine ⟨0xf8, fun _ => rfl, ?_⟩
      rw [relinked_low low, show List.range (0 + 1) = [0] from rfl, List.foldlM_cons, entryTurn, first]
      rfl
    | succ n ih =>
      obtain ⟨byte, known, ran⟩ := ih (by omega)
      have search : fatGetFreeDirEntry (relinked v index byte) parent = .some index := by
        grind [relinked_low, search_relinked]
      refine ⟨if index = 0 then byte else BitVec.ofNat 8 index, fun last => ?_, ?_⟩
      · simp_all
      · rw [List.range_succ, List.foldlM_append, ran, bind_returned, List.foldlM_cons, turn_relinked search]
        rfl
  obtain ⟨byte, -, ran⟩ := turns (len - 1) (by omega)
  rw [show len - 1 + 1 = len by omega] at ran
  rw [fatGetFreeDirEntryChain, ran]
  have ended : fatChangeFatValue v.boot (relinked v index byte).disk index 0xffffff8 = v.disk := by
    rw [fatChangeFatValue, relinked]
    dsimp only
    rw [Function.update_idem]
    exact congrArg Volume.disk (marked_low low)
  dsimp only [bind_returned]
  rw [ended]
  rfl

theorem storeLongName_run (shape : Volume → (Nat → DirEntry) → Prop) {listing : Nat → DirEntry}
    (step : ∀ w listing i entry, index ≤ i → i < index + len → shape w listing →
      ∃ w', fatSetDirEntry w parent i entry = some w' ∧ shape w' (Function.update listing i entry))
    (start : shape w listing) (char : Nat → BitVec 16) (checksum : BitVec 8) :
    ∃ w' listing', storeLongName char checksum parent index len w = some w' ∧ shape w' listing' ∧
      (∀ i < len, listing' (index + len - 1 - i) = longEntry char i (placement len i) checksum) ∧
      ∀ j, j < index ∨ index + len ≤ j → listing' j = listing j := by
  have steps (n : Nat) (few : n ≤ len) : ∃ w' listing',
      (List.range n).foldlM (fun (s : Volume × BitVec 8) i => do
        let v ← fatSetDirEntry s.1 parent (index + len - 1 - i) (longEntry char i s.2 checksum)
        some (v, nextPlacement len s.2)) (w, 1) = some (w', placement len n) ∧ shape w' listing' ∧
      (∀ i < n, listing' (index + len - 1 - i) = longEntry char i (placement len i) checksum) ∧
      ∀ j, j < index + len - n ∨ index + len ≤ j → listing' j = listing j := by
    induction n with
    | zero => exact ⟨w, listing, rfl, start, fun i none => absurd none (Nat.not_lt_zero i), fun _ _ => rfl⟩
    | succ n ih =>
      obtain ⟨w₁, listing₁, ran, shaped, made, others⟩ := ih (by omega)
      obtain ⟨w₂, set, shaped'⟩ := step w₁ listing₁ (index + len - 1 - n)
        (longEntry char n (placement len n) checksum) (by omega) (by omega) shaped
      grind [placement, List.range_succ, List.foldlM_append, bind_returned]
  obtain ⟨w', listing', ran, shaped, made, others⟩ := steps len (Nat.le_refl len)
  grind [storeLongName]

theorem store_spelled (altered : Altered v w clusters cluster image)
    (spot : Spot v directories depth parent clusters cluster) (room : index + len ≤ slotCount v.boot clusters)
    (char : Nat → BitVec 16) (checksum : BitVec 8) :
    ∃ w' listing, storeLongName char checksum parent index len w = some w' ∧
      Altered v w' clusters cluster { image with listing := listing } ∧
      (∀ i < len, listing (index + len - 1 - i) = longEntry char i (placement len i) checksum) ∧
      ∀ j, j < index ∨ index + len ≤ j → listing j = image.listing j := by
  refine storeLongName_run (fun w listing => Altered v w clusters cluster { image with listing := listing })
    (fun w listing i entry _ high altered => ?_) altered char checksum
  obtain ⟨set, altered⟩ := altered.store_listing spot (show i < _ by omega) entry
  exact ⟨_, set, altered⟩

/-! ### A long name and its short one -/

/-- The short name that goes with a long one. -/
def shortAlias (name : FileName) : Memory := (encoding true true name.chars 0 blank).2.2

/-- The characters at the start that the cursor is not taken back over. -/
def skipped (name : FileName) : Nat := (encoding true false name.chars 0 blank).1 - 11

/-- What is stored of a long name. -/
def longText (name : FileName) : List (BitVec 8) := name.chars.drop (skipped name)

/-- The number of entries it takes. -/
def parts (name : FileName) : Nat := (longText name).length / 13 + 1

theorem parts_le (name : FileName) : parts name ≤ 20 := by
  have fits := name.fits
  grind [longText, parts]

theorem alias_plain (name : FileName) (k : Nat) : shortAlias name k ≠ 0 ∧ shortAlias name k ≠ 0x2f ∧
    shortAlias name k ≠ 0x2e ∧ upperCase (shortAlias name k) = shortAlias name k := by
  have plain : ∀ char : BitVec 8, char ≠ 0 → char ≠ 0x2f → char ≠ 0x2e → upperCase char ≠ 0 ∧
      upperCase char ≠ 0x2f ∧ upperCase char ≠ 0x2e ∧ upperCase (upperCase char) = upperCase char := by decide
  refine encoding_all (p := fun byte => byte ≠ 0 ∧ byte ≠ 0x2f ∧ byte ≠ 0x2e ∧ upperCase byte = byte)
    (by decide) name.chars (fun char member notDot => ?_) blank (fun _ => by rw [blank]; decide) k
  obtain ⟨some, noSlash⟩ := name.plain char member
  exact plain char some noSlash (notDot rfl)

theorem alias_first (name : FileName) : shortAlias name 0 ≠ 0x20 := by
  obtain ⟨first, rest, shape, notSpace, notDot⟩ := name.starts
  have space : ∀ char : BitVec 8, upperCase char = 0x20 → char = 0x20 := by decide
  rw [shortAlias, shape, encoding_first true true rest notDot]
  exact fun blank => notSpace (space first blank)

/-- An entry that has the short name. -/
def Aliased (v : Volume) (clusters : List Nat) (name : FileName) : Prop :=
  ∃ i < slotCount v.boot clusters, live (slot v clusters i) = true ∧
    sameBytes (shortAlias name) (slot v clusters i) 11 = true

instance (v : Volume) (clusters : List Nat) (name : FileName) : Decidable (Aliased v clusters name) :=
  inferInstanceAs (Decidable (∃ i < _, _))

theorem alias_missing (spot : Spot v directories depth parent clusters cluster)
    (free : ¬ Aliased v clusters name) (stale : Path) :
    fatFindFrom v (tmpShortName (shortAlias name) stale) (2 ^ 64) 0 parent 0 =
      some ⟨notFound, parent, none⟩ := by
  obtain ⟨low, high⟩ := spot.valid
  have byte (k : Nat) (few : k < 11) : tmpShortName (shortAlias name) stale (1 + k) = shortAlias name k := by
    rw [tmpShortName, if_neg (by omega), if_pos (by omega)]
    congr 1
    omega
  have plain (k : Nat) (few : k < 11) : tmpShortName (shortAlias name) stale (1 + k) ≠ 0 ∧
      tmpShortName (shortAlias name) stale (1 + k) ≠ 0x2f ∧ tmpShortName (shortAlias name) stale (1 + k) ≠ 0x2e := by
    grind [alias_plain]
  obtain ⟨stop, made, ran, -, bytes⟩ := shortName_bytes plain (show 0 + 11 = 11 from rfl)
    (show 11 < 2 ^ 64 by decide) fun _ => 0x20
  obtain ⟨buffer, read, held⟩ := readDirectory_slots spot.walked
  have missing : ((List.range' 0 (slotCount v.boot clusters)).find? fun j =>
      live (entryOf buffer j) && sameBytes made (entryOf buffer j) 11) = none := by
    rw [← List.range_eq_range']
    refine List.find?_eq_none.mpr fun i member both => free ?_
    have few := List.mem_range.mp member
    obtain ⟨alive, same⟩ := Bool.and_eq_true_iff.mp both
    refine ⟨i, few, (live_congr (held i few)).symm.trans alive, ?_⟩
    rw [← same]
    refine sameBytes_congr (fun k part => ?_) fun k part => (held i few k (by omega)).symm
    simp_all [alias_plain]
  obtain ⟨notEnd, notSlash, notDot, -⟩ := alias_plain name 0
  have notSpace := alias_first name
  have first : tmpShortName (shortAlias name) stale 1 = shortAlias name 0 := byte 0 (by decide)
  have slash : tmpShortName (shortAlias name) stale 0 = 0x2f := rfl
  rw [show 2 ^ 64 = 2 ^ 64 - 2 + 1 + 1 from rfl, fatFindFrom, if_neg (by omega)]
  simp only [orRoot, if_neg (show parent ≠ 0 by omega), slash, or_true, if_true]
  rw [if_neg (by decide), Int.zero_add, fatFindFrom, if_neg (by omega)]
  simp only [orRoot, if_neg (show parent ≠ 0 by omega), first, notEnd, notSpace, notSlash, notDot, or_self,
    if_false, ran, read, bind_returned, scan_plain (spot.sound.tree.legible spot.member |>.notLong read)
    (Nat.zero_add _), missing]
  rfl

theorem freeAlias_first (spot : Spot v directories depth parent clusters cluster)
    (free : ¬ Aliased v clusters name) (stale : Path) :
    freeAlias v parent 256 (tmpShortName (shortAlias name) stale) =
      some (tmpShortName (shortAlias name) stale) := by
  rw [freeAlias, alias_missing spot free]
  rfl

/-- A long name for which the driver has room: nothing in the directory is taken
for it or has its short name, no dot is among its first seven characters, the
entries from the first free one on are enough, and the mark for the index is in
the table. While the search goes on the mark is another one, which the directory
must not see. -/
structure LongFits (v : Volume) (clusters : List Nat) (name : FileName) (index : Nat) : Prop where
  unlisted : Unlisted v clusters name
  unaliased : ¬ Aliased v clusters name
  late : ∀ char ∈ name.chars.take 7, char ≠ 0x2e
  room : index + parts name < slotCount v.boot clusters
  low : Low v index
  steady : parts name ≤ 2 ∨ index = 0 ∨ index ∉ clusters

theorem taken_long (long : name.long = true) (late : ∀ char ∈ name.chars.take 7, char ≠ 0x2e) (tilde : Bool) :
    (encoding true tilde name.chars 0 blank).1 = 11 + skipped name ∧
      (encoding true tilde name.chars 0 blank).2.1 = 11 := by
  have enough : 11 ≤ 0 + (name.chars.filter (· != 0x2e)).length := by
    have many := of_decide_eq_true long
    omega
  have full := encoding_full true false (Nat.zero_le 11) enough blank
  grind [encoding_late, encoding_tilde, skipped]

theorem longText_reads (site : Site v path parents name parent) (long : name.long = true)
    (late : ∀ char ∈ name.chars.take 7, char ≠ 0x2e) :
    Reads path ((spell parents).length + 1 + skipped name) (longText name) ∧
      skipped name ≤ name.chars.length ∧ ∀ char ∈ longText name, char ≠ 0 ∧ char ≠ 0x2f := by
  have taken := encoding_taken true false name.chars 0 blank
  have inside : skipped name ≤ name.chars.length := by
    grind [taken_long]
  exact ⟨reads_drop site.name_reads inside, inside, fun char member => name.plain char (List.mem_of_mem_drop member)⟩

theorem writeLongName_run (spot : Spot v directories depth parent clusters cluster)
    (site : Site v path parents name parent) (vacant : Vacant v clusters index) (long : name.long = true)
    (fits : LongFits v clusters name index)
    (same : encoding dots true name.chars 0 blank = encoding true true name.chars 0 blank) (stale : Path) :
    ∃ w listing checksum, writeLongName dots v parent path ((spell parents).length + 1) stale =
        some (index + parts name, shortAlias name, w) ∧
      Altered v w clusters cluster ⟨listing, slot v [cluster], 0⟩ ∧
      (∀ i < parts name, listing (index + parts name - 1 - i) =
        longEntry (longChar path ((spell parents).length + 1 + skipped name) (longText name).length) i
          (placement (parts name) i) checksum) ∧
      ∀ j, j < index ∨ index + parts name ≤ j → listing j = slot v clusters j := by
  have short := name.fits
  have nonzero : ∀ char ∈ name.chars, char ≠ 0 := fun char member => (name.plain char member).1
  have made := encodeName_reads site.name_reads nonzero (show name.chars.length < 2 ^ 64 by omega) dots true 0 blank
  obtain ⟨reads, inside, plain⟩ := longText_reads site long fits.late
  obtain ⟨taken, full⟩ := taken_long long fits.late true
  have length := strlen_reads reads (fun char member => (plain char member).1)
    (show (longText name).length < 2 ^ 64 by rw [longText, List.length_drop]; omega)
  have searched := fatGetFreeDirEntryChain_many spot vacant fits.low fits.steady (Nat.succ_pos _)
  obtain ⟨w, listing, stored, altered, entries, others⟩ := store_spelled (altered_refl spot.free clusters) spot
    (Nat.le_of_lt fits.room) (longChar path ((spell parents).length + 1 + skipped name) (longText name).length)
    (fatGetShortFilenameChecksum (shortAlias name))
  refine ⟨w, listing, fatGetShortFilenameChecksum (shortAlias name), ?_, altered, entries, others⟩
  have code : encoding true true name.chars 0 blank = (11 + skipped name, 11, shortAlias name) :=
    Prod.ext taken (Prod.ext full rfl)
  rw [same, code] at made
  have back : ((spell parents).length : Int) + 1 + ((11 + skipped name : Nat) : Int) - ((11 : Nat) : Int) =
      (spell parents).length + 1 + skipped name := by
    push_cast
    omega
  have kept : Function.update (shortAlias name) 6 (tmpShortName (shortAlias name) stale 7) = shortAlias name :=
    Function.update_eq_self _ _
  rw [writeLongName, show (fun _ => 0x20) = blank from rfl, made]
  dsimp only [bind_returned]
  rw [freeAlias_first spot fits.unaliased, back]
  simp_all [parts]

theorem lookup_long (altered : Altered v w clusters cluster image)
    (spot : Spot v directories depth parent clusters cluster) (site : Site v path parents name parent)
    (vacant : Vacant v clusters index) (long : name.long = true) (fits : LongFits v clusters name index)
    (spelled : ∀ i < parts name, image.listing (index + parts name - 1 - i) =
      longEntry (longChar path ((spell parents).length + 1 + skipped name) (longText name).length) i
        (placement (parts name) i) checksum)
    (before : ∀ j < index, image.listing j = slot v clusters j) :
    ∃ entry, fatFind w path = some ⟨(image.listing (index + parts name)).clusterNo, parent,
      some (entry, index + parts name)⟩ := by
  obtain ⟨buffer, read, bytes⟩ := altered.read spot
  obtain ⟨fuel, from_parent, ran⟩ := altered.to_parent spot site
  obtain ⟨reads, inside, plain⟩ := longText_reads site long fits.late
  obtain ⟨taken, full⟩ := taken_long long fits.late false
  have short := name.fits
  have room := fits.room
  have passed : ∀ j < index, live (entryOf buffer j) = true ∧ entryOf buffer j 11 ≠ 0xf ∧
      sameBytes name.sought (entryOf buffer j) 11 = false := by
    intro j earlier
    have few : j < slotCount v.boot clusters := by omega
    have same : ∀ k < 32, entryOf buffer j k = slot v clusters j k := fun k part =>
      (bytes j few k part).trans (congrFun (before j earlier) k)
    have alive := vacant.first j earlier
    have other := fits.unlisted j few
    rw [← bears_congr name same, bears, (live_congr same).trans alive, Bool.true_and] at other
    refine ⟨(live_congr same).trans alive, ?_, other⟩
    rw [same 11 (by decide)]
    exact (spot.plain j few alive).1
  have there : Spelled (longChar path ((spell parents).length + 1 + skipped name) (longText name).length)
      checksum buffer index (parts name) := by
    intro i few k part
    rw [bytes _ (by omega) k part, spelled i few]
  have back : ((spell parents).length : Int) + 1 + ((encoding true false name.chars 0 blank).1 : Int) -
      ((encoding true false name.chars 0 blank).2.1 : Int) = (spell parents).length + 1 + skipped name := by
    rw [taken, full]
    push_cast
    omega
  have whole : (longText name).length < parts name * 13 := by
    rw [parts]
    omega
  have scanned := scan_spelled passed reads plain (by rw [longText, List.length_drop]; omega) there whole
    (parts_le name) room back
  rw [ran, fatFindFrom_name spot.valid read name site.name_reads scanned]
  · exact ⟨entryOf buffer (index + parts name), by rw [← clusterNo_congr (bytes _ room)]; rfl⟩
  · intro found matched
    cases matched
    exact reads_noSlash reads plain (Nat.le_refl _)

end

end MandelbrotOS.FatLongNames
