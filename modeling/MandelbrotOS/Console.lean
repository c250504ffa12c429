import Mathlib.Algebra.Group.Int.Defs
import Mathlib.Algebra.Group.Nat.Defs
import Mathlib.Data.Int.Order.Basic
import Mathlib.Logic.Function.Basic
import MandelbrotOS.Runs

/-! The text console of `fb/fb.c`. The cursor moves in cells of eight by fourteen
pixels. A backspace at the left margin takes it below zero, a character above 127 is
a negative index of the font, and on a very large screen the index of a pixel does
not fit in an `int`; any other sequence of characters stays on the screen. -/
namespace MandelbrotOS.Console
open Runs

/-! ### The code -/

def fontWidth : Nat := 8
def fontHeight : Nat := 14
def fontCharDefinition : Nat := 14

/-- The size of `font_array`. -/
def fontSize : Nat := 3584

/-- `fb_width` and `fb_height`. -/
structure Screen where
  fbWidth : BitVec 16
  fbHeight : BitVec 16

def Screen.width (screen : Screen) : Nat := screen.fbWidth.toNat
def Screen.height (screen : Screen) : Nat := screen.fbHeight.toNat

/-- The pixels from `framebuffer` on and before it, the colours and the cursor, which
is of `size_t` numbers. -/
structure State where
  framebuffer : Int → BitVec 32
  currFgCol : BitVec 32
  currBgCol : BitVec 32
  currX : Nat
  currY : Nat

/-- A value as an `int`. -/
def toInt32 (value : Int) : Int := value.bmod (2 ^ 32)

/-- The arguments of a call of `putnc` that say where and what. -/
structure Glyph where
  x : Int
  y : Int
  c : BitVec 8
  deriving DecidableEq

/-- The index of the font a row of a glyph is read at; `char` is signed. -/
def Glyph.fontIndex (glyph : Glyph) (ly : Nat) : Int := glyph.c.toInt * fontCharDefinition + ly

/-- The index a pixel of a glyph is written at, in `int`. -/
def Glyph.pixelIndex (screen : Screen) (glyph : Glyph) (ly lx : Nat) : Int :=
  toInt32 (glyph.x + ((fontWidth : Int) - 1 - lx) + (glyph.y + ly) * screen.width)

/-- `putnc`, with the bytes from `font_array` on and before it. -/
def putnc (fontArray : Int → BitVec 8) (screen : Screen) (framebuffer : Int → BitVec 32) (glyph : Glyph)
    (fgc bgc : BitVec 32) : Int → BitVec 32 :=
  (List.range fontHeight).foldl (fun framebuffer ly => (List.range fontWidth).foldl (fun framebuffer lx =>
    Function.update framebuffer (glyph.pixelIndex screen ly lx)
      (if (fontArray (glyph.fontIndex ly)).getLsbD lx then fgc else bgc)) framebuffer) framebuffer

/-- A loop of `knewline`. Its bound is an `int` product as a `size_t`: from `2 ^ 31`
pixels on that is nearly `2 ^ 64`, and the loop of the source leaves the screen. -/
def scroll (screen : Screen) (framebuffer : Int → BitVec 32) : Int → BitVec 32 :=
  (List.range (toInt32 (screen.width * screen.height) % 2 ^ 64).toNat).foldl (fun framebuffer (i : Nat) =>
    Function.update framebuffer i (framebuffer (screen.width * fontHeight + i))) framebuffer

def knewline (screen : Screen) (s : State) : State :=
  { s with
    framebuffer := scroll screen (scroll screen s.framebuffer)
    currY := (s.currY + 2 ^ 64 - fontHeight) % 2 ^ 64
    currX := 0 }

/-- What `'\n'` and a full line do to the row. -/
def lineFeed (screen : Screen) (s : State) : State :=
  if (s.currY + fontHeight * 2) % 2 ^ 64 > screen.height then knewline screen s
  else { s with currY := (s.currY + fontHeight) % 2 ^ 64 }

/-- A full line is wrapped before the next character. -/
def wrapLine (screen : Screen) (s : State) : State :=
  if (s.currX + fontWidth) % 2 ^ 64 > screen.width then lineFeed screen { s with currX := 0 } else s

/-- A call of `putnc` at the cursor, with the glyph it draws. -/
def drawHere (fontArray : Int → BitVec 8) (screen : Screen) (s : State) (c : BitVec 8) (fgc bgc : BitVec 32) :
    State × Option Glyph :=
  let glyph : Glyph := ⟨toInt32 s.currX, toInt32 s.currY, c⟩
  ({ s with framebuffer := putnc fontArray screen s.framebuffer glyph fgc bgc }, some glyph)

/-- `putc`, with the glyph it draws. -/
def putc (fontArray : Int → BitVec 8) (screen : Screen) (s : State) (c : BitVec 8) (fgc bgc : BitVec 32) :
    State × Option Glyph :=
  if c = 0x0a then ({ lineFeed screen s with currX := 0 }, none)
  else if c = 0x0d then ({ s with currX := 0 }, none)
  else if c = 0x08 then
    drawHere fontArray screen { s with currX := (s.currX + 2 ^ 64 - fontWidth) % 2 ^ 64 } 0x20 fgc bgc
  else
    let (s, glyph) := drawHere fontArray screen (wrapLine screen s) c fgc bgc
    ({ s with currX := (s.currX + fontWidth) % 2 ^ 64 }, glyph)

def putchar (fontArray : Int → BitVec 8) (screen : Screen) (s : State) (c : BitVec 8) : State × Option Glyph :=
  putc fontArray screen s c s.currFgCol s.currBgCol

/-! ### What is asked of it -/

/-- The cursor is on the screen. -/
def OnScreen (screen : Screen) (s : State) : Prop :=
  s.currX ≤ screen.width ∧ s.currY + fontHeight ≤ screen.height

/-- All that is read of the font and all that is written is inside. -/
def Glyph.Inside (screen : Screen) (glyph : Glyph) : Prop :=
  ∀ ly < fontHeight, (0 ≤ glyph.fontIndex ly ∧ glyph.fontIndex ly < fontSize) ∧
    ∀ lx < fontWidth, 0 ≤ glyph.pixelIndex screen ly lx ∧
      glyph.pixelIndex screen ly lx < screen.width * screen.height

/-- One character leaves the cursor on the screen and draws inside. -/
def Safe (fontArray : Int → BitVec 8) (screen : Screen) (s : State) (c : BitVec 8) : Prop :=
  OnScreen screen (putchar fontArray screen s c).1 ∧
    ∀ glyph, (putchar fontArray screen s c).2 = some glyph → glyph.Inside screen

/-- The row a character is drawn in that is put where the line is full. -/
def nextRow (screen : Screen) (s : State) : Nat :=
  if s.currY + fontHeight * 2 > screen.height then s.currY - fontHeight else s.currY + fontHeight

/-- The last pixel of a cell has an index that is an `int`. -/
def Indexable (screen : Screen) (x y : Nat) : Prop :=
  x + (fontWidth - 1) + (y + (fontHeight - 1)) * screen.width < 2 ^ 31

/-- What a character must be for that: below 128, no backspace at the left margin, and
in a cell that can be indexed. -/
def Sensible (screen : Screen) (s : State) (c : BitVec 8) : Prop :=
  c ≠ 0x0a → c ≠ 0x0d →
    if c = 0x08 then fontWidth ≤ s.currX ∧ Indexable screen (s.currX - fontWidth) s.currY
    else c.toNat < 128 ∧
      if s.currX + fontWidth > screen.width then Indexable screen 0 (nextRow screen s)
      else Indexable screen s.currX s.currY

/-! ### Cells -/

/-- The cursor stands at a cell. -/
structure Celled (screen : Screen) (s : State) : Prop where
  column : s.currX % fontWidth = 0
  row : s.currY % fontHeight = 0
  onScreen : OnScreen screen s

theorem toInt32_of_small (low : 0 ≤ value) (high : value < 2 ^ 31) : toInt32 value = value :=
  Int.bmod_eq_of_le_mul_two (by omega) (by omega)

theorem toInt32_nonneg_iff (low : 0 ≤ value) (high : value < 2 ^ 32) : 0 ≤ toInt32 value ↔ value < 2 ^ 31 := by
  grind [toInt32]

theorem fontIndex_inside_iff (glyph : Glyph) :
    (∀ ly < fontHeight, 0 ≤ glyph.fontIndex ly ∧ glyph.fontIndex ly < fontSize) ↔ glyph.c.toNat < 128 := by
  have signed := BitVec.toInt_eq_toNat_cond glyph.c
  have bound := glyph.c.isLt
  simp only [Glyph.fontIndex, fontHeight, fontSize, fontCharDefinition]
  grind

theorem cell_pixel {screen : Screen} (wide : x + fontWidth ≤ screen.width) (tall : y + fontHeight ≤ screen.height)
    (row : ly < fontHeight) (column : lx < fontWidth) :
    x + (fontWidth - 1 - lx) + (y + ly) * screen.width ≤
        x + (fontWidth - 1) + (y + (fontHeight - 1)) * screen.width ∧
      x + (fontWidth - 1) + (y + (fontHeight - 1)) * screen.width < screen.width * screen.height := by
  have above : (y + ly) * screen.width ≤ (y + (fontHeight - 1)) * screen.width :=
    Nat.mul_le_mul_right _ (by omega)
  have below : (y + (fontHeight - 1) + 1) * screen.width ≤ screen.height * screen.width :=
    Nat.mul_le_mul_right _ (by simp only [fontHeight] at tall ⊢; omega)
  grind

theorem screen_pixels (screen : Screen) : screen.width * screen.height < 2 ^ 32 := by
  have wide : screen.width ≤ 2 ^ 16 - 1 := Nat.le_pred_of_lt screen.fbWidth.isLt
  have tall : screen.height ≤ 2 ^ 16 - 1 := Nat.le_pred_of_lt screen.fbHeight.isLt
  exact Nat.lt_of_le_of_lt (Nat.mul_le_mul wide tall) (by decide)

theorem glyph_inside_iff {screen : Screen} (wide : x + fontWidth ≤ screen.width)
    (tall : y + fontHeight ≤ screen.height) (c : BitVec 8) :
    (⟨toInt32 x, toInt32 y, c⟩ : Glyph).Inside screen ↔ c.toNat < 128 ∧ Indexable screen x y := by
  have pixels := screen_pixels screen
  have narrow : screen.width < 2 ^ 16 := screen.fbWidth.isLt
  have low : screen.height < 2 ^ 16 := screen.fbHeight.isLt
  have index (ly lx : Nat) (column : lx < fontWidth) :
      (⟨toInt32 x, toInt32 y, c⟩ : Glyph).pixelIndex screen ly lx =
        toInt32 ((x + (fontWidth - 1 - lx) + (y + ly) * screen.width : Nat) : Int) := by
    grind [Glyph.pixelIndex, toInt32_of_small]
  constructor
  · intro inside
    refine ⟨(fontIndex_inside_iff _).mp fun ly few => (inside ly few).1, ?_⟩
    have last := ((inside (fontHeight - 1) (by decide)).2 0 (by decide)).1
    have bound := cell_pixel wide tall (show fontHeight - 1 < fontHeight by decide) (show 0 < fontWidth by decide)
    rw [index _ _ (by decide), toInt32_nonneg_iff (by omega) (by omega)] at last
    rw [Indexable]
    omega
  · rintro ⟨ascii, indexable⟩ ly row
    refine ⟨(fontIndex_inside_iff _).mpr ascii ly row, fun lx column => ?_⟩
    have bound := cell_pixel wide tall row column
    rw [Indexable] at indexable
    rw [index _ _ column, toInt32_of_small (by omega) (by omega)]
    omega

/-! ### One character -/

section
variable {screen : Screen} {s : State}

theorem lineFeed_row (tall : 28 ≤ screen.height) (row : s.currY % fontHeight = 0)
    (inside : s.currY + fontHeight ≤ screen.height) :
    (lineFeed screen s).currY = nextRow screen s ∧ nextRow screen s % fontHeight = 0 ∧
      nextRow screen s + fontHeight ≤ screen.height := by
  have low : screen.height < 2 ^ 16 := screen.fbHeight.isLt
  grind [fontHeight, lineFeed, nextRow, knewline]

theorem lineFeed_column (wrapped : s.currX = 0) : (lineFeed screen s).currX = 0 := by
  rw [lineFeed]
  split
  · rfl
  · exact wrapped

theorem drawHere_safe_iff (fontArray : Int → BitVec 8) (column : s.currX % fontWidth = 0)
    (row : s.currY % fontHeight = 0) (wide : s.currX + fontWidth ≤ screen.width)
    (inside : s.currY + fontHeight ≤ screen.height) (c : BitVec 8) (fgc bgc : BitVec 32) :
    Celled screen (drawHere fontArray screen s c fgc bgc).1 ∧
      ((∀ glyph, (drawHere fontArray screen s c fgc bgc).2 = some glyph → glyph.Inside screen) ↔
        c.toNat < 128 ∧ Indexable screen s.currX s.currY) := by
  refine ⟨⟨column, row, by dsimp only [drawHere]; omega, inside⟩, ?_⟩
  rw [← glyph_inside_iff wide inside]
  simp [drawHere]

theorem advanced_celled {drawn : State} (celled : Celled screen drawn) (wide : drawn.currX + fontWidth ≤ screen.width) :
    Celled screen { drawn with currX := (drawn.currX + fontWidth) % 2 ^ 64 } := by
  have narrow : screen.width < 2 ^ 16 := screen.fbWidth.isLt
  obtain ⟨column, row, -, inside⟩ := celled
  have whole : (drawn.currX + fontWidth) % 2 ^ 64 = drawn.currX + fontWidth := Nat.mod_eq_of_lt (by omega)
  refine ⟨?_, row, ?_, inside⟩
  · dsimp only
    rw [whole, Nat.add_mod_right, column]
  · dsimp only
    rw [whole]
    exact wide

/-- A character is safe exactly if it is sensible, and then the cursor is at a cell
again. -/
def Settled (fontArray : Int → BitVec 8) (screen : Screen) (s : State) (c : BitVec 8) : Prop :=
  (Safe fontArray screen s c ↔ Sensible screen s c) ∧
    (Sensible screen s c → Celled screen (putchar fontArray screen s c).1)

theorem newline_exact (fontArray : Int → BitVec 8) (tall : 28 ≤ screen.height) (celled : Celled screen s) :
    Settled fontArray screen s 0x0a := by
  obtain ⟨fed, row, inside⟩ := lineFeed_row tall celled.row celled.onScreen.2
  have here : Celled screen { lineFeed screen s with currX := 0 } :=
    ⟨rfl, by rw [fed]; exact row, Nat.zero_le _, by rw [fed]; exact inside⟩
  exact ⟨iff_of_true ⟨here.onScreen, nofun⟩ fun newline => absurd rfl newline, fun _ => here⟩

theorem carriageReturn_exact (fontArray : Int → BitVec 8) (celled : Celled screen s) :
    Settled fontArray screen s 0x0d := by
  have here : Celled screen { s with currX := 0 } := ⟨rfl, celled.row, Nat.zero_le _, celled.onScreen.2⟩
  exact ⟨iff_of_true ⟨here.onScreen, nofun⟩ fun _ carriage => absurd rfl carriage, fun _ => here⟩

theorem backspace_exact (fontArray : Int → BitVec 8) (celled : Celled screen s) : Settled fontArray screen s 0x08 := by
  have narrow : screen.width < 2 ^ 16 := screen.fbWidth.isLt
  obtain ⟨column, row, left, inside⟩ := celled
  have sensible : Sensible screen s 0x08 ↔
      fontWidth ≤ s.currX ∧ Indexable screen (s.currX - fontWidth) s.currY :=
    ⟨fun holds => holds (by decide) (by decide), fun holds _ _ => holds⟩
  rw [Settled, sensible]
  by_cases margin : fontWidth ≤ s.currX
  · have back : (s.currX + 2 ^ 64 - fontWidth) % 2 ^ 64 = s.currX - fontWidth := by omega
    have column' : (s.currX - fontWidth) % fontWidth = 0 := by
      rw [← Nat.mod_eq_sub_mod margin, column]
    obtain ⟨here, drawn⟩ := drawHere_safe_iff (s := { s with currX := s.currX - fontWidth }) fontArray column' row
      (by dsimp only; omega) inside 0x20 s.currFgCol s.currBgCol
    have ran : putchar fontArray screen s 0x08 =
        drawHere fontArray screen { s with currX := s.currX - fontWidth } 0x20 s.currFgCol s.currBgCol := by
      rw [← back]
      rfl
    rw [Safe, ran, drawn]
    exact ⟨⟨fun safe => ⟨margin, safe.2.2⟩, fun holds => ⟨here.onScreen, by decide, holds.2⟩⟩, fun _ => here⟩
  · have behind : ¬ (s.currX + 2 ^ 64 - fontWidth) % 2 ^ 64 ≤ screen.width := by
      simp only [fontWidth] at margin ⊢
      omega
    exact ⟨iff_of_false (fun safe => behind safe.1.1) fun holds => margin holds.1, fun holds => absurd holds.1 margin⟩

theorem wrapLine_cell (wide : 8 ≤ screen.width) (tall : 28 ≤ screen.height) (celled : Celled screen s) :
    ((wrapLine screen s).currX % fontWidth = 0 ∧ (wrapLine screen s).currY % fontHeight = 0) ∧
      ((wrapLine screen s).currX + fontWidth ≤ screen.width ∧
        (wrapLine screen s).currY + fontHeight ≤ screen.height) ∧
      ((if s.currX + fontWidth > screen.width then Indexable screen 0 (nextRow screen s)
        else Indexable screen s.currX s.currY) ↔
          Indexable screen (wrapLine screen s).currX (wrapLine screen s).currY) := by
  have narrow : screen.width < 2 ^ 16 := screen.fbWidth.isLt
  obtain ⟨column, row, left, inside⟩ := celled
  have whole : (s.currX + fontWidth) % 2 ^ 64 = s.currX + fontWidth :=
    Nat.mod_eq_of_lt (by simp only [fontWidth]; omega)
  rw [wrapLine, whole]
  by_cases full : s.currX + fontWidth > screen.width
  · obtain ⟨fed, row', inside'⟩ := lineFeed_row (s := { s with currX := 0 }) tall row inside
    have first : (lineFeed screen { s with currX := 0 }).currX = 0 := lineFeed_column rfl
    rw [if_pos full, if_pos full, first, fed]
    exact ⟨⟨rfl, row'⟩, ⟨wide, inside'⟩, Iff.rfl⟩
  · grind

theorem printed_exact (fontArray : Int → BitVec 8) (wide : 8 ≤ screen.width) (tall : 28 ≤ screen.height)
    (celled : Celled screen s) (newline : c ≠ 0x0a) (carriage : c ≠ 0x0d) (backspace : c ≠ 0x08) :
    Settled fontArray screen s c := by
  obtain ⟨⟨column, row⟩, ⟨fits, inside⟩, indexable⟩ := wrapLine_cell wide tall celled
  obtain ⟨here, drawn⟩ := drawHere_safe_iff fontArray column row fits inside c s.currFgCol s.currBgCol
  have ran : putchar fontArray screen s c =
      ({ (drawHere fontArray screen (wrapLine screen s) c s.currFgCol s.currBgCol).1 with
          currX := ((wrapLine screen s).currX + fontWidth) % 2 ^ 64 },
        (drawHere fontArray screen (wrapLine screen s) c s.currFgCol s.currBgCol).2) := by
    rw [putchar, putc, if_neg newline, if_neg carriage, if_neg backspace]
    rfl
  have next := advanced_celled here fits
  rw [Settled, Sensible, if_neg backspace, indexable, Safe, ran, drawn]
  exact ⟨⟨fun safe _ _ => safe.2, fun holds => ⟨next.onScreen, holds newline carriage⟩⟩, fun _ => next⟩

theorem putchar_exact (fontArray : Int → BitVec 8) (wide : 8 ≤ screen.width) (tall : 28 ≤ screen.height)
    (celled : Celled screen s) (c : BitVec 8) : Settled fontArray screen s c := by
  grind [newline_exact, carriageReturn_exact, backspace_exact, printed_exact]

end

/-! ### Sequences of characters -/

/-- A character sent. -/
def send (fontArray : Int → BitVec 8) (screen : Screen) (s : State) (c : BitVec 8) : Option State :=
  some (putchar fontArray screen s c).1

/-- **The console stays on the screen exactly while the characters are sensible**: on
every screen of at least one column and two rows of cells, from the first cell on and
for every sequence of characters. -/
theorem stays_on_screen_iff (fontArray : Int → BitVec 8) {screen : Screen} {s : State} (wide : 8 ≤ screen.width)
    (tall : 28 ≤ screen.height) (left : s.currX = 0) (top : s.currY = 0) (chars : List (BitVec 8)) :
    Along (send fontArray screen) (Safe fontArray screen) s chars ↔
      Along (send fontArray screen) (Sensible screen) s chars := by
  have start : Celled screen s := by
    refine ⟨by rw [left]; rfl, by rw [top]; rfl, by rw [left]; exact Nat.zero_le _, ?_⟩
    rw [top]
    exact Nat.le_trans (by decide) tall
  refine along_iff_along (fun s c celled => (putchar_exact fontArray wide tall celled c).1) ?_ start
  intro s c next celled sensible sent
  cases sent
  exact (putchar_exact fontArray wide tall celled c).2 sensible

/-- A screen of ten columns and two rows. -/
def smallScreen : Screen := ⟨80, 28⟩

def blank : State := ⟨fun _ => 0, 0xffffff, 0, 0, 0⟩

instance (screen : Screen) (x y : Nat) : Decidable (Indexable screen x y) :=
  inferInstanceAs (Decidable (_ < _))

instance (screen : Screen) (s : State) (c : BitVec 8) : Decidable (Sensible screen s c) :=
  inferInstanceAs (Decidable (_ → _))

theorem line_stays : Along (send (fun _ => 0) smallScreen) (Safe (fun _ => 0) smallScreen) blank
    [0x68, 0x69, 0x08, 0x6f, 0x0a, 0x6f, 0x6b] :=
  (stays_on_screen_iff (fun _ => 0) (by decide) (by decide) rfl rfl _).mpr (by decide)

/-- A backspace at the margin leaves the screen, and the byte `0x80` is read from
before the font. -/
theorem margin_left : (putchar (fun _ => 0) smallScreen blank 0x08).1.currX = 2 ^ 64 - 8 ∧
    (putchar (fun _ => 0) smallScreen blank 0x80).2 = some ⟨0, 0, 0x80⟩ ∧
    (⟨0, 0, 0x80⟩ : Glyph).fontIndex 0 = -1792 ∧
    ¬ Along (send (fun _ => 0) smallScreen) (Safe (fun _ => 0) smallScreen) blank [0x08] ∧
    ¬ Along (send (fun _ => 0) smallScreen) (Safe (fun _ => 0) smallScreen) blank [0x80] := by
  have drawn : (putchar (fun _ => 0) smallScreen blank 0x80).2 = some ⟨0, 0, 0x80⟩ := by decide
  refine ⟨by decide, drawn, by decide, fun safe => ?_, fun safe => ?_⟩
  · exact absurd safe.1.1.1 (by decide)
  · exact absurd ((safe.1.2 _ drawn) 0 (by decide)).1.1 (by decide)

end MandelbrotOS.Console
