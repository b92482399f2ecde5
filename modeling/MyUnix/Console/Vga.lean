import Mathlib.Logic.Function.Basic
import Mathlib.Tactic.SplitIfs
import MyUnix.Lib.ForLoop

/-!
# `Console.Vga` — the text screen as a window on an endless terminal

`vga_putc` keeps 25 rows of 80 cells and a cursor, and moves the rows up when the cursor leaves the last one. A store to
a cell of index 2000 or more is a failure here (`none`), so that a run which succeeds has written below it only.

The `Terminal` is what the screen shows a part of: rows without end that are written once and never moved. `Shows` says
which part: the cursor row of the screen is the 25th from the terminal's top or, while there are fewer, the same.

The terminal grows and the screen does not, so the relation between the two is a window: which row of the terminal is
in the first row of the screen. It moves down when the screen scrolls and stays where it is otherwise. Control
characters move the cursor on both sides alike.
-/

namespace MyUnix.Console

open Lib

/-! ## The screen

The text of `main.c`, with the store that can go wrong.
-/

/-- The width of the screen. -/
def VGA_COLS : Nat := 80

/-- Its height. -/
def VGA_ROWS : Nat := 25

/-- The colours of every character. -/
def VGA_WHITE_ON_BLACK : UInt8 := 0x07

/-- `g_vga`, `g_vga_col`, `g_vga_row` and `g_vga_color`. -/
@[ext] structure Vga where
  cells : Nat → UInt16
  col   : Nat
  row   : Nat
  color : UInt8

/-- `(uint16_t)((uint8_t)c | ((uint16_t)color << 8))`. -/
def cell (color c : UInt8) : UInt16 := c.toUInt16 ||| color.toUInt16 <<< 8

/-- `g_vga[i] = x`; there are 2000 cells. -/
def Vga.store (v : Vga) (i : Nat) (x : UInt16) : Option Vga :=
  if i < VGA_COLS * VGA_ROWS then some { v with cells := Function.update v.cells i x } else none

/-- `vga_scroll`: every row moves up by one, and the last is cleared. -/
def vgaScroll (v : Vga) : Option Vga := do
  let v ← forUpTo (fun row => forUpTo (fun col v =>
    v.store (row * VGA_COLS + col) (v.cells ((row + 1) * VGA_COLS + col))) VGA_COLS) (VGA_ROWS - 1) v
  forUpTo (fun col v => v.store ((VGA_ROWS - 1) * VGA_COLS + col) (cell v.color ' '.toUInt8)) VGA_COLS v

/-- `if (++g_vga_row >= VGA_ROWS) { vga_scroll(); g_vga_row = VGA_ROWS - 1; }`. -/
def nextRow (v : Vga) : Option Vga :=
  let v := { v with row := v.row + 1 }
  if VGA_ROWS ≤ v.row then do
    let v ← vgaScroll v
    some { v with row := VGA_ROWS - 1 }
  else some v

/-- `vga_putc`. -/
def vgaPutc (v : Vga) (c : UInt8) : Option Vga :=
  if c = '\n'.toUInt8 then
    nextRow { v with col := 0 }
  else if c = '\r'.toUInt8 then
    some { v with col := 0 }
  else if c = '\t'.toUInt8 then
    -- `& ~7` drops the three low bits
    let v := { v with col := (v.col + 8) >>> 3 <<< 3 }
    if VGA_COLS ≤ v.col then nextRow { v with col := 0 } else some v
  else do
    let v ← if v.col < VGA_COLS then
        (v.store (v.row * VGA_COLS + v.col) (cell v.color c)).map fun v => { v with col := v.col + 1 }
      else some v
    if VGA_COLS ≤ v.col then nextRow { v with col := 0 } else some v

/-- `vga_clear`. -/
def vgaClear (v : Vga) : Option Vga := do
  let v ← forUpTo (fun i v => v.store i (cell VGA_WHITE_ON_BLACK ' '.toUInt8)) (VGA_COLS * VGA_ROWS) v
  some { v with col := 0, row := 0 }

/-- The characters, one `vga_putc` each. -/
def vgaPuts (v : Vga) (cs : List UInt8) : Option Vga := cs.foldlM vgaPutc v

/-! ## The terminal

What the screen is for, without an end at the bottom.
-/

/-- A terminal of unlimited height: its rows, and the cursor. -/
structure Terminal where
  line : Nat → Nat → UInt8
  row  : Nat
  col  : Nat

namespace Terminal

/-- Blank rows, and the cursor in the corner. -/
def empty : Terminal := ⟨fun _ _ => ' '.toUInt8, 0, 0⟩

/-- To the start of the next row. -/
def newline (t : Terminal) : Terminal := { t with row := t.row + 1, col := 0 }

/-- Behind column 79 the next row begins. -/
def wrap (t : Terminal) : Terminal := if t.col < 80 then t else t.newline

/-- The character at the cursor. -/
def write (t : Terminal) (c : UInt8) : Terminal :=
  { t with line := Function.update t.line t.row (Function.update (t.line t.row) t.col c), col := t.col + 1 }

/-- A character on the terminal: what `vga_putc` is for. -/
def put (t : Terminal) (c : UInt8) : Terminal :=
  if c = '\n'.toUInt8 then t.newline
  else if c = '\r'.toUInt8 then { t with col := 0 }
  else if c = '\t'.toUInt8 then wrap { t with col := 8 * (t.col / 8 + 1) }
  else wrap (t.write c)

/-- All characters in order. -/
def puts (t : Terminal) (cs : List UInt8) : Terminal := cs.foldl put t

/-- The rows above the window: all but the last 25 of the `row + 1` that there are. -/
def top (t : Terminal) : Nat := t.row + 1 - 25

end Terminal

/-! ## What the loops do

Clearing and scrolling are loops over cells; each leaves what a function of the cells says.
-/

/-- The cells from `lo` to `hi` as `f` gives them. -/
def Vga.fill (v : Vga) (lo hi : Nat) (f : Nat → UInt16) : Vga :=
  { v with cells := fun i => if lo ≤ i ∧ i < hi then f i else v.cells i }

theorem fill_empty (v : Vga) (lo : Nat) (f : Nat → UInt16) : v.fill lo lo f = v := by
  apply Vga.ext
  · funext i
    exact if_neg fun h => absurd h.1 (Nat.not_le.mpr h.2)
  all_goals rfl

/-- One more cell at the end of a filled range. -/
theorem store_fill (v : Vga) {lo hi : Nat} (f : Nat → UInt16) (hlo : lo ≤ hi) (hhi : hi < 2000) {x : UInt16} (hx : x = f hi) :
    (v.fill lo hi f).store hi x = some (v.fill lo (hi + 1) f) := by
  have hcells : Function.update (v.fill lo hi f).cells hi x = (v.fill lo (hi + 1) f).cells := by
    funext i
    by_cases hi' : i = hi
    · subst hi'
      rw [Function.update_self, hx]
      exact (if_pos ⟨hlo, Nat.lt_succ_self i⟩).symm
    · rw [Function.update_of_ne hi']
      have hiff : (lo ≤ i ∧ i < hi) ↔ (lo ≤ i ∧ i < hi + 1) := by
        omega
      show (if lo ≤ i ∧ i < hi then f i else v.cells i) = if lo ≤ i ∧ i < hi + 1 then f i else v.cells i
      simp only [hiff]
  have hbound : hi < VGA_COLS * VGA_ROWS := hhi
  rw [Vga.store, if_pos hbound, hcells]
  rfl

/-- A loop that stores `f` in the cells from `lo` on, where the stored value may be read from the screen. -/
theorem forUpTo_fill (v : Vga) (lo n : Nat) (f : Nat → UInt16) (hn : lo + n ≤ 2000) {x : Vga → Nat → UInt16}
    (hx : ∀ i < n, x (v.fill lo (lo + i) f) i = f (lo + i)) :
    forUpTo (fun i v => v.store (lo + i) (x v i)) n v = some (v.fill lo (lo + n) f) := by
  have hloop := forUpTo_eq (fun i v => v.store (lo + i) (x v i)) (fun i => v.fill lo (lo + i) f) n fun i hi =>
    store_fill v f (Nat.le_add_right lo i) (by omega) (hx i hi)
  rwa [Nat.add_zero, fill_empty] at hloop

theorem fill_fill (v : Vga) {lo mid hi : Nat} (f : Nat → UInt16) (h : lo ≤ mid) (h' : mid ≤ hi) :
    (v.fill lo mid f).fill mid hi f = v.fill lo hi f := by
  apply Vga.ext
  · funext i
    show (if mid ≤ i ∧ i < hi then f i else if lo ≤ i ∧ i < mid then f i else v.cells i) =
      if lo ≤ i ∧ i < hi then f i else v.cells i
    split_ifs <;> first | rfl | omega
  all_goals rfl

/-- What the cells are after `vga_scroll`: every row that of below, the last one blank. -/
def scrolled (v : Vga) (i : Nat) : UInt16 := if i < 1920 then v.cells (i + 80) else cell v.color ' '.toUInt8

/-- `vga_scroll` moves every row up by one, and succeeds. -/
theorem vgaScroll_eq (v : Vga) : vgaScroll v = some (v.fill 0 2000 (scrolled v)) := by
  -- the row below is not yet overwritten when it is copied
  have hrow : ∀ row < 24, forUpTo (fun col v => v.store (row * VGA_COLS + col) (v.cells ((row + 1) * VGA_COLS + col))) VGA_COLS
      (v.fill 0 (row * 80) (scrolled v)) = some (v.fill 0 ((row + 1) * 80) (scrolled v)) := by
    intro row hlt
    have hn : row * 80 + 80 ≤ 2000 := by
      omega
    have hsucc : (row + 1) * 80 = row * 80 + 80 := Nat.succ_mul row 80
    rw [hsucc, ← fill_fill v _ (Nat.zero_le _) (Nat.le_add_right (row * 80) 80)]
    refine forUpTo_fill _ (row * 80) 80 (scrolled v) hn (x := fun v col => v.cells ((row + 1) * VGA_COLS + col)) fun col hcol => ?_
    show (if row * 80 ≤ (row + 1) * 80 + col ∧ (row + 1) * 80 + col < row * 80 + col then _ else
      if 0 ≤ (row + 1) * 80 + col ∧ (row + 1) * 80 + col < row * 80 then _ else v.cells ((row + 1) * 80 + col)) = _
    rw [if_neg (by omega), if_neg (by omega), scrolled, if_pos (by omega)]
    exact congrArg v.cells (by omega)
  have hrows := forUpTo_eq _ (fun row => v.fill 0 (row * 80) (scrolled v)) 24 hrow
  rw [Nat.zero_mul, fill_empty] at hrows
  have hlast := forUpTo_fill (v.fill 0 1920 (scrolled v)) 1920 80 (scrolled v) (by omega)
    (x := fun v _ => cell v.color ' '.toUInt8) fun i _ => (if_neg (by omega)).symm
  rw [fill_fill v _ (by omega) (by omega)] at hlast
  rw [vgaScroll]
  show (forUpTo _ 24 v).bind _ = _
  rw [hrows]
  exact hlast

theorem vgaClear_eq (v : Vga) : vgaClear v =
    some { v.fill 0 2000 (fun _ => cell VGA_WHITE_ON_BLACK ' '.toUInt8) with col := 0, row := 0 } := by
  have hloop := forUpTo_fill v 0 2000 (fun _ => cell VGA_WHITE_ON_BLACK ' '.toUInt8) (by omega)
    (x := fun _ _ => cell VGA_WHITE_ON_BLACK ' '.toUInt8) fun _ _ => rfl
  simp only [Nat.zero_add] at hloop
  rw [vgaClear]
  show (forUpTo _ 2000 v).bind _ = _
  rw [hloop]
  rfl

/-! ## The window

One lemma for each part of `vga_putc`: the next row, the wrap at the end of a line, and the character.
-/

/-- The screen shows the last 25 rows of the terminal, all while there are fewer; the cursor rows are the same. -/
structure Window (v : Vga) (t : Terminal) : Prop where
  color  : v.color = VGA_WHITE_ON_BLACK
  row    : t.top + v.row = t.row
  row_lt : v.row < 25
  cells  : ∀ r < 25, ∀ c < 80, v.cells (r * 80 + c) = cell VGA_WHITE_ON_BLACK (t.line (t.top + r) c)
  /-- below the cursor nothing has been written yet -/
  blank  : ∀ r c, t.row < r → t.line r c = ' '.toUInt8

/-- A window with the cursor at the same place of a row. -/
structure Shows (v : Vga) (t : Terminal) : Prop extends Window v t where
  col    : v.col = t.col
  col_lt : t.col < 80

variable {v : Vga} {t : Terminal}

/-- The column is no part of what the window shows. -/
theorem Window.setCol (h : Window v t) (c c' : Nat) : Window { v with col := c } { t with col := c' } :=
  ⟨h.color, h.row, h.row_lt, h.cells, h.blank⟩

/-- The step to the next row keeps the window, whether the screen has room or is scrolled. -/
theorem Window.nextRow (h : Window v t) : ∃ v', nextRow { v with col := 0 } = some v' ∧ Shows v' t.newline := by
  have hrow := h.row
  have hlt := h.row_lt
  rw [Terminal.top] at hrow
  by_cases hroom : v.row + 1 < 25
  · -- the window is still at the top of the terminal
    have htop : t.newline.top = t.top := by
      show t.row + 1 + 1 - 25 = t.row + 1 - 25
      omega
    refine ⟨{ v with col := 0, row := v.row + 1 }, if_neg (Nat.not_le.mpr hroom), ⟨h.color, ?_, hroom, ?_, ?_⟩, rfl, Nat.zero_lt_succ 79⟩
    · rw [htop, ← Nat.add_assoc]
      exact congrArg (· + 1) h.row
    · rw [htop]
      exact h.cells
    · intro r c hr
      exact h.blank r c (Nat.lt_of_succ_lt hr)
  · have htop : t.newline.top = t.top + 1 := by
      show t.row + 1 + 1 - 25 = t.row + 1 - 25 + 1
      omega
    let v' : Vga := { v with col := 0, row := v.row + 1 }
    refine ⟨{ v'.fill 0 2000 (scrolled v') with row := 24 }, ?_, ⟨h.color, ?_, Nat.lt_succ_self 24, ?_, ?_⟩, rfl, Nat.zero_lt_succ 79⟩
    · show (if 25 ≤ v.row + 1 then (vgaScroll v').bind _ else _) = _
      rw [if_pos (Nat.not_lt.mp hroom), vgaScroll_eq]
      rfl
    · show t.row + 1 + 1 - 25 + 24 = t.row + 1
      omega
    · intro r hr c hc
      rw [htop]
      show (if 0 ≤ r * 80 + c ∧ r * 80 + c < 2000 then scrolled v' (r * 80 + c) else _) = _
      rw [if_pos (by omega), scrolled]
      by_cases hlast : r < 24
      · have hcell := h.cells (r + 1) (Nat.succ_lt_succ hlast) c hc
        rw [Nat.succ_mul, Nat.add_right_comm, Nat.add_comm r 1, ← Nat.add_assoc] at hcell
        rw [if_pos (by omega)]
        exact hcell
      · -- the row that comes into view has not been written
        have hnew : t.row < t.top + 1 + r := by
          rw [Terminal.top]
          omega
        have hline : t.newline.line (t.top + 1 + r) c = ' '.toUInt8 := h.blank _ c hnew
        rw [if_neg (by omega), hline]
        exact congrArg (cell · _) h.color
    · intro r c hr
      exact h.blank r c (Nat.lt_of_succ_lt hr)

/-- The wrap that ends a tab and a character. -/
theorem Window.wrap (h : Window v t) (hcol : v.col = t.col) :
    ∃ v', (if VGA_COLS ≤ v.col then Console.nextRow { v with col := 0 } else some v) = some v' ∧ Shows v' t.wrap := by
  by_cases hlt : t.col < 80
  · have hwrap : t.wrap = t := if_pos hlt
    rw [if_neg (by rw [hcol]; exact Nat.not_le.mpr hlt), hwrap]
    exact ⟨v, rfl, h, hcol, hlt⟩
  · have hwrap : t.wrap = t.newline := if_neg hlt
    rw [if_pos (by rw [hcol]; exact Nat.not_lt.mp hlt), hwrap]
    exact h.nextRow

/-! ## Characters

One character, and any number of them.
-/

/-- A character at the cursor is stored in the cell that shows this place. -/
theorem Shows.write (h : Shows v t) (c : UInt8) :
    ∃ v', v.store (v.row * VGA_COLS + v.col) (cell v.color c) = some v' ∧ v'.col = v.col ∧
      Window { v' with col := v.col + 1 } (t.write c) := by
  have hrow := h.row_lt
  have hcol := h.col_lt
  rw [← h.col] at hcol
  have hindex : v.row * VGA_COLS + v.col < VGA_COLS * VGA_ROWS := by
    show v.row * 80 + v.col < 2000
    omega
  refine ⟨_, if_pos hindex, rfl, h.color, h.row, h.row_lt, ?_, ?_⟩
  · intro r hr k hk
    show Function.update v.cells (v.row * 80 + v.col) _ (r * 80 + k) =
      cell _ (Function.update t.line t.row (Function.update (t.line t.row) t.col c) (t.top + r) k)
    by_cases hsame : r = v.row
    · rw [hsame, h.row, Function.update_self]
      by_cases hk' : k = v.col
      · rw [hk', h.col, Function.update_self, Function.update_self, h.color]
      · have hne : v.row * 80 + k ≠ v.row * 80 + v.col := by
          omega
        rw [Function.update_of_ne hne, Function.update_of_ne (h.col ▸ hk'), ← h.row]
        exact h.cells v.row hrow k hk
    · have hne : r * 80 + k ≠ v.row * 80 + v.col := by
        omega
      have hne' : t.top + r ≠ t.row := by
        have := h.row
        omega
      rw [Function.update_of_ne hne, Function.update_of_ne hne']
      exact h.cells r hr k hk
  · intro r k hr
    have hne : r ≠ t.row := Nat.ne_of_gt hr
    show Function.update t.line t.row _ r k = _
    rw [Function.update_of_ne hne]
    exact h.blank r k hr

/-- **One character.** `vga_putc` succeeds and the screen shows the terminal behind it. -/
theorem Shows.put (h : Shows v t) (c : UInt8) : ∃ v', vgaPutc v c = some v' ∧ Shows v' (t.put c) := by
  rw [vgaPutc, Terminal.put]
  by_cases hnl : c = '\n'.toUInt8
  · rw [if_pos hnl, if_pos hnl]
    exact h.toWindow.nextRow
  rw [if_neg hnl, if_neg hnl]
  by_cases hcr : c = '\r'.toUInt8
  · rw [if_pos hcr, if_pos hcr]
    exact ⟨_, rfl, h.toWindow.setCol 0 0, rfl, Nat.zero_lt_succ 79⟩
  rw [if_neg hcr, if_neg hcr]
  by_cases htab : c = '\t'.toUInt8
  · rw [if_pos htab, if_pos htab]
    have hcol : (v.col + 8) >>> 3 <<< 3 = 8 * (t.col / 8 + 1) := by
      rw [Nat.shiftRight_eq_div_pow, Nat.shiftLeft_eq, h.col]
      omega
    exact (h.toWindow.setCol _ _).wrap hcol
  · rw [if_neg htab, if_neg htab]
    have hcol : v.col < VGA_COLS := by
      rw [h.col]
      exact h.col_lt
    obtain ⟨v', hstore, hcol', hwindow⟩ := h.write c
    rw [if_pos hcol, hstore, Option.map_some, hcol']
    exact hwindow.wrap (congrArg (· + 1) h.col)

/-- All characters. -/
theorem Shows.puts (cs : List UInt8) : ∀ {v t}, Shows v t → ∃ v', vgaPuts v cs = some v' ∧ Shows v' (t.puts cs) := by
  induction cs with
  | nil => exact fun h => ⟨_, rfl, h⟩
  | cons c cs ih =>
      intro v t h
      obtain ⟨v₁, hput, h₁⟩ := h.put c
      obtain ⟨v', hputs, h'⟩ := ih h₁
      refine ⟨v', ?_, h'⟩
      rw [vgaPuts, List.foldlM_cons, hput]
      exact hputs

/-- A cleared screen shows the empty terminal. -/
theorem vgaClear_shows (hcolor : v.color = VGA_WHITE_ON_BLACK) :
    ∃ v', vgaClear v = some v' ∧ Shows v' .empty := by
  refine ⟨_, vgaClear_eq v, ⟨hcolor, rfl, Nat.zero_lt_succ 24, ?_, fun _ _ _ => rfl⟩, rfl, Nat.zero_lt_succ 79⟩
  intro r hr c hc
  exact if_pos ⟨Nat.zero_le _, by omega⟩

/-- **The screen is the end of an endless terminal.** After `vga_clear`, every sequence of characters is put without a
store outside the cells, the cursor is on the screen and where the terminal's is, and the screen shows the last 25 rows
of the terminal. -/
theorem vga_shows_terminal (v : Vga) (hcolor : v.color = VGA_WHITE_ON_BLACK) (cs : List UInt8) :
    ∃ v', (do vgaPuts (← vgaClear v) cs) = some v' ∧ v'.row < VGA_ROWS ∧ v'.col < VGA_COLS ∧
      v'.row = min (Terminal.empty.puts cs).row 24 ∧ v'.col = (Terminal.empty.puts cs).col ∧
      ∀ r < VGA_ROWS, ∀ c < VGA_COLS, v'.cells (r * VGA_COLS + c) =
        cell VGA_WHITE_ON_BLACK ((Terminal.empty.puts cs).line ((Terminal.empty.puts cs).top + r) c) := by
  obtain ⟨v₀, hclear, h₀⟩ := vgaClear_shows hcolor
  obtain ⟨v', hputs, h⟩ := h₀.puts cs
  have hrow := h.row
  have hlt := h.row_lt
  rw [Terminal.top] at hrow
  refine ⟨v', ?_, h.row_lt, ?_, by omega, h.col, h.cells⟩
  · rw [hclear]
    exact hputs
  · rw [h.col]
    exact h.col_lt

/-- A line that is full and one `a` more, a tab, `b`, back to the start of the line and `c` over the `a`, then 24 new
    lines and `d`. -/
def scrolledText : List UInt8 := List.replicate 81 97 ++ [9, 98, 13, 99] ++ List.replicate 24 10 ++ [100]

/-- The full line has scrolled away, and the one behind it is at the top. -/
theorem vga_shows_terminal_scrolled :
    ∃ v' : Vga, (do vgaPuts (← vgaClear ⟨fun _ => 0, 5, 12, VGA_WHITE_ON_BLACK⟩) scrolledText) = some v' ∧
      v'.row = 24 ∧ v'.col = 1 ∧ v'.cells 0 = 0x0763 ∧ v'.cells 8 = 0x0762 ∧ v'.cells (24 * 80) = 0x0764 := by
  obtain ⟨v', hrun, -, -, hrow, hcol, hcells⟩ := vga_shows_terminal ⟨fun _ => 0, 5, 12, VGA_WHITE_ON_BLACK⟩ rfl scrolledText
  refine ⟨v', hrun, hrow.trans (by decide +kernel), hcol.trans (by decide +kernel), ?_, ?_, ?_⟩
  · exact (hcells 0 (by decide) 0 (by decide)).trans (by decide +kernel)
  · exact (hcells 0 (by decide) 8 (by decide)).trans (by decide +kernel)
  · exact (hcells 24 (by decide) 0 (by decide)).trans (by decide +kernel)

end MyUnix.Console
