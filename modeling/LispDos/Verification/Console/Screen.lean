import LispDos.Foundation.Raster
import LispDos.Foundation.TextGrid
import LispDos.Verification.Console.Bounds

/-! # The console is a text screen

A text screen says what the console is for: a grid of characters with their colours. The
framebuffer always is its picture, on the condition that the rows of pixels are packed. -/

namespace LispDos.Console

open Foundation

/-! ## The text screen -/

/-- What a cell of the screen shows. -/
inductive Cell where
  | blank (bg : UInt32)
  | glyph (c : UInt8) (fg bg : UInt32)

/-- The colour of a pixel of a cell. -/
def Cell.color (font : ℕ → ℕ → UInt8) : Cell → ℕ → ℕ → UInt32
  | .blank bg, _, _ => bg
  | .glyph c fg bg, y, x => if (font c.toNat (y / 2)).toNat.testBit (x / 2) then fg else bg

/-- The cells, the two colours, and the colour of the pixels beside the cells. -/
structure Screen (rows cols : ℕ) where
  grid : TextGrid Cell rows cols
  fgColor : UInt32
  bgColor : UInt32
  margin : UInt32

namespace Screen

variable {rows cols : ℕ} (s : Screen rows cols)

def putchar (c : UInt8) : Screen rows cols :=
  { s with
    grid :=
      if c = 0x08 then s.grid.erase (.blank s.bgColor)
      else if c = 0x0A then s.grid.newline
      else s.grid.put (.glyph c s.fgColor s.bgColor) }

def print : Screen rows cols → List UInt8 → Screen rows cols
  | s, [] => s
  | s, c :: cs => if c = 0 then s else (s.putchar c).print cs

def exec : Op → Screen rows cols
  | .print data => s.print data
  | .clear => { s with grid := s.grid.fill (.blank s.bgColor), margin := s.bgColor }
  | .setCursor row col => { s with grid := s.grid.moveTo row.toNat col.toNat }
  | .putchar c => s.putchar c
  | .setColor fg bg =>
      { s with
        fgColor := colors.getD (fg &&& 0x0F).toNat 0
        bgColor := colors.getD (bg &&& 0x0F).toNat 0 }

def run (ops : List Op) : Screen rows cols := ops.foldl exec s

theorem run_append (ops ops' : List Op) : s.run (ops ++ ops') = (s.run ops).run ops' :=
  List.foldl_append

/-- The picture of the screen: cells of 16 by 16 pixels, and what is left beside them. -/
def pixel (font : ℕ → ℕ → UInt8) (y x : ℕ) : UInt32 :=
  if y / 16 < rows ∧ x / 16 < cols then (s.grid.cell (y / 16) (x / 16)).color font (y % 16) (x % 16)
  else s.margin

end Screen

/-! ## The framebuffer -/

variable {fb : Framebuffer} {font : ℕ → ℕ → UInt8} {t : Terminal} {px : ℕ → UInt32} {y x r k : ℕ}

def Framebuffer.rows (fb : Framebuffer) : ℕ := fb.height.toNat / 16

def Framebuffer.cols (fb : Framebuffer) : ℕ := fb.width.toNat / 16

/-- The number of pixels from one row to the next. -/
def Framebuffer.stride (fb : Framebuffer) : ℕ := fb.pitch.toNat / 4

/-- The stores to the framebuffer. -/
def stores (draws : List Draw) : List (ℕ × UInt32) :=
  draws.filterMap fun
    | .pixel index color => some (index.toNat, color)
    | .glyph _ => none

theorem stores_append (draws draws' : List Draw) :
    stores (draws ++ draws') = stores draws ++ stores draws' := List.filterMap_append

theorem mem_stores {draws : List Draw} {s : ℕ × UInt32} :
    s ∈ stores draws ↔ ∃ index, .pixel index s.2 ∈ draws ∧ index.toNat = s.1 := by
  rw [stores, List.mem_filterMap]
  constructor
  · rintro ⟨draw, hdraw, heq⟩
    cases draw with
    | pixel index color =>
        obtain rfl := Option.some.inj heq
        exact ⟨index, hdraw, rfl⟩
    | glyph row => cases heq
  · rintro ⟨index, hdraw, hindex⟩
    exact ⟨_, hdraw, congrArg some (Prod.ext hindex rfl)⟩

/-- The framebuffer is the picture of the screen. -/
structure Displays (fb : Framebuffer) (font : ℕ → ℕ → UInt8) (t : Terminal) (px : ℕ → UInt32)
    (s : Screen fb.rows fb.cols) : Prop where
  row : t.row.toNat = s.grid.row
  column : t.column.toNat = s.grid.col
  fgColor : t.fgColor = s.fgColor
  bgColor : t.bgColor = s.bgColor
  pixel : ∀ y < fb.height.toNat, ∀ x < fb.width.toNat,
    px (y * fb.stride + x) = s.pixel font y x

/-- The framebuffer fits the address space. -/
structure Fits (fb : Framebuffer) : Prop extends Geometry fb where
  size : fb.height.toNat * fb.stride < 2 ^ 64

variable {s : Screen fb.rows fb.cols}

theorem Displays.onScreen (h : Displays fb font t px s) : OnScreen fb t.row t.column where
  row := by rw [h.row]; exact s.grid.row_lt
  col := by rw [h.column]; exact s.grid.col_lt

theorem Fits.width_le (h : Fits fb) : fb.width.toNat ≤ fb.stride := by
  have := h.pitch
  unfold Framebuffer.stride
  omega

/-! ## Cells in the framebuffer -/

/-- On the screen the index of a pixel does not wrap around. -/
theorem Fits.toNat_pixelIndex (hfits : Fits fb) (h : OnScreen fb t.row t.column) (hy : y < 16)
    (hx : x < 16) :
    (pixelIndex fb t y x).toNat =
      (t.row.toNat * 16 + y) * fb.stride + (t.column.toNat * 16 + x) := by
  obtain ⟨hrow, hcol⟩ := h
  have h16 : (16 : Size).toNat = 16 := rfl
  have hoffset : ∀ {n : Size} {z : ℕ}, z < 16 → n.toNat * 16 + z < 2 ^ 64 →
      (n * 16 + BitVec.ofNat 64 z).toNat = n.toNat * 16 + z := by
    intro n z hz hlt
    rw [BitVec.toNat_add, BitVec.toNat_mul, BitVec.toNat_ofNat, h16]
    omega
  have hheight := fb.height.isLt
  have hwidth := fb.width.isLt
  have hline : t.column.toNat * 16 + x < fb.stride := by
    have := hfits.width_le
    omega
  have hindex : (t.row.toNat * 16 + y) * fb.stride + (t.column.toNat * 16 + x) < 2 ^ 64 := by
    calc (t.row.toNat * 16 + y) * fb.stride + (t.column.toNat * 16 + x)
        < (t.row.toNat * 16 + y) * fb.stride + fb.stride := Nat.add_lt_add_left hline _
      _ = (t.row.toNat * 16 + y + 1) * fb.stride := by rw [Nat.add_mul _ 1, Nat.one_mul]
      _ ≤ fb.height.toNat * fb.stride := Nat.mul_le_mul_right _ (by omega)
      _ < 2 ^ 64 := hfits.size
  have hpitch : (fb.pitch / 4).toNat = fb.stride := BitVec.toNat_udiv
  rw [pixelIndex, BitVec.toNat_add, BitVec.toNat_mul, hoffset hy (by omega), hoffset hx (by omega),
    hpitch, Nat.mod_eq_of_lt (a := (t.row.toNat * 16 + y) * fb.stride) (by omega),
    Nat.mod_eq_of_lt hindex]

/-- The picture of one cell. -/
def cellPicture (font : ℕ → ℕ → UInt8) (r k : ℕ) (cell : Cell) (y x : ℕ) : Option UInt32 :=
  if y / 16 = r ∧ x / 16 = k then some (cell.color font (y % 16) (x % 16)) else none

/-- Stores to all pixels of the cell at the cursor paint it. -/
theorem Fits.paints_cell (font : ℕ → ℕ → UInt8) (hfits : Fits fb) (h : OnScreen fb t.row t.column)
    {draws : List Draw}
    {cell : Cell} (hdraws : ∀ index color, .pixel index color ∈ draws ↔
      ∃ y < 16, ∃ x < 16, index = pixelIndex fb t y x ∧ color = cell.color font y x) :
    Paints fb.stride (stores draws) (cellPicture font t.row.toNat t.column.toNat cell) where
  pixel := by
    intro s hs
    obtain ⟨index, hmem, hindex⟩ := mem_stores.mp hs
    obtain ⟨y, hy, x, hx, rfl, hcolor⟩ := (hdraws _ _).mp hmem
    rw [hfits.toNat_pixelIndex h hy hx] at hindex
    have hcol := h.col
    have hwidth := hfits.width_le
    refine ⟨t.row.toNat * 16 + y, t.column.toNat * 16 + x, by omega, hindex.symm, ?_⟩
    rw [cellPicture, if_pos ⟨by omega, by omega⟩, hcolor]
    congr 2 <;> omega
  complete := by
    intro y x c hx hpicture
    rw [cellPicture] at hpicture
    split at hpicture
    · rename_i hcell
      obtain rfl := Option.some.inj hpicture
      have hy16 : y % 16 < 16 := Nat.mod_lt _ (by omega)
      have hx16 : x % 16 < 16 := Nat.mod_lt _ (by omega)
      refine mem_stores.mpr ⟨_, (hdraws _ _).mpr ⟨y % 16, hy16, x % 16, hx16, rfl, rfl⟩, ?_⟩
      rw [hfits.toNat_pixelIndex h hy16 hx16]
      congr 2 <;> omega
    · cases hpicture

theorem mem_clearCell {index : Size} {color : UInt32} : .pixel index color ∈ clearCell fb t ↔
    ∃ y < 16, ∃ x < 16, index = pixelIndex fb t y x ∧ color = (Cell.blank t.bgColor).color font y x := by
  simp only [clearCell, List.mem_flatMap, List.mem_map, List.mem_range, Draw.pixel.injEq, Cell.color,
    eq_comm]

theorem mem_drawGlyph {c : UInt8} {index : Size} {color : UInt32} :
    .pixel index color ∈ drawGlyph fb t font c ↔ ∃ y < 16, ∃ x < 16, index = pixelIndex fb t y x ∧
      color = (Cell.glyph c t.fgColor t.bgColor).color font y x := by
  simp only [drawGlyph, List.mem_flatMap, List.mem_cons, List.mem_map, List.mem_range, reduceCtorEq,
    false_or, Draw.pixel.injEq, Cell.color]
  constructor
  · rintro ⟨y, hy, x, hx, sy, hsy, sx, hsx, rfl, rfl⟩
    have hy2 : (y * 2 + sy) / 2 = y := by omega
    have hx2 : (x * 2 + sx) / 2 = x := by omega
    exact ⟨y * 2 + sy, by omega, x * 2 + sx, by omega, rfl, by rw [hy2, hx2]⟩
  · rintro ⟨y, hy, x, hx, rfl, rfl⟩
    refine ⟨y / 2, by omega, x / 2, by omega, y % 2, by omega, x % 2, by omega, ?_, rfl⟩
    congr 1 <;> omega

/-- Painting the cell at the cursor stores it on the screen. -/
theorem Displays.paint_cell (h : Displays fb font t px s) (hfits : Fits fb) {cell : Cell}
    {st : List (ℕ × UInt32)}
    (hpaints : Paints fb.stride st (cellPicture font t.row.toNat t.column.toNat cell)) :
    Displays fb font t (paint px st) { s with grid := s.grid.store cell } where
  row := h.row
  column := h.column
  fgColor := h.fgColor
  bgColor := h.bgColor
  pixel := by
    intro y hy x hx
    rw [hpaints.paint_eq (Nat.lt_of_lt_of_le hx hfits.width_le), h.pixel y hy x hx, cellPicture,
      h.row, h.column, Screen.pixel, Screen.pixel, TextGrid.store_cell]
    by_cases hcell : y / 16 = s.grid.row ∧ x / 16 = s.grid.col
    · have hgrid : y / 16 < fb.rows ∧ x / 16 < fb.cols := by
        rw [hcell.1, hcell.2]
        exact ⟨s.grid.row_lt, s.grid.col_lt⟩
      rw [if_pos hcell, if_pos hcell, Option.getD_some, if_pos hgrid]
    · rw [if_neg hcell, if_neg hcell, Option.getD_none]

/-! ## The cursor -/

theorem toNat_succ {n m : Size} (h : n.toNat < m.toNat) : (n + 1).toNat = n.toNat + 1 := by
  have hm := m.isLt
  have hone : (1 : Size).toNat = 1 := rfl
  rw [BitVec.toNat_add, hone, Nat.mod_eq_of_lt (by omega)]

theorem toNat_pred {n : Size} (h : 0 < n.toNat) : (n - 1).toNat = n.toNat - 1 := by
  have hone : (1 : Size).toNat = 1 := rfl
  rw [BitVec.toNat_sub_of_le (by rw [BitVec.le_def, hone]; exact h), hone]

/-- `++n >= m / 16` of a number of cells. -/
theorem cells_le_succ_iff {n m : Size} (h : n.toNat < m.toNat / 16) :
    m / 16 ≤ n + 1 ↔ m.toNat / 16 ≤ n.toNat + 1 := by
  rw [BitVec.le_def, toNat_cells, toNat_succ (m := m) (by omega)]

theorem Displays.nextRow (h : Displays fb font t px s) :
    (nextRow fb t).toNat = s.grid.newline.row ∧ s.grid.newline.col = 0 := by
  have hrow := h.onScreen.row
  have hiff := cells_le_succ_iff hrow
  unfold Console.nextRow TextGrid.newline
  rw [h.row] at hrow hiff
  by_cases hlast : fb.height / 16 ≤ t.row + 1
  · have hge : ¬ s.grid.row + 1 < fb.rows := by
      have := hiff.mp hlast
      unfold Framebuffer.rows
      omega
    rw [if_pos hlast, dif_neg hge]
    exact ⟨rfl, rfl⟩
  · have hlt : s.grid.row + 1 < fb.rows := by
      have : ¬ _ := fun hle => hlast (hiff.mpr hle)
      unfold Framebuffer.rows
      omega
    rw [if_neg hlast, dif_pos hlt, toNat_succ (m := fb.height) (by rw [h.row]; omega), h.row]
    exact ⟨rfl, rfl⟩

/-- What is on the screen stays when the cursor moves. -/
theorem Displays.move (h : Displays fb font t px s) {row col : Size} {g : TextGrid Cell fb.rows fb.cols}
    (hrow : row.toNat = g.row) (hcol : col.toNat = g.col) (hcell : g.cell = s.grid.cell) :
    Displays fb font { t with row := row, column := col } px { s with grid := g } where
  row := hrow
  column := hcol
  fgColor := h.fgColor
  bgColor := h.bgColor
  pixel := by
    intro y hy x hx
    rw [h.pixel y hy x hx, Screen.pixel, Screen.pixel, hcell]

theorem Displays.newline (h : Displays fb font t px s) :
    Displays fb font { t with row := Console.nextRow fb t, column := 0 } px
      { s with grid := s.grid.newline } := by
  obtain ⟨hrow, hcol⟩ := h.nextRow
  exact h.move hrow (by rw [hcol]; rfl) s.grid.newline_cell

theorem Displays.advance (h : Displays fb font t px s) :
    Displays fb font (stepForward fb t) px { s with grid := s.grid.advance } := by
  have hcol := h.onScreen.col
  have hiff := cells_le_succ_iff hcol
  rw [h.column] at hcol hiff
  unfold stepForward TextGrid.advance
  by_cases hlast : fb.width / 16 ≤ t.column + 1
  · have hge : ¬ s.grid.col + 1 < fb.cols := by
      have := hiff.mp hlast
      unfold Framebuffer.cols
      omega
    rw [if_pos hlast, dif_neg hge]
    exact h.newline
  · have hlt : s.grid.col + 1 < fb.cols := by
      have : ¬ _ := fun hle => hlast (hiff.mpr hle)
      unfold Framebuffer.cols
      omega
    rw [if_neg hlast, dif_pos hlt]
    refine h.move h.row ?_ rfl
    rw [toNat_succ (m := fb.width) (by rw [h.column]; omega), h.column]

theorem Displays.back (h : Displays fb font t px s) :
    Displays fb font (stepBack fb t) px { s with grid := s.grid.back } := by
  have hzero : (0 : Size).toNat = 0 := rfl
  have hpos : ∀ {n : Size} {m : ℕ}, n.toNat = m → (0 < n ↔ 0 < m) := by
    intro n m hm
    rw [BitVec.lt_def, hzero, hm]
  unfold stepBack TextGrid.back
  by_cases hcol : 0 < s.grid.col
  · rw [if_pos ((hpos h.column).mpr hcol), if_pos hcol]
    refine h.move h.row ?_ rfl
    rw [toNat_pred (by rw [h.column]; exact hcol), h.column]
  · rw [if_neg (mt (hpos h.column).mp hcol), if_neg hcol]
    by_cases hrow : 0 < s.grid.row
    · rw [if_pos ((hpos h.row).mpr hrow), if_pos hrow]
      refine h.move ?_ ?_ rfl
      · rw [toNat_pred (by rw [h.row]; exact hrow), h.row]
      · have hcols := s.grid.cols_pos
        have hcells := toNat_cells fb.width
        unfold Framebuffer.cols at hcols
        rw [toNat_pred (by omega), hcells]
        rfl
    · rw [if_neg (mt (hpos h.row).mp hrow), if_neg hrow]
      exact h

/-! ## Operations -/

variable {c : UInt8}

theorem Displays.putchar (h : Displays fb font t px s) (hfits : Fits fb) (c : UInt8) :
    Displays fb font (vgaPutchar fb t font c).1 (paint px (stores (vgaPutchar fb t font c).2))
      (s.putchar c) := by
  unfold vgaPutchar Screen.putchar
  by_cases hback : c = 0x08
  · simp only [if_pos hback]
    have hmoved := h.back
    have hpaints := hfits.paints_cell font hmoved.onScreen fun _ _ => mem_clearCell
    have hcolor : (stepBack fb t).bgColor = s.bgColor := hmoved.bgColor
    rw [hcolor] at hpaints
    exact hmoved.paint_cell hfits hpaints
  · by_cases hline : c = 0x0A
    · simp only [if_neg hback, if_pos hline]
      exact h.newline
    · simp only [if_neg hback, if_neg hline]
      have hpaints := hfits.paints_cell font h.onScreen fun _ _ => mem_drawGlyph (c := c)
      rw [h.fgColor, h.bgColor] at hpaints
      exact (h.paint_cell hfits hpaints).advance

theorem Displays.print (h : Displays fb font t px s) (hfits : Fits fb) (data : List UInt8) :
    Displays fb font (vgaPrint fb font t data).1 (paint px (stores (vgaPrint fb font t data).2))
      (s.print data) := by
  induction data generalizing t px s with
  | nil => exact h
  | cons c cs ih =>
      unfold vgaPrint Screen.print
      by_cases hzero : c = 0
      · simp only [if_pos hzero]
        exact h
      · simp only [if_neg hzero, stores_append, paint_append]
        exact ih (h.putchar hfits c)

/-- Clearing paints the whole picture if the rows are packed. -/
theorem paints_clear (hfits : Fits fb) (hpacked : fb.stride = fb.width.toNat) (t : Terminal) :
    Paints fb.stride (stores (vgaClear fb t).2) fun y x =>
      if y < fb.height.toNat ∧ x < fb.width.toNat then some t.bgColor else none := by
  have hsize := hfits.size
  rw [hpacked] at hsize
  have hmul : (fb.width * fb.height).toNat = fb.height.toNat * fb.width.toNat := by
    rw [BitVec.toNat_mul, Nat.mul_comm, Nat.mod_eq_of_lt hsize]
  have hindex : ∀ {i : ℕ}, i < fb.height.toNat * fb.width.toNat → (BitVec.ofNat 64 i).toNat = i :=
    fun hi => by rw [BitVec.toNat_ofNat, Nat.mod_eq_of_lt (by omega)]
  have hwidth : 0 < fb.width.toNat := by
    have := hfits.width
    omega
  constructor
  · intro s hs
    obtain ⟨index, hmem, hs'⟩ := mem_stores.mp hs
    obtain ⟨i, hi, heq⟩ := List.mem_map.mp hmem
    rw [List.mem_range, hmul] at hi
    injection heq with hi' hcolor
    rw [← hi', hindex hi] at hs'
    refine ⟨i / fb.width.toNat, i % fb.width.toNat, ?_, ?_, ?_⟩
    · rw [hpacked]
      exact Nat.mod_lt _ hwidth
    · rw [← hs', hpacked, Nat.mul_comm, Nat.div_add_mod]
    · rw [if_pos ⟨Nat.div_lt_of_lt_mul (by rwa [Nat.mul_comm]), Nat.mod_lt _ hwidth⟩, hcolor]
  · intro y x c _ hpicture
    split at hpicture
    · rename_i hyx
      obtain rfl := Option.some.inj hpicture
      have hlt : y * fb.stride + x < fb.height.toNat * fb.width.toNat := by
        calc y * fb.stride + x < y * fb.width.toNat + fb.width.toNat := by
              rw [hpacked]
              exact Nat.add_lt_add_left hyx.2 _
          _ = (y + 1) * fb.width.toNat := by rw [Nat.add_mul, Nat.one_mul]
          _ ≤ fb.height.toNat * fb.width.toNat := Nat.mul_le_mul_right _ hyx.1
      refine mem_stores.mpr ⟨BitVec.ofNat 64 (y * fb.stride + x), List.mem_map.mpr ⟨_, ?_, rfl⟩, hindex hlt⟩
      rwa [List.mem_range, hmul]
    · cases hpicture

/-- The picture of a cleared screen. -/
theorem displays_clear (font : ℕ → ℕ → UInt8) (hfits : Fits fb) (hpacked : fb.stride = fb.width.toNat)
    (hfg : t.fgColor = s.fgColor) (hbg : t.bgColor = s.bgColor) (px : ℕ → UInt32) :
    Displays fb font (vgaClear fb t).1 (paint px (stores (vgaClear fb t).2)) (s.exec .clear) where
  row := rfl
  column := rfl
  fgColor := hfg
  bgColor := hbg
  pixel := by
    intro y hy x hx
    rw [(paints_clear hfits hpacked t).paint_eq (Nat.lt_of_lt_of_le hx hfits.width_le),
      if_pos ⟨hy, hx⟩, Option.getD_some, Screen.pixel, hbg]
    split <;> rfl

theorem Displays.exec (h : Displays fb font t px s) (hfits : Fits fb)
    (hpacked : fb.stride = fb.width.toNat) {op : Op} (hop : op.Tidy fb) :
    Displays fb font (op.exec fb font t).1 (paint px (stores (op.exec fb font t).2)) (s.exec op) := by
  cases op with
  | print data => exact h.print hfits data
  | clear => exact displays_clear _ hfits hpacked h.fgColor h.bgColor px
  | setCursor row col =>
      have hin : row.toNat < fb.rows ∧ col.toNat < fb.cols := ⟨hop.row, hop.col⟩
      refine h.move ?_ ?_ (s.grid.moveTo_cell _ _)
      · rw [TextGrid.moveTo, dif_pos hin]
      · rw [TextGrid.moveTo, dif_pos hin]
  | putchar c => exact h.putchar hfits c
  | setColor fg bg => exact ⟨h.row, h.column, rfl, rfl, h.pixel⟩

theorem Displays.execAll (h : Displays fb font t px s) (hfits : Fits fb)
    (hpacked : fb.stride = fb.width.toNat) {ops : List Op} (hops : ∀ op ∈ ops, op.Tidy fb) :
    Displays fb font (execAll fb font t ops).1 (paint px (stores (execAll fb font t ops).2))
      (s.run ops) := by
  induction ops generalizing t px s with
  | nil => exact h
  | cons op ops ih =>
      rw [List.forall_mem_cons] at hops
      unfold Console.execAll
      simp only [stores_append, paint_append]
      exact ih (h.exec hfits hpacked hops.1) hops.2

/-! ## Runs -/

/-- A screen of blanks in the colours of the kernel. -/
def Screen.start (h : Fits fb) : Screen fb.rows fb.cols where
  grid := ⟨fun _ _ => .blank Terminal.start.bgColor, 0, 0,
    Nat.div_pos h.height (by omega), Nat.div_pos h.width (by omega)⟩
  fgColor := Terminal.start.fgColor
  bgColor := Terminal.start.bgColor
  margin := Terminal.start.bgColor

theorem displays_run (hfits : Fits fb) (hpacked : fb.stride = fb.width.toNat)
    (font : ℕ → ℕ → UInt8) (px : ℕ → UInt32) {ops : List Op} (hops : ∀ op ∈ ops, op.Tidy fb) :
    ∀ y < fb.height.toNat, ∀ x < fb.width.toNat,
      paint px (stores (consoleRun fb font ops)) (y * fb.stride + x) =
        ((Screen.start hfits).run ops).pixel font y x := by
  have hclear := displays_clear (t := .start) (s := Screen.start hfits) font hfits hpacked
    rfl rfl px
  have hrun := hclear.execAll hfits hpacked hops
  rw [← paint_append, ← stores_append] at hrun
  exact hrun.pixel

/-- Whatever the framebuffer holds at first, after any tidy operations it is the picture of the
text screen: this is so exactly if its rows are packed. -/
theorem console_displays_screen_iff (hfits : Fits fb) (font : ℕ → ℕ → UInt8) :
    (∀ px ops, (∀ op ∈ ops, op.Tidy fb) → ∀ y < fb.height.toNat, ∀ x < fb.width.toNat,
      paint px (stores (consoleRun fb font ops)) (y * fb.stride + x) =
        ((Screen.start hfits).run ops).pixel font y x) ↔ fb.stride = fb.width.toNat := by
  constructor
  · intro h
    have hpixel := h (fun _ => 1) [] (by simp) (fb.height.toNat - 1)
      (by have := hfits.height; omega) (fb.width.toNat - 1) (by have := hfits.width; omega)
    by_contra hne
    have hlt : fb.width.toNat < fb.stride := Nat.lt_of_le_of_ne hfits.width_le (Ne.symm hne)
    -- the last pixel lies behind the pixels that `vga_clear` stores to
    have hbehind : (fb.width * fb.height).toNat ≤
        (fb.height.toNat - 1) * fb.stride + (fb.width.toNat - 1) := by
      have hheight := hfits.height
      have hrows : (fb.height.toNat - 1) * (fb.width.toNat + 1) ≤
          (fb.height.toNat - 1) * fb.stride := Nat.mul_le_mul_left _ hlt
      have hexpand : (fb.height.toNat - 1) * (fb.width.toNat + 1) + fb.width.toNat =
          fb.width.toNat * fb.height.toNat + (fb.height.toNat - 1) := by
        obtain ⟨n, hn⟩ : ∃ n, fb.height.toNat = n + 1 := ⟨fb.height.toNat - 1, by omega⟩
        rw [hn, Nat.add_sub_cancel]
        ring
      calc (fb.width * fb.height).toNat ≤ fb.width.toNat * fb.height.toNat := by
            rw [BitVec.toNat_mul]
            exact Nat.mod_le _ _
        _ ≤ (fb.height.toNat - 1) * fb.stride + (fb.width.toNat - 1) := by omega
    have hkept : paint (fun _ => (1 : UInt32)) (stores (consoleRun fb font []))
        ((fb.height.toNat - 1) * fb.stride + (fb.width.toNat - 1)) = 1 := by
      refine paint_of_forall_ne ?_
      intro s hs heq
      obtain ⟨index, hmem, hindex⟩ := mem_stores.mp hs
      have hmem' : .pixel index s.2 ∈ (vgaClear fb .start).2 := by
        simpa [consoleRun, Console.execAll, Op.exec] using hmem
      obtain ⟨i, hi, hdraw⟩ := List.mem_map.mp hmem'
      injection hdraw with hi'
      rw [List.mem_range] at hi
      have := Nat.mod_le i (2 ^ 64)
      rw [← hi', BitVec.toNat_ofNat] at hindex
      omega
    have hblank : ((Screen.start hfits).run []).pixel font (fb.height.toNat - 1)
        (fb.width.toNat - 1) = 0 := by
      unfold Screen.pixel
      split <;> rfl
    rw [hkept, hblank] at hpixel
    exact absurd hpixel (by decide)
  · intro hpacked px ops hops
    exact displays_run hfits hpacked font px hops

theorem vgaMode_fits : Fits vgaMode := ⟨⟨by decide, by decide, by decide⟩, by decide⟩

/-- A letter on a screen of 640 by 480 pixels with packed rows. -/
theorem console_displays_screen_iff_vgaMode :
    paint (fun _ => 1) (stores (consoleRun vgaMode (fun _ _ => 0) [.putchar 0x41]))
        (5 * vgaMode.stride + 7) =
      ((Screen.start vgaMode_fits).run [.putchar 0x41]).pixel (fun _ _ => 0) 5 7 := by
  have hdisplays := (console_displays_screen_iff vgaMode_fits fun _ _ => 0).mpr rfl
  refine hdisplays (fun _ => 1) [.putchar 0x41] ?_ 5 (by decide) 7 (by decide)
  simp only [List.forall_mem_singleton, Op.Tidy]
  decide

end LispDos.Console
