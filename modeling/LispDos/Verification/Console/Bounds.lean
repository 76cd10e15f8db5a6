import LispDos.Hal.Vga

/-! # The console stays in the framebuffer

As long as the cursor is only set to cells of the screen and only characters of the font are
printed, every operation keeps the cursor on the screen and draws inside the framebuffer. -/

namespace LispDos.Console

variable {fb : Framebuffer} {t : Terminal} {font : ℕ → ℕ → UInt8} {draws : List Draw}
  {rows : ℕ → Prop}

/-- At least one cell, and rows that do not overlap. -/
structure Geometry (fb : Framebuffer) : Prop where
  width : 16 ≤ fb.width.toNat
  height : 16 ≤ fb.height.toNat
  pitch : 4 * fb.width.toNat ≤ fb.pitch.toNat

/-- The access lies in the framebuffer, or in the 128 rows of the font. -/
def Draw.Inside (fb : Framebuffer) : Draw → Prop
  | .pixel index _ => index.toNat < fb.height.toNat * (fb.pitch.toNat / 4)
  | .glyph row => row < 128

/-- The access lies in the framebuffer, or in one of these rows of the font. -/
def Draw.Within (fb : Framebuffer) (rows : ℕ → Prop) : Draw → Prop
  | .pixel index _ => index.toNat < fb.height.toNat * (fb.pitch.toNat / 4)
  | .glyph row => rows row

theorem Draw.within_iff {draw : Draw} : draw.Within fb (· < 128) ↔ draw.Inside fb := by
  cases draw <;> exact Iff.rfl

/-- The cursor is on a cell of the screen. -/
structure OnScreen (fb : Framebuffer) (row col : Size) : Prop where
  row : row.toNat < fb.height.toNat / 16
  col : col.toNat < fb.width.toNat / 16

/-- The operation sets the cursor on the screen only, and prints characters of the font
only. -/
def Op.Tidy (fb : Framebuffer) : Op → Prop
  | .print data => ∀ c ∈ data.takeWhile (· ≠ 0), c < 0x80
  | .clear => True
  | .setCursor row col => OnScreen fb row col
  | .putchar c => c < 0x80
  | .setColor _ _ => True

/-- The operation sets the cursor on the screen only, and prints characters with these rows of the
font only. -/
def Op.Prints (fb : Framebuffer) (rows : ℕ → Prop) : Op → Prop
  | .print data => ∀ c ∈ data.takeWhile (· ≠ 0), rows c.toNat
  | .clear => True
  | .setCursor row col => OnScreen fb row col
  | .putchar c => rows c.toNat
  | .setColor _ _ => True

theorem Op.prints_iff {op : Op} : op.Prints fb (· < 128) ↔ op.Tidy fb := by
  cases op <;> exact Iff.rfl

/-! ## The cursor -/

theorem toNat_cells (n : Size) : (n / 16).toNat = n.toNat / 16 := BitVec.toNat_udiv

theorem OnScreen.home (h : Geometry fb) : OnScreen fb 0 0 := by
  obtain ⟨hwidth, hheight, _⟩ := h
  have hzero : (0 : Size).toNat = 0 := rfl
  constructor <;> omega

theorem nextRow_lt (h : Geometry fb) (t : Terminal) :
    (nextRow fb t).toNat < fb.height.toNat / 16 := by
  unfold nextRow
  split_ifs with hlast
  · exact (OnScreen.home h).row
  · rwa [BitVec.not_le, BitVec.lt_def, toNat_cells] at hlast

theorem OnScreen.stepForward (hgeom : Geometry fb) (h : OnScreen fb t.row t.column) :
    OnScreen fb (stepForward fb t).row (stepForward fb t).column := by
  unfold Console.stepForward
  split_ifs with hlast
  · exact ⟨nextRow_lt hgeom t, (OnScreen.home hgeom).col⟩
  · rw [BitVec.not_le, BitVec.lt_def, toNat_cells] at hlast
    exact ⟨h.row, hlast⟩

theorem OnScreen.stepBack (hgeom : Geometry fb) (h : OnScreen fb t.row t.column) :
    OnScreen fb (stepBack fb t).row (stepBack fb t).column := by
  have hone : (1 : Size).toNat = 1 := rfl
  have hpred : ∀ {n : Size}, 0 < n.toNat → (n - 1).toNat = n.toNat - 1 := by
    intro n hn
    rw [BitVec.toNat_sub_of_le (by rw [BitVec.le_def, hone]; exact hn), hone]
  have hcells := toNat_cells fb.width
  obtain ⟨hrow, hcol⟩ := h
  obtain ⟨hwidth, _, _⟩ := hgeom
  unfold Console.stepBack
  split_ifs with hcolumn hrow'
  · rw [BitVec.lt_def] at hcolumn
    have := hpred (Nat.zero_lt_of_lt hcolumn)
    exact ⟨hrow, by simp only; omega⟩
  · rw [BitVec.lt_def] at hrow'
    have hup := hpred (Nat.zero_lt_of_lt hrow')
    have hlast := hpred (n := fb.width / 16) (by omega)
    constructor
    · simp only
      omega
    · simp only
      omega
  · exact ⟨hrow, hcol⟩

/-! ## Accesses -/

/-- The cell of a cursor on the screen lies in the framebuffer. -/
theorem OnScreen.pixelIndex (hgeom : Geometry fb) (h : OnScreen fb t.row t.column) {y x : ℕ}
    (hy : y < 16) (hx : x < 16) :
    (pixelIndex fb t y x).toNat < fb.height.toNat * (fb.pitch.toNat / 4) := by
  obtain ⟨hrow, hcol⟩ := h
  have hline : fb.width.toNat ≤ fb.pitch.toNat / 4 := by
    have := hgeom.pitch
    omega
  have hoffset : ∀ {n : Size} {z : ℕ}, z < 16 →
      (n * 16 + BitVec.ofNat 64 z).toNat ≤ n.toNat * 16 + z := by
    intro n z hz
    rw [BitVec.toNat_add, BitVec.toNat_mul, BitVec.toNat_ofNat]
    have h16 : (16 : Size).toNat = 16 := rfl
    rw [h16]
    omega
  have hpitch : (fb.pitch / 4).toNat = fb.pitch.toNat / 4 := BitVec.toNat_udiv
  have hy' : (t.row * 16 + BitVec.ofNat 64 y).toNat + 1 ≤ fb.height.toNat := by
    have := hoffset (n := t.row) hy
    omega
  have hx' : (t.column * 16 + BitVec.ofNat 64 x).toNat < fb.pitch.toNat / 4 := by
    have := hoffset (n := t.column) hx
    omega
  -- a product that wraps around is smaller than the exact one
  calc (Console.pixelIndex fb t y x).toNat
      ≤ (t.row * 16 + BitVec.ofNat 64 y).toNat * (fb.pitch.toNat / 4) +
          (t.column * 16 + BitVec.ofNat 64 x).toNat := by
        rw [Console.pixelIndex, BitVec.toNat_add, BitVec.toNat_mul, hpitch]
        exact Nat.le_trans (Nat.mod_le _ _) (Nat.add_le_add_right (Nat.mod_le _ _) _)
    _ < (t.row * 16 + BitVec.ofNat 64 y).toNat * (fb.pitch.toNat / 4) + fb.pitch.toNat / 4 :=
        Nat.add_lt_add_left hx' _
    _ = ((t.row * 16 + BitVec.ofNat 64 y).toNat + 1) * (fb.pitch.toNat / 4) := by
        rw [Nat.add_mul, Nat.one_mul]
    _ ≤ fb.height.toNat * (fb.pitch.toNat / 4) := Nat.mul_le_mul_right _ hy'

theorem vgaClear_inside (hgeom : Geometry fb) (t : Terminal) :
    ∀ draw ∈ (vgaClear fb t).2, draw.Within fb rows := by
  intro draw hdraw
  obtain ⟨i, hi, rfl⟩ := List.mem_map.mp hdraw
  rw [List.mem_range, BitVec.toNat_mul] at hi
  have hline : fb.width.toNat ≤ fb.pitch.toNat / 4 := by
    have := hgeom.pitch
    omega
  calc (BitVec.ofNat 64 i).toNat ≤ i := by
        rw [BitVec.toNat_ofNat]
        exact Nat.mod_le _ _
    _ < fb.width.toNat * fb.height.toNat := Nat.lt_of_lt_of_le hi (Nat.mod_le _ _)
    _ ≤ fb.height.toNat * (fb.pitch.toNat / 4) := by
        rw [Nat.mul_comm]
        exact Nat.mul_le_mul_left _ hline

theorem clearCell_inside (hgeom : Geometry fb) (h : OnScreen fb t.row t.column) :
    ∀ draw ∈ clearCell fb t, draw.Within fb rows := by
  intro draw hdraw
  obtain ⟨y, hy, hdraw⟩ := List.mem_flatMap.mp hdraw
  obtain ⟨x, hx, rfl⟩ := List.mem_map.mp hdraw
  exact h.pixelIndex hgeom (List.mem_range.mp hy) (List.mem_range.mp hx)

theorem drawGlyph_inside (hgeom : Geometry fb) (h : OnScreen fb t.row t.column) {c : UInt8}
    (hc : rows c.toNat) : ∀ draw ∈ drawGlyph fb t font c, draw.Within fb rows := by
  intro draw hdraw
  obtain ⟨y, hy, hdraw⟩ := List.mem_flatMap.mp hdraw
  rcases List.mem_cons.mp hdraw with rfl | hdraw
  · exact hc
  · obtain ⟨x, hx, hdraw⟩ := List.mem_flatMap.mp hdraw
    obtain ⟨sy, hsy, hdraw⟩ := List.mem_flatMap.mp hdraw
    obtain ⟨sx, hsx, rfl⟩ := List.mem_map.mp hdraw
    rw [List.mem_range] at hy hx hsy hsx
    exact h.pixelIndex hgeom (by omega) (by omega)

/-! ## Operations -/

/-- What every operation keeps: the cursor is on the screen and the accesses are inside. -/
structure Stays (fb : Framebuffer) (rows : ℕ → Prop) (r : Terminal × List Draw) : Prop where
  cursor : OnScreen fb r.1.row r.1.column
  inside : ∀ draw ∈ r.2, draw.Within fb rows

theorem vgaPutchar_stays (hgeom : Geometry fb) (font : ℕ → ℕ → UInt8)
    (h : OnScreen fb t.row t.column) {c : UInt8} (hc : rows c.toNat) :
    Stays fb rows (vgaPutchar fb t font c) := by
  unfold vgaPutchar
  split_ifs
  · have hback := h.stepBack hgeom
    exact ⟨hback, clearCell_inside hgeom hback⟩
  · exact ⟨⟨nextRow_lt hgeom t, (OnScreen.home hgeom).col⟩, by simp⟩
  · exact ⟨h.stepForward hgeom, drawGlyph_inside hgeom h hc⟩

theorem vgaPrint_stays (hgeom : Geometry fb) {data : List UInt8}
    (hdata : ∀ c ∈ data.takeWhile (· ≠ 0), rows c.toNat) (h : OnScreen fb t.row t.column) :
    Stays fb rows (vgaPrint fb font t data) := by
  induction data generalizing t with
  | nil => exact ⟨h, by simp [vgaPrint]⟩
  | cons c cs ih =>
      unfold vgaPrint
      split_ifs with hzero
      · exact ⟨h, by simp⟩
      · rw [List.takeWhile_cons_of_pos (by simpa using hzero), List.forall_mem_cons] at hdata
        have hfirst := vgaPutchar_stays hgeom font h hdata.1
        have hrest := ih hdata.2 hfirst.cursor
        exact ⟨hrest.cursor, List.forall_mem_append.mpr ⟨hfirst.inside, hrest.inside⟩⟩

theorem Op.exec_stays (hgeom : Geometry fb) (font : ℕ → ℕ → UInt8) {op : Op} (hop : op.Prints fb rows)
    (h : OnScreen fb t.row t.column) : Stays fb rows (op.exec fb font t) := by
  cases op with
  | print data => exact vgaPrint_stays hgeom hop h
  | clear => exact ⟨OnScreen.home hgeom, vgaClear_inside hgeom t⟩
  | setCursor row col => exact ⟨hop, by simp [Op.exec, vgaSetCursor]⟩
  | putchar c => exact vgaPutchar_stays hgeom font h hop
  | setColor fg bg => exact ⟨h, by simp [Op.exec, vgaSetColor]⟩

theorem execAll_stays (hgeom : Geometry fb) (font : ℕ → ℕ → UInt8) {ops : List Op}
    (hops : ∀ op ∈ ops, op.Prints fb rows) (h : OnScreen fb t.row t.column) :
    Stays fb rows (execAll fb font t ops) := by
  induction ops generalizing t with
  | nil => exact ⟨h, by simp [execAll]⟩
  | cons op ops ih =>
      rw [List.forall_mem_cons] at hops
      have hfirst := Op.exec_stays hgeom font hops.1 h
      have hrest := ih hops.2 hfirst.cursor
      exact ⟨hrest.cursor, List.forall_mem_append.mpr ⟨hfirst.inside, hrest.inside⟩⟩

/-- No sequence of tidy operations draws outside of the framebuffer or of the font. -/
theorem console_stays_in_framebuffer (hgeom : Geometry fb) (font : ℕ → ℕ → UInt8) {ops : List Op}
    (hops : ∀ op ∈ ops, op.Tidy fb) : ∀ draw ∈ consoleRun fb font ops, draw.Inside fb := by
  -- `vga_init` clears the screen before anything else
  have hrest := execAll_stays hgeom font (fun op hop => Op.prints_iff.mpr (hops op hop))
    (t := (vgaClear fb .start).1) (OnScreen.home hgeom)
  intro draw hdraw
  exact Draw.within_iff.mp
    (List.forall_mem_append.mpr ⟨vgaClear_inside hgeom .start, hrest.inside⟩ draw hdraw)

/-- A screen of 30 rows of 40 cells. -/
def vgaMode : Framebuffer := ⟨640, 480, 2560⟩

theorem console_stays_in_framebuffer_last_cell : Geometry vgaMode ∧
    ∀ draw ∈ consoleRun vgaMode (fun _ _ => 0) [.setCursor 29 39, .putchar 0x41, .putchar 0x08],
      draw.Inside vgaMode := by
  have hgeom : Geometry vgaMode := ⟨by decide, by decide, by decide⟩
  refine ⟨hgeom, console_stays_in_framebuffer hgeom _ ?_⟩
  simp only [List.forall_mem_cons, List.not_mem_nil, false_imp_iff, implies_true, and_true]
  exact ⟨⟨by decide, by decide⟩, by simp only [Op.Tidy]; decide, by simp only [Op.Tidy]; decide⟩

/-- With the cursor set below the screen a letter is drawn behind the last row of pixels. -/
theorem cursor_below_screen :
    ¬ ∀ draw ∈ consoleRun vgaMode (fun _ _ => 0) [.setCursor 30 0, .putchar 0x41],
      draw.Inside vgaMode := by
  intro h
  have hfirst : Draw.pixel 307200 0 ∈
      consoleRun vgaMode (fun _ _ => 0) [.setCursor 30 0, .putchar 0x41] :=
    List.mem_append_right _ (by decide +kernel)
  exact absurd (h _ hfirst) (by simp only [Draw.Inside]; decide)

end LispDos.Console
