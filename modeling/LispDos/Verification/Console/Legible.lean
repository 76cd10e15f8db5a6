import LispDos.Hal.Font
import LispDos.Verification.Console.Screen
import Mathlib.Data.List.GetD
import Mathlib.Data.List.Nodup

/-! # Reading the screen

In the font of the kernel no two printable characters look alike, so the text on the screen can
be read off the pixels. -/

namespace LispDos.Console

open Foundation

variable {rows cols : ℕ} {s : Screen rows cols} {c : UInt8} {n m : ℕ}

/-! ## Glyphs -/

def Printable (c : UInt8) : Prop := 0x20 ≤ c ∧ c ≤ 0x7E

theorem Printable.bounds (h : Printable c) : 32 ≤ c.toNat ∧ c.toNat < 127 := by
  obtain ⟨hlow, hhigh⟩ := h
  rw [UInt8.le_iff_toNat_le] at hlow hhigh
  exact ⟨hlow, Nat.lt_succ_of_le hhigh⟩

theorem Printable.ne (h : Printable c) : c ≠ 0 ∧ c ≠ 0x08 ∧ c ≠ 0x0A := by
  refine ⟨?_, ?_, ?_⟩ <;> rintro rfl <;> exact absurd h.1 (by decide)

/-- No printable character sets the upper right pixel. -/
theorem corner_unset : ∀ n < 127, 32 ≤ n → (fontRow n 0).toNat.testBit 7 = false := by
  decide +kernel

theorem glyphs_nodup : ((font8x8Basic.drop 32).take 95).Nodup := by
  decide +kernel

theorem glyphs_length : font8x8Basic.length = 128 ∧ ∀ glyph ∈ font8x8Basic, glyph.length = 8 := by
  decide +kernel

theorem getElem_printable (hn : 32 ≤ n ∧ n < 127) (h : n - 32 < ((font8x8Basic.drop 32).take 95).length) :
    ((font8x8Basic.drop 32).take 95)[n - 32] = font8x8Basic.getD n [] := by
  have hlt : n < font8x8Basic.length := by
    rw [glyphs_length.1]
    omega
  rw [List.getElem_take, List.getElem_drop, List.getD_eq_getElem _ _ hlt]
  congr 1
  omega

/-- Printable characters with the same glyph are the same. -/
theorem fontRow_injective (hn : 32 ≤ n ∧ n < 127) (hm : 32 ≤ m ∧ m < 127)
    (h : ∀ y < 8, fontRow n y = fontRow m y) : n = m := by
  obtain ⟨hlength, height⟩ := glyphs_length
  have hmem : ∀ {k : ℕ}, k < 127 → font8x8Basic.getD k [] ∈ font8x8Basic := by
    intro k hk
    rw [List.getD_eq_getElem _ _ (by omega)]
    exact List.getElem_mem _
  have hglyph : font8x8Basic.getD n [] = font8x8Basic.getD m [] := by
    have hn8 := height _ (hmem hn.2)
    have hm8 := height _ (hmem hm.2)
    refine List.ext_getElem (hn8.trans hm8.symm) ?_
    intro y hy hy'
    have hrow := h y (by omega)
    rwa [fontRow, fontRow, List.getD_eq_getElem _ _ hy, List.getD_eq_getElem _ _ hy'] at hrow
  have hlen : ((font8x8Basic.drop 32).take 95).length = 95 := by
    rw [List.length_take, List.length_drop, hlength]
    rfl
  rw [← getElem_printable hn (by omega), ← getElem_printable hm (by omega)] at hglyph
  have := (List.Nodup.getElem_inj_iff glyphs_nodup).mp hglyph
  omega

/-! ## Cells -/

/-- The character in a cell; a blank looks like a space. -/
def Cell.char : Cell → UInt8
  | .blank _ => 0x20
  | .glyph c _ _ => c

/-- A printable character in a colour that is not its background. -/
def Cell.Legible : Cell → Prop
  | .blank _ => True
  | .glyph c fg bg => Printable c ∧ fg ≠ bg

/-- The bits of the glyph in a cell. -/
def Cell.bit (cell : Cell) (y x : ℕ) : Bool := (fontRow cell.char.toNat (y / 2)).toNat.testBit (x / 2)

theorem Cell.Legible.printable {cell : Cell} (h : cell.Legible) : Printable cell.char := by
  cases cell with
  | blank bg =>
      show Printable 0x20
      exact ⟨by decide, by decide⟩
  | glyph c fg bg => exact h.1

/-- The glyph of the space has no bits. -/
theorem space_unset : ∀ y < 8, fontRow 32 y = 0 := by
  decide +kernel

/-- The two colours of a cell. -/
theorem Cell.Legible.exists_colors {cell : Cell} (h : cell.Legible) :
    ∃ fg bg, fg ≠ bg ∧ ∀ y < 16, ∀ x < 16,
      cell.color fontRow y x = if cell.bit y x then fg else bg := by
  cases cell with
  | blank bg =>
      obtain ⟨fg, hne⟩ : ∃ fg : UInt32, fg ≠ bg := by
        by_cases hzero : bg = 0
        · exact ⟨1, by rw [hzero]; decide⟩
        · exact ⟨0, Ne.symm hzero⟩
      refine ⟨fg, bg, hne, fun y hy x hx => ?_⟩
      have hbit : (Cell.blank bg).bit y x = false := by
        have hrow := space_unset (y / 2) (by omega)
        simp only [Cell.bit, Cell.char]
        rw [show (0x20 : UInt8).toNat = 32 from rfl, hrow]
        simp
      rw [hbit]
      rfl
  | glyph c fg bg => exact ⟨fg, bg, h.2, fun y _ x _ => rfl⟩

theorem Cell.Legible.corner {cell : Cell} (h : cell.Legible) : cell.bit 0 14 = false :=
  corner_unset _ h.printable.bounds.2 h.printable.bounds.1

/-- Legible cells that look alike show the same character. -/
theorem Cell.char_eq_of_color_eq {cell cell' : Cell} (h : cell.Legible) (h' : cell'.Legible)
    (heq : ∀ y < 16, ∀ x < 16, cell.color fontRow y x = cell'.color fontRow y x) :
    cell.char = cell'.char := by
  obtain ⟨fg, bg, hne, hcolor⟩ := h.exists_colors
  obtain ⟨fg', bg', hne', hcolor'⟩ := h'.exists_colors
  -- the corner shows that the backgrounds are the same
  have hbg : bg = bg' := by
    have hcorner := heq 0 (by omega) 14 (by omega)
    rwa [hcolor 0 (by omega) 14 (by omega), hcolor' 0 (by omega) 14 (by omega), h.corner, h'.corner]
      at hcorner
  subst hbg
  have hbits : ∀ y < 16, ∀ x < 16, cell.bit y x = cell'.bit y x := by
    intro y hy x hx
    have hpixel := heq y hy x hx
    rw [hcolor y hy x hx, hcolor' y hy x hx] at hpixel
    cases hbit : cell.bit y x with
    | false =>
        rw [hbit] at hpixel
        cases hbit' : cell'.bit y x with
        | false => rfl
        | true =>
            rw [hbit'] at hpixel
            exact (hne' hpixel.symm).elim
    | true =>
        rw [hbit] at hpixel
        cases hbit' : cell'.bit y x with
        | false =>
            rw [hbit'] at hpixel
            exact (hne hpixel).elim
        | true => rfl
  refine UInt8.toNat_inj.mp (fontRow_injective h.printable.bounds h'.printable.bounds ?_)
  intro y hy
  refine UInt8.toNat_inj.mp (Nat.eq_of_testBit_eq fun x => ?_)
  by_cases hx : x < 8
  · have hbit := hbits (2 * y) (by omega) (2 * x) (by omega)
    simp only [Cell.bit, Nat.mul_div_cancel_left _ (Nat.zero_lt_two)] at hbit
    exact hbit
  · have hsmall : ∀ b : UInt8, b.toNat < 2 ^ x := fun b =>
      Nat.lt_of_lt_of_le b.toNat_lt (Nat.pow_le_pow_right (by omega) (by omega))
    rw [Nat.testBit_lt_two_pow (hsmall _), Nat.testBit_lt_two_pow (hsmall _)]

/-! ## Screens -/

/-- Only printable characters, and colours that differ from their background. -/
def Op.Legible : Op → Prop
  | .print data => ∀ c ∈ data.takeWhile (· ≠ 0), Printable c ∨ c = 0x08 ∨ c = 0x0A
  | .clear => True
  | .setCursor _ _ => True
  | .putchar c => Printable c ∨ c = 0x08 ∨ c = 0x0A
  | .setColor fg bg => fg &&& 0x0F ≠ bg &&& 0x0F

/-- Everything on the screen is legible, and so is what comes next. -/
structure Screen.Legible (s : Screen rows cols) : Prop where
  cell : ∀ r k, (s.grid.cell r k).Legible
  colors : s.fgColor ≠ s.bgColor

theorem Screen.Legible.putchar (h : s.Legible) (hc : Printable c ∨ c = 0x08 ∨ c = 0x0A) :
    (s.putchar c).Legible where
  cell := by
    intro r k
    unfold Screen.putchar
    split_ifs with hback hline
    · rw [TextGrid.erase, TextGrid.store_cell, TextGrid.back_cell]
      split
      · trivial
      · exact h.cell r k
    · rw [TextGrid.newline_cell]
      exact h.cell r k
    · have hprint : Printable c := by
        rcases hc with hc | hc | hc
        · exact hc
        · exact (hback hc).elim
        · exact (hline hc).elim
      rw [TextGrid.put, TextGrid.advance_cell, TextGrid.store_cell]
      split
      · exact ⟨hprint, h.colors⟩
      · exact h.cell r k
  colors := h.colors

theorem Screen.Legible.print (h : s.Legible) {data : List UInt8}
    (hdata : ∀ c ∈ data.takeWhile (· ≠ 0), Printable c ∨ c = 0x08 ∨ c = 0x0A) :
    (s.print data).Legible := by
  induction data generalizing s with
  | nil => exact h
  | cons c cs ih =>
      unfold Screen.print
      split_ifs with hzero
      · exact h
      · rw [List.takeWhile_cons_of_pos (by simpa using hzero), List.forall_mem_cons] at hdata
        exact ih (h.putchar hdata.1) hdata.2

theorem colors_injective : ∀ i < 16, ∀ j < 16, colors.getD i 0 = colors.getD j 0 → i = j := by
  decide

theorem Screen.Legible.exec (h : s.Legible) {op : Op} (hop : op.Legible) : (s.exec op).Legible := by
  cases op with
  | print data => exact h.print hop
  | clear => exact ⟨fun _ _ => trivial, h.colors⟩
  | setCursor row col =>
      refine ⟨fun r k => ?_, h.colors⟩
      have hcell := h.cell r k
      rwa [← s.grid.moveTo_cell row.toNat col.toNat] at hcell
  | putchar c => exact h.putchar hop
  | setColor fg bg =>
      refine ⟨h.cell, fun heq => hop ?_⟩
      have hlt : ∀ b : UInt8, (b &&& 0x0F).toNat < 16 := fun b => by
        rw [UInt8.toNat_and]
        exact Nat.lt_of_le_of_lt Nat.and_le_right (by decide)
      exact UInt8.toNat_inj.mp (colors_injective _ (hlt fg) _ (hlt bg) heq)

theorem Screen.Legible.run (h : s.Legible) {ops : List Op} (hops : ∀ op ∈ ops, op.Legible) :
    (s.run ops).Legible := by
  induction ops generalizing s with
  | nil => exact h
  | cons op ops ih =>
      rw [List.forall_mem_cons] at hops
      exact ih (h.exec hops.1) hops.2

variable {fb : Framebuffer}

/-- Two screens with the same picture show the same text. -/
theorem Screen.char_eq_of_pixel_eq {s s' : Screen fb.rows fb.cols} (h : s.Legible) (h' : s'.Legible)
    (heq : ∀ y < fb.height.toNat, ∀ x < fb.width.toNat, s.pixel fontRow y x = s'.pixel fontRow y x)
    {r k : ℕ} (hr : r < fb.rows) (hk : k < fb.cols) :
    (s.grid.cell r k).char = (s'.grid.cell r k).char := by
  refine Cell.char_eq_of_color_eq (h.cell r k) (h'.cell r k) ?_
  intro y hy x hx
  unfold Framebuffer.rows at hr
  unfold Framebuffer.cols at hk
  have hpixel := heq (r * 16 + y) (by omega) (k * 16 + x) (by omega)
  have hyr : (r * 16 + y) / 16 = r ∧ (r * 16 + y) % 16 = y := by omega
  have hxk : (k * 16 + x) / 16 = k ∧ (k * 16 + x) % 16 = x := by omega
  have hin : r < fb.rows ∧ k < fb.cols := ⟨hr, hk⟩
  simp only [Screen.pixel, hyr, hxk, if_pos hin] at hpixel
  exact hpixel

/-- Two runs of the console that leave the same pixels, whatever the framebuffers held at first,
leave the same text. -/
theorem text_determined_by_pixels (hfits : Fits fb) (hpacked : fb.stride = fb.width.toNat)
    {ops ops' : List Op} (htidy : ∀ op ∈ ops, op.Tidy fb) (htidy' : ∀ op ∈ ops', op.Tidy fb)
    (hops : ∀ op ∈ ops, op.Legible) (hops' : ∀ op ∈ ops', op.Legible) (px px' : ℕ → UInt32)
    (heq : ∀ y < fb.height.toNat, ∀ x < fb.width.toNat,
      paint px (stores (consoleRun fb fontRow ops)) (y * fb.stride + x) =
        paint px' (stores (consoleRun fb fontRow ops')) (y * fb.stride + x)) :
    ∀ r < fb.rows, ∀ k < fb.cols,
      (((Screen.start hfits).run ops).grid.cell r k).char =
        (((Screen.start hfits).run ops').grid.cell r k).char := by
  have hcolors : Terminal.start.fgColor ≠ Terminal.start.bgColor := by decide
  have hstart : (Screen.start hfits).Legible := ⟨fun _ _ => trivial, hcolors⟩
  intro r hr k hk
  refine Screen.char_eq_of_pixel_eq (hstart.run hops) (hstart.run hops') ?_ hr hk
  intro y hy x hx
  rw [← displays_run hfits hpacked fontRow px htidy y hy x hx,
    ← displays_run hfits hpacked fontRow px' htidy' y hy x hx]
  exact heq y hy x hx

/-- The letter `A` printed as a text and as a character. -/
theorem text_determined_by_pixels_letter :
    (((Screen.start vgaMode_fits).run [.print [0x41]]).grid.cell 0 0).char =
      (((Screen.start vgaMode_fits).run [.putchar 0x41]).grid.cell 0 0).char := by
  have htidy : ∀ op ∈ [Op.print [0x41]], op.Tidy vgaMode := by
    simp only [List.forall_mem_singleton, Op.Tidy]
    decide +kernel
  have htidy' : ∀ op ∈ [Op.putchar 0x41], op.Tidy vgaMode := by
    simp only [List.forall_mem_singleton, Op.Tidy]
    decide
  have hA : Printable 0x41 := ⟨by decide, by decide⟩
  have hops : ∀ op ∈ [Op.print [0x41]], op.Legible := by
    simp only [List.forall_mem_singleton, Op.Legible]
    intro c hc
    obtain rfl : c = 0x41 := by simpa using hc
    exact .inl hA
  have hops' : ∀ op ∈ [Op.putchar 0x41], op.Legible := by
    simp only [List.forall_mem_singleton, Op.Legible]
    exact .inl hA
  refine text_determined_by_pixels vgaMode_fits rfl htidy htidy' hops hops' (fun _ => 0) (fun _ => 1) ?_
    0 (by decide) 0 (by decide)
  intro y hy x hx
  rw [displays_run vgaMode_fits rfl fontRow _ htidy y hy x hx,
    displays_run vgaMode_fits rfl fontRow _ htidy' y hy x hx]
  rfl

end LispDos.Console
