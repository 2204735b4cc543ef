import NarcOs.Kernel.Console
import NarcOs.Lib.Terminal

/-!
# The framebuffer shows a terminal

Whatever is written to the console, its pixels are those of a terminal of
`text_rows` rows and `text_cols` columns, and every access is inside the
framebuffer. The pixel rows below the last text row are part of the invariant: a
scroll moves them up into the last row, and they are background.
-/

namespace NarcOs

/-- A framebuffer that `console_init` accepts, with its bytes in the address space. -/
structure Framebuffer.Usable (fb : Framebuffer) : Prop where
  address : fb.address ≠ 0
  memoryModel : fb.memoryModel = limineFramebufferRgb
  bpp : fb.bpp = 24 ∨ fb.bpp = 32
  width : fontWidth ≤ fb.width
  height : fontHeight ≤ fb.height
  pitch : fb.width * fb.bpp / 8 ≤ fb.pitch
  fits : fb.address + fb.height * fb.pitch ≤ 2 ^ 64

namespace Framebuffer

variable {fb : Framebuffer}

def depth (fb : Framebuffer) : Nat := fb.bpp / 8

def colour (fb : Framebuffer) (rgb : Nat) : List UInt8 := toLE fb.depth (fb.packRgb rgb)

theorem length_colour (fb : Framebuffer) (rgb : Nat) : (fb.colour rgb).length = fb.depth := length_toLE _ _

theorem Usable.depth_cases (h : fb.Usable) : fb.bpp = 24 ∧ fb.depth = 3 ∨ fb.bpp = 32 ∧ fb.depth = 4 := by
  unfold depth
  rcases h.bpp with hbpp | hbpp <;> simp [hbpp]

theorem Usable.width_le (h : fb.Usable) : fb.width * fb.depth ≤ fb.pitch := by
  have hpitch := h.pitch
  rcases h.depth_cases with ⟨hbpp, hdepth⟩ | ⟨hbpp, hdepth⟩ <;> rw [hdepth] <;> rw [hbpp] at hpitch <;> omega

theorem Usable.size_lt (h : fb.Usable) : fb.height * fb.pitch < 2 ^ 64 := by
  have := h.address
  have := h.fits
  omega

theorem Usable.pitch_pos (h : fb.Usable) : 8 * 3 ≤ fb.pitch := by
  have hwidth : 8 ≤ fb.width := h.width
  have hpitch := h.width_le
  rcases h.depth_cases with ⟨-, hdepth⟩ | ⟨-, hdepth⟩ <;> rw [hdepth] at hpitch <;> omega

theorem Usable.height_lt (h : fb.Usable) : fb.height < 2 ^ 64 := by
  have hone : fb.height * 1 ≤ fb.height * fb.pitch := Nat.mul_le_mul_left _ (by have := h.pitch_pos; omega)
  have := h.size_lt
  omega

theorem Usable.width_lt (h : fb.Usable) : fb.width < 2 ^ 64 := by
  have hone : 1 * fb.pitch ≤ fb.height * fb.pitch := Nat.mul_le_mul_right _ (by have := h.height; unfold fontHeight at this; omega)
  have hwidth : fb.width * 1 ≤ fb.width * fb.depth := Nat.mul_le_mul_left _ (by
    rcases h.depth_cases with ⟨-, hdepth⟩ | ⟨-, hdepth⟩ <;> rw [hdepth] <;> decide)
  have := h.width_le
  have := h.size_lt
  omega

theorem Usable.rows_pos (h : fb.Usable) : 0 < fb.height / fontHeight := Nat.div_pos h.height (by decide)

theorem Usable.cols_pos (h : fb.Usable) : 0 < fb.width / fontWidth := Nat.div_pos h.width (by decide)

end Framebuffer

namespace FbConsole

variable {fb : Framebuffer} {c d : FbConsole}

def pixel (c : FbConsole) (fb : Framebuffer) (x y : Nat) : List UInt8 := c.mem.pixel fb.pitch fb.depth x y

-- ---------------------------------------------------------------------------
-- Rectangles
-- ---------------------------------------------------------------------------

theorem store_eq {offset : Nat} {bytes : List UInt8} (hin : offset + bytes.length ≤ fb.height * fb.pitch) :
    c.store fb offset bytes = some { c with mem := c.mem.write offset bytes } := if_pos hin

theorem putPixel_eq (h : fb.Usable) (hfb : c.fb = some fb) {x y : Nat} (hx : x < fb.width) (hy : y < fb.height)
    (rgb : Nat) :
    c.putPixel x y rgb = some { c with mem := c.mem.write (y * fb.pitch + x * fb.depth) (fb.colour rgb) } := by
  have hin := Mem.pixel_inside hx hy h.width_le
  have hsize := h.size_lt
  have hlen := fb.length_colour rgb
  unfold putPixel
  rw [hfb]
  dsimp only
  rw [if_neg (by omega), mul64_eq (by omega), some_bind]
  unfold Framebuffer.colour at *
  rcases h.depth_cases with ⟨hbpp, hdepth⟩ | ⟨hbpp, hdepth⟩ <;> rw [hdepth] at hin hlen ⊢
  · rw [if_neg (by omega), if_pos hbpp, mul64_eq (by omega), some_bind, add64_eq (by omega), some_bind]
    rw [store_eq (by rw [hlen]; exact hin), hfb]
  · rw [if_pos hbpp, mul64_eq (by omega), some_bind, add64_eq (by omega), some_bind]
    rw [store_eq (by rw [hlen]; exact hin), hfb]

structure Painted (fb : Framebuffer) (c d : FbConsole) (x₀ y₀ w h : Nat) (rgb : Nat → Nat → Nat) : Prop where
  rest : d = { c with mem := d.mem }
  pixel : ∀ x < fb.width, ∀ y < fb.height, d.pixel fb x y =
    if (x₀ ≤ x ∧ x < x₀ + w) ∧ y₀ ≤ y ∧ y < y₀ + h then fb.colour (rgb (x - x₀) (y - y₀)) else c.pixel fb x y

theorem Painted.fb_eq {x₀ y₀ w h : Nat} {rgb : Nat → Nat → Nat} (hp : Painted fb c d x₀ y₀ w h rgb) : d.fb = c.fb := by
  rw [hp.rest]

theorem painted_row (h : fb.Usable) (hfb : c.fb = some fb) {x₀ y w : Nat} (hx : x₀ + w ≤ fb.width) (hy : y < fb.height)
    (rgb : Nat → Nat) {body : Nat → FbConsole → Option FbConsole}
    (hbody : ∀ px < w, ∀ d, body px d = d.putPixel (x₀ + px) y (rgb px)) :
    ∃ d, (List.range w).foldlM (fun d px => body px d) c = some d ∧ Painted fb c d x₀ y w 1 fun px _ => rgb px := by
  refine foldlM_range (P := fun n d => Painted fb c d x₀ y n 1 fun px _ => rgb px) ?_ fun px hpx d hd => ?_
  · refine ⟨rfl, fun x _ y' _ => ?_⟩
    rw [if_neg (by omega)]
  · have hin : x₀ + px < fb.width := by omega
    refine ⟨_, (hbody px hpx d).trans (putPixel_eq h (hd.fb_eq.trans hfb) hin hy (rgb px)), ?_, fun x hxw y' hyh => ?_⟩
    · rw [hd.rest]
    · change (d.mem.write _ _).pixel fb.pitch fb.depth x y' = _
      by_cases hself : x = x₀ + px ∧ y' = y
      · obtain ⟨rfl, rfl⟩ := hself
        rw [Mem.pixel_write_self (fb.length_colour _), if_pos (by omega), Nat.add_sub_cancel_left]
      · rw [Mem.pixel_write_other (fb.length_colour _) h.width_le hin hxw hself]
        refine (hd.pixel x hxw y' hyh).trans (if_congr (by omega) rfl rfl)

theorem forRect_painted (hu : fb.Usable) (hfb : c.fb = some fb) {x₀ y₀ w h : Nat} (hx : x₀ + w ≤ fb.width)
    (hy : y₀ + h ≤ fb.height) (rgb : Nat → Nat → Nat) {body : Nat → Nat → FbConsole → Option FbConsole}
    (hbody : ∀ px < w, ∀ py < h, ∀ d, body px py d = d.putPixel (x₀ + px) (y₀ + py) (rgb px py)) :
    ∃ d, forRect w h body c = some d ∧ Painted fb c d x₀ y₀ w h rgb := by
  refine foldlM_range (P := fun n d => Painted fb c d x₀ y₀ w n rgb) ?_ fun py hpy d hd => ?_
  · refine ⟨rfl, fun x _ y' _ => ?_⟩
    rw [if_neg (by omega)]
  · obtain ⟨e, he, hrow⟩ := painted_row hu (hd.fb_eq.trans hfb) hx (y := y₀ + py) (by omega) (fun px => rgb px py)
      fun px hpx d => hbody px hpx py hpy d
    refine ⟨e, he, ?_, fun x hxw y' hyh => ?_⟩
    · rw [hrow.rest, hd.rest]
    · rw [hrow.pixel x hxw y' hyh, hd.pixel x hxw y' hyh]
      by_cases hself : (x₀ ≤ x ∧ x < x₀ + w) ∧ y' = y₀ + py
      · obtain ⟨hcol, rfl⟩ := hself
        rw [if_pos (by omega), if_pos (by omega), Nat.add_sub_cancel_left]
      · rw [if_neg (by omega)]
        exact if_congr (by omega) rfl rfl

theorem fillRect_painted (hu : fb.Usable) (hfb : c.fb = some fb) {x₀ y₀ w h : Nat} (hx : x₀ + w ≤ fb.width)
    (hy : y₀ + h ≤ fb.height) (rgb : Nat) :
    ∃ d, c.fillRect x₀ y₀ w h rgb = some d ∧ Painted fb c d x₀ y₀ w h fun _ _ => rgb := by
  refine forRect_painted hu hfb hx hy _ fun px hpx py hpy d => ?_
  have := hu.width_lt
  have := hu.height_lt
  rw [add64_eq (by omega), some_bind, add64_eq (by omega), some_bind]

def drawn (char : UInt8) : UInt8 := if char ≥ 128 then 63 else char

theorem drawGlyph_painted (hu : fb.Usable) (hfb : c.fb = some fb) {col row : Nat} (hcol : col < fb.width / fontWidth)
    (hrow : row < fb.height / fontHeight) (char : UInt8) :
    ∃ d, c.drawGlyph col row char = some d ∧
      Painted fb c d (col * fontWidth) (row * fontHeight) fontWidth fontHeight (glyphColour (drawn char)) := by
  have hx : col * fontWidth + fontWidth ≤ fb.width := by
    unfold fontWidth at *
    omega
  have hy : row * fontHeight + fontHeight ≤ fb.height := by
    unfold fontHeight at *
    omega
  have hwidth := hu.width_lt
  have hheight := hu.height_lt
  unfold drawGlyph
  rw [mul64_eq (by omega), some_bind, mul64_eq (by omega), some_bind]
  refine forRect_painted hu hfb hx hy _ fun px hpx py hpy d => ?_
  rw [add64_eq (by omega), some_bind, add64_eq (by omega), some_bind]
  rfl

-- ---------------------------------------------------------------------------
-- Scrolling
-- ---------------------------------------------------------------------------

theorem moveByte_loop {lineBytes keepBytes : Nat} (hin : keepBytes + lineBytes ≤ fb.height * fb.pitch)
    (hsize : fb.height * fb.pitch < 2 ^ 64) (hline : 0 < lineBytes) :
    ∃ d, (List.range keepBytes).foldlM (moveByte fb lineBytes) c = some d ∧ d = { c with mem := d.mem } ∧
      ∀ j, d.mem j = if j < keepBytes then c.mem (j + lineBytes) else c.mem j := by
  refine foldlM_range (P := fun n (d : FbConsole) => d = { c with mem := d.mem } ∧
    ∀ j, d.mem j = if j < n then c.mem (j + lineBytes) else c.mem j) ⟨rfl, fun j => ?_⟩ fun i hi d hd => ?_
  · rw [if_neg (Nat.not_lt_zero j)]
  · obtain ⟨hrest, hmem⟩ := hd
    have hload : d.load fb (i + lineBytes) = some (c.mem (i + lineBytes)) := by
      rw [load, if_pos (by omega), hmem, if_neg (by omega)]
    refine ⟨{ d with mem := d.mem.write i [c.mem (i + lineBytes)] }, ?_, ?_, fun j => ?_⟩
    · rw [moveByte, add64_eq (by omega), some_bind, hload, some_bind]
      exact store_eq (by rw [List.length_singleton]; omega)
    · rw [hrest]
    · dsimp only
      by_cases hj : j = i
      · subst hj
        have hself : d.mem.write j [c.mem (j + lineBytes)] (j + 0) = [c.mem (j + lineBytes)].getD 0 0 :=
          Mem.write_apply_inside Nat.one_pos
        rw [Nat.add_zero] at hself
        rw [hself, if_pos (Nat.lt_succ_self j)]
        rfl
      · rw [Mem.write_apply_outside (by rw [List.length_singleton]; omega), hmem]
        exact if_congr (by omega) rfl rfl

theorem scrollOneLine_spec (h : fb.Usable) (hfb : c.fb = some fb) (hrows : 0 < c.textRows) :
    ∃ d, c.scrollOneLine = some d ∧ d = { c with mem := d.mem, cursorRow := c.textRows - 1 } ∧
      ∀ x < fb.width, ∀ y < fb.height, d.pixel fb x y =
        if y < fb.height - fontHeight then c.pixel fb x (y + fontHeight) else fb.colour bg := by
  have hheight : 16 ≤ fb.height := h.height
  have hsize := h.size_lt
  have hpitch := h.pitch_pos
  have hsum : (fb.height - fontHeight) * fb.pitch + fontHeight * fb.pitch = fb.height * fb.pitch := by
    rw [← Nat.add_mul]
    congr 1
    unfold fontHeight
    omega
  have hline : 0 < fontHeight * fb.pitch := Nat.mul_pos (by decide) (by omega)
  obtain ⟨d, hmove, hrest, hmem⟩ := @moveByte_loop fb c _ _ hsum.le hsize hline
  have hdfb : d.fb = some fb := by rw [hrest, hfb]
  obtain ⟨e, hfill, hpaint⟩ := @fillRect_painted fb d h hdfb 0 (fb.height - fontHeight) fb.width fontHeight
    (by omega) (by unfold fontHeight; omega) bg
  have hetext : e.textRows = c.textRows := by rw [hpaint.rest, hrest]
  refine ⟨{ e with cursorRow := c.textRows - 1 }, ?_, ?_, fun x hx y hy => ?_⟩
  · unfold scrollOneLine
    rw [hfb]
    dsimp only
    rw [mul64_eq (by omega), some_bind, sub64_eq h.height, some_bind, mul64_eq (by omega), some_bind, hmove, some_bind,
      hfill, some_bind, hetext, sub64_eq hrows, some_bind]
  · rw [hpaint.rest, hrest]
  · change e.pixel fb x y = _
    rw [hpaint.pixel x hx y hy]
    by_cases hkeep : y < fb.height - fontHeight
    · rw [if_neg (by omega), if_pos hkeep]
      exact Mem.pixel_shift (fun j hj => by rw [hmem j, if_pos hj]) h.width_le hx hkeep
    · rw [if_pos (by unfold fontHeight at *; omega), if_neg hkeep]

-- ---------------------------------------------------------------------------
-- The screen
-- ---------------------------------------------------------------------------

def action (char : UInt8) : Action UInt8 :=
  if char = 9 then .tab
  else if char = 10 then .newline
  else if char = 13 then .carriageReturn
  else if char ≥ 32 then .glyph (drawn char)
  else .ignore

/-- The pixels of every cell are those of its glyph, and below the cells there is
background. -/
structure Grid (fb : Framebuffer) (c : FbConsole) {rows cols : Nat} (cell : Fin rows → Fin cols → UInt8) : Prop where
  framebuffer : c.fb = some fb
  textRows : c.textRows = rows
  textCols : c.textCols = cols
  rowsFit : rows = fb.height / fontHeight
  colsFit : cols = fb.width / fontWidth
  cell : ∀ (r : Fin rows) (k : Fin cols), ∀ x < fontWidth, ∀ y < fontHeight,
    c.pixel fb (k * fontWidth + x) (r * fontHeight + y) = fb.colour (glyphColour (cell r k) x y)
  below : ∀ x < fb.width, ∀ y < fb.height, rows * fontHeight ≤ y → c.pixel fb x y = fb.colour bg

structure Displays (fb : Framebuffer) (c : FbConsole) {rows cols : Nat} (t : Terminal rows cols UInt8) : Prop where
  grid : Grid fb c t.cell
  row : c.cursorRow = t.row
  col : c.cursorCol = t.col

variable {rows cols : Nat} {t : Terminal rows cols UInt8} {cell : Fin rows → Fin cols → UInt8}

theorem glyphColour_space (x y : Nat) : glyphColour 32 x y = bg := by
  rw [glyphColour, fontRow_space, Nat.zero_testBit]
  rfl

theorem Grid.inside (h : Grid fb c cell) (r : Fin rows) (k : Fin cols) {x y : Nat} (hx : x < fontWidth) (hy : y < fontHeight) :
    k * fontWidth + x < fb.width ∧ r * fontHeight + y < rows * fontHeight ∧ rows * fontHeight ≤ fb.height := by
  have hr := r.isLt
  have hk := k.isLt
  have hrows := h.rowsFit
  have hcols := h.colsFit
  unfold fontWidth fontHeight at *
  omega

theorem Grid.paint (h : Grid fb c t.cell) (a : UInt8)
    (hp : Painted fb c d (t.col * fontWidth) (t.row * fontHeight) fontWidth fontHeight (glyphColour a)) :
    Grid fb d (t.setCell a).cell where
  framebuffer := hp.fb_eq.trans h.framebuffer
  textRows := by rw [hp.rest, ← h.textRows]
  textCols := by rw [hp.rest, ← h.textCols]
  rowsFit := h.rowsFit
  colsFit := h.colsFit
  cell r k x hx y hy := by
    obtain ⟨hxin, hyin, hheight⟩ := h.inside r k hx hy
    rw [hp.pixel _ hxin _ (hyin.trans_le hheight)]
    change _ = fb.colour (glyphColour (if r = t.row ∧ k = t.col then a else t.cell r k) x y)
    by_cases hself : r = t.row ∧ k = t.col
    · obtain ⟨rfl, rfl⟩ := hself
      rw [if_pos (by omega), if_pos ⟨rfl, rfl⟩, Nat.add_sub_cancel_left, Nat.add_sub_cancel_left]
    · rw [if_neg hself, if_neg ?_]
      · exact h.cell r k x hx y hy
      · intro hin
        refine hself ⟨Fin.ext ?_, Fin.ext ?_⟩ <;> unfold fontWidth fontHeight at * <;> omega
  below x hx y hy hbelow := by
    have hrow := t.row.isLt
    rw [hp.pixel x hx y hy, if_neg ?_]
    · exact h.below x hx y hy hbelow
    · intro hin
      unfold fontHeight at *
      omega

/-- The pixel rows below the grid come up with the last text row, or it is cleared. -/
theorem Grid.scroll (hu : fb.Usable) (h : Grid fb c t.cell) :
    ∃ d, c.scrollOneLine = some d ∧ d = { c with mem := d.mem, cursorRow := c.textRows - 1 } ∧
      Grid fb d (t.scroll 32).cell := by
  have hrows : 0 < rows := Nat.zero_lt_of_lt t.row.isLt
  have hfit := h.rowsFit
  have hheight : 16 ≤ fb.height := hu.height
  obtain ⟨d, hd, hrest, hpixel⟩ := scrollOneLine_spec hu h.framebuffer (h.textRows ▸ hrows)
  refine ⟨d, hd, hrest, ?_, ?_, ?_, h.rowsFit, h.colsFit, fun r k x hx y hy => ?_, fun x hx y hy hbelow => ?_⟩
  · rw [hrest, ← h.framebuffer]
  · rw [hrest, ← h.textRows]
  · rw [hrest, ← h.textCols]
  · obtain ⟨hxin, hyin, hle⟩ := h.inside r k hx hy
    rw [hpixel _ hxin _ (hyin.trans_le hle)]
    change _ = fb.colour (glyphColour (if hr : r + 1 < rows then t.cell ⟨r + 1, hr⟩ k else 32) x y)
    by_cases hr : r + 1 < rows
    · have hcell := h.cell ⟨r + 1, hr⟩ k x hx y hy
      have hmove : (r + 1) * fontHeight + y = r * fontHeight + y + fontHeight := by
        rw [Nat.succ_mul]
        omega
      rw [dif_pos hr, if_pos (by unfold fontHeight at *; omega), ← hcell]
      exact congrArg _ hmove.symm
    · rw [dif_neg hr, glyphColour_space]
      split
      · exact h.below _ hxin _ (by unfold fontHeight at *; omega) (by unfold fontHeight at *; omega)
      · rfl
  · rw [hpixel x hx y hy, if_neg (by unfold fontHeight at *; omega)]

theorem Displays.scrollWhenBelow (h : Displays fb c t) : c.scrollWhenBelow = some c := by
  have hrow := h.row
  have hlt := t.row.isLt
  have hrows := h.grid.textRows
  unfold FbConsole.scrollWhenBelow
  rw [if_neg (by omega)]

theorem Grid.nextRow (hu : fb.Usable) (h : Grid fb c t.cell) (hrow : c.cursorRow = t.row) :
    ∃ d, c.nextRow.scrollWhenBelow = some d ∧ Displays fb d (t.newline 32) := by
  have hrows := h.textRows
  have hlt := t.row.isLt
  have hnext : Grid fb c.nextRow t.carriageReturn.cell := ⟨h.framebuffer, h.textRows, h.textCols, h.rowsFit, h.colsFit, h.cell, h.below⟩
  have hcursor : c.nextRow.cursorRow = c.cursorRow + 1 := rfl
  unfold FbConsole.scrollWhenBelow Terminal.newline
  dsimp only
  by_cases hlast : t.row + 1 < rows
  · have hin : (t.carriageReturn.row : Nat) + 1 < rows := hlast
    have hstay : ¬ c.nextRow.cursorRow ≥ c.nextRow.textRows := by
      rw [hcursor, hnext.textRows]
      omega
    rw [if_neg hstay, dif_pos hin]
    exact ⟨c.nextRow, rfl, hnext, by rw [hcursor, hrow]; rfl, rfl⟩
  · have hin : ¬ (t.carriageReturn.row : Nat) + 1 < rows := hlast
    have hbelow : c.nextRow.cursorRow ≥ c.nextRow.textRows := by
      rw [hcursor, hnext.textRows]
      omega
    rw [if_pos hbelow, dif_neg hin]
    obtain ⟨d, hd, hrest, hgrid⟩ := hnext.scroll hu
    refine ⟨d, hd, hgrid, ?_, ?_⟩
    · rw [hrest]
      change c.nextRow.textRows - 1 = (t.row : Nat)
      rw [hnext.textRows]
      omega
    · rw [hrest]
      rfl

/-- The glyph is drawn, and the cursor goes on, to the next row behind the last column. -/
theorem Displays.putGlyph (hu : fb.Usable) (h : Displays fb c t) (char : UInt8) :
    ∃ d, c.putGlyph char = some d ∧ Displays fb d (t.put 32 (drawn char)) := by
  have hgrid := h.grid
  have hcol : c.cursorCol < fb.width / fontWidth := by
    rw [h.col, ← hgrid.colsFit]
    exact t.col.isLt
  have hrow : c.cursorRow < fb.height / fontHeight := by
    rw [h.row, ← hgrid.rowsFit]
    exact t.row.isLt
  obtain ⟨d, hd, hp⟩ := drawGlyph_painted hu hgrid.framebuffer hcol hrow char
  rw [h.row, h.col] at hp
  have hpaint := hgrid.paint (drawn char) hp
  have hdrow : d.cursorRow = (t.setCell (drawn char)).row := by
    rw [hp.rest]
    exact h.row
  have hdcol : d.cursorCol = (t.setCell (drawn char)).col := by
    rw [hp.rest]
    exact h.col
  unfold FbConsole.putGlyph Terminal.put
  rw [hd, some_bind]
  dsimp only
  have hmoved : Grid fb { d with cursorCol := d.cursorCol + 1 } (t.setCell (drawn char)).cell :=
    ⟨hpaint.framebuffer, hpaint.textRows, hpaint.textCols, hpaint.rowsFit, hpaint.colsFit, hpaint.cell, hpaint.below⟩
  by_cases hlast : ((t.setCell (drawn char)).col : Nat) + 1 < cols
  · rw [if_neg (by rw [hdcol, hpaint.textCols]; omega), dif_pos hlast]
    have hshows : Displays fb { d with cursorCol := d.cursorCol + 1 }
        { t.setCell (drawn char) with col := ⟨(t.setCell (drawn char)).col + 1, hlast⟩ } :=
      ⟨hmoved, hdrow, congrArg (· + 1) hdcol⟩
    exact ⟨_, hshows.scrollWhenBelow, hshows⟩
  · rw [if_pos (by rw [hdcol, hpaint.textCols]; omega), dif_neg hlast]
    exact hmoved.nextRow hu hdrow

theorem Displays.putcPlain (hu : fb.Usable) (h : Displays fb c t) {char : UInt8} (htab : char ≠ 9) :
    ∃ d, c.putcPlain char = some d ∧ Displays fb d (t.act 32 4 (action char)) := by
  have hsent : Displays fb (c.serialPutc char) t :=
    ⟨⟨h.grid.framebuffer, h.grid.textRows, h.grid.textCols, h.grid.rowsFit, h.grid.colsFit, h.grid.cell, h.grid.below⟩, h.row, h.col⟩
  have hfb : (c.serialPutc char).fb = some fb := hsent.grid.framebuffer
  unfold FbConsole.putcPlain action
  dsimp only
  rw [if_neg htab]
  split
  · rename_i hnull
    rw [hfb] at hnull
    cases hnull
  split
  · exact hsent.grid.nextRow hu hsent.row
  split
  · have hback : Displays fb { c.serialPutc char with cursorCol := 0 } t.carriageReturn :=
      ⟨⟨hsent.grid.framebuffer, hsent.grid.textRows, hsent.grid.textCols, hsent.grid.rowsFit, hsent.grid.colsFit, hsent.grid.cell,
        hsent.grid.below⟩, hsent.row, rfl⟩
    exact ⟨_, hback.scrollWhenBelow, hback⟩
  split
  · exact hsent.putGlyph hu char
  · exact ⟨_, hsent.scrollWhenBelow, hsent⟩

theorem Displays.consolePutc (hu : fb.Usable) (h : Displays fb c t) (char : UInt8) :
    ∃ d, c.consolePutc char = some d ∧ Displays fb d (t.act 32 4 (action char)) := by
  unfold FbConsole.consolePutc
  split
  · rename_i htab
    have hsent : Displays fb (c.serialPutc char) t :=
      ⟨⟨h.grid.framebuffer, h.grid.textRows, h.grid.textCols, h.grid.rowsFit, h.grid.colsFit, h.grid.cell, h.grid.below⟩, h.row, h.col⟩
    have hspaces : (c.serialPutc char).cursorCol &&& 3 = t.col % 4 := by
      rw [hsent.col]
      exact Nat.and_two_pow_sub_one_eq_mod _ 2
    have hfb : (c.serialPutc char).fb = some fb := hsent.grid.framebuffer
    have haction : action char = .tab := by rw [action, if_pos htab]
    dsimp only
    rw [hfb, hspaces, haction]
    refine foldlM_range (P := fun n d => Displays fb d ((List.range n).foldl (fun t _ => t.put 32 32) t)) hsent
      fun i _ d hd => ?_
    obtain ⟨e, he, hshows⟩ := hd.putcPlain hu (by decide : (32 : UInt8) ≠ 9)
    refine ⟨e, he, ?_⟩
    rw [List.range_succ, List.foldl_append]
    exact hshows
  · rename_i htab
    exact h.putcPlain hu htab

theorem Displays.consoleWrite (hu : fb.Usable) (h : Displays fb c t) (s : List UInt8) :
    ∃ d, c.consoleWrite s = some d ∧ Displays fb d (t.run 32 4 (s.map action)) := by
  induction s generalizing c t with
  | nil => exact ⟨c, rfl, h⟩
  | cons char s ih =>
    obtain ⟨d, hd, hshows⟩ := h.consolePutc hu char
    obtain ⟨e, he, hrest⟩ := ih hshows
    refine ⟨e, ?_, hrest⟩
    unfold FbConsole.consoleWrite at he ⊢
    rw [List.foldlM_cons, hd, some_bind, he]

-- ---------------------------------------------------------------------------
-- The console
-- ---------------------------------------------------------------------------

theorem consoleClear_shows (hu : fb.Usable) (hfb : c.fb = some fb) (hrows : c.textRows = fb.height / fontHeight)
    (hcols : c.textCols = fb.width / fontWidth) :
    ∃ d, c.consoleClear = some d ∧ Displays fb d (Terminal.clear 32 hu.rows_pos hu.cols_pos) := by
  obtain ⟨d, hd, hp⟩ := @fillRect_painted fb c hu hfb 0 0 fb.width fb.height (by omega) (by omega) bg
  have hblank : ∀ x < fb.width, ∀ y < fb.height, d.pixel fb x y = fb.colour bg := fun x hx y hy => by
    rw [hp.pixel x hx y hy, if_pos (by omega)]
  refine ⟨{ d with cursorCol := 0, cursorRow := 0 }, ?_, ⟨?_, ?_, ?_, rfl, rfl, fun r k x hx y hy => ?_, ?_⟩, rfl, rfl⟩
  · unfold consoleClear
    rw [hfb]
    dsimp only
    rw [hd, some_bind]
  · exact hp.fb_eq.trans hfb
  · rw [hp.rest, ← hrows]
  · rw [hp.rest, ← hcols]
  · have hr := r.isLt
    have hk := k.isLt
    change d.pixel fb _ _ = fb.colour (glyphColour 32 x y)
    rw [glyphColour_space]
    exact hblank _ (by unfold fontWidth at *; omega) _ (by unfold fontHeight at *; omega)
  · exact fun x hx y hy _ => hblank x hx y hy

theorem consoleInit_shows (hu : fb.Usable) (c : FbConsole) {count : Nat} {framebuffers : Nat → Option Framebuffer}
    (hcount : count ≠ 0) (hfirst : framebuffers 0 = some fb) :
    ∃ d, c.consoleInit (some ⟨count, some framebuffers⟩) = some (true, d) ∧
      Displays fb d (Terminal.clear 32 hu.rows_pos hu.cols_pos) := by
  have hok : ¬ (fb.address = 0 ∨ fb.memoryModel ≠ limineFramebufferRgb ∨ (fb.bpp ≠ 24 ∧ fb.bpp ≠ 32) ∨
      fb.width < fontWidth ∨ fb.height < fontHeight) := by
    have := hu.address
    have := hu.memoryModel
    have := hu.bpp
    have := hu.width
    have := hu.height
    omega
  obtain ⟨d, hd, hshows⟩ := consoleClear_shows (c := { c with
      fb := some fb
      textCols := fb.width / fontWidth
      textRows := fb.height / fontHeight
      cursorCol := 0
      cursorRow := 0 }) hu rfl rfl rfl
  refine ⟨d, ?_, hshows⟩
  unfold consoleInit
  simp only [Option.bind_some, if_neg hcount, hfirst, if_neg hok, hd, some_bind]

/-- After every byte the cursor is on the screen and the framebuffer shows the screen of
the terminal that has been sent the same bytes. -/
theorem console_refines (fb : Framebuffer) (hu : fb.Usable) (c : FbConsole) (count : Nat)
    (framebuffers : Nat → Option Framebuffer) (hcount : count ≠ 0) (hfirst : framebuffers 0 = some fb) :
    ∃ d, c.consoleInit (some ⟨count, some framebuffers⟩) = some (true, d) ∧
      ∀ s, ∃ e, d.consoleWrite s = some e ∧ e.cursorCol < e.textCols ∧ e.cursorRow < e.textRows ∧
        Displays fb e ((Terminal.clear 32 hu.rows_pos hu.cols_pos).run 32 4 (s.map action)) := by
  obtain ⟨d, hd, hclear⟩ := consoleInit_shows hu c hcount hfirst
  refine ⟨d, hd, fun s => ?_⟩
  obtain ⟨e, he, hshows⟩ := hclear.consoleWrite hu s
  refine ⟨e, he, ?_, ?_, hshows⟩
  · rw [hshows.col, hshows.grid.textCols]
    exact Fin.isLt _
  · rw [hshows.row, hshows.grid.textRows]
    exact Fin.isLt _

/-- A picture of 20 by 40 pixels: two columns and two rows of text, with pixels left over. -/
def smallFb : Framebuffer := ⟨4096, 20, 40, 64, 24, limineFramebufferRgb, 8, 16, 8, 8, 8, 0⟩

theorem smallFb_usable : smallFb.Usable := by
  constructor <;> decide

def noConsole : FbConsole := ⟨none, 0, 0, 0, 0, fun _ => 0, []⟩

theorem console_refines_small : ∃ d, noConsole.consoleInit (some ⟨1, some fun _ => some smallFb⟩) = some (true, d) ∧
    ∃ e, d.consoleWrite [97, 9, 98, 10, 99] = some e ∧ e.cursorCol < e.textCols ∧ e.cursorRow < e.textRows := by
  obtain ⟨d, hd, hwrite⟩ := console_refines smallFb smallFb_usable noConsole 1 (fun _ => some smallFb) (by decide) rfl
  obtain ⟨e, he, hcol, hrow, -⟩ := hwrite [97, 9, 98, 10, 99]
  exact ⟨d, hd, e, he, hcol, hrow⟩

end FbConsole

end NarcOs
