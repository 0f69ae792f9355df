import Onix.Sanity.ConsoleInv

/-! The four variables of the console agree after every byte, and the controller
is told where the window and the cursor are. -/

namespace Onix.Console

variable {s : State}

theorem inv_writeBytes (bytes : List Byte) (h : Inv s) : Inv (writeBytes s bytes) := by
  unfold writeBytes
  induction bytes generalizing s with
  | nil => exact h
  | cons ch bytes ih =>
    rw [List.foldl_cons]
    apply ih
    exact inv_writeByte ch h

theorem inv_consoleWrite (buf : List Byte) (h : Inv s) : Inv (consoleWrite s buf).2 := by
  obtain ⟨hpos, hx, hy, hbase, hrow, hfits⟩ := inv_writeBytes buf h
  exact ⟨hpos, hx, hy, hbase, hrow, hfits⟩

theorem inv_consoleWrites (bufs : List (List Byte)) (h : Inv s) : Inv (consoleWrites s bufs) := by
  unfold consoleWrites
  induction bufs generalizing s with
  | nil => exact h
  | cons buf bufs ih =>
    rw [List.foldl_cons]
    apply ih
    exact inv_consoleWrite buf h

/-- After `console_clear`, any calls of `console_write` and any bytes of one more:
`pos` is the place of the column and the row, the column and the row are on the
screen, and the window starts with a row and lies in the video memory. -/
theorem console_cursor (s : State) (bufs : List (List Byte)) (bytes : List Byte) :
    Inv (writeBytes (consoleWrites (consoleClear s) bufs) bytes) := by
  apply inv_writeBytes
  apply inv_consoleWrites
  exact inv_clear s

section Registers

theorem scrollUp_start (h : Inv s) : (scrollUp s).start = register (scrollUp s).screen := by
  by_cases hfull : MEM_END ≤ s.screen + SCR_SIZE + ROW_SIZE
  · rw [scrollUp_of_full h hfull]
    rfl
  · rw [scrollUp_of_room h (by omega)]
    rfl

/-- Only a scroll moves the window. -/
theorem lf_start (h : Inv s) (hs : s.start = register s.screen) :
    (commandLf s).start = register (commandLf s).screen := by
  rw [commandLf_eq h]
  split
  · exact hs
  · exact scrollUp_start h

theorem writeByte_start (ch : Byte) (h : Inv s) (hs : s.start = register s.screen) :
    (writeByte s ch).start = register (writeByte s ch).screen := by
  unfold writeByte
  cases key ch with
  | nul => exact hs
  | bel => exact hs
  | bs =>
    dsimp only [commandBs]
    split <;> exact hs
  | ht => exact hs
  | lf => exact lf_start h hs
  | vt => exact hs
  | ff => exact lf_start h hs
  | cr => exact hs
  | del => exact hs
  | char =>
    have hwrap : (wrap s).start = register (wrap s).screen := by
      rw [wrap_eq h]
      split
      · exact lf_start (inv_home h) hs
      · exact hs
    exact hwrap

theorem writeBytes_start (bytes : List Byte) (h : Inv s) (hs : s.start = register s.screen) :
    (writeBytes s bytes).start = register (writeBytes s bytes).screen := by
  unfold writeBytes
  induction bytes generalizing s with
  | nil => exact hs
  | cons ch bytes ih =>
    rw [List.foldl_cons]
    exact ih (inv_writeByte ch h) (writeByte_start ch h hs)

/-- The two bytes hold any cell of the video memory. -/
theorem register_eq {a : ℕ} (hlow : MEM_BASE ≤ a) (hhigh : a ≤ MEM_END) :
    register a = (a - MEM_BASE) / 2 := by
  have hmem := mem_end
  unfold register
  rw [sub32_of_le hlow]
  omega

/-- When `console_write` returns, the controller shows the window and the cursor. -/
theorem consoleWrite_registers (s : State) (bufs : List (List Byte)) (buf : List Byte) :
    let t := (consoleWrite (consoleWrites (consoleClear s) bufs) buf).2
    t.start = (t.screen - MEM_BASE) / 2 ∧ t.cursor = (t.pos - MEM_BASE) / 2 := by
  have hall : ∀ (bufs : List (List Byte)) s, Inv s → s.start = register s.screen →
      (consoleWrites s bufs).start = register (consoleWrites s bufs).screen := by
    intro bufs
    unfold consoleWrites
    induction bufs with
    | nil => exact fun _ _ hs => hs
    | cons b bufs ih =>
      intro s h hs
      rw [List.foldl_cons]
      exact ih _ (inv_consoleWrite b h) (writeBytes_start b h hs)
  have hinv := inv_consoleWrites bufs (inv_clear s)
  have hlast := inv_writeBytes buf hinv
  have hstart := writeBytes_start buf hinv (hall bufs _ (inv_clear s) rfl)
  have hfits := hlast.fits
  have hbase := hlast.base
  have hpos := hlast.pos
  have hx := hlast.x
  have hy := hlast.y
  simp only [SCR_SIZE, ROW_SIZE, HEIGHT, WIDTH] at hfits hpos hx hy
  exact ⟨hstart.trans (register_eq hbase (by omega)), register_eq (by omega) (by omega)⟩

end Registers

end Onix.Console
