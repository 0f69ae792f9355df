import Onix.Spec.Terminal

/-! What the loops of the console leave in the memory, and where the cursor and
the window stand after every byte. -/

namespace Onix

namespace Bytes

variable {b : Bytes} {i v : ℕ}

theorem rd16_wr32_low : (b.wr32 i v).rd16 i = v % 2 ^ 16 := by
  unfold wr32
  rw [rd16_wr16_ne (by omega), rd16_wr16]

theorem rd16_wr32_high : (b.wr32 i v).rd16 (i + 2) = v / 2 ^ 16 % 2 ^ 16 := by
  unfold wr32
  rw [rd16_wr16]

end Bytes

namespace Console

open Bytes

namespace Video

variable {m : Video} {ptr value a dest src n j k : ℕ}

theorem mem_poke8 : a ∈ (m.poke8 ptr value).stored ↔ a = ptr ∨ a ∈ m.stored := List.mem_cons

theorem mem_poke16 :
    a ∈ (m.poke16 ptr value).stored ↔ (ptr ≤ a ∧ a < ptr + 2) ∨ a ∈ m.stored := by
  simp only [poke16, List.mem_cons]
  rw [show (ptr ≤ a ∧ a < ptr + 2) ↔ a = ptr ∨ a = ptr + 1 by omega, or_assoc]

theorem mem_poke32 :
    a ∈ (m.poke32 ptr value).stored ↔ (ptr ≤ a ∧ a < ptr + 4) ∨ a ∈ m.stored := by
  simp only [poke32, List.mem_cons]
  rw [show (ptr ≤ a ∧ a < ptr + 4) ↔
    a = ptr ∨ a = ptr + 1 ∨ a = ptr + 2 ∨ a = ptr + 3 by omega]
  simp only [or_assoc]

theorem mem_memcpy : a ∈ (m.memcpy dest src n).stored ↔
    (dest ≤ a ∧ a < dest + n) ∨ a ∈ m.stored := by
  induction n generalizing m dest src with
  | zero =>
    unfold memcpy
    exact ⟨Or.inr, fun h => h.resolve_left (by omega)⟩
  | succ n ih =>
    unfold memcpy
    rw [ih, mem_poke8, ← or_assoc]
    apply or_congr_left
    omega

theorem mem_blank : a ∈ (m.blank ptr n).stored ↔ (ptr ≤ a ∧ a < ptr + 4 * n) ∨ a ∈ m.stored := by
  induction n generalizing m ptr with
  | zero =>
    unfold blank
    exact ⟨Or.inr, fun h => h.resolve_left (by omega)⟩
  | succ n ih =>
    unfold blank
    rw [ih, mem_poke32, ← or_assoc]
    apply or_congr_left
    omega

/-- Bytes copied down to a place below the source. -/
theorem rd8_memcpy (h : dest + n ≤ src) : (m.memcpy dest src n).mem.rd8 j =
    if dest ≤ j ∧ j < dest + n then m.mem.rd8 (src + (j - dest)) else m.mem.rd8 j := by
  induction n generalizing m dest src with
  | zero => exact (if_neg (by omega)).symm
  | succ n ih =>
    unfold memcpy
    rw [ih (by omega)]
    have hlt : m.mem.rd8 src < 2 ^ 8 := rd8_lt
    by_cases hj : j = dest
    · subst hj
      rw [if_neg (by omega), if_pos (by omega), Nat.sub_self, Nat.add_zero]
      exact rd8_wr8_self.trans (Nat.mod_eq_of_lt hlt)
    · by_cases hin : dest + 1 ≤ j ∧ j < dest + 1 + n
      · rw [if_pos hin, if_pos (by omega), show src + 1 + (j - (dest + 1)) = src + (j - dest) by omega]
        exact rd8_wr8_ne (by omega)
      · rw [if_neg hin, if_neg (by omega)]
        exact rd8_wr8_ne (by omega)

theorem rd16_memcpy (h : dest + n ≤ src) (hj : j + 2 ≤ n) :
    (m.memcpy dest src n).mem.rd16 (dest + j) = m.mem.rd16 (src + j) := by
  unfold rd16
  rw [rd8_memcpy h, rd8_memcpy h, if_pos (by omega), if_pos (by omega),
    Nat.add_sub_cancel_left, show src + (dest + j + 1 - dest) = src + j + 1 by omega]

theorem rd16_blank_ne (h : j + 2 ≤ ptr) : (m.blank ptr n).mem.rd16 j = m.mem.rd16 j := by
  induction n generalizing m ptr with
  | zero => rfl
  | succ n ih =>
    unfold blank
    rw [ih (by omega)]
    exact rd16_wr32_ne (by omega)

/-- The cells that the loop of `scroll_up` writes hold the erase cell and 0 in turn. -/
theorem rd16_blank (hk : k < 2 * n) :
    (m.blank ptr n).mem.rd16 (ptr + 2 * k) = if k % 2 = 0 then erase else 0 := by
  induction n generalizing m ptr k with
  | zero => omega
  | succ n ih =>
    unfold blank
    rcases k with _ | _ | k
    · rw [rd16_blank_ne (by omega)]
      exact rd16_wr32_low
    · rw [rd16_blank_ne (by omega)]
      exact rd16_wr32_high
    · rw [show ptr + 2 * (k + 1 + 1) = ptr + 4 + 2 * k by omega, ih (by omega),
        show (k + 1 + 1) % 2 = k % 2 by omega]

theorem clear_eq (ptr : ℕ) (m : Video) : m.clear ptr =
    if ptr < MEM_END then (m.poke16 ptr erase).clear (ptr + 2) else m := by
  rw [clear]

/-- The loop of `console_clear` with `n` cells to go. -/
theorem clear_spec (n : ℕ) (h : ptr + 2 * n = MEM_END) :
    (∀ a, a ∈ (m.clear ptr).stored ↔ (ptr ≤ a ∧ a < MEM_END) ∨ a ∈ m.stored) ∧
      (∀ j, j + 2 ≤ ptr → (m.clear ptr).mem.rd16 j = m.mem.rd16 j) ∧
      ∀ k < n, (m.clear ptr).mem.rd16 (ptr + 2 * k) = erase := by
  induction n generalizing m ptr with
  | zero =>
    rw [clear_eq, if_neg (by omega)]
    refine ⟨fun a => ⟨Or.inr, fun h' => h'.resolve_left (by omega)⟩, fun _ _ => rfl, ?_⟩
    intro k hk
    omega
  | succ n ih =>
    rw [clear_eq, if_pos (by omega)]
    have hnext : ptr + 2 + 2 * n = MEM_END := by omega
    obtain ⟨hstored, hbelow, hcells⟩ := ih (m := m.poke16 ptr erase) hnext
    refine ⟨fun a => ?_, fun j hj => ?_, fun k hk => ?_⟩
    · rw [hstored, mem_poke16, ← or_assoc]
      apply or_congr_left
      omega
    · rw [hbelow j (by omega)]
      exact rd16_wr16_ne (by omega)
    · rcases k with _ | k
      · rw [hbelow _ (by omega)]
        exact rd16_wr16
      · rw [show ptr + 2 * (k + 1) = ptr + 2 + 2 * k by omega]
        exact hcells k (by omega)

end Video

/-- Where the cursor and the window may stand between two bytes. -/
structure Inv (s : State) : Prop where
  pos : s.pos = s.screen + 2 * (WIDTH * s.y + s.x)
  x : s.x ≤ WIDTH
  y : s.y < HEIGHT
  base : MEM_BASE ≤ s.screen
  row : ROW_SIZE ∣ s.screen - MEM_BASE
  fits : s.screen + SCR_SIZE ≤ MEM_END

theorem mem_end : MEM_BASE = 0xB8000 ∧ MEM_END = MEM_BASE + 16384 := ⟨rfl, rfl⟩

section Steps

variable {s : State} {ch : Byte}

theorem inv_clear (s : State) : Inv (consoleClear s) where
  pos := rfl
  x := Nat.zero_le _
  y := show 0 < HEIGHT by decide
  base := Nat.le_refl _
  row := ⟨0, Nat.sub_self _⟩
  fits := show MEM_BASE + SCR_SIZE ≤ MEM_END by decide

/-- The window taken back to the base, where the next row would not fit. -/
def rewind (s : State) : State :=
  { s with
    video := s.video.memcpy MEM_BASE s.screen SCR_SIZE
    pos := MEM_BASE + 2 * (WIDTH * s.y + s.x)
    screen := MEM_BASE }

/-- The window moved on by one row. -/
def advance (s : State) : State :=
  { s with
    video := s.video.blank (s.screen + SCR_SIZE) WIDTH
    screen := s.screen + ROW_SIZE
    pos := s.pos + ROW_SIZE
    start := register (s.screen + ROW_SIZE) }

theorem inv_rewind (h : Inv s) : Inv (rewind s) := by
  unfold rewind
  refine ⟨rfl, h.x, h.y, Nat.le_refl _, ⟨0, Nat.sub_self _⟩, ?_⟩
  exact show MEM_BASE + SCR_SIZE ≤ MEM_END by decide

theorem inv_advance (h : Inv s) (hroom : s.screen + SCR_SIZE + ROW_SIZE < MEM_END) :
    Inv (advance s) := by
  have hmem := mem_end
  obtain ⟨hpos, hx, hy, hbase, hrow, hfits⟩ := h
  simp only [SCR_SIZE, ROW_SIZE, HEIGHT, WIDTH] at *
  constructor <;> dsimp only [advance, SCR_SIZE, ROW_SIZE, HEIGHT, WIDTH] <;> omega

/-- The three sums of `scroll_up` do not wrap. -/
theorem scroll_sums (h : Inv s) :
    (s.screen + SCR_SIZE + ROW_SIZE) % 2 ^ 32 = s.screen + SCR_SIZE + ROW_SIZE ∧
      (s.screen + SCR_SIZE) % 2 ^ 32 = s.screen + SCR_SIZE ∧
      (s.screen + ROW_SIZE) % 2 ^ 32 = s.screen + ROW_SIZE ∧
      (s.pos + ROW_SIZE) % 2 ^ 32 = s.pos + ROW_SIZE := by
  have hmem := mem_end
  obtain ⟨hpos, hx, hy, hbase, hrow, hfits⟩ := h
  simp only [SCR_SIZE, ROW_SIZE, HEIGHT, WIDTH] at *
  omega

theorem scrollUp_of_full (h : Inv s) (hfull : MEM_END ≤ s.screen + SCR_SIZE + ROW_SIZE) :
    scrollUp s = advance (rewind s) := by
  have hpos := h.pos
  have hbase := h.base
  have hback : sub32 s.pos (sub32 s.screen MEM_BASE) = MEM_BASE + 2 * (WIDTH * s.y + s.x) := by
    rw [sub32_of_le hbase, sub32_of_le (by omega)]
    omega
  obtain ⟨-, hscr, hrow, hpos'⟩ := scroll_sums (inv_rewind h)
  unfold scrollUp advance setScreen
  rw [(scroll_sums h).1, if_pos hfull, hback, ← hscr, ← hrow, ← hpos']
  rfl

theorem scrollUp_of_room (h : Inv s) (hroom : s.screen + SCR_SIZE + ROW_SIZE < MEM_END) :
    scrollUp s = advance s := by
  obtain ⟨hboth, hscr, hrow, hpos⟩ := scroll_sums h
  unfold scrollUp advance setScreen
  rw [hboth, if_neg (Nat.not_le.mpr hroom), ← hscr, ← hrow, ← hpos]

theorem rewind_room (s : State) :
    (rewind s).screen + SCR_SIZE + ROW_SIZE < MEM_END :=
  show MEM_BASE + SCR_SIZE + ROW_SIZE < MEM_END by decide

theorem inv_scrollUp (h : Inv s) : Inv (scrollUp s) := by
  by_cases hfull : MEM_END ≤ s.screen + SCR_SIZE + ROW_SIZE
  · rw [scrollUp_of_full h hfull]
    exact inv_advance (inv_rewind h) (rewind_room s)
  · rw [scrollUp_of_room h (by omega)]
    exact inv_advance h (by omega)

theorem commandLf_eq (h : Inv s) :
    commandLf s = if s.y + 1 < HEIGHT then
      { s with y := s.y + 1, pos := s.pos + ROW_SIZE } else scrollUp s := by
  have hmem := mem_end
  obtain ⟨hpos, hx, hy, hbase, hrow, hfits⟩ := h
  unfold commandLf
  simp only [SCR_SIZE, ROW_SIZE, HEIGHT, WIDTH] at *
  rw [Nat.mod_eq_of_lt (by omega), Nat.mod_eq_of_lt (by omega)]

/-- A line feed keeps the column. -/
theorem inv_lf (h : Inv s) : Inv (commandLf s) := by
  rw [commandLf_eq h]
  split
  · refine ⟨?_, h.x, by assumption, h.base, h.row, h.fits⟩
    have hpos := h.pos
    dsimp only
    simp only [ROW_SIZE, WIDTH] at *
    omega
  · exact inv_scrollUp h

theorem commandCr_eq (h : Inv s) :
    commandCr s = { s with pos := s.screen + 2 * (WIDTH * s.y), x := 0 } := by
  have hpos := h.pos
  have hx := h.x
  unfold commandCr
  unfold WIDTH at hx
  rw [Nat.mod_eq_of_lt (by omega), sub32_of_le (by omega),
    show s.pos - s.x * 2 = s.screen + 2 * (WIDTH * s.y) by omega]

theorem inv_cr (h : Inv s) : Inv (commandCr s) := by
  rw [commandCr_eq h]
  exact ⟨rfl, Nat.zero_le _, h.y, h.base, h.row, h.fits⟩

theorem commandBs_eq (h : Inv s) (hx : s.x ≠ 0) :
    commandBs s = { s with
      x := s.x - 1
      pos := s.screen + 2 * (WIDTH * s.y + (s.x - 1))
      video := s.video.poke16 (s.screen + 2 * (WIDTH * s.y + (s.x - 1))) erase } := by
  have hpos := h.pos
  have he : sub32 s.pos 2 = s.screen + 2 * (WIDTH * s.y + (s.x - 1)) := by
    rw [sub32_of_le (by omega)]
    omega
  unfold commandBs
  rw [if_neg hx, he, sub32_of_le (by omega)]

theorem inv_bs (h : Inv s) : Inv (commandBs s) := by
  by_cases hx : s.x = 0
  · unfold commandBs
    rwa [if_pos hx]
  · rw [commandBs_eq h hx]
    exact ⟨rfl, (Nat.sub_le _ _).trans h.x, h.y, h.base, h.row, h.fits⟩

theorem inv_del (h : Inv s) : Inv (commandDel s) := ⟨h.pos, h.x, h.y, h.base, h.row, h.fits⟩

/-- The cursor at the first column of its line. -/
def home (s : State) : State := { s with pos := s.screen + 2 * (WIDTH * s.y), x := 0 }

theorem inv_home (h : Inv s) : Inv (home s) := ⟨rfl, Nat.zero_le _, h.y, h.base, h.row, h.fits⟩

/-- A character behind the last column goes to the first of the next line. -/
theorem wrap_eq (h : Inv s) : wrap s = if WIDTH ≤ s.x then commandLf (home s) else s := by
  have hpos := h.pos
  have hx := h.x
  unfold wrap
  by_cases hfull : WIDTH ≤ s.x
  · rw [if_pos hfull, if_pos hfull, sub32_of_le hfull]
    unfold ROW_SIZE
    rw [sub32_of_le (by omega), show s.x - WIDTH = 0 by omega,
      show s.pos - WIDTH * 2 = s.screen + 2 * (WIDTH * s.y) by omega]
    rfl
  · rw [if_neg hfull, if_neg hfull]

theorem inv_wrap (h : Inv s) : Inv (wrap s) := by
  rw [wrap_eq h]
  split
  · exact inv_lf (inv_home h)
  · exact h

theorem scrollUp_x (s : State) : (scrollUp s).x = s.x := by
  unfold scrollUp setScreen
  split <;> rfl

theorem scrollUp_y (s : State) : (scrollUp s).y = s.y := by
  unfold scrollUp setScreen
  split <;> rfl

theorem commandLf_x (h : Inv s) : (commandLf s).x = s.x := by
  rw [commandLf_eq h]
  split
  · rfl
  · exact scrollUp_x s

/-- After the wrap there is a column for the character. -/
theorem wrap_x (h : Inv s) : (wrap s).x < WIDTH := by
  rw [wrap_eq h]
  split
  · rw [commandLf_x (inv_home h)]
    exact show 0 < WIDTH by decide
  · omega

theorem putChar_eq (h : Inv s) (hx : s.x < WIDTH) :
    putChar s ch = { s with
      video := (s.video.poke8 s.pos ch.toNat).poke8 (s.pos + 1) attr
      pos := s.pos + 2
      x := s.x + 1 } := by
  have hmem := mem_end
  obtain ⟨hpos, -, hy, hbase, hrow, hfits⟩ := h
  unfold putChar
  simp only [SCR_SIZE, ROW_SIZE, HEIGHT, WIDTH] at *
  rw [Nat.mod_eq_of_lt (by omega), Nat.mod_eq_of_lt (by omega), Nat.mod_eq_of_lt (by omega)]

theorem inv_putChar (h : Inv s) (hx : s.x < WIDTH) : Inv (putChar s ch) := by
  have hpos := h.pos
  rw [putChar_eq h hx]
  refine ⟨?_, hx, h.y, h.base, h.row, h.fits⟩
  dsimp only
  omega

theorem inv_writeByte (ch : Byte) (h : Inv s) : Inv (writeByte s ch) := by
  unfold writeByte
  cases key ch with
  | nul => exact h
  | bel => exact h
  | bs => exact inv_bs h
  | ht => exact h
  | lf => exact inv_cr (inv_lf h)
  | vt => exact h
  | ff => exact inv_lf h
  | cr => exact inv_cr h
  | del => exact inv_del h
  | char => exact inv_putChar (inv_wrap h) (wrap_x h)

end Steps

end Console

end Onix
