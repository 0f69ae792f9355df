import Onix.Sanity.ConsoleInv
import Onix.Sanity.TerminalRun

/-! The console is the terminal whose scrolls leave every second cell of the new
row at 0, and it stays in its memory for 76 scrolls. -/

namespace Onix.Console

open Function Bytes

/-- The row of the video memory where the window starts after `n` scrolls: the
77th row is the last with a whole screen behind it. -/
def window (n : ℕ) : ℕ := if n = 0 then 0 else (n - 1) % 77 + 1

/-- The stores so far, after `n` scrolls. -/
structure Stores (m : Video) (n : ℕ) : Prop where
  low : ∀ a ∈ m.stored, MEM_BASE ≤ a
  high : (∃ a ∈ m.stored, MEM_END ≤ a) ↔ 77 ≤ n

/-- The console and the terminal show the same. -/
structure Shows (s : State) (t : Term ℕ) : Prop where
  inv : Inv s
  x : t.x = s.x
  y : t.y = s.y
  cell : ∀ k < WIDTH * HEIGHT, s.cell k = t.cell k
  row : s.screen = MEM_BASE + ROW_SIZE * window t.scrolls
  stores : Stores s.video t.scrolls

section Stores

variable {s : State} {m m' : Video} {n row screen : ℕ}

/-- A cell next to the screen is still in the video memory. -/
theorem Inv.spare (h : Inv s) : s.screen + SCR_SIZE + 2 ≤ MEM_END := by
  have hmem := mem_end
  obtain ⟨-, -, -, hbase, hrow, hfits⟩ := h
  simp only [SCR_SIZE, ROW_SIZE, HEIGHT, WIDTH] at *
  omega

theorem Stores.within (h : Stores m n) (P : ℕ → Prop)
    (hmem : ∀ a, a ∈ m'.stored ↔ P a ∨ a ∈ m.stored)
    (hin : ∀ a, P a → MEM_BASE ≤ a ∧ a < MEM_END) : Stores m' n := by
  constructor
  · intro a ha
    rcases (hmem a).mp ha with hp | ha
    · exact (hin a hp).1
    · exact h.low a ha
  · rw [← h.high]
    constructor
    · rintro ⟨a, ha, hle⟩
      refine ⟨a, ((hmem a).mp ha).resolve_left fun hp => ?_, hle⟩
      have := (hin a hp).2
      omega
    · rintro ⟨a, ha, hle⟩
      exact ⟨a, (hmem a).mpr (Or.inr ha), hle⟩

theorem window_le (n : ℕ) : window n ≤ 77 := by
  unfold window
  split <;> omega

/-- The step of the window: the next row, or the first row after the last. -/
theorem window_succ (n : ℕ) : window (n + 1) = if window n = 77 then 1 else window n + 1 := by
  unfold window
  rw [if_neg (Nat.succ_ne_zero n)]
  split_ifs <;> omega

theorem lt_of_window_lt (h : 76 ≤ window n) : 76 ≤ n := by
  unfold window at h
  split at h <;> omega

theorem le_of_window_full (h : window n = 77) : 77 ≤ n := by
  unfold window at h
  split at h <;> omega

theorem window_of_lt (h : n < 77) : window n = n := by
  unfold window
  split <;> omega

/-- A scroll stores behind the video memory from the 77th on. -/
theorem Stores.blank (h : Stores m n) (hscreen : screen = MEM_BASE + ROW_SIZE * row)
    (hrow : 76 ≤ row → 76 ≤ n) (hlast : n = 76 → row = 76) :
    Stores (m.blank (screen + SCR_SIZE) WIDTH) (n + 1) := by
  have hmem := mem_end
  have hstored : ∀ a, a ∈ (m.blank (screen + SCR_SIZE) WIDTH).stored ↔
      (screen + SCR_SIZE ≤ a ∧ a < screen + SCR_SIZE + 4 * WIDTH) ∨ a ∈ m.stored :=
    fun a => Video.mem_blank
  simp only [SCR_SIZE, ROW_SIZE, HEIGHT, WIDTH] at hscreen hstored ⊢
  constructor
  · intro a ha
    rcases (hstored a).mp ha with hp | ha
    · omega
    · exact h.low a ha
  · constructor
    · rintro ⟨a, ha, hle⟩
      rcases (hstored a).mp ha with hp | ha
      · have : 76 ≤ n := hrow (by omega)
        omega
      · have := h.high.mp ⟨a, ha, hle⟩
        omega
    · intro hn
      by_cases he : n = 76
      · -- the window is at row 76, and 320 bytes do not fit behind its screen
        have := hlast he
        exact ⟨MEM_END, (hstored _).mpr (Or.inl (by omega)), Nat.le_refl _⟩
      · obtain ⟨a, ha, hle⟩ := h.high.mpr (by omega)
        exact ⟨a, (hstored a).mpr (Or.inr ha), hle⟩

end Stores

section Cells

variable {s : State} {t : Term ℕ} {b : Bytes} {base j k v ch row : ℕ}

theorem rd16_wr16_cell : (b.wr16 (base + 2 * k) v).rd16 (base + 2 * j) =
    if j = k then v % 2 ^ 16 else b.rd16 (base + 2 * j) := by
  split
  · subst j
    exact rd16_wr16
  · exact rd16_wr16_ne (by omega)

theorem rd16_char_cell (hch : ch < 2 ^ 8) :
    ((b.wr8 (base + 2 * k) ch).wr8 (base + 2 * k + 1) attr).rd16 (base + 2 * j) =
      if j = k then ch + 2 ^ 8 * attr else b.rd16 (base + 2 * j) := by
  split
  · subst j
    unfold rd16
    rw [rd8_wr8_ne (by omega), rd8_wr8_self, rd8_wr8_self, Nat.mod_eq_of_lt hch]
    rfl
  · rw [rd16_wr8_ne (by omega), rd16_wr8_ne (by omega)]

/-- Stores into one cell of the window or the one next to it. -/
theorem Shows.store (h : Shows s t) (hk : k ≤ WIDTH * HEIGHT) (m : Video)
    (hmem : ∀ a, a ∈ m.stored ↔
      (s.screen + 2 * k ≤ a ∧ a < s.screen + 2 * k + 2) ∨ a ∈ s.video.stored) :
    Stores m t.scrolls := by
  have hspare := h.inv.spare
  have hbase := h.inv.base
  apply h.stores.within _ hmem
  intro a ha
  simp only [SCR_SIZE, ROW_SIZE, HEIGHT, WIDTH] at *
  omega

/-- One cell erased in the window or next to it. -/
theorem Shows.poke (h : Shows s t) (k : ℕ) :
    ∀ j < WIDTH * HEIGHT, (s.video.poke16 (s.screen + 2 * k) erase).mem.rd16 (s.screen + 2 * j) =
      update t.cell k erase j := by
  intro j hj
  refine rd16_wr16_cell.trans ?_
  by_cases he : j = k
  · subst he
    rw [if_pos rfl, update_self]
    rfl
  · rw [if_neg he, update_of_ne he]
    exact h.cell j hj

theorem Shows.bs (h : Shows s t) : Shows (commandBs s) (t.bs striped) := by
  have hinv := inv_bs h.inv
  by_cases hx : s.x = 0
  · unfold commandBs Term.bs
    rw [if_pos hx, if_pos (h.x.trans hx)]
    exact h
  · rw [commandBs_eq h.inv hx] at hinv ⊢
    have hle := h.inv.x
    have hlt := h.inv.y
    have hk : WIDTH * s.y + (s.x - 1) ≤ WIDTH * HEIGHT := by
      simp only [WIDTH, HEIGHT] at *
      omega
    unfold Term.bs
    rw [if_neg (by rwa [h.x]), h.x, h.y]
    exact ⟨hinv, rfl, rfl, h.poke _, h.row, h.store hk _ fun _ => Video.mem_poke16⟩

theorem Shows.del (h : Shows s t) : Shows (commandDel s) (t.del striped) := by
  have hle := h.inv.x
  have hlt := h.inv.y
  have hk : WIDTH * s.y + s.x ≤ WIDTH * HEIGHT := by
    simp only [WIDTH, HEIGHT] at *
    omega
  have hpoke := h.poke (WIDTH * s.y + s.x)
  have hstores := h.store hk (s.video.poke16 (s.screen + 2 * (WIDTH * s.y + s.x)) erase)
    fun _ => Video.mem_poke16
  unfold Term.del
  rw [h.x, h.y]
  rw [← h.inv.pos] at hpoke hstores
  exact ⟨inv_del h.inv, rfl, rfl, hpoke, h.row, hstores⟩

theorem Shows.cr (h : Shows s t) : Shows (commandCr s) t.cr := by
  have hinv := inv_cr h.inv
  rw [commandCr_eq h.inv] at hinv ⊢
  exact ⟨hinv, rfl, h.y, h.cell, h.row, h.stores⟩

theorem Shows.home (h : Shows s t) : Shows (home s) { t with x := 0 } :=
  ⟨inv_home h.inv, rfl, h.y, h.cell, h.row, h.stores⟩

theorem disjoint_of_full (hfull : MEM_END ≤ s.screen + SCR_SIZE + ROW_SIZE) :
    MEM_BASE + SCR_SIZE ≤ s.screen := by
  have hmem := mem_end
  generalize MEM_BASE = base at *
  simp only [SCR_SIZE, ROW_SIZE, HEIGHT, WIDTH] at *
  omega

/-- The screen copied down to the base is the same screen. -/
theorem Shows.rewind_cell (h : Shows s t) (hfull : MEM_END ≤ s.screen + SCR_SIZE + ROW_SIZE) :
    ∀ k < WIDTH * HEIGHT, (rewind s).cell k = t.cell k := by
  intro k hk
  rw [← h.cell k hk]
  have hin : 2 * k + 2 ≤ SCR_SIZE := by
    simp only [SCR_SIZE, ROW_SIZE, HEIGHT, WIDTH] at *
    omega
  unfold State.cell rewind
  dsimp only
  exact Video.rd16_memcpy (disjoint_of_full hfull) hin

theorem striped_fresh (col : ℕ) : striped.fresh col = if col % 2 = 0 then erase else 0 := rfl

/-- The row that scrolls in is written at twice its width: its cells are erased
and zeroed in turn. -/
theorem advance_cell (hcell : ∀ k < WIDTH * HEIGHT, s.cell k = t.cell k) :
    ∀ k < WIDTH * HEIGHT, (advance s).cell k = (t.scroll striped).cell k := by
  intro k hk
  unfold Term.scroll
  dsimp only
  by_cases hold : k < WIDTH * (HEIGHT - 1)
  · have hlow : s.screen + 2 * (k + WIDTH) + 2 ≤ s.screen + SCR_SIZE := by
      simp only [SCR_SIZE, ROW_SIZE, WIDTH, HEIGHT] at *
      omega
    have haddr : s.screen + ROW_SIZE + 2 * k = s.screen + 2 * (k + WIDTH) := by
      unfold ROW_SIZE
      omega
    rw [if_pos hold, ← hcell (k + WIDTH) (by simp only [WIDTH, HEIGHT] at *; omega)]
    unfold State.cell advance
    dsimp only
    rw [haddr]
    exact Video.rd16_blank_ne hlow
  · have haddr : s.screen + ROW_SIZE + 2 * k =
        s.screen + SCR_SIZE + 2 * (k - WIDTH * (HEIGHT - 1)) := by
      simp only [SCR_SIZE, ROW_SIZE, WIDTH, HEIGHT] at *
      omega
    have hcol : k - WIDTH * (HEIGHT - 1) < 2 * WIDTH := by
      simp only [WIDTH, HEIGHT] at *
      omega
    rw [if_neg hold]
    unfold State.cell advance
    dsimp only
    rw [haddr, Video.rd16_blank hcol, striped_fresh]

theorem full_iff (hrow : s.screen = MEM_BASE + ROW_SIZE * row) (hle : row ≤ 77) :
    MEM_END ≤ s.screen + SCR_SIZE + ROW_SIZE ↔ row = 77 := by
  have hmem := mem_end
  generalize MEM_BASE = base at *
  simp only [SCR_SIZE, ROW_SIZE, HEIGHT, WIDTH] at *
  omega

theorem Stores.rewind {n : ℕ} (h : Stores s.video n) : Stores (rewind s).video n := by
  have hstored : ∀ a, a ∈ (Console.rewind s).video.stored ↔
      (MEM_BASE ≤ a ∧ a < MEM_BASE + SCR_SIZE) ∨ a ∈ s.video.stored := by
    intro a
    unfold Console.rewind
    exact Video.mem_memcpy
  apply h.within _ hstored
  intro a ha
  have hmem := mem_end
  clear hstored
  generalize MEM_BASE = base at *
  simp only [SCR_SIZE, ROW_SIZE, HEIGHT, WIDTH] at *
  omega

theorem Shows.scroll (h : Shows s t) : Shows (scrollUp s) (t.scroll striped) := by
  have hinv := inv_scrollUp h.inv
  have hx := h.x.trans (scrollUp_x s).symm
  have hy := h.y.trans (scrollUp_y s).symm
  have hfull := full_iff h.row (window_le t.scrolls)
  by_cases hlast : window t.scrolls = 77
  · have hn := le_of_window_full hlast
    rw [scrollUp_of_full h.inv (hfull.mpr hlast)] at hinv hx hy ⊢
    have hscreen : (rewind s).screen = MEM_BASE + ROW_SIZE * 0 := rfl
    refine ⟨hinv, hx, hy, advance_cell (h.rewind_cell (hfull.mpr hlast)), ?_,
      h.stores.rewind.blank hscreen (by omega) (by omega)⟩
    unfold Term.scroll
    rw [window_succ, if_pos hlast]
    rfl
  · have hroom := Nat.not_le.mp (mt hfull.mp hlast)
    rw [scrollUp_of_room h.inv hroom] at hinv hx hy ⊢
    refine ⟨hinv, hx, hy, advance_cell h.cell, ?_,
      h.stores.blank h.row lt_of_window_lt fun hn => ?_⟩
    · unfold Term.scroll advance
      dsimp only
      rw [window_succ, if_neg hlast, h.row, Nat.mul_succ, Nat.add_assoc]
    · rw [hn, window_of_lt (by decide)]

theorem Shows.lf (h : Shows s t) : Shows (commandLf s) (t.lf striped) := by
  have hinv := inv_lf h.inv
  rw [commandLf_eq h.inv] at hinv ⊢
  unfold Term.lf
  rw [h.y]
  by_cases hy : s.y + 1 < HEIGHT
  · rw [if_pos hy] at hinv ⊢
    rw [if_pos hy]
    exact ⟨hinv, h.x, rfl, h.cell, h.row, h.stores⟩
  · rw [if_neg hy, if_neg hy]
    exact h.scroll

theorem Shows.wrap (h : Shows s t) : Shows (wrap s) (t.wrap striped) := by
  rw [wrap_eq h.inv]
  unfold Term.wrap
  rw [h.x]
  split
  · exact h.home.lf
  · exact h

theorem Shows.put (h : Shows s t) (hx : s.x < WIDTH) (ch : Byte) :
    Shows (putChar s ch) (t.put striped ch) := by
  have hinv : Inv (putChar s ch) := inv_putChar h.inv hx
  have hlt := h.inv.y
  rw [putChar_eq h.inv hx, h.inv.pos] at hinv ⊢
  have hk : WIDTH * s.y + s.x ≤ WIDTH * HEIGHT := by
    simp only [WIDTH, HEIGHT] at *
    omega
  unfold Term.put
  rw [h.x, h.y]
  refine ⟨hinv, rfl, rfl, fun j hj => ?_, h.row, h.store hk _ fun a => ?_⟩
  · refine (rd16_char_cell ch.isLt).trans ?_
    by_cases he : j = WIDTH * s.y + s.x
    · subst he
      rw [if_pos rfl]
      dsimp only
      rw [update_self]
      rfl
    · rw [if_neg he]
      dsimp only
      rw [update_of_ne he]
      exact h.cell j hj
  · rw [Video.mem_poke8, Video.mem_poke8, ← or_assoc]
    apply or_congr_left
    omega

theorem Shows.step (h : Shows s t) (ch : Byte) : Shows (writeByte s ch) (t.step striped ch) := by
  unfold writeByte Term.step
  cases key ch with
  | nul => exact h
  | bel => exact h
  | bs => exact h.bs
  | ht => exact h
  | lf => exact h.lf.cr
  | vt => exact h
  | ff => exact h.lf
  | cr => exact h.cr
  | del => exact h.del
  | char => exact h.wrap.put (wrap_x h.inv) ch

theorem shows_cleared (s : State) : Shows (cleared s) (Term.init striped) := by
  obtain ⟨hstored, -, hcells⟩ :=
    Video.clear_spec (m := ⟨s.video.mem, []⟩) (MEM_SIZE / 2) (rfl : MEM_BASE + 2 * (MEM_SIZE / 2) = MEM_END)
  have hmem : ∀ a ∈ (Video.clear ⟨s.video.mem, []⟩ MEM_BASE).stored, MEM_BASE ≤ a ∧ a < MEM_END :=
    fun a ha => ((hstored a).mp ha).resolve_right (List.not_mem_nil)
  refine ⟨inv_clear _, rfl, rfl, fun k hk => hcells k (Nat.lt_trans hk (by decide)), rfl, ?_, ?_⟩
  · exact fun a ha => (hmem a ha).1
  · constructor
    · intro hex
      obtain ⟨a, ha, hle⟩ := hex
      exact absurd hle (Nat.not_le.mpr (hmem a ha).2)
    · exact fun h => absurd h (show ¬ 77 ≤ 0 by decide)

theorem Shows.run (h : Shows s t) (bytes : List Byte) :
    Shows (writeBytes s bytes) (bytes.foldl (Term.step striped) t) := by
  unfold writeBytes
  induction bytes generalizing s t with
  | nil => exact h
  | cons ch bytes ih =>
    rw [List.foldl_cons, List.foldl_cons]
    apply ih
    exact h.step ch

/-- The cursor register is not part of what is shown. -/
theorem Shows.calls (h : Shows s t) (bufs : List (List Byte)) :
    Shows (consoleWrites s bufs) (bufs.flatten.foldl (Term.step striped) t) := by
  unfold consoleWrites
  induction bufs generalizing s t with
  | nil => exact h
  | cons buf bufs ih =>
    rw [List.foldl_cons, List.flatten_cons, List.foldl_append]
    apply ih
    obtain ⟨⟨hpos, hxle, hylt, hbase, hdvd, hfits⟩, hx, hy, hcell, hrow, hlow, hhigh⟩ := h.run buf
    exact ⟨⟨hpos, hxle, hylt, hbase, hdvd, hfits⟩, hx, hy, hcell, hrow, hlow, hhigh⟩

/-- `console_write` refines the terminal that leaves every second cell of a new
row at 0, whatever is written and however it is split into calls. -/
theorem console_refines (s : State) (bufs : List (List Byte)) :
    Shows (consoleWrites (cleared s) bufs) (Term.run striped bufs.flatten) :=
  (shows_cleared s).calls bufs

end Cells

section Reference

variable {s : State} {bytes : List Byte} {k : ℕ}

/-- Both readings of a cell: whether a scroll left it at 0, and the reference. -/
def both : Look (Bool × ℕ) :=
  ⟨(false, erase), fun ch => (false, charCell ch), fun col => (!decide (col % 2 = 0), erase)⟩

theorem striped_eq : striped = both.map fun p => if p.1 then 0 else p.2 := by
  unfold striped both Look.map
  congr 1
  funext col
  by_cases hcol : col % 2 = 0 <;> simp [hcol]

theorem run_striped (bytes : List Byte) (k : ℕ) : (Term.run striped bytes).cell k =
    if (Term.run missed bytes).cell k then 0 else (Term.run plain bytes).cell k := by
  rw [striped_eq, show missed = both.map Prod.fst from rfl, show plain = both.map Prod.snd from rfl]
  simp only [Term.run_map]
  rfl

theorem scrolls_striped (bytes : List Byte) :
    (Term.run striped bytes).scrolls = (Term.run missed bytes).scrolls := by
  rw [striped_eq, show missed = both.map Prod.fst from rfl]
  simp only [Term.run_map]
  rfl

/-- A cell that a scroll left at 0 is erased on the reference terminal. -/
theorem erased_of_missed (h : (Term.run missed bytes).cell k = true) :
    (Term.run plain bytes).cell k = erase := by
  rw [show missed = both.map Prod.fst from rfl] at h
  rw [show plain = both.map Prod.snd from rfl]
  rw [Term.run_map] at h ⊢
  refine Term.run_every (l := both) (P := fun p => p.1 = true → p.2 = erase) ?_ ?_ ?_ bytes k h
  · exact fun _ => rfl
  · exact fun ch hch => absurd hch Bool.false_ne_true
  · exact fun col _ => rfl

theorem cell_agrees_iff : (Term.run striped bytes).cell k = (Term.run plain bytes).cell k ↔
    (Term.run missed bytes).cell k = false := by
  rw [run_striped]
  cases hm : (Term.run missed bytes).cell k with
  | true =>
    rw [erased_of_missed hm]
    decide
  | false => simp

theorem Shows.agrees_iff (h : Shows s (Term.run striped bytes)) : Agrees s bytes ↔ Covered bytes := by
  have hhigh := h.stores.high
  rw [scrolls_striped] at hhigh
  constructor
  · intro ha
    refine ⟨?_, fun k hk => ?_⟩
    · by_contra hn
      obtain ⟨a, hmem, hle⟩ := hhigh.mpr (Nat.not_lt.mp hn)
      exact absurd hle (Nat.not_le.mpr (ha.stored a hmem).2)
    · rw [← cell_agrees_iff, ← h.cell k hk]
      exact ha.cell k hk
  · intro hc
    refine ⟨fun k hk => ?_, fun a ha => ⟨h.stores.low a ha, ?_⟩⟩
    · rw [h.cell k hk, cell_agrees_iff]
      exact hc.2 k hk
    · by_contra hle
      exact absurd (hhigh.mp ⟨a, ha, Nat.not_lt.mp hle⟩) (Nat.not_le.mpr hc.1)

theorem covered_of_unscrolled (h : Unscrolled bytes) : Covered bytes := by
  unfold Unscrolled at h
  refine ⟨by omega, fun k _ => ?_⟩
  exact Term.run_every_unscrolled (P := fun c => c = false) rfl (fun _ => rfl) h k

theorem Unscrolled.start {pre : List Byte} (h : Unscrolled bytes) (hpre : pre <+: bytes) :
    Unscrolled pre := by
  obtain ⟨rest, rfl⟩ := hpre
  induction rest using List.reverseRecOn with
  | nil => rwa [List.append_nil] at h
  | append_singleton rest ch ih =>
    apply ih
    have hle := Term.step_scrolls_le missed (Term.run missed (pre ++ rest)) ch
    unfold Unscrolled at h ⊢
    rw [← List.append_assoc, Term.run_snoc] at h
    omega

/-- A byte that scrolls leaves the last cell of the screen at 0. -/
theorem step_missed (t : Term Bool) (ch : Byte) :
    (t.step missed ch).scrolls = t.scrolls ∨ (t.step missed ch).cell (WIDTH * HEIGHT - 1) = true := by
  have hlf : ∀ t : Term Bool, (t.lf missed).scrolls = t.scrolls ∨
      (t.lf missed).cell (WIDTH * HEIGHT - 1) = true ∧ (t.lf missed).x = t.x := by
    intro t
    unfold Term.lf
    split
    · exact Or.inl rfl
    · exact Or.inr ⟨rfl, rfl⟩
  unfold Term.step
  cases key ch with
  | nul => exact Or.inl rfl
  | bel => exact Or.inl rfl
  | bs =>
    dsimp only [Term.bs]
    split <;> exact Or.inl rfl
  | ht => exact Or.inl rfl
  | lf => exact (hlf t).imp_right And.left
  | vt => exact Or.inl rfl
  | ff => exact (hlf t).imp_right And.left
  | cr => exact Or.inl rfl
  | del => exact Or.inl rfl
  | char =>
    dsimp only [Term.put, Term.wrap]
    split
    · rcases hlf { t with x := 0 } with he | ⟨hcell, hx⟩
      · exact Or.inl he
      · -- the character stands in the first column, not in the last
        refine Or.inr ?_
        rw [hx, update_of_ne (by simp only [WIDTH, HEIGHT]; omega)]
        exact hcell
    · exact Or.inl rfl

/-- With every prefix covered, no byte scrolls. -/
theorem unscrolled_of_covered (h : ∀ pre, pre <+: bytes → Covered pre) : Unscrolled bytes := by
  induction bytes using List.reverseRecOn with
  | nil => rfl
  | append_singleton bytes ch ih =>
    have hpre : Unscrolled bytes := ih fun pre hp => h pre (hp.trans (List.prefix_append _ _))
    have hcov := (h _ (List.prefix_refl _)).2 (WIDTH * HEIGHT - 1) (by decide)
    unfold Unscrolled at hpre ⊢
    rw [Term.run_snoc] at hcov ⊢
    rcases step_missed (Term.run missed bytes) ch with he | hlast
    · exact he.trans hpre
    · rw [hlast] at hcov
      exact absurd hcov Bool.false_ne_true.symm

/-- The console agrees with the reference terminal exactly where every cell that a
scroll left at 0 was written since and the window has not come to its last row;
it agrees after every byte exactly when nothing scrolls. -/
theorem console_terminal (s : State) (bufs : List (List Byte)) :
    (Agrees (consoleWrites (cleared s) bufs) bufs.flatten ↔ Covered bufs.flatten) ∧
      ((∀ bytes, bytes <+: bufs.flatten → Agrees (writeBytes (cleared s) bytes) bytes) ↔
        Unscrolled bufs.flatten) := by
  have hstart : ∀ bytes, Agrees (writeBytes (cleared s) bytes) bytes ↔ Covered bytes :=
    fun bytes => ((shows_cleared s).run bytes).agrees_iff
  refine ⟨(console_refines s bufs).agrees_iff, ?_, ?_⟩
  · intro h
    exact unscrolled_of_covered fun pre hp => (hstart pre).mp (h pre hp)
  · intro h bytes hp
    exact (hstart bytes).mpr (covered_of_unscrolled (h.start hp))

/-- 25 line feeds on a cleared screen leave cells of the last row at 0, and 101 have
stored behind the video memory. -/
theorem console_scrolls :
    ∃ s : State,
      ¬ Agrees (consoleWrites (cleared s) [List.replicate 25 0x0A]) (List.replicate 25 0x0A) ∧
      ∃ a ∈ (consoleWrites (cleared s) [List.replicate 101 0x0A]).video.stored, MEM_END ≤ a := by
  let s : State := ⟨⟨fun _ => 0, []⟩, 0, 0, 0, 0, 0, 0⟩
  refine ⟨s, fun h => ?_, ?_⟩
  · have hcov := (console_refines s [List.replicate 25 0x0A]).agrees_iff.mp h
    revert hcov
    decide +kernel
  · exact (console_refines s [List.replicate 101 0x0A]).stores.high.mpr (by decide +kernel)

end Reference

end Onix.Console
