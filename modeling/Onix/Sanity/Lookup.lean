import Onix.Sanity.BmapSpec

/-! What the functions that only look find, as functions of the contents of the blocks:
the block that `bmap` leads to and the entry that `find_entry` stops at. -/

namespace Onix.Fs

open Function Prog Cstr

variable {s t u : State} {dev : ℤ} {buf addr index block divider level r inode dir i n : ℕ}
  {name : Str} {entry : Option Entry}

theorem bread_eq {b : ℕ} (h : bread dev block s = some (b, t)) : b = block := by
  unfold bread at h
  rw [peek_bind] at h
  obtain ⟨⟨⟩, u, -, h⟩ := bind_eq_some.mp h
  simp only [poke_bind, pure_apply, Option.some.injEq, Prod.mk.injEq] at h
  exact h.1.symm

/-- The walk of `bmap` over the index blocks. -/
def State.walk (s : State) : (level buf addr index block divider : ℕ) → ℕ
  | 0, buf, addr, index, _, _ => s.cell buf addr index
  | level + 1, buf, addr, index, block, divider =>
    if s.cell buf addr index = 0 then 0
    else s.walk level (s.cell buf addr index) 0 (block / divider % 2 ^ 16) (block % divider)
      (divider / BLOCK_INDEXES)

/-- The device block of block `block` of the file whose zones are at `addr` in `buf`, or 0. -/
def State.mapped (s : State) (buf addr block : ℕ) : ℕ :=
  s.walk (bmapPlan block).level buf addr (bmapPlan block).index (bmapPlan block).block
    (bmapPlan block).divider

/-- The device block of a block of an inode's file. -/
def State.zoneOf (s : State) (inode block : ℕ) : ℕ := s.mapped (s.ibuf inode) (s.izone inode) block

theorem walk_congr (h : t.data = s.data) :
    t.walk level buf addr index block divider = s.walk level buf addr index block divider := by
  induction level generalizing buf addr index block divider with
  | zero => exact cell_congr h
  | succ level ih =>
    unfold State.walk
    rw [cell_congr h]
    split_ifs
    · rfl
    · exact ih

theorem bmapLoop_walk (h : bmapLoop dev false level buf addr index block divider s = some (r, t)) :
    r = s.walk level buf addr index block divider := by
  induction level generalizing s buf addr index block divider with
  | zero =>
    rcases bmapCell_cases h with ⟨⟨-, hf⟩, -⟩ | ⟨-, hr, -⟩
    · cases hf
    · exact hr
  | succ level ih =>
    obtain ⟨cell, u, hc, h⟩ := bind_eq_some.mp h
    have hu : u.data = s.data := (bmapCell_quiet dev buf addr index s _ _ hc).data
    rcases bmapCell_cases hc with ⟨⟨-, hf⟩, -⟩ | ⟨-, rfl, -⟩
    · cases hf
    unfold State.walk
    split_ifs at h ⊢ with h0
    · simp only [pure_apply, Option.some.injEq, Prod.mk.injEq] at h
      exact h.1.symm.trans h0
    · obtain ⟨b, v, hb, h⟩ := bind_eq_some.mp h
      obtain rfl : b = s.cell buf addr index := bread_eq hb
      rw [ih h, walk_congr ((bread_quiet dev _ u _ _ hb).data.trans hu)]

/-- `bmap` that does not create. -/
theorem bmap_mapped (h : bmap inode block false s = some (r, t)) :
    r = s.zoneOf inode block := by
  rw [bmap_eq (bmap_block h)] at h
  exact (bmapLoop_walk h).trans (walk_congr rfl)

section Entries

/-- Entry `i` of a directory. -/
def State.slot (s : State) (dir i : ℕ) : Entry :=
  ⟨s.zoneOf dir (i / BLOCK_DENTRIES), DENTRY_SIZE * (i % BLOCK_DENTRIES)⟩

/-- How many entries a directory has. -/
def State.entries (s : State) (dir : ℕ) : ℕ := s.size dir / DENTRY_SIZE

/-- What `match_name` says to entry `i`. -/
def State.matchSlot (s : State) (dir i : ℕ) (name : Str) : Option Str :=
  matchName name (s.data (s.slot dir i).buf) ((s.slot dir i).addr + 2)

/-- `entry` is entry `i`, or there is none yet or it has left its block before `i`. -/
def Cursor (s : State) (dir i : ℕ) (entry : Option Entry) : Prop :=
  (∃ e, entry = some e ∧ e.addr < BLOCK_SIZE ∧ e = s.slot dir i) ∨
  (i % BLOCK_DENTRIES = 0 ∧ ∀ e, entry = some e → BLOCK_SIZE ≤ e.addr)

theorem cursor_start : Cursor s dir 0 none := .inr ⟨rfl, fun _ h => by cases h⟩

theorem Cursor.next : Cursor s dir (i + 1) (some (s.slot dir i).next) := by
  unfold Cursor State.slot Entry.next
  by_cases hlast : (i + 1) % BLOCK_DENTRIES = 0
  · refine .inr ⟨hlast, fun e he => ?_⟩
    obtain rfl := Option.some.inj he
    unfold BLOCK_DENTRIES BLOCK_SIZE DENTRY_SIZE at *
    dsimp only
    omega
  · have hdiv : (i + 1) / BLOCK_DENTRIES = i / BLOCK_DENTRIES := by
      unfold BLOCK_DENTRIES BLOCK_SIZE DENTRY_SIZE at *
      omega
    have hmod : (i + 1) % BLOCK_DENTRIES = i % BLOCK_DENTRIES + 1 := by
      unfold BLOCK_DENTRIES BLOCK_SIZE DENTRY_SIZE at *
      omega
    have hlt : (i + 1) % BLOCK_DENTRIES < BLOCK_DENTRIES := Nat.mod_lt _ (by decide)
    refine .inl ⟨_, rfl, ?_, ?_⟩
    · unfold BLOCK_DENTRIES BLOCK_SIZE DENTRY_SIZE at *
      dsimp only
      omega
    · rw [hdiv, hmod]
      simp only [Entry.mk.injEq, true_and]
      ring

/-- The views of two states agree on every directory. -/
structure SameView (s t : State) : Prop where
  data : t.data = s.data
  inodeTable : t.inodeTable = s.inodeTable

theorem SameView.slot (h : SameView s t) : t.slot dir i = s.slot dir i := by
  unfold State.slot State.zoneOf State.mapped State.ibuf State.izone State.idesc
  rw [h.inodeTable, walk_congr h.data]

theorem SameView.matchSlot (h : SameView s t) : t.matchSlot dir i name = s.matchSlot dir i name := by
  unfold State.matchSlot
  rw [h.slot, h.data]

theorem SameView.cursor (h : SameView s t) (hc : Cursor s dir i entry) : Cursor t dir i entry := by
  unfold Cursor
  rw [h.slot]
  exact hc

/-- The step to entry `i`. -/
theorem entryAt_slot {e : Entry} (hc : Cursor s dir i entry)
    (h : entryAt dir i false entry s = some (e, t)) : e = s.slot dir i ∧ SameView s t := by
  have hview : SameView s t := ⟨(entryAt_quiet dir i entry s _ _ h).data,
    (entryAt_same dir i false entry s _ _ h).inodeTable⟩
  refine ⟨?_, hview⟩
  have hload : ∀ {v : State}, v.data = s.data → v.inodeTable = s.inodeTable →
      i % BLOCK_DENTRIES = 0 → entryAt.load dir i false v = some (e, t) → e = s.slot dir i := by
    intro v hd hi h0 hl
    obtain ⟨b, w, hb, hl⟩ := bind_eq_some.mp hl
    obtain ⟨⟨⟩, x, -, hl⟩ := bind_eq_some.mp hl
    rw [peek_bind] at hl
    obtain ⟨b', y, hb', hl⟩ := bind_eq_some.mp hl
    simp only [pure_apply, Option.some.injEq, Prod.mk.injEq] at hl
    have hv : SameView s v := ⟨hd, hi⟩
    have hslot : v.slot dir i = s.slot dir i := hv.slot
    have hz : b = s.zoneOf dir (i / BLOCK_DENTRIES) :=
      (bmap_mapped hb).trans (congrArg Entry.buf hslot)
    rw [← hl.1, bread_eq hb', hz]
    unfold State.slot
    rw [h0, Nat.mul_zero]
  rcases hc with ⟨e', rfl, hlt, he⟩ | ⟨h0, hover⟩
  · unfold entryAt at h
    dsimp only at h
    rw [if_pos hlt] at h
    simp only [pure_apply, Option.some.injEq, Prod.mk.injEq] at h
    exact h.1.symm.trans he
  · cases entry with
    | none => exact hload rfl rfl h0 h
    | some e' =>
      unfold entryAt at h
      dsimp only at h
      rw [if_neg (by have := hover e' rfl; omega)] at h
      obtain ⟨⟨⟩, v, hv, h⟩ := bind_eq_some.mp h
      exact hload (brelse_data hv) (brelse_same _ _ _ _ hv).inodeTable h0 h

/-- The first of the entries from `i` on that matches. -/
structure Finds (s : State) (dir : ℕ) (name : Str) (i n k : ℕ) (next : Str) : Prop where
  le : i ≤ k
  lt : k < i + n
  hit : s.matchSlot dir k name = some next
  first : ∀ j, i ≤ j → j < k → s.matchSlot dir j name = none

theorem findLoop_finds {o : Option (Entry × Str)} (hc : Cursor s dir i entry)
    (h : findLoop dir name n i entry s = some (o, t)) :
    (o = none ∧ ∀ j, i ≤ j → j < i + n → s.matchSlot dir j name = none) ∨
    ∃ k next, o = some (s.slot dir k, next) ∧ Finds s dir name i n k next := by
  induction n generalizing s i entry with
  | zero =>
    obtain ⟨⟨⟩, u, -, h⟩ := bind_eq_some.mp h
    simp only [pure_apply, Option.some.injEq, Prod.mk.injEq] at h
    exact .inl ⟨h.1.symm, fun j h₁ h₂ => by omega⟩
  | succ n ih =>
    obtain ⟨e, u, he, h⟩ := bind_eq_some.mp h
    obtain ⟨rfl, hview⟩ := entryAt_slot hc he
    rw [peek_bind, hview.data] at h
    have hmatch : matchName name (s.data (s.slot dir i).buf) ((s.slot dir i).addr + 2) =
        s.matchSlot dir i name := rfl
    rw [hmatch] at h
    cases hm : s.matchSlot dir i name with
    | some next =>
      rw [hm] at h
      simp only [pure_apply, Option.some.injEq, Prod.mk.injEq] at h
      exact .inr ⟨i, next, h.1.symm, le_rfl, by omega, hm, fun j h₁ h₂ => by omega⟩
    | none =>
      rw [hm] at h
      have hstep : ∀ j, i ≤ j → (i + 1 ≤ j → s.matchSlot dir j name = none) →
          s.matchSlot dir j name = none := by
        intro j hj hrest
        obtain rfl | hlt := hj.eq_or_lt
        · exact hm
        · exact hrest hlt
      rcases ih (hview.cursor Cursor.next) h with ⟨ho, hall⟩ | ⟨k, next, ho, hk⟩
      · refine .inl ⟨ho, fun j h₁ h₂ => hstep j h₁ fun h₃ => ?_⟩
        rw [← hview.matchSlot]
        exact hall j h₃ (by omega)
      · refine .inr ⟨k, next, by rw [ho, hview.slot], by have := hk.le; omega,
          by have := hk.lt; omega, by rw [← hview.matchSlot]; exact hk.hit, fun j h₁ h₂ => ?_⟩
        refine hstep j h₁ fun h₃ => ?_
        rw [← hview.matchSlot]
        exact hk.first j h₃ h₂

/-- `find_entry` gives the first entry that matches. -/
theorem findEntry_finds {o : Option (Entry × Str)} (h : findEntry dir name s = some (o, t)) :
    isDir (s.mode dir) = true ∧
    ((o = none ∧ ∀ j < s.entries dir, s.matchSlot dir j name = none) ∨
    ∃ k next, o = some (s.slot dir k, next) ∧ Finds s dir name 0 (s.entries dir) k next) := by
  unfold findEntry at h
  rw [peek_bind] at h
  obtain ⟨⟨⟩, u, ha, hl⟩ := bind_eq_some.mp h
  obtain ⟨hd, rfl⟩ := assert_eq_some.mp ha
  rw [peek_bind] at hl
  refine ⟨hd, ?_⟩
  rcases findLoop_finds cursor_start hl with ⟨ho, hall⟩ | hfound
  · exact .inl ⟨ho, fun j hj => hall j (Nat.zero_le j) (by rw [Nat.zero_add]; exact hj)⟩
  · exact .inr hfound

end Entries

end Onix.Fs
