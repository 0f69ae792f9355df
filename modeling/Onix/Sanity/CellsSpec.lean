import Onix.Sanity.Lookup

/-! The index tree of an inode as what it is: a zone array whose cells 7 and 8 lead to
index blocks, and the one cell of the tree that belongs to each block of the file. -/

namespace Onix.Fs

open Function Prog

/-- The numbers of the cells on the way to block `k` of a file. -/
def path (k : ℕ) : List ℕ :=
  if k < DIRECT_BLOCK then [k]
  else if k < DIRECT_BLOCK + INDIRECT1_BLOCK then [DIRECT_BLOCK, k - DIRECT_BLOCK]
  else
    [DIRECT_BLOCK + 1, (k - (DIRECT_BLOCK + INDIRECT1_BLOCK)) / BLOCK_INDEXES,
      (k - (DIRECT_BLOCK + INDIRECT1_BLOCK)) % BLOCK_INDEXES]

/-- The way of an index block, or of the inode itself. -/
inductive Interior : List ℕ → Prop
  | root : Interior []
  | single : Interior [DIRECT_BLOCK]
  | double : Interior [DIRECT_BLOCK + 1]
  | inner (i : ℕ) : i < BLOCK_INDEXES → Interior [DIRECT_BLOCK + 1, i]

/-- Go the way `p` from the array at `addr` in `buf`, and see to its last cell. -/
def follow (dev : ℤ) (create : Bool) : (buf addr : ℕ) → (p : List ℕ) → Prog State ℕ
  | _, _, [] => stop
  | buf, addr, [i] => bmapCell dev create buf addr i
  | buf, addr, i :: j :: p => do
    let cell ← bmapCell dev create buf addr i
    if cell = 0 then return cell
    else do
      let buf ← bread dev cell
      follow dev create buf 0 (j :: p)

section Tree

variable (s : State)

/-- The block that the way `p` leads to. -/
def State.node (s : State) : (buf addr : ℕ) → (p : List ℕ) → Option ℕ
  | buf, _, [] => some buf
  | buf, addr, i :: p =>
    if s.cell buf addr i = 0 then none else s.node (s.cell buf addr i) 0 p

/-- The last cell of the way `p`: its block and the address in it. -/
def State.spot (s : State) : (buf addr : ℕ) → (p : List ℕ) → Option (ℕ × ℕ)
  | _, _, [] => none
  | buf, addr, [i] => some (buf, addr + 2 * i)
  | buf, addr, i :: j :: p =>
    if s.cell buf addr i = 0 then none else s.spot (s.cell buf addr i) 0 (j :: p)

/-- The index block of an inode at the end of the way `p`. -/
def State.nodeOf (inode : ℕ) (p : List ℕ) : Option ℕ := s.node (s.ibuf inode) (s.izone inode) p

/-- The cell of block `k` of the file; none where an index block on the way is absent. -/
def State.spotOf (inode k : ℕ) : Option (ℕ × ℕ) := s.spot (s.ibuf inode) (s.izone inode) (path k)

/-- What a cell holds. -/
def State.held : Option (ℕ × ℕ) → ℕ
  | none => 0
  | some (buf, addr) => (s.data buf).rd16 addr

/-- No block is twice in the index tree. -/
def State.NoTwice (inode : ℕ) : Prop := ∀ p q b, Interior p → Interior q →
  s.nodeOf inode p = some b → s.nodeOf inode q = some b → p = q

/-- The cells of the tree that hold the blocks of the file. -/
inductive DataCell (inode : ℕ) : ℕ × ℕ → Prop
  | direct (i : ℕ) (hi : i < DIRECT_BLOCK) :
      DataCell inode (s.ibuf inode, s.izone inode + 2 * i)
  | single (b i : ℕ) (hi : i < BLOCK_INDEXES) (hb : b ≠ 0)
      (h : b = s.cell (s.ibuf inode) (s.izone inode) DIRECT_BLOCK) : DataCell inode (b, 2 * i)
  | double (b c i j : ℕ) (hi : i < BLOCK_INDEXES) (hj : j < BLOCK_INDEXES) (hb : b ≠ 0)
      (h : b = s.cell (s.ibuf inode) (s.izone inode) (DIRECT_BLOCK + 1)) (hc : c ≠ 0)
      (h' : c = s.cell b 0 i) : DataCell inode (c, 2 * j)

end Tree

/-- Two cells that share no byte. -/
def Apart (c d : ℕ × ℕ) : Prop := c.1 = d.1 → c.2 + 2 ≤ d.2 ∨ d.2 + 2 ≤ c.2

/-- Nothing but the writing back of dirty blocks. -/
structure WrittenBack (s t : State) : Prop where
  data : t.data = s.data
  block : ∀ b, (t.cache.dirty b = s.cache.dirty b ∧ t.cache.disk b = s.cache.disk b) ∨
    (s.cache.dirty b = true ∧ t.cache.dirty b = false ∧ t.cache.disk b = s.data b)

section Walk

variable {s t : State} {dev : ℤ} {create : Bool} {buf addr i k r inode : ℕ} {p : List ℕ}

/-- The arithmetic of `bmap` on levels and dividers is the way to the block. -/
theorem bmapLoop_follow (hk : k < TOTAL_BLOCK) :
    bmapLoop dev create (bmapPlan k).level buf addr (bmapPlan k).index (bmapPlan k).block
      (bmapPlan k).divider = follow dev create buf addr (path k) := by
  unfold bmapPlan path
  by_cases h₀ : k < DIRECT_BLOCK
  · rw [if_pos h₀, if_pos h₀]
    rfl
  rw [if_neg h₀, if_neg h₀]
  unfold TOTAL_BLOCK at hk
  by_cases h₁ : k - DIRECT_BLOCK < INDIRECT1_BLOCK
  · rw [if_pos h₁, if_pos (by omega)]
    have hindex : (k - DIRECT_BLOCK) / 1 % 2 ^ 16 = k - DIRECT_BLOCK := by
      unfold INDIRECT1_BLOCK BLOCK_INDEXES BLOCK_SIZE at h₁
      omega
    unfold bmapLoop follow
    rw [hindex]
    rfl
  rw [if_neg h₁, if_neg (by omega)]
  have hsub : k - DIRECT_BLOCK - INDIRECT1_BLOCK = k - (DIRECT_BLOCK + INDIRECT1_BLOCK) := by omega
  have hlt : k - (DIRECT_BLOCK + INDIRECT1_BLOCK) < INDIRECT2_BLOCK := by omega
  dsimp only
  rw [hsub]
  generalize k - (DIRECT_BLOCK + INDIRECT1_BLOCK) = m at hlt
  have hindexes : BLOCK_INDEXES = 512 := rfl
  have hmax : INDIRECT2_BLOCK = 262144 := rfl
  have hfirst : m / BLOCK_INDEXES % 2 ^ 16 = m / BLOCK_INDEXES := by
    rw [hindexes]
    omega
  have hsecond : m % BLOCK_INDEXES / (BLOCK_INDEXES / BLOCK_INDEXES) % 2 ^ 16 =
      m % BLOCK_INDEXES := by
    rw [hindexes]
    omega
  unfold bmapLoop follow
  rw [hfirst]
  unfold bmapLoop follow
  rw [hsecond]
  rfl

/-- `bmap` takes hold of the block of its inode and goes the way of its block. -/
theorem bmap_follow (hk : k < TOTAL_BLOCK) : bmap inode k create s =
    follow (s.inodeTable inode).dev create (s.ibuf inode) (s.izone inode) (path k)
      { s with cache := s.cache.hold (s.ibuf inode) } := by
  rw [bmap_eq hk, bmapLoop_follow hk]

instance : IsPreorder State WrittenBack where
  refl _ := ⟨rfl, fun _ => .inl ⟨rfl, rfl⟩⟩
  trans s t u h h' := by
    refine ⟨h'.data.trans h.data, fun b => ?_⟩
    rcases h.block b with ⟨hd, hk⟩ | ⟨hd, hc, hk⟩ <;> rcases h'.block b with ⟨hd', hk'⟩ | ⟨hd', hc', hk'⟩
    · exact .inl ⟨hd'.trans hd, hk'.trans hk⟩
    · exact .inr ⟨hd.symm.trans hd', hc', hk'.trans (congrFun h.data b)⟩
    · exact .inr ⟨hd, hd'.trans hc, hk'.trans hk⟩
    · exact .inr ⟨hd, hc', hk'.trans (congrFun h.data b)⟩

theorem clean_writtenBack (s : State) (b : ℕ) : WrittenBack s (s.cleaned b) := by
  refine ⟨data_cleaned s b, fun c => ?_⟩
  unfold State.cleaned Cache.clean
  split_ifs with hd
  · by_cases hc : c = b
    · subst hc
      exact .inr ⟨hd, update_self .., update_self ..⟩
    · exact .inl ⟨update_of_ne hc .., update_of_ne hc ..⟩
  · exact .inl ⟨rfl, rfl⟩

theorem brelse_writtenBack (o : Option ℕ) : Leads WrittenBack (brelse o) := by
  cases o with
  | none => exact leads_pure ()
  | some b =>
    intro s u t h
    obtain ⟨-, rfl⟩ := brelse_eq_some h
    exact ⟨(clean_writtenBack s b).data, (clean_writtenBack s b).block⟩

theorem bread_writtenBack (block : ℕ) : Leads WrittenBack (bread dev block) := by
  unfold bread
  exact .bind (leads_peek _) fun _ => .bind (leads_assert _) fun _ =>
    .bind (leads_poke fun _ => ⟨rfl, fun _ => .inl ⟨rfl, rfl⟩⟩) fun _ => leads_pure _

theorem bmapCell_writtenBack : Leads WrittenBack (bmapCell dev false buf addr i) := by
  unfold bmapCell
  simp only [Bool.and_false]
  exact .bind (leads_peek _) fun _ => .bind (brelse_writtenBack _) fun _ => leads_peek _

theorem follow_writtenBack : Leads WrittenBack (follow dev false buf addr p) := by
  induction p generalizing buf addr with
  | nil => exact leads_stop
  | cons i p ih =>
    cases p with
    | nil => exact bmapCell_writtenBack
    | cons j p =>
      unfold follow
      exact .bind bmapCell_writtenBack fun _ => .ite (leads_pure _)
        (.bind (bread_writtenBack _) fun _ => ih)

end Walk

section Counts

variable {s t : State} {dev : ℤ} {create : Bool} {buf addr i r : ℕ} {p : List ℕ}

/-- How often each block is held. -/
def State.counts (s : State) : ℕ → ℕ := s.cache.count

theorem clean_counts (s : State) (b : ℕ) : (s.cleaned b).counts = s.counts :=
  s.cache.clean_count b

theorem scanMaps_counts (maps : ℕ → Option ℕ) (length : ℕ) (offset : ℕ → ℕ) (limit n i : ℕ)
    (o : Option ℕ) : Keeps State.counts (scanMaps maps length offset limit n i o) := by
  induction n generalizing i o with
  | zero => exact keeps_pure _
  | succ n ih =>
    unfold scanMaps
    cases maps i with
    | none => exact keeps_stop
    | some b =>
      exact .bind (keeps_peek _) fun _ => .bind (keeps_lift _) fun _ =>
        .bind (keeps_poke fun _ => rfl) fun _ => .ite (.bind (keeps_assert _) fun _ =>
          .bind (keeps_poke fun _ => rfl) fun _ => keeps_pure _) (ih _ _)

theorem bwrite_counts (o : Option ℕ) : Keeps State.counts (bwrite o) := by
  cases o with
  | none => exact keeps_stop
  | some b => exact keeps_poke fun s => clean_counts s b

theorem balloc_counts : Keeps State.counts (balloc dev) := by
  unfold balloc getSuper
  exact .bind (.bind (keeps_peek _) fun _ => .bind (keeps_assert _) fun _ => keeps_peek _) fun _ =>
    .bind (scanMaps_counts _ _ _ _ _ _ _) fun _ => .bind (bwrite_counts _) fun _ => keeps_pure _

/-- The counts with one hold on `b` less. -/
def State.less (s : State) (b : ℕ) : ℕ → ℕ := update s.counts b (s.counts b - 1)

theorem brelse_counts {x : Unit} (h : brelse (some buf) s = some (x, t)) :
    0 < s.counts buf ∧ t.counts = s.less buf := by
  obtain ⟨hpos, rfl⟩ := brelse_eq_some h
  exact ⟨hpos, rfl⟩

theorem bmapCell_counts (h : bmapCell dev create buf addr i s = some (r, t)) :
    0 < s.counts buf ∧ t.counts = s.less buf := by
  rcases bmapCell_cases h with ⟨-, nr, u, hb, -, hr⟩ | ⟨-, -, hr⟩
  · have hu : (u.setCell buf addr i nr).counts = s.counts := balloc_counts s nr u hb
    have hlast := brelse_counts hr
    unfold State.less at hlast ⊢
    rw [hu] at hlast
    exact hlast
  · exact brelse_counts hr

theorem bread_counts {b block : ℕ} (h : bread dev block s = some (b, t)) :
    b = block ∧ t.counts = update s.counts block (s.counts block + 1) := by
  unfold bread at h
  rw [peek_bind] at h
  obtain ⟨⟨⟩, u, ha, hh⟩ := bind_eq_some.mp h
  obtain ⟨-, rfl⟩ := assert_eq_some.mp ha
  rw [poke_bind] at hh
  simp only [pure_apply, Option.some.injEq, Prod.mk.injEq] at hh
  obtain ⟨rfl, rfl⟩ := hh
  exact ⟨rfl, rfl⟩

/-- Whatever way it goes, the walk lets go of the block that it began with and of no other. -/
theorem follow_counts (h : follow dev create buf addr p s = some (r, t)) :
    0 < s.counts buf ∧ t.counts = s.less buf := by
  induction p generalizing s buf addr with
  | nil => cases h
  | cons i p ih =>
    cases p with
    | nil => exact bmapCell_counts h
    | cons j p =>
      unfold follow at h
      obtain ⟨cell, u, hc, h⟩ := bind_eq_some.mp h
      obtain ⟨hpos, hu⟩ := bmapCell_counts hc
      refine ⟨hpos, ?_⟩
      by_cases h0 : cell = 0
      · rw [if_pos h0] at h
        simp only [pure_apply, Option.some.injEq, Prod.mk.injEq] at h
        rw [← h.2]
        exact hu
      rw [if_neg h0] at h
      obtain ⟨b, v, hb, hrest⟩ := bind_eq_some.mp h
      obtain ⟨rfl, hv⟩ := bread_counts hb
      obtain ⟨-, ht⟩ := ih hrest
      rw [ht, ← hu]
      unfold State.less
      rw [hv, update_idem, update_self, Nat.add_sub_cancel, update_eq_self]

/-- `bmap` gives back the hold that it takes. -/
theorem bmap_counts {inode k : ℕ} (h : bmap inode k create s = some (r, t)) :
    t.cache.count = s.cache.count := by
  rw [bmap_follow (bmap_block h)] at h
  obtain ⟨-, ht⟩ := follow_counts h
  refine ht.trans ?_
  unfold State.less State.counts Cache.hold
  dsimp only
  rw [update_idem, update_self, Nat.add_sub_cancel, update_eq_self]

end Counts

section Total

variable {s t : State} {dev : ℤ} {buf addr i : ℕ} {p : List ℕ}

theorem held_congr (h : t.data = s.data) (o : Option (ℕ × ℕ)) : t.held o = s.held o := by
  cases o with
  | none => rfl
  | some c =>
    unfold State.held
    rw [h]

theorem spot_congr (h : t.data = s.data) : t.spot buf addr p = s.spot buf addr p := by
  induction p generalizing buf addr with
  | nil => rfl
  | cons i p ih =>
    cases p with
    | nil => rfl
    | cons j p =>
      unfold State.spot
      rw [cell_congr h]
      split_ifs
      · rfl
      · exact ih

theorem brelse_held (hpos : 0 < s.cache.count buf) : ∃ t, brelse (some buf) s = some ((), t) := by
  unfold brelse Cache.drop
  simp only [Cache.clean_count]
  rw [if_neg (by omega)]
  exact ⟨_, rfl⟩

/-- A cell that is only looked at. -/
theorem bmapCell_look (hpos : 0 < s.cache.count buf) : ∃ t,
    bmapCell dev false buf addr i s = some (s.cell buf addr i, t) := by
  obtain ⟨t, hrel⟩ := brelse_held hpos
  have hcell : t.cell buf addr i = s.cell buf addr i := cell_congr (brelse_data hrel)
  refine ⟨t, ?_⟩
  unfold bmapCell
  simp only [Bool.and_false]
  rw [peek_bind, if_neg (by decide), bind_of_eq hrel, ← hcell]
  rfl

theorem bread_held (hdev : dev = s.dev) (block : ℕ) :
    bread dev block s = some (block, { s with cache := s.cache.hold block }) := by
  unfold bread
  rw [peek_bind, assert_bind (by simpa using hdev), poke_bind]
  rfl

/-- A walk that does not create comes back with what the last cell holds. -/
theorem follow_look (hdev : dev = s.dev) (hpos : 0 < s.cache.count buf) (hp : p ≠ []) :
    ∃ t, follow dev false buf addr p s = some (s.held (s.spot buf addr p), t) := by
  induction p generalizing s buf addr with
  | nil => exact absurd rfl hp
  | cons i p ih =>
    cases p with
    | nil => exact bmapCell_look hpos
    | cons j p =>
      obtain ⟨u, hu⟩ : ∃ u, bmapCell dev false buf addr i s = some (s.cell buf addr i, u) :=
        bmapCell_look hpos
      unfold follow State.spot
      rw [bind_of_eq hu]
      split_ifs with h0
      · rw [h0]
        exact ⟨u, rfl⟩
      have hdata : u.data = s.data := (bmapCell_writtenBack s _ _ hu).data
      have hsame := (bmapCell_same dev false buf addr i s _ _ hu).dev
      rw [bind_of_eq (bread_held (hdev.trans hsame.symm) _)]
      have hheld : 0 < (u.cache.hold (s.cell buf addr i)).count (s.cell buf addr i) := by
        unfold Cache.hold
        dsimp only
        rw [update_self]
        exact Nat.succ_pos _
      let v : State := { u with cache := u.cache.hold (s.cell buf addr i) }
      have hdatav : v.data = s.data := hdata
      obtain ⟨t, ht⟩ : ∃ t, follow dev false (s.cell buf addr i) 0 (j :: p) v =
          some (v.held (v.spot (s.cell buf addr i) 0 (j :: p)), t) :=
        ih (hdev.trans hsame.symm) hheld (List.cons_ne_nil j p)
      refine ⟨t, ht.trans ?_⟩
      rw [spot_congr hdatav, held_congr hdatav]

end Total

end Onix.Fs
