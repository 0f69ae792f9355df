import Onix.Sanity.ForestSeats

/-! Reading and adding entries and writing the contents of a file keep the index trees. -/

namespace Onix.Fs

open Function Prog Bytes Cstr

variable {s t u v : State} {x y i j b c k n r inode dir addr : ℕ} {p q : List ℕ} {dev : ℤ}
  {X Y : Set ℕ} {name next : Str} {create : Bool} {e : Entry} {entry : Option Entry}

section Look

theorem node_congr (h : t.data = s.data) : t.node b addr p = s.node b addr p := by
  induction p generalizing b addr with
  | nil => rfl
  | cons i p ih =>
    unfold State.node
    rw [cell_congr h, ih]

/-- Where a walk that does not create ends. -/
theorem follow_node (h : follow dev false b addr p s = some (r, t)) (h0 : r ≠ 0) :
    s.node b addr p = some r := by
  induction p generalizing s b addr with
  | nil => cases h
  | cons i p ih =>
    cases p with
    | nil =>
      obtain ⟨⟨-, hfalse⟩, -⟩ | ⟨-, rfl, -⟩ := bmapCell_cases h
      · cases hfalse
      · exact node_cons h0 []
    | cons j p =>
      unfold follow at h
      obtain ⟨cell, u, hc, k₁⟩ := bind_eq_some.mp h
      obtain ⟨⟨-, hfalse⟩, -⟩ | ⟨-, rfl, hrel⟩ := bmapCell_cases hc
      · cases hfalse
      split_ifs at k₁ with hcell
      · obtain ⟨rfl, -⟩ := Prod.mk.inj (Option.some.inj k₁)
        exact absurd hcell h0
      · obtain ⟨d, v, hd, k₂⟩ := bind_eq_some.mp k₁
        obtain rfl := bread_eq hd
        have hdata : v.data = s.data := (bread_quiet _ _ _ _ _ hd).data.trans (brelse_data hrel)
        rw [node_cons hcell, ← node_congr hdata]
        exact ih k₂

/-- `bmap` that does not create returns the block at the end of the way, if there is one. -/
theorem bmap_node (hi : Seat s i x) (h : bmap i k false s = some (b, t)) (hb : b ≠ 0) :
    s.nodeNr x (path k) = some b := by
  rw [bmap_follow (bmap_block h), hi.buf, hi.zone] at h
  have hlast := follow_node h hb
  have hsame : State.node { s with cache := s.cache.hold (s.descBuf x) } (s.descBuf x)
      (descAddr x + 14) (path k) = s.node (s.descBuf x) (descAddr x + 14) (path k) := node_congr rfl
  rw [hsame] at hlast
  exact hlast

/-- Block `b` is a block of the file with number `x`. -/
def InFile (s : State) (x b : ℕ) : Prop := ∃ k < TOTAL_BLOCK, s.nodeNr x (path k) = some b

theorem InFile.grown (h : InFile s x b) (hx : x ≤ s.sb.desc.inodes) (hg : Grown X s t) : InFile t x b := by
  obtain ⟨k, hk, hb⟩ := h
  exact ⟨k, hk, hg.nodes x hx _ b (.inr (way_path hk)) hb⟩

theorem InFile.page (h : InFile s x b) (hs : Trees s) (hx : x ≤ s.sb.desc.inodes) (hX : x ∈ X) :
    Page X s b ∧ Allocated s b := by
  obtain ⟨k, hk, hb⟩ := h
  exact hs.page hx hk hb hX

end Look

section Grows

/-- The trees are still trees and have at most grown. -/
structure Grows (X : Set ℕ) (s t : State) : Prop where
  trees : Trees t
  grown : Grown X s t

theorem Grows.trans (h : Grows X s t) (h' : Grows X t u) : Grows X s u :=
  ⟨h'.trees, trans_of (Grown X) h.grown h'.grown⟩

theorem Grows.mono (h : Grows X s t) (hXY : X ⊆ Y) : Grows Y s t := ⟨h.trees, h.grown.mono hXY⟩

theorem Grows.le (h : Grows X s t) (hx : x ≤ s.sb.desc.inodes) : x ≤ t.sb.desc.inodes := by
  rw [h.grown.layout.desc]
  exact hx

theorem Trees.quiet (h : Trees s) (hq : Quiet s t) : Grows X s t :=
  ⟨h.kept (.of_data hq.fixed.layout hq.data), hq.grown⟩

theorem Trees.data (h : Trees s) (hl : SameLayout s t) (hd : t.data = s.data) : Grows X s t :=
  ⟨h.kept (.of_data hl hd), .of_data hl hd⟩

theorem Trees.fields (h : Trees s) (hi : Seat s i x) (hX : x ∈ X) (hf : Fields i s t) : Grows X s t :=
  ⟨h.kept (hf.kept h hi), hf.grown h hi hX⟩

theorem Trees.writes (h : Trees s) (hb : Page X s b) (ha : Allocated s b) (hw : Writes b s t) :
    Grows X s t :=
  ⟨h.kept (hw.kept h hb), hw.grown h hb ha⟩

theorem Trees.marks (h : Trees s) (hm : Marks s t) : Grows X s t :=
  ⟨h.kept (hm.grown (X := X) h).1, (hm.grown h).2⟩

/-- The next block of a loop over a directory. -/
theorem Trees.load (h : Trees s) (hi : Seat s dir x) (hX : x ∈ X)
    (hnew : create = true → i / BLOCK_DENTRIES < TOTAL_BLOCK →
      Fresh s ∨ Indexed s x (path (i / BLOCK_DENTRIES)))
    (hr : entryAt.load dir i create s = some (e, t)) : Grows X s t ∧ Heads s t ∧ InFile t x e.buf := by
  unfold entryAt.load at hr
  obtain ⟨c, u, hc, k₁⟩ := bind_eq_some.mp hr
  obtain ⟨⟨⟩, u', hu', k₂⟩ := bind_eq_some.mp k₁
  obtain ⟨hne, rfl⟩ := assert_eq_some.mp hu'
  rw [peek_bind] at k₂
  obtain ⟨d, v, hd, k₃⟩ := bind_eq_some.mp k₂
  obtain ⟨rfl, rfl⟩ := Prod.mk.inj (Option.some.inj k₃)
  obtain rfl := bread_eq hd
  have hk : i / BLOCK_DENTRIES < TOTAL_BLOCK := bmap_block hc
  have hstep : Grows X s u' ∧ Heads s u' ∧ u'.nodeNr x (path (i / BLOCK_DENTRIES)) = some d := by
    cases create with
    | false =>
      have hq := bmap_quiet _ _ _ _ _ hc
      have hg : Grows X s u' := h.quiet hq
      exact ⟨hg, hq.heads, hg.grown.nodes x hi.le _ _ (.inr (way_path hk))
        (bmap_node hi hc (by simpa using hne))⟩
    | true =>
      obtain ⟨ht, hg, hnode⟩ := h.bmap hi (hnew rfl hk) hc
      exact ⟨⟨ht, hg.grown.mono (Set.singleton_subset_iff.mpr hX)⟩, hg.heads, hnode⟩
  obtain ⟨hg, hheads, hnode⟩ := hstep
  have hq := bread_quiet _ _ _ _ _ hd
  have hlast : Grows X u' v := hg.trees.quiet hq
  refine ⟨hg.trans hlast, trans_of Heads hheads hq.heads, _, hk, ?_⟩
  exact hlast.grown.nodes x (hg.le hi.le) _ _ (.inr (way_path hk)) hnode

theorem Trees.entryAt (h : Trees s) (hi : Seat s dir x) (hX : x ∈ X)
    (he : ∀ e', entry = some e' → InFile s x e'.buf)
    (hnew : create = true → i / BLOCK_DENTRIES < TOTAL_BLOCK →
      Fresh s ∨ Indexed s x (path (i / BLOCK_DENTRIES)))
    (hr : entryAt dir i create entry s = some (e, t)) :
    Grows X s t ∧ Heads s t ∧ InFile t x e.buf := by
  cases entry with
  | none => exact h.load hi hX hnew hr
  | some e' =>
    unfold Fs.entryAt at hr
    dsimp only at hr
    split_ifs at hr with haddr
    · obtain ⟨rfl, rfl⟩ := Prod.mk.inj (Option.some.inj hr)
      exact ⟨⟨h, refl_of (Grown X) s⟩, refl_of Heads s, he _ rfl⟩
    · obtain ⟨⟨⟩, u, hu, k⟩ := bind_eq_some.mp hr
      have hg : Grows X s u := h.quiet (brelse_quiet _ _ _ _ hu)
      obtain ⟨hg', hheads, hin⟩ := hg.trees.load ((brelse_same _ _ _ _ hu).seat hi) hX
        (fun hc hk => (hnew hc hk).imp hg.grown.fresh (hg.grown.indexed hi.le (way_path hk))) k
      exact ⟨hg.trans hg', trans_of Heads (brelse_quiet _ _ _ _ hu).heads hheads, hin⟩

/-- The entry that `find_entry` finds lies in a block of the directory. -/
theorem Trees.findLoop (h : Trees s) (hi : Seat s dir x)
    (he : ∀ e', entry = some e' → InFile s x e'.buf)
    (hr : findLoop dir name n i entry s = some (some (e, next), t)) : InFile t x e.buf := by
  induction n generalizing s i entry with
  | zero =>
    obtain ⟨⟨⟩, u, -, k⟩ := bind_eq_some.mp hr
    cases k
  | succ n ih =>
    unfold Fs.findLoop at hr
    obtain ⟨e₁, u, hu, k⟩ := bind_eq_some.mp hr
    obtain ⟨hg, -, hin⟩ := h.entryAt hi (X := {x}) rfl he (fun hc => by cases hc) hu
    rw [peek_bind] at k
    cases hmatch : matchName name (u.data e₁.buf) (e₁.addr + 2) with
    | none =>
      rw [hmatch] at k
      refine ih hg.trees ((entryAt_same _ _ _ _ _ _ _ hu).seat hi) (fun e' he' => ?_) k
      obtain rfl := Option.some.inj he'
      exact hin
    | some next' =>
      rw [hmatch] at k
      obtain ⟨hpair, rfl⟩ := Prod.mk.inj (Option.some.inj k)
      obtain ⟨rfl, -⟩ := Prod.mk.inj (Option.some.inj hpair)
      exact hin

theorem Trees.findEntry (h : Trees s) (hi : Seat s dir x)
    (hr : findEntry dir name s = some (some (e, next), t)) : InFile t x e.buf := by
  unfold Fs.findEntry at hr
  rw [peek_bind] at hr
  obtain ⟨⟨⟩, u, hu, k⟩ := bind_eq_some.mp hr
  obtain ⟨-, rfl⟩ := assert_eq_some.mp hu
  rw [peek_bind] at k
  exact h.findLoop hi (fun _ he => by cases he) k

end Grows

section Add

/-- How many slots there are up to the one behind the last. -/
def State.slots (s : State) (x : ℕ) : ℕ := (s.sizeNr x + (DENTRY_SIZE - 1)) / DENTRY_SIZE

/-- The index blocks that one more entry of the directory may need are there. -/
def Appendable (s : State) (x : ℕ) : Prop := ∀ k ≤ s.slots x / BLOCK_DENTRIES, k < TOTAL_BLOCK →
  Indexed s x (path k)

theorem Heads.cell8 (h : Heads s t) (hx : x ≤ s.sb.desc.inodes) {o : ℕ} (ho : o < 14) :
    (t.data (t.descBuf x)).rd8 (descAddr x + o) = (s.data (s.descBuf x)).rd8 (descAddr x + o) := by
  unfold rd8
  rw [h.layout.descBuf, h.head x hx _ (by omega) (by omega)]

theorem Heads.size (h : Heads s t) (hx : x ≤ s.sb.desc.inodes) : t.sizeNr x = s.sizeNr x := by
  unfold State.sizeNr rd32 rd16
  simp only [Nat.add_assoc, h.cell8 hx (by decide : 4 < 14), h.cell8 hx (by decide : 5 < 14),
    h.cell8 hx (by decide : 6 < 14), h.cell8 hx (by decide : 7 < 14), Nat.reduceAdd]

theorem Heads.slots (h : Heads s t) (hx : x ≤ s.sb.desc.inodes) : t.slots x = s.slots x := by
  unfold State.slots
  rw [h.size hx]

theorem Heads.mode (h : Heads s t) (hx : x ≤ s.sb.desc.inodes) : t.modeNr x = s.modeNr x := by
  unfold State.modeNr rd16
  have h0 := h.cell8 hx (by decide : 0 < 14)
  rw [Nat.add_zero] at h0
  rw [h0, h.cell8 hx (by decide : 1 < 14)]

theorem Heads.appendable (h : Heads s t) (hg : Grown X s t) (hx : x ≤ s.sb.desc.inodes) (hr : Appendable s x) :
    Appendable t x := by
  intro k hk hlt
  rw [h.slots hx] at hk
  exact hg.indexed hx (way_path hlt) (hr k hk hlt)

/-- A slot behind the end is cleared before the size covers it; others are left alone. -/
theorem Trees.growDir (h : Trees s) (hi : Seat s dir x) (hX : x ∈ X) (hin : InFile s x e.buf) {y : Unit}
    (hr : growDir dir i e s = some (y, t)) :
    Grows X s t ∧ (s.size dir ≤ i * DENTRY_SIZE ∧ t.entryNr e = 0 ∨
      i * DENTRY_SIZE < s.size dir ∧ t = s) := by
  unfold Fs.growDir at hr
  rw [peek_bind] at hr
  by_cases hsize : s.size dir ≤ i * DENTRY_SIZE
  · rw [decide_eq_true hsize, when_true] at hr
    obtain ⟨-, rfl⟩ := Prod.mk.inj (Option.some.inj hr)
    obtain ⟨hpage, halloc⟩ := hin.page h hi.le hX
    have hset : Grows X s (s.setEntryNr e 0) := h.writes hpage halloc (setData_writes _)
    have hfields : Fields dir (s.setEntryNr e 0)
        (((s.setEntryNr e 0).setSize dir ((i + 1) * DENTRY_SIZE)).dirtyInode dir) :=
      trans_of (Fields dir) (setSize_fields _) (setDirty_fields _)
    refine ⟨hset.trans (hset.trees.fields (hi.of_kept hset.grown.layout rfl rfl) hX hfields),
      .inl ⟨hsize, ?_⟩⟩
    have hne : e.buf ≠ (s.setEntryNr e 0).ibuf dir := by
      intro he
      have hbuf : (s.setEntryNr e 0).ibuf dir = s.descBuf x := hi.buf
      rw [hbuf] at he
      exact (h.sited.desc x hi.le).2 (he ▸ hpage.zone)
    unfold State.entryNr
    rw [hfields.data _ hne]
    unfold State.setEntryNr
    rw [data_setData, update_self]
    exact rd16_wr16
  · rw [decide_eq_false hsize, when_false] at hr
    obtain ⟨-, rfl⟩ := Prod.mk.inj (Option.some.inj hr)
    exact ⟨⟨h, refl_of (Grown X) s⟩, .inr ⟨Nat.lt_of_not_le hsize, rfl⟩⟩

theorem Trees.fillEntry (h : Trees s) (hi : Seat s dir x) (hX : x ∈ X) (hin : InFile s x e.buf) {y : Unit}
    (hr : fillEntry dir name e s = some (y, t)) : Grows X s t := by
  unfold Fs.fillEntry at hr
  rw [poke_bind, time_bind] at hr
  obtain ⟨-, rfl⟩ := Prod.mk.inj (Option.some.inj hr)
  obtain ⟨hpage, halloc⟩ := hin.page h hi.le hX
  have hset : Grows X s ((s.setData e.buf (strncpy (s.data e.buf) (e.addr + 2) name NAME_LEN)).setDirty
      e.buf) :=
    h.writes hpage halloc (trans_of (Writes e.buf) (setData_writes _) (setDirty_writes _))
  have htick : ∀ w : State, Fields dir w w.tick := fun w =>
    .of_data ⟨rfl, rfl, rfl, rfl, rfl, rfl, rfl⟩ rfl
  refine hset.trans (hset.trees.fields (hi.of_kept hset.grown.layout rfl rfl) hX ?_)
  exact trans_of (Fields dir) (htick _)
    (trans_of (Fields dir) (setMtime_fields _) (setDirty_fields _))

/-- The loop of `add_entry`; it ends at the latest behind the last slot. -/
theorem Trees.addLoop (h : Trees s) (hi : Seat s dir x) (hX : x ∈ X)
    (he : ∀ e', entry = some e' → InFile s x e'.buf) (hle : i ≤ s.slots x)
    (hnew : Fresh s ∨ Appendable s x) (hr : addLoop dir name n i entry s = some (e, t)) :
    Grows X s t ∧ InFile t x e.buf := by
  induction n generalizing s i entry with
  | zero => cases hr
  | succ n ih =>
    unfold Fs.addLoop at hr
    obtain ⟨e₁, u, hu, k₁⟩ := bind_eq_some.mp hr
    obtain ⟨hg, hheads, hin⟩ := h.entryAt hi hX he
      (fun _ hk => hnew.imp id fun hroom => hroom _ (Nat.div_le_div_right hle) hk) hu
    have hiu : Seat u dir x := (entryAt_same _ _ _ _ _ _ _ hu).seat hi
    obtain ⟨⟨⟩, v, hv, k₂⟩ := bind_eq_some.mp k₁
    obtain ⟨hg', hcase⟩ := hg.trees.growDir hiu hX hin hv
    have hiv : Seat v dir x := (growDir_same _ _ _ _ _ _ hv).seat hiu
    have hinv : InFile v x e₁.buf := hin.grown hiu.le hg'.grown
    rw [peek_bind] at k₂
    split_ifs at k₂ with hfree
    · obtain ⟨-, hzero⟩ | ⟨hlt, rfl⟩ := hcase
      · exact absurd hzero hfree
      have hnext : i + 1 ≤ v.slots x := by
        rw [hiu.size] at hlt
        unfold State.slots DENTRY_SIZE at *
        omega
      have hnew' : Fresh v ∨ Appendable v x := hnew.imp hg.grown.fresh (hheads.appendable hg.grown hi.le)
      obtain ⟨hlast, hin'⟩ := ih hg.trees hiu (fun e' he' => by
        obtain rfl := Option.some.inj he'
        exact hin) hnext hnew' k₂
      exact ⟨hg.trans hlast, hin'⟩
    · obtain ⟨⟨⟩, w, hw, k₃⟩ := bind_eq_some.mp k₂
      obtain ⟨rfl, rfl⟩ := Prod.mk.inj (Option.some.inj k₃)
      have hlast := hg'.trees.fillEntry hiv hX hinv hw
      exact ⟨(hg.trans hg').trans hlast, hinv.grown hiv.le hlast.grown⟩

end Add

end Onix.Fs
