import Onix.Sanity.Lookup

/-! What `iget` and `iput` do to the table of inodes, the list of the superblock and the
buffers. -/

namespace Onix.Fs

open Function Prog Cstr

/-- `inode->nr`. -/
def State.nr (s : State) (i : ℕ) : ℕ := (s.inodeTable i).nr

variable {s t u : State} {dev : ℤ} {i j x b : ℕ}

theorem getSuper_eq {sb : SuperBlock} :
    getSuper dev s = some (sb, t) ↔ dev = s.dev ∧ sb = s.sb ∧ t = s := by
  unfold getSuper
  constructor
  · intro h
    rw [peek_bind] at h
    obtain ⟨⟨⟩, u, ha, k⟩ := bind_eq_some.mp h
    obtain ⟨hd, rfl⟩ := assert_eq_some.mp ha
    simp only [peek_apply, Option.some.injEq, Prod.mk.injEq] at k
    exact ⟨by simpa using hd, k.1.symm, k.2.symm⟩
  · rintro ⟨rfl, rfl, rfl⟩
    rw [peek_bind, assert_bind (by simp)]
    rfl

theorem bread_iff {block : ℕ} : bread dev block s = some (b, t) ↔
    dev = s.dev ∧ b = block ∧ t = { s with cache := s.cache.hold block } := by
  unfold bread
  constructor
  · intro h
    rw [peek_bind] at h
    obtain ⟨⟨⟩, u, ha, k⟩ := bind_eq_some.mp h
    obtain ⟨hd, rfl⟩ := assert_eq_some.mp ha
    simp only [poke_bind, pure_apply, Option.some.injEq, Prod.mk.injEq] at k
    exact ⟨by simpa using hd, k.1.symm, k.2.symm⟩
  · rintro ⟨rfl, rfl, rfl⟩
    rw [peek_bind, assert_bind (by simp)]
    rfl

/-- One more reference to an inode in memory. -/
def State.gotOld (s : State) (i a : ℕ) : State :=
  { s.modInode i fun n => { n with count := (n.count + 1) % 2 ^ 32, atime := a } with
    ticks := s.ticks + 1 }

/-- The first reference to an inode, in slot `i` of the table. -/
def State.gotNew (s : State) (i nr a c : ℕ) : State :=
  { s.setInode i ⟨sub32 nr 1 % BLOCK_INODES, inodeBlock s.sb nr, s.dev, nr,
      ((s.inodeTable i).count + 1) % 2 ^ 32, a, c⟩ with
    cache := s.cache.hold (inodeBlock s.sb nr)
    sb := { s.sb with inodeList := i :: s.sb.inodeList }
    ticks := s.ticks + 1 }

theorem touch_eq {y : Unit} (h : touch i s = some (y, t)) :
    t = { s.modInode i fun n => { n with atime := s.clock s.ticks } with ticks := s.ticks + 1 } := by
  unfold touch time at h
  simp only [bind_assoc, peek_bind, poke_bind, pure_bind_apply, poke_apply, Option.some.injEq,
    Prod.mk.injEq] at h
  exact h.2.symm

theorem modInode_modInode (f g : InodeT → InodeT) :
    (s.modInode i f).modInode i g = s.modInode i fun n => g (f n) := by
  simp [State.modInode, State.setInode]

theorem findInode_eq {o : Option ℕ} : findInode dev x s = some (o, t) ↔
    dev = s.dev ∧ o = s.sb.inodeList.find? (fun i => s.nr i = x) ∧ t = s := by
  unfold findInode
  constructor
  · intro h
    obtain ⟨sb, u, hs, h⟩ := bind_eq_some.mp h
    obtain ⟨hd, rfl, rfl⟩ := getSuper_eq.mp hs
    rw [peek_bind] at h
    simp only [pure_apply, Option.some.injEq, Prod.mk.injEq] at h
    exact ⟨hd, h.1.symm, h.2.symm⟩
  · rintro ⟨hd, rfl, rfl⟩
    rw [bind_of_eq (getSuper_eq.mpr ⟨hd, rfl, rfl⟩), peek_bind]
    rfl

theorem getFreeInode_eq (h : getFreeInode s = some (i, t)) :
    (i < INODE_NR ∧ (s.inodeTable i).dev = NODEV) ∧ t = s := by
  unfold getFreeInode at h
  rw [peek_bind] at h
  obtain ⟨hf, rfl⟩ := lift_eq_some.mp h
  exact ⟨⟨List.mem_range.mp (List.mem_of_find?_eq_some hf), by simpa using List.find?_some hf⟩, rfl⟩

/-- An inode that was not in memory. -/
theorem igetNew_eq (h : igetNew dev x s = some (i, t)) :
    dev = s.dev ∧ x ≤ s.sb.desc.inodes ∧ i < INODE_NR ∧ (s.inodeTable i).dev = NODEV ∧
      i ∉ s.sb.inodeList ∧ ∃ a c, t = s.gotNew i x a c := by
  unfold igetNew at h
  obtain ⟨sb, s₁, h₁, k₁⟩ := bind_eq_some.mp h
  obtain ⟨hd, rfl, rfl⟩ := getSuper_eq.mp h₁
  obtain ⟨⟨⟩, s₂, h₂, k₂⟩ := bind_eq_some.mp k₁
  obtain ⟨hle, rfl⟩ := assert_eq_some.mp h₂
  obtain ⟨i', s₃, h₃, k₃⟩ := bind_eq_some.mp k₂
  obtain ⟨⟨hlt, hfree⟩, rfl⟩ := getFreeInode_eq h₃
  rw [poke_bind] at k₃
  obtain ⟨⟨⟩, s₄, h₄, k₄⟩ := bind_eq_some.mp k₃
  obtain ⟨hmem, rfl⟩ := assert_eq_some.mp h₄
  rw [poke_bind] at k₄
  obtain ⟨b, s₅, h₅, k₅⟩ := bind_eq_some.mp k₄
  obtain ⟨-, rfl, rfl⟩ := bread_iff.mp h₅
  rw [poke_bind, poke_bind] at k₅
  obtain ⟨⟨⟩, s₆, h₆, k₆⟩ := bind_eq_some.mp k₅
  simp only [pure_apply, Option.some.injEq, Prod.mk.injEq] at k₆
  obtain ⟨rfl, rfl⟩ := k₆
  refine ⟨hd, by simpa using hle, hlt, hfree, by simpa using hmem, ?_⟩
  rw [touch_eq h₆]
  subst hd
  exact ⟨_, _, by simp [State.gotNew, State.modInode, State.setInode]; rfl⟩

/-- The two ways through `iget`. -/
theorem iget_cases (h : iget dev x s = some (i, t)) : dev = s.dev ∧
    ((s.sb.inodeList.find? (fun j => s.nr j = x) = some i ∧ ∃ a, t = s.gotOld i a) ∨
    (s.sb.inodeList.find? (fun j => s.nr j = x) = none ∧ x ≤ s.sb.desc.inodes ∧ i < INODE_NR ∧
      (s.inodeTable i).dev = NODEV ∧ i ∉ s.sb.inodeList ∧ ∃ a c, t = s.gotNew i x a c)) := by
  unfold iget at h
  obtain ⟨o, u, hf, h⟩ := bind_eq_some.mp h
  obtain ⟨hd, ho, rfl⟩ := findInode_eq.mp hf
  refine ⟨hd, ?_⟩
  rw [← ho]
  cases o with
  | none =>
    obtain ⟨-, hle, hlt, hfree, hmem, a, c, ht⟩ := igetNew_eq h
    exact .inr ⟨rfl, hle, hlt, hfree, hmem, a, c, ht⟩
  | some j =>
    dsimp only at h
    rw [poke_bind] at h
    obtain ⟨⟨⟩, v, hv, h⟩ := bind_eq_some.mp h
    simp only [pure_apply, Option.some.injEq, Prod.mk.injEq] at h
    obtain ⟨rfl, rfl⟩ := h
    refine .inl ⟨rfl, u.clock u.ticks, ?_⟩
    rw [touch_eq hv, modInode_modInode]
    rfl

/-- One reference less to an inode that stays in memory. -/
def State.putOld (s : State) (i : ℕ) : State :=
  (s.cleaned (s.ibuf i)).modInode i fun n => { n with count := sub32 n.count 1 }

/-- The last reference to an inode goes. -/
def State.putLast (s : State) (i : ℕ) : State :=
  let t := (s.putOld i).modInode i fun n => { n with dev := NODEV }
  { t with
    cache := { t.cache.clean (s.ibuf i) with
      count := update t.cache.count (s.ibuf i) (t.cache.count (s.ibuf i) - 1) }
    sb := { t.sb with inodeList := t.sb.inodeList.erase i } }

theorem when_dirty {y : Unit} (h : when (s.cache.dirty b) (bwrite (some b)) s = some (y, t)) :
    t = s.cleaned b := by
  by_cases hd : s.cache.dirty b = true
  · rw [hd, when_true] at h
    exact (Prod.mk.inj (Option.some.inj h)).2.symm
  · have hd' : s.cache.dirty b = false := by simpa using hd
    rw [hd', when_false] at h
    rw [← (Prod.mk.inj (Option.some.inj h)).2]
    unfold State.cleaned Cache.clean
    rw [if_neg hd]

/-- The two ways through `iput`. -/
theorem iputInode_cases {y : Unit} (h : iputInode i s = some (y, t)) :
    (sub32 (s.inodeTable i).count 1 ≠ 0 ∧ t = s.putOld i) ∨
    (sub32 (s.inodeTable i).count 1 = 0 ∧ i ∈ s.sb.inodeList ∧ i ≠ 0 ∧
      0 < s.cache.count (s.ibuf i) ∧ t = s.putLast i) := by
  unfold iputInode at h
  rw [peek_bind, peek_bind] at h
  obtain ⟨⟨⟩, u, hu, h⟩ := bind_eq_some.mp h
  obtain rfl := when_dirty hu
  rw [poke_bind, peek_bind] at h
  have hcount : (((s.cleaned (s.ibuf i)).modInode i fun n => { n with count := sub32 n.count 1 }).inodeTable
      i).count = sub32 (s.inodeTable i).count 1 := by
    simp [State.modInode, State.setInode, State.cleaned]
  rw [hcount] at h
  split_ifs at h with h0
  · simp only [pure_apply, Option.some.injEq, Prod.mk.injEq] at h
    exact .inl ⟨h0, h.2.symm⟩
  obtain ⟨⟨⟩, v, hv, k⟩ := bind_eq_some.mp h
  obtain ⟨hpos, rfl⟩ := brelse_eq_some hv
  rw [peek_bind] at k
  obtain ⟨⟨⟩, w, hw, k₁⟩ := bind_eq_some.mp k
  obtain ⟨hmem, rfl⟩ := assert_eq_some.mp hw
  rw [poke_bind] at k₁
  unfold putFreeInode at k₁
  obtain ⟨⟨⟩, x, hx, k₂⟩ := bind_eq_some.mp k₁
  obtain ⟨hne, rfl⟩ := assert_eq_some.mp hx
  rw [peek_bind] at k₂
  obtain ⟨⟨⟩, x', hx', k₃⟩ := bind_eq_some.mp k₂
  obtain ⟨-, rfl⟩ := assert_eq_some.mp hx'
  simp only [poke_apply, Option.some.injEq, Prod.mk.injEq, true_and] at k₃
  subst k₃
  refine .inr ⟨by simpa using h0, of_decide_eq_true hmem, by simpa using hne, ?_, rfl⟩
  simpa [State.cleaned, State.modInode, State.setInode] using hpos

/-! ## Inodes in memory and their descriptors -/

/-- The inodes of the superblock's list point at the descriptors of their numbers. -/
structure Placed (s : State) : Prop where
  buf : ∀ i ∈ s.sb.inodeList, s.ibuf i = inodeBlock s.sb (s.nr i)
  slot : ∀ i ∈ s.sb.inodeList, (s.inodeTable i).slot = sub32 (s.nr i) 1 % BLOCK_INODES
  dev : ∀ i ∈ s.sb.inodeList, (s.inodeTable i).dev = s.dev
  nodup : s.sb.inodeList.Nodup

theorem inodeBlock_congr (h : t.sb.desc = s.sb.desc) : inodeBlock t.sb x = inodeBlock s.sb x := by
  unfold inodeBlock
  rw [h]

/-- Where each listed inode of `t` was listed in `s` and kept what places it. -/
theorem Placed.of_kept (h : Placed s) (hdesc : t.sb.desc = s.sb.desc) (hdev : t.dev = s.dev)
    (hnodup : t.sb.inodeList.Nodup) (hlist : ∀ i ∈ t.sb.inodeList, i ∈ s.sb.inodeList ∧
      t.nr i = s.nr i ∧ t.ibuf i = s.ibuf i ∧ (t.inodeTable i).slot = (s.inodeTable i).slot ∧
      (t.inodeTable i).dev = (s.inodeTable i).dev) : Placed t where
  buf i hi := by
    obtain ⟨hs, hnr, hb, -, -⟩ := hlist i hi
    rw [hb, hnr, inodeBlock_congr hdesc, h.buf i hs]
  slot i hi := by
    obtain ⟨hs, hnr, -, hsl, -⟩ := hlist i hi
    rw [hsl, hnr, h.slot i hs]
  dev i hi := by
    obtain ⟨hs, -, -, -, hd⟩ := hlist i hi
    rw [hd, h.dev i hs, hdev]
  nodup := hnodup

theorem Placed.same (h : Placed s) (hs : Same s t) : Placed t := by
  refine h.of_kept (by rw [hs.sb]) hs.dev (by rw [hs.sb]; exact h.nodup) fun i hi => ?_
  rw [hs.sb] at hi
  unfold State.nr State.ibuf
  rw [hs.inodeTable]
  exact ⟨hi, rfl, rfl, rfl, rfl⟩

/-- `f` changes nothing that places an inode. -/
def KeepsPlace (f : InodeT → InodeT) : Prop := ∀ n, (f n).nr = n.nr ∧ (f n).buf = n.buf ∧
  (f n).slot = n.slot ∧ (f n).dev = n.dev

theorem inodeTable_modInode (f : InodeT → InodeT) :
    (s.modInode i f).inodeTable j = if j = i then f (s.inodeTable i) else s.inodeTable j :=
  update_apply ..

theorem nr_modInode {f : InodeT → InodeT} (hf : KeepsPlace f) (j : ℕ) :
    (s.modInode i f).nr j = s.nr j := by
  unfold State.nr
  rw [inodeTable_modInode]
  split_ifs with h
  · rw [h]
    exact (hf _).1
  · rfl

theorem Placed.modInode (h : Placed s) {f : InodeT → InodeT} (hf : KeepsPlace f) :
    Placed (s.modInode i f) := by
  refine h.of_kept rfl rfl h.nodup fun j hj => ⟨hj, nr_modInode hf j, ?_⟩
  unfold State.ibuf
  rw [inodeTable_modInode]
  split_ifs with he
  · rw [he]
    exact (hf _).2
  · exact ⟨rfl, rfl, rfl⟩

/-- What a walk needs of an inode that `iget` returns. -/
structure Got (s : State) (x i : ℕ) (t : State) : Prop where
  placed : Placed t
  mem : i ∈ t.sb.inodeList
  nr : t.nr i = x
  kept : ∀ j ∈ s.sb.inodeList, j ∈ t.sb.inodeList ∧ t.nr j = s.nr j

theorem Placed.iget (hp : Placed s) (h : iget dev x s = some (i, t)) : Got s x i t := by
  obtain ⟨-, ⟨hf, a, rfl⟩ | ⟨hnone, -, -, -, hmem, a, c, rfl⟩⟩ := iget_cases h
  · have hkeeps : KeepsPlace fun n => { n with count := (n.count + 1) % 2 ^ 32, atime := a } :=
      fun _ => ⟨rfl, rfl, rfl, rfl⟩
    have hnr : ∀ j, (s.gotOld i a).nr j = s.nr j := nr_modInode hkeeps
    refine ⟨(hp.modInode hkeeps).same ⟨rfl, rfl, rfl, rfl, rfl, rfl, rfl⟩,
      List.mem_of_find?_eq_some hf, ?_, fun j hj => ⟨hj, hnr j⟩⟩
    rw [hnr]
    simpa using List.find?_some hf
  · have hother : ∀ j ∈ s.sb.inodeList, (s.gotNew i x a c).inodeTable j = s.inodeTable j := by
      intro j hj
      have hne : j ≠ i := by
        rintro rfl
        exact hmem hj
      exact update_of_ne hne ..
    have hself : (s.gotNew i x a c).inodeTable i = ⟨sub32 x 1 % BLOCK_INODES, inodeBlock s.sb x, s.dev,
        x, ((s.inodeTable i).count + 1) % 2 ^ 32, a, c⟩ := update_self ..
    have hlist : ∀ j ∈ (s.gotNew i x a c).sb.inodeList, j = i ∨ j ∈ s.sb.inodeList := fun j hj =>
      List.mem_cons.mp hj
    refine ⟨⟨fun j hj => ?_, fun j hj => ?_, fun j hj => ?_, List.nodup_cons.mpr ⟨hmem, hp.nodup⟩⟩,
      List.mem_cons_self, ?_, fun j hj => ⟨List.mem_cons_of_mem _ hj, ?_⟩⟩
    · rcases hlist j hj with rfl | hj
      · unfold State.ibuf State.nr
        rw [hself]
        rfl
      · unfold State.ibuf State.nr
        rw [hother j hj]
        exact hp.buf j hj
    · rcases hlist j hj with rfl | hj
      · unfold State.nr
        rw [hself]
      · unfold State.nr
        rw [hother j hj]
        exact hp.slot j hj
    · rcases hlist j hj with rfl | hj
      · rw [hself]
        rfl
      · rw [hother j hj]
        exact hp.dev j hj
    · unfold State.nr
      rw [hself]
    · unfold State.nr
      rw [hother j hj]

theorem Placed.iput (hp : Placed s) {y : Unit} (h : iputInode i s = some (y, t)) :
    Placed t ∧ (∀ j, t.nr j = s.nr j) ∧ ∀ j ∈ s.sb.inodeList, j ≠ i → j ∈ t.sb.inodeList := by
  have hdrop : KeepsPlace fun n => { n with count := sub32 n.count 1 } := fun _ => ⟨rfl, rfl, rfl, rfl⟩
  have hclean : Same s (s.cleaned (s.ibuf i)) := ⟨rfl, rfl, rfl, rfl, rfl, rfl, rfl⟩
  have hold : Placed (s.putOld i) := (hp.same hclean).modInode hdrop
  have hnr : ∀ j, (s.putOld i).nr j = s.nr j := nr_modInode hdrop
  rcases iputInode_cases h with ⟨-, rfl⟩ | ⟨-, hmem, -, -, rfl⟩
  · exact ⟨hold, hnr, fun j hj _ => hj⟩
  have herase : ∀ j, j ∈ (s.putLast i).sb.inodeList ↔ j ≠ i ∧ j ∈ s.sb.inodeList := fun j =>
    hp.nodup.mem_erase_iff
  have hother : ∀ j, j ≠ i → (s.putLast i).inodeTable j = (s.putOld i).inodeTable j := fun j hj =>
    update_of_ne hj ..
  refine ⟨hold.of_kept rfl rfl (hp.nodup.erase i) fun j hj => ?_, fun j => ?_, fun j hj hne =>
    (herase j).mpr ⟨hne, hj⟩⟩
  · obtain ⟨hne, hj⟩ := (herase j).mp hj
    unfold State.nr State.ibuf
    rw [hother j hne]
    exact ⟨hj, rfl, rfl, rfl, rfl⟩
  · by_cases hj : j = i
    · have hself : (s.putLast i).inodeTable i = { (s.putOld i).inodeTable i with dev := NODEV } :=
        update_self ..
      rw [← hnr, hj]
      unfold State.nr
      rw [hself]
    · rw [← hnr]
      unfold State.nr
      rw [hother j hj]

end Onix.Fs
