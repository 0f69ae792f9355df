import Onix.Spec.Namei

/-! What the functions of the file system leave alone: those that only handle blocks
keep the tables of inodes, those that only look keep the contents of every block. -/

namespace Onix.Fs

open Function Prog Cstr

/-- Nothing but blocks, and the time, changed. -/
structure Same (s t : State) : Prop where
  dev : t.dev = s.dev
  sb : t.sb = s.sb
  inodeTable : t.inodeTable = s.inodeTable
  fileTable : t.fileTable = s.fileTable
  tasks : t.tasks = s.tasks
  running : t.running = s.running
  clock : t.clock = s.clock

/-- Nothing but blocks, the time and the inodes in memory changed. -/
structure Fixed (s t : State) : Prop where
  dev : t.dev = s.dev
  desc : t.sb.desc = s.sb.desc
  imaps : t.sb.imaps = s.sb.imaps
  zmaps : t.sb.zmaps = s.sb.zmaps
  fileTable : t.fileTable = s.fileTable
  tasks : t.tasks = s.tasks
  running : t.running = s.running
  clock : t.clock = s.clock

/-- A buffer that is not dirty shows what is on the disk. -/
def State.Synced (s : State) : Prop :=
  ∀ b, s.cache.dirty b = false → s.data b = s.cache.disk b

/-- No block has other contents, and nothing unsaved lost its mark. -/
structure Quiet (s t : State) : Prop where
  data : t.data = s.data
  synced : s.Synced → t.Synced
  fixed : Fixed s t

instance : IsPreorder State Same where
  refl _ := ⟨rfl, rfl, rfl, rfl, rfl, rfl, rfl⟩
  trans _ _ _ h h' := ⟨h'.1.trans h.1, h'.2.trans h.2, h'.3.trans h.3, h'.4.trans h.4,
    h'.5.trans h.5, h'.6.trans h.6, h'.7.trans h.7⟩

instance : IsPreorder State Fixed where
  refl _ := ⟨rfl, rfl, rfl, rfl, rfl, rfl, rfl, rfl⟩
  trans _ _ _ h h' := ⟨h'.1.trans h.1, h'.2.trans h.2, h'.3.trans h.3, h'.4.trans h.4,
    h'.5.trans h.5, h'.6.trans h.6, h'.7.trans h.7, h'.8.trans h.8⟩

instance : IsPreorder State Quiet where
  refl s := ⟨rfl, id, refl_of Fixed s⟩
  trans _ _ _ h h' := ⟨h'.1.trans h.1, fun hs => h'.2 (h.2 hs), trans_of Fixed h.3 h'.3⟩

theorem Same.fixed {s t : State} (h : Same s t) : Fixed s t :=
  ⟨h.dev, by rw [h.sb], by rw [h.sb], by rw [h.sb], h.fileTable, h.tasks, h.running, h.clock⟩

/-- Every `inode_t` points at the same descriptor. -/
def Seated (s t : State) : Prop := ∀ i,
  (t.inodeTable i).slot = (s.inodeTable i).slot ∧ (t.inodeTable i).buf = (s.inodeTable i).buf

instance : IsPreorder State Seated where
  refl _ _ := ⟨rfl, rfl⟩
  trans _ _ _ h h' i := ⟨(h' i).1.trans (h i).1, (h' i).2.trans (h i).2⟩

theorem Same.seated {s t : State} (h : Same s t) : Seated s t := fun i => by
  rw [h.inodeTable]
  exact ⟨rfl, rfl⟩

theorem Fixed.task {s t : State} (h : Fixed s t) : t.task = s.task := by
  unfold State.task
  rw [h.tasks, h.running]

theorem quiet_clean (s : State) (b : ℕ) : Quiet s { s with cache := s.cache.clean b } := by
  refine ⟨?_, fun h => Cache.clean_all_synced h, ⟨rfl, rfl, rfl, rfl, rfl, rfl, rfl, rfl⟩⟩
  unfold State.data
  simp

section Blocks

theorem time_same : Leads Same time := by
  unfold time
  exact .bind (leads_peek _) fun _ => .bind (leads_poke fun _ => ⟨rfl, rfl, rfl, rfl, rfl, rfl, rfl⟩)
    fun _ => leads_pure _

theorem time_quiet : Leads Quiet time := by
  unfold time
  exact .bind (leads_peek _) fun _ => .bind
    (leads_poke fun _ => ⟨rfl, id, ⟨rfl, rfl, rfl, rfl, rfl, rfl, rfl, rfl⟩⟩) fun _ => leads_pure _

variable {r : State → State → Prop} [IsPreorder State r]

theorem getSuper_leads (dev : ℤ) : Leads r (getSuper dev) := by
  unfold getSuper
  exact .bind (leads_peek _) fun _ => .bind (leads_assert _) fun _ => leads_peek _

theorem bread_same (dev : ℤ) (block : ℕ) : Leads Same (bread dev block) := by
  unfold bread
  exact .bind (leads_peek _) fun _ => .bind (leads_assert _) fun _ =>
    .bind (leads_poke fun _ => ⟨rfl, rfl, rfl, rfl, rfl, rfl, rfl⟩) fun _ => leads_pure _

theorem bread_quiet (dev : ℤ) (block : ℕ) : Leads Quiet (bread dev block) := by
  unfold bread
  exact .bind (leads_peek _) fun _ => .bind (leads_assert _) fun _ =>
    .bind (leads_poke fun _ => ⟨rfl, id, ⟨rfl, rfl, rfl, rfl, rfl, rfl, rfl, rfl⟩⟩)
      fun _ => leads_pure _

theorem bwrite_same (buf : Option ℕ) : Leads Same (bwrite buf) := by
  unfold bwrite
  cases buf with
  | none => exact leads_stop
  | some b => exact leads_poke fun _ => ⟨rfl, rfl, rfl, rfl, rfl, rfl, rfl⟩

theorem bwrite_quiet (buf : Option ℕ) : Leads Quiet (bwrite buf) := by
  unfold bwrite
  cases buf with
  | none => exact leads_stop
  | some b => exact leads_poke fun s => quiet_clean s b

/-- What `brelse` of a buffer leaves, where it returns. -/
theorem brelse_eq_some {s t : State} {b : ℕ} {u : Unit} (h : brelse (some b) s = some (u, t)) :
    0 < s.cache.count b ∧ t = { s with cache :=
      { s.cache.clean b with count := update s.cache.count b (s.cache.count b - 1) } } := by
  obtain ⟨c, hc, h⟩ := Option.map_eq_some_iff.mp h
  obtain ⟨hpos, rfl⟩ := Cache.drop_eq_some hc
  exact ⟨hpos, (Prod.mk.inj h).2.symm⟩

theorem brelse_same (buf : Option ℕ) : Leads Same (brelse buf) := by
  cases buf with
  | none => exact leads_pure ()
  | some b =>
    intro s u t h
    obtain ⟨-, rfl⟩ := brelse_eq_some h
    exact ⟨rfl, rfl, rfl, rfl, rfl, rfl, rfl⟩

theorem brelse_quiet (buf : Option ℕ) : Leads Quiet (brelse buf) := by
  cases buf with
  | none => exact leads_pure ()
  | some b =>
    intro s u t h
    obtain ⟨-, rfl⟩ := brelse_eq_some h
    exact ⟨(quiet_clean s b).data, (quiet_clean s b).synced, ⟨rfl, rfl, rfl, rfl, rfl, rfl, rfl, rfl⟩⟩

theorem scanMaps_same (maps : ℕ → Option ℕ) (length : ℕ) (offset : ℕ → ℕ) (limit n i : ℕ)
    (buf : Option ℕ) : Leads Same (scanMaps maps length offset limit n i buf) := by
  induction n generalizing i buf with
  | zero => exact leads_pure _
  | succ n ih =>
    unfold scanMaps
    cases maps i with
    | none => exact leads_stop
    | some b =>
      exact .bind (leads_peek _) fun _ => .bind (leads_lift _) fun _ =>
        .bind (leads_poke fun _ => ⟨rfl, rfl, rfl, rfl, rfl, rfl, rfl⟩) fun _ =>
        .ite (.bind (leads_assert _) fun _ =>
          .bind (leads_poke fun _ => ⟨rfl, rfl, rfl, rfl, rfl, rfl, rfl⟩) fun _ => leads_pure _) (ih _ _)

theorem clearMaps_same (maps : ℕ → Option ℕ) (length : ℕ) (offset : ℕ → ℕ) (idx n i : ℕ) :
    Leads Same (clearMaps maps length offset idx n i) := by
  induction n generalizing i with
  | zero => exact leads_stop
  | succ n ih =>
    unfold clearMaps
    refine .ite (ih _) ?_
    cases maps i with
    | none => exact leads_stop
    | some b =>
      exact .bind (leads_peek _) fun _ => .bind (leads_lift _) fun _ => .bind (leads_assert _) fun _ =>
        .bind (leads_lift _) fun _ =>
        .bind (leads_poke fun _ => ⟨rfl, rfl, rfl, rfl, rfl, rfl, rfl⟩) fun _ => leads_pure _

theorem balloc_same (dev : ℤ) : Leads Same (balloc dev) := by
  unfold balloc
  exact .bind (getSuper_leads _) fun _ => .bind (scanMaps_same _ _ _ _ _ _ _) fun _ =>
    .bind (bwrite_same _) fun _ => leads_pure _

theorem ialloc_same (dev : ℤ) : Leads Same (ialloc dev) := by
  unfold ialloc
  exact .bind (getSuper_leads _) fun _ => .bind (scanMaps_same _ _ _ _ _ _ _) fun _ =>
    .bind (bwrite_same _) fun _ => leads_pure _

theorem bfree_same (dev : ℤ) (idx : ℕ) : Leads Same (bfree dev idx) := by
  unfold bfree
  exact .bind (getSuper_leads _) fun _ => .bind (leads_assert _) fun _ =>
    .bind (clearMaps_same _ _ _ _ _ _) fun _ => bwrite_same _

theorem ifree_same (dev : ℤ) (idx : ℕ) : Leads Same (ifree dev idx) := by
  unfold ifree
  exact .bind (getSuper_leads _) fun _ => .bind (leads_assert _) fun _ =>
    .bind (clearMaps_same _ _ _ _ _ _) fun _ => bwrite_same _

theorem bmapCell_same (dev : ℤ) (create : Bool) (buf addr index : ℕ) :
    Leads Same (bmapCell dev create buf addr index) := by
  unfold bmapCell
  exact .bind (leads_peek _) fun _ => .ite (.bind (balloc_same _) fun _ =>
    .bind (leads_poke fun _ => ⟨rfl, rfl, rfl, rfl, rfl, rfl, rfl⟩) fun _ =>
      .bind (brelse_same _) fun _ => leads_peek _) (.bind (brelse_same _) fun _ => leads_peek _)

theorem bmapCell_quiet (dev : ℤ) (buf addr index : ℕ) :
    Leads Quiet (bmapCell dev false buf addr index) := by
  unfold bmapCell
  simp only [Bool.and_false]
  exact .bind (leads_peek _) fun _ => .bind (brelse_quiet _) fun _ => leads_peek _

theorem bmapLoop_same (dev : ℤ) (create : Bool) (level buf addr index block divider : ℕ) :
    Leads Same (bmapLoop dev create level buf addr index block divider) := by
  induction level generalizing buf addr index block divider with
  | zero => exact bmapCell_same _ _ _ _ _
  | succ level ih =>
    unfold bmapLoop
    exact .bind (bmapCell_same _ _ _ _ _) fun _ => .ite (leads_pure _)
      (.bind (bread_same _ _) fun _ => ih _ _ _ _ _)

theorem bmapLoop_quiet (dev : ℤ) (level buf addr index block divider : ℕ) :
    Leads Quiet (bmapLoop dev false level buf addr index block divider) := by
  induction level generalizing buf addr index block divider with
  | zero => exact bmapCell_quiet _ _ _ _
  | succ level ih =>
    unfold bmapLoop
    exact .bind (bmapCell_quiet _ _ _ _) fun _ => .ite (leads_pure _)
      (.bind (bread_quiet _ _) fun _ => ih _ _ _ _ _)

theorem bmap_same (inode block : ℕ) (create : Bool) : Leads Same (bmap inode block create) := by
  unfold bmap
  exact .bind (leads_assert _) fun _ => .bind (leads_peek _) fun _ => .bind (leads_peek _) fun _ =>
    .bind (leads_peek _) fun _ => .bind (leads_poke fun _ => ⟨rfl, rfl, rfl, rfl, rfl, rfl, rfl⟩)
      fun _ => .ite (bmapLoop_same _ _ _ _ _ _ _ _) (.ite (bmapLoop_same _ _ _ _ _ _ _ _)
        (.bind (leads_assert _) fun _ => bmapLoop_same _ _ _ _ _ _ _ _))

theorem bmap_quiet (inode block : ℕ) : Leads Quiet (bmap inode block false) := by
  unfold bmap
  exact .bind (leads_assert _) fun _ => .bind (leads_peek _) fun _ => .bind (leads_peek _) fun _ =>
    .bind (leads_peek _) fun _ =>
      .bind (leads_poke fun _ => ⟨rfl, id, ⟨rfl, rfl, rfl, rfl, rfl, rfl, rfl, rfl⟩⟩)
      fun _ => .ite (bmapLoop_quiet _ _ _ _ _ _ _) (.ite (bmapLoop_quiet _ _ _ _ _ _ _)
        (.bind (leads_assert _) fun _ => bmapLoop_quiet _ _ _ _ _ _ _))

end Blocks

section Entries

theorem entryAt_same (dir i : ℕ) (create : Bool) (entry : Option Entry) :
    Leads Same (entryAt dir i create entry) := by
  have hload : Leads Same (entryAt.load dir i create) :=
    .bind (bmap_same _ _ _) fun _ => .bind (leads_assert _) fun _ => .bind (leads_peek _) fun _ =>
      .bind (bread_same _ _) fun _ => leads_pure _
  cases entry with
  | none => exact hload
  | some e => exact .ite (leads_pure _) (.bind (brelse_same _) fun _ => hload)

theorem entryAt_quiet (dir i : ℕ) (entry : Option Entry) :
    Leads Quiet (entryAt dir i false entry) := by
  have hload : Leads Quiet (entryAt.load dir i false) :=
    .bind (bmap_quiet _ _) fun _ => .bind (leads_assert _) fun _ => .bind (leads_peek _) fun _ =>
      .bind (bread_quiet _ _) fun _ => leads_pure _
  cases entry with
  | none => exact hload
  | some e => exact .ite (leads_pure _) (.bind (brelse_quiet _) fun _ => hload)

theorem findLoop_same (dir : ℕ) (name : Str) (n i : ℕ) (entry : Option Entry) :
    Leads Same (findLoop dir name n i entry) := by
  induction n generalizing i entry with
  | zero => exact .bind (brelse_same _) fun _ => leads_pure _
  | succ n ih =>
    unfold findLoop
    refine .bind (entryAt_same _ _ _ _) fun e => .bind (leads_peek _) fun data => ?_
    cases matchName name data (e.addr + 2) with
    | none => exact ih _ _
    | some next => exact leads_pure _

theorem findLoop_quiet (dir : ℕ) (name : Str) (n i : ℕ) (entry : Option Entry) :
    Leads Quiet (findLoop dir name n i entry) := by
  induction n generalizing i entry with
  | zero => exact .bind (brelse_quiet _) fun _ => leads_pure _
  | succ n ih =>
    unfold findLoop
    refine .bind (entryAt_quiet _ _ _) fun e => .bind (leads_peek _) fun data => ?_
    cases matchName name data (e.addr + 2) with
    | none => exact ih _ _
    | some next => exact leads_pure _

theorem findEntry_same (dir : ℕ) (name : Str) : Leads Same (findEntry dir name) :=
  .bind (leads_peek _) fun _ => .bind (leads_assert _) fun _ => .bind (leads_peek _) fun _ =>
    findLoop_same _ _ _ _ _

theorem findEntry_quiet (dir : ℕ) (name : Str) : Leads Quiet (findEntry dir name) :=
  .bind (leads_peek _) fun _ => .bind (leads_assert _) fun _ => .bind (leads_peek _) fun _ =>
    findLoop_quiet _ _ _ _ _

theorem countLoop_same (dir n i : ℕ) (entry : Option Entry) (count : ℕ) :
    Leads Same (countLoop dir n i entry count) := by
  induction n generalizing i entry count with
  | zero => exact .bind (brelse_same _) fun _ => leads_pure _
  | succ n ih =>
    exact .bind (entryAt_same _ _ _ _) fun _ => .bind (leads_peek _) fun _ => ih _ _ _

theorem countLoop_quiet (dir n i : ℕ) (entry : Option Entry) (count : ℕ) :
    Leads Quiet (countLoop dir n i entry count) := by
  induction n generalizing i entry count with
  | zero => exact .bind (brelse_quiet _) fun _ => leads_pure _
  | succ n ih =>
    exact .bind (entryAt_quiet _ _ _) fun _ => .bind (leads_peek _) fun _ => ih _ _ _

theorem isEmpty_same (inode : ℕ) : Leads Same (isEmpty inode) := by
  unfold isEmpty
  exact .bind (leads_peek _) fun _ => .bind (leads_assert _) fun _ => .bind (leads_peek _) fun _ =>
    .bind (leads_peek _) fun _ => .ite (leads_pure _)
      (.bind (countLoop_same _ _ _ _ _) fun _ => leads_pure _)

theorem isEmpty_quiet (inode : ℕ) : Leads Quiet (isEmpty inode) := by
  unfold isEmpty
  exact .bind (leads_peek _) fun _ => .bind (leads_assert _) fun _ => .bind (leads_peek _) fun _ =>
    .bind (leads_peek _) fun _ => .ite (leads_pure _)
      (.bind (countLoop_quiet _ _ _ _ _) fun _ => leads_pure _)

end Entries

section Write

theorem poke_same {g : State → State} (h : ∀ s, g s = { s with cache := (g s).cache }) :
    Leads Same (poke g) := leads_poke fun s => by
  rw [h s]
  exact ⟨rfl, rfl, rfl, rfl, rfl, rfl, rfl⟩

theorem growDir_same (dir i : ℕ) (e : Entry) : Leads Same (growDir dir i e) :=
  .bind (leads_peek _) fun _ => leads_when (poke_same fun _ => rfl)

theorem fillEntry_same (dir : ℕ) (name : Str) (e : Entry) : Leads Same (fillEntry dir name e) :=
  .bind (poke_same fun _ => rfl) fun _ => .bind time_same fun _ => poke_same fun _ => rfl

theorem addLoop_same (dir : ℕ) (name : Str) (n i : ℕ) (entry : Option Entry) :
    Leads Same (addLoop dir name n i entry) := by
  induction n generalizing i entry with
  | zero => exact leads_stop
  | succ n ih =>
    unfold addLoop
    exact .bind (entryAt_same _ _ _ _) fun _ => .bind (growDir_same _ _ _) fun _ =>
      .bind (leads_peek _) fun _ => .ite (ih _ _) (.bind (fillEntry_same _ _ _) fun _ => leads_pure _)

theorem addEntry_same (dir : ℕ) (name : Str) : Leads Same (addEntry dir name) := by
  unfold addEntry
  refine .bind (findEntry_same _ _) fun r => ?_
  rcases r with - | ⟨e, next⟩
  · exact .bind (leads_assert _) fun _ => addLoop_same _ _ _ _ _
  · exact leads_pure _

theorem writeChunk_same (inode : ℕ) (c : Chunk) (bytes : List Byte) :
    Leads Same (writeChunk inode c bytes) :=
  .bind (bmap_same _ _ _) fun _ => .bind (leads_assert _) fun _ => .bind (leads_peek _) fun _ =>
    .bind (bread_same _ _) fun _ => .bind (poke_same fun _ => rfl) fun _ => .bind (leads_peek _) fun _ =>
    .bind (leads_when (poke_same fun _ => rfl)) fun _ => .bind (leads_assert _) fun _ =>
    .bind (poke_same fun _ => rfl) fun _ => brelse_same _

theorem writeLoop_same (inode : ℕ) (cs : List Chunk) (bytes : List Byte) :
    Leads Same (writeLoop inode cs bytes) := by
  induction cs generalizing bytes with
  | nil => exact leads_pure _
  | cons c cs ih => exact .bind (writeChunk_same _ _ _) fun _ => ih _

theorem inodeBfree_same (inode level buf addr index : ℕ) :
    Leads Same (inodeBfree inode level buf addr index) := by
  induction level generalizing buf addr index with
  | zero =>
    exact .bind (leads_peek _) fun _ => .ite (leads_pure _) (.bind (leads_peek _) fun _ => bfree_same _ _)
  | succ level ih =>
    unfold inodeBfree
    exact .bind (leads_peek _) fun _ => .ite (leads_pure _) (.bind (leads_peek _) fun _ =>
      .bind (bread_same _ _) fun _ => .bind (leads_loop (fun _ => ih _ _ _) _ _) fun _ =>
      .bind (brelse_same _) fun _ => .bind (leads_peek _) fun _ => bfree_same _ _)

theorem freeZone_same (inode level index : ℕ) : Leads Same (freeZone inode level index) :=
  .bind (leads_peek _) fun _ => .bind (leads_peek _) fun _ =>
    .bind (inodeBfree_same _ _ _ _ _) fun _ => poke_same fun _ => rfl

theorem inodeTruncate_same (inode : ℕ) : Leads Same (inodeTruncate inode) := by
  unfold inodeTruncate
  exact .bind (leads_peek _) fun _ => .ite (leads_pure _)
    (.bind (leads_loop (fun _ => freeZone_same _ _ _) _ _) fun _ => .bind (freeZone_same _ _ _) fun _ =>
    .bind (freeZone_same _ _ _) fun _ => .bind (poke_same fun _ => rfl) fun _ => .bind time_same fun _ =>
    .bind (poke_same fun _ => rfl) fun _ => .bind (leads_peek _) fun _ => bwrite_same _)

theorem freeInode_same (inode : ℕ) : Leads Same (freeInode inode) :=
  .bind (inodeTruncate_same _) fun _ => .bind (leads_peek _) fun _ => .bind (leads_peek _) fun _ =>
    ifree_same _ _

theorem mkdirEntries_same (dir inode : ℕ) : Leads Same (mkdirEntries dir inode) :=
  .bind (leads_peek _) fun _ => .bind (bmap_same _ _ _) fun _ => .bind (bread_same _ _) fun _ =>
    .bind (poke_same fun _ => rfl) fun _ => .bind (poke_same fun _ => rfl) fun _ =>
    .bind (poke_same fun _ => rfl) fun _ => .bind (poke_same fun _ => rfl) fun _ =>
    .bind (poke_same fun _ => rfl) fun _ => leads_pure _

theorem mkdirInode_same (inode mode : ℕ) : Leads Same (mkdirInode inode mode) :=
  .bind (poke_same fun _ => rfl) fun _ => .bind (poke_same fun _ => rfl) fun _ =>
    .bind (poke_same fun _ => rfl) fun _ => .bind (poke_same fun _ => rfl) fun _ =>
    .bind (poke_same fun _ => rfl) fun _ => .bind time_same fun _ => .bind (poke_same fun _ => rfl)
    fun _ => poke_same fun _ => rfl

theorem openInode_same (inode mode : ℕ) : Leads Same (openInode inode mode) :=
  .bind (poke_same fun _ => rfl) fun _ => .bind (poke_same fun _ => rfl) fun _ =>
    .bind (poke_same fun _ => rfl) fun _ => .bind time_same fun _ => .bind (poke_same fun _ => rfl)
    fun _ => .bind (poke_same fun _ => rfl) fun _ => .bind (poke_same fun _ => rfl)
    fun _ => poke_same fun _ => rfl

theorem unlinkIn_same (inode : ℕ) (entry : Entry) : Leads Same (unlinkIn inode entry) :=
  .bind (poke_same fun _ => rfl) fun _ => .bind (poke_same fun _ => rfl) fun _ =>
    .bind (leads_peek _) fun _ => leads_when (freeInode_same _)

end Write

section Look

theorem modInode_quiet (i : ℕ) (f : State → InodeT → InodeT) :
    Leads Quiet (poke fun s => s.modInode i (f s)) :=
  leads_poke fun _ => ⟨rfl, id, ⟨rfl, rfl, rfl, rfl, rfl, rfl, rfl, rfl⟩⟩

theorem touch_quiet (inode : ℕ) : Leads Quiet (touch inode) :=
  .bind time_quiet fun _ => modInode_quiet _ _

theorem getFreeInode_quiet : Leads Quiet getFreeInode := .bind (leads_peek _) fun _ => leads_lift _

theorem findInode_quiet (dev : ℤ) (nr : ℕ) : Leads Quiet (findInode dev nr) :=
  .bind (getSuper_leads _) fun _ => .bind (leads_peek _) fun _ => leads_pure _

theorem igetNew_quiet (dev : ℤ) (nr : ℕ) : Leads Quiet (igetNew dev nr) := by
  unfold igetNew
  exact .bind (getSuper_leads _) fun _ => .bind (leads_assert _) fun _ =>
    .bind getFreeInode_quiet fun _ => .bind (modInode_quiet _ _) fun _ =>
    .bind (leads_assert _) fun _ =>
    .bind (leads_poke fun _ => ⟨rfl, id, ⟨rfl, rfl, rfl, rfl, rfl, rfl, rfl, rfl⟩⟩) fun _ =>
    .bind (bread_quiet _ _) fun _ => .bind (modInode_quiet _ _) fun _ =>
    .bind (modInode_quiet _ _) fun _ => .bind (touch_quiet _) fun _ => leads_pure _

theorem iget_quiet (dev : ℤ) (nr : ℕ) : Leads Quiet (iget dev nr) := by
  unfold iget
  refine .bind (findInode_quiet _ _) fun r => ?_
  cases r with
  | none => exact igetNew_quiet _ _
  | some i => exact .bind (modInode_quiet _ _) fun _ => .bind (touch_quiet _) fun _ => leads_pure _

theorem putFreeInode_quiet (inode : ℕ) : Leads Quiet (putFreeInode inode) := by
  unfold putFreeInode
  exact .bind (leads_assert _) fun _ => .bind (leads_peek _) fun _ => .bind (leads_assert _)
    fun _ => modInode_quiet _ _

theorem iputInode_quiet (inode : ℕ) : Leads Quiet (iputInode inode) := by
  unfold iputInode
  exact .bind (leads_peek _) fun _ => .bind (leads_peek _) fun _ =>
    .bind (leads_when (bwrite_quiet _)) fun _ => .bind (modInode_quiet _ _) fun _ =>
    .bind (leads_peek _) fun _ => .ite (leads_pure _) (.bind (brelse_quiet _) fun _ =>
      .bind (leads_peek _) fun _ => .bind (leads_assert _) fun _ =>
      .bind (leads_poke fun _ => ⟨rfl, id, ⟨rfl, rfl, rfl, rfl, rfl, rfl, rfl, rfl⟩⟩)
        fun _ => putFreeInode_quiet _)

theorem iput_quiet (inode : Option ℕ) : Leads Quiet (iput inode) := by
  cases inode with
  | none => exact leads_pure ()
  | some i => exact iputInode_quiet i

theorem namedLoop_quiet (right : Str) (n inode : ℕ) (left : Str) (buf : Option ℕ) :
    Leads Quiet (namedLoop right n inode left buf) := by
  induction n generalizing inode left buf with
  | zero => exact leads_stop
  | succ n ih =>
    unfold namedLoop
    refine .bind (brelse_quiet _) fun _ => .bind (findEntry_quiet _ _) fun r => ?_
    rcases r with - | ⟨entry, next⟩
    · exact .bind (iput_quiet _) fun _ => leads_pure _
    · exact .bind (leads_peek _) fun _ => .bind (iput_quiet _) fun _ => .bind (leads_peek _) fun _ =>
        .bind (iget_quiet _ _) fun _ => .bind (leads_peek _) fun _ =>
        .ite (.bind (brelse_quiet _) fun _ => .bind (iput_quiet _) fun _ => leads_pure _)
          (.ite (.bind (brelse_quiet _) fun _ => leads_pure _) (ih _ _ _))

theorem namedFrom_quiet (inode : ℕ) (left : Str) : Leads Quiet (namedFrom inode left) := by
  unfold namedFrom
  refine .bind (modInode_quiet _ _) fun _ => .ite (leads_pure _) ?_
  cases strrsep left with
  | none => exact leads_pure _
  | some right => exact namedLoop_quiet _ _ _ _ _

theorem named_quiet (pathname : Str) : Leads Quiet (named pathname) := by
  unfold named
  exact .bind (leads_peek _) fun _ => .ite (namedFrom_quiet _ _)
    (.ite (namedFrom_quiet _ _) (leads_pure _))

theorem namei_quiet (pathname : Str) : Leads Quiet (namei pathname) := by
  unfold namei
  refine .bind (named_quiet _) fun r => ?_
  rcases r with - | ⟨dir, next⟩
  · exact leads_pure _
  refine .ite (leads_pure _) (.bind (findEntry_quiet _ _) fun r => ?_)
  rcases r with - | ⟨entry, next⟩
  · exact .bind (iput_quiet _) fun _ => leads_pure _
  · exact .bind (leads_peek _) fun _ => .bind (leads_peek _) fun _ => .bind (iget_quiet _ _) fun _ =>
      .bind (iput_quiet _) fun _ => .bind (brelse_quiet _) fun _ => leads_pure _

theorem mkdirRollback_quiet (ebuf dir : Option ℕ) : Leads Quiet (mkdirRollback ebuf dir) :=
  .bind (brelse_quiet _) fun _ => .bind (iput_quiet _) fun _ => leads_pure _

theorem rmdirRollback_quiet (inode dir ebuf : Option ℕ) (ret : ℕ) :
    Leads Quiet (rmdirRollback inode dir ebuf ret) :=
  .bind (iput_quiet _) fun _ => .bind (iput_quiet _) fun _ => .bind (brelse_quiet _) fun _ => leads_pure _

theorem linkRollback_quiet (buf inode dir : Option ℕ) (ret : ℕ) :
    Leads Quiet (linkRollback buf inode dir ret) :=
  .bind (brelse_quiet _) fun _ => .bind (iput_quiet _) fun _ => .bind (iput_quiet _) fun _ => leads_pure _

theorem openRollback_quiet (buf dir inode : Option ℕ) : Leads Quiet (openRollback buf dir inode) :=
  .bind (brelse_quiet _) fun _ => .bind (iput_quiet _) fun _ => .bind (iput_quiet _) fun _ => leads_pure _

theorem fixed_of_same {α : Type} {m : Prog State α} (h : Leads Same m) : Leads Fixed m :=
  h.mono fun _ _ => Same.fixed

theorem fixed_of_quiet {α : Type} {m : Prog State α} (h : Leads Quiet m) : Leads Fixed m :=
  h.mono fun _ _ => Quiet.fixed

theorem readLoop_quiet (inode : ℕ) (cs : List Chunk) : Leads Quiet (readLoop inode cs) := by
  induction cs with
  | nil => exact leads_pure _
  | cons c cs ih =>
    exact .bind (bmap_quiet _ _) fun _ => .bind (leads_assert _) fun _ => .bind (leads_peek _) fun _ =>
      .bind (bread_quiet _ _) fun _ => .bind (leads_assert _) fun _ => .bind (leads_peek _) fun _ =>
      .bind (brelse_quiet _) fun _ => .bind ih fun _ => leads_pure _

theorem inodeRead_quiet (inode len : ℕ) (offset : ℤ) : Leads Quiet (inodeRead inode len offset) := by
  unfold inodeRead
  exact .bind (leads_peek _) fun _ => .bind (leads_assert _) fun _ => .bind (leads_peek _) fun _ =>
    .ite (leads_pure _) (.bind (readLoop_quiet _ _) fun _ => .bind (touch_quiet _) fun _ => leads_pure _)

end Look

section Seats

theorem seated_of_same {α : Type} {m : Prog State α} (h : Leads Same m) : Leads Seated m :=
  h.mono fun _ _ => Same.seated

theorem modInode_seated (i : ℕ) (f : State → InodeT → InodeT)
    (hf : ∀ s n, (f s n).slot = n.slot ∧ (f s n).buf = n.buf) :
    Leads Seated (poke fun s => s.modInode i (f s)) := leads_poke fun s j => by
  by_cases hj : j = i
  · subst hj
    simpa [State.modInode, State.setInode] using hf s (s.inodeTable j)
  · simp [State.modInode, State.setInode, hj]

theorem touch_seated (inode : ℕ) : Leads Seated (touch inode) :=
  .bind (seated_of_same time_same) fun _ => modInode_seated _ _ fun _ _ => ⟨rfl, rfl⟩

theorem iputInode_seated (inode : ℕ) : Leads Seated (iputInode inode) := by
  unfold iputInode
  exact .bind (leads_peek _) fun _ => .bind (leads_peek _) fun _ =>
    .bind (leads_when (seated_of_same (bwrite_same _))) fun _ =>
    .bind (modInode_seated _ _ fun _ _ => ⟨rfl, rfl⟩) fun _ => .bind (leads_peek _) fun _ =>
    .ite (leads_pure _) (.bind (seated_of_same (brelse_same _)) fun _ => .bind (leads_peek _) fun _ =>
      .bind (leads_assert _) fun _ => .bind (leads_poke fun _ _ => ⟨rfl, rfl⟩) fun _ =>
      .bind (leads_assert _) fun _ => .bind (leads_peek _) fun _ => .bind (leads_assert _) fun _ =>
      modInode_seated _ _ fun _ _ => ⟨rfl, rfl⟩)

theorem iput_seated (inode : Option ℕ) : Leads Seated (iput inode) := by
  cases inode with
  | none => exact leads_pure ()
  | some i => exact iputInode_seated i

/-- The fields of a descriptor are what they were where no block changed and the
inode still points at it. -/
theorem size_congr {s t : State} (hq : Quiet s t) (hs : Seated s t) (i : ℕ) :
    t.size i = s.size i := by
  unfold State.size State.ibuf State.idesc
  rw [hq.data, (hs i).1, (hs i).2]

end Seats

section Calls

theorem poke_fixed {g : State → State} (h : ∀ s, Fixed s (g s)) : Leads Fixed (poke g) :=
  leads_poke h

theorem linkIn_fixed (dir : ℕ) (name : Str) (inode : ℕ) : Leads Fixed (linkIn dir name inode) :=
  .bind (fixed_of_same (addEntry_same _ _)) fun _ =>
    .bind (fixed_of_same (poke_same fun _ => rfl)) fun _ =>
    .bind (fixed_of_same (poke_same fun _ => rfl)) fun _ => .bind (fixed_of_same time_same) fun _ =>
    .bind (poke_fixed fun _ => ⟨rfl, rfl, rfl, rfl, rfl, rfl, rfl, rfl⟩) fun _ => leads_pure _

theorem rmdirIn_fixed (dir inode : ℕ) (entry : Entry) : Leads Fixed (rmdirIn dir inode entry) := by
  unfold rmdirIn
  exact .bind (leads_peek _) fun _ => .bind (leads_assert _) fun _ =>
    .bind (fixed_of_same (freeInode_same _)) fun _ =>
    .bind (fixed_of_same (poke_same fun _ => rfl)) fun _ =>
    .bind (poke_fixed fun _ => ⟨rfl, rfl, rfl, rfl, rfl, rfl, rfl, rfl⟩) fun _ =>
    .bind (fixed_of_same (poke_same fun _ => rfl)) fun _ => .bind (fixed_of_same time_same) fun _ =>
    .bind (poke_fixed fun _ => ⟨rfl, rfl, rfl, rfl, rfl, rfl, rfl, rfl⟩) fun _ =>
    .bind (fixed_of_same (poke_same fun _ => rfl)) fun _ => .bind (leads_peek _) fun _ =>
    .bind (leads_assert _) fun _ => fixed_of_same (poke_same fun _ => rfl)

theorem openIn_fixed (dir : ℕ) (name : Str) (mode : ℕ) : Leads Fixed (openIn dir name mode) :=
  .bind (fixed_of_same (addEntry_same _ _)) fun _ => .bind (leads_peek _) fun _ =>
    .bind (fixed_of_same (ialloc_same _)) fun _ =>
    .bind (fixed_of_same (poke_same fun _ => rfl)) fun _ => .bind (leads_peek _) fun _ =>
    .bind (fixed_of_quiet (iget_quiet _ _)) fun _ =>
    .bind (fixed_of_same (openInode_same _ _)) fun _ => leads_pure _

theorem mkdirIn_fixed (dir : ℕ) (name : Str) (mode : ℕ) : Leads Fixed (mkdirIn dir name mode) :=
  .bind (fixed_of_same (addEntry_same _ _)) fun _ =>
    .bind (fixed_of_same (poke_same fun _ => rfl)) fun _ => .bind (leads_peek _) fun _ =>
    .bind (fixed_of_same (ialloc_same _)) fun _ =>
    .bind (fixed_of_same (poke_same fun _ => rfl)) fun _ => .bind (leads_peek _) fun _ =>
    .bind (fixed_of_quiet (iget_quiet _ _)) fun _ =>
    .bind (fixed_of_same (mkdirInode_same _ _)) fun _ =>
    .bind (fixed_of_same (poke_same fun _ => rfl)) fun _ =>
    .bind (fixed_of_same (poke_same fun _ => rfl)) fun _ =>
    .bind (fixed_of_same (mkdirEntries_same _ _)) fun _ => .bind (fixed_of_quiet (iput_quiet _)) fun _ =>
    .bind (fixed_of_quiet (iput_quiet _)) fun _ => .bind (fixed_of_quiet (brelse_quiet _)) fun _ =>
    .bind (fixed_of_quiet (brelse_quiet _)) fun _ => leads_pure _

theorem makeup_fixed (dir inode buf flag : ℕ) : Leads Fixed (makeup dir inode buf flag) :=
  .bind (leads_peek _) fun _ => .ite (fixed_of_quiet (openRollback_quiet _ _ _))
    (.bind (leads_peek _) fun _ => .ite (fixed_of_quiet (openRollback_quiet _ _ _))
      (.bind (fixed_of_quiet (touch_quiet _)) fun _ =>
      .bind (leads_when (fixed_of_same (inodeTruncate_same _))) fun _ =>
      .bind (fixed_of_quiet (brelse_quiet _)) fun _ => .bind (fixed_of_quiet (iput_quiet _)) fun _ =>
      leads_pure _))

theorem inodeWrite_fixed (inode : ℕ) (bytes : List Byte) (offset : ℤ) :
    Leads Fixed (inodeWrite inode bytes offset) :=
  .bind (leads_peek _) fun _ => .bind (leads_assert _) fun _ =>
    .bind (fixed_of_same (writeLoop_same _ _ _)) fun _ => .bind (fixed_of_quiet (touch_quiet _)) fun _ =>
    .bind (fixed_of_same (poke_same fun _ => rfl)) fun _ => .bind (leads_peek _) fun _ =>
    .bind (fixed_of_same (bwrite_same _)) fun _ => leads_pure _

end Calls

end Onix.Fs
