import Onix.Sanity.FileOps
import Onix.Sanity.ForestCalls
import Onix.Spec.Syscall

/-! Every system call keeps the index trees, and the inodes of tasks and files at descriptors. -/

namespace Onix.Fs

open Function Prog Bytes Cstr

variable {s t u v w : State} {x i j k fd file inode dir flag mode child : ℕ} {X : Set ℕ}
  {name pathname old new : Str} {bytes : List Byte}

section Resits

theorem resits_modInode {f : InodeT → InodeT} (hf : ∀ n, (f n).slot = n.slot ∧ (f n).buf = n.buf) :
    Resits s (s.modInode i f) :=
  modInode_resits i (fun _ => f) (fun _ => hf) s () _ rfl

theorem mkdirIn_resits (dir : ℕ) (name : Str) (mode : ℕ) : Leads Resits (mkdirIn dir name mode) :=
  .bind (resits_of_same (addEntry_same _ _)) fun _ => .bind (resits_of_same (poke_same fun _ => rfl)) fun _ =>
    .bind (leads_peek _) fun _ => .bind (resits_of_same (ialloc_same _)) fun _ =>
    .bind (resits_of_same (poke_same fun _ => rfl)) fun _ => .bind (leads_peek _) fun _ =>
    .bind (iget_resits _ _) fun _ => .bind (resits_of_same (mkdirInode_same _ _)) fun _ =>
    .bind (resits_of_same (poke_same fun _ => rfl)) fun _ =>
    .bind (resits_of_same (poke_same fun _ => rfl)) fun _ =>
    .bind (resits_of_same (mkdirEntries_same _ _)) fun _ => .bind (iput_resits _) fun _ =>
    .bind (iput_resits _) fun _ => .bind (resits_of_same (brelse_same _)) fun _ =>
    .bind (resits_of_same (brelse_same _)) fun _ => leads_pure _

theorem mkdirRollback_resits (e d : Option ℕ) : Leads Resits (mkdirRollback e d) :=
  .bind (resits_of_same (brelse_same _)) fun _ => .bind (iput_resits _) fun _ => leads_pure _

theorem sysMkdir_resits (pathname : Str) (mode : ℕ) : Leads Resits (sysMkdir pathname mode) := by
  unfold sysMkdir
  refine .bind (named_resits _) fun p => ?_
  rcases p with - | ⟨dir, name⟩
  · exact mkdirRollback_resits _ _
  refine .ite (mkdirRollback_resits _ _) (.bind (leads_peek _) fun _ => .ite (mkdirRollback_resits _ _)
    (.bind (resits_of_same (findEntry_same _ _)) fun e => ?_))
  rcases e with - | ⟨entry, next⟩
  · exact mkdirIn_resits _ _ _
  · exact mkdirRollback_resits _ _

theorem rmdirIn_resits (dir inode : ℕ) (e : Entry) : Leads Resits (rmdirIn dir inode e) := by
  have hstamp : ∀ t s, Resits s ((s.setMtime dir t).modInode dir fun n =>
      { n with atime := t, ctime := t }) := by
    intro t s
    have hset : Same s (s.setMtime dir t) := ⟨rfl, rfl, rfl, rfl, rfl, rfl, rfl⟩
    refine trans_of Resits hset.resits (?_ : Resits (s.setMtime dir t) _)
    exact resits_modInode fun _ => ⟨rfl, rfl⟩
  exact .bind (leads_peek _) fun _ => .bind (leads_assert _) fun _ =>
    .bind (resits_of_same (freeInode_same _)) fun _ => .bind (resits_of_same (poke_same fun _ => rfl)) fun _ =>
    .bind (leads_poke fun _ => resits_modInode fun _ => ⟨rfl, rfl⟩) fun _ =>
    .bind (resits_of_same (poke_same fun _ => rfl)) fun _ => .bind (resits_of_same time_same) fun t =>
    .bind (leads_poke (hstamp t)) fun _ =>
    .bind (resits_of_same (poke_same fun _ => rfl)) fun _ => .bind (leads_peek _) fun _ =>
    .bind (leads_assert _) fun _ => resits_of_same (poke_same fun _ => rfl)

theorem rmdirRollback_resits (i d e : Option ℕ) (ret : ℕ) : Leads Resits (rmdirRollback i d e ret) :=
  .bind (iput_resits _) fun _ => .bind (iput_resits _) fun _ => .bind (resits_of_same (brelse_same _))
    fun _ => leads_pure _

theorem sysRmdir_resits (pathname : Str) : Leads Resits (sysRmdir pathname) := by
  unfold sysRmdir
  refine .bind (named_resits _) fun p => ?_
  rcases p with - | ⟨dir, name⟩
  · exact rmdirRollback_resits _ _ _ _
  refine .ite (rmdirRollback_resits _ _ _ _) (.bind (leads_peek _) fun _ =>
    .ite (rmdirRollback_resits _ _ _ _) (.bind (resits_of_same (findEntry_same _ _)) fun e => ?_))
  rcases e with - | ⟨entry, next⟩
  · exact rmdirRollback_resits _ _ _ _
  · exact .bind (leads_peek _) fun _ => .bind (leads_peek _) fun _ => .bind (iget_resits _ _) fun _ =>
      .bind (leads_peek _) fun _ => .ite (rmdirRollback_resits _ _ _ _)
      (.bind (resits_of_same (isEmpty_same _)) fun _ => .ite (rmdirRollback_resits _ _ _ _)
      (.bind (rmdirIn_resits _ _ _) fun _ => rmdirRollback_resits _ _ _ _))

theorem linkIn_resits (dir : ℕ) (name : Str) (inode : ℕ) : Leads Resits (linkIn dir name inode) := by
  have hstamp : ∀ t s, Resits s ((s.modInode inode fun n => { n with ctime := t }).dirtyInode inode) := by
    intro t s
    have hmod : Resits s (s.modInode inode fun n => { n with ctime := t }) :=
      resits_modInode fun _ => ⟨rfl, rfl⟩
    refine trans_of Resits hmod (Same.resits ?_)
    exact ⟨rfl, rfl, rfl, rfl, rfl, rfl, rfl⟩
  exact .bind (resits_of_same (addEntry_same _ _)) fun _ => .bind (resits_of_same (poke_same fun _ => rfl))
    fun _ => .bind (resits_of_same (poke_same fun _ => rfl)) fun _ => .bind (resits_of_same time_same)
    fun t => .bind (leads_poke (hstamp t)) fun _ => leads_pure _

theorem linkRollback_resits (b i d : Option ℕ) (ret : ℕ) : Leads Resits (linkRollback b i d ret) :=
  .bind (resits_of_same (brelse_same _)) fun _ => .bind (iput_resits _) fun _ => .bind (iput_resits _)
    fun _ => leads_pure _

theorem sysLink_resits (old new : Str) : Leads Resits (sysLink old new) := by
  unfold sysLink
  refine .bind (namei_resits _) fun p => ?_
  rcases p with - | inode
  · exact linkRollback_resits _ _ _ _
  refine .bind (leads_peek _) fun _ => .ite (linkRollback_resits _ _ _ _)
    (.bind (named_resits _) fun p => ?_)
  rcases p with - | ⟨dir, name⟩
  · exact linkRollback_resits _ _ _ _
  refine .ite (linkRollback_resits _ _ _ _) (.bind (leads_peek _) fun _ => .bind (leads_peek _) fun _ =>
    .ite (linkRollback_resits _ _ _ _) (.bind (resits_of_same (findEntry_same _ _)) fun e => ?_))
  rcases e with - | ⟨entry, next⟩
  · exact .bind (linkIn_resits _ _ _) fun _ => linkRollback_resits _ _ _ _
  · exact linkRollback_resits _ _ _ _

theorem sysUnlink_resits (pathname : Str) : Leads Resits (sysUnlink pathname) := by
  unfold sysUnlink
  refine .bind (named_resits _) fun p => ?_
  rcases p with - | ⟨dir, name⟩
  · exact linkRollback_resits _ _ _ _
  refine .ite (linkRollback_resits _ _ _ _) (.bind (leads_peek _) fun _ =>
    .ite (linkRollback_resits _ _ _ _) (.bind (resits_of_same (findEntry_same _ _)) fun e => ?_))
  rcases e with - | ⟨entry, next⟩
  · exact linkRollback_resits _ _ _ _
  · exact .bind (leads_peek _) fun _ => .bind (leads_peek _) fun _ => .bind (iget_resits _ _) fun _ =>
      .bind (leads_peek _) fun _ => .ite (linkRollback_resits _ _ _ _) (.bind (leads_peek _) fun _ =>
      .ite (linkRollback_resits _ _ _ _) (.bind (resits_of_same (unlinkIn_same _ _)) fun _ =>
      linkRollback_resits _ _ _ _))

theorem openIn_resits (dir : ℕ) (name : Str) (mode : ℕ) : Leads Resits (openIn dir name mode) :=
  .bind (resits_of_same (addEntry_same _ _)) fun _ => .bind (leads_peek _) fun _ =>
    .bind (resits_of_same (ialloc_same _)) fun _ => .bind (resits_of_same (poke_same fun _ => rfl)) fun _ =>
    .bind (leads_peek _) fun _ => .bind (iget_resits _ _) fun _ =>
    .bind (resits_of_same (openInode_same _ _)) fun _ => leads_pure _

theorem openRollback_resits (b d i : Option ℕ) : Leads Resits (openRollback b d i) :=
  .bind (resits_of_same (brelse_same _)) fun _ => .bind (iput_resits _) fun _ => .bind (iput_resits _)
    fun _ => leads_pure _

theorem makeup_resits (dir inode buf flag : ℕ) : Leads Resits (makeup dir inode buf flag) := by
  unfold makeup
  exact .bind (leads_peek _) fun _ => .ite (openRollback_resits _ _ _) (.bind (leads_peek _) fun _ =>
    .ite (openRollback_resits _ _ _) (.bind (touch_resits _) fun _ =>
    .bind (leads_when (resits_of_same (inodeTruncate_same _))) fun _ =>
    .bind (resits_of_same (brelse_same _)) fun _ => .bind (iput_resits _) fun _ => leads_pure _))

theorem inodeOpen_resits (pathname : Str) (flag mode : ℕ) : Leads Resits (inodeOpen pathname flag mode) := by
  unfold inodeOpen
  refine .bind (named_resits _) fun p => ?_
  rcases p with - | ⟨dir, name⟩
  · exact openRollback_resits _ _ _
  refine .ite (leads_pure _) (.bind (resits_of_same (findEntry_same _ _)) fun e => ?_)
  rcases e with - | ⟨entry, next⟩
  · exact .ite (openRollback_resits _ _ _) (.bind (leads_peek _) fun _ =>
      .ite (openRollback_resits _ _ _) (.bind (openIn_resits _ _ _) fun _ => makeup_resits _ _ _ _))
  · exact .bind (leads_peek _) fun _ => .bind (leads_peek _) fun _ => .bind (iget_resits _ _) fun _ =>
      makeup_resits _ _ _ _

theorem inodeWrite_resits (inode : ℕ) (bytes : List Byte) (offset : ℤ) :
    Leads Resits (inodeWrite inode bytes offset) :=
  .bind (leads_peek _) fun _ => .bind (leads_assert _) fun _ =>
    .bind (resits_of_same (writeLoop_same _ _ _)) fun _ => .bind (touch_resits _) fun _ =>
    .bind (resits_of_same (poke_same fun _ => rfl)) fun _ => .bind (leads_peek _) fun _ =>
    .bind (resits_of_same (bwrite_same _)) fun _ => leads_pure _

end Resits

section Gentle

theorem Sits.of_table (hi : Sits s i) (hl : SameLayout s t) (h : t.inodeTable = s.inodeTable) : Sits t i :=
  hi.imp fun _ hx => hx.of_kept hl (by rw [h]) (by rw [h])

/-- The tables that name inodes have changed, not the inodes. -/
theorem Seats.of_table (hs : Seats s) (hl : SameLayout s t) (hlist : t.sb.inodeList = s.sb.inodeList)
    (h : t.inodeTable = s.inodeTable) (hroot : ∀ i, Sits s (t.tasks i).iroot)
    (hpwd : ∀ i, Sits s (t.tasks i).ipwd)
    (hfile : ∀ f i, (t.fileTable f).inode = some i → Sits s i) : Seats t where
  listed i hi := (hs.listed i (by rw [← hlist]; exact hi)).of_table hl h
  root i := (hroot i).of_table hl h
  pwd i := (hpwd i).of_table hl h
  file f i hi := (hfile f i hi).of_table hl h

/-- No block has other contents, and the inodes of tasks and files are still at descriptors. -/
structure Gentle (s t : State) : Prop where
  layout : SameLayout s t
  data : t.data = s.data
  seats : Seats s → Seats t

instance : IsPreorder State Gentle where
  refl _ := ⟨refl_of SameLayout _, rfl, id⟩
  trans _ _ _ h h' := ⟨trans_of SameLayout h.layout h'.layout, h'.data.trans h.data,
    fun hs => h'.seats (h.seats hs)⟩

theorem gentle_of {α : Type} {m : Prog State α} (hq : Leads Quiet m) (hr : Leads Resits m) : Leads Gentle m := by
  intro s a t h
  have hquiet := hq s a t h
  exact ⟨hquiet.fixed.layout, hquiet.data, fun hs => hs.of_fixed (hr s a t h) hquiet.fixed⟩

theorem iput_gentle (o : Option ℕ) : Leads Gentle (iput o) := gentle_of (iput_quiet o) (iput_resits o)

theorem namei_gentle (pathname : Str) : Leads Gentle (namei pathname) :=
  gentle_of (namei_quiet pathname) (namei_resits pathname)

/-- A `file_t` has changed; its inode has a descriptor. -/
theorem modFile_seats {f : FileT → FileT} (hs : Seats s)
    (hf : ∀ i, (f (s.fileTable file)).inode = some i → Sits s i) : Seats (s.modFile file f) :=
  hs.of_table ⟨rfl, rfl, rfl⟩ rfl rfl hs.root hs.pwd fun g i hi => by
    have htable : (s.modFile file f).fileTable g =
        if g = file then f (s.fileTable file) else s.fileTable g := update_apply ..
    rw [htable] at hi
    split_ifs at hi
    · exact hf i hi
    · exact hs.file g i hi

theorem modFile_gentle (file : ℕ) (f : State → FileT → FileT) (hf : ∀ s n, (f s n).inode = n.inode) :
    Leads Gentle (poke fun s => s.modFile file (f s)) :=
  leads_poke fun s => ⟨⟨rfl, rfl, rfl⟩, rfl, fun hs => modFile_seats hs fun i hi =>
    hs.file file i (by rw [← hf s]; exact hi)⟩

/-- The running task has changed; its directories have descriptors. -/
theorem modTask_seats {f : TaskT → TaskT} (hs : Seats s) (hroot : Sits s (f s.task).iroot)
    (hpwd : Sits s (f s.task).ipwd) : Seats (s.modTask f) := by
  have htask : ∀ i, (s.modTask f).tasks i = if i = s.running then f s.task else s.tasks i :=
    fun i => update_apply ..
  refine hs.of_table ⟨rfl, rfl, rfl⟩ rfl rfl (fun i => ?_) (fun i => ?_) hs.file
  · rw [htask]
    split_ifs
    · exact hroot
    · exact hs.root i
  · rw [htask]
    split_ifs
    · exact hpwd
    · exact hs.pwd i

theorem modTask_gentle (f : State → TaskT → TaskT)
    (hf : ∀ s t, (f s t).iroot = t.iroot ∧ (f s t).ipwd = t.ipwd) :
    Leads Gentle (poke fun s => s.modTask (f s)) :=
  leads_poke fun s => ⟨⟨rfl, rfl, rfl⟩, rfl, fun hs => modTask_seats hs
    (by rw [(hf s s.task).1]; exact hs.root s.running) (by rw [(hf s s.task).2]; exact hs.pwd s.running)⟩

end Gentle

section Run

/-- The index trees are trees, and the inodes of tasks and files are at descriptors. -/
structure Consistent (s : State) : Prop where
  trees : Trees s
  seats : Seats s

/-- The state is consistent again, and no data zone in use has dropped out of the trees. -/
structure Endures (s t : State) : Prop where
  consistent : Consistent t
  tight : Tight s → Tight t

theorem Endures.trans (h : Endures s t) (h' : Endures t u) : Endures s u :=
  ⟨h'.consistent, fun hs => h'.tight (h.tight hs)⟩

theorem Consistent.gentle (h : Consistent s) (hc : Gentle s t) : Endures s t :=
  ⟨⟨(h.trees.data (X := ∅) hc.layout hc.data).trees, hc.seats h.seats⟩,
    (h.trees.data (X := ∅) hc.layout hc.data).grown.tight⟩

theorem Consistent.tends (h : Consistent s) (ht : Tends s t) (hr : Resits s t) (hf : Fixed s t) :
    Endures s t :=
  ⟨⟨ht.trees, h.seats.of_fixed hr hf⟩, ht.tight⟩

theorem Consistent.enter (h : Consistent s) (i : ℕ) : Endures s (s.enter i) :=
  h.gentle ⟨⟨rfl, rfl, rfl⟩, rfl, fun hs => hs.of_table ⟨rfl, rfl, rfl⟩ rfl rfl hs.root hs.pwd hs.file⟩

/-- Every directory has the index blocks that one more entry may need. -/
def Spacious (s : State) : Prop := ∀ x ≤ s.sb.desc.inodes, isDir (s.modeNr x) = true → Appendable s x

/-- The way along a path to a directory in which a name has been looked up. -/
structure Led (s : State) (dir : ℕ) (v : State) : Prop where
  quiet : Quiet s v
  resits : Resits s v
  sits : Sits v dir
  isDir : isDir (v.mode dir) = true

theorem findEntry_isDir {o : Option (Entry × Str)} (h : findEntry dir name s = some (o, t)) :
    isDir (t.mode dir) = true := by
  have hq := findEntry_quiet _ _ _ _ _ h
  have hs := findEntry_same _ _ _ _ _ h
  unfold findEntry at h
  rw [peek_bind] at h
  obtain ⟨⟨⟩, u, hu, -⟩ := bind_eq_some.mp h
  unfold State.mode State.ibuf State.idesc
  rw [hq.data, hs.inodeTable]
  exact (assert_eq_some.mp hu).1

theorem Seats.led {o : Option (Entry × Str)} (hs : Seats s)
    (hn : Fs.named pathname s = some (some (dir, name), u)) (hf : findEntry dir name u = some (o, v)) :
    Led s dir v where
  quiet := trans_of Quiet (named_quiet _ _ _ _ hn) (findEntry_quiet _ _ _ _ _ hf)
  resits := trans_of Resits (named_resits _ _ _ _ hn) (findEntry_same _ _ _ _ _ hf).resits
  sits := (findEntry_same _ _ _ _ _ hf).sits (hs.named hn)
  isDir := findEntry_isDir hf

theorem Quiet.appendable (hq : Quiet s v) (hx : x ≤ s.sb.desc.inodes) (h : Appendable s x) :
    Appendable v x :=
  hq.heads.appendable (hq.grown (X := ∅)) hx h

/-- The directory can get one more entry. -/
theorem Led.room (hl : Led s dir v) (h : Fresh s ∨ Spacious s) (x : ℕ) (hi : Seat v dir x) :
    Fresh v ∨ Appendable v x := by
  have hx : x ≤ s.sb.desc.inodes := by
    rw [← hl.quiet.fixed.desc]
    exact hi.le
  refine h.imp (hl.quiet.grown (X := ∅)).fresh fun hroom => hl.quiet.appendable hx (hroom x hx ?_)
  rw [← hl.quiet.heads.mode hx, ← hi.mode]
  exact hl.isDir

theorem Consistent.sysMkdir {r : ℕ} (h : Consistent s) (hnew : Fresh s ∨ Spacious s)
    (hr : sysMkdir pathname mode s = some (r, t)) : Endures s t := by
  refine h.tends ?_ (sysMkdir_resits _ _ _ _ _ hr) (sysMkdir_fixed _ _ _ _ _ hr)
  obtain ⟨-, hq⟩ | ⟨dir, name, u, v, hp, hf, hm⟩ := sysMkdir_cases hr
  · exact h.trees.tends_quiet hq
  have hl := h.seats.led hp.named hf
  have hv := h.trees.tends_quiet hl.quiet
  exact hv.trans (hv.trees.mkdirIn (hl.resits.listed h.seats.listed) hl.sits (hl.room hnew) hm).tends

theorem Consistent.sysLink {r : ℕ} (h : Consistent s) (hnew : Fresh s ∨ Spacious s)
    (hr : sysLink old new s = some (r, t)) : Endures s t := by
  refine h.tends ?_ (sysLink_resits _ _ _ _ _ hr) (sysLink_fixed _ _ _ _ _ hr)
  obtain ⟨-, hq⟩ | ⟨inode, dir, name, v, w, entry, hl, hi, -, hq⟩ := sysLink_cases hr
  · exact h.trees.tends_quiet hq
  obtain ⟨u, u', hold, -, hnamed, -, -, hf⟩ := hl.reached
  have hu := h.gentle (namei_gentle _ _ _ _ hold)
  have hled := hu.consistent.seats.led hnamed hf
  have hv := hu.consistent.trees.tends_quiet hled.quiet
  have hgrown := (namei_quiet _ _ _ _ hold).grown (X := ∅)
  have hnew' : Fresh u ∨ Spacious u := by
    refine hnew.imp hgrown.fresh fun hroom x hx hdir => ?_
    rw [hgrown.layout.desc] at hx
    rw [(namei_quiet _ _ _ _ hold).heads.mode hx] at hdir
    exact (namei_quiet _ _ _ _ hold).appendable hx (hroom x hx hdir)
  have hsits : Sits v inode := hled.resits.sits inode (h.seats.namei hold)
  have hw := hv.trees.linkIn hled.sits hsits (hled.room hnew') hi
  exact ((h.trees.tends_quiet (namei_quiet _ _ _ _ hold)).trans hv).trans
    (hw.tends.trans (hw.trees.tends_quiet hq))

/-- The entry that has been found and its inode. -/
structure Grasped (s : State) (dir inode : ℕ) (e : Entry) (u : State) : Prop where
  quiet : Quiet s u
  dir : Sits u dir
  inode : Sits u inode
  page : Page anywhere u e.buf
  allocated : Allocated u e.buf

theorem Consistent.grasped {e : Entry} {next : Str} {dev : ℤ} {nr : ℕ} (h : Consistent s)
    (hn : named pathname s = some (some (dir, name), v))
    (hf : findEntry dir name v = some (some (e, next), w)) (hg : iget dev nr w = some (inode, u)) :
    Grasped s dir inode e u := by
  have hl := h.seats.led hn hf
  have hq := iget_quiet _ _ _ _ _ hg
  have hv := h.trees.tends_quiet (named_quiet _ _ _ _ hn)
  have hw := h.trees.tends_quiet hl.quiet
  obtain ⟨x, hx⟩ := h.seats.named hn
  have hxw : x ≤ w.sb.desc.inodes := ((findEntry_same _ _ _ _ _ hf).seat hx).le
  obtain ⟨hpage, halloc⟩ := (hv.trees.findEntry hx hf).page hw.trees hxw (Set.mem_univ x)
  exact ⟨trans_of Quiet hl.quiet hq, (iget_resits _ _ _ _ _ hg).sits dir hl.sits,
    iget_sits (hl.resits.listed h.seats.listed) hg, hpage.quiet hq, (hq.grown (X := ∅)).allocated _ halloc⟩

theorem Consistent.sysUnlink {r : ℕ} (h : Consistent s) (hr : sysUnlink pathname s = some (r, t)) :
    Endures s t := by
  refine h.tends ?_ (sysUnlink_resits _ _ _ _ hr) (sysUnlink_fixed _ _ _ _ hr)
  obtain ⟨-, hq⟩ | ⟨dir, inode, entry, u, w, hfound, -, hun, -, hq⟩ := sysUnlink_cases hr
  · exact h.trees.tends_quiet hq
  obtain ⟨name, next, v, v', hp, hf, hg⟩ := hfound.parent
  have hgr := h.grasped hp.named hf hg
  have hu := h.trees.tends_quiet hgr.quiet
  have hw := hu.trees.unlinkIn hgr.inode hgr.page hgr.allocated hun
  exact (hu.trans hw).trans (hw.trees.tends_quiet hq)

theorem Consistent.sysRmdir {r : ℕ} (h : Consistent s) (hr : sysRmdir pathname s = some (r, t)) :
    Endures s t := by
  refine h.tends ?_ (sysRmdir_resits _ _ _ _ hr) (sysRmdir_fixed _ _ _ _ hr)
  obtain ⟨-, hq⟩ | ⟨dir, inode, entry, u, v, w, hfound, -, hempty, hrm, -, hq⟩ := sysRmdir_cases hr
  · exact h.trees.tends_quiet hq
  obtain ⟨name, next, v', v'', hp, hf, hg⟩ := hfound.parent
  have hgr := h.grasped hp.named hf hg
  have hsame := isEmpty_same _ _ _ _ hempty
  have hqv := isEmpty_quiet _ _ _ _ hempty
  have hv := h.trees.tends_quiet (trans_of Quiet hgr.quiet hqv)
  have hw := hv.trees.rmdirIn (hsame.sits hgr.dir) (hsame.sits hgr.inode) (hgr.page.quiet hqv) hrm
  exact (hv.trans hw).trans (hw.trees.tends_quiet hq)

/-- The inode that `inode_open` returns has a descriptor. -/
theorem Consistent.inodeOpen {o : Option ℕ} (h : Consistent s) (hnew : Fresh s ∨ Spacious s)
    (hr : inodeOpen pathname flag mode s = some (o, t)) :
    Endures s t ∧ ∀ i, o = some i → Sits t i := by
  have hresits := inodeOpen_resits _ _ _ _ _ _ hr
  have hfixed := inodeOpen_fixed _ _ _ _ _ _ hr
  -- `makeup` returns the inode it was given, if it returns one
  have hmade : ∀ {dir i b flag : ℕ} {w : State}, Tends s w → Sits w i →
      makeup dir i b flag w = some (o, t) → Tends s t ∧ ∀ j, o = some j → Sits t j := by
    intro dir i b flag w hw hi hm
    refine ⟨hw.trans (hw.trees.makeup hi hm), fun j hj => ?_⟩
    obtain ⟨hnone, -⟩ | ⟨hsome, -⟩ := makeup_cases hm
    · rw [hnone] at hj
      cases hj
    · obtain rfl := Option.some.inj (hsome.symm.trans hj)
      exact (makeup_resits _ _ _ _ _ _ _ hm).sits i hi
  suffices hgoal : Tends s t ∧ ∀ j, o = some j → Sits t j from ⟨h.tends hgoal.1 hresits hfixed, hgoal.2⟩
  cases inodeOpen_cases hr with
  | quiet ho hq =>
    refine ⟨h.trees.tends_quiet hq, fun j hj => ?_⟩
    rw [ho] at hj
    cases hj
  | parent dir name hn hname ho =>
    refine ⟨h.trees.tends_quiet (named_quiet _ _ _ _ hn), fun j hj => ?_⟩
    obtain rfl := Option.some.inj (ho.symm.trans hj)
    exact h.seats.named hn
  | old dir name next u v w entry inode hn hname hf hi hm =>
    have hgr := h.grasped hn hf hi
    exact hmade (h.trees.tends_quiet hgr.quiet) hgr.inode hm
  | new dir name u v w entry inode hn hname hf hcreat hp hi hm =>
    have hl := h.seats.led hn hf
    have hv := h.trees.tends_quiet hl.quiet
    obtain ⟨hg, hsits⟩ := hv.trees.openIn (hl.resits.listed h.seats.listed) hl.sits (hl.room hnew) hi
    exact hmade (hv.trans hg.tends) hsits hm

theorem Consistent.sysOpen {r : ℕ} (h : Consistent s) (hnew : Fresh s ∨ Spacious s)
    (hr : sysOpen name flag mode s = some (r, t)) : Endures s t := by
  unfold Fs.sysOpen at hr
  obtain ⟨o, u, hu, k⟩ := bind_eq_some.mp hr
  obtain ⟨hopen, hsits⟩ := h.inodeOpen hnew hu
  cases o with
  | none =>
    obtain ⟨-, rfl⟩ := Prod.mk.inj (Option.some.inj k)
    exact hopen
  | some inode =>
    obtain ⟨file, -, -, rfl⟩ := openFile_eq k
    refine hopen.trans (hopen.consistent.gentle ⟨⟨rfl, rfl, rfl⟩, rfl, fun hs => ?_⟩)
    have htask : Seats (u.modTask fun t => t.setFd r (some file)) :=
      modTask_seats hs (hs.root u.running) (hs.pwd u.running)
    refine modFile_seats htask fun i hi => ?_
    obtain rfl := Option.some.inj hi
    exact (hsits inode rfl).of_table ⟨rfl, rfl, rfl⟩ rfl

theorem Consistent.sysWrite {n : ℕ} (h : Consistent s)
    (hnew : Fresh s ∨ ∀ file inode x, s.task.files fd = some file → (s.fileTable file).inode = some inode →
      Seat s inode x → Ready s x (chunks bytes.length bytes.length (s.fileTable file).offset))
    (hr : sysWrite fd bytes s = some (n, t)) : Endures s t := by
  obtain ⟨file, hfile, ⟨-, -, rfl⟩ | ⟨-, inode, u, hinode, hw, rfl⟩⟩ := sysWrite_cases hr
  · exact ⟨h, id⟩
  obtain ⟨x, hx⟩ := h.seats.file file inode hinode
  have hg := h.trees.inodeWrite hx (Set.mem_univ x) (hnew.elim .inl fun hall => hall _ _ x hfile hinode hx) hw
  have hu := h.tends hg.tends (inodeWrite_resits _ _ _ _ _ _ hw) (inodeWrite_fixed _ _ _ _ _ _ hw)
  refine hu.trans (hu.consistent.gentle (modFile_gentle file
    (fun _ f => { f with offset := i32 (f.offset + n) }) (fun _ _ => rfl) u () _ rfl))

/-- One of the directories of the running task is another one. -/
theorem Consistent.sysChdir {r : ℕ} (h : Consistent s) (hr : sysChdir pathname s = some (r, t)) :
    Endures s t := by
  unfold Fs.sysChdir at hr
  rw [peek_bind] at hr
  obtain ⟨o, u, hu, k₁⟩ := bind_eq_some.mp hr
  have hcu := h.gentle (namei_gentle _ _ _ _ hu)
  cases o with
  | none =>
    obtain ⟨-, rfl⟩ := Prod.mk.inj (Option.some.inj k₁)
    exact hcu
  | some inode =>
    have hsits : Sits u inode := h.seats.namei hu
    dsimp only at k₁
    rw [peek_bind] at k₁
    split_ifs at k₁ with hsame
    · obtain ⟨⟨⟩, v, hv, k₂⟩ := bind_eq_some.mp k₁
      obtain ⟨-, rfl⟩ := Prod.mk.inj (Option.some.inj k₂)
      exact hcu.trans (hcu.consistent.gentle (iput_gentle _ _ _ _ hv))
    · obtain ⟨pwd, u', hl, k₂⟩ := bind_eq_some.mp k₁
      obtain ⟨-, rfl⟩ := lift_eq_some.mp hl
      obtain ⟨⟨⟩, v, hv, k₃⟩ := bind_eq_some.mp k₂
      have hmod := modTask_gentle (fun _ t => { t with pwd := pwd }) (fun _ _ => ⟨rfl, rfl⟩) _ _ _ hv
      have hcv := hcu.trans (hcu.consistent.gentle hmod)
      have hsv : Sits v inode := by
        obtain ⟨-, rfl⟩ := Prod.mk.inj (Option.some.inj hv)
        exact hsits.of_table ⟨rfl, rfl, rfl⟩ rfl
      obtain ⟨⟨⟩, w, hw, k₄⟩ := bind_eq_some.mp k₃
      have hcw := hcv.trans (hcv.consistent.gentle (iput_gentle _ _ _ _ hw))
      rw [poke_bind] at k₄
      obtain ⟨-, rfl⟩ := Prod.mk.inj (Option.some.inj k₄)
      refine hcw.trans (hcw.consistent.gentle ⟨⟨rfl, rfl, rfl⟩, rfl, fun hs => ?_⟩)
      exact modTask_seats hs (hs.root w.running) ((iput_resits _ _ _ _ hw).sits inode hsv)

theorem Consistent.sysChroot {r : ℕ} (h : Consistent s) (hr : sysChroot pathname s = some (r, t)) :
    Endures s t := by
  unfold Fs.sysChroot at hr
  rw [peek_bind] at hr
  obtain ⟨o, u, hu, k₁⟩ := bind_eq_some.mp hr
  have hcu := h.gentle (namei_gentle _ _ _ _ hu)
  cases o with
  | none =>
    obtain ⟨-, rfl⟩ := Prod.mk.inj (Option.some.inj k₁)
    exact hcu
  | some inode =>
    have hsits : Sits u inode := h.seats.namei hu
    dsimp only at k₁
    rw [peek_bind] at k₁
    split_ifs at k₁ with hsame
    · obtain ⟨⟨⟩, v, hv, k₂⟩ := bind_eq_some.mp k₁
      obtain ⟨-, rfl⟩ := Prod.mk.inj (Option.some.inj k₂)
      exact hcu.trans (hcu.consistent.gentle (iput_gentle _ _ _ _ hv))
    · obtain ⟨⟨⟩, w, hw, k₂⟩ := bind_eq_some.mp k₁
      have hcw := hcu.trans (hcu.consistent.gentle (iput_gentle _ _ _ _ hw))
      rw [poke_bind] at k₂
      obtain ⟨-, rfl⟩ := Prod.mk.inj (Option.some.inj k₂)
      refine hcw.trans (hcw.consistent.gentle ⟨⟨rfl, rfl, rfl⟩, rfl, fun hs => ?_⟩)
      exact modTask_seats hs ((iput_resits _ _ _ _ hw).sits inode hsits) (hs.pwd w.running)

/-- The index blocks that the call may need are there. -/
def SysCall.Fits (s : State) : SysCall → Prop
  | .open _ _ _ | creat _ _ | mkdir _ _ | link _ _ => Spacious s
  | write fd bytes => ∀ file inode x, s.task.files fd = some file →
      (s.fileTable file).inode = some inode → Seat s inode x →
      ∀ c ∈ chunks bytes.length bytes.length (s.fileTable file).offset, c.block < TOTAL_BLOCK →
        Indexed s x (path c.block)
  | _ => True

end Run

end Onix.Fs
