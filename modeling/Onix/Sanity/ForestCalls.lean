import Onix.Sanity.Contents
import Onix.Sanity.ForestDir

/-! The calls on files and names keep the index trees. -/

namespace Onix.Fs

open Function Prog Bytes Cstr

variable {s t u v w : State} {x y i j b c k n r inode dir flag mode : ℕ} {dev : ℤ} {X : Set ℕ}
  {name pathname next old new : Str} {e : Entry} {bytes : List Byte} {offset : ℤ}

section Write

theorem Trees.addEntry (h : Trees s) (hi : Seat s dir x) (hX : x ∈ X) (hnew : Fresh s ∨ Appendable s x)
    (hr : addEntry dir name s = some (e, t)) : Grows X s t ∧ InFile t x e.buf := by
  unfold Fs.addEntry at hr
  obtain ⟨o, u, hu, k⟩ := bind_eq_some.mp hr
  have hq := findEntry_quiet _ _ _ _ _ hu
  have hg : Grows X s u := h.quiet hq
  rcases o with - | ⟨e', next⟩
  · obtain ⟨⟨⟩, v, hv, k₁⟩ := bind_eq_some.mp k
    obtain ⟨-, rfl⟩ := assert_eq_some.mp hv
    obtain ⟨hlast, hin⟩ := hg.trees.addLoop ((findEntry_same _ _ _ _ _ hu).seat hi) hX
      (fun _ he => by cases he) (Nat.zero_le _)
      (hnew.imp hg.grown.fresh (hq.heads.appendable hg.grown hi.le)) k₁
    exact ⟨hg.trans hlast, hin⟩
  · obtain ⟨rfl, rfl⟩ := Prod.mk.inj (Option.some.inj k)
    exact ⟨hg, h.findEntry hi hu⟩

/-- The blocks of the chunk are there or index blocks will be made of fresh ones. -/
def Ready (s : State) (x : ℕ) (cs : List Chunk) : Prop :=
  Fresh s ∨ ∀ c ∈ cs, c.block < TOTAL_BLOCK → Indexed s x (path c.block)

theorem Ready.grown {cs : List Chunk} (h : Ready s x cs) (hx : x ≤ s.sb.desc.inodes) (hg : Grown X s t) :
    Ready t x cs :=
  h.imp hg.fresh fun hall c hc hk => hg.indexed hx (way_path hk) (hall c hc hk)

/-- One turn of the loop of `inode_write`: from `s` to `u` block `d` of the file is found or made,
from there to `t` it is filled. -/
structure ChunkWritten (x : ℕ) (c : Chunk) (bytes : List Byte) (s u : State) (d : ℕ) (t : State) :
    Prop where
  trees : Trees u
  built : Built x s u
  lt : c.block < TOTAL_BLOCK
  node : u.nodeNr x (path c.block) = some d
  inside : c.Inside
  grows : Grows {x} u t
  nodes : ∀ p, Way p → t.nodeNr x p = u.nodeNr x p
  page : t.data d = (u.data d).write c.start bytes
  other : ∀ b, IsZone u b → b ≠ d → t.data b = u.data b
  mode : t.modeNr x = u.modeNr x
  size : t.sizeNr x = max (u.sizeNr x) (u32 (c.offset + c.chars))

theorem grow_size_fields : Fields inode s (s.grow inode n) := by
  unfold State.grow
  split_ifs
  · exact trans_of (Fields inode) (setSize_fields n) (setDirty_fields _)
  · exact refl_of (Fields inode) s

theorem Trees.chunkWritten {c : Chunk} (h : Trees s) (hi : Seat s inode x) (hnew : Ready s x [c])
    {y : Unit} (hr : writeChunk inode c bytes s = some (y, t)) :
    ∃ u d, ChunkWritten x c bytes s u d t := by
  unfold writeChunk at hr
  obtain ⟨b, u, hb, k₁⟩ := bind_eq_some.mp hr
  have hk := bmap_block hb
  obtain ⟨htree, hbuilt, hnode⟩ := h.bmap hi
    (hnew.imp id fun hall => hall c (List.mem_singleton_self c) hk) hb
  have hiu : Seat u inode x := (bmap_same _ _ _ _ _ _ hb).seat hi
  obtain ⟨⟨⟩, u', hu', k₂⟩ := bind_eq_some.mp k₁
  obtain ⟨-, rfl⟩ := assert_eq_some.mp hu'
  rw [peek_bind] at k₂
  obtain ⟨d, v, hd, k₃⟩ := bind_eq_some.mp k₂
  obtain rfl := bread_eq hd
  have hqv : Quiet u' v := bread_quiet _ _ _ _ _ hd
  have hv : Grows {x} u' v := htree.quiet hqv
  have hiv : Seat v inode x := (bread_same _ _ _ _ _ hd).seat hiu
  rw [poke_bind, peek_bind, bind_of_eq when_grow] at k₃
  obtain ⟨⟨⟩, w', hw', k₄⟩ := bind_eq_some.mp k₃
  obtain ⟨hin, rfl⟩ := assert_eq_some.mp hw'
  rw [poke_bind] at k₄
  let e := u32 (c.offset + c.chars)
  have hlt : e < 2 ^ 32 := by
    unfold e u32
    omega
  have hfields : Fields inode v ((v.setDirty d).grow inode e) :=
    trans_of (Fields inode) (setDirty_fields d) grow_size_fields
  have hw : Grows {x} v ((v.setDirty d).grow inode e) := hv.trees.fields hiv rfl hfields
  have hiw : Seat ((v.setDirty d).grow inode e) inode x := hfields.seat hiv
  obtain ⟨hsize, hmode⟩ : ((v.setDirty d).grow inode e).size inode = max (v.size inode) e ∧
      ((v.setDirty d).grow inode e).mode inode = v.mode inode := grow_fields (s := v.setDirty d) hlt
  have hinw : InFile ((v.setDirty d).grow inode e) x d :=
    InFile.grown ⟨_, hk, hnode⟩ hiu.le (hv.trans hw).grown
  obtain ⟨hpage, halloc⟩ := hinw.page hw.trees hiw.le (Set.mem_singleton x)
  have hset : Writes d ((v.setDirty d).grow inode e) (((v.setDirty d).grow inode e).setData d
      ((((v.setDirty d).grow inode e).data d).write c.start bytes)) := setData_writes _
  have hs := hw.trees.writes hpage halloc hset
  have hqt := brelse_quiet _ _ _ _ k₄
  have ht : Grows {x} _ t := hs.trees.quiet hqt
  have hit : Seat t inode x := (brelse_same _ _ _ _ k₄).seat (hset.same.seat hiw)
  have hzone : ∀ b, IsZone u' b → ((v.setDirty d).grow inode e).data b = u'.data b := by
    intro b hb
    rw [← congrFun hqv.data b]
    refine hfields.data b ?_
    rw [hiv.buf]
    rintro rfl
    exact (hv.trees.sited.desc x hiv.le).2 (hv.grown.layout.isZone.mpr hb)
  have hdesc : t.data (t.ibuf inode) = ((v.setDirty d).grow inode e).data (t.ibuf inode) := by
    rw [hqt.data]
    refine hset.data _ ?_
    rw [hit.buf]
    rintro rfl
    exact (ht.trees.sited.desc x hit.le).2 ((hs.trans ht).grown.layout.isZone.mpr hpage.zone)
  have hfield : t.size inode = ((v.setDirty d).grow inode e).size inode ∧
      t.mode inode = ((v.setDirty d).grow inode e).mode inode := by
    have htable : t.inodeTable = ((v.setDirty d).grow inode e).inodeTable :=
      (brelse_same _ _ _ _ k₄).inodeTable.trans hset.same.inodeTable
    unfold State.ibuf at hdesc
    unfold State.size State.mode State.ibuf State.idesc
    rw [hdesc, htable]
    exact ⟨rfl, rfl⟩
  refine ⟨u', d, htree, hbuilt, hk, hnode, of_decide_eq_true hin, (hv.trans hw).trans (hs.trans ht),
    fun p hp => ?_, ?_, fun b hb hbd => ?_, ?_, ?_⟩
  · have hle : x ≤ v.sb.desc.inodes := hiv.le
    have hk₁ : SameTrees u' v := .of_data hqv.fixed.layout hqv.data
    have hk₂ := hfields.kept hv.trees hiv
    have hk₃ := hset.kept hw.trees hpage
    have hk₄ : SameTrees _ t := .of_data hqt.fixed.layout hqt.data
    exact (trans_of SameTrees (trans_of SameTrees hk₁ hk₂) (trans_of SameTrees hk₃ hk₄)).nodes x hiu.le p
      (.inr hp)
  · rw [hqt.data, data_setData, update_self, hzone d (htree.zone x hiu.le _ d (way_path hk) hnode).1]
  · rw [hqt.data, hset.data b hbd, hzone b hb]
  · rw [← hit.mode, hfield.2, hmode, hiv.mode]
    exact hqv.heads.mode hiu.le
  · rw [← hit.size, hfield.1, hsize, hiv.size, hqv.heads.size hiu.le]

theorem Trees.writeChunk {c : Chunk} (h : Trees s) (hi : Seat s inode x) (hX : x ∈ X)
    (hnew : Ready s x [c]) {y : Unit} (hr : writeChunk inode c bytes s = some (y, t)) : Grows X s t := by
  obtain ⟨u, d, hw⟩ := h.chunkWritten hi hnew hr
  have hu : Grows {x} s u := ⟨hw.trees, hw.built.grown⟩
  exact (hu.trans hw.grows).mono (Set.singleton_subset_iff.mpr hX)

theorem Trees.writeLoop {cs : List Chunk} (h : Trees s) (hi : Seat s inode x) (hX : x ∈ X)
    (hnew : Ready s x cs) {y : Unit} (hr : writeLoop inode cs bytes s = some (y, t)) : Grows X s t := by
  induction cs generalizing s bytes with
  | nil =>
    obtain ⟨-, rfl⟩ := Prod.mk.inj (Option.some.inj hr)
    exact ⟨h, refl_of (Grown X) _⟩
  | cons c cs ih =>
    obtain ⟨⟨⟩, u, hu, k⟩ := bind_eq_some.mp hr
    have hg := h.writeChunk hi hX (hnew.imp id fun hall d hd => by
      obtain rfl := List.mem_singleton.mp hd
      exact hall d List.mem_cons_self) hu
    refine hg.trans (ih hg.trees ((writeChunk_same _ _ _ _ _ _ hu).seat hi) ?_ k)
    have hrest : Ready s x cs := hnew.imp id fun hall d hd => hall d (List.mem_cons_of_mem c hd)
    exact hrest.grown hi.le hg.grown

/-- `inode_write` of an inode. -/
theorem Trees.inodeWrite (h : Trees s) (hi : Seat s inode x) (hX : x ∈ X)
    (hnew : Ready s x (chunks bytes.length bytes.length offset))
    (hr : inodeWrite inode bytes offset s = some (r, t)) : Grows X s t := by
  unfold Fs.inodeWrite at hr
  rw [peek_bind] at hr
  obtain ⟨⟨⟩, s', hs', k₁⟩ := bind_eq_some.mp hr
  obtain ⟨-, rfl⟩ := assert_eq_some.mp hs'
  obtain ⟨⟨⟩, u, hu, k₂⟩ := bind_eq_some.mp k₁
  have hg := h.writeLoop hi hX hnew hu
  have hiu : Seat u inode x := (writeLoop_same _ _ _ _ _ _ hu).seat hi
  obtain ⟨⟨⟩, v, hv, k₃⟩ := bind_eq_some.mp k₂
  have hq : Grows X u v := hg.trees.quiet (touch_quiet _ _ _ _ hv)
  have hseated : Seated u v := by
    have htouch : Leads Seated (touch inode) := touch_seated inode
    exact htouch _ _ _ hv
  have hiv : Seat v inode x := hiu.of_kept hq.grown.layout (hseated inode).2 (hseated inode).1
  rw [poke_bind, peek_bind] at k₃
  obtain ⟨⟨⟩, w, hw, k₄⟩ := bind_eq_some.mp k₃
  obtain ⟨-, rfl⟩ := Prod.mk.inj (Option.some.inj k₄)
  have hset := hq.trees.fields hiv hX (setMtime_fields (v.inodeTable inode).atime)
  exact (hg.trans hq).trans (hset.trans (hset.trees.quiet (bwrite_quiet _ _ _ _ hw)))

end Write

section Tends

/-- The trees are still trees, and no data zone in use has dropped out of them. -/
structure Tends (s t : State) : Prop where
  trees : Trees t
  tight : Tight s → Tight t

theorem Tends.trans (h : Tends s t) (h' : Tends t u) : Tends s u :=
  ⟨h'.trees, fun hs => h'.tight (h.tight hs)⟩

theorem Grows.tends (h : Grows X s t) : Tends s t := ⟨h.trees, h.grown.tight⟩

theorem Trees.tends_quiet (h : Trees s) (hq : Quiet s t) : Tends s t :=
  Grows.tends (X := ∅) (h.quiet hq)

theorem Pruned.tends (h : Pruned x s t) (hs : Trees s) (hx : x ≤ s.sb.desc.inodes) : Tends s t :=
  ⟨h.trees hs hx, h.tight⟩

theorem Trees.tends_truncate (h : Trees s) (hi : Seat s inode x) {y : Unit}
    (hr : inodeTruncate inode s = some (y, t)) : Tends s t := by
  obtain ⟨-, rfl⟩ | ⟨-, hp⟩ := h.truncate hi hr
  · exact ⟨h, id⟩
  · exact hp.tends h hi.le

/-- The writing of a block that has no cells, wherever it is. -/
theorem Trees.tends_writes (h : Trees s) (hb : Page X s b) (hw : Writes b s t) : Tends s t := by
  have hkept := hw.kept h hb
  refine ⟨h.kept hkept, fun htight c hz hc => ?_⟩
  obtain ⟨x, hx, p, hp, hnode⟩ := htight c (hkept.layout.isZone.mp hz) (hkept.allocated.mp hc)
  rw [hkept.layout.desc]
  exact ⟨x, hx, p, hp, by rw [hkept.nodes x hx p (.inr hp)]; exact hnode⟩

/-- Where an entry that is written may be. -/
theorem Trees.freeInode (h : Trees s) (hi : Seat s inode x) (hb : Page X s b) {y : Unit}
    (hr : freeInode inode s = some (y, t)) : Tends s t ∧ Page X t b := by
  unfold Fs.freeInode at hr
  obtain ⟨⟨⟩, u, hu, k⟩ := bind_eq_some.mp hr
  rw [peek_bind, peek_bind] at k
  have hstep : Tends s u ∧ Page X u b := by
    obtain ⟨-, rfl⟩ | ⟨-, hp⟩ := h.truncate hi hu
    · exact ⟨⟨h, id⟩, hb⟩
    · exact ⟨hp.tends h hi.le, hb.pruned hp⟩
  have hm := (ifree_marks _ _ _ _ _ k).grown (X := X) hstep.1.trees
  exact ⟨hstep.1.trans (Grows.tends ⟨hstep.1.trees.kept hm.1, hm.2⟩), hstep.2.kept hm.1⟩

end Tends

section Parts

theorem Page.fields (hb : Page X s b) (h : Trees s) (hi : Seat s i x) (hf : Fields i s t) : Page X t b :=
  hb.kept (hf.kept h hi)

theorem Page.quiet (hb : Page X s b) (hq : Quiet s t) : Page X t b :=
  hb.kept (.of_data hq.fixed.layout hq.data)

theorem mkdirInode_fields (inode mode : ℕ) : Leads (Fields inode) (mkdirInode inode mode) :=
  .bind (leads_poke fun _ => setDirty_fields _) fun _ => .bind (leads_poke fun _ => setGid_fields _) fun _ =>
    .bind (leads_poke fun _ => setUid_fields _) fun _ => .bind (leads_poke fun _ => setMode_fields _) fun _ =>
    .bind (leads_poke fun _ => setSize_fields _) fun _ => .bind time_fields fun _ =>
    .bind (leads_poke fun _ => setMtime_fields _) fun _ => leads_poke fun _ => setNlinks_fields _

theorem openInode_fields_only (inode mode : ℕ) : Leads (Fields inode) (openInode inode mode) :=
  .bind (leads_poke fun _ => setUid_fields _) fun _ => .bind (leads_poke fun _ => setGid_fields _) fun _ =>
    .bind (leads_poke fun _ => setMode_fields _) fun _ => .bind time_fields fun _ =>
    .bind (leads_poke fun _ => setMtime_fields _) fun _ => .bind (leads_poke fun _ => setSize_fields _)
    fun _ => .bind (leads_poke fun _ => setNlinks_fields _) fun _ => leads_poke fun _ => setDirty_fields _

/-- The first block of a file needs no index block. -/
theorem indexed_first : Indexed s x (path 0) := by
  intro q i hq
  have hpath : path 0 = [0] := rfl
  rw [hpath] at hq
  obtain rfl : q = [] := by
    have hlen := congrArg List.length hq
    rw [List.length_append] at hlen
    exact List.length_eq_zero_iff.mp (by simpa using hlen.symm)
  exact Option.some_ne_none _

theorem Trees.mkdirEntries (h : Trees s) (hi : Seat s inode x) (hX : x ∈ X)
    (hr : mkdirEntries dir inode s = some (b, t)) : Grows X s t := by
  unfold Fs.mkdirEntries at hr
  rw [peek_bind] at hr
  obtain ⟨c, u, hc, k₁⟩ := bind_eq_some.mp hr
  obtain ⟨htree, hbuilt, hnode⟩ := h.bmap hi (.inr indexed_first) hc
  have hu : Grows X s u := ⟨htree, hbuilt.grown.mono (Set.singleton_subset_iff.mpr hX)⟩
  obtain ⟨d, v, hd, k₂⟩ := bind_eq_some.mp k₁
  obtain rfl := bread_eq hd
  have hv : Grows X u v := hu.trees.quiet (bread_quiet _ _ _ _ _ hd)
  have hin : InFile v x d := InFile.grown ⟨0, by decide, hnode⟩ (hu.le hi.le) hv.grown
  obtain ⟨hpage, halloc⟩ := hin.page hv.trees (hv.le (hu.le hi.le)) hX
  simp only [poke_bind, pure_apply, Option.some.injEq, Prod.mk.injEq] at k₂
  obtain ⟨rfl, rfl⟩ := k₂
  refine (hu.trans hv).trans (hv.trees.writes hpage halloc ?_)
  exact trans_of (Writes d) (trans_of (Writes d) (trans_of (Writes d) (trans_of (Writes d)
    (setDirty_writes d) (setData_writes _)) (setData_writes _)) (setData_writes _)) (setData_writes _)

/-- A step that writes no cell, the block `b` in its hands. -/
structure Passes (X : Set ℕ) (b : ℕ) (s t : State) : Prop where
  tends : Tends s t
  page : Page X t b
  sits : ∀ i, Sits s i → Sits t i

theorem Passes.trans (h : Passes X b s t) (h' : Passes X b t u) : Passes X b s u :=
  ⟨h.tends.trans h'.tends, h'.page, fun i hi => h'.sits i (h.sits i hi)⟩

theorem Trees.pass_fields (h : Trees s) (hb : Page X s b) (hi : Sits s i) (hf : Fields i s t) :
    Passes X b s t := by
  obtain ⟨x, hx⟩ := hi
  exact ⟨(h.fields hx (Set.mem_univ x) hf).tends, hb.fields h hx hf, hf.same.resits.sits⟩

theorem Trees.pass_modInode (h : Trees s) (hb : Page X s b) (f : State → InodeT → InodeT)
    (hf : ∀ s n, (f s n).slot = n.slot ∧ (f s n).buf = n.buf) {y : Unit}
    (hr : poke (fun s => s.modInode i (f s)) s = some (y, t)) : Passes X b s t := by
  have hq := modInode_quiet i f s y t hr
  exact ⟨h.tends_quiet hq, hb.quiet hq, (modInode_resits i f hf s y t hr).sits⟩

/-- The numbers of all files. -/
abbrev anywhere : Set ℕ := Set.univ

theorem Same.sits (h : Same s t) (hi : Sits s i) : Sits t i := h.resits.sits i hi

/-- An entry with a number: the end of `add_entry` and `ialloc`. -/
theorem Trees.entry (h : Trees s) (hsits : Sits s dir) (hnew : ∀ x, Seat s dir x → Fresh s ∨ Appendable s x)
    (hr : Fs.addEntry dir name s = some (e, u)) (hw : Writes e.buf u t) :
    Grows anywhere s t ∧ Page anywhere t e.buf ∧ Allocated t e.buf := by
  obtain ⟨x, hi⟩ := hsits
  obtain ⟨hg, hin⟩ := h.addEntry hi (Set.mem_univ x) (hnew x hi) hr
  obtain ⟨hpage, halloc⟩ := hin.page hg.trees (hg.le hi.le) (Set.mem_univ x)
  have hset := hg.trees.writes hpage halloc hw
  exact ⟨hg.trans hset, hpage.grown halloc hset.grown, hset.grown.allocated _ halloc⟩

theorem Trees.mkdirIn (h : Trees s) (hl : Listed s) (hsits : Sits s dir)
    (hnew : ∀ x, Seat s dir x → Fresh s ∨ Appendable s x) (hr : mkdirIn dir name mode s = some (r, t)) :
    Grows anywhere s t := by
  unfold Fs.mkdirIn at hr
  obtain ⟨e, u₁, h₁, k₁⟩ := bind_eq_some.mp hr
  rw [poke_bind, peek_bind] at k₁
  obtain ⟨hg₁, hpage₁, halloc₁⟩ := h.entry hsits hnew h₁ (setDirty_writes e.buf)
  have hs₁ : Same s (u₁.setDirty e.buf) :=
    trans_of Same (addEntry_same _ _ _ _ _ h₁) (setDirty_writes (b := e.buf) e.buf).same
  obtain ⟨nr, u₂, h₂, k₂⟩ := bind_eq_some.mp k₁
  have hm := ialloc_marks _ _ _ _ h₂
  have hg₂ : Grows anywhere (u₁.setDirty e.buf) u₂ := hg₁.trees.marks hm
  rw [poke_bind, peek_bind] at k₂
  have hset : Grows anywhere u₂ (u₂.setEntryNr e nr) := hg₂.trees.writes (hpage₁.grown halloc₁ hg₂.grown)
    (hg₂.grown.allocated _ halloc₁) (setData_writes _)
  have hs₂ : Same s (u₂.setEntryNr e nr) :=
    trans_of Same hs₁ (trans_of Same hm.same (setData_writes _).same)
  obtain ⟨i, u₃, h₃, k₃⟩ := bind_eq_some.mp k₂
  have hsits₃ : Sits u₃ i := iget_sits (hs₂.resits.listed hl) h₃
  have hdir₃ : Sits u₃ dir := (iget_resits _ _ _ _ _ h₃).sits dir (hs₂.sits hsits)
  have hg₃ : Grows anywhere (u₂.setEntryNr e nr) u₃ := hset.trees.quiet (iget_quiet _ _ _ _ _ h₃)
  obtain ⟨⟨⟩, u₄, h₄, k₄⟩ := bind_eq_some.mp k₃
  obtain ⟨y, hy⟩ := hsits₃
  have hs₄ : Same u₃ u₄ := mkdirInode_same _ _ _ _ _ h₄
  have hg₄ : Grows anywhere u₃ u₄ :=
    hg₃.trees.fields hy (Set.mem_univ y) (mkdirInode_fields _ _ _ _ _ h₄)
  rw [poke_bind, poke_bind] at k₄
  obtain ⟨x, hx⟩ := hs₄.sits hdir₃
  have hfields : Fields dir u₄ ((u₄.dirtyInode dir).setNlinks dir ((u₄.dirtyInode dir).nlinks dir + 1)) :=
    trans_of (Fields dir) (setDirty_fields _) (setNlinks_fields _)
  have hg₅ := hg₄.trees.fields hx (Set.mem_univ x) hfields
  obtain ⟨z, u₆, h₆, k₆⟩ := bind_eq_some.mp k₄
  have hg₆ := hg₅.trees.mkdirEntries (hfields.seat (hs₄.seat hy)) (Set.mem_univ y) h₆
  obtain ⟨⟨⟩, u₇, h₇, k₇⟩ := bind_eq_some.mp k₆
  obtain ⟨⟨⟩, u₈, h₈, k₈⟩ := bind_eq_some.mp k₇
  obtain ⟨⟨⟩, u₉, h₉, k₉⟩ := bind_eq_some.mp k₈
  obtain ⟨⟨⟩, u, h₁₀, k₁₀⟩ := bind_eq_some.mp k₉
  obtain ⟨-, rfl⟩ := Prod.mk.inj (Option.some.inj k₁₀)
  have hlast : Quiet u₆ u := trans_of Quiet (trans_of Quiet (iput_quiet _ _ _ _ h₇) (iput_quiet _ _ _ _ h₈))
    (trans_of Quiet (brelse_quiet _ _ _ _ h₉) (brelse_quiet _ _ _ _ h₁₀))
  exact (((hg₁.trans hg₂).trans (hset.trans hg₃)).trans ((hg₄.trans hg₅).trans hg₆)).trans
    (hg₆.trees.quiet hlast)

theorem Trees.linkIn (h : Trees s) (hdir : Sits s dir) (hsits : Sits s inode)
    (hnew : ∀ x, Seat s dir x → Fresh s ∨ Appendable s x) (hr : linkIn dir name inode s = some (e, t)) :
    Grows anywhere s t := by
  unfold Fs.linkIn at hr
  obtain ⟨e', u, hu, k⟩ := bind_eq_some.mp hr
  rw [poke_bind, poke_bind, time_bind, poke_bind] at k
  obtain ⟨rfl, rfl⟩ := Prod.mk.inj (Option.some.inj k)
  have hw : Writes e'.buf u ((u.setEntryNr e' (u.inodeTable inode).nr).setDirty e'.buf) :=
    trans_of (Writes e'.buf) (setData_writes _) (setDirty_writes e'.buf)
  obtain ⟨hg, -, -⟩ := h.entry hdir hnew hu hw
  have hs : Same s ((u.setEntryNr e' (u.inodeTable inode).nr).setDirty e'.buf) :=
    trans_of Same (addEntry_same _ _ _ _ _ hu) hw.same
  obtain ⟨x, hx⟩ := hs.sits hsits
  have hset := hg.trees.fields hx (Set.mem_univ x) (setNlinks_fields (((u.setEntryNr e'
    (u.inodeTable inode).nr).setDirty e'.buf).nlinks inode + 1))
  exact (hg.trans hset).trans (hset.trees.data ⟨rfl, rfl, rfl⟩ rfl)

theorem Trees.openIn (h : Trees s) (hl : Listed s) (hsits : Sits s dir)
    (hnew : ∀ x, Seat s dir x → Fresh s ∨ Appendable s x)
    (hr : openIn dir name mode s = some ((e, inode), t)) : Grows anywhere s t ∧ Sits t inode := by
  unfold Fs.openIn at hr
  obtain ⟨e', u₁, h₁, k₁⟩ := bind_eq_some.mp hr
  rw [peek_bind] at k₁
  obtain ⟨hg₁, hpage₁, halloc₁⟩ := h.entry hsits hnew h₁ (refl_of (Writes e'.buf) u₁)
  have hs₁ : Same s u₁ := addEntry_same _ _ _ _ _ h₁
  obtain ⟨nr, u₂, h₂, k₂⟩ := bind_eq_some.mp k₁
  have hm := ialloc_marks _ _ _ _ h₂
  have hg₂ : Grows anywhere u₁ u₂ := hg₁.trees.marks hm
  rw [poke_bind, peek_bind] at k₂
  have hset : Grows anywhere u₂ (u₂.setEntryNr e' nr) := hg₂.trees.writes (hpage₁.grown halloc₁ hg₂.grown)
    (hg₂.grown.allocated _ halloc₁) (setData_writes _)
  have hs₂ : Same s (u₂.setEntryNr e' nr) :=
    trans_of Same hs₁ (trans_of Same hm.same (setData_writes _).same)
  obtain ⟨i, u₃, h₃, k₃⟩ := bind_eq_some.mp k₂
  have hsits₃ : Sits u₃ i := iget_sits (hs₂.resits.listed hl) h₃
  have hg₃ : Grows anywhere (u₂.setEntryNr e' nr) u₃ := hset.trees.quiet (iget_quiet _ _ _ _ _ h₃)
  obtain ⟨⟨⟩, u₄, h₄, k₄⟩ := bind_eq_some.mp k₃
  obtain ⟨hpair, rfl⟩ := Prod.mk.inj (Option.some.inj k₄)
  obtain ⟨-, rfl⟩ := Prod.mk.inj hpair
  obtain ⟨y, hy⟩ := hsits₃
  have hg₄ := hg₃.trees.fields hy (Set.mem_univ y) (openInode_fields_only _ _ _ _ _ h₄)
  exact ⟨((hg₁.trans hg₂).trans (hset.trans hg₃)).trans hg₄,
    (openInode_same _ _ _ _ _ h₄).sits ⟨y, hy⟩⟩

theorem Trees.makeup (h : Trees s) (hsits : Sits s inode) {o : Option ℕ}
    (hr : makeup dir inode b flag s = some (o, t)) : Tends s t := by
  unfold Fs.makeup at hr
  rw [peek_bind] at hr
  split_ifs at hr with hperm
  · exact h.tends_quiet (openRollback_quiet _ _ _ _ _ _ hr)
  rw [peek_bind] at hr
  split_ifs at hr with hdir
  · exact h.tends_quiet (openRollback_quiet _ _ _ _ _ _ hr)
  obtain ⟨⟨⟩, u, hu, k₁⟩ := bind_eq_some.mp hr
  have hq := h.tends_quiet (touch_quiet _ _ _ _ hu)
  obtain ⟨x, hx⟩ := (touch_resits _ _ _ _ hu).sits inode hsits
  obtain ⟨⟨⟩, v, hv, k₂⟩ := bind_eq_some.mp k₁
  have htrunc : Tends u v := by
    cases hflag : decide (flag &&& O_TRUNC ≠ 0) with
    | true =>
      rw [hflag, when_true] at hv
      exact hq.trees.tends_truncate hx hv
    | false =>
      rw [hflag, when_false] at hv
      obtain ⟨-, rfl⟩ := Prod.mk.inj (Option.some.inj hv)
      exact ⟨hq.trees, id⟩
  obtain ⟨⟨⟩, w, hw, k₃⟩ := bind_eq_some.mp k₂
  obtain ⟨⟨⟩, w', hw', k₄⟩ := bind_eq_some.mp k₃
  obtain ⟨-, rfl⟩ := Prod.mk.inj (Option.some.inj k₄)
  exact (hq.trans htrunc).trans (htrunc.trees.tends_quiet
    (trans_of Quiet (brelse_quiet _ _ _ _ hw) (iput_quiet _ _ _ _ hw')))

theorem Trees.unlinkIn (h : Trees s) (hsits : Sits s inode) (hb : Page X s e.buf)
    (halloc : Allocated s e.buf) {y : Unit} (hr : unlinkIn inode e s = some (y, t)) : Tends s t := by
  unfold Fs.unlinkIn at hr
  rw [poke_bind, poke_bind, peek_bind] at hr
  have hset := h.writes hb halloc (trans_of (Writes e.buf) (setData_writes ((s.data e.buf).wr16 e.addr 0))
    (setDirty_writes e.buf))
  obtain ⟨x, hi⟩ := hsits
  have hfields : Fields inode ((s.setEntryNr e 0).setDirty e.buf)
      ((((s.setEntryNr e 0).setDirty e.buf).setNlinks inode
        (sub32 (((s.setEntryNr e 0).setDirty e.buf).nlinks inode) 1)).dirtyInode inode) :=
    trans_of (Fields inode) (setNlinks_fields _) (setDirty_fields _)
  have hi' : Seat ((s.setEntryNr e 0).setDirty e.buf) inode x := hi.of_kept hset.grown.layout rfl rfl
  have hg := (hset.mono (Set.subset_univ X)).trans (hset.trees.fields hi' (Set.mem_univ x) hfields)
  refine hg.tends.trans ?_
  cases hlinks : decide (((((s.setEntryNr e 0).setDirty e.buf).setNlinks inode
      (sub32 (((s.setEntryNr e 0).setDirty e.buf).nlinks inode) 1)).dirtyInode inode).nlinks inode = 0) with
  | true =>
    rw [hlinks, when_true] at hr
    exact (hg.trees.freeInode (hfields.seat hi') ((hb.grown halloc hset.grown).fields hset.trees hi' hfields)
      hr).1
  | false =>
    rw [hlinks, when_false] at hr
    obtain ⟨-, rfl⟩ := Prod.mk.inj (Option.some.inj hr)
    exact ⟨hg.trees, id⟩

theorem Trees.rmdirIn (h : Trees s) (hdir : Sits s dir) (hsits : Sits s inode) (hb : Page X s e.buf)
    {y : Unit} (hr : rmdirIn dir inode e s = some (y, t)) : Tends s t := by
  unfold Fs.rmdirIn at hr
  rw [peek_bind] at hr
  obtain ⟨⟨⟩, s', hs', k₁⟩ := bind_eq_some.mp hr
  obtain ⟨-, rfl⟩ := assert_eq_some.mp hs'
  obtain ⟨⟨⟩, u, hu, k₂⟩ := bind_eq_some.mp k₁
  obtain ⟨x, hi⟩ := hsits
  obtain ⟨htend, hbu⟩ := h.freeInode hi hb hu
  have hsits : ∀ j, Sits s' j → Sits u j := (freeInode_same _ _ _ _ hu).resits.sits
  obtain ⟨⟨⟩, u₁, h₁, k₃⟩ := bind_eq_some.mp k₂
  have hfields₁ : Fields inode u u₁ := by
    obtain ⟨-, rfl⟩ := Prod.mk.inj (Option.some.inj h₁)
    exact trans_of (Fields inode) (setNlinks_fields _) (setDirty_fields _)
  have hp₁ := htend.trees.pass_fields hbu (hsits inode ⟨x, hi⟩) hfields₁
  obtain ⟨⟨⟩, u₂, h₂, k₄⟩ := bind_eq_some.mp k₃
  have hp₂ := hp₁.trans (hp₁.tends.trees.pass_modInode hp₁.page (fun _ n => { n with nr := 0 })
    (fun _ _ => ⟨rfl, rfl⟩) h₂)
  obtain ⟨⟨⟩, u₃, h₃, k₅⟩ := bind_eq_some.mp k₄
  have hfields₃ : Fields dir u₂ u₃ := by
    obtain ⟨-, rfl⟩ := Prod.mk.inj (Option.some.inj h₃)
    exact setNlinks_fields _
  obtain ⟨now, u₄, h₄, k₆⟩ := bind_eq_some.mp k₅
  obtain ⟨⟨⟩, u₅, h₅, k₇⟩ := bind_eq_some.mp k₆
  have hfields₅ : ∃ w, Fields dir u₂ w ∧ poke (fun s => s.modInode dir
      fun n => { n with atime := now, ctime := now }) w = some ((), u₅) := by
    obtain ⟨-, rfl⟩ := Prod.mk.inj (Option.some.inj h₅)
    exact ⟨u₄.setMtime dir now, trans_of (Fields dir) (trans_of (Fields dir) hfields₃
      (time_fields _ _ _ h₄)) (setMtime_fields _), rfl⟩
  obtain ⟨w, hfields, hmod⟩ := hfields₅
  have hp₃ := hp₂.trans (hp₂.tends.trees.pass_fields hp₂.page (hp₂.sits dir (hsits dir hdir)) hfields)
  have hp₄ := hp₃.trans (hp₃.tends.trees.pass_modInode hp₃.page
    (fun _ n => { n with atime := now, ctime := now }) (fun _ _ => ⟨rfl, rfl⟩) hmod)
  obtain ⟨⟨⟩, u₆, h₆, k₈⟩ := bind_eq_some.mp k₇
  obtain ⟨-, rfl⟩ := Prod.mk.inj (Option.some.inj h₆)
  have hp₅ := hp₄.trans (hp₄.tends.trees.pass_fields (i := dir) hp₄.page
    (hp₄.sits dir (hsits dir hdir)) (setDirty_fields (u₅.ibuf dir)))
  rw [peek_bind] at k₈
  obtain ⟨⟨⟩, u₇, h₇, k₉⟩ := bind_eq_some.mp k₈
  obtain ⟨-, rfl⟩ := assert_eq_some.mp h₇
  obtain ⟨-, rfl⟩ := Prod.mk.inj (Option.some.inj k₉)
  exact (htend.trans hp₅.tends).trans (hp₅.tends.trees.tends_writes hp₅.page
    (trans_of (Writes e.buf) (setData_writes _) (setDirty_writes e.buf)))

end Parts

end Onix.Fs
