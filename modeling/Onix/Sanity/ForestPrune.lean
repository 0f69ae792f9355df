import Onix.Sanity.ForestGrow

/-! `inode_truncate` and the index trees: one tree is emptied and its blocks are free, the others
stay. -/

namespace Onix.Fs

open Function Prog Bytes

variable {s t u : State} {x y i j b c k inode index : ℕ} {p q : List ℕ} {dev : ℤ}

section Frees

/-- Only the calls that are noted have freed blocks, and besides the bitmap only the descriptor
of the inode has been written, not its mode. -/
structure Frees (inode : ℕ) (v w : State × List BlockCall) : Prop where
  same : Same v.1 w.1
  data : ∀ c, ¬ IsMap v.1 c → c ≠ v.1.ibuf inode → w.1.data c = v.1.data c
  other : ¬ IsMap v.1 (v.1.ibuf inode) → ∀ a, a < v.1.idesc inode + 4 ∨ v.1.idesc inode + DESC_SIZE ≤ a →
    w.1.data (v.1.ibuf inode) a = v.1.data (v.1.ibuf inode) a
  freed : Volume v.1 1 → ¬ IsMap v.1 (v.1.ibuf inode) → Volume w.1 1 ∧ ∃ l, w.2 = v.2 ++ l ∧
    ∀ c, v.1.base ≤ c → (Allocated w.1 c ↔ Allocated v.1 c ∧ c ∉ Fs.freed l)

theorem idesc_same (h : Same s t) (i : ℕ) : t.idesc i = s.idesc i := by
  unfold State.idesc
  rw [h.inodeTable]

theorem base_same (h : Same s t) : t.base = s.base := h.fixed.layout.base

theorem mem_freed_append {l l' : List BlockCall} : c ∈ Fs.freed (l ++ l') ↔ c ∈ Fs.freed l ∨ c ∈ Fs.freed l' := by
  unfold Fs.freed
  rw [List.filterMap_append, List.mem_append]

instance : IsPreorder (State × List BlockCall) (Frees inode) where
  refl v := ⟨refl_of Same v.1, fun _ _ _ => rfl, fun _ _ _ => rfl, fun hv _ => ⟨hv, [],
    (List.append_nil _).symm, fun _ _ => (and_iff_left List.not_mem_nil).symm⟩⟩
  trans v w y h h' := by
    have hbuf := ibuf_same h.same inode
    have hmaps : ∀ {c}, ¬ IsMap v.1 c → ¬ IsMap w.1 c := (isMap_congr h.same.sb).not.mpr
    refine ⟨trans_of Same h.same h'.same, fun c hm hc => ?_, fun hm a ha => ?_, fun hv hm => ?_⟩
    · rw [h'.data c (hmaps hm) (by rw [hbuf]; exact hc), h.data c hm hc]
    · have hlast := h'.other (by rw [hbuf]; exact hmaps hm) a (by rw [idesc_same h.same]; exact ha)
      rw [hbuf] at hlast
      rw [hlast, h.other hm a ha]
    · obtain ⟨hw, l, hl, hiff⟩ := h.freed hv hm
      obtain ⟨hy, l', hl', hiff'⟩ := h'.freed hw (by rw [hbuf]; exact hmaps hm)
      refine ⟨hy, l ++ l', ?_, fun c hbase => ?_⟩
      · rw [hl', hl, List.append_assoc]
      · rw [hiff' c (by rw [base_same h.same]; exact hbase), hiff c hbase, mem_freed_append, not_or,
          and_assoc]

/-- The bitmap is not written. -/
theorem Frees.of_maps {l : List BlockCall} (hsame : Same s t)
    (hdata : ∀ c, c ≠ s.ibuf inode → t.data c = s.data c)
    (hother : ∀ a, a < s.idesc inode + 4 ∨ s.idesc inode + DESC_SIZE ≤ a →
      t.data (s.ibuf inode) a = s.data (s.ibuf inode) a) : Frees inode (s, l) (t, l) := by
  refine ⟨hsame, fun c _ => hdata c, fun _ => hother, fun hv hmap => ?_⟩
  have hmaps : ∀ z, IsMap s z → t.data z = s.data z := fun z hz => hdata z fun he => hmap (he ▸ hz)
  have halloc : ∀ c, Allocated t c ↔ Allocated s c := by
    intro c
    unfold Allocated
    rw [hsame.sb, hsame.fixed.layout.base]
    refine exists_congr fun z => and_congr_right fun hz => ?_
    rw [hmaps z ⟨_, hz⟩]
  exact ⟨hv.layout hsame.fixed.layout hmaps, [], (List.append_nil _).symm, fun c _ =>
    (halloc c).trans (and_iff_left List.not_mem_nil).symm⟩

theorem frees_quiet {α : Type} {m : Prog State α} (hs : Leads Same m) (hq : Leads Quiet m) :
    Leads (Frees inode) (still m) := by
  rintro ⟨s, l⟩ a ⟨t, l'⟩ hm
  obtain ⟨hrun, rfl⟩ := still_eq_some.mp hm
  have hdata : t.data = s.data := (hq s a t hrun).data
  exact .of_maps (hs s a t hrun) (fun c _ => congrFun hdata c) fun a _ => by rw [hdata]

theorem frees_peek {α : Type} (f : State → α) : Leads (Frees inode) (still (peek f)) :=
  frees_quiet (leads_peek f) (leads_peek f)

theorem bfree_allocated (hv : Volume s 1) {y : Unit} (h : bfree dev b s = some (y, t)) :
    Volume t 1 ∧ ∀ c, s.base ≤ c → (Allocated t c ↔ Allocated s c ∧ c ≠ b) := by
  have hdev : dev = s.dev := by
    unfold bfree at h
    obtain ⟨sb, u, hu, -⟩ := bind_eq_some.mp h
    exact (getSuper_eq.mp hu).1
  subst hdev
  obtain ⟨hb, z, hz, ⟨hle, hlt, -⟩, rfl⟩ := (bfree_iff hv).mp h
  have h0 : (b - 1) / BLOCK_BITS = 0 := by
    by_contra hne
    rw [hv.absent _ (Nat.one_le_iff_ne_zero.mpr hne)] at hz
    cases hz
  have hbase : s.bitBase b = s.base := by
    unfold State.bitBase
    rw [h0, Nat.zero_mul, Nat.zero_add]
  rw [h0] at hz
  rw [hbase] at hle hlt ⊢
  refine ⟨volume_wrote hv hz fun _ => by omega, fun c hc => ?_⟩
  have hself : c - s.base = 0 * BLOCK_BITS + (b - s.base) ↔ c = b := by omega
  rw [allocated_wrote hv hz hlt]
  split_ifs with he
  · exact iff_of_false nofun fun ha => ha.2 (hself.mp he)
  · exact (and_iff_left fun hcb => he (hself.mpr hcb)).symm

theorem bfree_frees (b : ℕ) : Leads (Frees inode) (note (.bfree b) (bfree dev b)) := by
  rintro ⟨s, l⟩ a ⟨t, l'⟩ hm
  obtain ⟨hrun, rfl⟩ := note_eq_some.mp hm
  have hswept := bfree_swept _ _ _ _ _ hrun
  refine ⟨hswept.same, fun c hc _ => hswept.data c hc, fun hc a _ => by rw [hswept.data _ hc],
    fun hv _ => ?_⟩
  obtain ⟨ht, hiff⟩ := bfree_allocated hv hrun
  refine ⟨ht, [.bfree b], rfl, fun c hbase => ?_⟩
  rw [hiff c hbase]
  exact and_congr_right fun _ => (not_congr List.mem_singleton).symm

theorem bread_frees (b : ℕ) : Leads (Frees inode) (note (.bread b) (bread dev b)) := by
  rintro ⟨s, l⟩ a ⟨t, l'⟩ hm
  obtain ⟨hrun, rfl⟩ := note_eq_some.mp hm
  have hquiet : Frees inode (s, l) (t, l) :=
    frees_quiet (bread_same dev b) (bread_quiet dev b) (s, l) a (t, l) (still_eq_some.mpr ⟨hrun, rfl⟩)
  refine ⟨hquiet.same, hquiet.data, hquiet.other, fun hv hmap => ?_⟩
  obtain ⟨ht, l', hl, hiff⟩ := hquiet.freed hv hmap
  obtain rfl : l' = [] := List.append_cancel_left (hl.symm.trans (List.append_nil l).symm)
  exact ⟨ht, [.bread b], rfl, hiff⟩

theorem inodeBfreeNoted_frees (level buf addr index : ℕ) :
    Leads (Frees inode) (inodeBfreeNoted inode level buf addr index) := by
  induction level generalizing buf addr index with
  | zero =>
    exact .bind (frees_peek _) fun _ => .ite (leads_pure _) (.bind (frees_peek _) fun _ => bfree_frees _)
  | succ level ih =>
    unfold inodeBfreeNoted
    exact .bind (frees_peek _) fun _ => .ite (leads_pure _) (.bind (frees_peek _) fun _ =>
      .bind (bread_frees _) fun _ => .bind (leads_loop (fun _ => ih _ _ _) _ _) fun _ =>
      .bind (frees_quiet (brelse_same _) (brelse_quiet _)) fun _ => .bind (frees_peek _) fun _ =>
      bfree_frees _)

theorem freeZoneNoted_frees {level : ℕ} (hi : index < ZONE_NR) :
    Leads (Frees inode) (freeZoneNoted inode level index) := by
  intro v a w h
  unfold freeZoneNoted at h
  obtain ⟨s, l⟩ := v
  rw [still_peek_bind, still_peek_bind] at h
  obtain ⟨⟨⟩, ⟨u, l₁⟩, hu, hlast⟩ := bind_eq_some.mp h
  have hfirst : Frees inode (s, l) (u, l₁) := inodeBfreeNoted_frees _ _ _ _ _ _ _ hu
  have hbuf : u.ibuf inode = s.ibuf inode := ibuf_same hfirst.same inode
  have hdesc : u.idesc inode = s.idesc inode := idesc_same hfirst.same inode
  refine trans_of (Frees inode) hfirst ?_
  obtain ⟨t, l₂⟩ := w
  obtain ⟨hset, rfl⟩ := still_eq_some.mp hlast
  obtain ⟨-, rfl⟩ := Prod.mk.inj (Option.some.inj hset)
  refine .of_maps ⟨rfl, rfl, rfl, rfl, rfl, rfl, rfl⟩ (fun c hc => update_of_ne ?_ ..) fun a ha => ?_
  · rw [← hbuf]
    exact hc
  · rw [← hbuf, data_setData, update_self]
    unfold ZONE_NR DIRECT_BLOCK at hi
    unfold DESC_SIZE at ha
    refine wr16_ne ?_
    unfold State.izone
    omega

theorem wr32_ne {d : Bytes} {a v k : ℕ} (h : k < a ∨ a + 4 ≤ k) : d.wr32 a v k = d k := by
  unfold wr32
  rw [wr16_ne (by omega), wr16_ne (by omega)]

theorem truncated_frees : Leads (Frees inode) (still (truncated inode)) := by
  rintro ⟨s, l⟩ a ⟨t, l'⟩ hm
  obtain ⟨h, rfl⟩ := still_eq_some.mp hm
  have hsame : Same s t := by
    refine (?_ : Leads Same (truncated inode)) s a t h
    exact .bind (poke_same fun _ => rfl) fun _ => .bind time_same fun _ =>
      .bind (poke_same fun _ => rfl) fun _ => .bind (leads_peek _) fun _ => bwrite_same _
  unfold truncated at h
  simp only [poke_bind, time_bind, peek_bind, bwrite_some, Option.some.injEq, Prod.mk.injEq,
    true_and] at h
  subst h
  refine .of_maps hsame (fun c hc => ?_) fun a ha => ?_
  · simp only [State.setSize, State.setMtime, State.dirtyInode, data_cleaned, ibuf_setData, ibuf_tick,
      data_tick, ibuf_setDirty, data_setDirty, data_setData]
    rw [update_of_ne hc, update_of_ne hc]
  · simp only [State.setSize, State.setMtime, State.dirtyInode, data_cleaned, ibuf_setData, ibuf_tick,
      idesc_setData, idesc_tick, idesc_setDirty, data_tick, ibuf_setDirty, data_setDirty, data_setData,
      update_self]
    unfold DESC_SIZE at ha
    rw [wr32_ne (by omega), wr32_ne (by omega)]

theorem leads_loop_lt {σ : Type} {r : σ → σ → Prop} [IsPreorder σ r] {g : ℕ → Prog σ Unit} {n : ℕ}
    (h : ∀ j < i + n, Leads r (g j)) : Leads r (loop g n i) := by
  induction n generalizing i with
  | zero => exact leads_pure ()
  | succ n ih => exact (h i (by omega)).bind fun _ => ih fun j hj => h j (by omega)

theorem inodeTruncateNoted_frees : Leads (Frees inode) (inodeTruncateNoted inode) := by
  unfold inodeTruncateNoted
  refine .bind (frees_peek _) fun _ => .ite (leads_pure _) (.bind (leads_loop_lt fun j hj => ?_) fun _ =>
    .bind (freeZoneNoted_frees (by decide)) fun _ => .bind (freeZoneNoted_frees (by decide)) fun _ =>
    truncated_frees)
  refine freeZoneNoted_frees ?_
  unfold ZONE_NR
  omega

end Frees

section Truncate

/-- The file with number `x` is empty and its blocks are free. -/
structure Pruned (x : ℕ) (s t : State) : Prop where
  spares : Spares {x} s t
  volume : Volume t 1
  mode : t.modeNr x = s.modeNr x
  size : t.sizeNr x = 0
  own : ∀ p, Way p → t.nodeNr x p = none
  allocated : ∀ b, s.base ≤ b →
    (Allocated t b ↔ Allocated s b ∧ ∀ p, Way p → s.nodeNr x p ≠ some b)

theorem Seat.node (h : Seat s i x) (p : List ℕ) : s.nodeOf i p = s.nodeNr x p := by
  unfold State.nodeOf State.nodeNr
  rw [h.buf, h.zone]

theorem Trees.laid (h : Trees s) (hi : Seat s i x) : Laid s i where
  slot := by
    have hlt : sub32 x 1 % BLOCK_INODES < BLOCK_INODES := Nat.mod_lt _ (by decide)
    have hdesc := hi.desc
    unfold State.idesc descAddr DESC_SIZE at hdesc
    omega
  low := h.sited.low
  apart := by
    rw [hi.buf]
    exact (h.sited.desc x hi.le).1

theorem Trees.unshared (h : Trees s) (hi : Seat s i x) : s.Unshared i := by
  intro p q b hp hq hb hc
  rw [hi.node] at hb hc
  exact (h.once x hi.le x hi.le p q b hp hq hb hc).2

/-- What the calls of `inode_truncate` free, and the size and the zone array afterwards. -/
theorem truncate_zones (hmode : isFile (s.mode inode) ∨ isDir (s.mode inode)) (hlaid : Laid s inode)
    (hn : s.Unshared inode) {log : List BlockCall}
    (h : inodeTruncateNoted inode (s, []) = some ((), (t, log))) : log = s.truncateCalls inode ∧
      t.size inode = 0 ∧ ∀ j < ZONE_NR, t.cell (s.ibuf inode) (s.izone inode) j = 0 := by
  unfold inodeTruncateNoted at h
  rw [still_peek_bind, if_neg (not_special hmode)] at h
  obtain ⟨⟨⟩, ⟨u₁, l₁⟩, hloop, k₁⟩ := bind_eq_some.mp h
  obtain ⟨⟨⟩, ⟨u₂, l₂⟩, hseven, k₂⟩ := bind_eq_some.mp k₁
  obtain ⟨⟨⟩, ⟨u, l₃⟩, height, k₃⟩ := bind_eq_some.mp k₂
  obtain ⟨htail, rfl⟩ := still_eq_some.mp k₃
  obtain ⟨rfl, hcut⟩ := zones_calls hlaid hn (bind_eq_some.mpr ⟨(), _, hloop,
    bind_eq_some.mpr ⟨(), _, hseven, height⟩⟩)
  obtain ⟨hsize, -, -, hcells⟩ := truncated_spec htail
  refine ⟨List.nil_append _, hsize, fun j hj => ?_⟩
  rw [← hcut.zero j hj, ← ibuf_same hcut.same inode, ← izone_same hcut.same inode, hcells]

/-- What truncating leaves of the blocks of other inodes. -/
theorem Frees.cell {l l' : List BlockCall} (hf : Frees inode (s, l) (t, l')) (h : Trees s)
    (hi : Seat s inode x) (hy : y ≤ s.sb.desc.inodes) (hne : y ≠ x) (hw : Way (q ++ [j]))
    (hb : s.nodeNr y q = some b) : t.cell b (arrayAt y q) j = s.cell b (arrayAt y q) j := by
  have hmap : ¬ IsMap s b := h.node_map hy (way_parent hw) hb
  by_cases hbx : b = s.descBuf x
  · subst hbx
    have hout : ∀ a, arrayAt y q + 2 * j ≤ a → a ≤ arrayAt y q + 2 * j + 1 →
        a < descAddr x ∨ descAddr x + DESC_SIZE ≤ a := by
      intro a ha ha'
      by_contra hin
      have hcell := h.desc_cell hy hw hb hi.le hne.symm rfl (a := a) (by omega) (by omega)
      omega
    have hother : ∀ a, a < descAddr x ∨ descAddr x + DESC_SIZE ≤ a →
        t.data (s.descBuf x) a = s.data (s.descBuf x) a := by
      have hlast := hf.other (by rw [hi.buf]; exact hmap)
      rw [hi.buf, hi.desc] at hlast
      exact fun a ha => hlast a (ha.imp_left fun hlt => Nat.lt_add_right 4 hlt)
    exact cell_bytes (hother _ (hout _ (Nat.le_refl _) (by omega)))
      (hother _ (hout _ (by omega) (Nat.le_refl _)))
  · exact cell_data (hf.data b hmap (by rw [hi.buf]; exact hbx))

theorem Frees.spares {l l' : List BlockCall} (hf : Frees inode (s, l) (t, l')) (h : Trees s)
    (hi : Seat s inode x) : Spares {x} s t where
  layout := hf.same.fixed.layout
  nodes y hy hne p hp := nodeNr_congr hf.same.fixed.layout hp fun q j b hw hb =>
    hf.cell h hi hy hne hw hb
  data y hy _ p b hp hb := by
    refine hf.data b (h.node_map hy (.inr hp) hb) ?_
    rw [hi.buf]
    rintro rfl
    exact (h.sited.desc x hi.le).2 (h.zone y hy p _ hp hb).1
  desc y hy hne a ha ha' := by
    have hmap := (h.sited.desc y hy).1
    by_cases hyx : s.descBuf y = s.descBuf x
    · have hlt := h.sited.inodes
      have hle := hi.le
      have hapart := desc_apart (by omega) (by omega) hne hyx
      rw [hyx] at hmap ⊢
      have hlast := hf.other (by rw [hi.buf]; exact hmap) a
      rw [hi.buf, hi.desc] at hlast
      unfold DESC_SIZE at *
      exact hlast (by omega)
    · rw [hf.data _ hmap (by rw [hi.buf]; exact hyx)]

/-- `inode_truncate` prunes the tree of its inode, unless that is neither file nor directory. -/
theorem Trees.truncate (h : Trees s) (hi : Seat s inode x) {r : Unit}
    (hr : inodeTruncate inode s = some (r, t)) :
    (¬ (isFile (s.modeNr x) ∨ isDir (s.modeNr x)) ∧ t = s) ∨
      ((isFile (s.modeNr x) ∨ isDir (s.modeNr x)) ∧ Pruned x s t) := by
  have hnr : s.mode inode = s.modeNr x := hi.mode
  by_cases hmode : isFile (s.modeNr x) ∨ isDir (s.modeNr x)
  · right
    obtain ⟨log, hlog⟩ := (inodeTruncateNoted_erases inode).run hr []
    have hf : Frees inode (s, []) (t, log) := inodeTruncateNoted_frees _ _ _ hlog
    have hmap := (h.laid hi).apart
    obtain ⟨rfl, hsize, hzero⟩ := truncate_zones (by rw [hnr]; exact hmode) (h.laid hi) (h.unshared hi) hlog
    obtain ⟨hv, l, hl, hiff⟩ := hf.freed h.sited.volume hmap
    rw [List.nil_append] at hl
    subst hl
    have hit : Seat t inode x := hi.of_kept hf.same.fixed.layout (by rw [hf.same.inodeTable])
      (by rw [hf.same.inodeTable])
    refine ⟨hmode, hf.spares h hi, hv, ?_, ?_, fun p hp => ?_, fun b hbase => ?_⟩
    · have hbyte : ∀ a, a < descAddr x + 4 → t.data (s.descBuf x) a = s.data (s.descBuf x) a := by
        intro a ha
        have hlast := hf.other hmap a
        rw [hi.buf, hi.desc] at hlast
        exact hlast (.inl ha)
      unfold State.modeNr rd16 rd8
      rw [hf.same.fixed.layout.descBuf, hbyte _ (by omega), hbyte _ (by omega)]
    · rw [← hit.size]
      exact hsize
    · obtain ⟨z, r, rfl, hz, -⟩ := hp
      have hcell := hzero z hz
      rw [hi.buf, hi.zone] at hcell
      unfold State.nodeNr
      rw [hf.same.fixed.layout.descBuf]
      exact node_zero hcell r
    · rw [hiff b hbase, mem_freed]
      refine and_congr_right fun _ => ?_
      rw [not_exists]
      refine forall_congr' fun p => ?_
      rw [not_and, hi.node]
  · left
    unfold inodeTruncate at hr
    rw [peek_bind, hnr, if_pos (by simpa using hmode)] at hr
    exact ⟨hmode, (Prod.mk.inj (Option.some.inj hr)).2.symm⟩

theorem Pruned.nodes (h : Pruned x s t) (hy : y ≤ s.sb.desc.inodes) (hp : Way p)
    (hb : t.nodeNr y p = some b) : y ≠ x ∧ s.nodeNr y p = some b := by
  by_cases hyx : y = x
  · subst hyx
    rw [h.own p hp] at hb
    cases hb
  · rw [h.spares.nodes y hy hyx p (.inr hp)] at hb
    exact ⟨hyx, hb⟩

theorem Pruned.trees (h : Pruned x s t) (hs : Trees s) (hx : x ≤ s.sb.desc.inodes) : Trees t where
  sited := hs.sited.of_volume h.spares.layout h.volume
  first := by
    rw [h.spares.layout.base]
    refine (h.allocated _ (Nat.le_refl _)).mpr ⟨hs.first, fun p hp hb => ?_⟩
    have hge := (hs.zone x hx p _ hp hb).1.1
    have hfirst := hs.sited.volume.first
    unfold State.base at hge
    omega
  zone y hy p b hp hb := by
    rw [h.spares.layout.desc] at hy
    obtain ⟨hyx, hold⟩ := h.nodes hy hp hb
    obtain ⟨hzone, halloc⟩ := hs.zone y hy p b hp hold
    refine ⟨h.spares.layout.isZone.mpr hzone, (h.allocated b ?_).mpr ⟨halloc, fun q hq hc => ?_⟩⟩
    · have hge := hzone.1
      unfold State.base
      omega
    · exact hyx (hs.once y hy x hx p q b hp hq hold hc).1
  once y hy z hz p q b hp hq hb hc := by
    rw [h.spares.layout.desc] at hy hz
    exact hs.once y hy z hz p q b hp hq (h.nodes hy hp hb).2 (h.nodes hz hq hc).2

theorem Pruned.loose (h : Pruned x s t) (hb : Loose s b) : Loose t b := by
  intro y hy q hq hc
  rw [h.spares.layout.desc] at hy
  rcases inner_way hq with rfl | hw
  · rw [nodeNr_nil, h.spares.layout.descBuf] at hc
    exact hb y hy [] hq hc
  · exact hb y hy q hq (h.nodes hy hw hc).2

/-- Every data zone in use is in a tree. -/
def Tight (s : State) : Prop := ∀ b, IsZone s b → Allocated s b →
  ∃ x ≤ s.sb.desc.inodes, ∃ p, Way p ∧ s.nodeNr x p = some b

theorem Grown.tight {X : Set ℕ} (h : Grown X s t) (hs : Tight s) : Tight t := by
  intro b hz hb
  rw [h.layout.desc]
  rcases h.reached b hb with hold | hnew
  · obtain ⟨x, hx, p, hp, hc⟩ := hs b (h.layout.isZone.mp hz) hold
    exact ⟨x, hx, p, hp, h.nodes x hx p b (.inr hp) hc⟩
  · exact hnew

theorem Pruned.tight (h : Pruned x s t) (hs : Tight s) : Tight t := by
  intro b hz hb
  rw [h.spares.layout.isZone] at hz
  have hbase : s.base ≤ b := by
    have hge := hz.1
    unfold State.base
    omega
  obtain ⟨hold, hnot⟩ := (h.allocated b hbase).mp hb
  obtain ⟨y, hy, p, hp, hc⟩ := hs b hz hold
  rw [h.spares.layout.desc]
  have hyx : y ≠ x := fun he => hnot p hp (he ▸ hc)
  refine ⟨y, hy, p, hp, ?_⟩
  rw [h.spares.nodes y hy hyx p (.inr hp)]
  exact hc

end Truncate

end Onix.Fs
