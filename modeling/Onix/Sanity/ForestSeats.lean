import Onix.Sanity.ForestPrune

/-! The inodes in memory sit at descriptors, whatever the calls do, and what the calls write
besides the index trees keeps the trees. -/

namespace Onix.Fs

open Function Prog Bytes Cstr

variable {s t u v : State} {x y i j b c k inode dir nr : ℕ} {p q : List ℕ} {dev : ℤ} {X Y : Set ℕ}
  {name left right pathname next : Str}

section Sits

/-- The inode in slot `i` of the table has a descriptor. -/
def Sits (s : State) (i : ℕ) : Prop := ∃ x, Seat s i x

/-- Inodes keep having descriptors, maybe others than before, and those that come into memory
have one. -/
structure Resits (s t : State) : Prop where
  layout : SameLayout s t
  sits : ∀ i, Sits s i → Sits t i
  mem : ∀ i ∈ t.sb.inodeList, i ∈ s.sb.inodeList ∨ Sits t i

instance : IsPreorder State Resits where
  refl _ := ⟨refl_of SameLayout _, fun _ => id, fun _ => .inl⟩
  trans _ _ _ h h' := ⟨trans_of SameLayout h.layout h'.layout, fun i hi => h'.sits i (h.sits i hi),
    fun i hi => (h'.mem i hi).elim (fun ht => (h.mem i ht).imp_right (h'.sits i)) .inr⟩

/-- Every inode in memory has a descriptor. -/
def Listed (s : State) : Prop := ∀ i ∈ s.sb.inodeList, Sits s i

theorem Resits.listed (h : Resits s t) (hs : Listed s) : Listed t := fun i hi =>
  (h.mem i hi).elim (fun hm => h.sits i (hs i hm)) id

theorem Seated.resits (h : Seated s t) (hl : SameLayout s t)
    (hm : ∀ i ∈ t.sb.inodeList, i ∈ s.sb.inodeList) : Resits s t where
  layout := hl
  sits i hi := hi.imp fun _ hx => hx.of_kept hl (h i).2 (h i).1
  mem i hi := .inl (hm i hi)

theorem Same.resits (h : Same s t) : Resits s t := h.seated.resits h.fixed.layout fun i hi => by
  rw [h.sb] at hi
  exact hi

theorem Same.seat (h : Same s t) (hi : Seat s i x) : Seat t i x :=
  hi.of_kept h.fixed.layout (h.seated i).2 (h.seated i).1

theorem resits_of_same {α : Type} {m : Prog State α} (h : Leads Same m) : Leads Resits m :=
  h.mono fun _ _ => Same.resits

theorem modInode_resits (i : ℕ) (f : State → InodeT → InodeT)
    (hf : ∀ s n, (f s n).slot = n.slot ∧ (f s n).buf = n.buf) :
    Leads Resits (poke fun s => s.modInode i (f s)) := fun s a t h => by
  have hseated := modInode_seated i f hf s a t h
  obtain ⟨-, rfl⟩ := Prod.mk.inj (Option.some.inj h)
  exact hseated.resits ⟨rfl, rfl, rfl⟩ fun _ => id

theorem iput_resits (o : Option ℕ) : Leads Resits (iput o) := by
  cases o with
  | none => exact leads_pure ()
  | some i =>
    intro s a t h
    have hl : SameLayout s t := (iput_quiet (some i) s a t h).fixed.layout
    refine (iput_seated (some i) s a t h).resits hl fun j hj => ?_
    rcases iputInode_cases h with ⟨-, rfl⟩ | ⟨-, -, -, -, rfl⟩
    · exact hj
    · exact List.mem_of_mem_erase hj

theorem gotNew_seat {a c : ℕ} (hx : x ≤ s.sb.desc.inodes) : Seat (s.gotNew i x a c) i x where
  le := hx
  buf := by
    have hself : (s.gotNew i x a c).inodeTable i = ⟨sub32 x 1 % BLOCK_INODES, inodeBlock s.sb x, s.dev, x,
      ((s.inodeTable i).count + 1) % 2 ^ 32, a, c⟩ := update_self ..
    unfold State.ibuf
    rw [hself]
    rfl
  desc := by
    have hself : (s.gotNew i x a c).inodeTable i = ⟨sub32 x 1 % BLOCK_INODES, inodeBlock s.sb x, s.dev, x,
      ((s.inodeTable i).count + 1) % 2 ^ 32, a, c⟩ := update_self ..
    unfold State.idesc
    rw [hself]
    rfl

theorem iget_resits (dev : ℤ) (nr : ℕ) : Leads Resits (iget dev nr) := by
  intro s i t h
  have hl : SameLayout s t := (iget_quiet dev nr s i t h).fixed.layout
  obtain ⟨-, ⟨-, a, rfl⟩ | ⟨-, hle, -, -, -, a, c, rfl⟩⟩ := iget_cases h
  · refine Seated.resits (fun j => ?_) hl fun _ => id
    have htable : (s.gotOld i a).inodeTable j = if j = i then { s.inodeTable i with
      count := ((s.inodeTable i).count + 1) % 2 ^ 32, atime := a } else s.inodeTable j := update_apply ..
    rw [htable]
    split_ifs with hj
    · rw [hj]
      exact ⟨rfl, rfl⟩
    · exact ⟨rfl, rfl⟩
  · refine ⟨hl, fun j hj => ?_, fun j hj => ?_⟩
    · by_cases hji : j = i
      · subst hji
        exact ⟨nr, gotNew_seat hle⟩
      · have htable : (s.gotNew i nr a c).inodeTable j = s.inodeTable j := update_of_ne hji ..
        exact hj.imp fun _ hx => hx.of_kept hl (by rw [htable]) (by rw [htable])
    · rcases List.mem_cons.mp hj with rfl | hj
      · exact .inr ⟨nr, gotNew_seat hle⟩
      · exact .inl hj

/-- The inode that `iget` returns has a descriptor. -/
theorem iget_sits (hs : Listed s) (h : iget dev nr s = some (i, t)) : Sits t i := by
  have hre := iget_resits dev nr s i t h
  obtain ⟨-, ⟨hf, -⟩ | ⟨-, hle, -, -, -, a, c, rfl⟩⟩ := iget_cases h
  · exact hre.sits i (hs i (List.mem_of_find?_eq_some hf))
  · exact ⟨nr, gotNew_seat hle⟩

theorem touch_resits (i : ℕ) : Leads Resits (touch i) :=
  .bind (resits_of_same time_same) fun _ => modInode_resits _ _ fun _ _ => ⟨rfl, rfl⟩

theorem namedLoop_resits (right : Str) (n inode : ℕ) (left : Str) (buf : Option ℕ) :
    Leads Resits (namedLoop right n inode left buf) := by
  induction n generalizing inode left buf with
  | zero => exact leads_stop
  | succ n ih =>
    unfold namedLoop
    refine .bind (resits_of_same (brelse_same _)) fun _ =>
      .bind (resits_of_same (findEntry_same _ _)) fun r => ?_
    rcases r with - | ⟨entry, next⟩
    · exact .bind (iput_resits _) fun _ => leads_pure _
    · exact .bind (leads_peek _) fun _ => .bind (iput_resits _) fun _ => .bind (leads_peek _) fun _ =>
        .bind (iget_resits _ _) fun _ => .bind (leads_peek _) fun _ =>
        .ite (.bind (resits_of_same (brelse_same _)) fun _ => .bind (iput_resits _) fun _ => leads_pure _)
          (.ite (.bind (resits_of_same (brelse_same _)) fun _ => leads_pure _) (ih _ _ _))

theorem namedFrom_resits (inode : ℕ) (left : Str) : Leads Resits (namedFrom inode left) := by
  unfold namedFrom
  refine .bind (modInode_resits _ _ fun _ _ => ⟨rfl, rfl⟩) fun _ => .ite (leads_pure _) ?_
  cases strrsep left with
  | none => exact leads_pure _
  | some right => exact namedLoop_resits _ _ _ _ _

theorem named_resits (pathname : Str) : Leads Resits (named pathname) := by
  unfold named
  exact .bind (leads_peek _) fun _ => .ite (namedFrom_resits _ _)
    (.ite (namedFrom_resits _ _) (leads_pure _))

theorem namei_resits (pathname : Str) : Leads Resits (namei pathname) := by
  unfold namei
  refine .bind (named_resits _) fun r => ?_
  rcases r with - | ⟨dir, next⟩
  · exact leads_pure _
  refine .ite (leads_pure _) (.bind (resits_of_same (findEntry_same _ _)) fun r => ?_)
  rcases r with - | ⟨entry, next⟩
  · exact .bind (iput_resits _) fun _ => leads_pure _
  · exact .bind (leads_peek _) fun _ => .bind (leads_peek _) fun _ => .bind (iget_resits _ _) fun _ =>
      .bind (iput_resits _) fun _ => .bind (resits_of_same (brelse_same _)) fun _ => leads_pure _

theorem namedLoop_sits {n : ℕ} {buf : Option ℕ} (hs : Listed s) (hi : Sits s inode)
    (h : namedLoop right n inode left buf s = some (some (j, name), t)) : Sits t j := by
  induction n generalizing s inode left buf with
  | zero => cases h
  | succ n ih =>
    obtain ⟨⟨⟩, u₁, h₁, k₁⟩ := bind_eq_some.mp h
    have hr₁ : Resits s u₁ := (brelse_same _ _ _ _ h₁).resits
    obtain ⟨o, u₂, h₂, k₂⟩ := bind_eq_some.mp k₁
    have hr₂ : Resits s u₂ := trans_of Resits hr₁ (findEntry_same _ _ _ _ _ h₂).resits
    rcases o with - | ⟨e, next⟩
    · obtain ⟨⟨⟩, u₃, -, k₃⟩ := bind_eq_some.mp k₂
      cases k₃
    dsimp only at k₂
    rw [peek_bind] at k₂
    obtain ⟨⟨⟩, u₃, h₃, k₃⟩ := bind_eq_some.mp k₂
    rw [peek_bind] at k₃
    have hr₃ : Resits s u₃ := trans_of Resits hr₂ (iput_resits _ _ _ _ h₃)
    obtain ⟨j', u₄, h₄, k₄⟩ := bind_eq_some.mp k₃
    have hr₄ : Resits s u₄ := trans_of Resits hr₃ (iget_resits _ _ _ _ _ h₄)
    have hsits : Sits u₄ j' := iget_sits (hr₃.listed hs) h₄
    rw [peek_bind] at k₄
    split_ifs at k₄ with hdir hend
    · obtain ⟨⟨⟩, u₅, -, k₅⟩ := bind_eq_some.mp k₄
      obtain ⟨⟨⟩, u₆, -, k₆⟩ := bind_eq_some.mp k₅
      cases k₆
    · obtain ⟨⟨⟩, u₅, h₅, k₅⟩ := bind_eq_some.mp k₄
      simp only [pure_apply, Option.some.injEq, Prod.mk.injEq] at k₅
      obtain ⟨⟨rfl, -⟩, rfl⟩ := k₅
      exact (brelse_same _ _ _ _ h₅).resits.sits _ hsits
    · exact ih (hr₄.listed hs) hsits k₄

theorem namedFrom_sits (hs : Listed s) (hi : Sits s inode)
    (h : namedFrom inode left s = some (some (j, name), t)) : Sits t j := by
  unfold namedFrom at h
  obtain ⟨⟨⟩, u, hu, k⟩ := bind_eq_some.mp h
  have hr : Resits s u := modInode_resits inode (fun _ n => { n with count := (n.count + 1) % 2 ^ 32 })
    (fun _ _ => ⟨rfl, rfl⟩) s _ u hu
  split_ifs at k with hend
  · simp only [pure_apply, Option.some.injEq, Prod.mk.injEq] at k
    obtain ⟨⟨rfl, -⟩, rfl⟩ := k
    exact hr.sits _ hi
  · cases hr' : strrsep left with
    | none =>
      rw [hr'] at k
      simp only [pure_apply, Option.some.injEq, Prod.mk.injEq] at k
      obtain ⟨⟨rfl, -⟩, rfl⟩ := k
      exact hr.sits _ hi
    | some right =>
      rw [hr'] at k
      exact namedLoop_sits (hr.listed hs) (hr.sits _ hi) k

/-- The inodes in memory, the directories of the tasks and the inodes of the files have
descriptors. -/
structure Seats (s : State) : Prop where
  listed : Listed s
  root : ∀ i, Sits s (s.tasks i).iroot
  pwd : ∀ i, Sits s (s.tasks i).ipwd
  file : ∀ f i, (s.fileTable f).inode = some i → Sits s i

theorem Seats.of_fixed (h : Seats s) (hr : Resits s t) (hf : Fixed s t) : Seats t where
  listed := hr.listed h.listed
  root i := by
    rw [hf.tasks]
    exact hr.sits _ (h.root i)
  pwd i := by
    rw [hf.tasks]
    exact hr.sits _ (h.pwd i)
  file f i hi := by
    rw [hf.fileTable] at hi
    exact hr.sits i (h.file f i hi)

/-- The directory that `named` returns has a descriptor. -/
theorem Seats.named (hs : Seats s) (h : named pathname s = some (some (j, name), t)) : Sits t j := by
  unfold Fs.named at h
  rw [peek_bind] at h
  split_ifs at h
  · exact namedFrom_sits hs.listed (hs.root _) h
  · exact namedFrom_sits hs.listed (hs.pwd _) h
  · cases h

theorem Seats.namei (hs : Seats s) (h : namei pathname s = some (some j, t)) : Sits t j := by
  unfold Fs.namei at h
  obtain ⟨o, u, ho, k⟩ := bind_eq_some.mp h
  rcases o with - | ⟨dir, next⟩
  · cases k
  dsimp only at k
  have hsits : Sits u dir := hs.named ho
  have hl : Listed u := (named_resits _ _ _ _ ho).listed hs.listed
  split_ifs at k with hend
  · simp only [pure_apply, Option.some.injEq, Prod.mk.injEq] at k
    obtain ⟨rfl, rfl⟩ := k
    exact hsits
  obtain ⟨o, u₂, h₂, k₂⟩ := bind_eq_some.mp k
  have hl₂ : Listed u₂ := (findEntry_same _ _ _ _ _ h₂).resits.listed hl
  rcases o with - | ⟨e, next'⟩
  · obtain ⟨⟨⟩, u₃, -, k₃⟩ := bind_eq_some.mp k₂
    cases k₃
  dsimp only at k₂
  rw [peek_bind, peek_bind] at k₂
  obtain ⟨i, u₃, h₃, k₃⟩ := bind_eq_some.mp k₂
  obtain ⟨⟨⟩, u₄, h₄, k₄⟩ := bind_eq_some.mp k₃
  obtain ⟨⟨⟩, u₅, h₅, k₅⟩ := bind_eq_some.mp k₄
  simp only [pure_apply, Option.some.injEq, Prod.mk.injEq] at k₅
  obtain ⟨rfl, rfl⟩ := k₅
  exact (brelse_same _ _ _ _ h₅).resits.sits _
    ((iput_resits _ _ _ _ h₄).sits _ (iget_sits hl₂ h₃))

end Sits

section Fields

/-- Nothing but the fields of the descriptor of inode `i` before its zone array is written. -/
structure Fields (i : ℕ) (s t : State) : Prop where
  same : Same s t
  data : ∀ c, c ≠ s.ibuf i → t.data c = s.data c
  other : ∀ a, a < s.idesc i ∨ s.idesc i + 14 ≤ a → t.data (s.ibuf i) a = s.data (s.ibuf i) a

instance : IsPreorder State (Fields i) where
  refl _ := ⟨refl_of Same _, fun _ _ => rfl, fun _ _ => rfl⟩
  trans s t u h h' := by
    have hbuf := ibuf_same h.same i
    refine ⟨trans_of Same h.same h'.same, fun c hc => ?_, fun a ha => ?_⟩
    · rw [h'.data c (by rw [hbuf]; exact hc), h.data c hc]
    · have hlast := h'.other a (by rw [idesc_same h.same]; exact ha)
      rw [hbuf] at hlast
      rw [hlast, h.other a ha]

theorem Fields.of_data (hs : Same s t) (h : t.data = s.data) : Fields i s t :=
  ⟨hs, fun c _ => congrFun h c, fun _ _ => by rw [h]⟩

theorem Fields.set {d : Block} (hd : ∀ a, a < s.idesc i ∨ s.idesc i + 14 ≤ a → d a = s.data (s.ibuf i) a) :
    Fields i s (s.setData (s.ibuf i) d) where
  same := ⟨rfl, rfl, rfl, rfl, rfl, rfl, rfl⟩
  data c hc := by rw [data_setData, update_of_ne hc]
  other a ha := by rw [data_setData, update_self, hd a ha]

theorem wr8_ne {d : Bytes} {a v k : ℕ} (h : k ≠ a) : d.wr8 a v k = d k := update_of_ne h ..

theorem setMode_fields (v : ℕ) : Fields i s (s.setMode i v) := .set fun _ _ => wr16_ne (by omega)

theorem setUid_fields (v : ℕ) : Fields i s (s.setUid i v) := .set fun _ _ => wr16_ne (by omega)

theorem setSize_fields (v : ℕ) : Fields i s (s.setSize i v) := .set fun _ _ => wr32_ne (by omega)

theorem setMtime_fields (v : ℕ) : Fields i s (s.setMtime i v) := .set fun _ _ => wr32_ne (by omega)

theorem setGid_fields (v : ℕ) : Fields i s (s.setGid i v) := .set fun _ _ => wr8_ne (by omega)

theorem setNlinks_fields (v : ℕ) : Fields i s (s.setNlinks i v) := .set fun _ _ => wr8_ne (by omega)

theorem setDirty_fields (b : ℕ) : Fields i s (s.setDirty b) :=
  .of_data ⟨rfl, rfl, rfl, rfl, rfl, rfl, rfl⟩ rfl

theorem time_fields : Leads (Fields i) time := fun s a t h =>
  .of_data (time_same s a t h) (time_quiet s a t h).data

theorem Fields.seat (hf : Fields j s t) (hi : Seat s i x) : Seat t i x := hf.same.seat hi

theorem Fields.kept (hf : Fields i s t) (h : Trees s) (hi : Seat s i x) : SameTrees s t := by
  refine h.kept_desc hi.le hf.same.fixed.layout (fun c hc => hf.data c ?_) fun a ha => ?_
  · rw [hi.buf]
    exact hc
  · rw [← hi.buf]
    apply hf.other
    rw [hi.desc]
    exact ha

theorem Fields.grown (hf : Fields i s t) (h : Trees s) (hi : Seat s i x) (hX : x ∈ X) : Grown X s t := by
  have hkept := hf.kept h hi
  have hzone : ∀ c, IsZone s c → t.data c = s.data c := by
    intro c hc
    apply hf.data
    rw [hi.buf]
    rintro rfl
    exact (h.sited.desc x hi.le).2 hc
  refine hkept.grown ⟨hkept.layout, fun y hy _ => hkept.nodes y hy,
    fun y hy _ p b hp hb => hzone b (h.zone y hy p b hp hb).1, fun y hy hyX a ha ha' => ?_⟩
    fun c hc _ => hzone c hc
  have hyx : y ≠ x := fun he => hyX (he ▸ hX)
  by_cases hb : s.descBuf y = s.descBuf x
  · have hlt := h.sited.inodes
    have hle := hi.le
    have hapart := desc_apart (by omega) (by omega) hyx hb
    have hlast := hf.other a
    rw [hi.buf, hi.desc] at hlast
    rw [hb]
    unfold DESC_SIZE at *
    exact hlast (by omega)
  · rw [hf.data _ (by rw [hi.buf]; exact hb)]

end Fields

section Pages

/-- A data zone that has no cells and that no file outside `X` has. -/
structure Page (X : Set ℕ) (s : State) (b : ℕ) : Prop where
  zone : IsZone s b
  loose : Loose s b
  own : ∀ y ≤ s.sb.desc.inodes, y ∉ X → ∀ p, Way p → s.nodeNr y p ≠ some b

/-- Only block `b` is written. -/
structure Writes (b : ℕ) (s t : State) : Prop where
  same : Same s t
  data : ∀ c, c ≠ b → t.data c = s.data c

instance : IsPreorder State (Writes b) where
  refl _ := ⟨refl_of Same _, fun _ _ => rfl⟩
  trans _ _ _ h h' := ⟨trans_of Same h.same h'.same, fun c hc => (h'.data c hc).trans (h.data c hc)⟩

theorem setData_writes (d : Block) : Writes b s (s.setData b d) :=
  ⟨⟨rfl, rfl, rfl, rfl, rfl, rfl, rfl⟩, fun _ hc => update_of_ne hc ..⟩

theorem setDirty_writes (c : ℕ) : Writes b s (s.setDirty c) :=
  ⟨⟨rfl, rfl, rfl, rfl, rfl, rfl, rfl⟩, fun _ _ => rfl⟩

/-- A block of a file is a page of it. -/
theorem Trees.page (h : Trees s) (hx : x ≤ s.sb.desc.inodes) (hk : k < TOTAL_BLOCK)
    (hb : s.nodeNr x (path k) = some b) (hX : x ∈ X) : Page X s b ∧ Allocated s b := by
  obtain ⟨hzone, halloc⟩ := h.zone x hx _ b (way_path hk) hb
  refine ⟨⟨hzone, fun y hy q hq hc => ?_, fun y hy hyX p hp hc => ?_⟩, halloc⟩
  · rcases inner_way hq with rfl | hw
    · obtain rfl := Option.some.inj hc
      exact (h.sited.desc y hy).2 hzone
    · obtain ⟨-, rfl⟩ := h.once y hy x hx q (path k) b hw (way_path hk) hc hb
      exact path_not_inner hk hq
  · exact hyX ((h.once y hy x hx p (path k) b hp (way_path hk) hc hb).1 ▸ hX)

theorem Writes.kept (hw : Writes b s t) (h : Trees s) (hb : Page X s b) : SameTrees s t :=
  .of_loose hw.same.fixed.layout (fun hm => h.sited.map_zone hm hb.zone) hb.loose hw.data

theorem Writes.spares (hw : Writes b s t) (h : Trees s) (hb : Page X s b) : Spares X s t := by
  have hkept := hw.kept h hb
  refine ⟨hkept.layout, fun y hy _ => hkept.nodes y hy, fun y hy hyX p c hp hc => hw.data c ?_,
    fun y hy hyX a _ _ => ?_⟩
  · rintro rfl
    exact hb.own y hy hyX p hp hc
  · rw [hw.data]
    rintro rfl
    exact (h.sited.desc y hy).2 hb.zone

theorem Writes.grown (hw : Writes b s t) (h : Trees s) (hb : Page X s b) (ha : Allocated s b) :
    Grown X s t :=
  (hw.kept h hb).grown (hw.spares h hb) fun c _ hc => hw.data c fun he => hc (he ▸ ha)

theorem Page.grown (hb : Page X s b) (ha : Allocated s b) (h : Grown X s t) : Page X t b where
  zone := h.layout.isZone.mpr hb.zone
  loose := h.loose b hb.loose ha
  own y hy hyX p hp := by
    rw [h.layout.desc] at hy
    rw [h.spares.nodes y hy hyX p (.inr hp)]
    exact hb.own y hy hyX p hp

theorem Page.kept (hb : Page X s b) (h : SameTrees s t) : Page X t b where
  zone := h.layout.isZone.mpr hb.zone
  loose := h.loose.mpr hb.loose
  own y hy hyX p hp := by
    rw [h.layout.desc] at hy
    rw [h.nodes y hy p (.inr hp)]
    exact hb.own y hy hyX p hp

theorem Page.pruned (hb : Page X s b) (h : Pruned x s t) : Page X t b where
  zone := h.spares.layout.isZone.mpr hb.zone
  loose := h.loose hb.loose
  own y hy hyX p hp hc := by
    rw [h.spares.layout.desc] at hy
    exact hb.own y hy hyX p hp (h.nodes hy hp hc).2

end Pages

section Marks

/-- Only blocks of the inode bitmap are written. -/
structure Marks (s t : State) : Prop where
  same : Same s t
  data : ∀ c, (∀ i, s.sb.imaps i ≠ some c) → t.data c = s.data c

instance : IsPreorder State Marks where
  refl _ := ⟨refl_of Same _, fun _ _ => rfl⟩
  trans _ _ _ h h' := ⟨trans_of Same h.same h'.same, fun c hc =>
    (h'.data c (by rw [h.same.sb]; exact hc)).trans (h.data c hc)⟩

theorem Marks.of_data (hs : Same s t) (h : t.data = s.data) : Marks s t := ⟨hs, fun c _ => congrFun h c⟩

theorem scanMaps_data {maps : ℕ → Option ℕ} {length limit n : ℕ} {offset : ℕ → ℕ} {buf : Option ℕ}
    {r : Option ℕ × ℕ} (h : scanMaps maps length offset limit n i buf s = some (r, t))
    (hc : ∀ i, maps i ≠ some c) : t.data c = s.data c := by
  induction n generalizing s i buf with
  | zero =>
    obtain ⟨-, rfl⟩ := Prod.mk.inj (Option.some.inj h)
    rfl
  | succ n ih =>
    unfold scanMaps at h
    cases hz : maps i with
    | none =>
      rw [hz] at h
      cases h
    | some z =>
      rw [hz] at h
      dsimp only at h
      rw [peek_bind] at h
      obtain ⟨⟨bit, map⟩, u, hu, k⟩ := bind_eq_some.mp h
      obtain ⟨-, rfl⟩ := lift_eq_some.mp hu
      dsimp only at k
      rw [poke_bind] at k
      have hne : c ≠ z := fun he => hc i (he ▸ hz)
      split_ifs at k
      · obtain ⟨⟨⟩, v, hv, k₁⟩ := bind_eq_some.mp k
        obtain ⟨-, rfl⟩ := assert_eq_some.mp hv
        obtain ⟨-, rfl⟩ := Prod.mk.inj (Option.some.inj k₁)
        exact update_of_ne hne ..
      · rw [ih k]
        exact update_of_ne hne ..

theorem clearMaps_data {maps : ℕ → Option ℕ} {length idx n : ℕ} {offset : ℕ → ℕ} {o : Option ℕ}
    (h : clearMaps maps length offset idx n i s = some (o, t)) (hc : ∀ i, maps i ≠ some c) :
    t.data c = s.data c := by
  induction n generalizing i with
  | zero => cases h
  | succ n ih =>
    unfold clearMaps at h
    split_ifs at h
    · exact ih h
    cases hz : maps i with
    | none =>
      rw [hz] at h
      cases h
    | some z =>
      rw [hz] at h
      dsimp only at h
      rw [peek_bind] at h
      obtain ⟨x, u, hu, k₁⟩ := bind_eq_some.mp h
      obtain ⟨-, rfl⟩ := lift_eq_some.mp hu
      obtain ⟨⟨⟩, w, hw, k₂⟩ := bind_eq_some.mp k₁
      obtain ⟨-, rfl⟩ := assert_eq_some.mp hw
      obtain ⟨map, y, hy, k₃⟩ := bind_eq_some.mp k₂
      obtain ⟨-, rfl⟩ := lift_eq_some.mp hy
      obtain ⟨-, rfl⟩ := Prod.mk.inj (Option.some.inj k₃)
      have hne : c ≠ z := fun he => hc i (he ▸ hz)
      exact update_of_ne hne ..

theorem ialloc_marks (dev : ℤ) : Leads Marks (ialloc dev) := by
  intro s r t h
  refine ⟨ialloc_same dev s r t h, fun c hc => ?_⟩
  unfold ialloc at h
  obtain ⟨sb, u, hu, k₁⟩ := bind_eq_some.mp h
  obtain ⟨-, rfl, rfl⟩ := getSuper_eq.mp hu
  obtain ⟨⟨buf, bit⟩, w, hw, k₂⟩ := bind_eq_some.mp k₁
  obtain ⟨⟨⟩, v, hv, k₃⟩ := bind_eq_some.mp k₂
  obtain ⟨-, rfl⟩ := Prod.mk.inj (Option.some.inj k₃)
  rw [(bwrite_quiet _ _ _ _ hv).data, scanMaps_data hw hc]

theorem ifree_marks (dev : ℤ) (idx : ℕ) : Leads Marks (ifree dev idx) := by
  intro s r t h
  refine ⟨ifree_same dev idx s r t h, fun c hc => ?_⟩
  unfold ifree at h
  obtain ⟨sb, u, hu, k₁⟩ := bind_eq_some.mp h
  obtain ⟨-, rfl, rfl⟩ := getSuper_eq.mp hu
  obtain ⟨⟨⟩, w, hw, k₂⟩ := bind_eq_some.mp k₁
  obtain ⟨-, rfl⟩ := assert_eq_some.mp hw
  obtain ⟨o, v, hv, k₃⟩ := bind_eq_some.mp k₂
  rw [(bwrite_quiet _ _ _ _ k₃).data, clearMaps_data hv hc]

theorem Marks.off (hm : Marks s t) (h : Trees s) :
    (∀ c, IsMap s c ∨ IsZone s c → t.data c = s.data c) ∧
      ∀ y ≤ s.sb.desc.inodes, t.data (s.descBuf y) = s.data (s.descBuf y) := by
  refine ⟨fun c hc => hm.data c fun i hi => ?_, fun y hy => hm.data _ fun i hi => ?_⟩
  · obtain ⟨hmap, hzone, -⟩ := h.sited.imaps i c hi
    exact hc.elim hmap hzone
  · exact (h.sited.imaps i _ hi).2.2 y hy rfl

theorem Marks.grown (hm : Marks s t) (h : Trees s) : SameTrees s t ∧ Grown X s t := by
  obtain ⟨hblocks, hdesc⟩ := hm.off h
  have hkept : SameTrees s t := by
    refine .of_cells hm.same.fixed.layout (fun z hz => hblocks z (.inl hz)) fun y hy q i b hw hb => ?_
    apply cell_data
    rcases way_parent hw with rfl | hq
    · obtain rfl := Option.some.inj hb
      exact hdesc y hy
    · exact hblocks b (.inr (h.zone y hy q b hq hb).1)
  refine ⟨hkept, hkept.grown ⟨hkept.layout, fun y hy _ => hkept.nodes y hy, fun y hy _ p b hp hb =>
    hblocks b (.inr (h.zone y hy p b hp hb).1), fun y hy _ a _ _ => by rw [hdesc y hy]⟩
    fun c hc _ => hblocks c (.inr hc)⟩

end Marks

end Onix.Fs
