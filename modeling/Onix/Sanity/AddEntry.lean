import Onix.Sanity.Contents
import Onix.Sanity.Lookup
import Onix.Spec.Image

/-! Directories whose blocks `bmap` returns: `find_entry` comes back with an answer, and what
`add_entry` writes where. -/

namespace Onix.Fs

open Function Prog Cstr Bytes

variable {s t u : State} {dir i j k n nr b : ℕ} {D : Set ℕ} {m : ℕ → ℕ} {d : Block} {name : Str}
  {e : Entry} {entry : Option Entry}

/-- Slot `j` of a directory whose blocks are `m`. -/
def slotAt (m : ℕ → ℕ) (j : ℕ) : Entry :=
  ⟨m (j / BLOCK_DENTRIES), DENTRY_SIZE * (j % BLOCK_DENTRIES)⟩

/-- A directory of whole entries, whose blocks are mapped, as is the next one where every entry
is in use. -/
structure Directory (dir : ℕ) (D : Set ℕ) (m : ℕ → ℕ) (s : State) : Prop where
  maps : MapsTo dir D m s
  whole : DENTRY_SIZE ∣ s.size dir
  mapped : ∀ j < s.entries dir, j / BLOCK_DENTRIES ∈ D ∧ Mapped dir m s (j / BLOCK_DENTRIES)
  next : (∀ j < s.entries dir, s.entryNr (slotAt m j) ≠ 0) → s.entries dir / BLOCK_DENTRIES ∈ D

theorem Mapped.slot (h : Mapped dir m s (j / BLOCK_DENTRIES)) : s.slot dir j = slotAt m j := by
  obtain ⟨t, ht⟩ := h
  unfold State.slot slotAt
  rw [← bmap_mapped ht]

theorem slotAt_inj (hm : MapsTo dir D m s) (hj : j / BLOCK_DENTRIES ∈ D) (hk : k / BLOCK_DENTRIES ∈ D)
    (h : slotAt m j = slotAt m k) : j = k := by
  obtain ⟨hbuf, haddr⟩ := Entry.mk.inj h
  have hdiv := hm.inj _ hj _ hk hbuf
  have hmod : j % BLOCK_DENTRIES = k % BLOCK_DENTRIES :=
    Nat.eq_of_mul_eq_mul_left (by decide) haddr
  rw [← Nat.div_add_mod j BLOCK_DENTRIES, ← Nat.div_add_mod k BLOCK_DENTRIES, hdiv, hmod]

section Find

/-- The step of the loops to a new block, where it is there. -/
theorem load_returns (hm : MapsTo dir D m s) (hk : i / BLOCK_DENTRIES ∈ D)
    (hmap : Mapped dir m s (i / BLOCK_DENTRIES)) : ∃ t, entryAt.load dir i false s =
      some (⟨m (i / BLOCK_DENTRIES), 0⟩, t) ∧ Later dir D m s t ∧
      0 < t.cache.count (m (i / BLOCK_DENTRIES)) := by
  obtain ⟨u, hu⟩ := hmap
  have hlater : Later dir D m s u := .bmap .here hk hu
  have hdev := (hm.later hlater).dev
  refine ⟨{ u with cache := u.cache.hold (m (i / BLOCK_DENTRIES)) }, ?_,
    .store hlater (.of_data ⟨rfl, rfl, rfl, rfl, rfl, rfl, rfl⟩ rfl), ?_⟩
  · unfold entryAt.load
    rw [bind_of_eq hu, assert_bind (by simpa using hm.ne_zero _ hk), peek_bind,
      bind_of_eq (bread_held hdev _)]
    rfl
  · have hself : (u.cache.hold (m (i / BLOCK_DENTRIES))).count (m (i / BLOCK_DENTRIES)) =
        u.cache.count (m (i / BLOCK_DENTRIES)) + 1 := update_self ..
    dsimp only
    rw [hself]
    exact Nat.succ_pos _

theorem later_brelse {o : Option ℕ} {x : Unit} (h : brelse o s = some (x, t)) : Later dir D m s t :=
  .store .here (.of_data (brelse_same _ _ _ _ h) (brelse_data h))

/-- The loop of `find_entry` comes to an end where the blocks are there. -/
theorem findLoop_returns (hm : MapsTo dir D m s)
    (hD : ∀ j, i ≤ j → j < i + n → j / BLOCK_DENTRIES ∈ D ∧ Mapped dir m s (j / BLOCK_DENTRIES))
    (hheld : ∀ e, entry = some e → 0 < s.cache.count e.buf) :
    ∃ o t, findLoop dir name n i entry s = some (o, t) ∧ Later dir D m s t := by
  induction n generalizing s i entry with
  | zero =>
    obtain ⟨t, ht⟩ : ∃ t, brelse (entry.map Entry.buf) s = some ((), t) := by
      cases entry with
      | none => exact ⟨s, rfl⟩
      | some e => exact brelse_held (hheld e rfl)
    refine ⟨none, t, ?_, later_brelse ht⟩
    unfold findLoop
    exact bind_of_eq ht
  | succ n ih =>
    obtain ⟨hk, hmap⟩ := hD i (Nat.le_refl i) (by omega)
    obtain ⟨e, t, ht, hlater, hcount⟩ : ∃ e t, entryAt dir i false entry s = some (e, t) ∧
        Later dir D m s t ∧ 0 < t.cache.count e.buf := by
      cases entry with
      | none =>
        obtain ⟨t, ht, hl, hc⟩ := load_returns hm hk hmap
        exact ⟨_, t, ht, hl, hc⟩
      | some e =>
        unfold entryAt
        dsimp only
        split_ifs
        · exact ⟨e, s, rfl, .here, hheld e rfl⟩
        · obtain ⟨u, hu⟩ := brelse_held (hheld e rfl)
          have hlu : Later dir D m s u := later_brelse hu
          obtain ⟨t, ht, hl, hc⟩ := load_returns (hm.later hlu) hk (hm.again s u .here hlu _ hk hmap)
          exact ⟨_, t, (bind_of_eq hu).trans ht, hlu.trans hl, hc⟩
    have hrest : ∀ j, i + 1 ≤ j → j < i + 1 + n →
        j / BLOCK_DENTRIES ∈ D ∧ Mapped dir m t (j / BLOCK_DENTRIES) := by
      intro j hj hlt
      obtain ⟨hkj, hmapj⟩ := hD j (by omega) (by omega)
      exact ⟨hkj, hm.again s t .here hlater _ hkj hmapj⟩
    unfold findLoop
    rw [bind_of_eq ht, peek_bind]
    cases matchName name (t.data e.buf) (e.addr + 2) with
    | some next => exact ⟨_, t, rfl, hlater⟩
    | none =>
      have hnext : ∀ e', some e.next = some e' → 0 < t.cache.count e'.buf := by
        intro e' he'
        obtain rfl := Option.some.inj he'
        exact hcount
      obtain ⟨o, u, hu, hlu⟩ := ih (hm.later hlater) hrest hnext
      exact ⟨o, u, hu, hlater.trans hlu⟩

/-- `find_entry` in a directory whose blocks are there. -/
theorem findEntry_returns (name : Str) (hm : MapsTo dir D m s) (hdir : isDir (s.mode dir) = true)
    (hD : ∀ j < s.entries dir, j / BLOCK_DENTRIES ∈ D ∧ Mapped dir m s (j / BLOCK_DENTRIES)) :
    ∃ o t, findEntry dir name s = some (o, t) ∧ Later dir D m s t := by
  unfold findEntry
  rw [peek_bind, assert_bind hdir, peek_bind]
  apply findLoop_returns hm
  · intro j _ hlt
    exact hD j (by unfold State.entries; omega)
  · intro e he
    cases he

end Find

section Add

/-- Seen from the directory nothing has changed. -/
structure Seen (dir : ℕ) (D : Set ℕ) (m : ℕ → ℕ) (s t : State) : Prop where
  later : Later dir D m s t
  data : ∀ l ∈ D, t.data (m l) = s.data (m l)
  size : t.size dir = s.size dir
  mode : t.mode dir = s.mode dir

/-- Block `b` of the directory has become `d`, and no other one has changed. -/
structure Edits (dir : ℕ) (D : Set ℕ) (m : ℕ → ℕ) (b : ℕ) (d : Block) (s t : State) : Prop where
  later : Later dir D m s t
  self : t.data (m b) = d
  other : ∀ l ∈ D, l ≠ b → t.data (m l) = s.data (m l)
  mode : t.mode dir = s.mode dir

theorem Seen.trans (h : Seen dir D m s t) (h' : Seen dir D m t u) : Seen dir D m s u where
  later := h.later.trans h'.later
  data l hl := (h'.data l hl).trans (h.data l hl)
  size := h'.size.trans h.size
  mode := h'.mode.trans h.mode

theorem Seen.of_data (hlater : Later dir D m s t) (hdata : t.data = s.data) : Seen dir D m s t where
  later := hlater
  data l _ := by rw [hdata]
  size := (hlater.fields hdata).1
  mode := (hlater.fields hdata).2

theorem Seen.edits (h : Seen dir D m s t) (h' : Edits dir D m b d t u) : Edits dir D m b d s u where
  later := h.later.trans h'.later
  self := h'.self
  other l hl hne := (h'.other l hl hne).trans (h.data l hl)
  mode := h'.mode.trans h.mode

theorem Edits.trans {d' : Block} (h : Edits dir D m b d s t) (h' : Edits dir D m b d' t u) :
    Edits dir D m b d' s u where
  later := h.later.trans h'.later
  self := h'.self
  other l hl hne := (h'.other l hl hne).trans (h.other l hl hne)
  mode := h'.mode.trans h.mode

/-- `entry` is slot `i`, or there is none yet or it has left its block before `i`. -/
def AddCursor (m : ℕ → ℕ) (i : ℕ) (entry : Option Entry) : Prop :=
  (entry = some (slotAt m i) ∧ i % BLOCK_DENTRIES ≠ 0) ∨
  (i % BLOCK_DENTRIES = 0 ∧ ∀ e, entry = some e → BLOCK_SIZE ≤ e.addr)

theorem slotAt_lt : (slotAt m i).addr < BLOCK_SIZE := by
  have hlt : i % BLOCK_DENTRIES < BLOCK_DENTRIES := Nat.mod_lt _ (by decide)
  unfold slotAt
  unfold BLOCK_DENTRIES BLOCK_SIZE DENTRY_SIZE at *
  dsimp only
  omega

theorem AddCursor.next : AddCursor m (i + 1) (some (slotAt m i).next) := by
  unfold AddCursor slotAt Entry.next
  by_cases hlast : (i + 1) % BLOCK_DENTRIES = 0
  · refine .inr ⟨hlast, fun e he => ?_⟩
    obtain rfl := Option.some.inj he
    unfold BLOCK_DENTRIES BLOCK_SIZE DENTRY_SIZE at *
    dsimp only
    omega
  · have hdiv : (i + 1) / BLOCK_DENTRIES = i / BLOCK_DENTRIES := by
      unfold BLOCK_DENTRIES BLOCK_SIZE DENTRY_SIZE at *
      omega
    have hmod : (i + 1) % BLOCK_DENTRIES = i % BLOCK_DENTRIES + 1 := by
      unfold BLOCK_DENTRIES BLOCK_SIZE DENTRY_SIZE at *
      omega
    refine .inl ⟨?_, hlast⟩
    rw [hdiv, hmod]
    rfl

/-- The step of `add_entry` to slot `i`, whose block may be a new one. -/
theorem entryAt_create (hm : MapsTo dir D m s) (hk : i / BLOCK_DENTRIES ∈ D)
    (hc : AddCursor m i entry) (h : entryAt dir i true entry s = some (e, t)) :
    e = slotAt m i ∧ Seen dir D m s t ∧
      (i % BLOCK_DENTRIES = 0 → Mapped dir m t (i / BLOCK_DENTRIES)) := by
  have hload : ∀ {v : State}, Seen dir D m s v → i % BLOCK_DENTRIES = 0 →
      entryAt.load dir i true v = some (e, t) → e = slotAt m i ∧ Seen dir D m s t ∧
        Mapped dir m t (i / BLOCK_DENTRIES) := by
    intro v hv h0 hl
    obtain ⟨w, hw, hmapped, hdata, hmode, hsize⟩ := hm.create v hv.later _ hk
    have hlater : Later dir D m v w := .bmap .here hk hw
    have hdev := ((hm.later hv.later).later hlater).dev
    let x : State := { w with cache := w.cache.hold (m (i / BLOCK_DENTRIES)) }
    have hx : Seen dir D m w x :=
      .of_data (.store .here (.of_data ⟨rfl, rfl, rfl, rfl, rfl, rfl, rfl⟩ rfl)) rfl
    have hrun : entryAt.load dir i true v = some (⟨m (i / BLOCK_DENTRIES), 0⟩, x) := by
      unfold entryAt.load
      rw [bind_of_eq hw, assert_bind (by simpa using hm.ne_zero _ hk), peek_bind,
        bind_of_eq (bread_held hdev _)]
      rfl
    obtain ⟨rfl, rfl⟩ := Prod.mk.inj (Option.some.inj (hl.symm.trans hrun))
    have hvw : Seen dir D m v w := ⟨hlater, hdata, hsize, hmode⟩
    refine ⟨?_, hv.trans (hvw.trans hx), ?_⟩
    · unfold slotAt
      rw [h0, Nat.mul_zero]
    · exact hm.again w _ (hv.later.trans hlater) hx.later _ hk hmapped
  obtain ⟨rfl, hne⟩ | ⟨h0, hover⟩ := hc
  · unfold entryAt at h
    dsimp only at h
    rw [if_pos slotAt_lt] at h
    obtain ⟨rfl, rfl⟩ := Prod.mk.inj (Option.some.inj h)
    exact ⟨rfl, .of_data .here rfl, fun h0 => absurd h0 hne⟩
  · obtain ⟨he, hseen, hmapped⟩ : e = slotAt m i ∧ Seen dir D m s t ∧
        Mapped dir m t (i / BLOCK_DENTRIES) := by
      cases entry with
      | none => exact hload (.of_data .here rfl) h0 h
      | some e' =>
        unfold entryAt at h
        dsimp only at h
        rw [if_neg (by have := hover e' rfl; omega)] at h
        obtain ⟨⟨⟩, v, hv, h⟩ := bind_eq_some.mp h
        exact hload (.of_data (later_brelse hv) (brelse_data hv)) h0 h
    exact ⟨he, hseen, fun _ => hmapped⟩

/-- New contents of a block of the directory. -/
theorem edits_setData (hm : MapsTo dir D m s) (hb : b ∈ D) (d : Block) :
    Edits dir D m b d s (s.setData (m b) d) ∧ (s.setData (m b) d).size dir = s.size dir := by
  have hother : ∀ c, c ≠ m b → (s.setData (m b) d).data c = s.data c := fun c hc => update_of_ne hc ..
  have hdesc : (s.setData (m b) d).data (s.ibuf dir) = s.data (s.ibuf dir) :=
    hother _ (hm.apart b hb).symm
  refine ⟨⟨.store .here ⟨⟨rfl, rfl, rfl, rfl, rfl, rfl, rfl⟩, ⟨(s.inodeTable dir).atime, ?_⟩, ?_⟩,
    update_self .., ?_, ?_⟩, ?_⟩
  · exact (update_eq_self dir _).symm
  · intro c x hc _
    rw [hother c (hc b hb)]
  · intro l hl hne
    exact hother _ fun h => hne (hm.inj l hl b hb h)
  · exact congrArg (fun d : Block => d.rd16 (s.idesc dir)) hdesc
  · exact congrArg (fun d : Block => d.rd32 (s.idesc dir + 4)) hdesc

/-- A larger size. -/
theorem grow_edits (hm : MapsTo dir D m s) (hb : b ∈ D) {x : ℕ} (hx : x < 2 ^ 32) :
    Edits dir D m b (s.data (m b)) s (s.grow dir x) ∧ (s.grow dir x).size dir = max (s.size dir) x := by
  obtain ⟨hsize, hmode⟩ : (s.grow dir x).size dir = max (s.size dir) x ∧
      (s.grow dir x).mode dir = s.mode dir := grow_fields hx
  refine ⟨⟨.store .here ⟨⟨grow_same.dev, grow_same.sb, rfl, grow_same.fileTable, grow_same.tasks,
    grow_same.running, grow_same.clock⟩, ⟨(s.inodeTable dir).atime, ?_⟩, ?_⟩,
    grow_data (hm.apart b hb), fun l hl _ => grow_data (hm.apart l hl), hmode⟩, hsize⟩
  · rw [grow_same.inodeTable]
    exact (update_eq_self dir _).symm
  · intro c i _ hi
    exact grow_byte hi

/-- `dir->desc->mtime = time()`. -/
theorem mtime_seen (hm : MapsTo dir D m s) (v : ℕ) {o : State} (ho : Later dir D m s o)
    (hdata : o.data = s.data) : Seen dir D m s ((o.setMtime dir v).dirtyInode dir) := by
  have hseen : Seen dir D m s o := .of_data ho hdata
  have hmo := hm.later ho
  obtain ⟨hsize, hmode⟩ : (o.stamped dir v).size dir = o.size dir ∧
      (o.stamped dir v).mode dir = o.mode dir := stamped_fields v
  have hstamped : (o.stamped dir v).data = ((o.setMtime dir v).dirtyInode dir).data := data_cleaned _ _
  have hstored : Stored dir D m o (o.stamped dir v) := stored_stamped v
  refine hseen.trans ⟨.store .here ⟨⟨rfl, rfl, rfl, rfl, rfl, rfl, rfl⟩, hstored.table, ?_⟩, ?_, ?_, ?_⟩
  · rw [← hstamped]
    exact hstored.data
  · intro l hl
    rw [← hstamped]
    exact stamped_other v (hmo.apart l hl)
  · rw [← hsize]
    unfold State.size
    rw [hstamped]
    rfl
  · rw [← hmode]
    unfold State.mode
    rw [hstamped]
    rfl

/-- What `add_entry` does with the slot it has found. -/
theorem fillEntry_edits (hm : MapsTo dir D m s) (hk : k / BLOCK_DENTRIES ∈ D)
    (h : fillEntry dir name (slotAt m k) s = some ((), t)) :
    Edits dir D m (k / BLOCK_DENTRIES) (strncpy (s.data (m (k / BLOCK_DENTRIES)))
      ((slotAt m k).addr + 2) name NAME_LEN) s t ∧ t.size dir = s.size dir := by
  obtain ⟨hedit, hsize⟩ := edits_setData hm hk
    (strncpy (s.data (m (k / BLOCK_DENTRIES))) ((slotAt m k).addr + 2) name NAME_LEN)
  let s₁ := (s.setData (m (k / BLOCK_DENTRIES))
    (strncpy (s.data (m (k / BLOCK_DENTRIES))) ((slotAt m k).addr + 2) name NAME_LEN)).setDirty
      (m (k / BLOCK_DENTRIES))
  let s₂ : State := { s₁ with ticks := s₁.ticks + 1 }
  have hrun : fillEntry dir name (slotAt m k) s =
      some ((), (s₂.setMtime dir (s₁.clock s₁.ticks)).dirtyInode dir) := rfl
  obtain ⟨-, rfl⟩ := Prod.mk.inj (Option.some.inj (h.symm.trans hrun))
  have hmark : Later dir D m (s.setData (m (k / BLOCK_DENTRIES))
      (strncpy (s.data (m (k / BLOCK_DENTRIES))) ((slotAt m k).addr + 2) name NAME_LEN)) s₂ :=
    .store .here (.of_data ⟨rfl, rfl, rfl, rfl, rfl, rfl, rfl⟩ rfl)
  have hseen := mtime_seen (hm.later hedit.later) (s₁.clock s₁.ticks) hmark rfl
  exact ⟨⟨hedit.later.trans hseen.later, (hseen.data _ hk).trans hedit.self,
    fun l hl hne => (hseen.data l hl).trans (hedit.other l hl hne), hseen.mode.trans hedit.mode⟩,
    hseen.size.trans hsize⟩

/-- What `add_entry` does with a slot at the end of the directory. -/
theorem growDir_edits (hm : MapsTo dir D m s) (hk : k / BLOCK_DENTRIES ∈ D)
    (hsize : s.size dir = k * DENTRY_SIZE) (hlt : (k + 1) * DENTRY_SIZE < 2 ^ 32)
    (h : growDir dir k (slotAt m k) s = some ((), t)) :
    Edits dir D m (k / BLOCK_DENTRIES)
      ((s.data (m (k / BLOCK_DENTRIES))).wr16 (slotAt m k).addr 0) s t ∧
      t.size dir = (k + 1) * DENTRY_SIZE := by
  obtain ⟨hedit, hsame⟩ := edits_setData hm hk
    ((s.data (m (k / BLOCK_DENTRIES))).wr16 (slotAt m k).addr 0)
  have hmore : (k + 1) * DENTRY_SIZE = k * DENTRY_SIZE + DENTRY_SIZE := by ring
  have hpos : 0 < DENTRY_SIZE := by decide
  let s₁ := s.setEntryNr (slotAt m k) 0
  have hless : s₁.size dir < (k + 1) * DENTRY_SIZE := by
    have hs₁ : s₁.size dir = s.size dir := hsame
    omega
  have hrun : growDir dir k (slotAt m k) s = some ((), s₁.grow dir ((k + 1) * DENTRY_SIZE)) := by
    unfold growDir State.grow
    rw [peek_bind, decide_eq_true (Nat.le_of_eq hsize), when_true, if_pos hless]
    rfl
  obtain ⟨-, rfl⟩ := Prod.mk.inj (Option.some.inj (h.symm.trans hrun))
  obtain ⟨hgrow, hmax⟩ := grow_edits (hm.later hedit.later) hk hlt
  refine ⟨⟨hedit.later.trans hgrow.later, hgrow.self.trans hedit.self,
    fun l hl hne => (hgrow.other l hl hne).trans (hedit.other l hl hne),
    hgrow.mode.trans hedit.mode⟩, ?_⟩
  exact hmax.trans (Nat.max_eq_right (Nat.le_of_lt hless))

theorem growDir_inside (h : k * DENTRY_SIZE < s.size dir) :
    growDir dir k e s = some ((), s) := by
  unfold growDir
  rw [peek_bind, decide_eq_false (Nat.not_le_of_lt h), when_false]
  rfl

/-- The bytes of an entry with this number that `add_entry` has made for `name`. -/
def entryBytes (nr : ℕ) (name : Str) : List Byte :=
  le16 nr ++ ((chars name).take (NAME_LEN - 1) ++ [EOS])

theorem wr16_eq_write (d : Bytes) (a v : ℕ) : d.wr16 a v = d.write a (le16 v) := by
  funext x
  unfold Bytes.wr16 Bytes.wr8 Bytes.write le16
  obtain rfl | h₁ := eq_or_ne x (a + 1)
  · simp
  rw [update_of_ne h₁]
  obtain rfl | h₀ := eq_or_ne x a
  · simp
  rw [update_of_ne h₀, if_neg (by simp; omega)]

/-- A number written in front of bytes that have been written. -/
theorem wr16_write (d : Bytes) (a v : ℕ) (xs : List Byte) :
    (d.write (a + 2) xs).wr16 a v = d.write a (le16 v ++ xs) := by
  rw [wr16_eq_write]
  funext x
  unfold Bytes.write
  have hlen : (le16 v).length = 2 := rfl
  rw [List.length_append, hlen]
  by_cases hx : a ≤ x ∧ x < a + 2
  · rw [if_pos hx, if_pos (by omega), List.getD_append _ _ _ _ (by omega)]
  · rw [if_neg hx]
    by_cases hy : a + 2 ≤ x ∧ x < a + 2 + xs.length
    · rw [if_pos hy, if_pos (by omega), List.getD_append_right _ _ _ _ (by omega), hlen, Nat.sub_sub]
    · rw [if_neg hy, if_neg (by omega)]

theorem write_wr16 (d : Bytes) (a v w : ℕ) (xs : List Byte) :
    (d.wr16 a v).write a (le16 w ++ xs) = d.write a (le16 w ++ xs) := by
  funext x
  have hlen : (le16 w ++ xs).length = 2 + xs.length := List.length_append
  unfold Bytes.write
  rw [hlen]
  by_cases hx : a ≤ x ∧ x < a + (2 + xs.length)
  · rw [if_pos hx, if_pos hx]
  · rw [if_neg hx, if_neg hx]
    unfold Bytes.wr16 Bytes.wr8
    rw [update_of_ne (by omega), update_of_ne (by omega)]

/-- From `s` to `t` slot `k` has been given the name, and counts. -/
structure Filled (dir : ℕ) (D : Set ℕ) (m : ℕ → ℕ) (name : Str) (k : ℕ) (s t : State) : Prop where
  le : k ≤ s.entries dir
  used : ∀ j < k, s.entryNr (slotAt m j) ≠ 0
  free : k < s.entries dir → s.entryNr (slotAt m k) = 0
  block : k / BLOCK_DENTRIES ∈ D
  mapped : Mapped dir m t (k / BLOCK_DENTRIES)
  later : Later dir D m s t
  self : ∀ nr, (t.data (m (k / BLOCK_DENTRIES))).wr16 (slotAt m k).addr nr =
    (s.data (m (k / BLOCK_DENTRIES))).write (slotAt m k).addr (entryBytes nr name)
  other : ∀ l ∈ D, l ≠ k / BLOCK_DENTRIES → t.data (m l) = s.data (m l)
  mode : t.mode dir = s.mode dir
  entries : t.entries dir = max (s.entries dir) (k + 1)

theorem Directory.size_eq (hd : Directory dir D m s) : s.size dir = s.entries dir * DENTRY_SIZE :=
  (Nat.div_mul_cancel hd.whole).symm

/-- The loop of `add_entry`, from a slot behind entries that are in use. -/
theorem addLoop_filled (hd : Directory dir D m s) (hu : Seen dir D m s u) (hle : i ≤ s.entries dir)
    (hused : ∀ j < i, s.entryNr (slotAt m j) ≠ 0) (hc : AddCursor m i entry)
    (h : addLoop dir name n i entry u = some (e, t)) :
    ∃ k, e = slotAt m k ∧ Filled dir D m name k s t := by
  induction n generalizing u i entry with
  | zero => cases h
  | succ n ih =>
    have hk : i / BLOCK_DENTRIES ∈ D := by
      obtain rfl | hlt := Nat.eq_or_lt_of_le hle
      · exact hd.next hused
      · exact (hd.mapped i hlt).1
    unfold addLoop at h
    obtain ⟨e', v, hv, h⟩ := bind_eq_some.mp h
    obtain ⟨rfl, hseen, hnew⟩ := entryAt_create (hd.maps.later hu.later) hk hc hv
    have hsv := hu.trans hseen
    have hmv := hd.maps.later hsv.later
    -- a block that has not been entered here is that of the slot before
    have hmapped : Mapped dir m v (i / BLOCK_DENTRIES) := by
      by_cases h0 : i % BLOCK_DENTRIES = 0
      · exact hnew h0
      · have hdiv : (i - 1) / BLOCK_DENTRIES = i / BLOCK_DENTRIES := by
          unfold BLOCK_DENTRIES BLOCK_SIZE DENTRY_SIZE at *
          omega
        have hlt : i - 1 < s.entries dir := by
          have : i ≠ 0 := fun h => h0 (by rw [h]; rfl)
          omega
        have hbefore := (hd.mapped (i - 1) hlt).2
        rw [hdiv] at hbefore
        exact hd.maps.again s v .here hsv.later _ hk hbefore
    have hblock : v.data (m (i / BLOCK_DENTRIES)) = s.data (m (i / BLOCK_DENTRIES)) := hsv.data _ hk
    have hnr : v.entryNr (slotAt m i) = s.entryNr (slotAt m i) :=
      congrArg (fun d : Block => d.rd16 (slotAt m i).addr) hblock
    have hsize : s.size dir = s.entries dir * DENTRY_SIZE := hd.size_eq
    have hpos : 0 < DENTRY_SIZE := by decide
    obtain rfl | hlt := Nat.eq_or_lt_of_le hle
    · -- beyond the end: the directory grows by one empty entry
      have hend : (s.entries dir + 1) * DENTRY_SIZE < 2 ^ 32 := by
        have := hd.maps.lt hk
        unfold TOTAL_BLOCK DIRECT_BLOCK INDIRECT2_BLOCK INDIRECT1_BLOCK BLOCK_INDEXES BLOCK_DENTRIES
          BLOCK_SIZE DENTRY_SIZE at *
        omega
      obtain ⟨⟨⟩, w, hw, h⟩ := bind_eq_some.mp h
      obtain ⟨hgrow, hgrown⟩ := growDir_edits hmv hk (hsv.size.trans hsize) hend hw
      have hempty : w.entryNr (slotAt m (s.entries dir)) = 0 := by
        have hself : w.entryNr (slotAt m (s.entries dir)) =
            ((v.data (m (s.entries dir / BLOCK_DENTRIES))).wr16 (slotAt m (s.entries dir)).addr 0).rd16
              (slotAt m (s.entries dir)).addr :=
          congrArg (fun d : Block => d.rd16 (slotAt m (s.entries dir)).addr) hgrow.self
        rw [hself]
        exact rd16_wr16
      rw [peek_bind, if_neg (by simpa using hempty)] at h
      obtain ⟨⟨⟩, x, hx, h⟩ := bind_eq_some.mp h
      obtain ⟨rfl, rfl⟩ := Prod.mk.inj (Option.some.inj h)
      obtain ⟨hfill, hfilled⟩ := fillEntry_edits (hmv.later hgrow.later) hk hx
      have hall := hsv.edits (hgrow.trans hfill)
      refine ⟨_, rfl, Nat.le_refl _, hused, fun hlt => absurd hlt (Nat.lt_irrefl _), hk,
        hd.maps.again v _ hsv.later (hgrow.trans hfill).later _ hk hmapped, hall.later, fun nr => ?_,
        hall.other, hall.mode, ?_⟩
      · rw [hfill.self, hgrow.self, strncpy, wr16_write, write_wr16, hblock]
        rfl
      · have hsizet := hfilled.trans hgrown
        unfold State.entries at hsizet ⊢
        rw [hsizet, Nat.mul_div_cancel _ hpos]
        exact (Nat.max_eq_right (Nat.le_succ _)).symm
    · have hinside : i * DENTRY_SIZE < v.size dir := by
        rw [hsv.size, hsize]
        exact Nat.mul_lt_mul_of_pos_right hlt hpos
      rw [bind_of_eq (growDir_inside hinside), peek_bind, hnr] at h
      split_ifs at h with hfree
      · apply ih hsv (i := i + 1) hlt _ AddCursor.next h
        intro j hj
        obtain rfl | hj := Nat.eq_or_lt_of_le (Nat.le_of_lt_succ hj)
        · exact hfree
        · exact hused j hj
      · obtain ⟨⟨⟩, x, hx, h⟩ := bind_eq_some.mp h
        obtain ⟨rfl, rfl⟩ := Prod.mk.inj (Option.some.inj h)
        obtain ⟨hfill, hfilled⟩ := fillEntry_edits hmv hk hx
        have hall := hsv.edits hfill
        refine ⟨_, rfl, hle, hused, fun _ => by simpa using hfree, hk,
          hd.maps.again v _ hsv.later hfill.later _ hk hmapped, hall.later, fun nr => ?_,
          hall.other, hall.mode, ?_⟩
        · rw [hfill.self, strncpy, wr16_write, hblock]
          rfl
        · have hsizet := hfilled.trans hsv.size
          unfold State.entries at hsizet ⊢
          rw [hsizet]
          exact (Nat.max_eq_left hlt).symm

/-- `add_entry` of a name that is not in the directory. -/
theorem addEntry_filled (hd : Directory dir D m s) (hnot : findEntry dir name s = some (none, u))
    (h : addEntry dir name s = some (e, t)) : ∃ k, e = slotAt m k ∧ Filled dir D m name k s t := by
  obtain ⟨o, v, hv, hlater⟩ := findEntry_returns name hd.maps (findEntry_finds hnot).1 hd.mapped
  obtain ⟨-, rfl⟩ := Prod.mk.inj (Option.some.inj (hv.symm.trans hnot))
  unfold addEntry at h
  rw [bind_of_eq hnot] at h
  dsimp only at h
  obtain ⟨⟨⟩, w, hw, hloop⟩ := bind_eq_some.mp h
  obtain ⟨-, rfl⟩ := assert_eq_some.mp hw
  have hseen : Seen dir D m s w := .of_data hlater (findEntry_quiet _ _ _ _ _ hnot).data
  have hstart : AddCursor m 0 none := .inr ⟨rfl, fun e he => by cases he⟩
  exact addLoop_filled hd hseen (Nat.zero_le _) (fun j hj => absurd hj (Nat.not_lt_zero j)) hstart hloop

end Add

end Onix.Fs
