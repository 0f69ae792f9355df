import Onix.Lib.Triple
import Onix.Sanity.TruncateSpec
import Onix.Spec.Refs

/-! The references to inodes and buffers that a call has taken and not yet given back. -/

namespace Onix.Fs

open Function Prog Cstr

/-- How many inodes in memory have their descriptors in block `b`. -/
def State.holders (s : State) (b : ℕ) : ℕ := s.sb.inodeList.countP fun i => s.ibuf i = b

/-- How many fields of the superblock hold block `b`: `buf`, which is block 1, and the bitmaps. -/
def State.fields (s : State) (b : ℕ) : ℕ :=
  (if b = 1 then 1 else 0) + (List.range IMAP_NR).countP (fun i => s.sb.imaps i = some b) +
    (List.range ZMAP_NR).countP fun i => s.sb.zmaps i = some b

/-- A call of the task `task` has the references `R` to inodes, beyond `base`, and the holds `B`
on buffers, beyond those of the inodes in memory and the superblock. -/
structure Owes (base : ℕ → ℕ) (task : TaskT) (R B : Multiset ℕ) (s : State) : Prop where
  task : s.task = task
  count : ∀ i, (s.inodeTable i).count = base i + R.count i
  holds : ∀ b, s.counts b = s.holders b + s.fields b + B.count b
  listed : ∀ i, i ∈ s.sb.inodeList ↔ 0 < (s.inodeTable i).count
  nodup : s.sb.inodeList.Nodup

/-- Nothing that the references depend on has changed. -/
structure Calm (s t : State) : Prop where
  task : t.task = s.task
  count : ∀ i, (t.inodeTable i).count = (s.inodeTable i).count
  buf : ∀ i, t.ibuf i = s.ibuf i
  sb : t.sb = s.sb
  counts : t.counts = s.counts

instance : IsPreorder State Calm where
  refl _ := ⟨rfl, fun _ => rfl, fun _ => rfl, rfl, rfl⟩
  trans _ _ _ h h' := ⟨h'.task.trans h.task, fun i => (h'.count i).trans (h.count i),
    fun i => (h'.buf i).trans (h.buf i), h'.sb.trans h.sb, h'.counts.trans h.counts⟩

variable {base : ℕ → ℕ} {task : TaskT} {R R' B B' : Multiset ℕ} {s t : State} {dev : ℤ}
  {i b x : ℕ} {α β : Type}

section Calm

theorem holders_congr (hlist : t.sb.inodeList = s.sb.inodeList) (hbuf : ∀ i, t.ibuf i = s.ibuf i) :
    t.holders b = s.holders b := by
  unfold State.holders
  rw [hlist]
  simp only [hbuf]

theorem Owes.calm (h : Owes base task R B s) (hc : Calm s t) : Owes base task R B t where
  task := hc.task.trans h.task
  count i := (hc.count i).trans (h.count i)
  holds b := by
    have hfields : t.fields b = s.fields b := by
      unfold State.fields
      rw [hc.sb]
    rw [hc.counts, holders_congr (by rw [hc.sb]) hc.buf, hfields]
    exact h.holds b
  listed i := by
    rw [hc.sb, hc.count]
    exact h.listed i
  nodup := by
    rw [hc.sb]
    exact h.nodup

theorem Same.calm (h : Same s t) (hc : t.counts = s.counts) : Calm s t where
  task := by
    unfold State.task
    rw [h.tasks, h.running]
  count i := by rw [h.inodeTable]
  buf i := by
    unfold State.ibuf
    rw [h.inodeTable]
  sb := h.sb
  counts := hc

theorem calm_of_same {m : Prog State α} (h : Leads Same m) (hc : Keeps State.counts m) :
    Leads Calm m := fun s a t hm => (h s a t hm).calm (hc s a t hm)

theorem calm_poke {g : State → State} (h : ∀ s, Calm s (g s)) : Leads Calm (poke g) := leads_poke h

/-- Writes to blocks and marks. -/
theorem poke_calm {g : State → State} (h : ∀ s, g s = { s with cache := (g s).cache })
    (hc : ∀ s, (g s).cache.count = s.cache.count) : Leads Calm (poke g) :=
  calm_of_same (poke_same h) (keeps_poke hc)

/-- A change of an inode that leaves its references. -/
theorem calm_modInode {f : InodeT → InodeT} (hf : ∀ n, (f n).count = n.count ∧ (f n).buf = n.buf) :
    Calm s (s.modInode i f) := by
  refine ⟨rfl, fun j => ?_, fun j => ?_, rfl, rfl⟩
  · rw [inodeTable_modInode]
    split_ifs with h
    · rw [h]
      exact (hf _).1
    · rfl
  · unfold State.ibuf
    rw [inodeTable_modInode]
    split_ifs with h
    · rw [h]
      exact (hf _).2
    · rfl

theorem time_calm : Leads Calm time := fun s _ _ h => by
  obtain ⟨-, rfl⟩ := Prod.mk.inj (Option.some.inj h)
  exact ⟨rfl, fun _ => rfl, fun _ => rfl, rfl, rfl⟩

theorem touch_calm (inode : ℕ) : Leads Calm (touch inode) :=
  time_calm.bind fun _ => calm_poke fun _ => calm_modInode fun _ => ⟨rfl, rfl⟩

theorem bmap_calm (inode block : ℕ) (create : Bool) : Leads Calm (bmap inode block create) :=
  calm_of_same (bmap_same _ _ _) fun _ _ _ h => bmap_counts h

theorem ialloc_calm (dev : ℤ) : Leads Calm (ialloc dev) := by
  apply calm_of_same (ialloc_same dev)
  unfold ialloc getSuper
  exact .bind (.bind (keeps_peek _) fun _ => .bind (keeps_assert _) fun _ => keeps_peek _) fun _ =>
    .bind (scanMaps_counts _ _ _ _ _ _ _) fun _ => .bind (bwrite_counts _) fun _ => keeps_pure _

theorem ifree_calm (dev : ℤ) (idx : ℕ) : Leads Calm (ifree dev idx) := by
  apply calm_of_same (ifree_same dev idx)
  unfold ifree getSuper
  exact .bind (.bind (keeps_peek _) fun _ => .bind (keeps_assert _) fun _ => keeps_peek _) fun _ =>
    .bind (keeps_assert _) fun _ => .bind (clearMaps_counts _ _ _ _ _ _) fun _ => bwrite_counts _

theorem freeZone_calm (inode level index : ℕ) : Leads Calm (freeZone inode level index) :=
  .bind (leads_peek _) fun _ => .bind (leads_peek _) fun _ =>
    .bind (calm_of_same (inodeBfree_same _ _ _ _ _) (inodeBfree_counts _ _ _ _ _)) fun _ =>
    poke_calm (fun _ => rfl) fun _ => rfl

theorem bwrite_calm (o : Option ℕ) : Leads Calm (bwrite o) :=
  calm_of_same (bwrite_same o) (bwrite_counts o)

theorem inodeTruncate_calm (inode : ℕ) : Leads Calm (inodeTruncate inode) :=
  .bind (leads_peek _) fun _ => .ite (leads_pure _)
    (.bind (leads_loop (fun _ => freeZone_calm _ _ _) _ _) fun _ => .bind (freeZone_calm _ _ _) fun _ =>
    .bind (freeZone_calm _ _ _) fun _ => .bind (poke_calm (fun _ => rfl) fun _ => rfl) fun _ =>
    .bind time_calm fun _ => .bind (poke_calm (fun _ => rfl) fun _ => rfl) fun _ =>
    .bind (leads_peek _) fun _ => bwrite_calm _)

theorem freeInode_calm (inode : ℕ) : Leads Calm (freeInode inode) :=
  .bind (inodeTruncate_calm _) fun _ => .bind (leads_peek _) fun _ => .bind (leads_peek _) fun _ =>
    ifree_calm _ _

theorem growDir_calm (dir i : ℕ) (e : Entry) : Leads Calm (growDir dir i e) :=
  .bind (leads_peek _) fun _ => leads_when (poke_calm (fun _ => rfl) fun _ => rfl)

theorem fillEntry_calm (dir : ℕ) (name : Str) (e : Entry) : Leads Calm (fillEntry dir name e) :=
  .bind (poke_calm (fun _ => rfl) fun _ => rfl) fun _ => time_calm.bind fun _ =>
    poke_calm (fun _ => rfl) fun _ => rfl

theorem openInode_calm (inode mode : ℕ) : Leads Calm (openInode inode mode) :=
  .bind (poke_calm (fun _ => rfl) fun _ => rfl) fun _ =>
    .bind (poke_calm (fun _ => rfl) fun _ => rfl) fun _ =>
    .bind (poke_calm (fun _ => rfl) fun _ => rfl) fun _ => time_calm.bind fun _ =>
    .bind (poke_calm (fun _ => rfl) fun _ => rfl) fun _ =>
    .bind (poke_calm (fun _ => rfl) fun _ => rfl) fun _ =>
    .bind (poke_calm (fun _ => rfl) fun _ => rfl) fun _ => poke_calm (fun _ => rfl) fun _ => rfl

theorem mkdirInode_calm (inode mode : ℕ) : Leads Calm (mkdirInode inode mode) :=
  .bind (poke_calm (fun _ => rfl) fun _ => rfl) fun _ =>
    .bind (poke_calm (fun _ => rfl) fun _ => rfl) fun _ =>
    .bind (poke_calm (fun _ => rfl) fun _ => rfl) fun _ =>
    .bind (poke_calm (fun _ => rfl) fun _ => rfl) fun _ =>
    .bind (poke_calm (fun _ => rfl) fun _ => rfl) fun _ => time_calm.bind fun _ =>
    .bind (poke_calm (fun _ => rfl) fun _ => rfl) fun _ => poke_calm (fun _ => rfl) fun _ => rfl

theorem rmdirIn_calm (dir inode : ℕ) (entry : Entry) : Leads Calm (rmdirIn dir inode entry) := by
  unfold rmdirIn
  have hdir : ∀ (t : ℕ) (s : State), Calm s
      ((s.setMtime dir t).modInode dir fun n => { n with atime := t, ctime := t }) := by
    intro t s
    have hset : Calm s (s.setMtime dir t) := ⟨rfl, fun _ => rfl, fun _ => rfl, rfl, rfl⟩
    have hmod : Calm (s.setMtime dir t) ((s.setMtime dir t).modInode dir fun n =>
        { n with atime := t, ctime := t }) := calm_modInode fun _ => ⟨rfl, rfl⟩
    exact trans_of Calm hset hmod
  exact .bind (leads_peek _) fun _ => .bind (leads_assert _) fun _ =>
    .bind (freeInode_calm _) fun _ => .bind (poke_calm (fun _ => rfl) fun _ => rfl) fun _ =>
    .bind (calm_poke fun _ => calm_modInode fun _ => ⟨rfl, rfl⟩) fun _ =>
    .bind (poke_calm (fun _ => rfl) fun _ => rfl) fun _ => time_calm.bind fun t =>
    .bind (calm_poke (hdir t)) fun _ => .bind (poke_calm (fun _ => rfl) fun _ => rfl) fun _ =>
    .bind (leads_peek _) fun _ => .bind (leads_assert _) fun _ =>
    poke_calm (fun _ => rfl) fun _ => rfl

theorem unlinkIn_calm (inode : ℕ) (entry : Entry) : Leads Calm (unlinkIn inode entry) :=
  .bind (poke_calm (fun _ => rfl) fun _ => rfl) fun _ =>
    .bind (poke_calm (fun _ => rfl) fun _ => rfl) fun _ => .bind (leads_peek _) fun _ =>
    leads_when (freeInode_calm _)

end Calm

section Buffers

/-- A call that has `R` and `B` and comes to have `R'` and `B'`. -/
def Trades (base : ℕ → ℕ) (task : TaskT) (R B : Multiset ℕ) (m : Prog State α)
    (R' B' : α → Multiset ℕ) : Prop :=
  Triple (Owes base task R B) m fun a => Owes base task (R' a) (B' a)

/-- The reference or hold that there may be. -/
def one (o : Option ℕ) : Multiset ℕ := o.elim 0 fun x => {x}

theorem one_none_add (R : Multiset ℕ) : one none + R = R := zero_add R

variable {m : Prog State α}

theorem trades_calm (h : Leads Calm m) :
    Trades base task R B m (fun _ => R) fun _ => B :=
  .of_leads h fun _ _ hc ho => ho.calm hc

theorem Trades.bind {β : Type} {f : α → Prog State β} {R' B' : α → Multiset ℕ}
    {R'' B'' : β → Multiset ℕ} (h : Trades base task R B m R' B')
    (hf : ∀ a, Trades base task (R' a) (B' a) (f a) R'' B'') :
    Trades base task R B (m >>= f) R'' B'' := Triple.bind h hf

theorem Trades.calm {β : Type} {f : α → Prog State β} {R' B' : β → Multiset ℕ} (h : Leads Calm m)
    (hf : ∀ a, Trades base task R B (f a) R' B') :
    Trades base task R B (m >>= f) R' B' := Triple.bind (trades_calm h) hf

theorem trades_pure (a : α) : Trades base task R B (pure a) (fun _ => R) fun _ => B :=
  trades_calm (leads_pure a)

theorem bread_trades (block : ℕ) : Trades base task R B (bread dev block) (fun _ => R)
    fun b => {b} + B := by
  intro s hs b t h
  obtain ⟨-, rfl, rfl⟩ := bread_iff.mp h
  refine ⟨hs.task, hs.count, fun c => ?_, hs.listed, hs.nodup⟩
  have hholds := hs.holds c
  change update s.counts b (s.counts b + 1) c = s.holders c + s.fields c + ({b} + B).count c
  rw [Multiset.count_add, Multiset.count_singleton, update_apply]
  split_ifs with h
  · rw [← h]
    omega
  · omega

theorem brelse_trades (o : Option ℕ) : Trades base task R (one o + B) (brelse o) (fun _ => R)
    fun _ => B := by
  cases o with
  | none =>
    apply triple_pure
    intro s hs
    rw [one_none_add] at hs
    exact hs
  | some b =>
    intro s hs x t h
    obtain ⟨hpos, rfl⟩ := brelse_eq_some h
    refine ⟨hs.task, hs.count, fun c => ?_, hs.listed, hs.nodup⟩
    have hholds := hs.holds c
    change update s.counts b (s.counts b - 1) c = s.holders c + s.fields c + B.count c
    change _ = _ + _ + ({b} + B).count c at hholds
    rw [Multiset.count_add, Multiset.count_singleton] at hholds
    rw [update_apply]
    split_ifs at hholds ⊢ with h
    · rw [← h]
      omega
    · omega

/-- The hold that goes with an entry. -/
def oneOf (o : Option Entry) : Multiset ℕ := one (o.map Entry.buf)

theorem oneOf_none_add (R : Multiset ℕ) : oneOf none + R = R := zero_add R

theorem entryAt_trades (dir i : ℕ) (create : Bool) (o : Option Entry) :
    Trades base task R (oneOf o + B) (entryAt dir i create o) (fun _ => R)
      fun e => {e.buf} + B := by
  have hload : Trades base task R B (entryAt.load dir i create) (fun _ => R)
      fun e => {e.buf} + B := by
    exact .calm (bmap_calm _ _ _) fun _ => .calm (leads_assert _) fun _ =>
      .calm (leads_peek _) fun _ => .bind (bread_trades _) fun _ => triple_pure fun _ hs => hs
  cases o with
  | none =>
    rw [oneOf_none_add]
    exact hload
  | some e =>
    exact .ite (triple_pure fun s hs => hs) ((brelse_trades (some e.buf)).bind fun _ => hload)

theorem findLoop_trades (dir : ℕ) (name : Str) (n i : ℕ) (o : Option Entry) :
    Trades base task R (oneOf o + B) (findLoop dir name n i o) (fun _ => R)
      fun r => oneOf (r.map Prod.fst) + B := by
  induction n generalizing i o with
  | zero =>
    refine (brelse_trades _).bind fun _ => triple_pure fun s hs => ?_
    change Owes base task R (oneOf none + B) s
    rw [oneOf_none_add]
    exact hs
  | succ n ih =>
    unfold findLoop
    refine (entryAt_trades _ _ _ _).bind fun e => (trades_calm (leads_peek _)).bind fun data => ?_
    cases matchName name data (e.addr + 2) with
    | none => exact ih _ (some e.next)
    | some next => exact triple_pure fun s hs => hs

theorem findEntry_trades (dir : ℕ) (name : Str) : Trades base task R B (findEntry dir name)
    (fun _ => R) fun r => oneOf (r.map Prod.fst) + B := by
  have h : ∀ n, Trades base task R B (findLoop dir name n 0 none) (fun _ => R)
      fun r => oneOf (r.map Prod.fst) + B := by
    intro n
    have hloop : Trades base task R (oneOf none + B) (findLoop dir name n 0 none) (fun _ => R)
      fun r => oneOf (r.map Prod.fst) + B := findLoop_trades _ _ _ _ _
    rw [oneOf_none_add] at hloop
    exact hloop
  exact .calm (leads_peek _) fun _ => .calm (leads_assert _) fun _ => .calm (leads_peek _) h

theorem addLoop_trades (dir : ℕ) (name : Str) (n i : ℕ) (o : Option Entry) :
    Trades base task R (oneOf o + B) (addLoop dir name n i o) (fun _ => R)
      fun e => {e.buf} + B := by
  induction n generalizing i o with
  | zero => exact triple_stop
  | succ n ih =>
    unfold addLoop
    exact .bind (entryAt_trades _ _ _ _) fun e => .calm (growDir_calm _ _ _) fun _ =>
      .calm (leads_peek _) fun _ => Triple.ite (ih _ (some e.next))
        (.bind (trades_calm (fillEntry_calm _ _ _)) fun _ => triple_pure fun _ hs => hs)

theorem addEntry_trades (dir : ℕ) (name : Str) : Trades base task R B (addEntry dir name)
    (fun _ => R) fun e => {e.buf} + B := by
  unfold addEntry
  refine (findEntry_trades _ _).bind fun o => ?_
  cases o with
  | none => exact (trades_calm (leads_assert _)).bind fun _ => addLoop_trades _ _ _ _ none
  | some r => exact triple_pure fun s hs => hs

theorem countLoop_trades (dir n i : ℕ) (o : Option Entry) (count : ℕ) :
    Trades base task R (oneOf o + B) (countLoop dir n i o count) (fun _ => R) fun _ => B := by
  induction n generalizing i o count with
  | zero => exact (brelse_trades _).bind fun _ => triple_pure fun s hs => hs
  | succ n ih =>
    unfold countLoop
    exact (entryAt_trades _ _ _ _).bind fun e => (trades_calm (leads_peek _)).bind fun _ => ih _ (some e.next) _

theorem isEmpty_trades (inode : ℕ) :
    Trades base task R B (isEmpty inode) (fun _ => R) fun _ => B := by
  have h : ∀ n, Trades base task R B (countLoop inode n 0 none 0) (fun _ => R) fun _ => B := by
    intro n
    have hloop : Trades base task R (oneOf none + B) (countLoop inode n 0 none 0) (fun _ => R)
      fun _ => B := countLoop_trades _ _ _ _ _
    rw [oneOf_none_add] at hloop
    exact hloop
  exact .calm (leads_peek _) fun _ => .calm (leads_assert _) fun _ => .calm (leads_peek _) fun n =>
    .calm (leads_peek _) fun _ => Triple.ite (trades_pure _) (.bind (h n) fun _ => trades_pure _)

theorem linkIn_trades (dir : ℕ) (name : Str) (inode : ℕ) :
    Trades base task R B (linkIn dir name inode) (fun _ => R) fun e => {e.buf} + B := by
  have hmod : ∀ (t : ℕ) (s : State), Calm s
      ((s.modInode inode fun n => { n with ctime := t }).dirtyInode inode) := by
    intro t s
    have hmod : Calm s (s.modInode inode fun n => { n with ctime := t }) :=
      calm_modInode fun _ => ⟨rfl, rfl⟩
    have hset : Calm (s.modInode inode fun n => { n with ctime := t })
        ((s.modInode inode fun n => { n with ctime := t }).dirtyInode inode) :=
      ⟨rfl, fun _ => rfl, fun _ => rfl, rfl, rfl⟩
    exact trans_of Calm hmod hset
  exact .bind (addEntry_trades _ _) fun _ => .calm (poke_calm (fun _ => rfl) fun _ => rfl) fun _ =>
    .calm (poke_calm (fun _ => rfl) fun _ => rfl) fun _ => .calm time_calm fun t =>
    .calm (calm_poke (hmod t)) fun _ => triple_pure fun _ hs => hs

theorem mkdirEntries_trades (dir inode : ℕ) :
    Trades base task R B (mkdirEntries dir inode) (fun _ => R) fun b => {b} + B :=
  .calm (leads_peek _) fun _ => .calm (bmap_calm _ _ _) fun _ => .bind (bread_trades _) fun _ =>
    .calm (poke_calm (fun _ => rfl) fun _ => rfl) fun _ =>
    .calm (poke_calm (fun _ => rfl) fun _ => rfl) fun _ =>
    .calm (poke_calm (fun _ => rfl) fun _ => rfl) fun _ =>
    .calm (poke_calm (fun _ => rfl) fun _ => rfl) fun _ =>
    .calm (poke_calm (fun _ => rfl) fun _ => rfl) fun _ => triple_pure fun _ hs => hs

end Buffers

section Inodes

/-- `k` references more leave every `count` below its bound. -/
def Room (base : ℕ → ℕ) (R : Multiset ℕ) (k : ℕ) : Prop := ∀ i, base i + R.count i + k < 2 ^ 32

theorem Room.add {k : ℕ} (h : Room base R (k + 1)) (i : ℕ) : Room base ({i} + R) k := by
  intro j
  have hj := h j
  rw [Multiset.count_add, Multiset.count_singleton]
  split_ifs <;> omega

theorem Room.mono {k l : ℕ} (h : Room base R k) (hl : l ≤ k) : Room base R l := fun i => by
  have hi := h i
  omega

/-- What `R` has of an inode is in its `count`. -/
theorem Owes.mem (h : Owes base task R B s) (hi : i ∈ R) : i ∈ s.sb.inodeList := by
  have hcount := h.count i
  have hpos := Multiset.count_pos.mpr hi
  exact (h.listed i).mpr (by omega)

theorem ibuf_modInode {f : InodeT → InodeT} (hf : ∀ n, (f n).buf = n.buf) (j : ℕ) :
    (s.modInode i f).ibuf j = s.ibuf j := by
  unfold State.ibuf
  rw [inodeTable_modInode]
  split_ifs with hij
  · rw [hf, hij]
  · rfl

/-- The `count` of one inode in memory changes, and so does what `R` has of it. -/
theorem Owes.recount (h : Owes base task R B s) (hi : i ∈ s.sb.inodeList) {f : InodeT → InodeT}
    (hf : ∀ n, (f n).buf = n.buf) (hcount : (f (s.inodeTable i)).count = base i + R'.count i)
    (hpos : 0 < (f (s.inodeTable i)).count) (hother : ∀ j, j ≠ i → R'.count j = R.count j) :
    Owes base task R' B (s.modInode i f) where
  task := h.task
  count j := by
    rw [inodeTable_modInode]
    split_ifs with hij
    · rw [hij, hcount]
    · rw [hother j hij, h.count j]
  holds b := by
    rw [holders_congr (s := s) (t := s.modInode i f) rfl (ibuf_modInode hf)]
    exact h.holds b
  listed j := by
    rw [inodeTable_modInode]
    split_ifs with hij
    · rw [hij]
      exact iff_of_true hi hpos
    · exact h.listed j
  nodup := h.nodup

theorem count_add_self : ({i} + R : Multiset ℕ).count i = R.count i + 1 := by
  rw [Multiset.count_add, Multiset.count_singleton_self, Nat.add_comm]

theorem count_add_other {j : ℕ} (h : j ≠ i) : ({i} + R : Multiset ℕ).count j = R.count j := by
  rw [Multiset.count_add, Multiset.count_singleton, if_neg h, Nat.zero_add]

/-- One reference more to an inode in memory. -/
theorem Owes.take (h : Owes base task R B s) (hroom : Room base R 1) (hi : i ∈ s.sb.inodeList)
    {f : InodeT → InodeT} (hf : ∀ n, (f n).count = (n.count + 1) % 2 ^ 32 ∧ (f n).buf = n.buf) :
    Owes base task ({i} + R) B (s.modInode i f) := by
  have hcount : (f (s.inodeTable i)).count = base i + R.count i + 1 := by
    rw [(hf _).1, h.count i, Nat.mod_eq_of_lt (hroom i)]
  refine h.recount hi (fun n => (hf n).2) ?_ (by omega) fun j hj => count_add_other hj
  rw [hcount, count_add_self, Nat.add_assoc]

theorem gotNew_inode {a c j : ℕ} (h : j ≠ i) : (s.gotNew i x a c).inodeTable j = s.inodeTable j :=
  update_of_ne h ..

/-- The first reference to an inode. -/
theorem Owes.first {a c : ℕ} (h : Owes base task R B s) (hi : i ∉ s.sb.inodeList) :
    Owes base task ({i} + R) B (s.gotNew i x a c) := by
  have hzero : (s.inodeTable i).count = 0 := by
    rw [h.listed] at hi
    omega
  have hself : (s.gotNew i x a c).inodeTable i = ⟨sub32 x 1 % BLOCK_INODES, inodeBlock s.sb x, s.dev,
      x, ((s.inodeTable i).count + 1) % 2 ^ 32, a, c⟩ := update_self ..
  have hcount : ((s.gotNew i x a c).inodeTable i).count = 1 := by
    rw [hself, hzero]
    rfl
  refine ⟨h.task, fun j => ?_, fun b => ?_, fun j => ?_, List.nodup_cons.mpr ⟨hi, h.nodup⟩⟩
  · have hj := h.count j
    rw [Multiset.count_add, Multiset.count_singleton]
    split_ifs with hij
    · subst hij
      omega
    · rw [gotNew_inode hij]
      omega
  · have hb := h.holds b
    have hholders : (s.gotNew i x a c).holders b =
        s.holders b + if inodeBlock s.sb x = b then 1 else 0 := by
      have hrest : s.sb.inodeList.countP (fun j => (s.gotNew i x a c).ibuf j = b) = s.holders b := by
        apply List.countP_congr
        intro j hj
        unfold State.ibuf
        rw [gotNew_inode (ne_of_mem_of_not_mem hj hi)]
      have hown : (s.gotNew i x a c).ibuf i = inodeBlock s.sb x := by
        unfold State.ibuf
        rw [hself]
      change (i :: s.sb.inodeList).countP (fun j => (s.gotNew i x a c).ibuf j = b) = _
      rw [List.countP_cons, hrest, hown]
      simp
    change update s.counts (inodeBlock s.sb x) (s.counts (inodeBlock s.sb x) + 1) b =
      (s.gotNew i x a c).holders b + s.fields b + B.count b
    rw [hholders, update_apply]
    split_ifs with hx hx' hx'
    · rw [← hx]
      omega
    · exact absurd hx.symm hx'
    · exact absurd hx'.symm hx
    · omega
  · change j ∈ i :: s.sb.inodeList ↔ _
    rw [List.mem_cons]
    by_cases hij : j = i
    · subst hij
      exact iff_of_true (.inl rfl) (by omega)
    · rw [gotNew_inode hij, ← h.listed j]
      exact ⟨fun hj => hj.resolve_left hij, .inr⟩

theorem iget_trades (hroom : Room base R 1) :
    Trades base task R B (iget dev x) (fun i => {i} + R) fun _ => B := by
  intro s hs i t h
  obtain ⟨-, ⟨hfind, a, rfl⟩ | ⟨-, -, -, -, hnew, a, c, rfl⟩⟩ := iget_cases h
  · have htake := hs.take hroom (List.mem_of_find?_eq_some hfind)
      (f := fun n => { n with count := (n.count + 1) % 2 ^ 32, atime := a }) fun _ => ⟨rfl, rfl⟩
    exact htake.calm ⟨rfl, fun _ => rfl, fun _ => rfl, rfl, rfl⟩
  · exact hs.first hnew

theorem cleaned_calm : Calm s (s.cleaned b) :=
  ⟨rfl, fun _ => rfl, fun _ => rfl, rfl, clean_counts s b⟩

/-- What is left of `count` after a reference in it is gone. -/
theorem Owes.less (h : Owes base task ({i} + R) B s) :
    sub32 (s.inodeTable i).count 1 = base i + R.count i := by
  have hcount := h.count i
  rw [count_add_self] at hcount
  rw [sub32_of_le (by omega)]
  omega

/-- One reference less to an inode that stays in memory. -/
theorem Owes.put (h : Owes base task ({i} + R) B s) (hmore : sub32 (s.inodeTable i).count 1 ≠ 0) :
    Owes base task R B (s.putOld i) :=
  (h.calm cleaned_calm).recount (h.mem (Multiset.mem_add.mpr (.inl (Multiset.mem_singleton_self i))))
    (fun _ => rfl) h.less (Nat.pos_of_ne_zero hmore) fun _ hj => (count_add_other hj).symm

theorem putLast_inode (j : ℕ) : ((s.putLast i).inodeTable j).count =
    if j = i then sub32 (s.inodeTable i).count 1 else (s.inodeTable j).count := by
  change (((s.putOld i).modInode i fun n => { n with dev := NODEV }).inodeTable j).count = _
  have hold : ∀ k, ((s.putOld i).inodeTable k).count =
      if k = i then sub32 (s.inodeTable i).count 1 else (s.inodeTable k).count := by
    intro k
    unfold State.putOld
    rw [inodeTable_modInode]
    split_ifs <;> rfl
  rw [inodeTable_modInode]
  split_ifs with hij
  · dsimp only
    rw [hold, if_pos rfl]
  · rw [hold, if_neg hij]

theorem putLast_ibuf (j : ℕ) : (s.putLast i).ibuf j = s.ibuf j :=
  (ibuf_modInode (s := s.putOld i) (f := fun n => { n with dev := NODEV }) (fun _ => rfl) j).trans
    (ibuf_modInode (s := s.cleaned (s.ibuf i)) (f := fun n => { n with count := sub32 n.count 1 })
      (fun _ => rfl) j)

/-- The last reference to an inode goes. -/
theorem Owes.last (h : Owes base task ({i} + R) B s) (hlast : sub32 (s.inodeTable i).count 1 = 0) :
    Owes base task R B (s.putLast i) := by
  have hmem : i ∈ s.sb.inodeList := h.mem (Multiset.mem_add.mpr (.inl (Multiset.mem_singleton_self i)))
  have hless := h.less
  refine ⟨h.task, fun j => ?_, fun b => ?_, fun j => ?_, h.nodup.erase i⟩
  · rw [putLast_inode]
    split_ifs with hij
    · rw [hij, hless]
    · rw [h.count j, count_add_other hij]
  · have hb := h.holds b
    have hholders : s.holders b =
        (s.putLast i).holders b + if s.ibuf i = b then 1 else 0 := by
      have hrest : (s.putLast i).holders b =
          (s.sb.inodeList.erase i).countP fun j => s.ibuf j = b := by
        unfold State.holders
        simp only [putLast_ibuf]
        rfl
      unfold State.holders at hrest ⊢
      rw [hrest, (List.perm_cons_erase hmem).countP_eq, List.countP_cons]
      simp
    have hcounts : (s.putLast i).counts b =
        update s.counts (s.ibuf i) (s.counts (s.ibuf i) - 1) b := by
      have hclean := clean_counts s (s.ibuf i)
      change update (s.cleaned (s.ibuf i)).counts _ ((s.cleaned (s.ibuf i)).counts _ - 1) b = _
      rw [hclean]
    change _ = (s.putLast i).holders b + s.fields b + B.count b
    rw [hcounts, update_apply]
    split_ifs at hholders ⊢ with hx hx' hx'
    · rw [← hx]
      omega
    · exact absurd hx.symm hx'
    · exact absurd hx'.symm hx
    · omega
  · rw [putLast_inode]
    refine h.nodup.mem_erase_iff.trans ?_
    split_ifs with hij
    · rw [hlast]
      exact iff_of_false (fun hj => hj.1 hij) (Nat.lt_irrefl 0)
    · rw [h.listed j]
      exact and_iff_right hij

theorem iput_trades (o : Option ℕ) :
    Trades base task (one o + R) B (iput o) (fun _ => R) fun _ => B := by
  cases o with
  | none =>
    apply triple_pure
    intro s hs
    rw [one_none_add] at hs
    exact hs
  | some i =>
    intro s hs x t h
    obtain ⟨hmore, rfl⟩ | ⟨hlast, -, -, -, rfl⟩ := iputInode_cases h
    · exact hs.put hmore
    · exact hs.last hlast

end Inodes

end Onix.Fs
