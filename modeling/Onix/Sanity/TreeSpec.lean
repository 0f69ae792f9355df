import Onix.Sanity.InodeSpec

/-! Directories by inode number: the entries that the contents of the blocks give, and
what the walk of `named` keeps to them. -/

namespace Onix.Fs

open Function Prog Cstr

/-- The block with the descriptor of inode number `x`. -/
def State.descBuf (s : State) (x : ℕ) : ℕ := inodeBlock s.sb x

def descAddr (x : ℕ) : ℕ := DESC_SIZE * (sub32 x 1 % BLOCK_INODES)

def State.modeNr (s : State) (x : ℕ) : ℕ := (s.data (s.descBuf x)).rd16 (descAddr x)

def State.sizeNr (s : State) (x : ℕ) : ℕ := (s.data (s.descBuf x)).rd32 (descAddr x + 4)

/-- Entry `k` of the directory with number `x`. -/
def State.slotNr (s : State) (x k : ℕ) : Entry :=
  ⟨s.mapped (s.descBuf x) (descAddr x + 14) (k / BLOCK_DENTRIES), DENTRY_SIZE * (k % BLOCK_DENTRIES)⟩

def State.entriesNr (s : State) (x : ℕ) : ℕ := s.sizeNr x / DENTRY_SIZE

/-- The number in entry `k`. -/
def State.target (s : State) (x k : ℕ) : ℕ := s.entryNr (s.slotNr x k)

variable {s t u v : State} {dev : ℤ} {i j x k d inode n : ℕ} {name left right path next : Str}
  {e : Entry}

/-- The contents of all blocks and the layout are the same. -/
structure SameDisk (s t : State) : Prop where
  data : t.data = s.data
  desc : t.sb.desc = s.sb.desc

instance : IsPreorder State SameDisk where
  refl _ := ⟨rfl, rfl⟩
  trans _ _ _ h h' := ⟨h'.1.trans h.1, h'.2.trans h.2⟩

theorem Quiet.disk (h : Quiet s t) : SameDisk s t := ⟨h.data, h.fixed.desc⟩

theorem SameDisk.descBuf (h : SameDisk s t) : t.descBuf x = s.descBuf x := inodeBlock_congr h.desc

theorem SameDisk.modeNr (h : SameDisk s t) : t.modeNr x = s.modeNr x := by
  unfold State.modeNr
  rw [h.data, h.descBuf]

theorem SameDisk.slotNr (h : SameDisk s t) : t.slotNr x k = s.slotNr x k := by
  unfold State.slotNr State.mapped
  rw [h.descBuf, walk_congr h.data]

theorem SameDisk.entriesNr (h : SameDisk s t) : t.entriesNr x = s.entriesNr x := by
  unfold State.entriesNr State.sizeNr
  rw [h.data, h.descBuf]

theorem SameDisk.target (h : SameDisk s t) : t.target x k = s.target x k := by
  unfold State.target State.entryNr
  rw [h.slotNr, h.data]

section Placed

theorem Placed.idesc (h : Placed s) (hi : i ∈ s.sb.inodeList) : s.idesc i = descAddr (s.nr i) := by
  unfold State.idesc descAddr
  rw [h.slot i hi]

theorem Placed.mode (h : Placed s) (hi : i ∈ s.sb.inodeList) : s.mode i = s.modeNr (s.nr i) := by
  unfold State.mode State.modeNr
  rw [h.buf i hi, h.idesc hi]
  rfl

theorem Placed.entries (h : Placed s) (hi : i ∈ s.sb.inodeList) :
    s.entries i = s.entriesNr (s.nr i) := by
  unfold State.entries State.entriesNr State.size State.sizeNr
  rw [h.buf i hi, h.idesc hi]
  rfl

theorem Placed.slot_eq (h : Placed s) (hi : i ∈ s.sb.inodeList) :
    s.slot i k = s.slotNr (s.nr i) k := by
  unfold State.slot State.slotNr State.zoneOf State.izone
  rw [h.buf i hi, h.idesc hi]
  rfl

/-- What `find_entry` finds in a directory in memory is an entry of its number. -/
theorem Placed.find (h : Placed s) (hi : i ∈ s.sb.inodeList)
    (hf : findEntry i name s = some (some (e, next), t)) :
    isDir (s.modeNr (s.nr i)) = true ∧ ∃ k < s.entriesNr (s.nr i), e = s.slotNr (s.nr i) k ∧
      matchName name (s.data e.buf) (e.addr + 2) = some next ∧
      ∀ j < k, s.matchSlot i j name = none := by
  obtain ⟨hd, ⟨ho, -⟩ | ⟨k, next', ho, hk⟩⟩ := findEntry_finds hf
  · cases ho
  obtain ⟨rfl, rfl⟩ := Prod.mk.inj (Option.some.inj ho)
  have hlt := hk.lt
  rw [Nat.zero_add, h.entries hi] at hlt
  rw [h.mode hi] at hd
  exact ⟨hd, k, hlt, h.slot_eq hi, hk.hit, fun j hj => hk.first j (Nat.zero_le j) hj⟩

end Placed

section Walk

/-- A property of inode numbers that going to any entry of a directory keeps. -/
def Closed (s : State) (P : ℕ → Prop) : Prop := ∀ x k, P x → isDir (s.modeNr x) = true →
  k < s.entriesNr x → P (s.target x k)

/-- A walk over the disk of `s` stands at the inode. -/
structure Stands (s : State) (P : ℕ → Prop) (u : State) (inode : ℕ) : Prop where
  disk : SameDisk s u
  placed : Placed u
  mem : inode ∈ u.sb.inodeList
  holds : P (u.nr inode)

variable {P : ℕ → Prop}

theorem Stands.same (h : Stands s P u inode) (hs : Same u v) (hd : v.data = u.data) :
    Stands s P v inode := by
  refine ⟨trans_of SameDisk h.disk ⟨hd, by rw [hs.sb]⟩, h.placed.same hs, ?_, ?_⟩
  · rw [hs.sb]
    exact h.mem
  · unfold State.nr
    rw [hs.inodeTable]
    exact h.holds

/-- The number in the entry that `find_entry` gives. -/
theorem Stands.find (hP : Closed s P) (h : Stands s P u inode)
    (hf : findEntry inode name u = some (some (e, next), v)) : P (v.entryNr e) := by
  obtain ⟨hd, k, hk, rfl, -⟩ := h.placed.find h.mem hf
  have hv : v.data = u.data := (findEntry_quiet inode name u _ _ hf).data
  have htarget : v.entryNr (u.slotNr (u.nr inode) k) = s.target (u.nr inode) k := by
    rw [← h.disk.target]
    unfold State.target State.entryNr
    rw [hv]
  rw [htarget]
  exact hP _ _ h.holds (by rw [← h.disk.modeNr]; exact hd) (by rw [← h.disk.entriesNr]; exact hk)

theorem Stands.iget (h : SameDisk s u) (hp : Placed u) (hx : P x)
    (hi : iget dev x u = some (i, v)) : Stands s P v i := by
  have hgot := hp.iget hi
  refine ⟨trans_of SameDisk h (iget_quiet dev x u _ _ hi).disk, hgot.placed, hgot.mem, ?_⟩
  rw [hgot.nr]
  exact hx

/-- The walk of `named` ends at an inode that it may stand at. -/
theorem namedLoop_stands {buf : Option ℕ} (hP : Closed s P) (h : Stands s P u inode)
    (hn : namedLoop right n inode left buf u = some (some (j, name), v)) : Stands s P v j := by
  induction n generalizing u inode left buf with
  | zero => cases hn
  | succ n ih =>
    obtain ⟨⟨⟩, u₁, h₁, k₁⟩ := bind_eq_some.mp hn
    have hs₁ : Stands s P u₁ inode := h.same (brelse_same _ _ _ _ h₁) (brelse_data h₁)
    obtain ⟨o, u₂, h₂, k₂⟩ := bind_eq_some.mp k₁
    have hs₂ : Stands s P u₂ inode := hs₁.same (findEntry_same _ _ _ _ _ h₂)
      (findEntry_quiet _ _ _ _ _ h₂).data
    rcases o with - | ⟨e, next⟩
    · obtain ⟨⟨⟩, u₃, -, k₃⟩ := bind_eq_some.mp k₂
      simp at k₃
    dsimp only at k₂
    rw [peek_bind] at k₂
    obtain ⟨⟨⟩, u₃, h₃, k₃⟩ := bind_eq_some.mp k₂
    have hq₃ : Quiet u₂ u₃ := iput_quiet _ _ _ _ h₃
    have hp₃ : Placed u₃ := (hs₂.placed.iput h₃).1
    rw [peek_bind] at k₃
    obtain ⟨j', u₄, h₄, k₄⟩ := bind_eq_some.mp k₃
    have hx : P (u₃.entryNr e) := by
      have hfind := hs₁.find hP h₂
      unfold State.entryNr at *
      rwa [hq₃.data]
    have hs₄ : Stands s P u₄ j' := Stands.iget (trans_of SameDisk hs₂.disk hq₃.disk) hp₃ hx h₄
    rw [peek_bind] at k₄
    split_ifs at k₄ with hdir hend
    · obtain ⟨⟨⟩, u₅, -, k₅⟩ := bind_eq_some.mp k₄
      obtain ⟨⟨⟩, u₆, -, k₆⟩ := bind_eq_some.mp k₅
      simp at k₆
    · obtain ⟨⟨⟩, u₅, h₅, k₅⟩ := bind_eq_some.mp k₄
      simp only [pure_apply, Option.some.injEq, Prod.mk.injEq] at k₅
      obtain ⟨⟨rfl, -⟩, rfl⟩ := k₅
      exact hs₄.same (brelse_same _ _ _ _ h₅) (brelse_data h₅)
    · exact ih hs₄ k₄

theorem keepsPlace_count : KeepsPlace fun n => { n with count := (n.count + 1) % 2 ^ 32 } :=
  fun _ => ⟨rfl, rfl, rfl, rfl⟩

theorem Stands.count (h : Stands s P u inode) : Stands s P
    (u.modInode inode fun n => { n with count := (n.count + 1) % 2 ^ 32 }) inode := by
  refine ⟨⟨h.disk.data, h.disk.desc⟩, h.placed.modInode keepsPlace_count, h.mem, ?_⟩
  rw [nr_modInode keepsPlace_count]
  exact h.holds

theorem namedFrom_stands (hP : Closed s P) (h : Stands s P u inode)
    (hn : namedFrom inode left u = some (some (j, name), v)) : Stands s P v j := by
  unfold namedFrom at hn
  rw [poke_bind] at hn
  split_ifs at hn with hend
  · simp only [pure_apply, Option.some.injEq, Prod.mk.injEq] at hn
    obtain ⟨⟨rfl, -⟩, rfl⟩ := hn
    exact h.count
  · cases hr : strrsep left with
    | none =>
      rw [hr] at hn
      simp only [pure_apply, Option.some.injEq, Prod.mk.injEq] at hn
      obtain ⟨⟨rfl, -⟩, rfl⟩ := hn
      exact h.count
    | some right =>
      rw [hr] at hn
      exact namedLoop_stands hP h.count hn

/-- A task whose root and working directory may be stood at. -/
structure Rooted (s : State) (P : ℕ → Prop) : Prop where
  root : Stands s P s s.task.iroot
  pwd : Stands s P s s.task.ipwd

theorem named_stands (hP : Closed s P) (h : Rooted s P)
    (hn : named path s = some (some (j, name), t)) : Stands s P t j := by
  unfold named at hn
  rw [peek_bind] at hn
  split_ifs at hn
  · exact namedFrom_stands hP h.root hn
  · exact namedFrom_stands hP h.pwd hn
  · simp at hn

/-- The end of `namei` behind `find_entry`: the inode that the entry names. -/
theorem nameiFound_holds {dir : ℕ} {o : Option ℕ} (h : SameDisk s u) (hp : Placed u)
    (hx : P (u.entryNr e)) (hn : ((do
      let i ← iget dev (u.entryNr e)
      iput (some dir)
      brelse (some e.buf)
      return some i) : Prog State (Option ℕ)) u = some (o, t)) : ∃ j, o = some j ∧ P (t.nr j) := by
  obtain ⟨i, u₃, h₃, k₃⟩ := bind_eq_some.mp hn
  have hs₃ : Stands s P u₃ i := Stands.iget h hp hx h₃
  obtain ⟨⟨⟩, u₄, h₄, k₄⟩ := bind_eq_some.mp k₃
  obtain ⟨⟨⟩, u₅, h₅, k₅⟩ := bind_eq_some.mp k₄
  simp only [pure_apply, Option.some.injEq, Prod.mk.injEq] at k₅
  obtain ⟨rfl, rfl⟩ := k₅
  refine ⟨i, rfl, ?_⟩
  have hnr : u₅.nr i = u₄.nr i := by
    unfold State.nr
    rw [(brelse_same _ _ _ _ h₅).inodeTable]
  rw [hnr, (hs₃.placed.iput h₄).2.1]
  exact hs₃.holds

theorem namei_holds (hP : Closed s P) (h : Rooted s P) (hn : namei path s = some (some j, t)) :
    P (t.nr j) := by
  unfold namei at hn
  obtain ⟨o, u, ho, k⟩ := bind_eq_some.mp hn
  rcases o with - | ⟨dir, next⟩
  · simp at k
  have hs : Stands s P u dir := named_stands hP h ho
  dsimp only at k
  split_ifs at k with hend
  · simp only [pure_apply, Option.some.injEq, Prod.mk.injEq] at k
    obtain ⟨rfl, rfl⟩ := k
    exact hs.holds
  obtain ⟨o, u₂, h₂, k₂⟩ := bind_eq_some.mp k
  have hs₂ : Stands s P u₂ dir := hs.same (findEntry_same _ _ _ _ _ h₂)
    (findEntry_quiet _ _ _ _ _ h₂).data
  rcases o with - | ⟨e, next'⟩
  · obtain ⟨⟨⟩, u₃, -, k₃⟩ := bind_eq_some.mp k₂
    simp at k₃
  dsimp only at k₂
  rw [peek_bind, peek_bind] at k₂
  obtain ⟨j', hj, hP'⟩ := nameiFound_holds hs₂.disk hs₂.placed (hs.find hP h₂) k₂
  obtain rfl := Option.some.inj hj
  exact hP'

end Walk

end Onix.Fs
