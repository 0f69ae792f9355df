import Onix.Spec.Iget

/-! The invariant of the inode table: which slots are in use, whose descriptor has been
read, and which buffers are held for them. -/

namespace Onix.Iget

open Function Outcome

variable {τ ι β : Type*} {s s' : State τ ι β} {t : τ} {c : Call ι} {b : β} {i j : ι}
  {p : Pc ι β} {dev nr : ℕ} {bf : BufferT} {l : List ι} {ch : List β}

/-- The call of `iget` that the task is in. -/
def Pc.call : Pc ι β → Option (Call ι)
  | .out => none
  | .waiting c | .locking c _ | .reading c _ => some c

/-- The buffer that the task has got for it. -/
def Pc.buf : Pc ι β → Option β
  | .locking _ b | .reading _ b => some b
  | _ => none

/-- Some task is in the `bread` for slot `i`. -/
def State.Loading (s : State τ ι β) (i : ι) : Prop :=
  ∃ t, (s.pc t).call.map Call.inode = some i

/-- The slot that a call returns stands for the inode it asks for. -/
structure Names (s : State τ ι β) (c : Call ι) : Prop where
  dev : (s.inode c.inode).dev = some c.dev
  nr : (s.inode c.inode).nr = c.nr

/-- Buffer `b` is the block that the call reads, held for its slot. -/
structure Holds (s : State τ ι β) (c : Call ι) (b : β) : Prop where
  dev : (s.buffer b).dev = c.dev
  block : (s.buffer b).block = s.blockOf c
  holder : c.inode ∈ s.holders b

/-- `desc` points at descriptor `nr` in a valid buffer that the inode holds. -/
def Loaded (s : State τ ι β) (c : Call ι) : Prop :=
  ∃ b, (s.inode c.inode).desc = some (b, sub32 c.nr 1 % BLOCK_INODES) ∧
    (s.inode c.inode).buf = some b ∧ (s.buffer b).valid = true ∧ Holds s c b

/-- How many calls of `iget` have returned slot `i`. -/
def State.uses [DecidableEq ι] (s : State τ ι β) (i : ι) : ℕ :=
  s.refs.countP fun r => r.2.inode = i

theorem loading_of_call (hc : (s.pc t).call = some c) : s.Loading c.inode :=
  ⟨t, by simp [hc]⟩

/-- Buffer `b` becomes `bf` with holders `l`, and the hash table `ch`. -/
def rehold [DecidableEq β] (s : State τ ι β) (b : β) (bf : BufferT) (l : List ι) (ch : List β) : State τ ι β :=
  { s.set b bf with chain := ch, holders := update s.holders b l }

/-- Those that hold the buffer find it as it was, or valid by now. -/
structure Kept (s : State τ ι β) (b : β) (bf : BufferT) (l : List ι) : Prop where
  dev : bf.dev = (s.buffer b).dev
  block : bf.block = (s.buffer b).block
  valid : (s.buffer b).valid = true → bf.valid = true
  holders : ∀ i ∈ s.holders b, (s.inode i).dev ≠ none → i ∈ l

theorem holds_rehold [DecidableEq β] {d : Call ι} {b' : β} (hk : s.holders b ≠ [] → Kept s b bf l)
    (hn : Names s d) (h : Holds s d b') : Holds (rehold s b bf l ch) d b' ∧
      ((s.buffer b').valid = true → ((rehold s b bf l ch).buffer b').valid = true) := by
  by_cases hb : b' = b
  · subst hb
    have hk := hk (List.ne_nil_of_mem h.holder)
    refine ⟨⟨?_, ?_, ?_⟩, ?_⟩
    · simpa [rehold, State.set, hk.dev] using h.dev
    · simpa [rehold, State.set, State.blockOf, hk.block] using h.block
    · simpa [rehold] using hk.holders _ h.holder (by simp [hn.dev])
    · simpa [rehold, State.set] using hk.valid
  · refine ⟨⟨?_, ?_, ?_⟩, ?_⟩
    · simpa [rehold, State.set, hb] using h.dev
    · simpa [rehold, State.set, State.blockOf, hb] using h.block
    · simpa [rehold, hb] using h.holder
    · simp [rehold, State.set, hb]

theorem set_eq_rehold [DecidableEq β] : s.set b bf = rehold s b bf (s.holders b) s.chain := by
  simp [rehold, State.set]

theorem holds_call (hh : Holds s c b) (d : Call ι) (b' : β) (hd : p.call = some d)
    (hb : p.buf = some b') (hp : p = .locking c b ∨ p = .reading c b) : Holds s d b' := by
  rcases hp with rfl | rfl
  · obtain rfl := Option.some.inj hd
    obtain rfl := Option.some.inj hb
    exact hh
  · obtain rfl := Option.some.inj hd
    obtain rfl := Option.some.inj hb
    exact hh

variable [DecidableEq ι]

structure Inv (s : State τ ι β) : Prop where
  used : ∀ i dev, i ∈ (s.sb dev).inodeList ↔ (s.inode i).dev = some dev
  nodup : ∀ dev, (s.sb dev).inodeList.Nodup
  uniq : ∀ i j, (s.inode i).dev ≠ none → (s.inode i).dev = (s.inode j).dev →
    (s.inode i).nr = (s.inode j).nr → i = j
  call : ∀ t c, (s.pc t).call = some c → Names s c ∧ (s.inode c.inode).count = 1
  loader : ∀ t u c d, (s.pc t).call = some c → (s.pc u).call = some d → c.inode = d.inode → t = u
  busy : ∀ t c b, (s.pc t).call = some c → (s.pc t).buf = some b → Holds s c b
  loaded : ∀ c, Names s c → ¬ s.Loading c.inode → Loaded s c
  ref : ∀ r ∈ s.refs, Names s r.2 ∧ ¬ s.Loading r.2.inode
  count : ∀ i, ¬ s.Loading i → (s.inode i).count = s.uses i
  count_lt : ∀ i, (s.inode i).count < 2 ^ 32
  holders : ∀ b, (s.holders b).length = (s.buffer b).count

theorem inv_init (h : Init s) : Inv s where
  used i dev := by simp [h.sb, h.inode]
  nodup dev := by simp [h.sb]
  uniq i j hi := absurd (h.inode i).1 hi
  call t c hc := by simp [h.pc, Pc.call] at hc
  loader t u c d hc := by simp [h.pc, Pc.call] at hc
  busy t c b hc := by simp [h.pc, Pc.call] at hc
  loaded c hc := by simpa [h.inode] using hc.dev
  ref r hr := by simp [h.refs] at hr
  count i _ := by simp [State.uses, h.refs, h.inode]
  count_lt i := by simp [h.inode]
  holders b := by simp [h.holders, h.buffer]

theorem Inv.free_count (hi : Inv s) (h : (s.inode i).dev = none) :
    (s.inode i).count = 0 ∧ ∀ r ∈ s.refs, r.2.inode ≠ i := by
  have hr : ∀ r ∈ s.refs, r.2.inode ≠ i := by
    rintro r hr rfl
    simp [(hi.ref r hr).1.dev] at h
  have hl : ¬ s.Loading i := by
    rintro ⟨t, ht⟩
    obtain ⟨c, hc, rfl⟩ := Option.map_eq_some_iff.mp ht
    simp [(hi.call t c hc).1.dev] at h
  refine ⟨?_, hr⟩
  rw [hi.count i hl, State.uses, List.countP_eq_zero]
  simpa using hr

/-- `find_inode` finds the one slot in use for `dev` and `nr`. -/
theorem Inv.found (hi : Inv s) (h : s.findInode dev nr = some i) : Names s ⟨dev, nr, i⟩ :=
  ⟨(hi.used i dev).mp (List.mem_of_find?_eq_some h), by simpa using List.find?_some h⟩

theorem Inv.not_found (hi : Inv s) (h : s.findInode dev nr = none) (hd : (s.inode i).dev = some dev) :
    (s.inode i).nr ≠ nr := by
  simpa using List.find?_eq_none.mp h i ((hi.used i dev).mpr hd)

/-- Two calls for the same inode of a device get the same slot. -/
theorem Inv.same (hi : Inv s) {c d : Call ι} (hc : Names s c) (hd : Names s d)
    (hdev : c.dev = d.dev) (hnr : c.nr = d.nr) : c.inode = d.inode := by
  apply hi.uniq
  · simp [hc.dev]
  · rw [hc.dev, hd.dev, hdev]
  · rw [hc.nr, hd.nr, hnr]

/-- A step of the buffers alone, which leaves what is held as it was. -/
theorem inv_buffers (hi : Inv s) (hsb : s'.sb = s.sb) (hinode : s'.inode = s.inode)
    (hpc : s'.pc = s.pc) (hrefs : s'.refs = s.refs)
    (hheld : ∀ c b, Names s c → Holds s c b →
      Holds s' c b ∧ ((s.buffer b).valid → (s'.buffer b).valid))
    (hlen : ∀ b, (s'.holders b).length = (s'.buffer b).count) : Inv s' := by
  have hnames : ∀ c, Names s' c ↔ Names s c := fun c =>
    ⟨fun h => ⟨hinode ▸ h.dev, hinode ▸ h.nr⟩, fun h => ⟨hinode ▸ h.dev, hinode ▸ h.nr⟩⟩
  have hload : ∀ i, s'.Loading i ↔ s.Loading i := fun i => by simp [State.Loading, hpc]
  refine ⟨?_, ?_, ?_, fun t c hc => ?_, ?_, fun t c b hc hb => ?_, fun c hc hl => ?_,
    fun r hr => ?_, fun i hl => ?_, ?_, hlen⟩
  · simpa [hsb, hinode] using hi.used
  · simpa [hsb] using hi.nodup
  · simpa [hinode] using hi.uniq
  · rw [hpc] at hc
    rw [hnames, hinode]
    exact hi.call t c hc
  · simpa [hpc] using hi.loader
  · rw [hpc] at hc hb
    exact (hheld c b (hi.call t c hc).1 (hi.busy t c b hc hb)).1
  · have hc := (hnames c).mp hc
    obtain ⟨b, hdesc, hbuf, hv, hh⟩ := hi.loaded c hc (by rwa [← hload])
    obtain ⟨hh', hv'⟩ := hheld c b hc hh
    exact ⟨b, by rwa [hinode], by rwa [hinode], hv' hv, hh'⟩
  · rw [hrefs] at hr
    rw [hnames, hload]
    exact hi.ref r hr
  · rw [hload] at hl
    rw [hinode, State.uses, hrefs]
    exact hi.count i hl
  · simpa [hinode] using hi.count_lt

theorem inv_rehold [DecidableEq β] (ch : List β) (hi : Inv s)
    (hk : s.holders b ≠ [] → Kept s b bf l) (hl : l.length = bf.count) :
    Inv (rehold s b bf l ch) := by
  refine inv_buffers hi rfl rfl rfl rfl (fun d b' hn h => holds_rehold hk hn h) fun b' => ?_
  by_cases hb : b' = b
  · subst hb
    simpa [rehold, State.set] using hl
  · simpa [rehold, State.set, hb] using hi.holders b'

/-- The slot becomes free. -/
def freed (s : State τ ι β) (c : Call ι) : State τ ι β :=
  (s.setList c.dev ((s.sb c.dev).inodeList.erase c.inode)).setInode c.inode
    { s.inode c.inode with dev := none }

theorem inv_freed (hi : Inv s) (hn : Names s c) (hl : ¬ s.Loading c.inode)
    (hno : ∀ r ∈ s.refs, r.2.inode ≠ c.inode) : Inv (freed s c) := by
  have hinode : ∀ i, i ≠ c.inode → (freed s c).inode i = s.inode i := fun i h => by
    simp [freed, State.setList, State.setInode, h]
  have hself : (freed s c).inode c.inode = { s.inode c.inode with dev := none } := by
    simp [freed, State.setInode]
  have hblock : ∀ d, (freed s c).blockOf d = s.blockOf d := fun d => by
    by_cases hd : d.dev = c.dev <;>
      simp [State.blockOf, inodeBlock, freed, State.setList, State.setInode, hd]
  have hnames : ∀ d, Names (freed s c) d ↔ d.inode ≠ c.inode ∧ Names s d := by
    intro d
    constructor
    · intro h
      have hd : d.inode ≠ c.inode := fun hd => by simpa [hd, hself] using h.dev
      exact ⟨hd, hinode _ hd ▸ h.dev, hinode _ hd ▸ h.nr⟩
    · rintro ⟨hd, h⟩
      exact ⟨(hinode _ hd).symm ▸ h.dev, (hinode _ hd).symm ▸ h.nr⟩
  have hlist : ∀ dev i, i ∈ ((freed s c).sb dev).inodeList ↔
      i ∈ (s.sb dev).inodeList ∧ (dev = c.dev → i ≠ c.inode) := by
    intro dev i
    by_cases hd : dev = c.dev
    · subst hd
      simp [freed, State.setList, State.setInode, (hi.nodup _).mem_erase_iff, and_comm]
    · simp [freed, State.setList, State.setInode, hd]
  refine ⟨fun i dev => ?_, fun dev => ?_, fun i j hd hdev hnr => ?_, fun u d hd => ?_, hi.loader,
    fun u d b hd hb => ?_, fun d hd hnl => ?_, fun r hr => ?_, fun i hnl => ?_, fun i => ?_,
    hi.holders⟩
  · rw [hlist, hi.used]
    by_cases h : i = c.inode
    · subst h
      simp only [hself, hn.dev]
      simp [eq_comm]
    · simp [hinode i h, h]
  · by_cases h : dev = c.dev
    · subst h
      simpa [freed, State.setList, State.setInode] using (hi.nodup _).erase _
    · simpa [freed, State.setList, State.setInode, h] using hi.nodup dev
  · have hic : i ≠ c.inode := by
      rintro rfl
      simp [hself] at hd
    have hjc : j ≠ c.inode := by
      rintro rfl
      rw [hdev] at hd
      simp [hself] at hd
    rw [hinode i hic] at hd hdev hnr
    rw [hinode j hjc] at hdev hnr
    exact hi.uniq i j hd hdev hnr
  · have hdc : d.inode ≠ c.inode := fun h => hl (h ▸ loading_of_call hd)
    obtain ⟨hn, h1⟩ := hi.call u d hd
    exact ⟨(hnames d).mpr ⟨hdc, hn⟩, by rw [hinode _ hdc, h1]⟩
  · have := hi.busy u d b hd hb
    exact ⟨this.dev, this.block.trans (hblock d).symm, this.holder⟩
  · obtain ⟨hdc, hd⟩ := (hnames d).mp hd
    obtain ⟨b, hdesc, hbuf, hv, hh⟩ := hi.loaded d hd hnl
    exact ⟨b, by rwa [hinode _ hdc], by rwa [hinode _ hdc], hv,
      ⟨hh.dev, hh.block.trans (hblock d).symm, hh.holder⟩⟩
  · obtain ⟨hn, hl⟩ := hi.ref r hr
    exact ⟨(hnames _).mpr ⟨hno r hr, hn⟩, hl⟩
  · have hci : ((freed s c).inode i).count = (s.inode i).count := by
      by_cases hic : i = c.inode
      · subst hic
        rw [hself]
      · rw [hinode i hic]
    exact hci.trans (hi.count i hnl)
  · by_cases hic : i = c.inode
    · subst hic
      rw [hself]
      exact hi.count_lt _
    · rw [hinode i hic]
      exact hi.count_lt i

/-- `count` of a slot and the calls that have returned change, nothing else. -/
def recount (s : State τ ι β) (j : ι) (n : ℕ) (refs : List (τ × Call ι)) : State τ ι β :=
  { s.setInode j { s.inode j with count := n } with refs := refs }

theorem names_recount {n : ℕ} {refs : List (τ × Call ι)} :
    Names (recount s j n refs) c ↔ Names s c := by
  have hdev : ((recount s j n refs).inode c.inode).dev = (s.inode c.inode).dev := by
    by_cases h : c.inode = j <;> simp [recount, State.setInode, h]
  have hnr : ((recount s j n refs).inode c.inode).nr = (s.inode c.inode).nr := by
    by_cases h : c.inode = j <;> simp [recount, State.setInode, h]
  exact ⟨fun h => ⟨hdev.symm.trans h.dev, hnr.symm.trans h.nr⟩,
    fun h => ⟨hdev.trans h.dev, hnr.trans h.nr⟩⟩

theorem inv_recount {n : ℕ} {refs : List (τ × Call ι)} (hi : Inv s) (hl : ¬ s.Loading j)
    (hlt : n < 2 ^ 32) (href : ∀ r ∈ refs, Names s r.2 ∧ ¬ s.Loading r.2.inode)
    (hn : n = refs.countP fun r => r.2.inode = j)
    (huses : ∀ i, i ≠ j → (refs.countP fun r => r.2.inode = i) = s.uses i) :
    Inv (recount s j n refs) := by
  have hdev : ∀ i, ((recount s j n refs).inode i).dev = (s.inode i).dev := fun i => by
    by_cases h : i = j <;> simp [recount, State.setInode, h]
  have hnr : ∀ i, ((recount s j n refs).inode i).nr = (s.inode i).nr := fun i => by
    by_cases h : i = j <;> simp [recount, State.setInode, h]
  have hdesc : ∀ i, ((recount s j n refs).inode i).desc = (s.inode i).desc := fun i => by
    by_cases h : i = j <;> simp [recount, State.setInode, h]
  have hbuf : ∀ i, ((recount s j n refs).inode i).buf = (s.inode i).buf := fun i => by
    by_cases h : i = j <;> simp [recount, State.setInode, h]
  have hcount : ∀ i, i ≠ j → ((recount s j n refs).inode i).count = (s.inode i).count := fun i h => by
    simp [recount, State.setInode, h]
  have hself : ((recount s j n refs).inode j).count = n := by
    simp [recount, State.setInode]
  refine ⟨fun i dev => ?_, hi.nodup, fun i k hd hdk hk => ?_, fun u d hd => ?_, hi.loader,
    fun u d b hd hb => ?_, fun d hd hnl => ?_, fun r hr => ?_, fun i hnl => ?_, fun i => ?_,
    hi.holders⟩
  · rw [hdev]
    exact hi.used i dev
  · rw [hdev] at hd
    rw [hdev, hdev] at hdk
    rw [hnr, hnr] at hk
    exact hi.uniq i k hd hdk hk
  · obtain ⟨hn, h1⟩ := hi.call u d hd
    have hdj : d.inode ≠ j := fun h => hl (h ▸ loading_of_call hd)
    exact ⟨names_recount.mpr hn, (hcount _ hdj).trans h1⟩
  · obtain ⟨h₁, h₂, h₃⟩ := hi.busy u d b hd hb
    exact ⟨h₁, h₂, h₃⟩
  · obtain ⟨b, h₁, h₂, hv, h₃, h₄, h₅⟩ := hi.loaded d (names_recount.mp hd) hnl
    exact ⟨b, (hdesc _).trans h₁, (hbuf _).trans h₂, hv, h₃, h₄, h₅⟩
  · obtain ⟨hn, hl⟩ := href r hr
    exact ⟨names_recount.mpr hn, hl⟩
  · by_cases hij : i = j
    · subst hij
      exact hself.trans hn
    · exact (hcount i hij).trans ((hi.count i hnl).trans (huses i hij).symm)
  · by_cases hij : i = j
    · subst hij
      rwa [hself]
    · rw [hcount i hij]
      exact hi.count_lt i

/-- A slot that is found and whose descriptor has been read gets one more user. -/
theorem inv_found (hi : Inv s) (hj : s.findInode dev nr = some j) (hl : ¬ s.Loading j)
    (hlt : (s.inode j).count + 1 < 2 ^ 32) :
    Inv (recount s j (((s.inode j).count + 1) % 2 ^ 32) ((t, ⟨dev, nr, j⟩) :: s.refs)) := by
  rw [Nat.mod_eq_of_lt hlt]
  refine inv_recount hi hl hlt (fun r hr => ?_) ?_ fun i hij => ?_
  · rcases List.mem_cons.mp hr with rfl | hr
    · exact ⟨hi.found hj, hl⟩
    · exact hi.ref r hr
  · simp [hi.count j hl, State.uses]
  · simp [State.uses, Ne.symm hij]

/-- The last user of a slot is gone. -/
theorem inv_putInode [DecidableEq β] (hi : Inv s) (hn : Names s c) (hl : ¬ s.Loading c.inode)
    (hbuf : (s.inode c.inode).buf = some b) (hzero : (s.inode c.inode).count = 0)
    (h : putInode s c b = .next s') : Inv s' := by
  have hno : ∀ r ∈ s.refs, r.2.inode ≠ c.inode := by
    have := hi.count c.inode hl
    rw [hzero, State.uses, eq_comm, List.countP_eq_zero] at this
    simpa using this
  obtain ⟨hpos, h⟩ := assert_eq_next.mp h
  obtain ⟨hmem, h⟩ := assert_eq_next.mp h
  obtain rfl := next.inj h
  obtain ⟨b', -, hbuf', -, hh⟩ := hi.loaded c hn hl
  obtain rfl := Option.some.inj (hbuf.symm.trans hbuf')
  change Inv (rehold (freed s c) b { s.buffer b with count := (s.buffer b).count - 1 }
    ((s.holders b).erase c.inode) s.chain)
  refine inv_rehold _ (inv_freed hi hn hl hno) (fun _ => ⟨rfl, rfl, id, fun i hmem hdev => ?_⟩) ?_
  · refine (List.mem_erase_of_ne ?_).mpr hmem
    rintro rfl
    simp [freed, State.setInode] at hdev
  · rw [List.length_erase_of_mem hh.holder, hi.holders]

variable [DecidableEq τ]

/-- A task goes on within its call. -/
theorem inv_goto (hi : Inv s) (hp : p.call = (s.pc t).call)
    (hb : ∀ c b, p.call = some c → p.buf = some b → Holds s c b) : Inv (s.goto t p) := by
  have hcall : ∀ u, ((s.goto t p).pc u).call = (s.pc u).call := by
    intro u
    by_cases hut : u = t
    · subst hut
      simpa [State.goto] using hp
    · simp [State.goto, hut]
  have hload : ∀ i, (s.goto t p).Loading i ↔ s.Loading i := fun i => by
    simp only [State.Loading, hcall]
  refine ⟨hi.used, hi.nodup, hi.uniq, fun u c hc => ?_, fun u v c d hc hd => ?_,
    fun u c b hc hbuf => ?_, fun c hc hl => ?_, fun r hr => ?_, fun i hl => ?_, hi.count_lt,
    hi.holders⟩
  · obtain ⟨hn, h1⟩ := hi.call u c ((hcall u).symm.trans hc)
    exact ⟨⟨hn.dev, hn.nr⟩, h1⟩
  · exact hi.loader u v c d ((hcall u).symm.trans hc) ((hcall v).symm.trans hd)
  · by_cases hut : u = t
    · subst hut
      simp only [State.goto, update_self] at hc hbuf
      have := hb c b hc hbuf
      exact ⟨this.dev, this.block, this.holder⟩
    · simp only [State.goto, update_of_ne hut] at hc hbuf
      have := hi.busy u c b hc hbuf
      exact ⟨this.dev, this.block, this.holder⟩
  · obtain ⟨b, hdesc, hbuf, hv, hh⟩ := hi.loaded c ⟨hc.dev, hc.nr⟩ (by rwa [← hload])
    exact ⟨b, hdesc, hbuf, hv, ⟨hh.dev, hh.block, hh.holder⟩⟩
  · obtain ⟨hn, hl⟩ := hi.ref r hr
    exact ⟨⟨hn.dev, hn.nr⟩, by rwa [hload]⟩
  · exact hi.count i (by rwa [← hload])

@[simp] theorem finish_dev : ((finish s t c b).inode i).dev = (s.inode i).dev := by
  by_cases h : i = c.inode <;> simp [finish, State.goto, State.setInode, h]

@[simp] theorem finish_nr : ((finish s t c b).inode i).nr = (s.inode i).nr := by
  by_cases h : i = c.inode <;> simp [finish, State.goto, State.setInode, h]

@[simp] theorem finish_count : ((finish s t c b).inode i).count = (s.inode i).count := by
  by_cases h : i = c.inode <;> simp [finish, State.goto, State.setInode, h]

theorem finish_pc {u : τ} : (finish s t c b).pc u = if u = t then .out else s.pc u := by
  simp [finish, State.goto, State.setInode, update_apply]

theorem Holds.finish {d : Call ι} {b' : β} (h : Holds s d b') : Holds (finish s t c b) d b' :=
  ⟨h.dev, h.block, h.holder⟩

/-- The call returns with its descriptor read. -/
theorem inv_finish (hi : Inv s) (hc : (s.pc t).call = some c) (hh : Holds s c b)
    (hv : (s.buffer b).valid = true) : Inv (finish s t c b) := by
  obtain ⟨hn, h1⟩ := hi.call t c hc
  have hnames : ∀ d, Names (finish s t c b) d ↔ Names s d := fun d =>
    ⟨fun h => ⟨by simpa using h.dev, by simpa using h.nr⟩,
      fun h => ⟨by simpa using h.dev, by simpa using h.nr⟩⟩
  have hcall : ∀ u d, ((finish s t c b).pc u).call = some d ↔ u ≠ t ∧ (s.pc u).call = some d := by
    intro u d
    by_cases hut : u = t <;> simp [finish_pc, hut, Pc.call]
  have hload : ∀ i, (finish s t c b).Loading i ↔ s.Loading i ∧ i ≠ c.inode := by
    intro i
    simp only [State.Loading, Option.map_eq_some_iff, hcall]
    constructor
    · rintro ⟨u, d, ⟨hut, hd⟩, rfl⟩
      exact ⟨⟨u, d, hd, rfl⟩, fun h => hut (hi.loader u t d c hd hc h)⟩
    · rintro ⟨⟨u, d, hd, rfl⟩, hne⟩
      refine ⟨u, d, ⟨?_, hd⟩, rfl⟩
      rintro rfl
      rw [hc] at hd
      exact hne (by rw [Option.some.inj hd])
  refine ⟨?_, hi.nodup, ?_, fun u d hd => ?_, fun u v d e hd he => ?_, fun u d b' hd hb' => ?_,
    fun d hd hl => ?_, ?_, fun i hl => ?_, ?_, hi.holders⟩
  · simp only [finish_dev]
    exact hi.used
  · simpa using hi.uniq
  · obtain ⟨hn, h1⟩ := hi.call u d ((hcall u d).mp hd).2
    exact ⟨(hnames d).mpr hn, by simpa using h1⟩
  · exact hi.loader u v d e ((hcall u d).mp hd).2 ((hcall v e).mp he).2
  · obtain ⟨hut, hd⟩ := (hcall u d).mp hd
    rw [finish_pc, if_neg hut] at hb'
    exact (hi.busy u d b' hd hb').finish
  · rw [hnames] at hd
    by_cases hdc : d.inode = c.inode
    · have hdev : d.dev = c.dev := by simpa [hdc, hn.dev] using hd.dev.symm
      have hnr : d.nr = c.nr := by rw [← hd.nr, hdc, hn.nr]
      refine ⟨b, ?_, ?_, hv, ⟨?_, ?_, ?_⟩⟩
      · simp [finish, State.goto, State.setInode, hdc, hnr, hn.nr]
      · simp [finish, State.goto, State.setInode, hdc]
      · exact hh.dev.trans hdev.symm
      · rw [State.blockOf, hdev, hnr]
        exact hh.block
      · rw [hdc]
        exact hh.holder
    · obtain ⟨b', hdesc, hbuf, hv', hh'⟩ :=
        hi.loaded d hd (fun h => hl ((hload d.inode).mpr ⟨h, hdc⟩))
      refine ⟨b', ?_, ?_, hv', hh'.finish⟩
      · simpa [finish, State.goto, State.setInode, hdc] using hdesc
      · simpa [finish, State.goto, State.setInode, hdc] using hbuf
  · intro r hr
    rw [hnames, hload]
    rcases List.mem_cons.mp hr with rfl | hr
    · exact ⟨hn, by simp⟩
    · exact ⟨(hi.ref r hr).1, fun h => (hi.ref r hr).2 h.1⟩
  · have huses : (finish s t c b).uses i = s.uses i + if c.inode = i then 1 else 0 := by
      simp [State.uses, finish, State.goto, State.setInode, List.countP_cons]
    rw [finish_count, huses]
    by_cases hic : i = c.inode
    · subst hic
      have hzero : s.uses c.inode = 0 := by
        rw [State.uses, List.countP_eq_zero]
        intro r hr
        have := (hi.ref r hr).2
        simpa using fun h => this (by rw [h]; exact loading_of_call hc)
      simp [hzero, h1]
    · rw [if_neg (Ne.symm hic), hi.count i (fun h => hl ((hload i).mpr ⟨h, hic⟩)), Nat.add_zero]
  · simpa using hi.count_lt

/-- The slot that `iget` takes, in the list before its descriptor has been read. -/
def published (s : State τ ι β) (t : τ) (c : Call ι) : State τ ι β :=
  ((s.setInode c.inode { s.inode c.inode with
    dev := some c.dev, nr := c.nr, count := ((s.inode c.inode).count + 1) % 2 ^ 32 }).setList c.dev
      (c.inode :: (s.sb c.dev).inodeList)).goto t (.waiting c)

theorem inv_published (hi : Inv s) (ht : s.pc t = .out) (hfree : (s.inode c.inode).dev = none)
    (hnew : s.findInode c.dev c.nr = none) : Inv (published s t c) := by
  obtain ⟨hzero, hno⟩ := hi.free_count hfree
  have hinode : ∀ i, i ≠ c.inode → (published s t c).inode i = s.inode i := fun i h => by
    simp [published, State.goto, State.setList, State.setInode, h]
  have hself : (published s t c).inode c.inode =
      { s.inode c.inode with dev := some c.dev, nr := c.nr, count := 1 } := by
    simp [published, State.goto, State.setList, State.setInode, hzero]
  have hpc : ∀ u, (published s t c).pc u = if u = t then .waiting c else s.pc u := fun u => by
    simp [published, State.goto, State.setList, State.setInode, update_apply]
  have hlist : ∀ dev i, i ∈ ((published s t c).sb dev).inodeList ↔
      i ∈ (s.sb dev).inodeList ∨ dev = c.dev ∧ i = c.inode := by
    intro dev i
    by_cases hd : dev = c.dev
    · subst hd
      simp [published, State.goto, State.setList, State.setInode, or_comm]
    · simp [published, State.goto, State.setList, State.setInode, hd]
  have hblock : ∀ d, (published s t c).blockOf d = s.blockOf d := fun d => by
    by_cases hd : d.dev = c.dev <;>
      simp [State.blockOf, inodeBlock, published, State.goto, State.setList, State.setInode, hd]
  have hnames : ∀ d, d.inode ≠ c.inode → (Names (published s t c) d ↔ Names s d) := fun d hd =>
    ⟨fun h => ⟨hinode _ hd ▸ h.dev, hinode _ hd ▸ h.nr⟩,
      fun h => ⟨(hinode _ hd).symm ▸ h.dev, (hinode _ hd).symm ▸ h.nr⟩⟩
  have hne : ∀ d, Names s d → d.inode ≠ c.inode := by
    rintro d hd h
    simp [← h, hd.dev] at hfree
  have hload : ∀ i, (published s t c).Loading i ↔ s.Loading i ∨ i = c.inode := by
    intro i
    constructor
    · rintro ⟨u, hu⟩
      rw [hpc] at hu
      split_ifs at hu
      · exact .inr (by simpa [Pc.call, eq_comm] using hu)
      · exact .inl ⟨u, hu⟩
    · rintro (⟨u, hu⟩ | rfl)
      · refine ⟨u, ?_⟩
        rw [hpc, if_neg]
        · exact hu
        · rintro rfl
          simp [ht, Pc.call] at hu
      · exact ⟨t, by simp [hpc, Pc.call]⟩
  have hcall : ∀ u d, ((published s t c).pc u).call = some d →
      u = t ∧ d = c ∨ u ≠ t ∧ (s.pc u).call = some d := by
    intro u d hd
    rw [hpc] at hd
    split_ifs at hd with hu
    · exact .inl ⟨hu, (Option.some.inj hd).symm⟩
    · exact .inr ⟨hu, hd⟩
  refine ⟨fun i dev => ?_, fun dev => ?_, fun i j hd hdev hnr => ?_, fun u d hd => ?_,
    fun u v d e hd he h => ?_, fun u d b hd hb => ?_, fun d hd hl => ?_, fun r hr => ?_,
    fun i hl => ?_, fun i => ?_, hi.holders⟩
  · rw [hlist]
    by_cases h : i = c.inode
    · subst h
      simp [hself, hi.used, hfree, eq_comm]
    · simp [hinode i h, hi.used, h]
  · by_cases h : dev = c.dev
    · subst h
      simpa [published, State.goto, State.setList, State.setInode, hi.nodup, hi.used] using
        (by simp [hfree] : (s.inode c.inode).dev ≠ some c.dev)
    · simpa [published, State.goto, State.setList, State.setInode, h] using hi.nodup dev
  · by_cases hic : i = c.inode <;> by_cases hjc : j = c.inode
    · rw [hic, hjc]
    · subst hic
      rw [hself, hinode j hjc] at hdev hnr
      exact absurd hnr.symm (hi.not_found hnew hdev.symm)
    · subst hjc
      rw [hself, hinode i hic] at hdev hnr
      exact absurd hnr (hi.not_found hnew hdev)
    · rw [hinode i hic] at hd hdev hnr
      rw [hinode j hjc] at hdev hnr
      exact hi.uniq i j hd hdev hnr
  · rcases hcall u d hd with ⟨-, rfl⟩ | ⟨-, hd⟩
    · exact ⟨⟨by rw [hself], by rw [hself]⟩, by rw [hself]⟩
    · obtain ⟨hn, h1⟩ := hi.call u d hd
      have hdc := hne d hn
      exact ⟨(hnames d hdc).mpr hn, by rw [hinode _ hdc, h1]⟩
  · rcases hcall u d hd with ⟨rfl, rfl⟩ | ⟨-, hd'⟩ <;>
      rcases hcall v e he with ⟨rfl, rfl⟩ | ⟨-, he'⟩
    · rfl
    · exact absurd h.symm (hne e (hi.call v e he').1)
    · exact absurd h (hne d (hi.call u d hd').1)
    · exact hi.loader u v d e hd' he' h
  · rcases hcall u d hd with ⟨rfl, rfl⟩ | ⟨hu, hd⟩
    · simp [hpc, Pc.buf] at hb
    · rw [hpc, if_neg hu] at hb
      have := hi.busy u d b hd hb
      exact ⟨this.dev, this.block.trans (hblock d).symm, this.holder⟩
  · have hdc : d.inode ≠ c.inode := fun h => hl ((hload _).mpr (.inr h))
    obtain ⟨b, hdesc, hbuf, hv, hh⟩ :=
      hi.loaded d ((hnames d hdc).mp hd) (fun h => hl ((hload _).mpr (.inl h)))
    exact ⟨b, by rwa [hinode _ hdc], by rwa [hinode _ hdc], hv,
      ⟨hh.dev, hh.block.trans (hblock d).symm, hh.holder⟩⟩
  · obtain ⟨hn, hl⟩ := hi.ref r hr
    exact ⟨(hnames _ (hno r hr)).mpr hn, fun h => ((hload _).mp h).elim hl (hno r hr)⟩
  · have hic : i ≠ c.inode := fun h => hl ((hload _).mpr (.inr h))
    rw [hinode i hic]
    exact hi.count i (fun h => hl ((hload _).mpr (.inl h)))
  · by_cases hic : i = c.inode
    · subst hic
      simp [hself]
    · rw [hinode i hic]
      exact hi.count_lt i

/-- One user of a slot fewer. -/
theorem inv_put (hi : Inv s) (hr : (t, c) ∈ s.refs) :
    Inv (recount s c.inode ((s.inode c.inode).count - 1) (s.refs.erase (t, c))) := by
  obtain ⟨hn, hl⟩ := hi.ref _ hr
  have hlt := hi.count_lt c.inode
  refine inv_recount hi hl (by omega) (fun r hr => hi.ref r (List.mem_of_mem_erase hr)) ?_
    fun i hij => ?_
  · rw [hi.count c.inode hl, State.uses, List.countP_erase, if_pos (by simpa using hr)]
  · rw [List.countP_erase, if_neg (by simp [Ne.symm hij])]
    rfl

variable [DecidableEq β]

/-- `bread` from `lock_acquire` on. -/
theorem inv_lockBuffer (hi : Inv s) (hc : (s.pc t).call = some c) (hh : Holds s c b) :
    Inv (lockBuffer s t c b) := by
  unfold lockBuffer
  dsimp only
  split_ifs with hl hv
  · exact inv_goto hi hc.symm fun d b' hd hb => holds_call hh d b' hd hb (.inl rfl)
  · exact inv_finish hi hc hh hv
  · have hk : s.holders b ≠ [] → Kept s b { s.buffer b with lock := true } (s.holders b) :=
      fun _ => ⟨rfl, rfl, id, fun _ h _ => h⟩
    rw [set_eq_rehold]
    refine inv_goto (inv_rehold _ hi hk (hi.holders b)) hc.symm fun d b' hd hb => ?_
    exact holds_call (holds_rehold hk (hi.call t c hc).1 hh).1 d b' hd hb (.inr rfl)

/-- `getblk` of a free buffer, and `bread` behind it. -/
theorem inv_takeBuffer (hi : Inv s) (hc : (s.pc t).call = some c) (hb : (s.buffer b).count = 0) :
    Inv (takeBuffer s t c b) := by
  have hnil : s.holders b = [] := List.length_eq_zero_iff.mp ((hi.holders b).trans hb)
  have hi' : Inv (rehold s b { s.buffer b with
      dev := c.dev, block := s.blockOf c, count := 1, valid := false } [c.inode]
        (b :: s.chain.erase b)) :=
    inv_rehold _ hi (fun h => absurd hnil h) rfl
  exact inv_lockBuffer hi' hc ⟨by simp [State.set], by simp [State.set, State.blockOf], by simp⟩

/-- What `bread` of a call leaves. -/
theorem inv_bread {free : Option β} (hi : Inv s) (hc : (s.pc t).call = some c)
    (h : bread s t c free = .next s') : Inv s' := by
  unfold bread at h
  cases hlook : s.lookup c.dev (s.blockOf c) with
  | some b =>
    rw [hlook] at h
    obtain rfl := next.inj h
    have hkey := List.find?_some hlook
    have hk : s.holders b ≠ [] → Kept s b { s.buffer b with count := (s.buffer b).count + 1 }
        (c.inode :: s.holders b) :=
      fun _ => ⟨rfl, rfl, id, fun _ h _ => List.mem_cons_of_mem _ h⟩
    have hi' := inv_rehold s.chain hi hk (by simp [hi.holders])
    have hh : Holds (rehold s b { s.buffer b with count := (s.buffer b).count + 1 }
        (c.inode :: s.holders b) s.chain) c b := by
      simp only [decide_eq_true_eq] at hkey
      exact ⟨by simpa [rehold, State.set] using hkey.1,
        by simpa [rehold, State.set, State.blockOf] using hkey.2, by simp [rehold]⟩
    dsimp only
    split_ifs with hv
    · exact inv_finish hi' hc hh (by simpa [rehold, State.set] using hv)
    · exact inv_lockBuffer hi' hc hh
  | none =>
    rw [hlook] at h
    cases free with
    | none =>
      obtain rfl := next.inj h
      exact inv_goto hi hc.symm (by simp [Pc.buf])
    | some b =>
      obtain ⟨hb, h⟩ := guard_eq_next.mp h
      obtain rfl := next.inj h
      exact inv_takeBuffer hi hc (of_decide_eq_true hb)

/-- `bread` sets the place of the task anew, wherever it was. -/
theorem bread_goto {free : Option β} : bread (s.goto t p) t c free = bread s t c free := by
  have hf : ∀ (s : State τ ι β) b, finish (s.goto t p) t c b = finish s t c b := by
    simp [finish, State.goto, State.setInode]
  have hl : ∀ (s : State τ ι β) b, lockBuffer (s.goto t p) t c b = lockBuffer s t c b := by
    intro s b
    simp only [lockBuffer, hf]
    simp [State.goto, State.set]
  have hlook : (s.goto t p).lookup c.dev ((s.goto t p).blockOf c) =
      s.lookup c.dev (s.blockOf c) := rfl
  unfold bread
  rw [hlook]
  cases s.lookup c.dev (s.blockOf c) with
  | some b =>
    let u : State τ ι β := { s.set b { s.buffer b with count := (s.buffer b).count + 1 } with
      holders := update s.holders b (c.inode :: s.holders b) }
    change Outcome.next (if (s.buffer b).valid then finish (u.goto t p) t c b
      else lockBuffer (u.goto t p) t c b) =
        Outcome.next (if (s.buffer b).valid then finish u t c b else lockBuffer u t c b)
    rw [hf, hl]
  | none =>
    cases free with
    | none => simp [State.goto]
    | some b =>
      have ht : takeBuffer (s.goto t p) t c b = takeBuffer s t c b :=
        hl (rehold s b { s.buffer b with
          dev := c.dev, block := s.blockOf c, count := 1, valid := false } [c.inode]
            (b :: s.chain.erase b)) b
      simp only [ht]
      rfl

end Onix.Iget
