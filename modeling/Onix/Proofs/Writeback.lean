import Onix.Sanity.WritebackInv

/-! Writing buffers back under any interleaving: what is lost, and when nothing is. -/

namespace Onix.Writeback

open Function Outcome

variable {τ β ι δ : Type*} [DecidableEq τ] [DecidableEq β] [DecidableEq ι] {s s' s₀ : State τ β ι δ}
  {t u : τ} {b c : β} {i : ι} {j k dev block : ℕ} {after : After ι} {a : Act τ β ι δ}
  {as : List (Act τ β ι δ)}

/-- No `bwrite` comes to its `dirty = false` with a sector modified after it was
transferred, unless another write of the buffer still has to transfer it. -/
def Unspoiled (s : State τ β ι δ) : Act τ β ι δ → Prop
  | .done t => ∀ b dev block k after, s.pc t = .writing b dev block k after →
      ∀ j < BLOCK_SECS, s.unsent b j = true → ∃ u, u ≠ t ∧ Pending s u b j
  | _ => True

section GoOn

/-- The task is back from its `bwrite` of `b` for this purpose. -/
structure Back (s : State τ β ι δ) (t : τ) (b : β) (after : After ι) : Prop where
  out : s.pc t = .out
  backs : Backs s t b after
  last : ∀ i, after = .last i → ∀ u c dev block k, s.pc u ≠ .writing c dev block k (.last i)

omit [DecidableEq τ] [DecidableEq β] [DecidableEq ι] in
/-- Nobody writes for an inode that its last user gives back. -/
theorem not_writing_of_back (hi : Inv s) (hb : Back s t b (.last i)) {after : After ι}
    (hu : s.pc u = .writing c dev block k after) : after.inode ≠ some i := by
  intro hn
  obtain ⟨-, hm | rfl⟩ := ((hi.writing u c dev block k after hu).2.2.2).of_inode hn
  · rw [hb.backs.1] at hm
    cases hm
  · exact hb.last i rfl u c dev block k hu

omit [DecidableEq β] [DecidableEq ι] in
theorem Inv.startWrite_step (hi : Inv s) (hb : Back s t b after) {k : Outcome (State τ β ι δ)}
    (hk : (s.buffer b).dirty = false → k = .next s' → Inv s')
    (hs : Writeback.startWrite s t b after k = .next s') : Inv s' := by
  unfold Writeback.startWrite at hs
  dsimp only at hs
  split_ifs at hs with hd
  · obtain rfl := next.inj hs
    exact hi.startWrite hb.out (hi.dirty b hd) hb.backs hb.last
  · exact hk (by simpa using hd) hs

omit [DecidableEq τ] [DecidableEq β] in
theorem Inv.putInode (hi : Inv s) (hb : Back s t b (.last i)) : Inv (putInode s i) :=
  hi.setInode rfl nofun fun u c dev block k _ hu =>
    (hi.writing u c dev block k _ hu).2.2.2.setInode (not_writing_of_back hi hb hu) _ _

/-- The inode gives its buffer back. -/
theorem Inv.closeInode (hi : Inv s) (hb : Back s t b (.last i))
    (hclean : (s.buffer b).dirty = false)
    (hs : ((Writeback.release s (.inode i) b).andThen fun s => .next (Writeback.putInode s i)) =
      .next s') : Inv s' := by
  have hput := hi.putInode hb
  have hcomm : ((Writeback.release s (.inode i) b).andThen fun s => .next (Writeback.putInode s i)) =
      Writeback.release (Writeback.putInode s i) (.inode i) b := by
    unfold Writeback.release
    dsimp only
    have hbuf : (Writeback.putInode s i).buffer b = s.buffer b := rfl
    rw [hbuf]
    unfold Outcome.assert
    split_ifs <;> rfl
  rw [hcomm] at hs
  refine hput.release (hi.inode i b hb.backs.2) hclean (fun h' hr => ?_) hs
  rintro rfl
  have hr : ((Writeback.putInode s i).inode i).buf = some b := hr
  have hnone : ((Writeback.putInode s i).inode i).buf = none := by
    unfold Writeback.putInode State.setInode
    dsimp only
    rw [update_self]
  rw [hnone] at hr
  cases hr

theorem Inv.brelse (hi : Inv s) (hb : Back s t b .brelse) (hclean : (s.buffer b).dirty = false)
    (hs : Writeback.release s (.task t) b = .next s') : Inv s' := by
  refine hi.release hb.backs hclean (fun h' hr => ?_) hs
  rintro rfl
  rcases hr with hr | ⟨dev, block, k, hr⟩ | ⟨dev, block, k, after, hr, -⟩ <;>
    rw [hb.out] at hr <;> cases hr

omit [DecidableEq β] in
/-- `inode->count--` by a task that has the inode. -/
theorem Inv.dropRef (hi : Inv s) (hb : Back s t b (.iput i)) :
    Inv (s.setInode i { s.inode i with count := (s.inode i).count - 1 } ((s.refs i).erase t)) := by
  obtain ⟨hmem, hbuf⟩ := hb.backs
  refine hi.setInode ?_ (fun c hc => hi.inode i c hc) fun u c dev block k after hu => ?_
  · dsimp only
    rw [hi.refs, List.length_erase_of_mem hmem]
  · have hut : u ≠ t := by
      rintro rfl
      rw [hb.out] at hu
      cases hu
    have hback := (hi.writing u c dev block k after hu).2.2.2
    refine hback.setRefs rfl (fun hm => (List.mem_erase_of_ne hut).mpr hm) ?_
    rintro rfl
    rw [hback.1] at hmem
    cases hmem

/-- The rest of a call after its `bwrite`. -/
theorem Inv.goOn (hi : Inv s) (hb : Back s t b after) (hclean : (s.buffer b).dirty = false)
    (hs : goOn s t b after = .next s') : Inv s' := by
  have hout : ∀ s₁ : State τ β ι δ, s₁.pc t = .out → s₁.goto t .out = s₁ := by
    intro s₁ hp
    unfold State.goto
    rw [← hp, update_eq_self]
  unfold Writeback.goOn at hs
  cases after with
  | ret via =>
    obtain rfl := next.inj hs
    rw [hout s hb.out]
    exact hi
  | brelse =>
    dsimp only at hs
    rw [hout s hb.out] at hs
    exact hi.brelse hb hclean hs
  | last i =>
    dsimp only at hs
    rw [hout s hb.out] at hs
    exact hi.closeInode hb hclean hs
  | iput i =>
    have hdrop := hi.dropRef hb
    obtain ⟨hmem, hbuf⟩ := hb.backs
    obtain ⟨s₁, hs₁⟩ : ∃ s₁, s.setInode i { s.inode i with count := (s.inode i).count - 1 }
      ((s.refs i).erase t) = s₁ := ⟨_, rfl⟩
    have hp₁ : s₁.pc t = .out := by
      rw [← hs₁]
      exact hb.out
    dsimp only at hs
    rw [hs₁] at hs hdrop
    rw [hout s₁ hp₁] at hs
    split_ifs at hs with hc
    · obtain rfl := next.inj hs
      exact hdrop
    · have hnil : (s.refs i).erase t = [] := by
        refine List.eq_nil_of_length_eq_zero ?_
        rw [List.length_erase_of_mem hmem, ← hi.refs]
        omega
      have hback : Back s₁ t b (.last i) := by
        refine ⟨hp₁, ⟨?_, ?_⟩, fun n hn u c dev block k hu => ?_⟩
        · rw [← hs₁]
          exact (update_self i _ s.refs).trans hnil
        · rw [← hs₁]
          unfold State.setInode
          dsimp only
          rw [update_self]
          exact hbuf
        · cases hn
          have hu : s.pc u = .writing c dev block k (.last i) := by
            rw [← hs₁] at hu
            exact hu
          have := (hi.writing u c dev block k _ hu).2.2.2.1
          rw [this] at hmem
          cases hmem
      exact hdrop.startWrite_step hback (fun hd hk => hdrop.closeInode hback hd hk) hs

/-- Where the task has been makes no difference to how the call goes on. -/
theorem goOn_goto (s : State τ β ι δ) (t : τ) (b : β) (p : Pc β ι) (after : After ι) :
    goOn (s.goto t p) t b after = goOn s t b after := by
  cases after with
  | ret via =>
    unfold goOn
    rw [goto_goto]
  | brelse =>
    unfold goOn
    rw [goto_goto]
  | last i =>
    unfold goOn
    rw [goto_goto]
  | iput i =>
    have hset : ∀ (inode : InodeT β) (refs : List τ) (q : Pc β ι),
        ((s.goto t p).setInode i inode refs).goto t q = (s.setInode i inode refs).goto t q :=
      fun inode refs q => goto_goto (s.setInode i inode refs) t p q
    unfold goOn Writeback.startWrite
    dsimp only
    rw [hset, hset]
    rfl

end GoOn

section Calls

omit [DecidableEq τ] [DecidableEq ι] in
/-- The hash table and the buffers change apart from each other. -/
theorem set_table (f : Bool) (bf : BufferT δ) {d l : ℕ} {o : Option β} :
    { s.set b bf with table := ((if f then s else s.setTable d l none).setTable dev block o).table } =
      ((if f then s else s.setTable d l none).set b bf).setTable dev block o := by
  cases f <;> rfl

omit [DecidableEq ι] in
theorem Inv.bread (hi : Inv s) (hp : s.pc t = .out)
    (hs : Writeback.bread s t dev block b = .next s') : Inv s' := by
  unfold Writeback.bread at hs
  cases htab : s.table dev block with
  | some c =>
    rw [htab] at hs
    have hhit := hi.hit (t := t) ((hi.table dev block c).mp htab).1
    obtain ⟨s₁, hs₁⟩ : ∃ s₁, (s.set c { s.buffer c with
      rnode := false, count := (s.buffer c).count + 1 }).hold (.task t) c = s₁ := ⟨_, rfl⟩
    have hp₁ : s₁.pc t = .out := by
      rw [← hs₁]
      exact hp
    have hmem : .task t ∈ s₁.holders c := by
      rw [← hs₁]
      unfold State.hold
      dsimp only
      rw [update_self]
      exact List.mem_cons_self
    dsimp only at hs
    rw [hs₁] at hs hhit
    split_ifs at hs
    · obtain rfl := next.inj hs
      exact hhit.out fun c j _ => not_pending_out hp₁ c j
    · obtain rfl := next.inj hs
      exact hhit.lockBuffer (not_pending_out hp₁) hmem
  | none =>
    rw [htab] at hs
    obtain ⟨hfree, hs⟩ := guard_eq_next.mp hs
    obtain ⟨-, hs⟩ := assert_eq_next.mp hs
    obtain ⟨hclean, hs⟩ := assert_eq_next.mp hs
    obtain rfl := next.inj hs
    have hnil : s.holders b = [] := hi.idle b (by simpa using hfree)
    have hclean : (s.buffer b).dirty = false := by simpa using hclean
    -- the hash table without the buffer, and then with it at its new place
    obtain ⟨tab, htab'⟩ : ∃ tab, ((if (s.buffer b).fresh then s else s.setTable (s.buffer b).dev
      (s.buffer b).block none).setTable dev block (some b)).table = tab := ⟨_, rfl⟩
    have hcarve := hi.carve (t := t) b { s.buffer b with
        dev := dev, block := block, count := 1, rnode := false, valid := false, fresh := false }
      tab hnil htab ⟨rfl, rfl, rfl, rfl, rfl, rfl, hclean⟩ fun d k => ?_
    · obtain ⟨s₁, hs₁⟩ : ∃ s₁, ({ s.set b { s.buffer b with
          dev := dev, block := block, count := 1, rnode := false, valid := false, fresh := false }
        with table := tab }.hold (.task t) b) = s₁ := ⟨_, rfl⟩
      have hp₁ : s₁.pc t = .out := by
        rw [← hs₁]
        exact hp
      have hmem : .task t ∈ s₁.holders b := by
        rw [← hs₁]
        unfold State.hold
        dsimp only
        rw [update_self]
        exact List.mem_cons_self
      rw [hs₁] at hcarve
      have hlock := hcarve.lockBuffer (not_pending_out hp₁) hmem
      rw [← hs₁, ← htab', set_table] at hlock
      exact hlock
    · rw [← htab']
      unfold State.setTable
      cases hf : (s.buffer b).fresh <;> simp [update_apply] <;> split_ifs <;> simp_all

omit [DecidableEq ι] in
/-- A sector is read. -/
theorem Inv.sectorRead (hi : Inv s) (hp : s.pc t = .reading b dev block k) :
    Inv ((s.set b { s.buffer b with
      data := update (s.buffer b).data k (s.disk dev block k) }).goto t
        (.reading b dev block (k + 1))) := by
  obtain ⟨hdev, hblock, hvalid, hlock, hmem, hdata⟩ := hi.reading t b dev block k hp
  have hun : { s with unsent := update s.unsent b (s.unsent b) } = s := by rw [update_eq_self]
  have hread := hi.contents { s.buffer b with
    data := update (s.buffer b).data k (s.disk dev block k) } (s.unsent b) rfl rfl rfl rfl rfl
    (hi.carved b) (hi.dirty b) (hi.clean b) (fun u dev' block' k' hu => ?_)
    (fun u dev' block' k' after hu => (hi.writing u b dev' block' k' after hu).2.2.1)
    (fun hv => by simp [hvalid] at hv) (fun hv => by simp [hvalid] at hv)
  · rw [hun] at hread
    obtain ⟨s₁, hs₁⟩ : ∃ s₁, s.set b { s.buffer b with
      data := update (s.buffer b).data k (s.disk dev block k) } = s₁ := ⟨_, rfl⟩
    have hp₁ : s₁.pc = s.pc := by
      rw [← hs₁]
      rfl
    rw [hs₁] at hread ⊢
    refine hread.goto (fun c j _ _ hpend => ?_) nofun (fun c dev' block' k' hc => ?_)
      (fun c dev' block' k' hc u dev'' block'' k'' hu => ?_) nofun nofun
    · obtain ⟨_, _, _, _, hw, -⟩ := hpend
      rw [hp₁, hp] at hw
      cases hw
    · cases hc
      have h₁ := hread.reading t b dev block k (hp₁ ▸ hp)
      refine ⟨h₁.1, h₁.2.1, h₁.2.2.1, h₁.2.2.2.1, h₁.2.2.2.2.1, fun j hj => ?_⟩
      rcases Nat.lt_succ_iff_lt_or_eq.mp hj with hj | rfl
      · exact h₁.2.2.2.2.2 j hj
      · rw [← hs₁, buffer_set, if_pos rfl]
        exact update_self ..
    · cases hc
      exact hread.reader u t b dev'' block'' k'' dev block k hu (hp₁ ▸ hp)
  · obtain rfl := hi.reader u t b dev' block' k' dev block k hu hp
    rw [hp] at hu
    cases hu
    refine ⟨hvalid, hlock, fun j hj => ?_⟩
    dsimp only
    rw [update_of_ne (Nat.ne_of_lt hj)]
    exact hdata j hj

omit [DecidableEq ι] in
/-- A sector is written. -/
theorem Inv.sectorWrite (hi : Inv s) (hp : s.pc t = .writing b dev block k after) :
    Inv ({ s with
      disk := update s.disk dev (update (s.disk dev) block
        (update (s.disk dev block) k ((s.buffer b).data k)))
      unsent := update s.unsent b (update (s.unsent b) k false) }.goto t
        (.writing b dev block (k + 1) after)) := by
  have hwrite := hi.transfer hp
  have hnow := hwrite.writing t b dev block k after hp
  refine hwrite.goto (fun c j _ hun hpend => ?_) nofun nofun nofun
    (fun c dev' block' k' after' hc => ?_) fun c dev' block' k' i hc u c' dev'' block'' k'' hu => ?_
  · obtain ⟨dev', block', k', after', hw, hle⟩ := hpend
    obtain ⟨rfl, rfl, rfl, rfl, rfl⟩ : b = c ∧ dev = dev' ∧ block = block' ∧ k = k' ∧
        after = after' := by
      have := hp.symm.trans hw
      cases this
      exact ⟨rfl, rfl, rfl, rfl, rfl⟩
    refine ⟨dev, block, k + 1, after, (pc_goto _ _ _ _).trans (if_pos rfl), ?_⟩
    rcases Nat.eq_or_lt_of_le hle with rfl | hlt
    · dsimp only at hun
      rw [update_self, update_self] at hun
      cases hun
    · exact hlt
  · cases hc
    exact hnow
  · cases hc
    exact hi.last u t c' b dev'' block'' k'' dev block k i hu hp

omit [DecidableEq ι] in
/-- A block has been read. -/
theorem Inv.doneRead (hi : Inv s) (hp : s.pc t = .reading b dev block BLOCK_SECS) :
    Inv (({ s with unsent := update s.unsent b fun _ => false }.set b
      { s.buffer b with dirty := false, valid := true, lock := false }).goto t .out) := by
  obtain ⟨hdev, hblock, hvalid, -, hmem, hdata⟩ := hi.reading t b dev block _ hp
  have hfresh := (hi.busy (List.ne_nil_of_mem hmem)).1
  have hout : Inv (s.goto t .out) := hi.out fun c j _ hpend => by
    obtain ⟨_, _, _, _, hw, -⟩ := hpend
    rw [hp] at hw
    cases hw
  have hnone : ∀ u dev' block' k', (s.goto t .out).pc u ≠ .reading b dev' block' k' := by
    intro u dev' block' k' hu
    rw [pc_goto] at hu
    split_ifs at hu with hut
    exact hut (hi.reader u t b dev' block' k' dev block _ hu hp)
  exact hout.contents { s.buffer b with
    dirty := false, valid := true, lock := false } (fun _ => false) rfl rfl rfl rfl rfl (fun _ => hfresh) nofun
    (fun _ => rfl) (fun u dev' block' k' hu => absurd hu (hnone u dev' block' k'))
    (fun _ _ _ _ _ _ => rfl) (fun _ j hj _ => by
      have := hdata j hj
      rw [← hdev, ← hblock] at this
      exact this) nofun

/-- A block has been written, and nothing that was modified on the way is forgotten. -/
theorem Inv.doneWrite (hi : Inv s) (hp : s.pc t = .writing b dev block BLOCK_SECS after)
    (hsafe : ∀ j < BLOCK_SECS, s.unsent b j = true → ∃ u, u ≠ t ∧ Pending s u b j)
    (hs : Writeback.goOn (s.set b { s.buffer b with dirty := false, valid := true }) t b after =
      .next s') : Inv s' := by
  obtain ⟨hdev, hblock, hvalid, hb⟩ := hi.writing t b dev block _ after hp
  have hout : Inv (s.goto t .out) := hi.out fun c j hj hpend => by
    obtain ⟨_, _, _, _, hw, hle⟩ := hpend
    rw [hp] at hw
    cases hw
    omega
  have hset := hout.setBuffer (b := b) { s.buffer b with dirty := false, valid := true }
    (by rw [← hvalid]; rfl) (fun u dev' block' k' hu => ?_) nofun fun _ j hj hun => ?_
  · have hgo : Writeback.goOn ((s.goto t .out).set b { s.buffer b with
        dirty := false, valid := true }) t b after = .next s' :=
      (goOn_goto (s.set b _) t b .out after).trans hs
    refine hset.goOn ⟨?_, ?_, fun i hi' u c dev' block' k' hu => ?_⟩ ?_ hgo
    · exact (pc_goto s t .out t).trans (if_pos rfl)
    · exact (backs_congr rfl rfl rfl).mpr hb
    · subst hi'
      have hu : (s.goto t .out).pc u = .writing c dev' block' k' (.last i) := hu
      rw [pc_goto] at hu
      split_ifs at hu with hut
      exact hut (hi.last u t c b dev' block' k' dev block _ i hu hp)
    · rw [buffer_set, if_pos rfl]
  · have := (hout.reading u b dev' block' k' hu).2.2.1
    rw [show (s.goto t .out).buffer b = s.buffer b from rfl, hvalid] at this
    cases this
  · obtain ⟨u, hut, dev', block', k', after', hu, hle⟩ := hsafe j hj hun
    refine Or.inr ⟨u, dev', block', k', after', ?_, hle⟩
    rw [pc_goto, if_neg hut]
    exact hu

omit [DecidableEq τ] [DecidableEq ι] in
theorem Inv.modify (hi : Inv s) (hv : (s.buffer b).valid = true) (hh : s.holders b ≠ [])
    (value : δ) :
    Inv ({ s with unsent := update s.unsent b (update (s.unsent b) k true) }.set b
      { s.buffer b with data := update (s.buffer b).data k value, dirty := true }) := by
  refine hi.contents _ _ rfl rfl rfl rfl rfl (hi.carved b) (fun _ => hv) (fun hr => ?_)
    (fun u dev block j hu => ?_) (fun _ _ _ _ _ _ => hv) (fun _ j hj hun => ?_)
    fun _ _ _ _ => Or.inl rfl
  · have := (hi.busy hh).2
    dsimp only at hr
    rw [this] at hr
    cases hr
  · have := (hi.reading u b dev block j hu).2.2.1
    rw [hv] at this
    cases this
  · have hjk : j ≠ k := by
      rintro rfl
      rw [update_self] at hun
      cases hun
    rw [update_of_ne hjk] at hun
    dsimp only
    rw [update_of_ne hjk]
    exact hi.sent b hv j hj hun

/-- `iget` hands the buffer of the task to the inode. -/
theorem Inv.iget (hi : Inv s) (hp : s.pc t = .out) (hh : .task t ∈ s.holders b)
    (hn : (s.inode i).buf = none) :
    Inv (((s.unhold (.task t) b).hold (.inode i) b).setInode i ⟨some b, 1⟩ [t]) := by
  obtain ⟨hfresh, hrnode⟩ := hi.busy (List.ne_nil_of_mem hh)
  have hmove := hi.holders (b := b) (s.buffer b)
    (.inode i :: (s.holders b).erase (.task t)) rfl ?_ (fun hf => ?_)
    (fun hr => by simp [hrnode] at hr) fun h hr => ?_
  · obtain ⟨s₁, hs₁⟩ : ∃ s₁, { s.set b (s.buffer b) with
      holders := update s.holders b (.inode i :: (s.holders b).erase (.task t)) } = s₁ := ⟨_, rfl⟩
    have hsame : (s.unhold (.task t) b).hold (.inode i) b = s₁ := by
      rw [← hs₁]
      unfold State.unhold State.hold State.set
      dsimp only
      rw [update_self, update_idem, update_eq_self]
    have hin : s₁.inode = s.inode := by
      rw [← hs₁]
      rfl
    have hmem : .inode i ∈ s₁.holders b := by
      rw [← hs₁]
      dsimp only
      rw [update_self]
      exact List.mem_cons_self
    rw [hs₁] at hmove
    rw [hsame]
    refine hmove.setInode rfl (fun c hc => ?_) fun u c dev block k after hu => ?_
    · cases hc
      exact hmem
    · have hback := (hmove.writing u c dev block k after hu).2.2.2
      refine hback.setInode (fun hname => ?_) _ _
      have := (hback.of_inode hname).1
      rw [hin, hn] at this
      cases this
  · rw [List.length_cons, List.length_erase_of_mem hh, hi.count]
    have := List.length_pos_of_mem hh
    omega
  · rw [hfresh, hrnode] at hf
    rcases hf with hf | hf <;> cases hf
  · have hne : h ≠ .task t := by
      rintro rfl
      rcases hr with hr | ⟨dev, block, k, hr⟩ | ⟨dev, block, k, after, hr, -⟩ <;>
        rw [hp] at hr <;> cases hr
    exact List.mem_cons_of_mem _ ((List.mem_erase_of_ne hne).mpr (hi.required hr))

omit [DecidableEq τ] [DecidableEq β] in
theorem Inv.again (hi : Inv s) (hr : s.refs i ≠ []) :
    Inv (s.setInode i { s.inode i with count := (s.inode i).count + 1 } (t :: s.refs i)) := by
  refine hi.setInode ?_ (fun c hc => hi.inode i c hc) fun u c dev block k after hu => ?_
  · dsimp only
    rw [hi.refs, List.length_cons]
  · have hback := (hi.writing u c dev block k after hu).2.2.2
    refine hback.setRefs rfl (List.mem_cons_of_mem t) ?_
    rintro rfl
    exact hr hback.1

end Calls

section Run

theorem inv_step (hi : Inv s) (hs : Guarded Unspoiled Step s a s') : Inv s' := by
  obtain ⟨hsafe, hs⟩ := hs
  unfold Step exec at hs
  cases a with
  | bread t dev block b =>
    obtain ⟨hp, hs⟩ := guard_eq_next.mp hs
    exact hi.bread (of_decide_eq_true hp) hs
  | lock t =>
    dsimp only at hs
    split at hs
    next b hp =>
      obtain ⟨-, hs⟩ := guard_eq_next.mp hs
      obtain rfl := next.inj hs
      refine hi.lockBuffer (fun c j hpend => ?_) (hi.locking t b hp)
      obtain ⟨_, _, _, _, hw, -⟩ := hpend
      rw [hp] at hw
      cases hw
    next => cases hs
  | sector t =>
    dsimp only at hs
    split at hs
    next b dev block k hp =>
      obtain ⟨-, hs⟩ := guard_eq_next.mp hs
      obtain rfl := next.inj hs
      exact hi.sectorRead hp
    next b dev block k after hp =>
      obtain ⟨-, hs⟩ := guard_eq_next.mp hs
      obtain rfl := next.inj hs
      exact hi.sectorWrite hp
    next => cases hs
  | done t =>
    dsimp only at hs
    split at hs
    next b dev block k hp =>
      obtain ⟨hk, hs⟩ := guard_eq_next.mp hs
      obtain rfl := of_decide_eq_true hk
      obtain rfl := next.inj hs
      exact hi.doneRead hp
    next b dev block k after hp =>
      obtain ⟨hk, hs⟩ := guard_eq_next.mp hs
      obtain rfl := of_decide_eq_true hk
      exact hi.doneWrite hp (hsafe b dev block _ after hp) hs
    next => cases hs
  | modify b k value =>
    obtain ⟨hg, hs⟩ := guard_eq_next.mp hs
    obtain rfl := next.inj hs
    simp only [Bool.and_eq_true, decide_eq_true_eq] at hg
    exact hi.modify hg.1.1 hg.1.2 value
  | bwrite t b via =>
    cases via with
    | none =>
      obtain ⟨hg, hs⟩ := guard_eq_next.mp hs
      obtain ⟨hp, hh⟩ := of_decide_eq_true hg
      have hb : Back s t b (.ret none) := ⟨hp, hh, nofun⟩
      exact hi.startWrite_step hb (fun _ hk => next.inj hk ▸ hi) hs
    | some i =>
      obtain ⟨hg, hs⟩ := guard_eq_next.mp hs
      obtain ⟨hp, hh⟩ := of_decide_eq_true hg
      have hb : Back s t b (.ret (some i)) := ⟨hp, hh, nofun⟩
      exact hi.startWrite_step hb (fun _ hk => next.inj hk ▸ hi) hs
  | brelse t b =>
    obtain ⟨hg, hs⟩ := guard_eq_next.mp hs
    obtain ⟨hp, hh⟩ := of_decide_eq_true hg
    have hb : Back s t b .brelse := ⟨hp, hh, nofun⟩
    exact hi.startWrite_step hb (fun hd hk => hi.goOn hb hd hk) hs
  | iget t i b =>
    obtain ⟨hg, hs⟩ := guard_eq_next.mp hs
    obtain ⟨hp, hh, hn⟩ := of_decide_eq_true hg
    obtain rfl := next.inj hs
    exact hi.iget hp hh (Option.isNone_iff_eq_none.mp hn)
  | again t i =>
    obtain ⟨hg, hs⟩ := guard_eq_next.mp hs
    obtain rfl := next.inj hs
    exact hi.again (of_decide_eq_true hg).2
  | iput t i =>
    obtain ⟨hg, hs⟩ := guard_eq_next.mp hs
    obtain ⟨hp, hr⟩ := of_decide_eq_true hg
    cases hbuf : (s.inode i).buf with
    | none =>
      rw [hbuf] at hs
      cases hs
    | some b =>
      rw [hbuf] at hs
      have hb : Back s t b (.iput i) := ⟨hp, ⟨hr, hbuf⟩, nofun⟩
      exact hi.startWrite_step hb (fun hd hk => hi.goOn hb hd hk) hs

theorem inv_run (h₀ : Init s₀) (hr : Run (Guarded Unspoiled Step) s₀ as s) : Inv s :=
  hr.invariant (fun _ _ _ => inv_step) (inv_init h₀)

end Run

section Stored

/-- The buffer holds what the disk holds. -/
def Stored (s : State τ β ι δ) (b : β) : Prop :=
  ∀ k < BLOCK_SECS, (s.buffer b).data k = s.disk (s.buffer b).dev (s.buffer b).block k

omit [DecidableEq τ] [DecidableEq β] [DecidableEq ι] in
theorem Inv.stored (hi : Inv s) (hv : (s.buffer b).valid = true) (hd : (s.buffer b).dirty = false)
    (hw : ∀ t dev block k after, s.pc t ≠ .writing b dev block k after) : Stored s b := by
  intro k hk
  cases hun : s.unsent b k with
  | false => exact hi.sent b hv k hk hun
  | true =>
    rcases hi.unsent b hv k hk hun with hdirty | ⟨t, dev, block, j, after, ht, -⟩
    · rw [hd] at hdirty
      cases hdirty
    · exact absurd ht (hw t dev block j after)

/-- Where no `bwrite` forgets a modification, a buffer that is clean and not being
written has the contents of its block, and so has every buffer on the free list. -/
theorem clean_stored (h₀ : Init s₀) (hr : Run (Guarded Unspoiled Step) s₀ as s) :
    (∀ b, (s.buffer b).valid = true → (s.buffer b).dirty = false →
      (∀ t dev block k after, s.pc t ≠ .writing b dev block k after) → Stored s b) ∧
    ∀ b, (s.buffer b).rnode = true → (s.buffer b).dirty = false ∧
      ((s.buffer b).valid = true → Stored s b) := by
  have hi := inv_run h₀ hr
  refine ⟨fun b hv hd hw => hi.stored hv hd hw, fun b hf => ⟨hi.clean b hf, fun hv => ?_⟩⟩
  have hun := hi.untouched (hi.idle b (Or.inr hf))
  exact hi.stored hv (hi.clean b hf) hun.writing

instance (s : State τ β ι δ) (t : τ) (b : β) (j : ℕ) : Decidable (Pending s t b j) :=
  match h : s.pc t with
  | .writing c _ _ k _ => decidable_of_iff (c = b ∧ k ≤ j) (by simp [Pending, h])
  | .out => .isFalse (by simp [Pending, h])
  | .locking _ => .isFalse (by simp [Pending, h])
  | .reading .. => .isFalse (by simp [Pending, h])

instance [Fintype τ] (s : State τ β ι δ) (a : Act τ β ι δ) : Decidable (Unspoiled s a) :=
  match a with
  | .done t =>
    match h : s.pc t with
    | .writing b _ _ _ _ =>
      decidable_of_iff (∀ j < BLOCK_SECS, s.unsent b j = true → ∃ u, u ≠ t ∧ Pending s u b j)
        ⟨fun hall c _ _ _ _ hc => by
          cases h.symm.trans hc
          exact hall, fun hall => hall _ _ _ _ _ h⟩
    | .out => .isTrue (by simp [Unspoiled, h])
    | .locking _ => .isTrue (by simp [Unspoiled, h])
    | .reading .. => .isTrue (by simp [Unspoiled, h])
  | .bread .. | .lock _ | .sector _ | .modify .. | .bwrite .. | .brelse .. | .iget .. | .again ..
  | .iput .. => .isTrue trivial

/-- One buffer, one inode and two tasks. -/
def blank : State Bool Unit Unit ℕ where
  disk _ _ _ := 0
  buffer _ := ⟨0, 0, fun _ => 0, 0, false, false, false, false, true⟩
  table _ _ := none
  inode _ := ⟨none, 0⟩
  pc _ := .out
  holders _ := []
  refs _ := []
  unsent _ _ := false

theorem init_blank : Init blank where
  fresh _ := ⟨rfl, rfl, rfl, rfl, rfl, rfl⟩
  table _ _ := rfl
  inode _ := rfl
  pc _ := rfl
  holders _ := rfl
  refs _ := rfl

/-- A task writes a block, and another modifies it after its sector has gone. -/
def overtaken : List (Act Bool Unit Unit ℕ) :=
  [.bread true 1 7 (), .sector true, .sector true, .done true, .modify () 0 5, .bwrite true () none,
    .sector true, .bread false 1 7 (), .modify () 0 6, .sector true]

/-- The other task calls `bwrite` as well before the first is back. -/
theorem clean_stored_twoWriters : ∃ s : State Bool Unit Unit ℕ,
    (s.buffer ()).data 0 = 6 ∧ Stored s () := by
  obtain ⟨s, hs, hp⟩ := run_of_play Unspoiled exec blank
    (overtaken ++ [.bwrite false () none, .done true, .sector false, .sector false, .done false])
    (fun s => (s.buffer ()).valid && !(s.buffer ()).dirty && (s.buffer ()).data 0 == 6 &&
      s.pc true == .out && s.pc false == .out) (by decide +kernel)
  simp only [Bool.and_eq_true, beq_iff_eq, Bool.not_eq_true'] at hp
  obtain ⟨⟨⟨⟨hv, hd⟩, hdata⟩, htrue⟩, hfalse⟩ := hp
  refine ⟨s, hdata, (clean_stored init_blank hs).1 () hv hd fun t dev block k after ht => ?_⟩
  cases t with
  | false =>
    rw [hfalse] at ht
    cases ht
  | true =>
    rw [htrue] at ht
    cases ht

/-- The second modification is forgotten when the first `bwrite` is over. -/
theorem overtaken_lost : ¬ ∀ (as : List (Act Bool Unit Unit ℕ)) (s : State Bool Unit Unit ℕ),
    Run Step blank as s → ∀ b, (s.buffer b).valid = true → (s.buffer b).dirty = false →
      (∀ t dev block k after, s.pc t ≠ .writing b dev block k after) → Stored s b := by
  intro h
  obtain ⟨s, hs, hp⟩ := run_of_play (fun _ _ => True) exec blank (overtaken ++ [.done true])
    (fun s => (s.buffer ()).valid && !(s.buffer ()).dirty && (s.buffer ()).data 0 == 6 &&
      s.disk 1 7 0 == 5 && (s.buffer ()).dev == 1 && (s.buffer ()).block == 7 &&
      s.pc true == .out && s.pc false == .out) (by decide +kernel)
  simp only [Bool.and_eq_true, beq_iff_eq, Bool.not_eq_true'] at hp
  obtain ⟨⟨⟨⟨⟨⟨⟨hv, hd⟩, hdata⟩, hdisk⟩, hdev⟩, hblock⟩, htrue⟩, hfalse⟩ := hp
  have hst := h _ s hs.of_guarded () hv hd fun t dev block k after ht => by
    cases t with
    | false =>
      rw [hfalse] at ht
      cases ht
    | true =>
      rw [htrue] at ht
      cases ht
  have h0 := hst 0 (by decide)
  rw [hdata, hdev, hblock, hdisk] at h0
  cases h0

end Stored

end Onix.Writeback
