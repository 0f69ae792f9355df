import Onix.Lib.Run
import Onix.Spec.Writeback

/-! The invariant of the buffers under many tasks: who holds a buffer, and where
the modifications are that the disk does not have yet. One lemma for each kind of
change that the calls are made of. -/

namespace Onix.Writeback

open Function Outcome

variable {τ β ι δ : Type*} {s s' : State τ β ι δ} {t u : τ} {b c : β} {i : ι} {j k : ℕ}
  {dev block : ℕ} {after : After ι} {h : Holder τ ι}

/-- Task `t` still has to write sector `j` of buffer `b`. -/
def Pending (s : State τ β ι δ) (t : τ) (b : β) (j : ℕ) : Prop :=
  ∃ dev block k after, s.pc t = .writing b dev block k after ∧ k ≤ j

/-- Why the buffer stays the task's while it writes it. -/
def Backs (s : State τ β ι δ) (t : τ) (b : β) : After ι → Prop
  | .ret none => .task t ∈ s.holders b
  | .ret (some i) => t ∈ s.refs i ∧ (s.inode i).buf = some b
  | .brelse => .task t ∈ s.holders b
  | .iput i => t ∈ s.refs i ∧ (s.inode i).buf = some b
  | .last i => s.refs i = [] ∧ (s.inode i).buf = some b

structure Inv (s : State τ β ι δ) : Prop where
  table : ∀ dev block b, s.table dev block = some b ↔
    (s.buffer b).fresh = false ∧ (s.buffer b).dev = dev ∧ (s.buffer b).block = block
  idle : ∀ b, (s.buffer b).fresh = true ∨ (s.buffer b).rnode = true → s.holders b = []
  count : ∀ b, (s.buffer b).count = (s.holders b).length
  carved : ∀ b, (s.buffer b).valid = true → (s.buffer b).fresh = false
  dirty : ∀ b, (s.buffer b).dirty = true → (s.buffer b).valid = true
  clean : ∀ b, (s.buffer b).rnode = true → (s.buffer b).dirty = false
  inode : ∀ i b, (s.inode i).buf = some b → .inode i ∈ s.holders b
  refs : ∀ i, (s.inode i).count = (s.refs i).length
  locking : ∀ t b, s.pc t = .locking b → .task t ∈ s.holders b
  reading : ∀ t b dev block k, s.pc t = .reading b dev block k → (s.buffer b).dev = dev ∧
    (s.buffer b).block = block ∧ (s.buffer b).valid = false ∧ (s.buffer b).lock = true ∧
      .task t ∈ s.holders b ∧ ∀ j < k, (s.buffer b).data j = s.disk dev block j
  reader : ∀ t u b dev block k dev' block' k', s.pc t = .reading b dev block k →
    s.pc u = .reading b dev' block' k' → t = u
  writing : ∀ t b dev block k after, s.pc t = .writing b dev block k after →
    (s.buffer b).dev = dev ∧ (s.buffer b).block = block ∧ (s.buffer b).valid = true ∧ Backs s t b after
  last : ∀ t u b c dev block k dev' block' k' i, s.pc t = .writing b dev block k (.last i) →
    s.pc u = .writing c dev' block' k' (.last i) → t = u
  sent : ∀ b, (s.buffer b).valid = true → ∀ k < BLOCK_SECS, s.unsent b k = false →
    (s.buffer b).data k = s.disk (s.buffer b).dev (s.buffer b).block k
  unsent : ∀ b, (s.buffer b).valid = true → ∀ k < BLOCK_SECS, s.unsent b k = true →
    (s.buffer b).dirty = true ∨ ∃ t, Pending s t b k

theorem inv_init (h : Init s) : Inv s where
  table dev block b := by simp [h.table, (h.fresh b).1]
  idle b _ := h.holders b
  count b := by simp [h.holders, (h.fresh b).2.2.2.2.2]
  carved b hv := by simp [(h.fresh b).2.1] at hv
  dirty b hd := by simp [(h.fresh b).2.2.2.1] at hd
  clean b _ := (h.fresh b).2.2.2.1
  inode i b hb := by simp [h.inode] at hb
  refs i := by simp [h.inode, h.refs]
  locking t b ht := by simp [h.pc] at ht
  reading t b dev block k ht := by simp [h.pc] at ht
  reader t u b dev block k dev' block' k' ht := by simp [h.pc] at ht
  writing t b dev block k after ht := by simp [h.pc] at ht
  last t u b c dev block k dev' block' k' i ht := by simp [h.pc] at ht
  sent b hv := by simp [(h.fresh b).2.1] at hv
  unsent b hv := by simp [(h.fresh b).2.1] at hv

/-- Two carved buffers with one key are one. -/
theorem Inv.eq_of_key (hi : Inv s) (hb : (s.buffer b).fresh = false) (hc : (s.buffer c).fresh = false)
    (hd : (s.buffer b).dev = (s.buffer c).dev) (hk : (s.buffer b).block = (s.buffer c).block) :
    b = c := by
  have h1 := (hi.table _ _ b).mpr ⟨hb, rfl, rfl⟩
  have h2 := (hi.table _ _ c).mpr ⟨hc, rfl, rfl⟩
  rw [hd, hk, h2] at h1
  exact (Option.some.inj h1).symm

theorem Backs.held (hi : Inv s) (h : Backs s t b after) : s.holders b ≠ [] := by
  unfold Backs at h
  split at h
  · exact List.ne_nil_of_mem h
  · exact List.ne_nil_of_mem (hi.inode _ _ h.2)
  · exact List.ne_nil_of_mem h
  · exact List.ne_nil_of_mem (hi.inode _ _ h.2)
  · exact List.ne_nil_of_mem (hi.inode _ _ h.2)

/-- A buffer that nobody holds is in no task's hands. -/
structure Untouched (s : State τ β ι δ) (b : β) : Prop where
  locking : ∀ t, s.pc t ≠ .locking b
  reading : ∀ t dev block k, s.pc t ≠ .reading b dev block k
  writing : ∀ t dev block k after, s.pc t ≠ .writing b dev block k after

theorem Inv.untouched (hi : Inv s) (hb : s.holders b = []) : Untouched s b := by
  refine ⟨fun t ht => ?_, fun t dev block k ht => ?_, fun t dev block k after ht => ?_⟩
  · have := hi.locking t b ht
    rw [hb] at this
    cases this
  · have := (hi.reading t b dev block k ht).2.2.2.2.1
    rw [hb] at this
    cases this
  · exact (hi.writing t b dev block k after ht).2.2.2.held hi hb

/-- A buffer in use has left the free list. -/
theorem Inv.busy (hi : Inv s) (hb : s.holders b ≠ []) :
    (s.buffer b).fresh = false ∧ (s.buffer b).rnode = false := by
  constructor
  · cases hf : (s.buffer b).fresh with
    | false => rfl
    | true => exact absurd (hi.idle b (Or.inl hf)) hb
  · cases hf : (s.buffer b).rnode with
    | false => rfl
    | true => exact absurd (hi.idle b (Or.inr hf)) hb

theorem not_pending_out (hp : s.pc t = .out) (b : β) (j : ℕ) : ¬ Pending s t b j := by
  rintro ⟨dev, block, k, after, h, -⟩
  rw [hp] at h
  cases h

theorem backs_congr (hh : s'.holders = s.holders) (hr : s'.refs = s.refs) (hn : s'.inode = s.inode) :
    Backs s' t b after ↔ Backs s t b after := by
  unfold Backs
  rw [hh, hr, hn]

section Fields

theorem buffer_set [DecidableEq β] (s : State τ β ι δ) (b : β) (bf : BufferT δ) (c : β) :
    (s.set b bf).buffer c = if c = b then bf else s.buffer c := Function.update_apply _ _ _ _

theorem pc_goto [DecidableEq τ] (s : State τ β ι δ) (t : τ) (p : Pc β ι) (u : τ) :
    (s.goto t p).pc u = if u = t then p else s.pc u := Function.update_apply _ _ _ _

theorem goto_goto [DecidableEq τ] (s : State τ β ι δ) (t : τ) (p q : Pc β ι) :
    (s.goto t p).goto t q = s.goto t q := by
  unfold State.goto
  dsimp only
  rw [update_idem]

end Fields

section Place

variable [DecidableEq τ]

/-- A task goes somewhere else, and no sector that is still to be written is dropped. -/
theorem Inv.goto (hi : Inv s) {p : Pc β ι}
    (hdone : ∀ b j, j < BLOCK_SECS → s.unsent b j = true → Pending s t b j →
      Pending (s.goto t p) t b j)
    (hlock : ∀ b, p = .locking b → .task t ∈ s.holders b)
    (hread : ∀ b dev block k, p = .reading b dev block k → (s.buffer b).dev = dev ∧
      (s.buffer b).block = block ∧ (s.buffer b).valid = false ∧ (s.buffer b).lock = true ∧
        .task t ∈ s.holders b ∧ ∀ j < k, (s.buffer b).data j = s.disk dev block j)
    (hreader : ∀ b dev block k, p = .reading b dev block k → ∀ u dev' block' k',
      s.pc u = .reading b dev' block' k' → u = t)
    (hwrite : ∀ b dev block k after, p = .writing b dev block k after → (s.buffer b).dev = dev ∧
      (s.buffer b).block = block ∧ (s.buffer b).valid = true ∧ Backs s t b after)
    (hlast : ∀ b dev block k i, p = .writing b dev block k (.last i) → ∀ u c dev' block' k',
      s.pc u = .writing c dev' block' k' (.last i) → u = t) : Inv (s.goto t p) := by
  have hself : (s.goto t p).pc t = p := by rw [pc_goto, if_pos rfl]
  have hother : ∀ {u}, u ≠ t → (s.goto t p).pc u = s.pc u := fun hu => by rw [pc_goto, if_neg hu]
  have hbacks : ∀ u b after, Backs (s.goto t p) u b after ↔ Backs s u b after := by
    intro u b after
    cases after with
    | ret via => cases via <;> rfl
    | _ => rfl
  refine ⟨hi.table, hi.idle, hi.count, hi.carved, hi.dirty, hi.clean, hi.inode, hi.refs,
    fun u b hu => ?_,
    fun u b dev block k hu => ?_, fun u v b dev block k dev' block' k' hu hv => ?_,
    fun u b dev block k after hu => ?_, fun u v b c dev block k dev' block' k' i hu hv => ?_,
    hi.sent, fun b hv k hk hun => ?_⟩
  · by_cases hut : u = t
    · subst hut
      exact hlock b (hself.symm.trans hu)
    · exact hi.locking u b (hother hut ▸ hu)
  · by_cases hut : u = t
    · subst hut
      exact hread b dev block k (hself.symm.trans hu)
    · exact hi.reading u b dev block k (hother hut ▸ hu)
  · by_cases hut : u = t <;> by_cases hvt : v = t
    · rw [hut, hvt]
    · subst hut
      exact (hreader b dev block k (hself.symm.trans hu) v dev' block' k' (hother hvt ▸ hv)).symm
    · subst hvt
      exact hreader b dev' block' k' (hself.symm.trans hv) u dev block k (hother hut ▸ hu)
    · exact hi.reader u v b dev block k dev' block' k' (hother hut ▸ hu) (hother hvt ▸ hv)
  · rw [hbacks]
    by_cases hut : u = t
    · subst hut
      exact hwrite b dev block k after (hself.symm.trans hu)
    · exact hi.writing u b dev block k after (hother hut ▸ hu)
  · by_cases hut : u = t <;> by_cases hvt : v = t
    · rw [hut, hvt]
    · subst hut
      exact (hlast b dev block k i (hself.symm.trans hu) v c dev' block' k' (hother hvt ▸ hv)).symm
    · subst hvt
      exact hlast c dev' block' k' i (hself.symm.trans hv) u b dev block k (hother hut ▸ hu)
    · exact hi.last u v b c dev block k dev' block' k' i (hother hut ▸ hu) (hother hvt ▸ hv)
  · rcases hi.unsent b hv k hk hun with hd | ⟨u, hu⟩
    · exact Or.inl hd
    · by_cases hut : u = t
      · subst hut
        exact Or.inr ⟨u, hdone b k hk hun hu⟩
      · obtain ⟨dev, block, k', after, hpc, hle⟩ := hu
        exact Or.inr ⟨u, dev, block, k', after, (hother hut).trans hpc, hle⟩

theorem Inv.out (hi : Inv s) (hdone : ∀ b j, j < BLOCK_SECS → ¬ Pending s t b j) :
    Inv (s.goto t .out) :=
  hi.goto (fun b j hj _ hp => absurd hp (hdone b j hj)) nofun nofun nofun nofun nofun

/-- `bwrite` waits for the disk. -/
theorem Inv.startWrite (hi : Inv s) (hp : s.pc t = .out) (hv : (s.buffer b).valid = true)
    (hb : Backs s t b after)
    (hlast : ∀ i, after = .last i → ∀ u c dev' block' k',
      s.pc u ≠ .writing c dev' block' k' (.last i)) :
    Inv (s.goto t (.writing b (s.buffer b).dev (s.buffer b).block 0 after)) := by
  refine hi.goto (fun b j _ _ h => absurd h (not_pending_out hp b j)) nofun nofun nofun
    (fun c dev block k after' h => ?_) fun c dev block k i h u c' dev' block' k' hu => ?_
  · cases h
    exact ⟨rfl, rfl, hv, hb⟩
  · cases h
    exact absurd hu (hlast i rfl u c' dev' block' k')

end Place

section Contents

variable [DecidableEq β]

/-- The contents and flags of a buffer change, and which of its sectors are unsent. -/
theorem Inv.contents (hi : Inv s) (bf : BufferT δ) (un : ℕ → Bool)
    (hdev : bf.dev = (s.buffer b).dev) (hblock : bf.block = (s.buffer b).block)
    (hfresh : bf.fresh = (s.buffer b).fresh) (hcount : bf.count = (s.buffer b).count)
    (hrnode : bf.rnode = (s.buffer b).rnode) (hvalid : bf.valid = true → bf.fresh = false)
    (hdirty : bf.dirty = true → bf.valid = true) (hclean : bf.rnode = true → bf.dirty = false)
    (hread : ∀ t dev block k, s.pc t = .reading b dev block k → bf.valid = false ∧ bf.lock = true ∧
      ∀ j < k, bf.data j = s.disk dev block j)
    (hwrite : ∀ t dev block k after, s.pc t = .writing b dev block k after → bf.valid = true)
    (hsent : bf.valid = true → ∀ k < BLOCK_SECS, un k = false →
      bf.data k = s.disk (s.buffer b).dev (s.buffer b).block k)
    (hunsent : bf.valid = true → ∀ k < BLOCK_SECS, un k = true →
      bf.dirty = true ∨ ∃ t, Pending s t b k) :
    Inv ({ s with unsent := update s.unsent b un }.set b bf) := by
  obtain ⟨s', hs'⟩ : ∃ s', State.set { s with unsent := update s.unsent b un } b bf = s' := ⟨_, rfl⟩
  have hself : s'.buffer b = bf := by
    rw [← hs', buffer_set, if_pos rfl]
  have hother : ∀ {c}, c ≠ b → s'.buffer c = s.buffer c := fun hc => by
    rw [← hs', buffer_set, if_neg hc]
  have hun : ∀ c, s'.unsent c = if c = b then un else s.unsent c := fun c => by
    rw [← hs']
    exact Function.update_apply _ _ _ _
  have hkey : ∀ c, (s'.buffer c).dev = (s.buffer c).dev ∧ (s'.buffer c).block = (s.buffer c).block ∧
      (s'.buffer c).fresh = (s.buffer c).fresh ∧ (s'.buffer c).count = (s.buffer c).count ∧
      (s'.buffer c).rnode = (s.buffer c).rnode := by
    intro c
    by_cases hc : c = b
    · subst hc
      rw [hself]
      exact ⟨hdev, hblock, hfresh, hcount, hrnode⟩
    · rw [hother hc]
      exact ⟨rfl, rfl, rfl, rfl, rfl⟩
  have hbacks : ∀ u c after, Backs s' u c after ↔ Backs s u c after := fun u c after => by
    rw [← hs']
    exact backs_congr rfl rfl rfl
  have hpc : s'.pc = s.pc := by rw [← hs']; rfl
  have hh : s'.holders = s.holders := by rw [← hs']; rfl
  rw [hs']
  refine ⟨fun dev block c => ?_, fun c hc => ?_, fun c => ?_, fun c hv => ?_, fun c hd => ?_,
    fun c hr => ?_, fun i c hc => ?_, fun i => ?_, fun t c ht => ?_, fun t c dev block k ht => ?_,
    fun t u c dev block k dev' block' k' ht hu => ?_, fun t c dev block k after ht => ?_,
    fun t u c c' dev block k dev' block' k' i ht hu => ?_, fun c hv k hk hu => ?_,
    fun c hv k hk hu => ?_⟩
  · obtain ⟨h1, h2, h3, -⟩ := hkey c
    rw [h1, h2, h3, ← hi.table, ← hs']
    rfl
  · obtain ⟨-, -, h3, -, h5⟩ := hkey c
    rw [h3, h5] at hc
    rw [hh]
    exact hi.idle c hc
  · rw [(hkey c).2.2.2.1, hh]
    exact hi.count c
  · by_cases hc : c = b
    · subst hc
      rw [hself] at hv ⊢
      exact hvalid hv
    · rw [hother hc] at hv ⊢
      exact hi.carved c hv
  · by_cases hc : c = b
    · subst hc
      rw [hself] at hd ⊢
      exact hdirty hd
    · rw [hother hc] at hd ⊢
      exact hi.dirty c hd
  · by_cases hc : c = b
    · subst hc
      rw [hself] at hr ⊢
      exact hclean hr
    · rw [hother hc] at hr ⊢
      exact hi.clean c hr
  · rw [hh]
    rw [← hs'] at hc
    exact hi.inode i c hc
  · rw [← hs']
    exact hi.refs i
  · rw [hh]
    exact hi.locking t c (hpc ▸ ht)
  · rw [hpc] at ht
    have hold := hi.reading t c dev block k ht
    rw [hh, (hkey c).1, (hkey c).2.1]
    by_cases hc : c = b
    · subst hc
      obtain ⟨h1, h2, h3⟩ := hread t dev block k ht
      rw [hself]
      refine ⟨hold.1, hold.2.1, h1, h2, hold.2.2.2.2.1, ?_⟩
      rw [← hs']
      exact h3
    · rw [hother hc]
      refine ⟨hold.1, hold.2.1, hold.2.2.1, hold.2.2.2.1, hold.2.2.2.2.1, ?_⟩
      rw [← hs']
      exact hold.2.2.2.2.2
  · exact hi.reader t u c dev block k dev' block' k' (hpc ▸ ht) (hpc ▸ hu)
  · rw [hpc] at ht
    obtain ⟨h1, h2, h3, h4⟩ := hi.writing t c dev block k after ht
    rw [hbacks, (hkey c).1, (hkey c).2.1]
    refine ⟨h1, h2, ?_, h4⟩
    by_cases hc : c = b
    · subst hc
      rw [hself]
      exact hwrite t dev block k after ht
    · rw [hother hc]
      exact h3
  · exact hi.last t u c c' dev block k dev' block' k' i (hpc ▸ ht) (hpc ▸ hu)
  · rw [(hkey c).1, (hkey c).2.1]
    rw [hun] at hu
    by_cases hc : c = b
    · subst hc
      rw [if_pos rfl] at hu
      rw [hself] at hv ⊢
      rw [← hs']
      exact hsent hv k hk hu
    · rw [if_neg hc] at hu
      rw [hother hc] at hv ⊢
      rw [← hs']
      exact hi.sent c hv k hk hu
  · have hpend : ∀ t, Pending s t c k → Pending s' t c k := fun t ht => by
      unfold Pending
      rw [hpc]
      exact ht
    rw [hun] at hu
    by_cases hc : c = b
    · subst hc
      rw [if_pos rfl] at hu
      rw [hself] at hv ⊢
      exact (hunsent hv k hk hu).imp_right fun ⟨t, ht⟩ => ⟨t, hpend t ht⟩
    · rw [if_neg hc] at hu
      rw [hother hc] at hv ⊢
      exact (hi.unsent c hv k hk hu).imp_right fun ⟨t, ht⟩ => ⟨t, hpend t ht⟩

/-- A flag of a buffer that no task reads is set. -/
theorem Inv.setBuffer (hi : Inv s) (bf : BufferT δ)
    (hbf : bf = { s.buffer b with lock := bf.lock, dirty := bf.dirty })
    (hread : ∀ t dev block k, s.pc t = .reading b dev block k → bf.lock = true)
    (hdirty : bf.dirty = true → (s.buffer b).dirty = true)
    (hunsent : (s.buffer b).valid = true → ∀ k < BLOCK_SECS, s.unsent b k = true →
      bf.dirty = true ∨ ∃ t, Pending s t b k) : Inv (s.set b bf) := by
  have hun : { s with unsent := update s.unsent b (s.unsent b) } = s := by rw [update_eq_self]
  have hval : bf.valid = (s.buffer b).valid := by rw [hbf]
  have hdata : bf.data = (s.buffer b).data := by rw [hbf]
  have := hi.contents bf (s.unsent b) (by rw [hbf]) (by rw [hbf]) (by rw [hbf])
    (by rw [hbf]) (by rw [hbf]) (fun hv => by rw [hbf]; exact hi.carved b (hval ▸ hv))
    (fun hd => hval ▸ hi.dirty b (hdirty hd)) (fun hr => ?_)
    (fun t dev block k ht => ?_) (fun t dev block k after ht => ?_) (fun hv => ?_) fun hv => ?_
  · rwa [hun] at this
  · have hr' : (s.buffer b).rnode = true := by
      rw [hbf] at hr
      exact hr
    cases hd : bf.dirty with
    | false => rfl
    | true => exact (hdirty hd).symm.trans (hi.clean b hr')
  · obtain ⟨-, -, h3, -, -, h6⟩ := hi.reading t b dev block k ht
    rw [hval, hdata]
    exact ⟨h3, hread t dev block k ht, h6⟩
  · rw [hval]
    exact (hi.writing t b dev block k after ht).2.2.1
  · rw [hdata]
    exact hi.sent b (hval ▸ hv)
  · exact hunsent (hval ▸ hv)

/-- A sector reaches the disk. -/
theorem Inv.transfer (hi : Inv s) (ht : s.pc t = .writing b dev block k after) :
    Inv { s with
      disk := update s.disk dev (update (s.disk dev) block
        (update (s.disk dev block) k ((s.buffer b).data k)))
      unsent := update s.unsent b (update (s.unsent b) k false) } := by
  obtain ⟨hdev, hblock, hv, hb⟩ := hi.writing t b dev block k after ht
  have hfresh := hi.carved b hv
  -- only the block of `b` has changed on the disk
  have hdisk : ∀ c, c ≠ b → (s.buffer c).fresh = false → ∀ j,
      update s.disk dev (update (s.disk dev) block (update (s.disk dev block) k
        ((s.buffer b).data k))) (s.buffer c).dev (s.buffer c).block j =
      s.disk (s.buffer c).dev (s.buffer c).block j := by
    intro c hc hf j
    by_cases h1 : (s.buffer c).dev = dev
    · rw [h1, update_self]
      by_cases h2 : (s.buffer c).block = block
      · exact absurd (hi.eq_of_key hf hfresh (h1.trans hdev.symm) (h2.trans hblock.symm)) hc
      · rw [update_of_ne h2]
    · rw [update_of_ne h1]
  refine ⟨hi.table, hi.idle, hi.count, hi.carved, hi.dirty, hi.clean, hi.inode, hi.refs, hi.locking,
    fun u c dev' block' k' hu => ?_, hi.reader, fun u c dev' block' k' after' hu => ?_, hi.last,
    fun c hvc j hj hun => ?_, fun c hvc j hj hun => ?_⟩
  · obtain ⟨h1, h2, h3, h4, h5, h6⟩ := hi.reading u c dev' block' k' hu
    have hc : c ≠ b := by
      rintro rfl
      rw [hv] at h3
      cases h3
    refine ⟨h1, h2, h3, h4, h5, fun j hj => ?_⟩
    have := hdisk c hc (hi.busy (List.ne_nil_of_mem h5)).1 j
    rw [h1, h2] at this
    exact (h6 j hj).trans this.symm
  · exact hi.writing u c dev' block' k' after' hu
  · dsimp only at hun hvc ⊢
    by_cases hc : c = b
    · subst hc
      rw [update_self] at hun
      rw [hdev, hblock, update_self, update_self]
      by_cases hjk : j = k
      · subst hjk
        rw [update_self]
      · rw [update_of_ne hjk] at hun ⊢
        rw [hi.sent c hvc j hj hun, hdev, hblock]
    · rw [update_of_ne hc] at hun
      rw [hdisk c hc (hi.carved c hvc) j]
      exact hi.sent c hvc j hj hun
  · dsimp only at hun hvc ⊢
    by_cases hc : c = b
    · subst hc
      rw [update_self] at hun
      have hjk : j ≠ k := by
        rintro rfl
        rw [update_self] at hun
        cases hun
      rw [update_of_ne hjk] at hun
      exact hi.unsent c hvc j hj hun
    · rw [update_of_ne hc] at hun
      exact hi.unsent c hvc j hj hun

end Contents

section Holders

/-- Someone on whom the state counts as a holder of the buffer. -/
def Required (s : State τ β ι δ) (b : β) : Holder τ ι → Prop
  | .inode i => (s.inode i).buf = some b
  | .task t => s.pc t = .locking b ∨ (∃ dev block k, s.pc t = .reading b dev block k) ∨
      ∃ dev block k after, s.pc t = .writing b dev block k after ∧
        (after = .ret none ∨ after = .brelse)

/-- Those who are required hold the buffer. -/
theorem Inv.required (hi : Inv s) (hr : Required s b h) : h ∈ s.holders b := by
  cases h with
  | inode i => exact hi.inode i b hr
  | task u =>
    rcases hr with hr | ⟨dev, block, k, hr⟩ | ⟨dev, block, k, after, hr, rfl | rfl⟩
    · exact hi.locking u b hr
    · exact (hi.reading u b dev block k hr).2.2.2.2.1
    · exact (hi.writing u b dev block k _ hr).2.2.2
    · exact (hi.writing u b dev block k _ hr).2.2.2

variable [DecidableEq β]

/-- Only who holds the buffer changes. -/
theorem Inv.holders (hi : Inv s) (bf : BufferT δ) (hs : List (Holder τ ι))
    (hbf : bf = { s.buffer b with count := bf.count, rnode := bf.rnode })
    (hcount : bf.count = hs.length) (hidle : bf.fresh = true ∨ bf.rnode = true → hs = [])
    (hclean : bf.rnode = true → bf.dirty = false)
    (hreq : ∀ h, Required s b h → h ∈ hs) :
    Inv { s.set b bf with holders := update s.holders b hs } := by
  obtain ⟨s', hs'⟩ : ∃ s' : State τ β ι δ, { s.set b bf with holders := update s.holders b hs } = s' :=
    ⟨_, rfl⟩
  have hself : s'.buffer b = bf := by
    rw [← hs']
    exact (buffer_set s b bf b).trans (if_pos rfl)
  have hother : ∀ {c}, c ≠ b → s'.buffer c = s.buffer c := fun hc => by
    rw [← hs']
    exact (buffer_set s b bf _).trans (if_neg hc)
  have hold : ∀ c, s'.holders c = if c = b then hs else s.holders c := fun c => by
    rw [← hs']
    exact Function.update_apply _ _ _ _
  have hsame : ∀ c, s'.buffer c =
      { s.buffer c with count := (s'.buffer c).count, rnode := (s'.buffer c).rnode } := by
    intro c
    by_cases hc : c = b
    · subst hc
      rw [hself]
      exact hbf
    · rw [hother hc]
  have hkey : ∀ c, (s'.buffer c).dev = (s.buffer c).dev ∧ (s'.buffer c).block = (s.buffer c).block ∧
      (s'.buffer c).fresh = (s.buffer c).fresh ∧ (s'.buffer c).valid = (s.buffer c).valid ∧
      (s'.buffer c).lock = (s.buffer c).lock ∧ (s'.buffer c).dirty = (s.buffer c).dirty ∧
      (s'.buffer c).data = (s.buffer c).data := by
    intro c
    rw [hsame c]
    exact ⟨rfl, rfl, rfl, rfl, rfl, rfl, rfl⟩
  have hmem : ∀ c h, Required s c h → h ∈ s.holders c → h ∈ s'.holders c := by
    intro c h hr hm
    rw [hold]
    split_ifs with hc
    · subst hc
      exact hreq h hr
    · exact hm
  have hpc : s'.pc = s.pc := by rw [← hs']; rfl
  have hin : s'.inode = s.inode := by rw [← hs']; rfl
  have hrefs : s'.refs = s.refs := by rw [← hs']; rfl
  have hdisk : s'.disk = s.disk := by rw [← hs']; rfl
  have hun : s'.unsent = s.unsent := by rw [← hs']; rfl
  rw [hs']
  refine ⟨fun dev block c => ?_, fun c hc => ?_, fun c => ?_, fun c hv => ?_, fun c hd => ?_,
    fun c hr => ?_, fun i c hc => ?_, fun i => ?_, fun t c ht => ?_, fun t c dev block k ht => ?_,
    fun t u c dev block k dev' block' k' ht hu => ?_, fun t c dev block k after ht => ?_,
    fun t u c c' dev block k dev' block' k' i ht hu => ?_, fun c hv k hk hu => ?_,
    fun c hv k hk hu => ?_⟩
  · obtain ⟨h1, h2, h3, -⟩ := hkey c
    rw [h1, h2, h3, ← hi.table, ← hs']
    rfl
  · rw [hold]
    split_ifs with hcb
    · subst hcb
      rw [hself] at hc
      exact hidle hc
    · rw [hother hcb] at hc
      exact hi.idle c hc
  · rw [hold]
    split_ifs with hcb
    · subst hcb
      rw [hself]
      exact hcount
    · rw [hother hcb]
      exact hi.count c
  · rw [(hkey c).2.2.1]
    exact hi.carved c ((hkey c).2.2.2.1 ▸ hv)
  · rw [(hkey c).2.2.2.1]
    exact hi.dirty c ((hkey c).2.2.2.2.2.1 ▸ hd)
  · by_cases hc : c = b
    · subst hc
      rw [hself] at hr ⊢
      exact hclean hr
    · rw [hother hc] at hr ⊢
      exact hi.clean c hr
  · rw [hin] at hc
    exact hmem c _ hc (hi.inode i c hc)
  · rw [hin, hrefs]
    exact hi.refs i
  · rw [hpc] at ht
    exact hmem c _ (Or.inl ht) (hi.locking t c ht)
  · rw [hpc] at ht
    obtain ⟨h1, h2, h3, h4, h5, h6⟩ := hi.reading t c dev block k ht
    obtain ⟨k1, k2, -, k4, k5, -, k7⟩ := hkey c
    rw [k1, k2, k4, k5, k7, hdisk]
    exact ⟨h1, h2, h3, h4, hmem c _ (Or.inr (Or.inl ⟨dev, block, k, ht⟩)) h5, h6⟩
  · exact hi.reader t u c dev block k dev' block' k' (hpc ▸ ht) (hpc ▸ hu)
  · rw [hpc] at ht
    obtain ⟨h1, h2, h3, h4⟩ := hi.writing t c dev block k after ht
    obtain ⟨k1, k2, -, k4, -⟩ := hkey c
    rw [k1, k2, k4]
    refine ⟨h1, h2, h3, ?_⟩
    cases after with
    | ret via =>
      cases via with
      | none =>
        exact hmem c _ (Or.inr (Or.inr ⟨dev, block, k, _, ht, Or.inl rfl⟩)) h4
      | some i =>
        unfold Backs at h4 ⊢
        rw [hrefs, hin]
        exact h4
    | brelse => exact hmem c _ (Or.inr (Or.inr ⟨dev, block, k, _, ht, Or.inr rfl⟩)) h4
    | iput i =>
      unfold Backs at h4 ⊢
      rw [hrefs, hin]
      exact h4
    | last i =>
      unfold Backs at h4 ⊢
      rw [hrefs, hin]
      exact h4
  · exact hi.last t u c c' dev block k dev' block' k' i (hpc ▸ ht) (hpc ▸ hu)
  · obtain ⟨k1, k2, -, k4, -, -, k7⟩ := hkey c
    rw [k1, k2, k7, hdisk]
    exact hi.sent c (k4 ▸ hv) k hk (hun ▸ hu)
  · obtain ⟨-, -, -, k4, -, k6, -⟩ := hkey c
    rw [k6]
    refine (hi.unsent c (k4 ▸ hv) k hk (hun ▸ hu)).imp_right fun ⟨t, ht⟩ => ⟨t, ?_⟩
    unfold Pending
    rw [hpc]
    exact ht

end Holders

section Inodes

/-- The inode for whose sake a task writes a buffer. -/
def After.inode : After ι → Option ι
  | .ret via => via
  | .brelse => none
  | .iput i => some i
  | .last i => some i

/-- A writer for an inode has a user of it or is the last one. -/
theorem Backs.of_inode (hb : Backs s t b after) (hn : after.inode = some i) :
    (s.inode i).buf = some b ∧ (t ∈ s.refs i ∨ after = .last i) := by
  cases after with
  | ret via =>
    cases hn
    exact ⟨hb.2, Or.inl hb.1⟩
  | brelse => cases hn
  | iput n =>
    cases hn
    exact ⟨hb.2, Or.inl hb.1⟩
  | last n =>
    cases hn
    exact ⟨hb.2, Or.inr rfl⟩

variable [DecidableEq ι]

/-- The other inodes' writers do not notice. -/
theorem Backs.setInode (hb : Backs s t b after) (hne : after.inode ≠ some i) (inode : InodeT β)
    (refs : List τ) : Backs (s.setInode i inode refs) t b after := by
  have hother : ∀ n, n ≠ i → (s.setInode i inode refs).inode n = s.inode n ∧
      (s.setInode i inode refs).refs n = s.refs n :=
    fun n hn => ⟨update_of_ne hn _ _, update_of_ne hn _ _⟩
  have hnamed : ∀ n, after.inode = some n → n ≠ i := by
    rintro n hn rfl
    exact hne hn
  cases after with
  | ret via =>
    cases via with
    | none => exact hb
    | some n =>
      obtain ⟨h1, h2⟩ := hother n (hnamed n rfl)
      exact ⟨h2 ▸ hb.1, h1 ▸ hb.2⟩
  | brelse => exact hb
  | iput n =>
    obtain ⟨h1, h2⟩ := hother n (hnamed n rfl)
    exact ⟨h2 ▸ hb.1, h1 ▸ hb.2⟩
  | last n =>
    obtain ⟨h1, h2⟩ := hother n (hnamed n rfl)
    exact ⟨h2 ▸ hb.1, h1 ▸ hb.2⟩

/-- The users of an inode change, those who write for its sake stay. -/
theorem Backs.setRefs (hb : Backs s t b after) {inode : InodeT β} {refs : List τ}
    (hbuf : inode.buf = (s.inode i).buf) (hrefs : t ∈ s.refs i → t ∈ refs)
    (hlast : after ≠ .last i) : Backs (s.setInode i inode refs) t b after := by
  by_cases hn : after.inode = some i
  · obtain ⟨hb', hm | hl⟩ := hb.of_inode hn
    · have hboth : t ∈ (s.setInode i inode refs).refs i ∧
          ((s.setInode i inode refs).inode i).buf = some b := by
        unfold State.setInode
        dsimp only
        rw [update_self, update_self]
        exact ⟨hrefs hm, hbuf.trans hb'⟩
      cases after with
      | ret via =>
        cases hn
        exact hboth
      | brelse => cases hn
      | iput n =>
        cases hn
        exact hboth
      | last n =>
        cases hn
        exact absurd rfl hlast
    · exact absurd hl hlast
  · exact hb.setInode hn inode refs

/-- An inode changes, and those who have it. -/
theorem Inv.setInode (hi : Inv s) {inode : InodeT β} {refs : List τ}
    (hcount : inode.count = refs.length)
    (hbuf : ∀ b, inode.buf = some b → .inode i ∈ s.holders b)
    (hback : ∀ t b dev block k after, s.pc t = .writing b dev block k after →
      Backs (s.setInode i inode refs) t b after) : Inv (s.setInode i inode refs) := by
  have hin : ∀ n, (s.setInode i inode refs).inode n = if n = i then inode else s.inode n :=
    fun n => Function.update_apply _ _ _ _
  have hrefs : ∀ n, (s.setInode i inode refs).refs n = if n = i then refs else s.refs n :=
    fun n => Function.update_apply _ _ _ _
  refine ⟨hi.table, hi.idle, hi.count, hi.carved, hi.dirty, hi.clean, fun n b hb => ?_, fun n => ?_,
    hi.locking,
    hi.reading, hi.reader, fun t b dev block k after ht => ?_, hi.last, hi.sent, hi.unsent⟩
  · rw [hin] at hb
    split_ifs at hb with hn
    · subst hn
      exact hbuf b hb
    · exact hi.inode n b hb
  · rw [hin, hrefs]
    split_ifs
    · exact hcount
    · exact hi.refs n
  · obtain ⟨h1, h2, h3, -⟩ := hi.writing t b dev block k after ht
    exact ⟨h1, h2, h3, hback t b dev block k after ht⟩

end Inodes

section Calls

variable [DecidableEq β]

theorem Inv.lockBuffer [DecidableEq τ] (hi : Inv s) (hp : ∀ c j, ¬ Pending s t c j)
    (hh : .task t ∈ s.holders b) : Inv (lockBuffer s t b) := by
  unfold Writeback.lockBuffer
  dsimp only
  have hdone : ∀ {s' : State τ β ι δ} {p : Pc β ι}, s'.pc = s.pc → ∀ c j, j < BLOCK_SECS →
      s'.unsent c j = true → Pending s' t c j → Pending (s'.goto t p) t c j := by
    intro s' p hpc c j _ _ h
    unfold Pending at h
    rw [hpc] at h
    exact absurd h (hp c j)
  split_ifs with hl hv
  · refine hi.goto (hdone rfl) (fun c hc => ?_) nofun nofun nofun nofun
    cases hc
    exact hh
  · exact hi.out fun c j _ => hp c j
  · have hnone : ∀ u dev block k, s.pc u ≠ .reading b dev block k := fun u dev block k hu =>
      hl (hi.reading u b dev block k hu).2.2.2.1
    have hset : Inv (s.set b { s.buffer b with lock := true }) :=
      hi.setBuffer _ rfl (fun _ _ _ _ _ => rfl) id (hi.unsent b)
    have hself : (s.set b { s.buffer b with lock := true }).buffer b =
        { s.buffer b with lock := true } := (buffer_set s b _ b).trans (if_pos rfl)
    refine hset.goto (hdone rfl) nofun (fun c dev block k hc => ?_)
      (fun c dev block k hc u dev' block' k' hu => ?_) nofun nofun
    · cases hc
      rw [hself]
      exact ⟨rfl, rfl, by simpa using hv, rfl, hh, fun j hj => absurd hj (Nat.not_lt_zero j)⟩
    · cases hc
      exact absurd hu (hnone u dev' block' k')

/-- `bread` finds the block. -/
theorem Inv.hit (hi : Inv s) (hf : (s.buffer b).fresh = false) :
    Inv ((s.set b { s.buffer b with rnode := false, count := (s.buffer b).count + 1 }).hold
      (.task t) b) := by
  refine hi.holders (b := b) _ (.task t :: s.holders b) rfl ?_ (fun h => ?_) nofun fun h hr => ?_
  · rw [hi.count, List.length_cons]
    push_cast
    rfl
  · rcases h with h | h
    · exact absurd h (by simp [hf])
    · cases h
  · exact List.mem_cons_of_mem _ (hi.required hr)

/-- `brelse` after its `bwrite`, by a holder whom nothing else requires. -/
theorem Inv.release [DecidableEq τ] [DecidableEq ι] (hi : Inv s) (hh : h ∈ s.holders b)
    (hclean : (s.buffer b).dirty = false) (hreq : ∀ h', Required s b h' → h' ≠ h)
    (hs : release s h b = .next s') : Inv s' := by
  obtain ⟨hfresh, hrnode⟩ := hi.busy (List.ne_nil_of_mem hh)
  have hlen := List.length_erase_of_mem hh
  have hpos := List.length_pos_of_mem hh
  have hcount := hi.count b
  have hmem : ∀ h', Required s b h' → h' ∈ (s.holders b).erase h := fun h' hr =>
    (List.mem_erase_of_ne (hreq h' hr)).mpr (hi.required hr)
  unfold Writeback.release at hs
  dsimp only at hs
  obtain ⟨-, hs⟩ := assert_eq_next.mp hs
  split_ifs at hs with hc
  · obtain rfl := next.inj hs
    refine hi.holders (b := b) _ ((s.holders b).erase h) rfl ?_ (fun h' => ?_) (fun _ => hclean) hmem
    · dsimp only
      rw [hcount, hlen]
      omega
    · dsimp only at h'
      rcases h' with h' | h' <;> simp_all
  · obtain ⟨-, hs⟩ := assert_eq_next.mp hs
    obtain rfl := next.inj hs
    have hnil : (s.holders b).erase h = [] := List.eq_nil_of_length_eq_zero (by omega)
    have := hi.holders (b := b) { s.buffer b with count := (s.buffer b).count - 1, rnode := true }
      ((s.holders b).erase h) rfl
      (by dsimp only; rw [hnil, List.length_nil]; omega) (fun _ => hnil) (fun _ => hclean) hmem
    unfold State.unhold State.set
    dsimp only
    rw [update_idem]
    exact this

/-- A free buffer takes on another block. -/
theorem Inv.carve (hi : Inv s) (free : β) (bf : BufferT δ) (tab : ℕ → ℕ → Option β)
    (hfree : s.holders free = [])
    (hnone : s.table dev block = none)
    (hbf : bf.dev = dev ∧ bf.block = block ∧ bf.count = 1 ∧ bf.rnode = false ∧ bf.valid = false ∧
      bf.fresh = false ∧ bf.dirty = false)
    (htab : ∀ d k, tab d k = if d = dev ∧ k = block then some free
      else if (s.buffer free).fresh = false ∧ d = (s.buffer free).dev ∧ k = (s.buffer free).block
        then none else s.table d k) :
    Inv ({ s.set free bf with table := tab }.hold (.task t) free) := by
  obtain ⟨hdev, hblock, hcount, hrnode, hvalid, hfresh, hdirty⟩ := hbf
  have hun := hi.untouched hfree
  obtain ⟨s', hs'⟩ : ∃ s', State.hold { s.set free bf with table := tab } (.task t) free = s' :=
    ⟨_, rfl⟩
  have hself : s'.buffer free = bf := by
    rw [← hs']
    exact (buffer_set s free bf free).trans (if_pos rfl)
  have hother : ∀ {c}, c ≠ free → s'.buffer c = s.buffer c := fun hc => by
    rw [← hs']
    exact (buffer_set s free bf _).trans (if_neg hc)
  have hhold : ∀ c, s'.holders c = if c = free then [.task t] else s.holders c := fun c => by
    rw [← hs', ← hfree]
    exact Function.update_apply _ _ _ _
  have hkey : ∀ c, c ≠ free → (s.buffer c).fresh = false →
      ¬ ((s.buffer c).dev = dev ∧ (s.buffer c).block = block) := by
    rintro c - hf ⟨h1, h2⟩
    have := (hi.table dev block c).mpr ⟨hf, h1, h2⟩
    rw [hnone] at this
    cases this
  have hpc : s'.pc = s.pc := by rw [← hs']; rfl
  rw [hs']
  refine ⟨fun d k c => ?_, fun c hc => ?_, fun c => ?_, fun c hv => ?_, fun c hd => ?_,
    fun c hr => ?_, fun i c hc => ?_, fun i => ?_, fun u c hu => ?_, fun u c d k n hu => ?_, fun u v c d k n d' k' n' hu hv => ?_,
    fun u c d k n after hu => ?_, fun u v c c' d k n d' k' n' i hu hv => ?_, fun c hv j hj hu => ?_,
    fun c hv j hj hu => ?_⟩
  · have ht : s'.table d k = tab d k := by rw [← hs']; rfl
    rw [ht, htab]
    by_cases hc : c = free
    · subst hc
      rw [hself, hfresh, hdev, hblock]
      split_ifs with h1 h2
      · simp [h1.1, h1.2]
      · constructor
        · exact fun h => by cases h
        · rintro ⟨-, rfl, rfl⟩
          exact absurd ⟨rfl, rfl⟩ h1
      · rw [hi.table]
        constructor
        · rintro ⟨h3, rfl, rfl⟩
          exact absurd ⟨h3, rfl, rfl⟩ h2
        · rintro ⟨-, rfl, rfl⟩
          exact absurd ⟨rfl, rfl⟩ h1
    · rw [hother hc]
      split_ifs with h1 h2
      · obtain ⟨rfl, rfl⟩ := h1
        constructor
        · intro h
          exact absurd (Option.some.inj h).symm hc
        · rintro ⟨hf, h2, h3⟩
          exact absurd ⟨h2, h3⟩ (hkey c hc hf)
      · obtain ⟨h2, rfl, rfl⟩ := h2
        constructor
        · exact fun h => by cases h
        · rintro ⟨hf, h3, h4⟩
          exact absurd (hi.eq_of_key hf h2 h3 h4) hc
      · exact hi.table d k c
  · rw [hhold]
    split_ifs with hcf
    · subst hcf
      rw [hself, hfresh, hrnode] at hc
      rcases hc with hc | hc <;> cases hc
    · rw [hother hcf] at hc
      exact hi.idle c hc
  · rw [hhold]
    split_ifs with hcf
    · subst hcf
      rw [hself, hcount]
      rfl
    · rw [hother hcf]
      exact hi.count c
  · by_cases hcf : c = free
    · subst hcf
      rw [hself]
      exact hfresh
    · rw [hother hcf] at hv ⊢
      exact hi.carved c hv
  · by_cases hcf : c = free
    · subst hcf
      rw [hself, hdirty] at hd
      cases hd
    · rw [hother hcf] at hd ⊢
      exact hi.dirty c hd
  · by_cases hcf : c = free
    · subst hcf
      rw [hself]
      exact hdirty
    · rw [hother hcf] at hr ⊢
      exact hi.clean c hr
  · have hin : s'.inode = s.inode := by rw [← hs']; rfl
    rw [hin] at hc
    have hm := hi.inode i c hc
    rw [hhold]
    split_ifs with hcf
    · subst hcf
      rw [hfree] at hm
      cases hm
    · exact hm
  · rw [← hs']
    exact hi.refs i
  · rw [hpc] at hu
    have hcf : c ≠ free := by
      rintro rfl
      exact hun.locking u hu
    rw [hhold, if_neg hcf]
    exact hi.locking u c hu
  · rw [hpc] at hu
    have hcf : c ≠ free := by
      rintro rfl
      exact hun.reading u d k n hu
    rw [hhold, if_neg hcf, hother hcf, ← hs']
    exact hi.reading u c d k n hu
  · exact hi.reader u v c d k n d' k' n' (hpc ▸ hu) (hpc ▸ hv)
  · rw [hpc] at hu
    have hcf : c ≠ free := by
      rintro rfl
      exact hun.writing u d k n after hu
    rw [hother hcf]
    obtain ⟨h1, h2, h3, h4⟩ := hi.writing u c d k n after hu
    refine ⟨h1, h2, h3, ?_⟩
    have hhc : s'.holders c = s.holders c := by rw [hhold, if_neg hcf]
    have hin : s'.inode = s.inode := by rw [← hs']; rfl
    have hrefs : s'.refs = s.refs := by rw [← hs']; rfl
    unfold Backs at h4 ⊢
    rw [hhc, hin, hrefs]
    exact h4
  · exact hi.last u v c c' d k n d' k' n' i (hpc ▸ hu) (hpc ▸ hv)
  · have hcf : c ≠ free := by
      rintro rfl
      rw [hself, hvalid] at hv
      cases hv
    rw [hother hcf] at hv ⊢
    rw [← hs'] at hu ⊢
    exact hi.sent c hv j hj hu
  · have hcf : c ≠ free := by
      rintro rfl
      rw [hself, hvalid] at hv
      cases hv
    rw [hother hcf] at hv ⊢
    rw [← hs'] at hu ⊢
    exact hi.unsent c hv j hj hu

end Calls

end Onix.Writeback
