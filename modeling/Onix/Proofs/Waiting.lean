import Onix.Sanity.BufferLinks
import Onix.Spec.Waiting

/-! `brelse` takes the task that waits longest out of `wait_list` twice, so that the second
`list_remove` stops the kernel: a release goes through where nobody waits, and no task that
waited ever runs again. Up to there each block has one buffer. -/

namespace Onix.Waiting

open Function Outcome
open Mutex (TaskState)
open Buffer (Linked carve evicted placed taken POOL)

variable {τ δ : Type}

section Pool

variable {p q : Buffer.State δ} {bf b dev block : ℕ}

/-- The blocks of buffers on the free list are held by nobody. -/
def Idle (p : Buffer.State δ) : Prop := ∀ b ∈ p.freeList, (p.buffers b).count = 0

/-- `get_free_buffer` gives a new buffer or the one longest on the free list. -/
theorem getFreeBuffer_cases (hl : Linked p none) (h : Buffer.getFreeBuffer p = .next (q, bf)) :
    (q = carve p ∧ bf = p.carved) ∨ (q = evicted p bf ∧ bf ∈ p.freeList) := by
  cases hn : Buffer.getNewBuffer p with
  | some r =>
    obtain ⟨t, a⟩ := r
    obtain ⟨rfl, rfl⟩ := Buffer.getNewBuffer_eq hn
    rw [Buffer.getFreeBuffer, hn] at h
    simp only [Outcome.next.injEq, Prod.mk.injEq] at h
    exact .inl ⟨h.1.symm, h.2.symm⟩
  | none =>
    cases hlast : p.freeList.getLast? with
    | none =>
      rw [Buffer.getFreeBuffer, hn] at h
      simp [hlast] at h
    | some a =>
      rw [Buffer.getFreeBuffer_evict hl hn hlast] at h
      simp only [Outcome.next.injEq, Prod.mk.injEq] at h
      obtain ⟨rfl, rfl⟩ := h
      exact .inr ⟨rfl, List.mem_of_getLast? hlast⟩

/-- The pool with a buffer in hand. -/
structure InHand (p q : Buffer.State δ) (bf : ℕ) : Prop where
  links : Linked q (some bf)
  idle : Idle q
  lt : bf < q.carved
  le : p.carved ≤ q.carved
  same : ∀ b, q.Live (some bf) b → b < p.carved ∧ q.buffers b = p.buffers b

theorem getFreeBuffer_inHand (hl : Linked p none) (hi : Idle p)
    (h : Buffer.getFreeBuffer p = .next (q, bf)) : InHand p q bf := by
  rcases getFreeBuffer_cases hl h with ⟨rfl, rfl⟩ | ⟨rfl, hmem⟩
  · refine ⟨Buffer.linked_carve hl, fun b hb => ?_, Nat.lt_succ_self _,
      Nat.le_succ _, fun b hb => ?_⟩
    · rw [Buffer.carve_same (hl.free b hb)]
      exact hi b hb
    · have hlive := Buffer.live_carve.mp hb
      exact ⟨hlive.1, Buffer.carve_same hlive⟩
  · refine ⟨Buffer.linked_evicted hl hmem, fun b hb => ?_, (hl.free bf hmem).1, le_rfl,
      fun b hb => ?_⟩
    · have hb' : b ∈ p.freeList.erase bf := hb
      have hne : b ≠ bf := by
        rintro rfl
        exact hl.free_nodup.not_mem_erase hb'
      rw [Buffer.evicted_same hne]
      exact hi b (List.mem_of_mem_erase hb')
    · obtain ⟨hlive, hne⟩ := Buffer.live_evicted.mp hb
      exact ⟨hlive.1, Buffer.evicted_same hne⟩

theorem set_set (p : Buffer.State δ) (bf : ℕ) (a b : Buffer.BufferT δ) :
    (p.set bf a).set bf b = p.set bf b := by
  unfold Buffer.State.set
  simp

theorem idle_placed (h : InHand p q bf) : Idle (placed q bf dev block) := by
  intro b hb
  have hne := Linked.ne_out (h.links.free b hb)
  have hsame : (placed q bf dev block).buffers b = q.buffers b := update_of_ne hne ..
  rw [hsame]
  exact h.idle b hb

theorem idle_taken (hl : Linked p none) (hi : Idle p) : Idle (taken p bf) := by
  intro b hb
  have hb' : b ∈ p.freeList.erase bf := hb
  have hne : b ≠ bf := by
    rintro rfl
    exact hl.free_nodup.not_mem_erase hb'
  have hsame : (taken p bf).buffers b = p.buffers b := update_of_ne hne ..
  rw [hsame]
  exact hi b (List.mem_of_mem_erase hb')

end Pool

section Wake

variable [DecidableEq τ] {s s' : State τ δ} {w : τ}

theorem listRemove_twice (s : State τ δ) (w : τ) :
    ((listRemove s w).andThen fun s => taskUnblock s w) = .failed := by
  unfold listRemove taskUnblock
  cases hw : s.linked w with
  | false => rfl
  | true =>
    simp only [Outcome.assert, if_true, next_andThen, listRemove, update_self]
    rfl

/-- The wake-up at the end of `brelse` fails wherever there is a task to wake. -/
theorem wakeOne_eq (s : State τ δ) : wakeOne s = if s.waitList = [] then .next s else .failed := by
  unfold wakeOne
  cases hw : s.waitList.getLast? with
  | none =>
    rw [if_pos (List.getLast?_eq_none_iff.mp hw)]
  | some w =>
    have hne : s.waitList ≠ [] := by
      intro hnil
      rw [hnil] at hw
      cases hw
    rw [if_neg hne]
    exact listRemove_twice s w

end Wake

section Invariant

variable {s s' s₀ : State τ δ} {t : τ} {bf dev block : ℕ}

structure Inv (s : State τ δ) : Prop where
  links : Linked s.pool none
  idle : Idle s.pool
  waiting : ∀ t dev block, s.pc t = .waiting dev block → s.state t = .blocked
  writing : ∀ t bf, s.pc t = .writing bf → bf < s.pool.carved
  running : ∀ t, s.cpu = some t → s.pc t = .out

theorem inv_init (h : Init s) : Inv s where
  links := by
    have dead : ∀ b, ¬ s.pool.Live none b := fun b hb => by
      have := hb.1
      rw [h.carved] at this
      exact Nat.not_lt_zero b this
    exact ⟨fun a _ ha => absurd ha (dead a), fun i b => by simp [h.hashTable, dead],
      fun i => by simp [h.hashTable], fun b hb => by simp [h.freeList] at hb,
      by simp [h.freeList], fun b => by simp [h.zero, dead], fun b => by simp [h.zero, h.freeList]⟩
  idle b hb := by simp [h.freeList] at hb
  waiting t dev block ht := by simp [h.pc] at ht
  writing t bf ht := by simp [h.pc] at ht
  running t _ := h.pc t

/-- A step that only changes the pool. -/
theorem Inv.pool (hi : Inv s) {p : Buffer.State δ} (hl : Linked p none) (hp : Idle p)
    (hle : s.pool.carved ≤ p.carved) : Inv { s with pool := p } :=
  ⟨hl, hp, hi.waiting, fun t bf ht => (hi.writing t bf ht).trans_le hle, hi.running⟩

/-- The flags and the contents of a buffer do not matter. -/
theorem Inv.set (hi : Inv s) {b : Buffer.BufferT δ}
    (hb : b.key = (s.pool.buffers bf).key ∧ b.count = (s.pool.buffers bf).count ∧
      b.hnode = (s.pool.buffers bf).hnode ∧ b.rnode = (s.pool.buffers bf).rnode) :
    Linked (s.pool.set bf b) none ∧ Idle (s.pool.set bf b) := by
  obtain ⟨hkey, hcount, hhnode, hrnode⟩ := hb
  have same : ∀ a, ((s.pool.set bf b).buffers a).key = (s.pool.buffers a).key ∧
      ((s.pool.set bf b).buffers a).count = (s.pool.buffers a).count ∧
      ((s.pool.set bf b).buffers a).hnode = (s.pool.buffers a).hnode ∧
      ((s.pool.set bf b).buffers a).rnode = (s.pool.buffers a).rnode := by
    intro a
    obtain rfl | ha := eq_or_ne a bf
    · simp [hkey, hcount, hhnode, hrnode]
    · simp [ha]
  refine ⟨hi.links.same rfl (fun a => (same a).1) (fun a => (same a).2.2.1) rfl
    (fun a ha => hi.links.free a ha) hi.links.free_nodup fun a => ?_, fun a ha => ?_⟩
  · rw [(same a).2.2.2]
    exact hi.links.rnode a
  · rw [(same a).2.1]
    exact hi.idle a ha

theorem Inv.unique (hi : Inv s) : Unique s := by
  intro i j a b ha hb hab
  apply hi.links.inj a b
  · exact ((hi.links.bucket i a).mp ha).1
  · exact ((hi.links.bucket j b).mp hb).1
  · exact hab

variable [DecidableEq τ]

/-- What `brelse` from `bf->count--` on leaves where it goes through. -/
theorem inv_release (hi : Inv s) (hlt : bf < s.pool.carved) (h : release s bf = .next s') :
    Inv s' := by
  unfold release at h
  obtain ⟨hnat, h⟩ := assert_eq_next.mp h
  have hne : bf ∉ s.pool.freeList := by
    intro hmem
    rw [hi.idle bf hmem] at hnat
    exact absurd hnat (by decide)
  have hbase : ∀ (n : ℤ) (r : Bool) (l : List ℕ), (∀ a, a ≠ bf → (a ∈ l ↔ a ∈ s.pool.freeList)) →
      l.Nodup → (r = true ↔ bf ∈ l) → (bf ∈ l → n = 0) →
      Inv { s with pool := { s.pool.set bf { s.pool.buffers bf with count := n, rnode := r } with
        freeList := l } } := by
    intro n r l hl hnodup hr hn
    refine hi.pool ?_ ?_ le_rfl
    · refine hi.links.same rfl (fun a => ?_) (fun a => ?_) rfl (fun a ha => ?_) hnodup fun a => ?_
      · obtain rfl | ha := eq_or_ne a bf
        · simp [Buffer.BufferT.key]
        · simp [ha]
      · obtain rfl | ha := eq_or_ne a bf
        · simp
        · simp [ha]
      · obtain rfl | hne := eq_or_ne a bf
        · exact ⟨hlt, by simp⟩
        · exact hi.links.free a ((hl a hne).mp ha)
      · obtain rfl | ha := eq_or_ne a bf
        · simpa using hr
        · simpa [ha, hl a ha] using hi.links.rnode a
    · intro a ha
      obtain rfl | hne := eq_or_ne a bf
      · simpa using hn ha
      · simpa [hne] using hi.idle a ((hl a hne).mp ha)
  dsimp only at h
  split_ifs at h with hc
  · obtain rfl := Outcome.next.inj h
    have hr := (hi.links.rnode bf).not.mpr hne
    have hsame := hbase (Buffer.int32 ((s.pool.buffers bf).count - 1)) (s.pool.buffers bf).rnode
      s.pool.freeList (fun _ _ => Iff.rfl) hi.links.free_nodup (hi.links.rnode bf)
      (fun hmem => absurd hmem hne)
    exact hsame
  · obtain ⟨-, h⟩ := assert_eq_next.mp h
    obtain ⟨-, h⟩ := assert_eq_next.mp h
    rw [wakeOne_eq] at h
    split_ifs at h
    obtain rfl := Outcome.next.inj h
    rw [set_set]
    refine hbase _ true (bf :: s.pool.freeList) (fun a ha => by simp [ha])
      (List.nodup_cons.mpr ⟨hne, hi.links.free_nodup⟩) (by simp) fun _ => ?_
    simpa using hc

/-- The running task leaves the processor in `getblk` or `brelse`. -/
theorem inv_parked (hi : Inv s) (p : Pc) (hp : ∀ bf, p = .writing bf → bf < s.pool.carved) :
    Inv ((s.goto t p).parked t) := by
  refine ⟨hi.links, hi.idle, fun u dev block hu => ?_, fun u bf hu => ?_, fun u hu => by cases hu⟩
  · obtain rfl | hne := eq_or_ne u t
    · simp [State.parked]
    rw [show ((s.goto t p).parked t).state u = s.state u from update_of_ne hne ..]
    apply hi.waiting u dev block
    simpa [State.parked, State.goto, hne] using hu
  · obtain rfl | hne := eq_or_ne u t
    · exact hp bf (by simpa [State.parked, State.goto] using hu)
    · apply hi.writing u bf
      simpa [State.parked, State.goto, hne] using hu

/-- `getblk` on a miss: the task waits, or the buffer it gets is the only one of its block. -/
theorem inv_getFree (hi : Inv s) (ht : s.cpu = some t)
    (hk : ∀ b < s.pool.carved, (s.pool.buffers b).key ≠ (dev, block))
    (h : getFree s t dev block = .next s') : Inv s' := by
  unfold getFree at h
  cases hg : Buffer.getFreeBuffer s.pool with
  | failed =>
    rw [hg] at h
    cases h
  | refused =>
    rw [hg] at h
    obtain ⟨-, h⟩ := assert_eq_next.mp h
    obtain ⟨-, h⟩ := assert_eq_next.mp h
    obtain rfl := Outcome.next.inj h
    have hp := inv_parked (t := t) hi (.waiting dev block) nofun
    exact ⟨hp.links, hp.idle, hp.waiting, hp.writing, hp.running⟩
  | next r =>
    obtain ⟨q, bf⟩ := r
    rw [hg] at h
    have hin := getFreeBuffer_inHand hi.links hi.idle hg
    obtain ⟨-, h⟩ := assert_eq_next.mp h
    obtain ⟨-, h⟩ := assert_eq_next.mp h
    obtain ⟨pool, hloc, h⟩ := andThen_eq_next.mp h
    obtain ⟨-, hloc⟩ := assert_eq_next.mp hloc
    obtain rfl := Outcome.next.inj hloc
    obtain rfl := Outcome.next.inj h
    have heq : ({ (q.set bf { q.buffers bf with count := 1, dev := dev, block := block }).set bf
        { (q.set bf { q.buffers bf with count := 1, dev := dev, block := block }).buffers bf with
          hnode := true } with
        hashTable := update q.hashTable (Buffer.hash dev block) (bf :: q.hashTable (Buffer.hash dev block)) } :
        Buffer.State δ) = placed q bf dev block := by
      simp [placed, Buffer.State.set]
    have hlink : Linked (placed q bf dev block) none :=
      Buffer.linked_placed hin.links hin.lt fun b hb => by
        rw [(hin.same b hb).2]
        exact hk b (hin.same b hb).1
    have hidle : Idle (placed q bf dev block) := idle_placed hin
    have hself : update s.pc t .out = s.pc := by rw [← hi.running t ht, update_eq_self]
    rw [← heq] at hlink hidle
    have hgo : ∀ p, ({ s with pool := p } : State τ δ).goto t .out = { s with pool := p } := by
      intro p
      unfold State.goto
      rw [hself]
    rw [hgo]
    refine hi.pool ?_ ?_ hin.le
    · simpa using hlink
    · simpa using hidle

theorem getblk_hit (hi : Inv s) (hlt : bf < s.pool.carved)
    (hkey : (s.pool.buffers bf).key = (dev, block)) :
    getblk s t dev block = .next { s with pool := taken s.pool bf } := by
  unfold getblk Buffer.getFromHashTable
  rw [(Buffer.find_eq hi.links).mpr ⟨hlt, hkey⟩]
  by_cases hf : bf ∈ s.pool.freeList
  · have hr := (hi.links.rnode bf).mpr hf
    simp [hf, Buffer.removeRnode, hr, Outcome.assert, taken, Buffer.State.set]
  · have hr : (s.pool.buffers bf).rnode = false := by
      simpa using (hi.links.rnode bf).not.mpr hf
    simp [hf, hr, taken, Buffer.State.set, List.erase_of_not_mem hf]

theorem getblk_miss (hi : Inv s) (hk : ∀ b < s.pool.carved, (s.pool.buffers b).key ≠ (dev, block)) :
    getblk s t dev block = getFree s t dev block := by
  unfold getblk Buffer.getFromHashTable
  rw [Buffer.find_none hi.links hk]
  rfl

theorem inv_getblk (hi : Inv s) (ht : s.cpu = some t) (h : getblk s t dev block = .next s') :
    Inv s' := by
  by_cases hk : ∃ bf < s.pool.carved, (s.pool.buffers bf).key = (dev, block)
  · obtain ⟨bf, hlt, hkey⟩ := hk
    rw [getblk_hit hi hlt hkey] at h
    obtain rfl := Outcome.next.inj h
    exact hi.pool (Buffer.linked_taken hi.links bf) (idle_taken hi.links hi.idle) le_rfl
  · have hmiss : ∀ b < s.pool.carved, (s.pool.buffers b).key ≠ (dev, block) :=
      fun b hb h => hk ⟨b, hb, h⟩
    rw [getblk_miss hi hmiss] at h
    exact inv_getFree hi ht hmiss h

/-- `schedule` switches to `t`, which goes on outside. -/
theorem inv_dispatch (hi : Inv s) (hr : s.state t = .ready) :
    Inv ({ s with state := update s.state t .running, cpu := some t }.goto t .out) := by
  refine ⟨hi.links, hi.idle, fun u dev block hu => ?_, fun u bf hu => ?_, fun u hu => ?_⟩
  · obtain rfl | hne := eq_or_ne u t
    · simp [State.goto] at hu
    · have hu' : s.pc u = .waiting dev block := by simpa [State.goto, hne] using hu
      simpa [State.goto, hne] using hi.waiting u dev block hu'
  · obtain rfl | hne := eq_or_ne u t
    · simp [State.goto] at hu
    · apply hi.writing u bf
      simpa [State.goto, hne] using hu
  · obtain rfl := Option.some.inj hu
    simp [State.goto]

theorem inv_step {a : Act τ δ} (hi : Inv s) (h : Step s a s') : Inv s' := by
  unfold Step exec at h
  cases a with
  | getblk dev block =>
    cases ht : s.cpu with
    | none => simp [ht] at h
    | some t =>
      rw [ht] at h
      exact inv_getblk hi ht h
  | modify bf d =>
    obtain ⟨-, h⟩ := guard_eq_next.mp h
    obtain rfl := Outcome.next.inj h
    have hset : Linked (s.pool.set bf { s.pool.buffers bf with data := d, dirty := true }) none ∧
        Idle (s.pool.set bf { s.pool.buffers bf with data := d, dirty := true }) :=
      hi.set ⟨rfl, rfl, rfl, rfl⟩
    exact hi.pool hset.1 hset.2 le_rfl
  | brelse bf =>
    cases ht : s.cpu with
    | none => simp [ht] at h
    | some t =>
      rw [ht] at h
      obtain ⟨hg, h⟩ := guard_eq_next.mp h
      have hlt : bf < s.pool.carved := by simpa using hg
      unfold brelse at h
      split_ifs at h
      · obtain rfl := Outcome.next.inj h
        exact inv_parked hi (.writing bf) fun b hb => (Pc.writing.inj hb) ▸ hlt
      · exact inv_release hi hlt h
  | preempt =>
    cases ht : s.cpu with
    | none => simp [ht] at h
    | some t =>
      rw [ht] at h
      obtain rfl := Outcome.next.inj h
      refine ⟨hi.links, hi.idle, fun u dev block hu => ?_, hi.writing, fun u hu => by cases hu⟩
      obtain rfl | hne := eq_or_ne u t
      · rw [show s.pc u = _ from hi.running u ht] at hu
        cases hu
      · simpa [hne] using hi.waiting u dev block hu
  | written t =>
    cases hp : s.pc t with
    | out => simp [hp] at h
    | waiting => simp [hp] at h
    | writing bf =>
      simp only [hp] at h
      obtain ⟨-, h⟩ := guard_eq_next.mp h
      obtain rfl := Outcome.next.inj h
      refine ⟨hi.links.same rfl (fun _ => rfl) (fun _ => rfl) rfl (fun b hb => hi.links.free b hb)
        hi.links.free_nodup hi.links.rnode, hi.idle, fun u dev block hu => ?_, hi.writing,
        hi.running⟩
      obtain rfl | hne := eq_or_ne u t
      · rw [show s.pc u = _ from hp] at hu
        cases hu
      · simpa [hne] using hi.waiting u dev block hu
  | dispatch t =>
    obtain ⟨hg, h⟩ := guard_eq_next.mp h
    obtain ⟨-, hr⟩ : s.cpu = none ∧ s.state t = .ready := by simpa using hg
    have hgo := inv_dispatch hi hr
    dsimp only at h
    cases hp : s.pc t with
    | out =>
      rw [hp] at h
      obtain rfl := Outcome.next.inj h
      have hself : update s.pc t .out = s.pc := by rw [← hp, update_eq_self]
      unfold State.goto at hgo
      rw [hself] at hgo
      exact hgo
    | waiting dev block =>
      rw [hi.waiting t dev block hp] at hr
      cases hr
    | writing bf =>
      rw [hp] at h
      have hset : Linked (s.pool.set bf { s.pool.buffers bf with dirty := false, valid := true }) none ∧
          Idle (s.pool.set bf { s.pool.buffers bf with dirty := false, valid := true }) :=
        hgo.set ⟨rfl, rfl, rfl, rfl⟩
      exact inv_release (hgo.pool hset.1 hset.2 le_rfl) (hi.writing t bf hp) h

theorem inv_run {as : List (Act τ δ)} (h₀ : Init s₀) (h : Run Step s₀ as s) : Inv s :=
  h.invariant (fun _ _ _ hi hs => inv_step hi hs) (inv_init h₀)

end Invariant

section Release

variable {s s₀ : State τ δ} {bf : ℕ} {as : List (Act τ δ)}

/-- The action goes through, and makes the task that waits longest in `wait_list` ready. -/
def Hands (s : State τ δ) (o : Outcome (State τ δ)) : Prop :=
  ∃ s', o = .next s' ∧ ∀ w, s.waitList.getLast? = some w → s'.state w = .ready

theorem hands_iff {o : Outcome (State τ δ)} (h : (∃ s', o = .next s') ↔ s.waitList = []) :
    Hands s o ↔ s.waitList = [] := by
  constructor
  · rintro ⟨s', hs', -⟩
    exact h.mp ⟨s', hs'⟩
  · intro hnil
    obtain ⟨s', hs'⟩ := h.mpr hnil
    refine ⟨s', hs', fun w hw => ?_⟩
    rw [hnil] at hw
    cases hw

variable [DecidableEq τ]

/-- Letting go of the last hold on a buffer: fine where nobody waits, and only there. -/
theorem release_last (hi : Inv s) (hc : (s.pool.buffers bf).count = 1) :
    (∃ s', release s bf = .next s') ↔ s.waitList = [] := by
  have hnot : bf ∉ s.pool.freeList := by
    intro hmem
    rw [hi.idle bf hmem] at hc
    cases hc
  have hr : (s.pool.buffers bf).rnode = false := by
    simpa using (hi.links.rnode bf).not.mpr hnot
  have hzero : Buffer.int32 ((s.pool.buffers bf).count - 1) = 0 := by
    rw [hc]
    rfl
  unfold release
  simp only [hzero, hr, Outcome.assert, wakeOne_eq]
  by_cases hw : s.waitList = [] <;> simp [hnot, hw]

theorem exec_getblk {t : τ} {dev block : ℕ} (ht : s.cpu = some t) :
    exec s (.getblk dev block) = getblk s t dev block := by
  unfold exec
  rw [ht]

theorem exec_brelse {t : τ} (ht : s.cpu = some t) (hlt : bf < s.pool.carved)
    (hd : (s.pool.buffers bf).dirty = false) : exec s (.brelse bf) = release s bf := by
  unfold exec brelse
  rw [ht]
  simp [hlt, hd, Outcome.guard]

/-- In every run of `getblk` and `brelse` by any number of tasks each block has at most one
buffer in the hash table, and a release that lets go of the last hold on a buffer goes
through, with the longest-waiting task made ready, if and only if no task waits. -/
theorem brelse_wakes (h₀ : Init s₀) (h : Run Step s₀ as s) :
    Unique s ∧
    (∀ t bf, s.cpu = some t → bf < s.pool.carved → (s.pool.buffers bf).count = 1 →
      (s.pool.buffers bf).dirty = false → (Hands s (exec s (.brelse bf)) ↔ s.waitList = [])) ∧
    (∀ t bf, s.cpu = none → s.state t = .ready → s.pc t = .writing bf →
      (s.pool.buffers bf).count = 1 → (Hands s (exec s (.dispatch t)) ↔ s.waitList = [])) := by
  have hi := inv_run h₀ h
  refine ⟨hi.unique, ?_, ?_⟩
  · intro t bf ht hlt hc hd
    rw [exec_brelse ht hlt hd]
    exact hands_iff (release_last hi hc)
  · intro t bf ht hr hp hc
    have hgo := inv_dispatch hi hr
    have hset : Linked (s.pool.set bf { s.pool.buffers bf with dirty := false, valid := true }) none ∧
        Idle (s.pool.set bf { s.pool.buffers bf with dirty := false, valid := true }) :=
      hgo.set ⟨rfl, rfl, rfl, rfl⟩
    have hcount : ((s.pool.set bf { s.pool.buffers bf with dirty := false, valid := true }).buffers bf).count =
        1 := by simpa using hc
    have hlast := release_last (hgo.pool hset.1 hset.2 le_rfl) hcount
    have hexec : exec s (.dispatch t) =
        afterWrite ({ s with state := update s.state t .running, cpu := some t }.goto t .out) bf := by
      unfold exec
      simp [ht, hr, hp, Outcome.guard]
    rw [hexec]
    exact hands_iff hlast

end Release

section Exhausted

/-- The tasks and the buffers as they are after `buffer_init`. -/
def start : State (Fin 2) Unit where
  pool := {
    buffers _ := { data := (), dev := 0, block := 0, count := 0, hnode := false, rnode := false,
                   dirty := false, valid := false }
    carved := 0
    freeList := []
    hashTable _ := []
    disk _ := () }
  waitList := []
  cpu := none
  state _ := .ready
  linked _ := false
  pc _ := .out

theorem init_start : Init start := by
  constructor <;> simp [start]

theorem brelse_wakes_one : ∃ s, Run Step start [.dispatch 0, .getblk 1 7] s ∧
    Hands s (exec s (.brelse 0)) := by
  obtain ⟨s, hs, hp⟩ := run_of_play (fun _ _ => True) exec start [.dispatch 0, .getblk 1 7]
    (fun s => s.cpu == some 0 && s.pool.carved == 1 && (s.pool.buffers 0).count == 1 &&
      !(s.pool.buffers 0).dirty && s.waitList == []) (by decide)
  simp only [Bool.and_eq_true, beq_iff_eq, Bool.not_eq_true'] at hp
  obtain ⟨⟨⟨⟨hcpu, hcarved⟩, hcount⟩, hdirty⟩, hwait⟩ := hp
  have hrun := hs.of_guarded
  refine ⟨s, hrun, ?_⟩
  exact ((brelse_wakes init_start hrun).2.1 0 0 hcpu (by omega) hcount hdirty).mpr hwait

/-- Task 0 holds the buffers of the first `n` blocks, and there are no others. -/
structure Full (n : ℕ) (s : State (Fin 2) Unit) : Prop where
  inv : Inv s
  cpu : s.cpu = some 0
  other : s.state 1 = .ready ∧ s.pc 1 = .out ∧ s.linked 1 = false
  waitList : s.waitList = []
  carved : s.pool.carved = n
  freeList : s.pool.freeList = []
  buffers : ∀ b < n, (s.pool.buffers b).key = (0, b) ∧ (s.pool.buffers b).count = 1 ∧
    (s.pool.buffers b).dirty = false

variable {n : ℕ} {s : State (Fin 2) Unit}

theorem full_zero : ∃ as s, Run Step start as s ∧ Full 0 s := by
  have hstep : Step start (.dispatch 0)
      { start with state := update start.state 0 .running, cpu := some 0 } := rfl
  refine ⟨_, _, Run.single hstep, inv_step (inv_init init_start) hstep, rfl, ⟨rfl, rfl, rfl⟩, rfl,
    rfl, rfl, fun b hb => absurd hb (Nat.not_lt_zero b)⟩

/-- The next block is not there: `getblk` looks for a free buffer. -/
theorem Full.miss (h : Full n s) (t : Fin 2) : getblk s t 0 n = getFree s t 0 n := by
  apply getblk_miss h.inv
  intro b hb hkey
  rw [h.carved] at hb
  rw [(h.buffers b hb).1] at hkey
  exact absurd (Prod.mk.inj hkey).2 (by omega)

theorem full_succ (h : Full n s) (hn : n < POOL) : ∃ s', Step s (.getblk 0 n) s' ∧ Full (n + 1) s' := by
  have hnew : Buffer.getNewBuffer s.pool = some (carve s.pool, n) := by
    unfold Buffer.getNewBuffer
    dsimp only
    rw [h.carved, if_pos ((Buffer.carve_iff n).mpr hn), carve, h.carved]
  have hfree : Buffer.getFreeBuffer s.pool = .next (carve s.pool, n) := by
    rw [Buffer.getFreeBuffer, hnew]
  have hlink := (getFreeBuffer_inHand h.inv.links h.inv.idle hfree).links
  have hnot : n ∉ (carve s.pool).hashTable (Buffer.hash 0 n) := fun hmem =>
    ((hlink.bucket _ _).mp hmem).1.2 rfl
  have hstep : Step s (.getblk 0 n) ({ s with pool := placed (carve s.pool) n 0 n }.goto 0 .out) := by
    unfold Step
    rw [exec_getblk h.cpu, h.miss]
    unfold getFree
    rw [hfree]
    have hself : (carve s.pool).buffers n =
        { s.pool.buffers n with dev := Buffer.NODEV, block := 0, count := 0, dirty := false, valid := false } := by
      simp [carve, h.carved]
    simp [hself, Outcome.assert, Buffer.hashLocate, hnot, placed, Buffer.State.set]
  refine ⟨_, hstep, inv_step h.inv hstep, h.cpu, ⟨h.other.1, ?_, h.other.2.2⟩, h.waitList, ?_,
    h.freeList, fun b hb => ?_⟩
  · simpa [State.goto] using h.other.2.1
  · simp [State.goto, placed, carve, h.carved]
  · obtain rfl | hne := eq_or_ne b n
    · simp [State.goto, placed, carve, h.carved, Buffer.BufferT.key]
    · have hsame : ((({ s with pool := placed (carve s.pool) n 0 n } : State (Fin 2) Unit).goto 0
          .out).pool.buffers b) = s.pool.buffers b := by
        simp [State.goto, placed, carve, h.carved, hne]
      rw [hsame]
      exact h.buffers b (by omega)

theorem full_all (n : ℕ) (hn : n ≤ POOL) : ∃ as s, Run Step start as s ∧ Full n s := by
  induction n with
  | zero => exact full_zero
  | succ n ih =>
    obtain ⟨as, s, hs, hf⟩ := ih (by omega)
    obtain ⟨s', hstep, hf'⟩ := full_succ hf (by omega)
    exact ⟨_, s', hs.snoc hstep, hf'⟩

/-- Task 0 holds every buffer, task 1 waits for one, and task 0 lets go of one. -/
theorem brelse_stops : ¬ ∀ (as : List (Act (Fin 2) Unit)) (s : State (Fin 2) Unit),
    Run Step start as s → ∀ t bf, s.cpu = some t → bf < s.pool.carved →
      (s.pool.buffers bf).count = 1 → (s.pool.buffers bf).dirty = false →
      Hands s (exec s (.brelse bf)) := by
  intro hall
  obtain ⟨as, s, hs, h⟩ := full_all POOL le_rfl
  obtain ⟨hready, hout, hlink⟩ := h.other
  let s₁ : State (Fin 2) Unit := { s with state := update s.state 0 .ready, cpu := none }
  let s₂ : State (Fin 2) Unit := { s₁ with state := update s₁.state 1 .running, cpu := some 1 }
  let s₃ : State (Fin 2) Unit := { s₂.goto 1 (.waiting 0 POOL) with waitList := [1] }.parked 1
  let s₄ : State (Fin 2) Unit := { s₃ with state := update s₃.state 0 .running, cpu := some 0 }
  have hrun₁ : Step s .preempt s₁ := by
    unfold Step exec
    rw [h.cpu]
  have hrun₂ : Step s₁ (.dispatch 1) s₂ := by
    simp [Step, exec, Outcome.guard, s₁, s₂, hready, hout]
  have hnone : Buffer.getNewBuffer s.pool = none := by
    unfold Buffer.getNewBuffer
    dsimp only
    rw [h.carved, if_neg (by rw [Buffer.carve_iff]; exact Nat.lt_irrefl _)]
  have hrefused : Buffer.getFreeBuffer s.pool = .refused := by
    rw [Buffer.getFreeBuffer, hnone, h.freeList]
    rfl
  have hmiss : getblk s₂ 1 0 POOL = getFree s₂ 1 0 POOL := by
    apply getblk_miss (inv_step (inv_step h.inv hrun₁) hrun₂)
    intro b hb hkey
    have hb : b < POOL := by rw [← h.carved]; exact hb
    rw [show s₂.pool = s.pool from rfl, (h.buffers b hb).1] at hkey
    exact absurd (Prod.mk.inj hkey).2 (by omega)
  have hrun₃ : Step s₂ (.getblk 0 POOL) s₃ := by
    unfold Step
    rw [exec_getblk (t := 1) rfl, hmiss]
    unfold getFree
    rw [show s₂.pool = s.pool from rfl, hrefused]
    simp [taskBlock, Outcome.assert, State.goto, s₃, s₂, s₁, hlink, h.waitList]
  have hrun₄ : Step s₃ (.dispatch 0) s₄ := by
    have hpc : s.pc 0 = .out := h.inv.running 0 h.cpu
    simp [Step, exec, Outcome.guard, s₃, s₄, s₂, s₁, State.parked, State.goto, hpc]
  have hrun := (((hs.snoc hrun₁).snoc hrun₂).snoc hrun₃).snoc hrun₄
  have hlt : 0 < POOL := by decide
  obtain ⟨-, hcount, hdirty⟩ := h.buffers 0 hlt
  have hlt' : 0 < s₄.pool.carved := by
    rw [show s₄.pool = s.pool from rfl, h.carved]
    exact hlt
  have hgo := hall _ s₄ hrun 0 0 rfl hlt' hcount hdirty
  have hi := inv_run init_start hrun
  rw [exec_brelse (t := 0) rfl hlt' hdirty] at hgo
  exact absurd ((hands_iff (release_last hi hcount)).mp hgo) (List.cons_ne_nil 1 [])

end Exhausted

end Onix.Waiting
