import Onix.Sanity.BufferInv

/-! The buffer cache refines a flat array of disk blocks: what `bread` shows is
what was last put there, over hits, carvings and evictions. -/

namespace Onix.Buffer

open Function Outcome

variable {δ : Type} {s s' : State δ} {c : Cache Key δ} {bf b i dev block : ℕ} {y y₀ : Sys δ}
  {as : List (Act δ)} {d : δ}

/-- How many buffers are held. -/
def Sys.heldCount (y : Sys δ) : ℕ := ((List.range y.s.carved).filter fun bf => y.Held bf).length

/-- Before a `bread` fewer buffers are held than the pool has, and the `int`
count of the block's buffer can take one more. -/
def Within (y : Sys δ) : Act δ → Prop
  | .bread dev block => y.heldCount < POOL ∧ y.c.count (dev, block) + 1 < 2 ^ 31
  | _ => True

theorem count_eq_zero_iff (hi : Inv s c none) (hlt : b < s.carved) :
    (s.buffers b).count = 0 ↔ c.count (s.buffers b).key = 0 := by
  rw [hi.count b ⟨hlt, by simp⟩]
  omega

/-- Where not all buffers are held, `get_free_buffer` does not wait. -/
theorem getFreeBuffer_spec (hi : Inv y.s y.c none) (hh : y.heldCount < POOL) :
    ∃ t bf, getFreeBuffer y.s = .next (t, bf) ∧ Inv t y.c (some bf) ∧
      ∀ b, t.Live (some bf) b → b < y.s.carved ∧ t.buffers b = y.s.buffers b := by
  cases hn : getNewBuffer y.s with
  | some r =>
    obtain ⟨t, bf⟩ := r
    obtain ⟨rfl, rfl⟩ := getNewBuffer_eq hn
    refine ⟨carve y.s, y.s.carved, by rw [getFreeBuffer, hn], inv_carve hi, fun b hb => ?_⟩
    have hne : b ≠ y.s.carved := fun h => hb.2 (by rw [h])
    have hlt : b < y.s.carved + 1 := hb.1
    exact ⟨by omega, by simp [carve, hne]⟩
  | none =>
    have hpool : POOL ≤ y.s.carved := by
      unfold getNewBuffer at hn
      dsimp only at hn
      split_ifs at hn with hc
      exact Nat.not_lt.mp ((carve_iff _).not.mp hc)
    obtain ⟨b, hlt, hb⟩ : ∃ b < y.s.carved, ¬ y.Held b := by
      by_contra hall
      have hfull : (List.range y.s.carved).filter (fun b => y.Held b) =
          List.range y.s.carved := by
        refine List.filter_eq_self.mpr fun b hb => ?_
        by_contra h
        exact hall ⟨b, List.mem_range.mp hb, by simpa using h⟩
      rw [Sys.heldCount, hfull, List.length_range] at hh
      omega
    have hzero : (y.s.buffers b).count = 0 := by
      refine (count_eq_zero_iff hi hlt).mpr ?_
      by_contra h
      exact hb ⟨hlt, Nat.pos_of_ne_zero h⟩
    have hmem : b ∈ y.s.freeList := (hi.free b).mpr ⟨⟨hlt, by simp⟩, hzero⟩
    obtain ⟨bf, hl⟩ := List.getLast?_isSome.mpr (List.ne_nil_of_mem hmem) |> Option.isSome_iff_exists.mp
    refine ⟨evicted y.s bf, bf, getFreeBuffer_evict hi.linked hn hl,
      inv_evicted hi (List.mem_of_getLast? hl), fun b hb => ?_⟩
    have hne : b ≠ bf := fun h => hb.2 (by rw [h])
    exact ⟨hb.1, by simp [evicted, hne]⟩

/-- `bread` takes hold of the one buffer of its block and shows its data. -/
theorem bread_spec (hi : Inv y.s y.c none) (hw : Within y (.bread dev block)) :
    ∃ s' bf, bread y.s dev block = .next (s', bf) ∧ Inv s' (y.c.hold (dev, block)) none ∧
      bf < s'.carved ∧ (s'.buffers bf).key = (dev, block) := by
  obtain ⟨hh, hcount⟩ := hw
  by_cases hk : ∃ bf < y.s.carved, (y.s.buffers bf).key = (dev, block)
  · obtain ⟨bf, hlt, hkey⟩ := hk
    have hlive : y.s.Live none bf := ⟨hlt, by simp⟩
    have hnat := hi.count bf hlive
    rw [hkey] at hnat
    have hint : int32 ((y.s.buffers bf).count + 1) = (y.s.buffers bf).count + 1 :=
      int32_eq (by omega) (by omega)
    refine ⟨taken y.s bf, bf, bread_hit hi hlt hkey, ?_, hlt, by simpa [taken, BufferT.key] using hkey⟩
    refine hi.change { y.s.buffers bf with
      count := int32 ((y.s.buffers bf).count + 1), rnode := false } hlt rfl rfl rfl ⟨rfl, rfl⟩
      ⟨(hi.hnode bf).mpr hlive, hi.valid bf hlive⟩ (fun a ha => ?_) (hi.free_nodup.erase bf) ?_ ?_
      ?_ ?_ ?_ (fun κ hκ => ?_) ?_ ?_ (hi.synced _) hi.disk
    · simp [taken, List.mem_erase_of_ne ha]
    · have := hi.free_nodup.not_mem_erase (a := bf)
      simp only [taken, this, false_iff, hint]
      omega
    · have := hi.free_nodup.not_mem_erase (a := bf)
      simp [taken, this]
    · simp only [hint, hkey, Cache.hold, update_self]
      omega
    · exact hi.data bf hlive
    · exact hi.dirty bf hlive
    · rw [hkey] at hκ
      simp [Cache.hold, hκ]
    · simpa [hkey, Cache.hold] using hcount
    · simp [hkey, Cache.hold]
  · obtain ⟨t, bf, hg, ht, hsame⟩ := getFreeBuffer_spec hi hh
    have hmiss : ∀ b < y.s.carved, (y.s.buffers b).key ≠ (dev, block) :=
      fun b hb h => hk ⟨b, hb, h⟩
    refine ⟨settled t bf dev block, bf, bread_miss hi hmiss hg ht, inv_settled ht fun b hb => ?_,
      (ht.out bf rfl).1, by simp [settled, BufferT.key]⟩
    obtain ⟨hlt, he⟩ := hsame b hb
    rw [he]
    exact hmiss b hlt

theorem inv_modify (hi : Inv y.s y.c none) (hh : y.Held bf) :
    Inv (y.s.set bf { y.s.buffers bf with data := d, dirty := true })
      ((y.c.put (y.s.buffers bf).key d).mark (y.s.buffers bf).key) none := by
  obtain ⟨hlt, hpos⟩ := hh
  have hlive : y.s.Live none bf := ⟨hlt, by simp⟩
  refine hi.change _ hlt rfl rfl rfl ⟨rfl, rfl⟩ ⟨(hi.hnode bf).mpr hlive, hi.valid bf hlive⟩
    (fun a ha => Iff.rfl) hi.free_nodup ?_ (hi.rnode bf) (hi.count bf hlive) ?_ ?_
    (fun κ hκ => ?_) (hi.count_lt _) (fun h => ?_) (fun h => ?_) hi.disk
  · exact (hi.free bf).trans ⟨And.right, fun h => ⟨hlive, h⟩⟩
  · simp [Cache.mark, Cache.put]
  · simp [Cache.mark, Cache.put]
  · simp [Cache.mark, Cache.put, hκ]
  · simp only [Cache.mark, Cache.put] at h
    omega
  · simp [Cache.mark] at h

theorem inv_bwrite (hi : Inv s c none) (hlt : bf < s.carved) :
    Inv (bwrite s bf) (c.clean (s.buffers bf).key) none := by
  have hlive : s.Live none bf := ⟨hlt, by simp⟩
  have hdirty := hi.dirty bf hlive
  unfold bwrite
  dsimp only
  split_ifs with hd
  · rw [Cache.clean, ← hdirty, hd]
    exact hi
  · have hd : (s.buffers bf).dirty = true := by simpa using hd
    rw [Cache.clean, ← hdirty, if_pos hd]
    refine hi.change { s.buffers bf with dirty := false, valid := true } hlt rfl rfl rfl
      ⟨rfl, rfl⟩ ⟨(hi.hnode bf).mpr hlive, rfl⟩ (fun a ha => Iff.rfl) hi.free_nodup ?_
      (hi.rnode bf) (hi.count bf hlive) (hi.data bf hlive) ?_ (fun κ hκ => ?_) (hi.count_lt _)
      (fun h => ?_) (fun h => ?_) ?_
    · exact (hi.free bf).trans ⟨And.right, fun h => ⟨hlive, h⟩⟩
    · simp
    · simp [hκ]
    · simp
    · simp
    · simp [hi.disk, hi.data bf hlive]

theorem bwrite_same (s : State δ) (bf : ℕ) :
    (bwrite s bf).carved = s.carved ∧ ((bwrite s bf).buffers bf).key = (s.buffers bf).key := by
  unfold bwrite
  dsimp only
  split_ifs
  · exact ⟨rfl, rfl⟩
  · exact ⟨rfl, by simp [BufferT.key]⟩

/-- `brelse` of a held buffer passes its assertions. -/
theorem brelse_spec (hi : Inv y.s y.c none) (hh : y.Held bf) :
    ∃ s' c', brelse y.s bf = .next s' ∧ y.c.drop (y.s.buffers bf).key = some c' ∧
      Inv s' c' none := by
  obtain ⟨hlt, hpos⟩ := hh
  obtain ⟨hcarved, hkey⟩ := bwrite_same y.s bf
  have hi₁ := inv_bwrite hi hlt
  have hwrite : (if (y.s.buffers bf).dirty then bwrite y.s bf else y.s) = bwrite y.s bf := by
    by_cases hd : (y.s.buffers bf).dirty = true
    · rw [if_pos hd]
    · rw [if_neg hd, bwrite]
      simp [hd]
  have hdrop : y.c.drop (y.s.buffers bf).key = some { y.c.clean (y.s.buffers bf).key with
      count := update y.c.count (y.s.buffers bf).key (y.c.count (y.s.buffers bf).key - 1) } := by
    simp [Cache.drop, Nat.ne_of_gt hpos]
  have hidle := (Cache.clean_synced y.c (y.s.buffers bf).key (hi.synced _)).1
  unfold brelse
  rw [hwrite, hdrop]
  generalize bwrite y.s bf = t at *
  have hlt : bf < t.carved := by rwa [hcarved]
  have hlive : t.Live none bf := ⟨hlt, by simp⟩
  have hcount := hi₁.count bf hlive
  rw [hkey, Cache.clean_count] at hcount
  have hbound := hi.count_lt (y.s.buffers bf).key
  have hint : int32 ((t.buffers bf).count - 1) = (t.buffers bf).count - 1 :=
    int32_eq (by omega) (by omega)
  have hnot : bf ∉ t.freeList := fun h => by
    have := ((hi₁.free bf).mp h).2
    omega
  have hrnode : (t.buffers bf).rnode = false := by simpa using (hi₁.rnode bf).not.mpr hnot
  simp only [set_buffers, update_self, hint, set_freeList]
  rw [assert, if_pos (by simp; omega)]
  by_cases h0 : (t.buffers bf).count - 1 = 0
  · rw [if_neg (by simpa using h0), hrnode]
    simp only [Bool.not_false, assert, if_true, List.contains_eq_mem, hnot, decide_false]
    refine ⟨_, _, rfl, rfl, hi₁.change { t.buffers bf with
      count := (t.buffers bf).count - 1, rnode := true } hlt ?_ rfl rfl ⟨rfl, rfl⟩
      ⟨(hi₁.hnode bf).mpr hlive, hi₁.valid bf hlive⟩ (fun a ha => ?_) ?_ ?_ ?_ ?_ ?_ ?_
      (fun κ hκ => ?_) ?_ (fun _ => ?_) (hi₁.synced _) hi₁.disk⟩
    · simp
    · simp [ha]
    · exact List.nodup_cons.mpr ⟨hnot, hi₁.free_nodup⟩
    · simp [h0]
    · simp
    · simp only [hkey, update_self]
      omega
    · exact hi₁.data bf hlive
    · exact hi₁.dirty bf hlive
    · rw [hkey] at hκ
      simp [hκ]
    · simp only [hkey, update_self]
      omega
    · rw [hkey]
      exact hidle
  · rw [if_pos (by simpa using h0)]
    refine ⟨_, _, rfl, rfl, hi₁.change { t.buffers bf with
      count := (t.buffers bf).count - 1 } hlt rfl rfl rfl ⟨rfl, rfl⟩
      ⟨(hi₁.hnode bf).mpr hlive, hi₁.valid bf hlive⟩ (fun a ha => Iff.rfl) hi₁.free_nodup ?_
      (hi₁.rnode bf) ?_ ?_ ?_ (fun κ hκ => ?_) ?_ (fun hz => ?_) (hi₁.synced _) hi₁.disk⟩
    · simp [hnot, h0]
    · simp only [hkey, update_self]
      omega
    · exact hi₁.data bf hlive
    · exact hi₁.dirty bf hlive
    · rw [hkey] at hκ
      simp [hκ]
    · simp only [hkey, update_self]
      omega
    · simp only [hkey, update_self] at hz
      omega

/-- One call: no assertion fails, and the invariant survives. -/
theorem all_exec (hi : Inv y.s y.c none) (a : Act δ) (hw : Within y a) :
    All (fun y' => Inv y'.s y'.c none) (exec y a) := by
  cases a with
  | bread dev block =>
    obtain ⟨s', bf, hb, hi', -⟩ := bread_spec hi hw
    rw [exec, hb]
    exact hi'
  | modify bf d => exact all_guard fun hh => inv_modify hi (by simpa using hh)
  | bwrite bf =>
    refine all_guard fun hh => ?_
    have hh : y.Held bf := by simpa using hh
    exact inv_bwrite hi hh.1
  | brelse bf =>
    refine all_guard fun hh => ?_
    obtain ⟨s', c', hb, hd, hi'⟩ := brelse_spec hi (by simpa using hh)
    rw [hb, next_andThen, hd]
    exact hi'

theorem inv_init (h : Init y) : Inv y.s y.c none := by
  have dead : ∀ b, ¬ y.s.Live none b := fun b hb => by
    have := hb.1
    rw [h.carved] at this
    exact Nat.not_lt_zero b this
  refine ⟨fun a b ha => absurd ha (dead a), fun i b => ?_, fun i => ?_, fun b => ?_, ?_,
    fun b => ?_, fun b => ?_, fun b hb => absurd hb (dead b), fun b hb => absurd hb (dead b),
    fun b hb => absurd hb (dead b), fun b hb => absurd hb (dead b), fun κ _ => h.count κ,
    fun κ => ?_, fun κ _ => h.dirty κ, fun κ _ => by rw [h.data, h.disk], h.disk.symm,
    fun b hb => absurd hb (by simp)⟩
  · simp [h.hashTable, dead]
  · simp [h.hashTable]
  · simp [h.freeList, dead]
  · simp [h.freeList]
  · simp [h.zero, dead]
  · simp [h.zero, h.freeList]
  · rw [h.count κ]
    decide

theorem inv_run (h₀ : Init y₀) (h : Run (Guarded Within Step) y₀ as y) : Inv y.s y.c none :=
  h.invariant (I := fun y => Inv y.s y.c none)
    (fun _ a _ hi hs => (all_exec hi a hs.1).of_next hs.2) (inv_init h₀)

/-- Every state of every run: `bread` shows what was last put into the block, a
block has one buffer at most and it is in its bucket, the free list holds the
buffers with count 0, these equal their disk blocks, and no assertion fails. -/
theorem cache_refines (h₀ : Init y₀) (h : Run (Guarded Within Step) y₀ as y) :
    (∀ dev block, Within y (.bread dev block) → ∃ s' bf, bread y.s dev block = .next (s', bf) ∧
      (s'.buffers bf).key = (dev, block) ∧ (s'.buffers bf).data = y.c.data (dev, block)) ∧
    (∀ i b, b ∈ y.s.hashTable i → (y.s.buffers b).idx = i) ∧
    (∀ i j a b, a ∈ y.s.hashTable i → b ∈ y.s.hashTable j →
      (y.s.buffers a).key = (y.s.buffers b).key → a = b) ∧
    (∀ b, b ∈ y.s.freeList ↔ b < y.s.carved ∧ (y.s.buffers b).count = 0) ∧
    (∀ b < y.s.carved, (y.s.buffers b).count = 0 →
      (y.s.buffers b).data = y.s.disk (y.s.buffers b).key) ∧
    (∀ a, Within y a → exec y a ≠ .failed) := by
  have hi := inv_run h₀ h
  refine ⟨fun dev block hw => ?_, fun i b hb => ((hi.bucket i b).mp hb).2,
    fun i j a b ha hb hab => hi.inj a b ((hi.bucket i a).mp ha).1 ((hi.bucket j b).mp hb).1 hab,
    fun b => (hi.free b).trans (and_congr_left fun _ => ⟨And.left, fun hb => ⟨hb, by simp⟩⟩),
    fun b hb h0 => ?_, fun a ha => (all_exec hi a ha).ne_failed⟩
  · obtain ⟨s', bf, hb, hi', hlt, hkey⟩ := bread_spec hi hw
    refine ⟨s', bf, hb, hkey, ?_⟩
    have := hi'.data bf ⟨hlt, by simp⟩
    rwa [hkey] at this
  · rw [hi.data b ⟨hb, by simp⟩, hi.disk]
    exact hi.synced _ (hi.clean _ ((count_eq_zero_iff hi hb).mp h0))

/-- Zero memory, and disks that hold `d` everywhere. -/
def start (d : δ) : Sys δ where
  s := {
    buffers _ := { data := d, dev := 0, block := 0, count := 0, hnode := false, rnode := false,
                   dirty := false, valid := false }
    carved := 0
    freeList := []
    hashTable _ := []
    disk _ := d }
  c := { data := fun _ => d, count := fun _ => 0, dirty := fun _ => false, disk := fun _ => d }

theorem init_start (d : δ) : Init (start d) := by
  constructor <;> simp [start]

instance (y : Sys δ) (a : Act δ) : Decidable (Within y a) := by
  cases a <;> unfold Within <;> infer_instance

/-- A block is read, changed and let go of; read again it shows the change. -/
theorem cache_refines_reread :
    ∃ y, Run (Guarded Within Step) (start 0) [.bread 1 7, .modify 0 5, .brelse 0] y ∧
      ∃ s' bf, bread y.s 1 7 = .next (s', bf) ∧ (s'.buffers bf).data = 5 := by
  obtain ⟨y, hy, hp⟩ := run_of_play Within exec (start 0) [.bread 1 7, .modify 0 5, .brelse 0]
    (fun y => decide (Within y (.bread 1 7)) && y.c.data (1, 7) == 5) (by decide)
  simp only [Bool.and_eq_true, decide_eq_true_eq, beq_iff_eq] at hp
  obtain ⟨s', bf, hb, -, hd⟩ := (cache_refines (init_start 0) hy).1 1 7 hp.1
  exact ⟨y, hy, s', bf, hb, hd.trans hp.2⟩

/-- The condition without the bound on the count. -/
def Roomy (y : Sys δ) : Act δ → Prop
  | .bread _ _ => y.heldCount < POOL
  | _ => True

/-- Block 0 of device 0 was read `n` times and never let go of. -/
structure Spun (n : ℕ) (y : Sys Unit) : Prop where
  carved : y.s.carved = 1
  chain : y.s.hashTable (hash 0 0) = [0]
  free : y.s.freeList = []
  key : (y.s.buffers 0).key = (0, 0)
  valid : (y.s.buffers 0).valid = true
  dirty : (y.s.buffers 0).dirty = false
  count : (y.s.buffers 0).count = int32 n
  calls : y.c.count (0, 0) = n

theorem Spun.roomy {n : ℕ} {y : Sys Unit} (h : Spun n y) : y.heldCount < POOL := by
  unfold Sys.heldCount
  rw [h.carved]
  exact Nat.lt_of_le_of_lt (List.length_filter_le _ _) (by decide)

theorem spun_succ {n : ℕ} {y : Sys Unit} (h : Spun n y) :
    ∃ y', Guarded Roomy Step y (.bread 0 0) y' ∧ Spun (n + 1) y' := by
  refine ⟨⟨y.s.set 0 { y.s.buffers 0 with count := int32 ((y.s.buffers 0).count + 1) },
    y.c.hold (0, 0)⟩, ⟨h.roomy, ?_⟩, h.carved, h.chain, h.free, by simpa [BufferT.key] using h.key,
    by simpa using h.valid, by simpa using h.dirty, ?_, by simp [Cache.hold, h.calls]⟩
  · have hv := h.valid
    simp [Step, exec, bread, getblk, getFromHashTable, h.chain, h.key, h.free, hv]
  · simp [h.count, int32]

/-- After 2^31 + 1 calls of `bread` the count is negative and `brelse` stops. -/
theorem brelse_overflow :
    ¬ ∀ (as : List (Act Unit)) (y : Sys Unit), Run (Guarded Roomy Step) (start ()) as y →
      ∀ a, Roomy y a → exec y a ≠ .failed := by
  have spun : ∀ n, ∃ as y, Run (Guarded Roomy Step) (start ()) as y ∧ Spun (n + 1) y := by
    intro n
    induction n with
    | zero =>
      refine ⟨[.bread 0 0], ⟨settled (carve (start ()).s) 0 0 0, (start ()).c.hold (0, 0)⟩,
        Run.single ⟨?_, ?_⟩, ?_⟩
      · exact Nat.lt_of_le_of_lt (List.length_filter_le _ _) (by decide)
      · have hb : bread (start ()).s 0 0 = .next (settled (carve (start ()).s) 0 0 0, 0) :=
          bread_miss (inv_init (init_start ())) (fun b hb => absurd hb (Nat.not_lt_zero b)) rfl
            (inv_carve (inv_init (init_start ())))
        rw [Step, exec, hb]
        rfl
      · constructor <;> rfl
    | succ n ih =>
      obtain ⟨as, y, hy, hs⟩ := ih
      obtain ⟨y', hstep, hs'⟩ := spun_succ hs
      exact ⟨_, y', hy.snoc hstep, hs'⟩
  intro h
  obtain ⟨as, y, hy, hs⟩ := spun (2 ^ 31)
  refine h as y hy (.brelse 0) trivial ?_
  have hheld : y.Held 0 := ⟨by rw [hs.carved]; decide, by rw [hs.key, hs.calls]; decide⟩
  have hneg : ¬ 0 ≤ int32 ((y.s.buffers 0).count - 1) := by
    rw [hs.count]
    decide
  simp [exec, Outcome.guard, hheld, brelse, hs.dirty, hneg, assert, andThen]

end Onix.Buffer
