import Onix.Sanity.BufferLinks

/-! The invariant of the buffer cache: hash chains, free list, counts, flags and
disks against the cache of blocks that the buffers stand for. -/

namespace Onix.Buffer

open Function Outcome

variable {δ : Type} {s s' : State δ} {c : Cache Key δ} {bf b i : ℕ} {dev block : ℕ}
  {out : Option ℕ} {κ : Key}

structure Inv (s : State δ) (c : Cache Key δ) (out : Option ℕ) : Prop where
  inj : ∀ a b, s.Live out a → s.Live out b → (s.buffers a).key = (s.buffers b).key → a = b
  bucket : ∀ i b, b ∈ s.hashTable i ↔ s.Live out b ∧ (s.buffers b).idx = i
  bucket_nodup : ∀ i, (s.hashTable i).Nodup
  free : ∀ b, b ∈ s.freeList ↔ s.Live out b ∧ (s.buffers b).count = 0
  free_nodup : s.freeList.Nodup
  hnode : ∀ b, (s.buffers b).hnode = true ↔ s.Live out b
  rnode : ∀ b, (s.buffers b).rnode = true ↔ b ∈ s.freeList
  valid : ∀ b, s.Live out b → (s.buffers b).valid = true
  count : ∀ b, s.Live out b → (s.buffers b).count = c.count (s.buffers b).key
  data : ∀ b, s.Live out b → (s.buffers b).data = c.data (s.buffers b).key
  dirty : ∀ b, s.Live out b → (s.buffers b).dirty = c.dirty (s.buffers b).key
  absent : ∀ κ, (∀ b, s.Live out b → (s.buffers b).key ≠ κ) → c.count κ = 0
  count_lt : ∀ κ, c.count κ < 2 ^ 31
  clean : ∀ κ, c.count κ = 0 → c.dirty κ = false
  synced : ∀ κ, c.dirty κ = false → c.data κ = c.disk κ
  disk : s.disk = c.disk
  out : ∀ b, out = some b → b < s.carved ∧ (s.buffers b).count = 0 ∧
    (s.buffers b).dirty = false ∧ (s.buffers b).valid = false

theorem Inv.linked (hi : Inv s c out) : Linked s out :=
  ⟨hi.inj, hi.bucket, hi.bucket_nodup, fun b hb => ((hi.free b).mp hb).1, hi.free_nodup, hi.hnode,
    hi.rnode⟩

theorem inv_evicted (hi : Inv s c none) (hmem : bf ∈ s.freeList) :
    Inv (evicted s bf) c (some bf) := by
  obtain ⟨hlive, hcount⟩ := (hi.free bf).mp hmem
  have hl := linked_evicted hi.linked hmem
  have hzero : c.count (s.buffers bf).key = 0 := by
    have := hi.count bf hlive
    omega
  refine ⟨hl.inj, hl.bucket, hl.bucket_nodup, fun b => ?_, hl.free_nodup, hl.hnode, hl.rnode,
    fun b hb => ?_, fun b hb => ?_, fun b hb => ?_, fun b hb => ?_, fun κ hκ => ?_,
    hi.count_lt, hi.clean, hi.synced, hi.disk, fun b hb => ?_⟩
  · rw [live_evicted]
    by_cases hb : b = bf
    · subst hb
      have : b ∉ s.freeList.erase b := hi.free_nodup.not_mem_erase
      simpa [evicted] using this
    · rw [evicted_same hb]
      have := hi.free b
      simpa [evicted, List.mem_erase_of_ne hb, hb] using this
  · obtain ⟨hb, hne⟩ := live_evicted.mp hb
    rw [evicted_same hne]
    exact hi.valid b hb
  · obtain ⟨hb, hne⟩ := live_evicted.mp hb
    rw [evicted_same hne]
    exact hi.count b hb
  · obtain ⟨hb, hne⟩ := live_evicted.mp hb
    rw [evicted_same hne]
    exact hi.data b hb
  · obtain ⟨hb, hne⟩ := live_evicted.mp hb
    rw [evicted_same hne]
    exact hi.dirty b hb
  · by_cases hk : (s.buffers bf).key = κ
    · rw [← hk]
      exact hzero
    · refine hi.absent κ fun b hb => ?_
      by_cases hbf : b = bf
      · rwa [hbf]
      · rw [← evicted_same hbf]
        exact hκ b (live_evicted.mpr ⟨hb, hbf⟩)
  · obtain rfl : bf = b := Option.some.inj hb
    have hd := hi.dirty bf hlive
    rw [hi.clean _ hzero] at hd
    simpa [evicted, hcount, hd] using hlive.1

theorem inv_carve (hi : Inv s c none) : Inv (carve s) c (some s.carved) := by
  have hl := linked_carve hi.linked
  refine ⟨hl.inj, hl.bucket, hl.bucket_nodup, fun b => ?_, hl.free_nodup, hl.hnode, hl.rnode,
    fun b hb => ?_, fun b hb => ?_, fun b hb => ?_, fun b hb => ?_, fun κ hκ => ?_, hi.count_lt,
    hi.clean, hi.synced, hi.disk, fun b hb => ?_⟩
  · rw [live_carve]
    refine (hi.free b).trans (and_congr_right fun hb => ?_)
    rw [carve_same hb]
  · rw [live_carve] at hb
    rw [carve_same hb]
    exact hi.valid b hb
  · rw [live_carve] at hb
    rw [carve_same hb]
    exact hi.count b hb
  · rw [live_carve] at hb
    rw [carve_same hb]
    exact hi.data b hb
  · rw [live_carve] at hb
    rw [carve_same hb]
    exact hi.dirty b hb
  · refine hi.absent κ fun b hb => ?_
    rw [← carve_same hb]
    exact hκ b (live_carve.mpr hb)
  · obtain rfl : s.carved = b := Option.some.inj hb
    simp [carve]

/-- A buffer in hand after it was read in for a block: `getblk` and the read of
`bread` on a miss. -/
def settled (s : State δ) (bf dev block : ℕ) : State δ :=
  { s.set bf { s.buffers bf with
      count := 1, dev := dev, block := block, hnode := true, data := s.disk (dev, block),
      dirty := false, valid := true } with
    hashTable := update s.hashTable (hash dev block) (bf :: s.hashTable (hash dev block)) }

theorem bread_hit (hi : Inv s c none) (hlt : bf < s.carved)
    (hkey : (s.buffers bf).key = (dev, block)) :
    bread s dev block = .next (taken s bf, bf) := by
  have hv := hi.valid bf ⟨hlt, by simp⟩
  unfold bread
  rw [getblk_hit hi.linked hlt hkey]
  simp [taken, hv]

theorem bread_miss (hi : Inv s c none) (hk : ∀ b < s.carved, (s.buffers b).key ≠ (dev, block))
    {t : State δ} (hg : getFreeBuffer s = .next (t, bf)) (ht : Inv t c (some bf)) :
    bread s dev block = .next (settled t bf dev block, bf) := by
  obtain ⟨hlt, hcount, hdirty, hvalid⟩ := ht.out bf rfl
  unfold bread
  rw [getblk_miss hi.linked hk hg ht.linked hcount hdirty]
  simp [placed, hvalid, settled, State.set, BufferT.key]

theorem inv_settled (hi : Inv s c (some bf))
    (hk : ∀ b, s.Live (some bf) b → (s.buffers b).key ≠ (dev, block)) :
    Inv (settled s bf dev block) (c.hold (dev, block)) none := by
  obtain ⟨hlt, hcount, -, -⟩ := hi.out bf rfl
  have live : ∀ b, (settled s bf dev block).Live none b ↔ b = bf ∨ s.Live (some bf) b :=
    fun b => (live_placed hlt : (placed s bf dev block).Live none b ↔ b = bf ∨ s.Live (some bf) b)
  have same : ∀ b, b ≠ bf → (settled s bf dev block).buffers b = s.buffers b := by
    intro b hb
    simp [settled, hb]
  have key : ((settled s bf dev block).buffers bf).key = (dev, block) := by
    simp [settled, BufferT.key]
  have hl : Linked (settled s bf dev block) none := by
    have hp := linked_placed hi.linked hlt hk
    refine hp.same rfl (fun b => ?_) (fun b => ?_) rfl (fun b hb => hp.free b hb) hp.free_nodup
      fun b => ?_
    · by_cases hb : b = bf <;> simp [settled, placed, hb, BufferT.key]
    · by_cases hb : b = bf <;> simp [settled, placed, hb]
    · refine Iff.trans ?_ (hp.rnode b)
      by_cases hb : b = bf <;> simp [settled, placed, hb]
  have hzero := hi.absent (dev, block) hk
  have hclean := hi.clean (dev, block) hzero
  have hdata := hi.synced (dev, block) hclean
  refine ⟨hl.inj, hl.bucket, hl.bucket_nodup, fun b => ?_, hl.free_nodup, hl.hnode, hl.rnode,
    fun b hb => ?_, fun b hb => ?_, fun b hb => ?_, fun b hb => ?_,
    fun κ hκ => ?_, fun κ => ?_, fun κ hκ => ?_, hi.synced, hi.disk,
    fun b hb => absurd hb (by simp)⟩
  · rw [live]
    by_cases hb : b = bf
    · subst hb
      have hnot : b ∉ s.freeList := fun h => ((hi.free _).mp h).1.2 rfl
      simpa [settled] using hnot
    · rw [same b hb]
      simpa [settled, hb] using hi.free b
  · rcases (live b).mp hb with rfl | hb
    · simp [settled]
    · rw [same b (Linked.ne_out hb)]
      exact hi.valid b hb
  · rcases (live b).mp hb with rfl | hb
    · rw [key]
      simp [settled, Cache.hold, hzero]
    · rw [same b (Linked.ne_out hb)]
      simpa [Cache.hold, hk b hb] using hi.count b hb
  · rcases (live b).mp hb with rfl | hb
    · rw [key]
      simp [settled, hdata, hi.disk]
    · rw [same b (Linked.ne_out hb)]
      exact hi.data b hb
  · rcases (live b).mp hb with rfl | hb
    · rw [key]
      simp [settled, Cache.hold, hclean]
    · rw [same b (Linked.ne_out hb)]
      exact hi.dirty b hb
  · have hne : κ ≠ (dev, block) := fun h => hκ bf ((live bf).mpr (Or.inl rfl)) (by rw [key, h])
    have := hi.absent κ fun b hb => by
      rw [← same b (Linked.ne_out hb)]
      exact hκ b ((live b).mpr (Or.inr hb))
    simpa [Cache.hold, hne] using this
  · by_cases hne : κ = (dev, block)
    · subst hne
      simp [Cache.hold, hzero]
    · simpa [Cache.hold, hne] using hi.count_lt κ
  · by_cases hne : κ = (dev, block)
    · subst hne
      simp [Cache.hold] at hκ
    · exact hi.clean κ (by simpa [Cache.hold, hne] using hκ)

/-- One buffer and the entry of its block change together; the buffer keeps its
block, and only its own place on the free list may move. -/
theorem Inv.change (hi : Inv s c none) {c' : Cache Key δ} (b' : BufferT δ) (hlt : bf < s.carved)
    (hb : s'.buffers = update s.buffers bf b') (hcarved : s'.carved = s.carved)
    (hhash : s'.hashTable = s.hashTable)
    (hkey : b'.dev = (s.buffers bf).dev ∧ b'.block = (s.buffers bf).block)
    (hlinked : b'.hnode = true ∧ b'.valid = true)
    (hfree : ∀ a, a ≠ bf → (a ∈ s'.freeList ↔ a ∈ s.freeList)) (hnodup : s'.freeList.Nodup)
    (hself : bf ∈ s'.freeList ↔ b'.count = 0) (hrnode : b'.rnode = true ↔ bf ∈ s'.freeList)
    (hcount : b'.count = c'.count (s.buffers bf).key) (hdata : b'.data = c'.data (s.buffers bf).key)
    (hdirty : b'.dirty = c'.dirty (s.buffers bf).key)
    (hother : ∀ κ, κ ≠ (s.buffers bf).key → c'.count κ = c.count κ ∧ c'.data κ = c.data κ ∧
      c'.dirty κ = c.dirty κ ∧ c'.disk κ = c.disk κ)
    (hbound : c'.count (s.buffers bf).key < 2 ^ 31)
    (hclean : c'.count (s.buffers bf).key = 0 → c'.dirty (s.buffers bf).key = false)
    (hsynced : c'.dirty (s.buffers bf).key = false →
      c'.data (s.buffers bf).key = c'.disk (s.buffers bf).key)
    (hdisk : s'.disk = c'.disk) : Inv s' c' none := by
  have hbf : s.Live none bf := ⟨hlt, by simp⟩
  have live : ∀ b, s'.Live none b ↔ s.Live none b := by
    intro b
    rw [State.Live, hcarved, State.Live]
  have self : s'.buffers bf = b' := by simp [hb]
  have same : ∀ b, b ≠ bf → s'.buffers b = s.buffers b := by
    intro b hne
    simp [hb, hne]
  have key : ∀ b, (s'.buffers b).key = (s.buffers b).key := by
    intro b
    by_cases hne : b = bf
    · rw [hne, self, BufferT.key, hkey.1, hkey.2]
      rfl
    · rw [same b hne]
  have other : ∀ b, s.Live none b → b ≠ bf → (s.buffers b).key ≠ (s.buffers bf).key :=
    fun b hl hne h => hne (hi.inj b bf hl hbf h)
  have hl : Linked s' none := by
    refine hi.linked.same hcarved key (fun b => ?_) hhash (fun b hb => ?_) hnodup fun b => ?_
    · by_cases hne : b = bf
      · rw [hne, self, hlinked.1, (hi.hnode bf).mpr hbf]
      · rw [same b hne]
    · by_cases hne : b = bf
      · rwa [hne]
      · exact hi.linked.free b ((hfree b hne).mp hb)
    · by_cases hne : b = bf
      · rw [hne, self, hrnode]
      · rw [same b hne, hfree b hne]
        exact hi.rnode b
  refine ⟨hl.inj, hl.bucket, hl.bucket_nodup, fun b => ?_, hnodup, hl.hnode, hl.rnode,
    fun b hl => ?_, fun b hl => ?_, fun b hl => ?_, fun b hl => ?_,
    fun κ hκ => ?_, fun κ => ?_, fun κ hκ => ?_, fun κ hκ => ?_, hdisk,
    fun b hl => absurd hl (by simp)⟩
  · rw [live]
    by_cases hne : b = bf
    · subst hne
      rw [self, hself]
      exact ⟨fun h => ⟨hbf, h⟩, And.right⟩
    · rw [same b hne, hfree b hne]
      exact hi.free b
  · by_cases hne : b = bf
    · rw [hne, self, hlinked.2]
    · rw [same b hne]
      exact hi.valid b ((live b).mp hl)
  · rw [key]
    by_cases hne : b = bf
    · rw [hne, self, hcount]
    · have hl := (live b).mp hl
      rw [same b hne, (hother _ (other b hl hne)).1]
      exact hi.count b hl
  · rw [key]
    by_cases hne : b = bf
    · rw [hne, self, hdata]
    · have hl := (live b).mp hl
      rw [same b hne, (hother _ (other b hl hne)).2.1]
      exact hi.data b hl
  · rw [key]
    by_cases hne : b = bf
    · rw [hne, self, hdirty]
    · have hl := (live b).mp hl
      rw [same b hne, (hother _ (other b hl hne)).2.2.1]
      exact hi.dirty b hl
  · have hne : κ ≠ (s.buffers bf).key := fun h => hκ bf ((live bf).mpr hbf) (by rw [key, h])
    rw [(hother κ hne).1]
    refine hi.absent κ fun b hl => ?_
    rw [← key]
    exact hκ b ((live b).mpr hl)
  · by_cases hne : κ = (s.buffers bf).key
    · rw [hne]
      exact hbound
    · rw [(hother κ hne).1]
      exact hi.count_lt κ
  · by_cases hne : κ = (s.buffers bf).key
    · rw [hne] at hκ ⊢
      exact hclean hκ
    · obtain ⟨h1, -, h3, -⟩ := hother κ hne
      rw [h3]
      exact hi.clean κ (h1 ▸ hκ)
  · by_cases hne : κ = (s.buffers bf).key
    · rw [hne] at hκ ⊢
      exact hsynced hκ
    · obtain ⟨-, h2, h3, h4⟩ := hother κ hne
      rw [h2, h4]
      exact hi.synced κ (h3 ▸ hκ)

end Onix.Buffer
