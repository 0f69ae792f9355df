import Onix.Spec.Buffer

/-! How the buffers hang together, whatever they hold: one buffer for a block, every
buffer in the bucket of its block, the free list, and the links of the nodes. -/

namespace Onix.Buffer

open Function Outcome

variable {δ : Type} {s s' : State δ} {bf b i : ℕ} {dev block : ℕ} {out : Option ℕ}

/-- How many buffers fit. -/
def POOL : ℕ := 3855

theorem carve_iff (n : ℕ) : bufferPtr n + HEADER_SIZE < bufferData n ↔ n < POOL := by
  unfold bufferPtr bufferData KERNEL_BUFFER_MEM KERNEL_BUFFER_SIZE HEADER_SIZE BLOCK_SIZE POOL
  omega

/-- A buffer that stands for its block; `out` is one being given to another block. -/
def State.Live (s : State δ) (out : Option ℕ) (b : ℕ) : Prop := b < s.carved ∧ out ≠ some b

/-- The bucket of a buffer. -/
def BufferT.idx (b : BufferT δ) : ℕ := hash b.dev b.block

structure Linked (s : State δ) (out : Option ℕ) : Prop where
  inj : ∀ a b, s.Live out a → s.Live out b → (s.buffers a).key = (s.buffers b).key → a = b
  bucket : ∀ i b, b ∈ s.hashTable i ↔ s.Live out b ∧ (s.buffers b).idx = i
  bucket_nodup : ∀ i, (s.hashTable i).Nodup
  free : ∀ b ∈ s.freeList, s.Live out b
  free_nodup : s.freeList.Nodup
  hnode : ∀ b, (s.buffers b).hnode = true ↔ s.Live out b
  rnode : ∀ b, (s.buffers b).rnode = true ↔ b ∈ s.freeList

@[simp] theorem set_buffers (b : BufferT δ) : (s.set bf b).buffers = update s.buffers bf b := rfl

@[simp] theorem set_carved (b : BufferT δ) : (s.set bf b).carved = s.carved := rfl

@[simp] theorem set_freeList (b : BufferT δ) : (s.set bf b).freeList = s.freeList := rfl

@[simp] theorem set_hashTable (b : BufferT δ) : (s.set bf b).hashTable = s.hashTable := rfl

@[simp] theorem set_disk (b : BufferT δ) : (s.set bf b).disk = s.disk := rfl

theorem int32_eq {n : ℤ} (h0 : -2 ^ 31 ≤ n) (h1 : n < 2 ^ 31) : int32 n = n := by
  unfold int32
  exact Int.bmod_eq_of_le (by omega) (by omega)

theorem idx_of_key {a b : BufferT δ} (h : a.key = b.key) : a.idx = b.idx := by
  obtain ⟨hdev, hblock⟩ := Prod.mk.inj h
  unfold BufferT.idx
  rw [hdev, hblock]

/-- Where the blocks of the buffers and the hash chains stay, the links do, if the free
list is right. -/
theorem Linked.same (hl : Linked s out) (hcarved : s'.carved = s.carved)
    (hkey : ∀ b, (s'.buffers b).key = (s.buffers b).key)
    (hhnode : ∀ b, (s'.buffers b).hnode = (s.buffers b).hnode) (hhash : s'.hashTable = s.hashTable)
    (hfree : ∀ b ∈ s'.freeList, s.Live out b) (hnodup : s'.freeList.Nodup)
    (hrnode : ∀ b, (s'.buffers b).rnode = true ↔ b ∈ s'.freeList) : Linked s' out := by
  have live : ∀ b, s'.Live out b ↔ s.Live out b := by
    intro b
    unfold State.Live
    rw [hcarved]
  refine ⟨fun a b ha hb hab => ?_, fun i b => ?_, fun i => ?_, fun b hb => ?_, hnodup, fun b => ?_,
    hrnode⟩
  · rw [hkey, hkey] at hab
    exact hl.inj a b ((live a).mp ha) ((live b).mp hb) hab
  · rw [live, hhash, idx_of_key (hkey b)]
    exact hl.bucket i b
  · rw [hhash]
    exact hl.bucket_nodup i
  · exact (live b).mpr (hfree b hb)
  · rw [live, hhnode]
    exact hl.hnode b

/-- `find?` in the bucket finds the one buffer of the key. -/
theorem find_eq (hl : Linked s none) :
    (s.hashTable (hash dev block)).find? (fun b => (s.buffers b).key = (dev, block)) = some bf ↔
      bf < s.carved ∧ (s.buffers bf).key = (dev, block) := by
  constructor
  · intro h
    have hmem := List.mem_of_find?_eq_some h
    have hkey := List.find?_some h
    exact ⟨((hl.bucket _ _).mp hmem).1.1, by simpa using hkey⟩
  · rintro ⟨hlt, hkey⟩
    have hlive : s.Live none bf := ⟨hlt, by simp⟩
    have hmem : bf ∈ s.hashTable (hash dev block) := by
      refine (hl.bucket _ _).mpr ⟨hlive, ?_⟩
      obtain ⟨rfl, rfl⟩ := Prod.mk.inj hkey
      rfl
    cases hf : (s.hashTable (hash dev block)).find?
        (fun b => (s.buffers b).key = (dev, block)) with
    | none =>
      have := List.find?_eq_none.mp hf bf hmem
      simp [hkey] at this
    | some a =>
      have ha := ((hl.bucket _ _).mp (List.mem_of_find?_eq_some hf)).1
      have hka := List.find?_some hf
      rw [hl.inj a bf ha hlive (by rw [hkey]; simpa using hka)]

theorem find_none (hl : Linked s none) (hk : ∀ b < s.carved, (s.buffers b).key ≠ (dev, block)) :
    (s.hashTable (hash dev block)).find? (fun b => (s.buffers b).key = (dev, block)) = none := by
  apply List.find?_eq_none.mpr
  intro b hb
  simpa using hk b ((hl.bucket _ _).mp hb).1.1

section Evict

/-- A buffer taken off the free list and its hash chain. -/
def evicted (s : State δ) (bf : ℕ) : State δ :=
  { s.set bf { s.buffers bf with rnode := false, hnode := false, valid := false } with
    freeList := s.freeList.erase bf
    hashTable := update s.hashTable (s.buffers bf).idx
      ((s.hashTable (s.buffers bf).idx).erase bf) }

/-- `get_free_buffer` where no buffer is left to carve. -/
theorem getFreeBuffer_evict (hl : Linked s none) (hn : getNewBuffer s = none)
    (hlast : s.freeList.getLast? = some bf) :
    getFreeBuffer s = .next (evicted s bf, bf) := by
  have hmem : bf ∈ s.freeList := List.mem_of_getLast? hlast
  have hr := (hl.rnode bf).mpr hmem
  have hlive := hl.free bf hmem
  have hh := (hl.hnode bf).mpr hlive
  have hb := (hl.bucket _ _).mpr ⟨hlive, rfl⟩
  unfold getFreeBuffer
  rw [hn, hlast]
  simp only [removeRnode, hashRemove, hr, assert, if_true, next_andThen, set_buffers, update_self,
    set_hashTable, hh]
  rw [BufferT.idx] at hb
  simp [hb, evicted, State.set, BufferT.idx]

theorem live_evicted : (evicted s bf).Live (some bf) b ↔ s.Live none b ∧ b ≠ bf := by
  simp [State.Live, evicted, eq_comm]

theorem evicted_same (hb : b ≠ bf) : (evicted s bf).buffers b = s.buffers b := by
  simp [evicted, hb]

theorem linked_evicted (hl : Linked s none) (hmem : bf ∈ s.freeList) :
    Linked (evicted s bf) (some bf) := by
  have hnot : ∀ i, bf ∉ (evicted s bf).hashTable i := by
    intro i h
    obtain rfl | hidx := eq_or_ne i (s.buffers bf).idx
    · have hself : bf ∈ (s.hashTable (s.buffers bf).idx).erase bf := by simpa [evicted] using h
      exact (hl.bucket_nodup _).not_mem_erase hself
    · have hold : bf ∈ s.hashTable i := by simpa [evicted, hidx] using h
      exact hidx ((hl.bucket i bf).mp hold).2.symm
  have hoff : bf ∉ (evicted s bf).freeList := hl.free_nodup.not_mem_erase
  refine ⟨fun a b ha hb hk => ?_, fun i b => ?_, fun i => ?_, fun b hb => ?_, hl.free_nodup.erase bf,
    fun b => ?_, fun b => ?_⟩
  · obtain ⟨ha, hne⟩ := live_evicted.mp ha
    obtain ⟨hb, hne'⟩ := live_evicted.mp hb
    rw [evicted_same hne, evicted_same hne'] at hk
    exact hl.inj a b ha hb hk
  · rw [live_evicted]
    obtain rfl | hb := eq_or_ne b bf
    · simp [hnot]
    · rw [evicted_same hb]
      have := hl.bucket i b
      obtain rfl | hidx := eq_or_ne i (s.buffers bf).idx
      · simpa [evicted, List.mem_erase_of_ne hb, hb] using this
      · simpa [evicted, hidx, hb] using this
  · obtain rfl | hidx := eq_or_ne i (s.buffers bf).idx
    · simpa [evicted] using (hl.bucket_nodup _).erase bf
    · simpa [evicted, hidx] using hl.bucket_nodup i
  · have hne : b ≠ bf := by
      rintro rfl
      exact hoff hb
    exact live_evicted.mpr ⟨hl.free b (List.mem_of_mem_erase hb), hne⟩
  · rw [live_evicted]
    obtain rfl | hb := eq_or_ne b bf
    · simp [evicted]
    · rw [evicted_same hb]
      simpa [hb] using hl.hnode b
  · obtain rfl | hb := eq_or_ne b bf
    · simpa [evicted] using hoff
    · rw [evicted_same hb]
      have := hl.rnode b
      simpa [evicted, List.mem_erase_of_ne hb] using this

end Evict

section Carve

/-- The next header and data block carved. -/
def carve (s : State δ) : State δ :=
  { s.set s.carved { s.buffers s.carved with
      dev := NODEV, block := 0, count := 0, dirty := false, valid := false } with
    carved := s.carved + 1 }

theorem getNewBuffer_eq (h : getNewBuffer s = some (s', bf)) : s' = carve s ∧ bf = s.carved := by
  unfold getNewBuffer at h
  dsimp only at h
  split_ifs at h
  simp only [Option.some.injEq, Prod.mk.injEq] at h
  exact ⟨h.1.symm, h.2.symm⟩

theorem live_carve : (carve s).Live (some s.carved) b ↔ s.Live none b := by
  simp only [State.Live, carve, ne_eq, Option.some.injEq, reduceCtorEq, not_false_eq_true]
  constructor
  · exact fun ⟨h1, h2⟩ => ⟨by omega, trivial⟩
  · exact fun ⟨h1, _⟩ => ⟨by omega, by omega⟩

theorem carve_same (hb : s.Live none b) : (carve s).buffers b = s.buffers b := by
  have hne : b ≠ s.carved := fun h => absurd (h ▸ hb.1) (Nat.lt_irrefl _)
  simp [carve, hne]

theorem linked_carve (hl : Linked s none) : Linked (carve s) (some s.carved) := by
  have dead : ¬ s.Live none s.carved := fun h => absurd h.1 (Nat.lt_irrefl _)
  have hrnode : (s.buffers s.carved).rnode = false := by
    by_contra h
    exact dead (hl.free _ ((hl.rnode _).mp (by simpa using h)))
  have hhnode : (s.buffers s.carved).hnode = false := by
    by_contra h
    exact dead ((hl.hnode _).mp (by simpa using h))
  refine ⟨fun a b ha hb hk => ?_, fun i b => ?_, hl.bucket_nodup, fun b hb => ?_, hl.free_nodup,
    fun b => ?_, fun b => ?_⟩
  · rw [live_carve] at ha hb
    rw [carve_same ha, carve_same hb] at hk
    exact hl.inj a b ha hb hk
  · rw [live_carve]
    refine (hl.bucket i b).trans (and_congr_right fun hb => ?_)
    rw [carve_same hb]
  · exact live_carve.mpr (hl.free b hb)
  · rw [live_carve]
    obtain rfl | hb := eq_or_ne b s.carved
    · simp [carve, hhnode, dead]
    · simpa [carve, hb] using hl.hnode b
  · obtain rfl | hb := eq_or_ne b s.carved
    · simpa [carve] using hl.rnode s.carved
    · simpa [carve, hb] using hl.rnode b

end Carve

section Place

/-- A buffer in hand given to its new block: the rest of `getblk` on a miss. -/
def placed (s : State δ) (bf dev block : ℕ) : State δ :=
  { s.set bf { s.buffers bf with count := 1, dev := dev, block := block, hnode := true } with
    hashTable := update s.hashTable (hash dev block) (bf :: s.hashTable (hash dev block)) }

/-- A buffer found for its block: on the free list or held already. -/
def taken (s : State δ) (bf : ℕ) : State δ :=
  { s.set bf { s.buffers bf with
      count := int32 ((s.buffers bf).count + 1), rnode := false } with
    freeList := s.freeList.erase bf }

theorem getblk_hit (hl : Linked s none) (hlt : bf < s.carved)
    (hkey : (s.buffers bf).key = (dev, block)) : getblk s dev block = .next (taken s bf, bf) := by
  unfold getblk getFromHashTable
  rw [(find_eq hl).mpr ⟨hlt, hkey⟩]
  by_cases hf : bf ∈ s.freeList
  · have hr := (hl.rnode bf).mpr hf
    simp [hf, removeRnode, hr, assert, taken, State.set]
  · have hr : (s.buffers bf).rnode = false := by
      simpa using (hl.rnode bf).not.mpr hf
    simp [hf, hr, taken, State.set, List.erase_of_not_mem hf]

theorem linked_taken (hl : Linked s none) (bf : ℕ) : Linked (taken s bf) none := by
  have same : ∀ b, ((taken s bf).buffers b).key = (s.buffers b).key ∧
      ((taken s bf).buffers b).hnode = (s.buffers b).hnode := by
    intro b
    obtain rfl | hb := eq_or_ne b bf
    · simp [taken, BufferT.key]
    · simp [taken, hb]
  refine hl.same rfl (fun b => (same b).1) (fun b => (same b).2) rfl
    (fun b hb => hl.free b (List.mem_of_mem_erase hb)) (hl.free_nodup.erase bf) fun b => ?_
  have hoff : bf ∉ (taken s bf).freeList := hl.free_nodup.not_mem_erase
  obtain rfl | hb := eq_or_ne b bf
  · simpa [taken] using hoff
  · have := hl.rnode b
    simpa [taken, hb, List.mem_erase_of_ne hb] using this

/-- What `getblk` does with the buffer that `get_free_buffer` gives it. -/
theorem getblk_miss (hl : Linked s none) (hk : ∀ b < s.carved, (s.buffers b).key ≠ (dev, block))
    {t : State δ} (hg : getFreeBuffer s = .next (t, bf)) (ht : Linked t (some bf))
    (hcount : (t.buffers bf).count = 0) (hdirty : (t.buffers bf).dirty = false) :
    getblk s dev block = .next (placed t bf dev block, bf) := by
  have hnot : bf ∉ t.hashTable (hash dev block) := fun h => ((ht.bucket _ _).mp h).1.2 rfl
  unfold getblk getFromHashTable
  rw [find_none hl hk]
  simp [hg, hcount, hdirty, assert, hashLocate, hnot, placed, State.set]

theorem live_placed (hlt : bf < s.carved) :
    (placed s bf dev block).Live none b ↔ b = bf ∨ s.Live (some bf) b := by
  simp only [State.Live, placed, set_carved]
  constructor
  · intro h
    obtain hb | hb := eq_or_ne b bf
    · exact .inl hb
    · exact .inr ⟨h.1, fun h' => hb (Option.some.inj h').symm⟩
  · rintro (rfl | h)
    · exact ⟨hlt, by simp⟩
    · exact ⟨h.1, by simp⟩

theorem Linked.ne_out (hb : s.Live (some bf) b) : b ≠ bf := fun h => hb.2 (by rw [h])

theorem linked_placed (hl : Linked s (some bf)) (hlt : bf < s.carved)
    (hk : ∀ b, s.Live (some bf) b → (s.buffers b).key ≠ (dev, block)) :
    Linked (placed s bf dev block) none := by
  have same : ∀ b, b ≠ bf → (placed s bf dev block).buffers b = s.buffers b := by
    intro b hb
    simp [placed, hb]
  have key : ((placed s bf dev block).buffers bf).key = (dev, block) := by
    simp [placed, BufferT.key]
  have hnot : ∀ i, bf ∉ s.hashTable i := fun i h => ((hl.bucket _ _).mp h).1.2 rfl
  refine ⟨fun a b ha hb hab => ?_, fun i b => ?_, fun i => ?_, fun b hb => ?_, hl.free_nodup,
    fun b => ?_, fun b => ?_⟩
  · rcases (live_placed hlt).mp ha with rfl | ha <;> rcases (live_placed hlt).mp hb with rfl | hb
    · rfl
    · rw [key, same b (Linked.ne_out hb)] at hab
      exact absurd hab.symm (hk b hb)
    · rw [key, same a (Linked.ne_out ha)] at hab
      exact absurd hab (hk a ha)
    · rw [same a (Linked.ne_out ha), same b (Linked.ne_out hb)] at hab
      exact hl.inj a b ha hb hab
  · rw [live_placed hlt]
    obtain rfl | hb := eq_or_ne b bf
    · obtain rfl | hidx := eq_or_ne i (hash dev block)
      · simp [placed, BufferT.idx]
      · simp [placed, BufferT.idx, hidx, hnot, Ne.symm hidx]
    · rw [same b hb]
      have := hl.bucket i b
      obtain rfl | hidx := eq_or_ne i (hash dev block)
      · simpa [placed, hb] using this
      · simpa [placed, hidx, hb] using this
  · obtain rfl | hidx := eq_or_ne i (hash dev block)
    · simpa [placed] using ⟨hnot _, hl.bucket_nodup (hash dev block)⟩
    · simpa [placed, hidx] using hl.bucket_nodup i
  · exact (live_placed hlt).mpr (.inr (hl.free b hb))
  · rw [live_placed hlt]
    obtain rfl | hb := eq_or_ne b bf
    · simp [placed]
    · rw [same b hb]
      simpa [hb] using hl.hnode b
  · obtain rfl | hb := eq_or_ne b bf
    · simpa [placed] using hl.rnode b
    · rw [same b hb]
      exact hl.rnode b

end Place

end Onix.Buffer
