import Onix.Proofs.Zones
import Onix.Sanity.IallocSpec

/-! Allocating and freeing inode numbers. A search stays in the buffer as long as
the first bitmap block has a 0; the last inode number and the numbers at a
multiple of `BLOCK_BITS` are out of reach. -/

namespace Onix.Fs.Inum

open Function Prog Bytes

inductive Act where
  | ialloc
  | ifree (b : ℕ)

/-- The numbers that are out are kept in `held`. -/
inductive Step : Ledger → Act → Ledger → Prop where
  | ialloc {l : Ledger} {b : ℕ} {s' : State} : ialloc l.fs.dev l.fs = some (b, s') →
      Step l .ialloc ⟨s', if b = EOF then l.held else b :: l.held⟩
  | ifree {l : Ledger} {b : ℕ} {s' : State} : b ∈ l.held → ifree l.fs.dev b l.fs = some ((), s') →
      Step l (.ifree b) ⟨s', l.held.erase b⟩

variable {s s' : State} {l l' l₀ : Ledger} {n i k b c z : ℕ} {a : Act} {as : List Act} {v : Bool}

/-- The bit of number `b` in the inode bitmap is 1. -/
def InUse (s : State) (b : ℕ) : Prop :=
  ∃ z, s.sb.imaps (b / BLOCK_BITS) = some z ∧ (s.data z).bit (b % BLOCK_BITS) = true

/-- A superblock with `n` inode bitmap blocks in distinct buffers; the bits past
the last inode are 1. -/
structure Imaps (s : State) (n : ℕ) : Prop where
  pos : 1 ≤ n
  le : n ≤ IMAP_NR
  loaded : ∀ i < n, ∃ z, s.sb.imaps i = some z
  absent : ∀ i, n ≤ i → s.sb.imaps i = none
  distinct : ∀ i j z, s.sb.imaps i = some z → s.sb.imaps j = some z → i = j
  preset : ∀ i z k, s.sb.imaps i = some z → k < BLOCK_BITS →
    s.sb.desc.inodes < i * BLOCK_BITS + k → (s.data z).bit k = true

/-- A mounted volume with any bitmap contents; numbers may be out already. -/
structure Opened (l : Ledger) : Prop where
  imaps : ∃ n, Imaps l.fs n
  held : ∀ b ∈ l.held, b ≤ l.fs.sb.desc.inodes ∧ InUse l.fs b
  nodup : l.held.Nodup

/-- What the next call has to do. Where it returns, it stayed in the buffer and
no assertion failed. -/
def Meets (l : Ledger) : Act → Prop
  | .ialloc => ∃ b s', ialloc l.fs.dev l.fs = some (b, s') ∧ (b ≠ EOF →
      ¬ InUse l.fs b ∧ b ∉ l.held ∧ ∀ c, InUse s' c ↔ InUse l.fs c ∨ c = b)
  | .ifree b => b ∈ l.held → ∃ s', ifree l.fs.dev b l.fs = some ((), s') ∧
      ∀ c, InUse s' c ↔ InUse l.fs c ∧ c ≠ b

/-- `ialloc`: the first bitmap block has a 0, and the first one is not the bit of
the last number. `ifree b`: `b` is not the last number, and neither a multiple
of `BLOCK_BITS` unless 0. -/
def InReach (l : Ledger) : Act → Prop
  | .ialloc => ∃ z k, l.fs.sb.imaps 0 = some z ∧ (l.fs.data z).FirstZero BLOCK_BITS k ∧
      k ≠ l.fs.sb.desc.inodes
  | .ifree b => b ∈ l.held → b ≠ l.fs.sb.desc.inodes ∧ (b - 1) / BLOCK_BITS = b / BLOCK_BITS

/-- One bit of the inode bitmap changed. -/
theorem inUse_wrote (h : Imaps s n) (hz : s.sb.imaps (b / BLOCK_BITS) = some z) :
    InUse (s.wrote z ((s.data z).setBit (b % BLOCK_BITS) v)) c ↔
      if c = b then v = true else InUse s c := by
  unfold InUse
  rw [sb_wrote, data_wrote]
  by_cases hc : c = b
  · subst hc
    rw [if_pos rfl, hz]
    simp [bit_setBit]
  · rw [if_neg hc]
    refine exists_congr fun w => and_congr_right fun hw => ?_
    by_cases hwz : w = z
    · subst hwz
      have hq := h.distinct _ _ _ hw hz
      have hr : c % BLOCK_BITS ≠ b % BLOCK_BITS := fun hr =>
        hc (by rw [← Nat.div_add_mod c BLOCK_BITS, hq, hr, Nat.div_add_mod])
      rw [update_self, bit_setBit, if_neg hr]
    · rw [update_of_ne hwz]

theorem imaps_wrote (h : Imaps s n) (hz : s.sb.imaps (b / BLOCK_BITS) = some z)
    (hv : v = false → b ≤ s.sb.desc.inodes) :
    Imaps (s.wrote z ((s.data z).setBit (b % BLOCK_BITS) v)) n := by
  refine ⟨h.pos, h.le, h.loaded, h.absent, h.distinct, fun i w k hw hk hlt => ?_⟩
  rw [data_wrote]
  by_cases hwz : w = z
  · subst hwz
    obtain rfl := h.distinct _ _ _ hw hz
    rw [update_self, bit_setBit]
    split_ifs with hmk
    · cases v with
      | true => rfl
      | false =>
        have := hv rfl
        rw [hmk, Nat.div_add_mod'] at hlt
        rw [sb_wrote] at hlt
        omega
    · exact h.preset _ _ _ hw hk hlt
  · rw [update_of_ne hwz]
    exact h.preset i w k hw hk hlt

/-- The bits past the last number are 1, so the first 0 of the first bitmap
block is the bit of a number. -/
theorem firstZero_le (h : Imaps s n) (hz : s.sb.imaps 0 = some z)
    (hk : (s.data z).FirstZero BLOCK_BITS k) : k ≤ s.sb.desc.inodes := by
  by_contra hlt
  have := h.preset 0 z k hz hk.lt (by omega)
  rw [hk.zero] at this
  exact absurd this (by decide)

theorem div_mod_bits (hk : k < BLOCK_BITS) : k / BLOCK_BITS = 0 ∧ k % BLOCK_BITS = k :=
  ⟨Nat.div_eq_of_lt hk, Nat.mod_eq_of_lt hk⟩

theorem not_inUse_firstZero (hz : s.sb.imaps 0 = some z)
    (hk : (s.data z).FirstZero BLOCK_BITS k) : ¬ InUse s k := by
  obtain ⟨hdiv, hmod⟩ := div_mod_bits hk.lt
  rintro ⟨w, hw, hbit⟩
  rw [hdiv] at hw
  rw [hmod] at hbit
  obtain rfl : z = w := by simpa [hz] using hw
  rw [hk.zero] at hbit
  exact absurd hbit (by decide)

theorem ialloc_firstZero (h : Imaps s n) (hz : s.sb.imaps 0 = some z)
    (hk : (s.data z).FirstZero BLOCK_BITS k) (hne : k ≠ s.sb.desc.inodes) :
    k ≠ EOF ∧ ialloc s.dev s = some (k, s.wrote z ((s.data z).setBit (k % BLOCK_BITS) true)) := by
  have hle := firstZero_le h hz hk
  have hlt := hk.lt
  refine ⟨by unfold BLOCK_BITS BLOCK_SIZE at hlt; unfold EOF; omega, ?_⟩
  rw [ialloc_one hz hk, if_pos (by omega), (div_mod_bits hlt).2]

theorem meets_ialloc (ho : Opened l) : Meets l .ialloc ↔ InReach l .ialloc := by
  obtain ⟨n, h⟩ := ho.imaps
  obtain ⟨z, hz⟩ := h.loaded 0 h.pos
  constructor
  · rintro ⟨b, s', hb, -⟩
    rcases full_or_firstZero (l.fs.data z) BLOCK_BITS with hf | ⟨k, hk⟩
    · rw [ialloc_over hz hf] at hb
      exact absurd hb (by simp)
    · refine ⟨z, k, hz, hk, ?_⟩
      rintro rfl
      rw [ialloc_one hz hk, if_neg (Nat.lt_irrefl _)] at hb
      exact absurd hb (by simp)
  · rintro ⟨w, k, hw, hk, hne⟩
    obtain ⟨-, he⟩ := ialloc_firstZero h hw hk hne
    obtain ⟨hdiv, -⟩ := div_mod_bits hk.lt
    have hna := not_inUse_firstZero hw hk
    refine ⟨k, _, he, fun _ => ⟨hna, fun hmem => hna (ho.held k hmem).2, fun c => ?_⟩⟩
    rw [inUse_wrote h (by rw [hdiv]; exact hw)]
    split_ifs with hc <;> simp [hc]

theorem meets_ifree (ho : Opened l) (hb : b ∈ l.held) :
    Meets l (.ifree b) ↔ InReach l (.ifree b) := by
  obtain ⟨n, h⟩ := ho.imaps
  obtain ⟨hle, z, hz, hbit⟩ := ho.held b hb
  have hin : b / BLOCK_BITS < IMAP_NR := by
    by_contra hge
    rw [h.absent _ (Nat.le_trans h.le (Nat.not_lt.mp hge))] at hz
    exact absurd hz (by simp)
  constructor
  · intro hm _
    obtain ⟨s', hs', -⟩ := hm hb
    have hlt : b < l.fs.sb.desc.inodes := by
      by_contra hge
      rw [ifree_range hge] at hs'
      exact absurd hs' (by simp)
    refine ⟨by omega, ?_⟩
    by_contra hne
    have hq : (b - 1) / BLOCK_BITS < IMAP_NR :=
      Nat.lt_of_le_of_lt (Nat.div_le_div_right (Nat.sub_le b 1)) hin
    rw [ifree_over hlt hq hne] at hs'
    exact absurd hs' (by simp)
  · intro hr _
    obtain ⟨hne, hq⟩ := hr hb
    refine ⟨_, ifree_eq (by omega) hin hq hz hbit, fun c => ?_⟩
    rw [inUse_wrote h hz]
    split_ifs with hc <;> simp [hc]

theorem step_opened (ho : Opened l) (hr : InReach l a) (hs : Step l a l') : Opened l' := by
  obtain ⟨n, h⟩ := ho.imaps
  cases hs with
  | @ialloc b s' hb =>
    obtain ⟨z, k, hz, hk, hne⟩ := hr
    obtain ⟨b', s₁, hb', heff⟩ := (meets_ialloc ho).mpr ⟨z, k, hz, hk, hne⟩
    obtain ⟨hk', he⟩ := ialloc_firstZero h hz hk hne
    obtain ⟨hdiv, -⟩ := div_mod_bits hk.lt
    rw [he] at hb hb'
    simp only [Option.some.injEq, Prod.mk.injEq] at hb hb'
    obtain ⟨rfl, rfl⟩ := hb
    obtain ⟨rfl, rfl⟩ := hb'
    obtain ⟨-, hnotin, heff⟩ := heff hk'
    have hle := firstZero_le h hz hk
    refine ⟨⟨n, imaps_wrote h (by rw [hdiv]; exact hz) (by simp)⟩, fun c hc => ?_, ?_⟩
    · rw [if_neg hk', List.mem_cons] at hc
      rcases hc with rfl | hc
      · exact ⟨hle, (heff c).mpr (Or.inr rfl)⟩
      · obtain ⟨h1, h2⟩ := ho.held c hc
        exact ⟨h1, (heff c).mpr (Or.inl h2)⟩
    · rw [if_neg hk']
      exact List.nodup_cons.mpr ⟨hnotin, ho.nodup⟩
  | @ifree b s' hmem hb =>
    obtain ⟨s₁, hb', heff⟩ := (meets_ifree ho hmem).mpr hr hmem
    obtain rfl : s₁ = s' := by simpa [hb'] using hb
    obtain ⟨hle, z, hz, hbit⟩ := ho.held b hmem
    obtain ⟨hne, hq⟩ := hr hmem
    have hin : b / BLOCK_BITS < IMAP_NR := by
      by_contra hge
      rw [h.absent _ (Nat.le_trans h.le (Nat.not_lt.mp hge))] at hz
      exact absurd hz (by simp)
    rw [ifree_eq (by omega) hin hq hz hbit] at hb
    simp only [Option.some.injEq, Prod.mk.injEq, true_and] at hb
    subst hb
    refine ⟨⟨n, imaps_wrote h hz fun _ => hle⟩, fun c hc => ?_, ho.nodup.erase b⟩
    obtain ⟨hcb, hc⟩ := (ho.nodup.mem_erase_iff).mp hc
    obtain ⟨h1, h2⟩ := ho.held c hc
    exact ⟨h1, (heff c).mpr ⟨h2, hcb⟩⟩

theorem opened_run (h₀ : Opened l₀) (h : Run (Guarded InReach Step) l₀ as l) : Opened l :=
  h.invariant (fun _ _ _ ho hs => step_opened ho hs.1 hs.2) h₀

/-- In every run within reach, the next call does what it has to exactly if it
is within reach too. -/
theorem ialloc_ifree_inverse (h₀ : Opened l₀) (h : Run (Guarded InReach Step) l₀ as l) (a : Act) :
    Meets l a ↔ InReach l a := by
  have ho := opened_run h₀ h
  cases a with
  | ialloc => exact meets_ialloc ho
  | ifree b =>
    by_cases hb : b ∈ l.held
    · exact meets_ifree ho hb
    · exact ⟨fun _ hb' => absurd hb' hb, fun _ hb' => absurd hb' hb⟩

/-- Two inode bitmap blocks for 10000 inodes with these bytes. -/
def inodes (bitmap : ℕ → Bytes) : State :=
  { twoMaps with
    cache := { twoMaps.cache with data := fun b => bitmap (b - 2) }
    sb := { twoMaps.sb with desc := { twoMaps.sb.desc with inodes := 10000 } } }

theorem imaps_inodes {bitmap : ℕ → Bytes}
    (hp : ∀ i < 2, ∀ k < BLOCK_BITS, 10000 < i * BLOCK_BITS + k → (bitmap i).bit k = true) :
    Imaps (inodes bitmap) 2 := by
  refine ⟨by decide, by decide, fun i hi => ⟨2 + i, if_pos hi⟩,
    fun i hi => if_neg (Nat.not_lt.mpr hi), fun i j z hi hj => ?_, fun i z k hi hk hlt => ?_⟩
  · simp only [inodes, twoMaps, volume, Option.ite_none_right_eq_some, Option.some.injEq] at hi hj
    omega
  · simp only [inodes, twoMaps, volume, Option.ite_none_right_eq_some, Option.some.injEq] at hi
    obtain ⟨hin, rfl⟩ := hi
    have := hp i hin k hk hlt
    rwa [show i = 2 + i - 2 by omega] at this

theorem opened_inodes {bitmap : ℕ → Bytes}
    (hp : ∀ i < 2, ∀ k < BLOCK_BITS, 10000 < i * BLOCK_BITS + k → (bitmap i).bit k = true) :
    Opened ⟨inodes bitmap, []⟩ := ⟨⟨2, imaps_inodes hp⟩, by simp, List.nodup_nil⟩

/-- Number 1 is free; the second block is full. -/
def oneFree : ℕ → Bytes := fun i j => if i = 0 ∧ j = 0 then 0xfd else 0xff

/-- The first block is full, the second one free up to number 10000. -/
def fullFirst : ℕ → Bytes := fun i j => if i = 1 ∧ j < 226 then 0 else 0xff

theorem opened_oneFree : Opened ⟨inodes oneFree, []⟩ := by
  refine opened_inodes fun i hi k hk hlt => ?_
  unfold BLOCK_BITS BLOCK_SIZE at hlt
  unfold bit oneFree
  rw [if_neg (by omega)]
  exact ones_bit k

theorem opened_fullFirst : Opened ⟨inodes fullFirst, []⟩ := by
  refine opened_inodes fun i hi k hk hlt => ?_
  unfold BLOCK_BITS BLOCK_SIZE at hlt hk
  unfold bit fullFirst
  rw [if_neg (by omega)]
  exact ones_bit k

theorem firstZero_oneFree : (oneFree 0).FirstZero BLOCK_BITS 1 := by
  refine ⟨by decide, by decide, fun t ht => ?_⟩
  obtain rfl : t = 0 := by omega
  decide

/-- Number 1 is handed out and may be freed. -/
theorem ialloc_ifree_inverse_oneFree :
    ∃ l, Run (Guarded InReach Step) ⟨inodes oneFree, []⟩ [.ialloc] l ∧ l.held = [1] ∧
      Meets l (.ifree 1) := by
  have ho := opened_oneFree
  obtain ⟨n, h⟩ := ho.imaps
  obtain ⟨-, he⟩ := ialloc_firstZero h (z := 2) rfl firstZero_oneFree (by decide)
  have hr : InReach ⟨inodes oneFree, []⟩ .ialloc := ⟨2, 1, rfl, firstZero_oneFree, by decide⟩
  have hstep : Guarded InReach Step ⟨inodes oneFree, []⟩ .ialloc _ := ⟨hr, Step.ialloc he⟩
  have hrun := Run.single hstep
  exact ⟨_, hrun, rfl, (ialloc_ifree_inverse ho hrun (.ifree 1)).mpr fun _ => by decide⟩

/-- With the first bitmap block full the search runs over the end of its buffer. -/
theorem ialloc_over_buffer :
    ¬ ∀ (l₀ l : Ledger) (as : List Act), Opened l₀ → Run Step l₀ as l → ∀ a, Meets l a := by
  intro hall
  have ho := opened_fullFirst
  obtain ⟨z, k, hz, hk, -⟩ := (meets_ialloc ho).mp (hall _ _ [] ho Run.nil .ialloc)
  obtain rfl : 2 = z := by simpa [inodes, twoMaps, volume] using hz
  have : (fullFirst 0).bit k = true := ones_bit k
  exact absurd (this.symm.trans hk.zero) (by decide)

end Onix.Fs.Inum
