import Onix.Lib.Run
import Onix.Sanity.BallocSpec

/-! Allocating and freeing blocks. `balloc` numbers the bits of bitmap block `i`
from `i * BLOCK_SIZE`, `bfree` from `i * BLOCK_BITS`, and `bfree` looks for the
bitmap block without regard to the first data zone: what holds of the first
bitmap block fails beyond it. -/

namespace Onix.Fs

open Function Prog Bytes

/-- The file system and the blocks that are out, handed out and not freed since. -/
structure Ledger where
  fs : State
  held : List ℕ

inductive Act where
  | balloc
  | bfree (b : ℕ)

inductive Step : Ledger → Act → Ledger → Prop where
  | balloc {l : Ledger} {b : ℕ} {s' : State} : balloc l.fs.dev l.fs = some (b, s') →
      Step l .balloc ⟨s', if b = EOF then l.held else b :: l.held⟩
  | bfree {l : Ledger} {b : ℕ} {s' : State} : b ∈ l.held → bfree l.fs.dev b l.fs = some ((), s') →
      Step l (.bfree b) ⟨s', l.held.erase b⟩

variable {s s' : State} {l l' l₀ : Ledger} {n i k b c z : ℕ} {a : Act} {as : List Act} {v : Bool}

def IsZone (s : State) (b : ℕ) : Prop := s.sb.desc.firstdatazone ≤ b ∧ b < s.sb.desc.zones

/-- The bit of block `b` in the zone bitmap is 1. -/
def Allocated (s : State) (b : ℕ) : Prop :=
  ∃ z, s.sb.zmaps ((b - s.base) / BLOCK_BITS) = some z ∧
    (s.data z).bit ((b - s.base) % BLOCK_BITS) = true

/-- A mounted volume with any bitmap contents; blocks may be out already. -/
structure Opened (l : Ledger) : Prop where
  volume : ∃ n, Volume l.fs n
  held : ∀ b ∈ l.held, IsZone l.fs b ∧ Allocated l.fs b
  nodup : l.held.Nodup

/-- What the next call has to do. -/
def Meets (l : Ledger) : Act → Prop
  | .balloc => ∀ b s', balloc l.fs.dev l.fs = some (b, s') → b ≠ EOF →
      ¬ Allocated l.fs b ∧ b ∉ l.held ∧ IsZone l.fs b ∧
      ∀ c, IsZone l.fs c → (Allocated s' c ↔ Allocated l.fs c ∨ c = b)
  | .bfree b => b ∈ l.held → ∃ s', bfree l.fs.dev b l.fs = some ((), s') ∧
      ∀ c, IsZone l.fs c → (Allocated s' c ↔ Allocated l.fs c ∧ c ≠ b)

/-- `balloc`: the first 0 of the bitmap, if any, is in its first block and is not
bit 0. `bfree b`: block `b - 1` and bit `b - (firstdatazone - 1)` fall into the
same bitmap block. -/
def InReach (l : Ledger) : Act → Prop
  | .balloc => ∀ i k, FirstFree l.fs i k → i = 0 ∧ 0 < k
  | .bfree b => b ∈ l.held → (b - 1) / BLOCK_BITS = (b - l.fs.base) / BLOCK_BITS

theorem Volume.congr (h : Volume s n) (hsb : s'.sb = s.sb)
    (hp : ∀ i z k, s.sb.zmaps i = some z → k < BLOCK_BITS →
      s.sb.desc.zones ≤ s.base + (i * BLOCK_BITS + k) → (s'.data z).bit k = true) :
    Volume s' n := by
  have hbase : s'.base = s.base := by rw [State.base, hsb, State.base]
  refine ⟨h.pos, h.le, ?_, ?_, ?_, ?_, ?_, ?_, ?_⟩ <;> rw [hsb]
  · exact h.loaded
  · exact h.absent
  · exact h.distinct
  · exact h.first
  · exact h.zones
  · exact h.zones_lt
  · rwa [hbase]

theorem allocated_congr (hsb : s'.sb = s.sb) (hd : s'.data = s.data) :
    Allocated s' b ↔ Allocated s b := by
  rw [Allocated, State.base, hsb, hd]
  rfl

/-- One bit of the zone bitmap changed. -/
theorem allocated_wrote (h : Volume s n) (hz : s.sb.zmaps i = some z) (hk : k < BLOCK_BITS) :
    Allocated (s.wrote z ((s.data z).setBit k v)) c ↔
      if c - s.base = i * BLOCK_BITS + k then v = true else Allocated s c := by
  have hpos : 0 < BLOCK_BITS := by decide
  have hq : c - s.base = i * BLOCK_BITS + k ↔
      (c - s.base) / BLOCK_BITS = i ∧ (c - s.base) % BLOCK_BITS = k := by
    unfold BLOCK_BITS BLOCK_SIZE at *
    omega
  unfold Allocated
  rw [sb_wrote, data_wrote, show (s.wrote z ((s.data z).setBit k v)).base = s.base from rfl]
  by_cases hc : c - s.base = i * BLOCK_BITS + k
  · obtain ⟨h1, h2⟩ := hq.mp hc
    rw [if_pos hc, h1, h2, hz]
    simp [bit_setBit]
  · rw [if_neg hc]
    refine exists_congr fun w => and_congr_right fun hw => ?_
    by_cases hwz : w = z
    · subst hwz
      have h1 := h.distinct _ _ _ hw hz
      rw [update_self, bit_setBit, if_neg fun h2 => hc (hq.mpr ⟨h1, h2⟩)]
    · rw [update_of_ne hwz]

theorem volume_wrote (h : Volume s n) (hz : s.sb.zmaps i = some z)
    (hv : v = false → s.base + (i * BLOCK_BITS + k) < s.sb.desc.zones) :
    Volume (s.wrote z ((s.data z).setBit k v)) n := by
  refine h.congr rfl fun j w m hw hm hzones => ?_
  rw [data_wrote]
  by_cases hwz : w = z
  · subst hwz
    obtain rfl := h.distinct _ _ _ hw hz
    rw [update_self, bit_setBit]
    split_ifs with hmk
    · cases v with
      | true => rfl
      | false =>
        have := hv rfl
        rw [hmk] at hzones
        omega
    · exact h.preset _ _ _ hw hm hzones
  · rw [update_of_ne hwz]
    exact h.preset j w m hw hm hzones

theorem full_or_firstFree (h : Volume s n) :
    (∀ i z, s.sb.zmaps i = some z → (s.data z).Full BLOCK_BITS) ∨ ∃ i k, FirstFree s i k := by
  have hm : ∀ m, (∀ i < m, ∀ z, s.sb.zmaps i = some z → (s.data z).Full BLOCK_BITS) ∨
      ∃ i k, FirstFree s i k := by
    intro m
    induction m with
    | zero => exact Or.inl fun i hi => absurd hi (Nat.not_lt_zero i)
    | succ m ih =>
      rcases ih with hfull | hfree
      · by_cases hz : ∃ z k, s.sb.zmaps m = some z ∧ (s.data z).FirstZero BLOCK_BITS k
        · obtain ⟨z, k, hz, hk⟩ := hz
          exact Or.inr ⟨m, k, ⟨z, hz, hk⟩, hfull⟩
        · refine Or.inl fun i hi z hiz => ?_
          rcases Nat.lt_succ_iff_lt_or_eq.mp hi with hi | rfl
          · exact hfull i hi z hiz
          · rcases full_or_firstZero (s.data z) BLOCK_BITS with hf | ⟨k, hk⟩
            · exact hf
            · exact absurd ⟨z, k, hiz, hk⟩ hz
      · exact Or.inr hfree
  rcases hm n with hfull | hfree
  · refine Or.inl fun i z hz => hfull i ?_ z hz
    by_contra hi
    rw [h.absent i (Nat.not_lt.mp hi)] at hz
    exact absurd hz (by simp)
  · exact Or.inr hfree

/-- The bits past the last zone are 1, so `balloc` returns where it finds a 0. -/
theorem balloc_firstFree (h : Volume s n) (hf : FirstFree s i k) (hz : s.sb.zmaps i = some z) :
    s.number i k < s.sb.desc.zones ∧ s.base + (i * BLOCK_BITS + k) < s.sb.desc.zones ∧
      balloc s.dev s = some (s.number i k, s.wrote z ((s.data z).setBit k true)) := by
  obtain ⟨z', hz', hk⟩ := hf.here
  obtain rfl : z = z' := by simpa [hz] using hz'
  have hlt : s.base + (i * BLOCK_BITS + k) < s.sb.desc.zones := by
    by_contra hge
    have := h.preset i z k hz hk.lt (Nat.not_lt.mp hge)
    rw [hk.zero] at this
    exact absurd this (by decide)
  have hnum : s.number i k < s.sb.desc.zones := by
    unfold State.number
    unfold BLOCK_BITS BLOCK_SIZE at *
    omega
  exact ⟨hnum, hlt, by rw [balloc_eq h hf hz, if_pos hnum]⟩

/-- A number taken from a bitmap block after the first is one in use already. -/
theorem allocated_number (h : Volume s n) (hf : FirstFree s i k) (hi : i ≠ 0) :
    Allocated s (s.number i k) := by
  obtain ⟨z, hz, hk⟩ := hf.here
  have hn := h.le
  have hin : i < n := by
    by_contra hn
    rw [h.absent i (by omega)] at hz
    exact absurd hz (by simp)
  have hm : s.number i k - s.base = i * BLOCK_SIZE + k := by
    unfold State.number
    omega
  unfold Allocated
  rw [hm]
  have hlt := hk.lt
  unfold BLOCK_BITS BLOCK_SIZE ZMAP_NR at *
  by_cases h0 : i * 1024 + k < 1024 * 8
  · obtain ⟨w, hw⟩ := h.loaded 0 (by omega)
    rw [show (i * 1024 + k) / (1024 * 8) = 0 by omega]
    exact ⟨w, hw, hf.full 0 (by omega) w hw _ (by unfold BLOCK_BITS BLOCK_SIZE; omega)⟩
  · rw [show (i * 1024 + k) / (1024 * 8) = 1 by omega,
      show (i * 1024 + k) % (1024 * 8) = i * 1024 + k - 1024 * 8 by omega]
    by_cases h1 : i = 1
    · subst h1
      exact ⟨z, hz, hk.full _ (by omega)⟩
    · obtain ⟨w, hw⟩ := h.loaded 1 (by omega)
      exact ⟨w, hw, hf.full 1 (by omega) w hw _ (by unfold BLOCK_BITS BLOCK_SIZE; omega)⟩

theorem meets_balloc (ho : Opened l) : Meets l .balloc ↔ InReach l .balloc := by
  obtain ⟨n, h⟩ := ho.volume
  have hfirst := h.first
  constructor
  · intro hm i k hf
    obtain ⟨z, hz, hk⟩ := hf.here
    obtain ⟨-, -, hb⟩ := balloc_firstFree h hf hz
    have hin : i < ZMAP_NR := by
      by_contra hi
      rw [h.absent i (Nat.le_trans h.le (Nat.not_lt.mp hi))] at hz
      exact absurd hz (by simp)
    obtain ⟨hna, -, hzone, -⟩ := hm _ _ hb (h.number_ne hin hk.lt)
    have hi : i = 0 := by
      by_contra hi
      exact hna (allocated_number h hf hi)
    subst hi
    refine ⟨rfl, ?_⟩
    have := hzone.1
    unfold State.number State.base at this
    omega
  · intro hr b s' hb hne
    rcases full_or_firstFree h with hfull | ⟨i, k, hf⟩
    · exact absurd (balloc_full h hfull hb).1 hne
    · obtain ⟨rfl, hk0⟩ := hr i k hf
      obtain ⟨z, hz, hk⟩ := hf.here
      obtain ⟨hnum, -, hb'⟩ := balloc_firstFree h hf hz
      rw [hb'] at hb
      simp only [Option.some.injEq, Prod.mk.injEq] at hb
      obtain ⟨rfl, rfl⟩ := hb
      have hsub : l.fs.number 0 k - l.fs.base = k := by
        unfold State.number
        omega
      have hna : ¬ Allocated l.fs (l.fs.number 0 k) := by
        rintro ⟨w, hw, hbit⟩
        rw [hsub, Nat.div_eq_of_lt hk.lt] at hw
        rw [hsub, Nat.mod_eq_of_lt hk.lt] at hbit
        obtain rfl : z = w := by simpa [hz] using hw
        rw [hk.zero] at hbit
        exact absurd hbit (by decide)
      refine ⟨hna, fun hmem => hna (ho.held _ hmem).2, ⟨?_, hnum⟩, fun c hc => ?_⟩
      · unfold State.number State.base
        omega
      · have hcb : c - l.fs.base = 0 * BLOCK_BITS + k ↔ c = l.fs.number 0 k := by
          have := hc.1
          unfold State.number State.base
          omega
        rw [allocated_wrote h hz hk.lt]
        simp only [hcb]
        split_ifs with hck <;> simp [hck]

theorem meets_bfree (ho : Opened l) (hb : b ∈ l.held) :
    Meets l (.bfree b) ↔ InReach l (.bfree b) := by
  obtain ⟨n, h⟩ := ho.volume
  obtain ⟨⟨hge, hlt⟩, z, hz, hbit⟩ := ho.held b hb
  have hfirst := h.first
  have hbase : l.fs.base < b := by
    unfold State.base
    omega
  constructor
  · intro hm _
    obtain ⟨s', hs', -⟩ := hm hb
    by_contra hne
    cases hq : l.fs.sb.zmaps ((b - 1) / BLOCK_BITS) with
    | none =>
      rw [bfree_absent h hlt hq] at hs'
      exact absurd hs' (by simp)
    | some w =>
      rw [bfree_eq h hlt hq] at hs'
      split_ifs at hs' with hc
      obtain ⟨h1, h2, -⟩ := hc
      unfold BLOCK_BITS BLOCK_SIZE at *
      omega
  · intro hr _
    have hq := hr hb
    have hmod : b - ((b - 1) / BLOCK_BITS * BLOCK_BITS + l.fs.base) =
        (b - l.fs.base) % BLOCK_BITS := by
      rw [hq]
      unfold BLOCK_BITS BLOCK_SIZE
      omega
    have hk : (b - l.fs.base) % BLOCK_BITS < BLOCK_BITS := Nat.mod_lt _ (by decide)
    refine ⟨l.fs.wrote z ((l.fs.data z).setBit ((b - l.fs.base) % BLOCK_BITS) false), ?_, ?_⟩
    · rw [bfree_eq h hlt (by rw [hq]; exact hz), hmod, if_pos]
      refine ⟨?_, hk, hbit⟩
      rw [hq]
      unfold BLOCK_BITS BLOCK_SIZE
      omega
    · intro c hc
      have hcb : c - l.fs.base =
          (b - l.fs.base) / BLOCK_BITS * BLOCK_BITS + (b - l.fs.base) % BLOCK_BITS ↔ c = b := by
        have := hc.1
        rw [Nat.div_add_mod']
        unfold State.base at *
        omega
      rw [allocated_wrote h hz hk]
      simp only [hcb]
      split_ifs with hcb' <;> simp [hcb']

theorem step_opened (ho : Opened l) (hr : InReach l a) (hs : Step l a l') : Opened l' := by
  obtain ⟨n, h⟩ := ho.volume
  cases hs with
  | @balloc b s' hb =>
    rcases full_or_firstFree h with hfull | ⟨i, k, hf⟩
    · obtain ⟨rfl, z, rfl⟩ := balloc_full h hfull hb
      have hsame : ∀ b, Allocated (l.fs.cleaned z) b ↔ Allocated l.fs b :=
        fun b => allocated_congr rfl (data_cleaned l.fs z)
      refine ⟨⟨n, h.congr rfl fun i w k hw hk hz => ?_⟩, fun b hb => ?_, ?_⟩
      · rw [data_cleaned]
        exact h.preset i w k hw hk hz
      · rw [if_pos rfl] at hb
        obtain ⟨h1, h2⟩ := ho.held b hb
        exact ⟨h1, (hsame b).mpr h2⟩
      · rw [if_pos rfl]
        exact ho.nodup
    · obtain ⟨z, hz, hk⟩ := hf.here
      obtain ⟨-, -, hb'⟩ := balloc_firstFree h hf hz
      have hm := (meets_balloc ho).mpr hr b s' hb
      rw [hb'] at hb
      simp only [Option.some.injEq, Prod.mk.injEq] at hb
      obtain ⟨rfl, rfl⟩ := hb
      obtain ⟨rfl, -⟩ := hr i k hf
      have hne := h.number_ne (show 0 < ZMAP_NR by decide) hk.lt
      obtain ⟨-, hnotin, hzone, heff⟩ := hm hne
      refine ⟨⟨n, volume_wrote h hz (by simp)⟩, fun c hc => ?_, ?_⟩
      · rw [if_neg hne, List.mem_cons] at hc
        rcases hc with rfl | hc
        · exact ⟨hzone, (heff _ hzone).mpr (Or.inr rfl)⟩
        · obtain ⟨h1, h2⟩ := ho.held c hc
          exact ⟨h1, (heff c h1).mpr (Or.inl h2)⟩
      · rw [if_neg hne]
        exact List.nodup_cons.mpr ⟨hnotin, ho.nodup⟩
  | @bfree b s' hmem hb =>
    obtain ⟨s₁, hb', heff⟩ := (meets_bfree ho hmem).mpr hr hmem
    obtain rfl : s₁ = s' := by simpa [hb'] using hb
    obtain ⟨⟨hge, hlt⟩, z, hz, hbit⟩ := ho.held b hmem
    have hq := hr hmem
    rw [bfree_eq h hlt (by rw [hq]; exact hz)] at hb
    split_ifs at hb with hc
    simp only [Option.some.injEq, Prod.mk.injEq, true_and] at hb
    subst hb
    refine ⟨⟨n, volume_wrote h (by rw [hq]; exact hz : l.fs.sb.zmaps ((b - 1) / BLOCK_BITS) = some z)
      fun _ => ?_⟩, fun c hc' => ?_, ?_⟩
    · omega
    · obtain ⟨hne, hc'⟩ := (ho.nodup.mem_erase_iff).mp hc'
      obtain ⟨h1, h2⟩ := ho.held c hc'
      exact ⟨h1, (heff c h1).mpr ⟨h2, hne⟩⟩
    · exact ho.nodup.erase b

theorem opened_run (h₀ : Opened l₀) (h : Run (Guarded InReach Step) l₀ as l) : Opened l :=
  h.invariant (fun _ _ _ ho hs => step_opened ho hs.1 hs.2) h₀

theorem meets_iff (ho : Opened l) : Meets l a ↔ InReach l a := by
  cases a with
  | balloc => exact meets_balloc ho
  | bfree b =>
    by_cases hb : b ∈ l.held
    · exact meets_bfree ho hb
    · exact ⟨fun _ hb' => absurd hb' hb, fun _ hb' => absurd hb' hb⟩

/-- In every run within reach, the next call does what it has to exactly if it
is within reach too. -/
theorem balloc_bfree_inverse (h₀ : Opened l₀) (h : Run (Guarded InReach Step) l₀ as l) (a : Act) :
    Meets l a ↔ InReach l a := meets_iff (opened_run h₀ h)

/-- A volume whose zone bitmap is in the blocks from 4 on, with these bytes; the
data zones begin at block 10. -/
def volume (zones zmapBlocks : ℕ) (bitmap : ℕ → Bytes) : State where
  cache := {
    data b := bitmap (b - 4)
    count _ := 1
    dirty _ := false
    disk b := bitmap (b - 4) }
  dev := 1
  sb := {
    desc := { inodes := 64, zones := zones, imapBlocks := 2, zmapBlocks := zmapBlocks,
              firstdatazone := 10 }
    imaps i := if i < 2 then some (2 + i) else none
    zmaps i := if i < zmapBlocks then some (4 + i) else none
    inodeList := [] }
  inodeTable _ := { slot := 0, buf := 0, dev := NODEV, nr := 0, count := 0, atime := 0, ctime := 0 }
  fileTable _ := { inode := none, count := 0, offset := 0, flags := 0, mode := 0 }
  tasks _ := { uid := 0, gid := 0, ipwd := 0, iroot := 0, umask := 0, files := fun _ => none }
  running := 0
  clock _ := 0
  ticks := 0

theorem volume_volume {zones : ℕ} {bitmap : ℕ → Bytes} (hn : 1 ≤ n) (hle : n ≤ ZMAP_NR)
    (hz : 10 ≤ zones) (hlt : zones < 2 ^ 16)
    (hp : ∀ i < n, ∀ k < BLOCK_BITS, zones ≤ 9 + (i * BLOCK_BITS + k) → (bitmap i).bit k = true) :
    Volume (volume zones n bitmap) n := by
  refine ⟨hn, hle, fun i hi => ⟨4 + i, if_pos hi⟩, fun i hi => if_neg (Nat.not_lt.mpr hi),
    fun i j z hi hj => ?_, Nat.succ_pos 9, hz, hlt, fun i z k hi hk hge => ?_⟩
  · simp only [volume, Option.ite_none_right_eq_some, Option.some.injEq] at hi hj
    omega
  · simp only [volume, Option.ite_none_right_eq_some, Option.some.injEq] at hi
    obtain ⟨hin, rfl⟩ := hi
    have := hp i hin k hk hge
    rwa [show i = 4 + i - 4 by omega] at this

/-- One bitmap block: bit 0 and the bits past the last of 8000 zones are 1. -/
def oneMap : State := volume 8000 1 fun _ j => if j = 0 then 1 else if j < 998 then 0 else 0xff

/-- Two bitmap blocks for 10000 zones: the first is full. -/
def twoMaps : State := volume 10000 2 fun i j => if i = 1 ∧ j < 224 then 0 else 0xff

theorem ones_bit (k : ℕ) : (0xff#8).getLsbD (k % 8) = true := by
  have : k % 8 < 8 := Nat.mod_lt _ (by decide)
  generalize k % 8 = m at *
  interval_cases m <;> rfl

theorem volume_oneMap : Volume oneMap 1 := by
  refine volume_volume (by decide) (by decide) (by decide) (by decide) fun i hi k hk hge => ?_
  unfold BLOCK_BITS BLOCK_SIZE at hge
  unfold bit
  dsimp only
  rw [if_neg (by omega), if_neg (by omega)]
  exact ones_bit k

theorem volume_twoMaps : Volume twoMaps 2 := by
  refine volume_volume (by decide) (by decide) (by decide) (by decide) fun i hi k hk hge => ?_
  unfold BLOCK_BITS BLOCK_SIZE at hge
  unfold bit
  dsimp only
  rw [if_neg (by omega)]
  exact ones_bit k

theorem firstFree_oneMap : FirstFree oneMap 0 1 := by
  refine ⟨⟨4, rfl, by decide, by decide, fun t ht => ?_⟩, fun j hj => absurd hj (Nat.not_lt_zero j)⟩
  obtain rfl : t = 0 := by omega
  decide

theorem firstFree_twoMaps : FirstFree twoMaps 1 0 := by
  refine ⟨⟨5, rfl, by decide, by decide, fun t ht => absurd ht (Nat.not_lt_zero t)⟩,
    fun j hj z hz t _ => ?_⟩
  obtain rfl : j = 0 := by omega
  obtain rfl : 4 = z := by simpa [twoMaps, volume] using hz
  exact ones_bit t

/-- Block 10 is handed out and may be freed. -/
theorem balloc_bfree_inverse_oneMap :
    ∃ l, Run (Guarded InReach Step) ⟨oneMap, []⟩ [.balloc] l ∧ l.held = [10] ∧
      Meets l (.bfree 10) := by
  have ho : Opened ⟨oneMap, []⟩ := ⟨⟨1, volume_oneMap⟩, by simp, List.nodup_nil⟩
  have hr : InReach ⟨oneMap, []⟩ .balloc := by
    intro i k hf
    obtain ⟨z, hz, hk⟩ := hf.here
    obtain rfl : i = 0 := by
      simp only [oneMap, volume, Option.ite_none_right_eq_some] at hz
      omega
    refine ⟨rfl, Nat.pos_of_ne_zero ?_⟩
    rintro rfl
    obtain rfl : 4 = z := by simpa [oneMap, volume] using hz
    exact absurd hk.zero (by decide)
  obtain ⟨-, -, hb⟩ := balloc_firstFree volume_oneMap firstFree_oneMap (z := 4) rfl
  have hstep : Guarded InReach Step ⟨oneMap, []⟩ .balloc _ := ⟨hr, Step.balloc hb⟩
  have hrun := Run.single hstep
  exact ⟨_, hrun, rfl, (balloc_bfree_inverse ho hrun (.bfree 10)).mpr fun _ => by decide⟩

/-- With the first bitmap block full, `balloc` returns block 1033, which is in use. -/
theorem balloc_twice :
    ¬ ∀ (l₀ l : Ledger) (as : List Act), Opened l₀ → Run Step l₀ as l → ∀ a, Meets l a := by
  intro hall
  have ho : Opened ⟨twoMaps, []⟩ := ⟨⟨2, volume_twoMaps⟩, by simp, List.nodup_nil⟩
  have hm := (meets_balloc ho).mp (hall _ _ [] ho Run.nil .balloc)
  exact absurd (hm 1 0 firstFree_twoMaps).1 (by decide)

end Onix.Fs
