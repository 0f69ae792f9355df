import Onix.Sanity.BitmapScan
import Onix.Spec.Bmap

/-! What `balloc` and `bfree` return and change, computed on a mounted volume. -/

namespace Onix.Fs

open Function Prog Bytes

variable {s s₁ : State} {n i j k b c : ℕ}

theorem setData_self (s : State) (b : ℕ) : s.setData b (s.data b) = s := by
  simp [State.setData, State.data, Cache.put]

@[simp] theorem data_setData (s : State) (b : ℕ) (d : Block) :
    (s.setData b d).data = update s.data b d := rfl

@[simp] theorem data_setDirty (s : State) (b : ℕ) : (s.setDirty b).data = s.data := rfl

/-- Block `b` is written out if it is dirty. -/
def State.cleaned (s : State) (b : ℕ) : State := { s with cache := s.cache.clean b }

@[simp] theorem data_cleaned (s : State) (b : ℕ) : (s.cleaned b).data = s.data := by
  unfold State.cleaned State.data
  simp

@[simp] theorem sb_cleaned (s : State) (b : ℕ) : (s.cleaned b).sb = s.sb := rfl

/-- Block `b` gets the data `d`, is marked dirty and written out. -/
def State.wrote (s : State) (b : ℕ) (d : Block) : State :=
  { s with cache := ((s.cache.put b d).mark b).clean b }

@[simp] theorem data_wrote (s : State) (b : ℕ) (d : Block) :
    (s.wrote b d).data = update s.data b d := by
  unfold State.wrote State.data
  simp

@[simp] theorem sb_wrote (s : State) (b : ℕ) (d : Block) : (s.wrote b d).sb = s.sb := rfl

@[simp] theorem dev_wrote (s : State) (b : ℕ) (d : Block) : (s.wrote b d).dev = s.dev := rfl

/-- The block number of bit 0 of the zone bitmap. -/
def State.base (s : State) : ℕ := s.sb.desc.firstdatazone - 1

/-- A superblock with `n` zone bitmap blocks in distinct buffers; the bits that
stand for no zone are 1. -/
structure Volume (s : State) (n : ℕ) : Prop where
  pos : 1 ≤ n
  le : n ≤ ZMAP_NR
  loaded : ∀ i < n, ∃ z, s.sb.zmaps i = some z
  absent : ∀ i, n ≤ i → s.sb.zmaps i = none
  distinct : ∀ i j z, s.sb.zmaps i = some z → s.sb.zmaps j = some z → i = j
  first : 0 < s.sb.desc.firstdatazone
  zones : s.sb.desc.firstdatazone ≤ s.sb.desc.zones
  zones_lt : s.sb.desc.zones < 2 ^ 16
  preset : ∀ i z k, s.sb.zmaps i = some z → k < BLOCK_BITS →
    s.sb.desc.zones ≤ s.base + (i * BLOCK_BITS + k) → (s.data z).bit k = true

/-- The bitmap blocks before `i` are full and bit `k` is the first 0 of block `i`. -/
structure FirstFree (s : State) (i k : ℕ) : Prop where
  here : ∃ z, s.sb.zmaps i = some z ∧ (s.data z).FirstZero BLOCK_BITS k
  full : ∀ j < i, ∀ z, s.sb.zmaps j = some z → (s.data z).Full BLOCK_BITS

/-- The number that `balloc` gives to bit `k` of bitmap block `i`. -/
def State.number (s : State) (i k : ℕ) : ℕ := i * BLOCK_SIZE + s.base + k

theorem Volume.offset (h : Volume s n) (hi : i < ZMAP_NR) :
    ballocOffset s.sb i = i * BLOCK_SIZE + s.base := by
  have := h.zones_lt
  have := h.zones
  have := h.first
  unfold ZMAP_NR at hi
  unfold ballocOffset State.base BLOCK_SIZE
  rw [sub32_of_le (by omega)]
  omega

theorem Volume.fits (h : Volume s n) (hi : i < ZMAP_NR) (d : Block) :
    (bitmapMake d BLOCK_SIZE BLOCK_SIZE (i * BLOCK_SIZE + s.base)).Fits := by
  have := h.zones_lt
  have := h.zones
  unfold ZMAP_NR at hi
  unfold bitmapMake State.base BLOCK_SIZE
  exact ⟨Nat.le_refl _, by dsimp only; omega⟩

theorem Volume.number_ne (h : Volume s n) (hi : i < ZMAP_NR) (hk : k < BLOCK_BITS) :
    s.number i k ≠ EOF := by
  have := h.zones_lt
  have := h.zones
  unfold ZMAP_NR at hi
  unfold BLOCK_BITS BLOCK_SIZE at hk
  unfold State.number State.base EOF BLOCK_SIZE
  omega

/-- The loop of `balloc` from block `j`. -/
theorem scanMaps_eq (h : Volume s n) (hf : FirstFree s i k) (m : ℕ) (hm : j + m = ZMAP_NR)
    (hji : j ≤ i) (buf : Option ℕ) {z : ℕ} (hz : s.sb.zmaps i = some z) :
    scanMaps s.sb.zmaps BLOCK_SIZE (ballocOffset s.sb) s.sb.desc.zones m j buf s =
    if s.number i k < s.sb.desc.zones then
      some ((some z, s.number i k), (s.setData z ((s.data z).setBit k true)).setDirty z)
    else none := by
  have hin : i < n := by
    by_contra hn
    rw [h.absent i (by omega)] at hz
    exact absurd hz (by simp)
  have hn := h.le
  induction m generalizing j buf with
  | zero => omega
  | succ m ih =>
    obtain ⟨zj, hzj⟩ := h.loaded j (by omega)
    rw [scanMaps]
    rw [hzj]
    dsimp only
    rw [peek_bind]
    have hfits := h.fits (show j < ZMAP_NR by omega) (s.data zj)
    rw [h.offset (show j < ZMAP_NR by omega)]
    rcases Nat.lt_or_eq_of_le hji with hlt | rfl
    · have hfull := hf.full j hlt zj hzj
      have hscan := bitmapScan_full hfits hfull
      rw [lift_bind hscan]
      dsimp only
      rw [poke_bind]
      simp only [ne_eq, not_true_eq_false, if_false]
      have hself : s.setData zj (bitmapMake (s.data zj) BLOCK_SIZE BLOCK_SIZE
          (j * BLOCK_SIZE + s.base)).bits = s := setData_self s zj
      rw [hself]
      exact ih (by omega) (by omega) _
    · obtain rfl : z = zj := by simpa [hz] using hzj
      obtain ⟨z', hz', hk⟩ := hf.here
      obtain rfl : z = z' := by simpa [hz] using hz'
      have hscan : bitmapScan (bitmapMake (s.data z) BLOCK_SIZE BLOCK_SIZE
          (j * BLOCK_SIZE + s.base)) 1 =
          some (s.number j k, bitmapMake ((s.data z).setBit k true) BLOCK_SIZE BLOCK_SIZE
            (j * BLOCK_SIZE + s.base)) := by
        rw [bitmapScan_one hfits hk, bitmapMake, State.number, Nat.add_comm k]
        rfl
      have hne := h.number_ne (show j < ZMAP_NR by omega) hk.lt
      rw [lift_bind hscan]
      dsimp only
      rw [poke_bind, if_pos hne]
      dsimp only [bitmapMake]
      by_cases hlt : s.number j k < s.sb.desc.zones
      · rw [if_pos hlt, assert_bind (by simpa using hlt)]
        rfl
      · rw [if_neg hlt]
        exact assert_bind_none (by simpa using hlt)

/-- The loop of `balloc` from block `j` where no bitmap block has a 0. -/
theorem scanMaps_full (h : Volume s n)
    (hf : ∀ i z, s.sb.zmaps i = some z → (s.data z).Full BLOCK_BITS) (m : ℕ) (hm : j + m = ZMAP_NR)
    (hj : j ≤ n) (buf : Option ℕ) :
    scanMaps s.sb.zmaps BLOCK_SIZE (ballocOffset s.sb) s.sb.desc.zones m j buf s =
    if n = ZMAP_NR then
      some ((if m = 0 then buf else s.sb.zmaps (ZMAP_NR - 1), EOF), s)
    else none := by
  induction m generalizing j buf with
  | zero =>
    have := h.le
    rw [scanMaps, if_pos (by omega), if_pos rfl]
    rfl
  | succ m ih =>
    rw [scanMaps]
    rcases Nat.lt_or_eq_of_le hj with hlt | rfl
    · obtain ⟨z, hz⟩ := h.loaded j hlt
      have hscan := bitmapScan_full (h.fits (show j < ZMAP_NR by omega) (s.data z)) (hf j z hz)
      have hself : s.setData z (bitmapMake (s.data z) BLOCK_SIZE BLOCK_SIZE
          (j * BLOCK_SIZE + s.base)).bits = s := setData_self s z
      rw [hz]
      dsimp only
      rw [peek_bind, h.offset (show j < ZMAP_NR by omega), lift_bind hscan]
      dsimp only
      have hlast : (if m = 0 then some z else s.sb.zmaps (ZMAP_NR - 1)) =
          if m + 1 = 0 then buf else s.sb.zmaps (ZMAP_NR - 1) := by
        rw [if_neg (Nat.succ_ne_zero m)]
        by_cases hm0 : m = 0
        · rw [if_pos hm0, show ZMAP_NR - 1 = j by omega, hz]
        · rw [if_neg hm0]
      rw [poke_bind, if_neg (by simp), hself, ih (by omega) (by omega), hlast]
    · rw [h.absent j (Nat.le_refl _), if_neg (by omega)]
      rfl

theorem balloc_full (h : Volume s n)
    (hf : ∀ i z, s.sb.zmaps i = some z → (s.data z).Full BLOCK_BITS)
    (hb : balloc s.dev s = some (b, s₁)) :
    b = EOF ∧ ∃ z, s₁ = s.cleaned z := by
  unfold balloc getSuper at hb
  simp only [bind_assoc, peek_bind] at hb
  rw [assert_bind (by simp)] at hb
  simp only [peek_bind] at hb
  obtain ⟨⟨buf, bit⟩, s₂, hscan, hb⟩ := bind_eq_some.mp hb
  rw [scanMaps_full h hf ZMAP_NR (Nat.zero_add _) (Nat.zero_le n) none] at hscan
  split_ifs at hscan with hn h0
  · exact absurd h0 (by decide)
  · obtain ⟨z, hz⟩ := h.loaded (ZMAP_NR - 1) (by rw [hn]; decide)
    simp only [hz, Option.some.injEq, Prod.mk.injEq] at hscan
    obtain ⟨⟨rfl, rfl⟩, rfl⟩ := hscan
    have hb : some (EOF, s.cleaned z) = some (b, s₁) := hb
    simp only [Option.some.injEq, Prod.mk.injEq] at hb
    exact ⟨hb.1.symm, z, hb.2.symm⟩

/-- Where some bitmap block has a 0, `balloc` takes the first one. -/
theorem balloc_eq (h : Volume s n) (hf : FirstFree s i k) {z : ℕ} (hz : s.sb.zmaps i = some z) :
    balloc s.dev s =
      if s.number i k < s.sb.desc.zones then
        some (s.number i k, s.wrote z ((s.data z).setBit k true))
      else none := by
  unfold balloc getSuper
  have hscan := scanMaps_eq h hf ZMAP_NR (Nat.zero_add _) (Nat.zero_le i) none hz
  by_cases hlt : s.number i k < s.sb.desc.zones
  · rw [if_pos hlt] at hscan ⊢
    simp only [bind_assoc, peek_bind]
    rw [assert_bind (by simp)]
    simp only [peek_bind]
    rw [bind_of_eq hscan]
    rfl
  · rw [if_neg hlt] at hscan ⊢
    simp only [bind_assoc, peek_bind]
    rw [assert_bind (by simp)]
    simp only [peek_bind]
    exact bind_of_none hscan

/-- The loop of `bfree` skips to the bitmap block it clears the bit in. -/
theorem clearMaps_skip (maps : ℕ → Option ℕ) (length : ℕ) (offset : ℕ → ℕ) (m : ℕ)
    (hm : j + m = ZMAP_NR) (hj : j ≤ (b - 1) / BLOCK_BITS) (hb : (b - 1) / BLOCK_BITS < ZMAP_NR) :
    clearMaps maps length offset b m j =
      clearMaps maps length offset b (ZMAP_NR - (b - 1) / BLOCK_BITS) ((b - 1) / BLOCK_BITS) := by
  induction m generalizing j with
  | zero => omega
  | succ m ih =>
    rcases Nat.lt_or_eq_of_le hj with hlt | rfl
    · rw [clearMaps, if_pos]
      · exact ih (by omega) (by omega)
      · have : (j + 1) * BLOCK_BITS ≤ b - 1 := Nat.mul_le_of_le_div _ _ _ hlt
        have : 0 < b := by
          by_contra h0
          simp [Nat.le_zero.mp (Nat.not_lt.mp h0)] at hlt
        rw [Nat.mul_comm]
        omega
    · congr 1
      omega

theorem Volume.bfreeOffset_eq (h : Volume s n) :
    bfreeOffset s.sb i = i * BLOCK_BITS + s.base := by
  have := h.first
  unfold bfreeOffset State.base
  rw [sub32_of_le (by omega), Nat.mul_comm]
  omega

theorem zone_set {d : Block} {o : ℕ}
    (h : o ≤ b ∧ b - o < BLOCK_BITS ∧ d.bit (b - o) = true) :
    bitmapTest (bitmapMake d BLOCK_SIZE BLOCK_SIZE o) b = some true ∧
    bitmapSet (bitmapMake d BLOCK_SIZE BLOCK_SIZE o) b false =
      some (bitmapMake (d.setBit (b - o) false) BLOCK_SIZE BLOCK_SIZE o) := by
  obtain ⟨ho, hlt, hbit⟩ := h
  unfold BLOCK_BITS at hlt
  unfold bitmapTest bitmapSet bitmapMake
  dsimp only
  have hsize : ¬ BLOCK_SIZE ≤ (b - o) / 8 := by omega
  rw [if_neg (by omega), if_neg (by omega), if_neg (by omega), if_neg hsize, hbit]
  exact ⟨rfl, rfl⟩

theorem zone_test {d : Block} {o : ℕ}
    (h : bitmapTest (bitmapMake d BLOCK_SIZE BLOCK_SIZE o) b = some true) :
    o ≤ b ∧ b - o < BLOCK_BITS ∧ d.bit (b - o) = true := by
  unfold bitmapTest bitmapMake at h
  dsimp only at h
  split_ifs at h with ho hlt
  unfold BLOCK_BITS
  exact ⟨by omega, by omega, Option.some.inj h⟩

/-- `bfree` comes to bitmap block `(b - 1) / BLOCK_BITS`. -/
theorem bfree_reach (h : Volume s n) (hb : b < s.sb.desc.zones) :
    ∃ m, bfree s.dev b s =
      (clearMaps s.sb.zmaps BLOCK_SIZE (bfreeOffset s.sb) b (m + 1) ((b - 1) / BLOCK_BITS) >>=
        bwrite) s := by
  have hlt : (b - 1) / BLOCK_BITS < ZMAP_NR := by
    have := h.zones_lt
    unfold BLOCK_BITS BLOCK_SIZE ZMAP_NR
    omega
  obtain ⟨m, hm⟩ : ∃ m, ZMAP_NR - (b - 1) / BLOCK_BITS = m + 1 :=
    ⟨ZMAP_NR - (b - 1) / BLOCK_BITS - 1, by omega⟩
  refine ⟨m, ?_⟩
  unfold bfree getSuper
  simp only [bind_assoc, peek_bind]
  rw [assert_bind (by simp)]
  simp only [peek_bind]
  rw [assert_bind (by simpa using hb),
    clearMaps_skip s.sb.zmaps BLOCK_SIZE (bfreeOffset s.sb) ZMAP_NR (Nat.zero_add _)
      (Nat.zero_le _) hlt, hm]

theorem not_skip (b : ℕ) : ¬ b > BLOCK_BITS * ((b - 1) / BLOCK_BITS + 1) := by
  unfold BLOCK_BITS BLOCK_SIZE
  omega

theorem bfree_absent (h : Volume s n) (hb : b < s.sb.desc.zones)
    (hz : s.sb.zmaps ((b - 1) / BLOCK_BITS) = none) : bfree s.dev b s = none := by
  obtain ⟨m, hm⟩ := bfree_reach h hb
  rw [hm, clearMaps, if_neg (not_skip b), hz]
  rfl

/-- The call of `bfree` for a zone, after the search for its bitmap block. -/
theorem bfree_eq (h : Volume s n) (hb : b < s.sb.desc.zones) {z : ℕ}
    (hz : s.sb.zmaps ((b - 1) / BLOCK_BITS) = some z) :
    bfree s.dev b s =
      if (b - 1) / BLOCK_BITS * BLOCK_BITS + s.base ≤ b ∧
          b - ((b - 1) / BLOCK_BITS * BLOCK_BITS + s.base) < BLOCK_BITS ∧
          (s.data z).bit (b - ((b - 1) / BLOCK_BITS * BLOCK_BITS + s.base)) = true then
        some ((), s.wrote z ((s.data z).setBit
          (b - ((b - 1) / BLOCK_BITS * BLOCK_BITS + s.base)) false))
      else none := by
  obtain ⟨m, hm⟩ := bfree_reach h hb
  rw [hm, clearMaps, if_neg (not_skip b), hz, h.bfreeOffset_eq]
  dsimp only
  simp only [bind_assoc, peek_bind]
  generalize (b - 1) / BLOCK_BITS * BLOCK_BITS + s.base = o
  by_cases hc : o ≤ b ∧ b - o < BLOCK_BITS ∧ (s.data z).bit (b - o) = true
  · obtain ⟨htest, hset⟩ := zone_set hc
    rw [if_pos hc, lift_bind htest, assert_bind rfl, lift_bind hset]
    rfl
  · rw [if_neg hc]
    cases htest : bitmapTest (bitmapMake (s.data z) BLOCK_SIZE BLOCK_SIZE o) b with
    | none => exact bind_of_none (by rw [lift]; rfl)
    | some v =>
      rw [lift_bind rfl]
      cases v with
      | true => exact absurd (zone_test htest) hc
      | false => exact assert_bind_none rfl

end Onix.Fs
