import Onix.Proofs.NoSpace
import Onix.Sanity.ForestRun

/-! The blocks of a volume under any run of system calls: each belongs to one place of one file, and
the zone bitmap shows just those that do. -/

namespace Onix.Fs

open Function Prog Bytes Cstr

variable {s t : State} {i j k l x b : ℕ} {p : List ℕ} {as : List (ℕ × SysCall)}

section Mounted

variable (m : Image)

theorem mount_isMap (h : IsMap m.mount b) : b = 3 := by
  obtain ⟨i, hi⟩ := h
  exact (mount_map m i b hi).2

theorem mount_descBuf : m.mount.descBuf x = 4 + sub32 x 1 / BLOCK_INODES := rfl

/-- The descriptors are in block 4, that of number 0 beyond the disk. -/
theorem mount_desc (hx : x ≤ BLOCK_INODES) : m.mount.descBuf x = 4 ∨ 64 ≤ m.mount.descBuf x := by
  rw [mount_descBuf]
  unfold BLOCK_INODES BLOCK_SIZE DESC_SIZE sub32 at *
  split_ifs <;> omega

theorem mount_sited : Sited m.mount where
  volume := mount_volume m
  low z hz := by
    rw [mount_isMap m hz]
    exact Nat.lt_succ_self 3
  inodes := (by decide : BLOCK_INODES < 2 ^ 16)
  imaps i b hb := by
    obtain rfl : 2 = b := by
      have himap : (if i = 0 then some 2 else none) = some b := hb
      split_ifs at himap
      exact Option.some.inj himap
    refine ⟨fun h => absurd (mount_isMap m h) (by decide), fun h => absurd h.1 (by decide : ¬ 5 ≤ 2), fun x hx => ?_⟩
    have hdesc := mount_desc m hx
    omega
  desc x hx := by
    have hdesc := mount_desc m hx
    refine ⟨fun h => ?_, fun h => ?_⟩
    · have hmap := mount_isMap m h
      omega
    · have hge : 5 ≤ m.mount.descBuf x := h.1
      have hlt : m.mount.descBuf x < 64 := h.2
      omega

theorem mount_allocated (h : IsZone m.mount b) : Allocated m.mount b ↔ b < 5 + m.blocks.length := by
  have hge : 5 ≤ b := h.1
  have hlt : b < 64 := h.2
  have hmod : (b - 4) % BLOCK_BITS = b - 4 := Nat.mod_eq_of_lt (by unfold BLOCK_BITS BLOCK_SIZE; omega)
  have hdata : m.mount.data 3 = bitmapOf fun k => k ≤ m.blocks.length ∨ 64 ≤ 4 + k := rfl
  have hbit : ((m.mount.data 3).bit ((b - 4) % BLOCK_BITS) = true) ↔ b < 5 + m.blocks.length := by
    rw [hdata, bitmapOf_bit, hmod, decide_eq_true_iff]
    omega
  rw [← hbit]
  constructor
  · rintro ⟨z, hz, hset⟩
    rw [(mount_map m _ z hz).2] at hset
    exact hset
  · intro hset
    refine ⟨3, ?_, hset⟩
    have hdiv : (b - 4) / BLOCK_BITS = 0 := Nat.div_eq_of_lt (by unfold BLOCK_BITS BLOCK_SIZE; omega)
    show m.mount.sb.zmaps ((b - 4) / BLOCK_BITS) = some 3
    rw [hdiv]
    rfl

theorem mount_seats : Seats m.mount := by
  have hroot : Sits m.mount 0 := ⟨1, (by decide : 1 ≤ BLOCK_INODES), rfl, rfl⟩
  refine ⟨fun i hi => ?_, fun _ => hroot, fun _ => hroot, fun _ _ h => nomatch h⟩
  obtain rfl : i = 0 := List.mem_singleton.mp hi
  exact hroot

/-- Where the cells of index blocks are 0 a file has only direct blocks. -/
theorem node_direct {buf addr : ℕ} (h7 : s.cell buf addr DIRECT_BLOCK = 0)
    (h8 : s.cell buf addr (DIRECT_BLOCK + 1) = 0) (hp : Way p) (hb : s.node buf addr p = some b) :
    ∃ z < DIRECT_BLOCK, p = [z] ∧ s.cell buf addr z = b ∧ b ≠ 0 := by
  obtain ⟨z, q, rfl, hz, hlen, -⟩ := hp
  by_cases h0 : s.cell buf addr z = 0
  · rw [node_zero h0] at hb
    cases hb
  have hlt : z < DIRECT_BLOCK := by
    by_contra hge
    obtain rfl | rfl : z = DIRECT_BLOCK ∨ z = DIRECT_BLOCK + 1 := by
      unfold ZONE_NR at hz
      omega
    · exact h0 h7
    · exact h0 h8
  rw [depth_direct hlt] at hlen
  obtain rfl : q = [] := List.length_eq_zero_iff.mp (by omega)
  rw [node_cons h0] at hb
  exact ⟨z, hlt, rfl, Option.some.inj hb, fun hb0 => h0 ((Option.some.inj hb).trans hb0)⟩

/-- The zones of the files, all of them direct: `f x z` is `zone[z]` of inode number `x`. -/
structure Image.Direct (f : ℕ → ℕ → ℕ) : Prop where
  cells : ∀ x ≤ BLOCK_INODES, ∀ z < ZONE_NR,
    m.mount.cell (m.mount.descBuf x) (descAddr x + 14) z = f x z
  index : ∀ x, f x DIRECT_BLOCK = 0 ∧ f x (DIRECT_BLOCK + 1) = 0
  zone : ∀ x z, f x z ≠ 0 → 5 ≤ f x z ∧ f x z < 5 + m.blocks.length
  once : ∀ x y z w, f x z ≠ 0 → f x z = f y w → x = y ∧ z = w
  blocks : m.blocks.length < 60
  owned : ∀ i < m.blocks.length, ∃ x ≤ BLOCK_INODES, ∃ z < DIRECT_BLOCK, f x z = 5 + i

variable {m} {f : ℕ → ℕ → ℕ}

theorem Image.Direct.node (h : m.Direct f) (hx : x ≤ BLOCK_INODES) (hp : Way p)
    (hb : m.mount.nodeNr x p = some b) : ∃ z < DIRECT_BLOCK, p = [z] ∧ f x z = b ∧ b ≠ 0 := by
  obtain ⟨z, hz, rfl, hc, h0⟩ := node_direct ((h.cells x hx _ (by decide)).trans (h.index x).1)
    ((h.cells x hx _ (by decide)).trans (h.index x).2) hp hb
  rw [h.cells x hx z (by unfold ZONE_NR; omega)] at hc
  exact ⟨z, hz, rfl, hc, h0⟩

theorem Image.Direct.consistent (h : m.Direct f) : Consistent m.mount where
  trees := {
    sited := mount_sited m
    first := by
      have hself : m.mount.base - m.mount.base = 0 := Nat.sub_self _
      refine ⟨3, by rw [hself]; rfl, ?_⟩
      rw [hself]
      have hdata : m.mount.data 3 = bitmapOf fun k => k ≤ m.blocks.length ∨ 64 ≤ 4 + k := rfl
      rw [hdata, bitmapOf_bit]
      exact decide_eq_true (.inl (Nat.zero_le _))
    zone := by
      intro x hx p b hp hb
      obtain ⟨z, -, -, rfl, h0⟩ := h.node hx hp hb
      obtain ⟨hge, hlt⟩ := h.zone x z h0
      have hlen := h.blocks
      have hzone : IsZone m.mount (f x z) := ⟨hge, Nat.lt_of_lt_of_le hlt (by change _ ≤ 64; omega)⟩
      exact ⟨hzone, (mount_allocated m hzone).mpr hlt⟩
    once := by
      intro x hx y hy p q b hp hq hb hc
      obtain ⟨z, -, rfl, hz, h0⟩ := h.node hx hp hb
      obtain ⟨w, -, rfl, hw, -⟩ := h.node hy hq hc
      obtain ⟨rfl, rfl⟩ := h.once x y z w (by rw [hz]; exact h0) (hz.trans hw.symm)
      exact ⟨rfl, rfl⟩ }
  seats := mount_seats m

theorem Image.Direct.tight (h : m.Direct f) : Tight m.mount := by
  intro b hb ha
  have hge : 5 ≤ b := hb.1
  have hlt := (mount_allocated m hb).mp ha
  obtain ⟨x, hx, z, hz, hf⟩ := h.owned (b - 5) (by omega)
  refine ⟨x, hx, [z], ⟨z, [], rfl, by unfold ZONE_NR; omega, Nat.zero_le _, List.forall_mem_nil _⟩, ?_⟩
  have hcell := h.cells x hx z (by unfold ZONE_NR; omega)
  have hfb : f x z = b := by omega
  rw [hfb] at hcell
  have h0 : m.mount.cell (m.mount.descBuf x) (descAddr x + 14) z ≠ 0 := by
    rw [hcell]
    omega
  unfold State.nodeNr
  rw [node_cons h0, hcell]
  rfl

end Mounted

section Example

end Example

end Onix.Fs
