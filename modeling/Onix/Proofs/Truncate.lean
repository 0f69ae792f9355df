import Onix.Proofs.Cells
import Onix.Proofs.NoSpace
import Onix.Proofs.Zones
import Onix.Sanity.TruncateSpec

/-! `inode_truncate` frees every block of the tree once, each index block after it has read it,
and leaves a file that `bmap` finds nothing in. -/

namespace Onix.Fs

open Function Prog Bytes

variable {s t u v : State} {inode level index i j k n b c m : ℕ} {p q : List ℕ}
  {l l' : List BlockCall}

/-- No block is twice in the tree of the index blocks and the blocks of the file. -/
def State.Unshared (s : State) (inode : ℕ) : Prop := ∀ p q b, Way p → Way q →
  s.nodeOf inode p = some b → s.nodeOf inode q = some b → p = q

/-- The descriptor of the inode is in its block, and the zone bitmap neither there nor in the
data zones. -/
structure Laid (s : State) (inode : ℕ) : Prop where
  slot : (s.inodeTable inode).slot < BLOCK_INODES
  low : ∀ z, IsMap s z → z < s.base
  apart : ¬ IsMap s (s.ibuf inode)

section Clear

theorem way_one (hi : i < ZONE_NR) : Way [i] :=
  ⟨i, [], rfl, hi, Nat.zero_le _, List.forall_mem_nil _⟩

/-- The index block that is the block of the inode would lead to its zone array, and so would
have what is below it twice. -/
theorem Laid.root_notMem (h : Laid s inode) (hn : s.Unshared inode) (hi : i < ZONE_NR)
    (hlen : q.length < depth i) (hall : ∀ j ∈ q, j < BLOCK_INDEXES) :
    s.nodeOf inode (i :: q) ≠ some (s.ibuf inode) := by
  intro hnode
  have hfirst : s.nodeOf inode [i] = some (s.cell (s.ibuf inode) (s.izone inode) i) ∧
      s.cell (s.ibuf inode) (s.izone inode) i ≠ 0 := by
    have h0 : s.cell (s.ibuf inode) (s.izone inode) i ≠ 0 := by
      intro h0
      unfold State.nodeOf at hnode
      rw [node_zero h0] at hnode
      cases hnode
    exact ⟨node_cons h0 [], h0⟩
  have hslot := h.slot
  have hat : s.cell (s.ibuf inode) 0 (16 * (s.inodeTable inode).slot + DIRECT_BLOCK + i) =
      s.cell (s.ibuf inode) (s.izone inode) i := by
    unfold State.cell State.izone State.idesc DESC_SIZE DIRECT_BLOCK
    congr 1
    omega
  have hlast : s.nodeOf inode (i :: q ++ [16 * (s.inodeTable inode).slot + DIRECT_BLOCK + i]) =
      some (s.cell (s.ibuf inode) (s.izone inode) i) := by
    unfold State.nodeOf at hnode ⊢
    rw [node_append hnode, node_cons (by rw [hat]; exact hfirst.2), hat]
    rfl
  have hway : Way (i :: q ++ [16 * (s.inodeTable inode).slot + DIRECT_BLOCK + i]) := by
    refine ⟨i, q ++ [_], rfl, hi, ?_, ?_⟩
    · rw [List.length_append]
      exact hlen
    · intro j hj
      cases List.mem_append.mp hj with
      | inl hj => exact hall j hj
      | inr hj =>
      rw [List.mem_singleton.mp hj]
      unfold BLOCK_INODES BLOCK_SIZE DESC_SIZE at hslot
      unfold ZONE_NR DIRECT_BLOCK at hi
      unfold BLOCK_INDEXES BLOCK_SIZE DIRECT_BLOCK
      omega
  have heq := congrArg List.length (hn _ _ _ hway (way_one hi) hlast hfirst.1)
  simp at heq

/-- The blocks that may change: those of the zone bitmap and that of the inode. -/
def changing (s : State) (inode : ℕ) : Set ℕ := {c | IsMap s c ∨ c = s.ibuf inode}

theorem Laid.clear (h : Laid s inode) (hn : s.Unshared inode) (hi : i < ZONE_NR) :
    Clear s (changing s inode) (s.calls (depth i) (s.ibuf inode) (s.izone inode) i) := by
  intro b hb hbase hmem
  obtain ⟨q, hlen, hall, hq⟩ := mem_calls_bread hb
  cases hmem with
  | inl hmap => exact absurd (h.low b hmap) (Nat.not_lt.mpr hbase)
  | inr hroot =>
    rw [hroot] at hq
    exact h.root_notMem hn hi hlen hall hq

end Clear

section Zones

/-- The zones before `i` have been freed. -/
structure Cut (s : State) (inode i : ℕ) (u : State) : Prop where
  same : Same s u
  data : ∀ c, c ∉ changing s inode → u.data c = s.data c
  zero : ∀ j < i, u.cell (s.ibuf inode) (s.izone inode) j = 0
  rest : ∀ j, i ≤ j → u.cell (s.ibuf inode) (s.izone inode) j = s.cell (s.ibuf inode) (s.izone inode) j

theorem cut_start : Cut s inode 0 s :=
  ⟨refl_of Same s, fun _ _ => rfl, fun _ hj => absurd hj (Nat.not_lt_zero _), fun _ _ => rfl⟩

theorem ibuf_same (h : Same s u) (inode : ℕ) : u.ibuf inode = s.ibuf inode := by
  unfold State.ibuf
  rw [h.inodeTable]

theorem izone_same (h : Same s u) (inode : ℕ) : u.izone inode = s.izone inode := by
  unfold State.izone State.idesc
  rw [h.inodeTable]

/-- After `inode_bfree` the zone is set to 0. -/
theorem Cut.cleared (h : Cut s inode i u) (hb : ¬ IsMap s (s.ibuf inode)) (hs : Swept u v) :
    Cut s inode (i + 1) (v.setData (s.ibuf inode)
      ((v.data (s.ibuf inode)).wr16 (s.izone inode + 2 * i) 0)) := by
  have hroot : v.data (s.ibuf inode) = u.data (s.ibuf inode) :=
    hs.data _ ((isMap_congr h.same.sb).not.mpr hb)
  have hother : ∀ j, j ≠ i → State.cell (v.setData (s.ibuf inode)
      ((v.data (s.ibuf inode)).wr16 (s.izone inode + 2 * i) 0)) (s.ibuf inode) (s.izone inode) j =
      u.cell (s.ibuf inode) (s.izone inode) j := by
    intro j hj
    unfold State.cell
    rw [data_setData, update_self, rd16_wr16_ne (by omega), hroot]
  refine ⟨?_, fun c hc => ?_, fun j hj => ?_, fun j hj => ?_⟩
  · have hset : Same v (v.setData (s.ibuf inode)
        ((v.data (s.ibuf inode)).wr16 (s.izone inode + 2 * i) 0)) :=
      ⟨rfl, rfl, rfl, rfl, rfl, rfl, rfl⟩
    exact trans_of Same (trans_of Same h.same hs.same) hset
  · have hne : c ≠ s.ibuf inode := fun he => hc (.inr he)
    rw [data_setData, update_of_ne hne,
      hs.data c ((isMap_congr h.same.sb).not.mpr fun hm => hc (.inl hm)), h.data c hc]
  · by_cases hji : j = i
    · unfold State.cell
      rw [hji, data_setData, update_self]
      exact rd16_wr16
    · rw [hother j hji, h.zero j (by omega)]
  · rw [hother j (by omega), h.rest j (by omega)]

/-- `inode_bfree` of one zone. -/
theorem freeZoneNoted_calls (hlaid : Laid s inode) (hn : s.Unshared inode) (hi : i < ZONE_NR)
    (hc : Cut s inode i u) (h : freeZoneNoted inode (depth i) i (u, l) = some ((), (t, l'))) :
    l' = l ++ s.calls (depth i) (s.ibuf inode) (s.izone inode) i ∧ Cut s inode (i + 1) t := by
  unfold freeZoneNoted at h
  rw [still_peek_bind, still_peek_bind] at h
  rw [ibuf_same hc.same, izone_same hc.same] at h
  obtain ⟨⟨⟩, ⟨v, l₁⟩, hfree, hlast⟩ := bind_eq_some.mp h
  obtain ⟨hpoke, rfl⟩ := still_eq_some.mp hlast
  obtain ⟨-, rfl⟩ := Prod.mk.inj (Option.some.inj hpoke)
  have hX : ∀ c, IsMap s c → c ∈ changing s inode := fun c hm => .inl hm
  refine ⟨inodeBfreeNoted_calls hX hc.same.sb hc.data (hc.rest i (Nat.le_refl i)) hlaid.apart
    (hlaid.clear hn hi) hfree, hc.cleared hlaid.apart ?_⟩
  exact inodeBfree_swept _ _ _ _ _ _ _ _ ((inodeBfreeNoted_erases _ _ _ _ _).forget hfree)

/-- The zones that the loop frees lead to no index block. -/
theorem depth_direct (hj : j < DIRECT_BLOCK) : depth j = 0 := by
  unfold depth
  omega

/-- Up to the last zone. -/
theorem zones_calls (hlaid : Laid s inode) (hn : s.Unshared inode)
    (h : (loop (freeZoneNoted inode 0) DIRECT_BLOCK 0 >>= fun _ =>
      freeZoneNoted inode 1 DIRECT_BLOCK >>= fun _ => freeZoneNoted inode 2 (DIRECT_BLOCK + 1))
        (s, l) = some ((), (t, l'))) :
    l' = l ++ s.truncateCalls inode ∧ Cut s inode ZONE_NR t := by
  obtain ⟨⟨⟩, ⟨u, l₁⟩, hloop, k₁⟩ := bind_eq_some.mp h
  obtain ⟨⟨⟩, ⟨v, l₂⟩, hseven, height⟩ := bind_eq_some.mp k₁
  have hdirect := loop_notes (f := fun j => s.calls (depth j) (s.ibuf inode) (s.izone inode) j)
    (Cut s inode) DIRECT_BLOCK 0 (fun j _ hj x y m m' hx hturn => by
      have hd : DIRECT_BLOCK < ZONE_NR := by decide
      rw [← depth_direct (show j < DIRECT_BLOCK by omega)] at hturn
      exact freeZoneNoted_calls hlaid hn (by omega) hx hturn) cut_start hloop
  obtain ⟨rfl, hu⟩ := hdirect
  obtain ⟨rfl, hv⟩ := freeZoneNoted_calls hlaid hn (by decide) hu hseven
  obtain ⟨rfl, ht⟩ := freeZoneNoted_calls hlaid hn (by decide) hv height
  refine ⟨?_, ht⟩
  have hrange : List.range ZONE_NR = List.range' 0 DIRECT_BLOCK ++ [0 + DIRECT_BLOCK] ++
      [0 + DIRECT_BLOCK + 1] := by decide
  unfold State.truncateCalls
  rw [hrange, List.flatMap_append, List.flatMap_append, List.flatMap_singleton,
    List.flatMap_singleton, List.append_assoc, List.append_assoc, List.append_assoc]

end Zones

section Empty

/-- `inode_truncate` ends with size 0 and the zone array as it is. -/
theorem truncated_spec (h : truncated inode v = some ((), t)) : t.size inode = 0 ∧
    t.ibuf inode = v.ibuf inode ∧ t.izone inode = v.izone inode ∧
    ∀ i, t.cell (v.ibuf inode) (v.izone inode) i = v.cell (v.ibuf inode) (v.izone inode) i := by
  unfold truncated at h
  simp only [poke_bind, time_bind, peek_bind, bwrite_some, Option.some.injEq, Prod.mk.injEq,
    true_and] at h
  subst h
  refine ⟨?_, rfl, rfl, fun i => ?_⟩
  · simp only [State.size, State.setSize, State.setMtime, State.dirtyInode, data_cleaned,
      ibuf_cleaned, idesc_cleaned, ibuf_setData, idesc_setData, ibuf_tick, idesc_tick, data_tick,
      ibuf_setDirty, idesc_setDirty, data_setData, data_setDirty, update_self]
    simp (disch := omega) only [rd32_wr32_ne, rd32_wr32]
    rfl
  · simp only [State.cell, State.izone, State.setSize, State.setMtime, State.dirtyInode,
      data_cleaned, ibuf_setData, idesc_setData, ibuf_tick, idesc_tick, data_tick, ibuf_setDirty,
      idesc_setDirty, data_setData, data_setDirty, update_self]
    simp (disch := omega) only [rd16_wr32_ne]

/-- The first cell on the way to a block is one of the zone array. -/
theorem path_zone (k : ℕ) : ∃ i p, path k = i :: p ∧ i < ZONE_NR := by
  have hzones : ZONE_NR = DIRECT_BLOCK + 2 := rfl
  unfold path
  split_ifs
  · exact ⟨k, [], rfl, by omega⟩
  · exact ⟨DIRECT_BLOCK, _, rfl, by omega⟩
  · exact ⟨DIRECT_BLOCK + 1, _, rfl, by omega⟩

/-- A walk that finds the first cell empty goes no further. -/
theorem follow_absent {dev : ℤ} {buf addr : ℕ} (h0 : s.cell buf addr i = 0)
    (hpos : 0 < s.cache.count buf) : ∃ u, follow dev false buf addr (i :: p) s = some (0, u) := by
  obtain ⟨u, hu⟩ : ∃ u, bmapCell dev false buf addr i s = some (s.cell buf addr i, u) :=
    bmapCell_look hpos
  rw [h0] at hu
  refine ⟨u, ?_⟩
  cases p with
  | nil => exact hu
  | cons j p =>
    unfold follow
    rw [bind_of_eq hu, if_pos rfl]
    rfl

/-- Where the zone array is empty `bmap` finds nothing. -/
theorem bmap_absent (h : ∀ i < ZONE_NR, s.cell (s.ibuf inode) (s.izone inode) i = 0)
    (hk : k < TOTAL_BLOCK) : ∃ u, bmap inode k false s = some (0, u) := by
  obtain ⟨i, p, hp, hi⟩ := path_zone k
  have hpos : 0 < (s.cache.hold (s.ibuf inode)).count (s.ibuf inode) := by
    unfold Cache.hold
    dsimp only
    rw [update_self]
    exact Nat.succ_pos _
  rw [bmap_follow hk, hp]
  exact follow_absent (h i hi) hpos

end Empty

section Accepts

/-- `bfree` takes the block. -/
def Accepts (s : State) (b : ℕ) : Prop := ∃ t, bfree s.dev b s = some ((), t)

/-- The number of the first bit of the bitmap block where `bfree` looks for the block. -/
def State.bitBase (s : State) (b : ℕ) : ℕ := (b - 1) / BLOCK_BITS * BLOCK_BITS + s.base

theorem bfree_iff (h : Volume s n) : bfree s.dev b s = some ((), t) ↔
    b < s.sb.desc.zones ∧ ∃ z, s.sb.zmaps ((b - 1) / BLOCK_BITS) = some z ∧
      (s.bitBase b ≤ b ∧ b - s.bitBase b < BLOCK_BITS ∧ (s.data z).bit (b - s.bitBase b) = true) ∧
      t = s.wrote z ((s.data z).setBit (b - s.bitBase b) false) := by
  unfold State.bitBase
  constructor
  · intro hf
    have hb : b < s.sb.desc.zones := by
      unfold bfree at hf
      obtain ⟨sb, u, hu, k₁⟩ := bind_eq_some.mp hf
      obtain ⟨-, rfl, rfl⟩ := getSuper_eq.mp hu
      obtain ⟨⟨⟩, w, hw, -⟩ := bind_eq_some.mp k₁
      simpa using (assert_eq_some.mp hw).1
    refine ⟨hb, ?_⟩
    cases hz : s.sb.zmaps ((b - 1) / BLOCK_BITS) with
    | none =>
      rw [bfree_absent h hb hz] at hf
      cases hf
    | some z =>
      rw [bfree_eq h hb hz] at hf
      split_ifs at hf with hbit
      exact ⟨z, rfl, hbit, (Prod.mk.inj (Option.some.inj hf)).2.symm⟩
  · intro hf
    obtain ⟨hb, z, hz, hbit, rfl⟩ := hf
    rw [bfree_eq h hb hz, if_pos hbit]

theorem accepts_iff (h : Volume s n) : Accepts s b ↔ b < s.sb.desc.zones ∧
    ∃ z, s.sb.zmaps ((b - 1) / BLOCK_BITS) = some z ∧ s.bitBase b ≤ b ∧
      b - s.bitBase b < BLOCK_BITS ∧ (s.data z).bit (b - s.bitBase b) = true := by
  unfold Accepts
  constructor
  · intro hf
    obtain ⟨t, ht⟩ := hf
    obtain ⟨hb, z, hz, hbit, -⟩ := (bfree_iff h).mp ht
    exact ⟨hb, z, hz, hbit⟩
  · intro hf
    obtain ⟨hb, z, hz, hbit⟩ := hf
    exact ⟨_, (bfree_iff h).mpr ⟨hb, z, hz, hbit, rfl⟩⟩

/-- What else is in the blocks is of no account. -/
theorem volume_maps (h : Volume s n) (hsb : t.sb = s.sb)
    (hmaps : ∀ z, IsMap s z → t.data z = s.data z) : Volume t n := by
  apply h.congr hsb
  intro i z k hz hk hge
  rw [hmaps z ⟨i, hz⟩]
  exact h.preset i z k hz hk hge

theorem accepts_maps (h : Volume s n) (hsb : t.sb = s.sb)
    (hmaps : ∀ z, IsMap s z → t.data z = s.data z) (ha : Accepts s b) : Accepts t b := by
  obtain ⟨hb, z, hz, hle, hlt, hbit⟩ := (accepts_iff h).mp ha
  have hbase : t.bitBase b = s.bitBase b := by
    unfold State.bitBase State.base
    rw [hsb]
  apply (accepts_iff (volume_maps h hsb hmaps)).mpr
  rw [hsb, hbase]
  refine ⟨hb, z, hz, hle, hlt, ?_⟩
  rw [hmaps z ⟨_, hz⟩]
  exact hbit

/-- `bfree` clears the bit of its block and no other. -/
theorem bfree_accepts (h : Volume s n) (hf : bfree s.dev b s = some ((), t)) :
    Volume t n ∧ ∀ c, c ≠ b → Accepts s c → Accepts t c := by
  obtain ⟨hb, z, hz, ⟨hle, hlt, -⟩, rfl⟩ := (bfree_iff h).mp hf
  have hvol : Volume (s.wrote z ((s.data z).setBit (b - s.bitBase b) false)) n := by
    apply volume_wrote h hz
    intro _
    unfold State.bitBase at hle ⊢
    omega
  refine ⟨hvol, fun c hne ha => ?_⟩
  obtain ⟨hc, y, hy, hle', hlt', hbit⟩ := (accepts_iff h).mp ha
  apply (accepts_iff hvol).mpr
  refine ⟨hc, y, hy, hle', hlt', ?_⟩
  rw [data_wrote]
  by_cases hyz : y = z
  · subst hyz
    rw [update_self, bit_setBit, if_neg]
    · exact hbit
    · have hsame := h.distinct _ _ _ hy hz
      have hbase : State.bitBase (s.wrote y ((s.data y).setBit (b - s.bitBase b) false)) c =
          s.bitBase b := by
        unfold State.bitBase
        rw [hsame]
        rfl
      have hbase' : s.bitBase c = s.bitBase b := hbase
      rw [hbase'] at hle'
      omega
  · rw [update_of_ne hyz]
    exact hbit

end Accepts

section Returns

/-- The blocks `l` have been freed, and `bfree` still takes the others. -/
structure Left (l : List ℕ) (n : ℕ) (s t : State) : Prop where
  volume : Volume t n
  accepts : ∀ c, c ∉ l → Accepts s c → Accepts t c

theorem Left.maps (h : Volume s n) (hsb : t.sb = s.sb)
    (hmaps : ∀ z, IsMap s z → t.data z = s.data z) : Left [] n s t :=
  ⟨volume_maps h hsb hmaps, fun _ _ => accepts_maps h hsb hmaps⟩

theorem Left.trans {l l' : List ℕ} (h : Left l n s t) (h' : Left l' n t u) :
    Left (l ++ l') n s u where
  volume := h'.volume
  accepts c hc ha := h'.accepts c (fun hm => hc (List.mem_append_right l hm))
    (h.accepts c (fun hm => hc (List.mem_append_left l' hm)) ha)

theorem bfree_left (h : Volume s n) (hf : bfree s.dev b s = some ((), t)) : Left [b] n s t where
  volume := (bfree_accepts h hf).1
  accepts c hc := (bfree_accepts h hf).2 c fun he => hc (List.mem_singleton.mpr he)

/-- `f j` for every `j` in turn frees the blocks `g j`, all of them different and acceptable. -/
theorem loop_left {f : ℕ → Prog State Unit} {g : ℕ → List ℕ} (I : ℕ → State → Prop) (m i : ℕ)
    (hf : ∀ j, i ≤ j → j < i + m → ∀ v, I j v → Volume v n → (∀ c ∈ g j, Accepts v c) →
      ∃ w, f j v = some ((), w) ∧ I (j + 1) w ∧ Left (g j) n v w)
    (hs : I i s) (hvol : Volume s n)
    (hnodup : ((List.range' i m).flatMap g).Nodup)
    (hacc : ∀ c ∈ (List.range' i m).flatMap g, Accepts s c) :
    ∃ t, loop f m i s = some ((), t) ∧ I (i + m) t ∧ Left ((List.range' i m).flatMap g) n s t := by
  induction m generalizing i s with
  | zero => exact ⟨s, rfl, hs, hvol, fun _ _ => id⟩
  | succ m ih =>
    rw [List.range'_succ, List.flatMap_cons] at hnodup hacc ⊢
    obtain ⟨-, hrest, hdisjoint⟩ := List.nodup_append'.mp hnodup
    obtain ⟨u, hu, hI, hleft⟩ := hf i (Nat.le_refl i) (by omega) s hs hvol fun c hc =>
      hacc c (List.mem_append_left _ hc)
    obtain ⟨t, ht, hlast, hleft'⟩ := ih (i + 1) (fun j hi hj => hf j (by omega) (by omega)) hI
      hleft.volume hrest fun c hc => hleft.accepts c (fun hm => hdisjoint hm hc)
        (hacc c (List.mem_append_right _ hc))
    refine ⟨t, (bind_of_eq hu).trans ht, ?_, hleft.trans hleft'⟩
    rw [Nat.add_right_comm] at hlast
    exact hlast

/-- `inode_bfree` comes back if `bfree` takes every block of the tree. -/
theorem inodeBfree_returns {X : Set ℕ} {buf addr : ℕ} (hX : ∀ c, IsMap s c → c ∈ X)
    (hsame : Same s u) (hu : ∀ c, c ∉ X → u.data c = s.data c)
    (hcell : u.cell buf addr index = s.cell buf addr index) (hbuf : ¬ IsMap s buf)
    (hclear : Clear s X (s.calls level buf addr index))
    (hdev : (s.inodeTable inode).dev = s.dev) (hvol : Volume u n)
    (hacc : ∀ c ∈ freed (s.calls level buf addr index), Accepts u c)
    (hnodup : (freed (s.calls level buf addr index)).Nodup) :
    ∃ t, inodeBfree inode level buf addr index u = some ((), t) ∧
      Left (freed (s.calls level buf addr index)) n u t := by
  have hdevu : (u.inodeTable inode).dev = u.dev := by
    rw [hsame.inodeTable, hsame.dev]
    exact hdev
  obtain ⟨c, hc⟩ : ∃ c, s.cell buf addr index = c := ⟨_, rfl⟩
  have hcur : (u.data buf).rd16 (addr + 2 * index) = c := hcell.trans hc
  induction level generalizing buf addr index u c with
  | zero =>
    unfold inodeBfree
    unfold State.calls at hacc ⊢
    rw [peek_bind, hcur]
    rw [hc] at hacc ⊢
    split_ifs at hacc ⊢ with h0
    · exact ⟨u, rfl, hvol, fun _ _ => id⟩
    · rw [peek_bind, hdevu]
      obtain ⟨t, ht⟩ := hacc c (List.mem_singleton_self c)
      exact ⟨t, ht, bfree_left hvol ht⟩
  | succ level ih =>
    unfold inodeBfree
    rw [peek_bind, hcur]
    by_cases h0 : c = 0
    · rw [if_pos h0]
      unfold State.calls
      rw [if_pos (hc.trans h0)]
      exact ⟨u, rfl, hvol, fun _ _ => id⟩
    rw [if_neg h0, peek_bind, hdevu, bind_of_eq (bread_held rfl c)]
    have h0' : s.cell buf addr index ≠ 0 := hc ▸ h0
    rw [freed_below h0', hc, List.range_eq_range'] at hacc hnodup ⊢
    obtain ⟨hbelow, -, hdisjoint⟩ := List.nodup_append'.mp hnodup
    have hlast : c ∈ [c] := List.mem_singleton_self c
    let u₁ : State := { u with cache := u.cache.hold c }
    have hread : Swept u u₁ := .of_data ⟨rfl, rfl, rfl, rfl, rfl, rfl, rfl⟩ rfl
    have hmaps : ∀ z, IsMap u z → u₁.data z = u.data z := fun _ _ => rfl
    have hleft₁ : Left [] n u u₁ := .maps hvol rfl hmaps
    have hout : c ∉ X := by
      obtain ⟨t, ht⟩ := hacc c (List.mem_append_right _ hlast)
      have hbase := bfree_base ht
      unfold State.base at hbase
      rw [hsame.sb] at hbase
      apply hclear c _ hbase
      unfold State.calls
      rw [if_neg h0', hc]
      exact List.mem_append_left _ List.mem_cons_self
    have hturn : ∀ j, 0 ≤ j → j < 0 + BLOCK_INDEXES → ∀ v, Swept u₁ v → Volume v n →
        (∀ d ∈ freed (s.calls level c 0 j), Accepts v d) →
        ∃ x, inodeBfree inode level c 0 j v = some ((), x) ∧ Swept u₁ x ∧
          Left (freed (s.calls level c 0 j)) n v x := by
      intro j _ hj v hv hvolv haccv
      have hvs : Same s v := trans_of Same hsame (trans_of Same hread.same hv.same)
      have hdatav : ∀ d, d ∉ X → v.data d = s.data d := fun d hd =>
        (hv.data d ((isMap_congr hsame.sb).not.mpr fun hm => hd (hX d hm))).trans (hu d hd)
      have hclear' : Clear s X (s.calls level c 0 j) := by
        intro d hd
        apply hclear d
        unfold State.calls
        rw [if_neg h0', hc]
        apply List.mem_append_left
        apply List.mem_cons_of_mem
        exact List.mem_flatMap.mpr ⟨j, List.mem_range.mpr (by omega), hd⟩
      have hone : (freed (s.calls level c 0 j)).Nodup :=
        (List.nodup_flatMap.mp hbelow).1 j (List.mem_range'_1.mpr (by omega))
      have hcellv : v.cell c 0 j = s.cell c 0 j := cell_data (hdatav c hout)
      obtain ⟨x, hx, hleft⟩ := ih hvs hdatav hcellv (fun hm => hout (hX c hm)) hclear' hvolv haccv
        hone (hvs.inodeTable ▸ hvs.dev ▸ hdev) _ rfl hcellv
      exact ⟨x, hx, trans_of Swept hv (inodeBfree_swept _ _ _ _ _ _ _ _ hx), hleft⟩
    obtain ⟨w, hw, hswept, hleft⟩ := loop_left (fun _ v => Swept u₁ v) BLOCK_INDEXES 0 hturn
      (refl_of Swept u₁) hleft₁.volume hbelow
      fun d hd => hleft₁.accepts d List.not_mem_nil (hacc d (List.mem_append_left _ hd))
    have hheld : 0 < w.cache.count c := by
      have hcounts : w.counts = u₁.counts := keeps_loop (fun _ => inodeBfree_counts _ _ _ _ _) _ _ _ _ _ hw
      have hself : u₁.counts c = u.cache.count c + 1 := update_self ..
      have hw : w.cache.count c = u₁.counts c := congrFun hcounts c
      rw [hw, hself]
      exact Nat.succ_pos _
    obtain ⟨x, hx⟩ := brelse_held hheld
    have hrel : Swept w x := brelse_swept _ _ _ _ hx
    have hleft₂ : Left [] n w x :=
      .maps hleft.volume hrel.same.sb fun z _ => congrFun (brelse_data hx) z
    have hall : Swept u x := trans_of Swept (trans_of Swept hread hswept) hrel
    have hleft₃ := (hleft₁.trans hleft).trans hleft₂
    rw [List.nil_append, List.append_nil] at hleft₃
    have hagain : (x.data buf).rd16 (addr + 2 * index) = c := by
      rw [hall.data buf ((isMap_congr hsame.sb).not.mpr hbuf)]
      exact hcur
    obtain ⟨t, ht⟩ := hleft₃.accepts c (fun hm => hdisjoint hm hlast)
      (hacc c (List.mem_append_right _ hlast))
    refine ⟨t, ?_, hleft₃.trans (bfree_left hleft₃.volume ht)⟩
    rw [bind_of_eq hw, bind_of_eq hx, peek_bind, hagain, ← hall.same.dev]
    exact ht

/-- The blocks that are freed below zone `i`. -/
def State.freedBelow (s : State) (inode i : ℕ) : List ℕ :=
  freed (s.calls (depth i) (s.ibuf inode) (s.izone inode) i)

theorem freeZone_returns (hlaid : Laid s inode) (hn : s.Unshared inode) (hi : i < ZONE_NR)
    (hdev : (s.inodeTable inode).dev = s.dev) (hc : Cut s inode i u) (hvol : Volume u n)
    (hacc : ∀ c ∈ s.freedBelow inode i, Accepts u c) (hnodup : (s.freedBelow inode i).Nodup) :
    ∃ t, freeZone inode (depth i) i u = some ((), t) ∧ Cut s inode (i + 1) t ∧
      Left (s.freedBelow inode i) n u t := by
  have hX : ∀ c, IsMap s c → c ∈ changing s inode := fun c hm => .inl hm
  obtain ⟨v, hv, hleft⟩ := inodeBfree_returns hX hc.same hc.data (hc.rest i (Nat.le_refl i))
    hlaid.apart (hlaid.clear hn hi) hdev hvol hacc hnodup
  have hswept : Swept u v := inodeBfree_swept _ _ _ _ _ _ _ _ hv
  have hmaps : ∀ z, IsMap v z → State.data (v.setData (s.ibuf inode)
      ((v.data (s.ibuf inode)).wr16 (s.izone inode + 2 * i) 0)) z = v.data z := by
    intro z hz
    have hne : z ≠ s.ibuf inode := by
      intro he
      rw [he, isMap_congr hswept.same.sb, isMap_congr hc.same.sb] at hz
      exact hlaid.apart hz
    rw [data_setData, update_of_ne hne]
  have hset : Left [] n v (v.setData (s.ibuf inode)
      ((v.data (s.ibuf inode)).wr16 (s.izone inode + 2 * i) 0)) := .maps hleft.volume rfl hmaps
  have hlast := hleft.trans hset
  rw [List.append_nil] at hlast
  refine ⟨_, ?_, hc.cleared hlaid.apart hswept, hlast⟩
  unfold freeZone
  rw [peek_bind, peek_bind, ibuf_same hc.same, izone_same hc.same, bind_of_eq hv]
  rfl

theorem freed_truncateCalls_flatMap :
    freed (s.truncateCalls inode) = (List.range ZONE_NR).flatMap (s.freedBelow inode) :=
  List.filterMap_flatMap

/-- The blocks of the tree are freed once each. -/
theorem nodup_freed (hn : s.Unshared inode) : (freed (s.truncateCalls inode)).Nodup := by
  rw [freed_truncateCalls]
  apply List.pairwise_filterMap.mpr
  apply nodup_zoneWays.imp_of_mem
  intro p q hp hq hne b hb c hc hbc
  apply hne
  subst hbc
  exact hn p q b (mem_zoneWays.mp hp) (mem_zoneWays.mp hq) hb hc

theorem mem_freed : b ∈ freed (s.truncateCalls inode) ↔ ∃ p, Way p ∧ s.nodeOf inode p = some b := by
  rw [freed_truncateCalls, List.mem_filterMap]
  constructor
  · intro h
    obtain ⟨p, hp, hb⟩ := h
    exact ⟨p, mem_zoneWays.mp hp, hb⟩
  · intro h
    obtain ⟨p, hp, hb⟩ := h
    exact ⟨p, mem_zoneWays.mpr hp, hb⟩

/-- An index block is read before it is freed. -/
theorem read_truncateCalls (hp : Interior p) (hne : p ≠ []) (h : s.nodeOf inode p = some b) :
    [BlockCall.bread b, BlockCall.bfree b].Sublist (s.truncateCalls inode) := by
  have hin : ∀ i q, i < ZONE_NR → q.length < depth i → (∀ j ∈ q, j < BLOCK_INDEXES) →
      s.nodeOf inode (i :: q) = some b →
      [BlockCall.bread b, BlockCall.bfree b].Sublist (s.truncateCalls inode) := by
    intro i q hi hlen hall hq
    exact (read_calls hlen hall hq).trans
      (List.sublist_flatten_of_mem (List.mem_map_of_mem (List.mem_range.mpr hi)))
  cases hp with
  | root => exact absurd rfl hne
  | single => exact hin _ _ (by decide) (by decide) (List.forall_mem_nil _) h
  | double => exact hin _ _ (by decide) (by decide) (List.forall_mem_nil _) h
  | inner i hi => exact hin (DIRECT_BLOCK + 1) [i] (by decide) Nat.one_lt_two (List.forall_mem_singleton.mpr hi) h

end Returns

section Main

/-- What `inode_truncate` has done when it has made the calls `log` and left `t`. -/
structure Truncated (s : State) (inode : ℕ) (t : State) (log : List BlockCall) : Prop where
  once : (freed log).Nodup
  mem : ∀ b, b ∈ freed log ↔ ∃ p, Way p ∧ s.nodeOf inode p = some b
  reads : ∀ p b, Interior p → p ≠ [] → s.nodeOf inode p = some b →
    [BlockCall.bread b, BlockCall.bfree b].Sublist log
  size : t.size inode = 0
  absent : ∀ k < TOTAL_BLOCK, ∃ u, bmap inode k false t = some (0, u)

theorem not_special (hmode : isFile (s.mode inode) ∨ isDir (s.mode inode)) :
    ¬ (!isFile (s.mode inode) && !isDir (s.mode inode)) = true := by
  cases hmode with
  | inl h => simp [h]
  | inr h => simp [h]

theorem inodeTruncateNoted_truncated (hmode : isFile (s.mode inode) ∨ isDir (s.mode inode))
    (hlaid : Laid s inode) (hn : s.Unshared inode) {log : List BlockCall}
    (h : inodeTruncateNoted inode (s, []) = some ((), (t, log))) : Truncated s inode t log := by
  unfold inodeTruncateNoted at h
  rw [still_peek_bind, if_neg (not_special hmode)] at h
  obtain ⟨⟨⟩, ⟨u₁, l₁⟩, hloop, k₁⟩ := bind_eq_some.mp h
  obtain ⟨⟨⟩, ⟨u₂, l₂⟩, hseven, k₂⟩ := bind_eq_some.mp k₁
  obtain ⟨⟨⟩, ⟨u, l₃⟩, height, k₃⟩ := bind_eq_some.mp k₂
  obtain ⟨htail, rfl⟩ := still_eq_some.mp k₃
  obtain ⟨rfl, hcut⟩ := zones_calls hlaid hn (bind_eq_some.mpr ⟨(), _, hloop,
    bind_eq_some.mpr ⟨(), _, hseven, height⟩⟩)
  obtain ⟨hsize, hbuf, hzone, hcells⟩ := truncated_spec htail
  rw [List.nil_append]
  refine ⟨nodup_freed hn, fun b => mem_freed, fun p b => read_truncateCalls, hsize, fun k => ?_⟩
  apply bmap_absent
  intro i hi
  rw [hbuf, hzone, hcells, ibuf_same hcut.same, izone_same hcut.same]
  exact hcut.zero i hi

/-- `inode_truncate` comes back if `bfree` takes every block of the tree. -/
theorem inodeTruncate_returns (hmode : isFile (s.mode inode) ∨ isDir (s.mode inode))
    (hlaid : Laid s inode) (hn : s.Unshared inode) (hdev : (s.inodeTable inode).dev = s.dev)
    (hvol : Volume s n) (hacc : ∀ c ∈ freed (s.truncateCalls inode), Accepts s c) :
    ∃ t, inodeTruncate inode s = some ((), t) := by
  have hnodup := nodup_freed hn
  rw [freed_truncateCalls_flatMap] at hacc hnodup
  have hrange : List.range ZONE_NR = List.range' 0 DIRECT_BLOCK ++ [DIRECT_BLOCK, DIRECT_BLOCK + 1] := by
    decide
  rw [hrange, List.flatMap_append, List.flatMap_cons, List.flatMap_singleton] at hacc hnodup
  obtain ⟨hfirst, hlast, hdisjoint⟩ := List.nodup_append'.mp hnodup
  have hturn : ∀ j, 0 ≤ j → j < 0 + DIRECT_BLOCK → ∀ v, Cut s inode j v → Volume v n →
      (∀ c ∈ s.freedBelow inode j, Accepts v c) → ∃ w, freeZone inode 0 j v = some ((), w) ∧
        Cut s inode (j + 1) w ∧ Left (s.freedBelow inode j) n v w := by
    intro j _ hj v hv hvolv haccv
    have hd : DIRECT_BLOCK < ZONE_NR := by decide
    have hone := (List.nodup_flatMap.mp hfirst).1 j (List.mem_range'_1.mpr (by omega))
    have hfree := freeZone_returns hlaid hn (by omega) hdev hv hvolv haccv hone
    rw [depth_direct (by omega)] at hfree
    exact hfree
  obtain ⟨u₁, h₁, hcut₁, hleft₁⟩ := loop_left (Cut s inode) DIRECT_BLOCK 0 hturn cut_start hvol hfirst
    fun c hc => hacc c (List.mem_append_left _ hc)
  have hacc₁ : ∀ c ∈ s.freedBelow inode DIRECT_BLOCK ++ s.freedBelow inode (DIRECT_BLOCK + 1),
      Accepts u₁ c := fun c hc =>
    hleft₁.accepts c (fun hm => hdisjoint hm hc) (hacc c (List.mem_append_right _ hc))
  obtain ⟨hseven, height, hapart⟩ := List.nodup_append'.mp hlast
  obtain ⟨u₂, h₂, hcut₂, hleft₂⟩ := freeZone_returns hlaid hn (by decide) hdev hcut₁ hleft₁.volume
    (fun c hc => hacc₁ c (List.mem_append_left _ hc)) hseven
  obtain ⟨u₃, h₃, -⟩ := freeZone_returns hlaid hn (by decide) hdev hcut₂ hleft₂.volume
    (fun c hc => hleft₂.accepts c (fun hm => hapart hm hc) (hacc₁ c (List.mem_append_right _ hc)))
    height
  unfold inodeTruncate
  rw [peek_bind, if_neg (not_special hmode), bind_of_eq h₁]
  have hlevels : depth (0 + DIRECT_BLOCK) = 1 ∧ depth (0 + DIRECT_BLOCK + 1) = 2 := by decide
  rw [hlevels.1] at h₂
  rw [hlevels.2] at h₃
  exact ⟨_, (bind_of_eq h₂).trans ((bind_of_eq h₃).trans rfl)⟩

/-- When `inode_truncate` of a regular file or a directory returns, `bfree` has been called once
for each block of the tree and for no other, each index block has been read before, and the file
has size 0 and no blocks. It returns if `bfree` takes every block. -/
theorem truncate_frees (hmode : isFile (s.mode inode) ∨ isDir (s.mode inode))
    (hlaid : Laid s inode) (hn : s.Unshared inode) :
    (∀ t, inodeTruncate inode s = some ((), t) →
      ∃ log, inodeTruncateNoted inode (s, []) = some ((), (t, log)) ∧ Truncated s inode t log) ∧
    ∀ n, Volume s n → (s.inodeTable inode).dev = s.dev →
      (∀ p b, Way p → s.nodeOf inode p = some b → Accepts s b) →
      ∃ t, inodeTruncate inode s = some ((), t) := by
  refine ⟨fun t ht => ?_, fun n hvol hdev hacc => ?_⟩
  · obtain ⟨log, hlog⟩ := (inodeTruncateNoted_erases inode).run ht []
    exact ⟨log, hlog, inodeTruncateNoted_truncated hmode hlaid hn hlog⟩
  · apply inodeTruncate_returns hmode hlaid hn hdev hvol
    intro c hc
    obtain ⟨p, hp, hnode⟩ := mem_freed.mp hc
    exact hacc p c hp hnode

end Main

section Example

theorem cell_le16 {v : ℕ} (hc : s.data c = blockOf (le16 v)) (hj : j ≠ 0) : s.cell c 0 j = 0 := by
  have hlen : (le16 v).length = 2 := rfl
  unfold State.cell
  rw [hc]
  unfold blockOf rd16 rd8
  dsimp only
  rw [List.getD_eq_default _ _ (by omega), List.getD_eq_default _ _ (by omega)]
  rfl

/-- Below an index block with one cell. -/
theorem node_le16 {v : ℕ} (hc : s.data c = blockOf (le16 v)) (h : s.node c 0 q = some b) :
    (q = [] ∧ b = c) ∨ ∃ q', q = 0 :: q' ∧ s.node (s.cell c 0 0) 0 q' = some b := by
  cases q with
  | nil => exact .inl ⟨rfl, (Option.some.inj h).symm⟩
  | cons j q =>
    right
    have h0 : s.cell c 0 j ≠ 0 := by
      intro h0
      rw [node_zero h0] at h
      cases h
    obtain rfl : j = 0 := by
      by_contra hj
      exact h0 (cell_le16 hc hj)
    exact ⟨q, rfl, (node_cons h0 q) ▸ h⟩

/-- The blocks of the root. -/
def treeBlocks : List (List ℕ × ℕ) :=
  [([0], 5), ([7], 6), ([7, 0], 8), ([8], 7), ([8, 0], 9), ([8, 0, 0], 10)]

theorem tree_way (hp : Way p) (h : tree.mount.nodeOf 0 p = some b) : (p, b) ∈ treeBlocks := by
  obtain ⟨i, q, rfl, hi, hlen, -⟩ := hp
  have hzones : ∀ i < ZONE_NR, tree.mount.cell (tree.mount.ibuf 0) (tree.mount.izone 0) i =
      [5, 0, 0, 0, 0, 0, 0, 6, 7].getD i 0 := by decide +kernel
  have hcells : tree.mount.cell 6 0 0 = 8 ∧ tree.mount.cell 7 0 0 = 9 ∧
      tree.mount.cell 9 0 0 = 10 := by decide +kernel
  obtain ⟨hsix, hseven, hnine⟩ := hcells
  have h0 : tree.mount.cell (tree.mount.ibuf 0) (tree.mount.izone 0) i ≠ 0 := by
    intro h0
    unfold State.nodeOf at h
    rw [node_zero h0] at h
    cases h
  unfold State.nodeOf at h
  rw [node_cons h0, hzones i hi] at h
  rw [hzones i hi] at h0
  have hcase : i = 0 ∨ i = 7 ∨ i = 8 := by
    by_contra hne
    apply h0
    unfold ZONE_NR DIRECT_BLOCK at hi
    interval_cases i <;> first | rfl | exact absurd (by decide) hne
  obtain rfl | rfl | rfl := hcase
  · obtain rfl : q = [] := List.length_eq_zero_iff.mp (Nat.le_zero.mp hlen)
    obtain rfl := Option.some.inj h
    decide
  · change tree.mount.node 6 0 q = some b at h
    obtain ⟨rfl, rfl⟩ | ⟨q', rfl, h₁⟩ := node_le16 (v := 8) rfl h
    · decide
    obtain rfl : q' = [] := List.length_eq_zero_iff.mp (Nat.le_zero.mp (Nat.le_of_succ_le_succ hlen))
    rw [hsix] at h₁
    obtain rfl := Option.some.inj h₁
    decide
  · change tree.mount.node 7 0 q = some b at h
    obtain ⟨rfl, rfl⟩ | ⟨q', rfl, h₁⟩ := node_le16 (v := 9) rfl h
    · decide
    rw [hseven] at h₁
    obtain ⟨rfl, rfl⟩ | ⟨q'', rfl, h₂⟩ := node_le16 (v := 10) rfl h₁
    · decide
    obtain rfl : q'' = [] := List.length_eq_zero_iff.mp
      (Nat.le_zero.mp (Nat.le_of_succ_le_succ (Nat.le_of_succ_le_succ hlen)))
    rw [hnine] at h₂
    obtain rfl := Option.some.inj h₂
    decide

theorem tree_unshared : tree.mount.Unshared 0 := by
  intro p q b hp hq h h'
  have hblocks : (treeBlocks.map Prod.snd).Nodup := by decide
  have heq := List.inj_on_of_nodup_map hblocks (tree_way hp h) (tree_way hq h') rfl
  exact (Prod.mk.inj heq).1

theorem tree_laid : Laid tree.mount 0 where
  slot := by decide
  low z hz := by
    obtain ⟨i, hi⟩ := hz
    obtain ⟨-, rfl⟩ := mount_map _ i z hi
    decide
  apart hz := by
    obtain ⟨i, hi⟩ := hz
    exact absurd (mount_map _ i _ hi).2 (by decide)

theorem tree_accepts (h : (p, b) ∈ treeBlocks) : Accepts tree.mount b := by
  have hall : ∀ x ∈ treeBlocks, (bfree tree.mount.dev x.2 tree.mount).isSome = true := by
    decide +kernel
  obtain ⟨⟨⟨⟩, t⟩, ht⟩ := Option.isSome_iff_exists.mp (hall _ h)
  exact ⟨t, ht⟩

/-- The six blocks of the root are freed. -/
theorem truncate_frees_tree : ∃ t log, inodeTruncate 0 tree.mount = some ((), t) ∧
    Truncated tree.mount 0 t log := by
  have h := truncate_frees (.inr (by decide +kernel)) tree_laid tree_unshared
  obtain ⟨t, ht⟩ := h.2 1 (mount_volume tree) rfl fun p b hp hb => tree_accepts (tree_way hp hb)
  obtain ⟨log, -, hlog⟩ := h.1 t ht
  exact ⟨t, log, ht, hlog⟩

end Example

end Onix.Fs
