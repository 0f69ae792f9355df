import Onix.Proofs.Cells
import Onix.Proofs.Truncate
import Onix.Sanity.TreeSpec

/-! The index trees of all inodes at once: which blocks they reach, and what the write of a
block or of a cell changes of that. -/

namespace Onix.Fs

open Function Prog Bytes

variable {s t u : State} {x y i j b c k : ℕ} {p q : List ℕ}

section Ways

/-- An index block or the inode itself: its array has cells. -/
def Inner (q : List ℕ) : Prop := ∃ i, Way (q ++ [i])

theorem way_parent (h : Way (q ++ [i])) : q = [] ∨ Way q := by
  cases q with
  | nil => exact .inl rfl
  | cons a q =>
    obtain ⟨z, r, he, hz, hlen, hall⟩ := h
    rw [List.cons_append] at he
    obtain ⟨rfl, rfl⟩ := List.cons.inj he
    rw [List.length_append] at hlen
    refine .inr ⟨a, q, rfl, hz, by omega, fun j hj => hall j (List.mem_append_left _ hj)⟩

theorem way_cell (h : Way (q ++ [i])) : i < if q = [] then ZONE_NR else BLOCK_INDEXES := by
  obtain ⟨z, r, he, hz, -, hall⟩ := h
  cases q with
  | nil =>
    obtain ⟨rfl, -⟩ := List.cons.inj he
    exact hz
  | cons a q =>
    obtain ⟨-, rfl⟩ := List.cons.inj he
    exact hall i (List.mem_append_right _ List.mem_cons_self)

theorem way_path (hk : k < TOTAL_BLOCK) : Way (path k) := by
  obtain ⟨q, i, hp, hl⟩ := path_leaf hk
  rw [hp]
  cases hl with
  | direct i hi =>
    refine ⟨i, [], rfl, ?_, Nat.zero_le _, List.forall_mem_nil _⟩
    unfold ZONE_NR
    omega
  | single i hi =>
    exact ⟨DIRECT_BLOCK, [i], rfl, by decide, Nat.le_refl 1, List.forall_mem_singleton.mpr hi⟩
  | double a i ha hi =>
    refine ⟨DIRECT_BLOCK + 1, [a, i], rfl, by decide, Nat.le_refl 2, ?_⟩
    exact List.forall_mem_cons.mpr ⟨ha, List.forall_mem_singleton.mpr hi⟩

/-- Below a block of a file there is nothing. -/
theorem path_not_inner (hk : k < TOTAL_BLOCK) : ¬ Inner (path k) := by
  rintro ⟨j, z, r, he, -, hlen, -⟩
  obtain ⟨q, i, hp, hl⟩ := path_leaf hk
  rw [hp] at he
  cases hl with
  | direct i hi =>
    obtain ⟨rfl, rfl⟩ := List.cons.inj he
    have hd : depth i = 0 := depth_direct hi
    rw [hd] at hlen
    exact absurd hlen (Nat.not_succ_le_zero 0)
  | single i hi =>
    obtain ⟨rfl, rfl⟩ := List.cons.inj he
    exact absurd hlen (show ¬ 2 ≤ 1 by decide)
  | double a i ha hi =>
    obtain ⟨rfl, rfl⟩ := List.cons.inj he
    exact absurd hlen (show ¬ 3 ≤ 2 by decide)

end Ways

section Nodes

/-- The block at the end of the way `p` of inode number `x`. -/
def State.nodeNr (s : State) (x : ℕ) (p : List ℕ) : Option ℕ := s.node (s.descBuf x) (descAddr x + 14) p

/-- Where the array of the node at the end of the way `q` begins. -/
def arrayAt (x : ℕ) (q : List ℕ) : ℕ := if q = [] then descAddr x + 14 else 0

/-- The block that a cell leads to. -/
def State.link (s : State) (b addr i : ℕ) : Option ℕ :=
  if s.cell b addr i = 0 then none else some (s.cell b addr i)

theorem link_eq_some {addr : ℕ} : s.link b addr i = some c ↔ c ≠ 0 ∧ s.cell b addr i = c := by
  unfold State.link
  split_ifs with h0
  · exact iff_of_false nofun fun h => h.1 (h.2.symm.trans h0)
  · constructor
    · intro h
      obtain rfl := Option.some.inj h
      exact ⟨h0, rfl⟩
    · intro h
      rw [h.2]

theorem node_snoc {buf addr : ℕ} : s.node buf addr (q ++ [i]) =
    (s.node buf addr q).bind fun b => s.link b (if q = [] then addr else 0) i := by
  induction q generalizing buf addr with
  | nil => rfl
  | cons a q ih =>
    rw [if_neg (List.cons_ne_nil a q), List.cons_append]
    by_cases h0 : s.cell buf addr a = 0
    · rw [node_zero h0, node_zero h0]
      rfl
    · rw [node_cons h0, node_cons h0, ih]
      congr 1
      funext b
      rw [ite_self]

theorem nodeNr_snoc : s.nodeNr x (q ++ [i]) =
    (s.nodeNr x q).bind fun b => s.link b (arrayAt x q) i := node_snoc

theorem nodeNr_nil : s.nodeNr x [] = some (s.descBuf x) := rfl

/-- A way goes through the block of its parent. -/
theorem nodeNr_parent (h : s.nodeNr x (q ++ [i]) = some b) :
    ∃ c, s.nodeNr x q = some c ∧ s.link c (arrayAt x q) i = some b := by
  rw [nodeNr_snoc] at h
  exact Option.bind_eq_some_iff.mp h

/-- What the trees depend on besides the cells. -/
structure SameLayout (s t : State) : Prop where
  desc : t.sb.desc = s.sb.desc
  imaps : t.sb.imaps = s.sb.imaps
  zmaps : t.sb.zmaps = s.sb.zmaps

instance : IsPreorder State SameLayout where
  refl _ := ⟨rfl, rfl, rfl⟩
  trans _ _ _ h h' := ⟨h'.1.trans h.1, h'.2.trans h.2, h'.3.trans h.3⟩

theorem Fixed.layout (h : Fixed s t) : SameLayout s t := ⟨h.desc, h.imaps, h.zmaps⟩

theorem SameLayout.descBuf (h : SameLayout s t) : t.descBuf x = s.descBuf x := inodeBlock_congr h.desc

theorem SameLayout.isMap (h : SameLayout s t) : IsMap t b ↔ IsMap s b := by
  unfold IsMap
  rw [h.zmaps]

theorem SameLayout.base (h : SameLayout s t) : t.base = s.base := by
  unfold State.base
  rw [h.desc]

theorem SameLayout.isZone (h : SameLayout s t) : IsZone t b ↔ IsZone s b := by
  unfold IsZone
  rw [h.desc]

/-- The nodes are where they were if no cell of a node has changed. -/
theorem nodeNr_congr (hl : SameLayout s t) (hp : p = [] ∨ Way p)
    (h : ∀ q i b, Way (q ++ [i]) → s.nodeNr x q = some b →
      t.cell b (arrayAt x q) i = s.cell b (arrayAt x q) i) : t.nodeNr x p = s.nodeNr x p := by
  induction p using List.reverseRecOn with
  | nil =>
    rw [nodeNr_nil, nodeNr_nil, hl.descBuf]
  | append_singleton q i ih =>
    have hway : Way (q ++ [i]) := hp.resolve_left (List.append_ne_nil_of_right_ne_nil q (List.cons_ne_nil i []))
    rw [nodeNr_snoc, nodeNr_snoc, ih (way_parent hway)]
    cases hq : s.nodeNr x q with
    | none => rfl
    | some b =>
      rw [Option.bind_some, Option.bind_some]
      unfold State.link
      rw [h q i b hway hq]

end Nodes

section Sited

/-- One zone bitmap block; the bitmaps and the descriptors are outside the data zones and each
other. -/
structure Sited (s : State) : Prop where
  volume : Volume s 1
  low : ∀ z, IsMap s z → z < s.base
  inodes : s.sb.desc.inodes < 2 ^ 16
  imaps : ∀ i b, s.sb.imaps i = some b →
    ¬ IsMap s b ∧ ¬ IsZone s b ∧ ∀ x ≤ s.sb.desc.inodes, s.descBuf x ≠ b
  desc : ∀ x ≤ s.sb.desc.inodes, ¬ IsMap s (s.descBuf x) ∧ ¬ IsZone s (s.descBuf x)

theorem Volume.layout {n : ℕ} (h : Volume s n) (hl : SameLayout s t)
    (hmaps : ∀ z, IsMap s z → t.data z = s.data z) : Volume t n := by
  have hbase := hl.base
  refine ⟨h.pos, h.le, ?_, ?_, ?_, ?_, ?_, ?_, ?_⟩
  · rw [hl.zmaps]
    exact h.loaded
  · rw [hl.zmaps]
    exact h.absent
  · rw [hl.zmaps]
    exact h.distinct
  · rw [hl.desc]
    exact h.first
  · rw [hl.desc]
    exact h.zones
  · rw [hl.desc]
    exact h.zones_lt
  · intro i z k hz hk hge
    rw [hl.zmaps] at hz
    rw [hl.desc, hbase] at hge
    rw [hmaps z ⟨i, hz⟩]
    exact h.preset i z k hz hk hge

theorem Sited.of_volume (h : Sited s) (hl : SameLayout s t) (hv : Volume t 1) : Sited t where
  volume := hv
  low z hz := by
    rw [hl.base]
    exact h.low z (hl.isMap.mp hz)
  inodes := by
    rw [hl.desc]
    exact h.inodes
  imaps i b hb := by
    rw [hl.imaps] at hb
    obtain ⟨hmap, hzone, hdesc⟩ := h.imaps i b hb
    refine ⟨hl.isMap.not.mpr hmap, hl.isZone.not.mpr hzone, fun x hx => ?_⟩
    rw [hl.desc] at hx
    rw [hl.descBuf]
    exact hdesc x hx
  desc x hx := by
    rw [hl.desc] at hx
    rw [hl.descBuf]
    exact ⟨hl.isMap.not.mpr (h.desc x hx).1, hl.isZone.not.mpr (h.desc x hx).2⟩

/-- No block of a bitmap is a data zone. -/
theorem Sited.map_zone (h : Sited s) (hz : IsMap s b) : ¬ IsZone s b := by
  intro hb
  have hlow := h.low b hz
  have hge := hb.1
  unfold State.base at hlow
  omega

theorem descAddr_add (x : ℕ) : descAddr x + DESC_SIZE ≤ BLOCK_SIZE := by
  have hlt : sub32 x 1 % BLOCK_INODES < BLOCK_INODES := Nat.mod_lt _ (by decide)
  unfold descAddr
  unfold BLOCK_INODES BLOCK_SIZE DESC_SIZE at *
  omega

/-- Different numbers have different descriptors. -/
theorem desc_apart (hx : x < 2 ^ 16) (hy : y < 2 ^ 16) (hne : x ≠ y) (hb : s.descBuf x = s.descBuf y) :
    descAddr x + DESC_SIZE ≤ descAddr y ∨ descAddr y + DESC_SIZE ≤ descAddr x := by
  have hmod : sub32 x 1 % BLOCK_INODES ≠ sub32 y 1 % BLOCK_INODES := by
    intro hmod
    unfold State.descBuf inodeBlock at hb
    unfold BLOCK_INODES BLOCK_SIZE DESC_SIZE sub32 at hb hmod
    split_ifs at hb hmod <;> omega
  unfold descAddr DESC_SIZE
  omega

end Sited

section Trees

/-- Every block of a tree is a data zone in use, and none is in two places. -/
structure Trees (s : State) : Prop where
  sited : Sited s
  first : Allocated s s.base
  zone : ∀ x ≤ s.sb.desc.inodes, ∀ p b, Way p → s.nodeNr x p = some b → IsZone s b ∧ Allocated s b
  once : ∀ x ≤ s.sb.desc.inodes, ∀ y ≤ s.sb.desc.inodes, ∀ p q b, Way p → Way q →
    s.nodeNr x p = some b → s.nodeNr y q = some b → x = y ∧ p = q

/-- No cell of the block leads anywhere. -/
def Loose (s : State) (b : ℕ) : Prop := ∀ x ≤ s.sb.desc.inodes, ∀ q, Inner q → s.nodeNr x q ≠ some b

/-- The trees and the zone bitmap are the same. -/
structure SameTrees (s t : State) : Prop where
  layout : SameLayout s t
  maps : ∀ z, IsMap s z → t.data z = s.data z
  nodes : ∀ x ≤ s.sb.desc.inodes, ∀ p, p = [] ∨ Way p → t.nodeNr x p = s.nodeNr x p

instance : IsPreorder State SameTrees where
  refl _ := ⟨refl_of SameLayout _, fun _ _ => rfl, fun _ _ _ _ => rfl⟩
  trans s t u h h' := by
    refine ⟨trans_of SameLayout h.layout h'.layout, fun z hz => ?_, fun x hx p hp => ?_⟩
    · rw [h'.maps z (h.layout.isMap.mpr hz), h.maps z hz]
    · rw [h'.nodes x (by rw [h.layout.desc]; exact hx) p hp, h.nodes x hx p hp]

theorem SameTrees.allocated (h : SameTrees s t) : Allocated t b ↔ Allocated s b := by
  unfold Allocated
  rw [h.layout.zmaps, h.layout.base]
  refine exists_congr fun z => and_congr_right fun hz => ?_
  rw [h.maps z ⟨_, hz⟩]

theorem Trees.kept (h : Trees s) (hk : SameTrees s t) : Trees t where
  sited := h.sited.of_volume hk.layout (h.sited.volume.layout hk.layout hk.maps)
  first := by
    rw [hk.layout.base]
    exact hk.allocated.mpr h.first
  zone x hx p b hp hb := by
    rw [hk.layout.desc] at hx
    rw [hk.nodes x hx p (.inr hp)] at hb
    exact ⟨hk.layout.isZone.mpr (h.zone x hx p b hp hb).1, hk.allocated.mpr (h.zone x hx p b hp hb).2⟩
  once x hx y hy p q b hp hq hb hc := by
    rw [hk.layout.desc] at hx hy
    rw [hk.nodes x hx p (.inr hp)] at hb
    rw [hk.nodes y hy q (.inr hq)] at hc
    exact h.once x hx y hy p q b hp hq hb hc

theorem inner_way (h : Inner q) : q = [] ∨ Way q := way_parent h.choose_spec

theorem SameTrees.loose (h : SameTrees s t) : Loose t b ↔ Loose s b := by
  unfold Loose
  rw [h.layout.desc]
  refine forall_congr' fun x => forall_congr' fun hx => forall_congr' fun q => forall_congr' fun hq => ?_
  rw [h.nodes x hx q (inner_way hq)]

/-- What is in a node is not in a bitmap. -/
theorem Trees.node_map (h : Trees s) (hx : x ≤ s.sb.desc.inodes) (hq : q = [] ∨ Way q)
    (hb : s.nodeNr x q = some b) : ¬ IsMap s b := by
  rcases hq with rfl | hq
  · obtain rfl := Option.some.inj hb
    exact (h.sited.desc x hx).1
  · exact fun hm => h.sited.map_zone hm (h.zone x hx q b hq hb).1

/-- The cells of the nodes are the same. -/
theorem SameTrees.of_cells (hl : SameLayout s t) (hmaps : ∀ z, IsMap s z → t.data z = s.data z)
    (h : ∀ x ≤ s.sb.desc.inodes, ∀ q i b, Way (q ++ [i]) → s.nodeNr x q = some b →
      t.cell b (arrayAt x q) i = s.cell b (arrayAt x q) i) : SameTrees s t :=
  ⟨hl, hmaps, fun x hx _ hp => nodeNr_congr hl hp (h x hx)⟩

/-- No block has been written. -/
theorem SameTrees.of_data (hl : SameLayout s t) (hdata : t.data = s.data) : SameTrees s t :=
  .of_cells hl (fun z _ => by rw [hdata]) fun _ _ _ _ _ _ _ => cell_congr hdata

/-- A block whose cells lead nowhere has been written. -/
theorem SameTrees.of_loose (hl : SameLayout s t) (hm : ¬ IsMap s b) (hb : Loose s b)
    (h : ∀ c, c ≠ b → t.data c = s.data c) : SameTrees s t := by
  refine .of_cells hl (fun z hz => h z fun he => hm (he ▸ hz)) fun x hx q i c hw hc => ?_
  refine cell_data (h c fun he => ?_)
  rw [he] at hc
  exact hb x hx q ⟨i, hw⟩ hc

theorem cell_bytes {addr : ℕ} (h : t.data b (addr + 2 * i) = s.data b (addr + 2 * i))
    (h' : t.data b (addr + 2 * i + 1) = s.data b (addr + 2 * i + 1)) :
    t.cell b addr i = s.cell b addr i := by
  unfold State.cell rd16 rd8
  rw [h, h']

/-- The descriptor of an inode has been written, but not its zones. -/
theorem Trees.kept_desc (h : Trees s) (hx : x ≤ s.sb.desc.inodes) (hl : SameLayout s t)
    (hdata : ∀ c, c ≠ s.descBuf x → t.data c = s.data c)
    (hother : ∀ a, a < descAddr x ∨ descAddr x + 14 ≤ a → t.data (s.descBuf x) a = s.data (s.descBuf x) a) :
    SameTrees s t := by
  have hlt := h.sited.inodes
  refine .of_cells hl (fun z hz => hdata z fun he => (h.sited.desc x hx).1 (he ▸ hz))
    fun y hy q i c hw hc => ?_
  by_cases he : c = s.descBuf x
  · subst he
    obtain rfl : q = [] := (way_parent hw).resolve_right fun hq =>
      (h.sited.desc x hx).2 (h.zone y hy q _ hq hc).1
    have hbuf : s.descBuf y = s.descBuf x := Option.some.inj hc
    have hi : i < ZONE_NR := way_cell hw
    have hrange : descAddr y + 14 + 2 * i + 1 < descAddr x ∨ descAddr x + 14 ≤ descAddr y + 14 + 2 * i := by
      by_cases hxy : y = x
      · rw [hxy]
        omega
      · have hapart := desc_apart (by omega) (by omega) hxy hbuf
        unfold ZONE_NR DIRECT_BLOCK at hi
        unfold DESC_SIZE at hapart
        omega
    exact cell_bytes (hother _ (by unfold arrayAt; rw [if_pos rfl]; omega))
      (hother _ (by unfold arrayAt; rw [if_pos rfl]; omega))
  · exact cell_data (hdata c he)

end Trees

section SetCell



/-- An empty cell leads to a block that was free, in which no cell leads on. -/
structure Links (s : State) (x : ℕ) (q : List ℕ) (i b c : ℕ) (t : State) : Prop where
  le : x ≤ s.sb.desc.inodes
  way : Way (q ++ [i])
  node : s.nodeNr x q = some b
  zero : s.cell b (arrayAt x q) i = 0
  isZone : IsZone s c
  free : ¬ Allocated s c
  bare : Inner (q ++ [i]) → ∀ j < BLOCK_INDEXES, s.cell c 0 j = 0
  layout : SameLayout s t
  volume : Volume t 1
  allocated : ∀ d, Allocated t d ↔ Allocated s d ∨ d = c
  data : ∀ d, ¬ IsMap s d → d ≠ b → t.data d = s.data d
  cell : t.data b = (s.data b).wr16 (arrayAt x q + 2 * i) c

theorem Links.pos (h : Links s x q i b c t) (hs : Trees s) : c ≠ 0 := by
  have hfirst := hs.sited.volume.first
  have hge := h.isZone.1
  omega

theorem Links.cell_self (h : Links s x q i b c t) (hs : Trees s) : t.cell b (arrayAt x q) i = c := by
  have hlt := hs.sited.volume.zones_lt
  have hzone := h.isZone.2
  unfold State.cell
  rw [h.cell, rd16_wr16]
  omega

/-- The other cells. -/
theorem Links.cell_other (h : Links s x q i b c t) (hs : Trees s) {r : List ℕ} {d : ℕ}
    (hy : y ≤ s.sb.desc.inodes) (hr : Way (r ++ [j])) (hd : s.nodeNr y r = some d)
    (hne : ¬ (y = x ∧ r ++ [j] = q ++ [i])) : t.cell d (arrayAt y r) j = s.cell d (arrayAt y r) j := by
  by_cases hdb : d = b
  · subst hdb
    unfold State.cell
    rw [h.cell, rd16_wr16_ne]
    have hlt := hs.sited.inodes
    have hx := h.le
    rcases way_parent hr with rfl | hwr
    · have hbuf : s.descBuf y = d := Option.some.inj hd
      obtain rfl : q = [] := (way_parent h.way).resolve_right fun hq =>
        (hs.sited.desc y hy).2 (by rw [hbuf]; exact (hs.zone x hx q d hq h.node).1)
      have hbuf' : s.descBuf x = d := Option.some.inj h.node
      have hi : i < ZONE_NR := way_cell h.way
      have hj : j < ZONE_NR := way_cell hr
      unfold arrayAt
      rw [if_pos rfl, if_pos rfl]
      by_cases hyx : y = x
      · have hji : j ≠ i := fun hji => hne ⟨hyx, by rw [hji]⟩
        rw [hyx]
        omega
      · have hapart := desc_apart (by omega) (by omega) hyx (hbuf.trans hbuf'.symm)
        unfold ZONE_NR DIRECT_BLOCK at hi hj
        unfold DESC_SIZE at hapart
        omega
    · have hq : Way q := (way_parent h.way).resolve_left fun hq => by
        subst hq
        obtain rfl : s.descBuf x = d := Option.some.inj h.node
        exact (hs.sited.desc x hx).2 (hs.zone y hy r _ hwr hd).1
      obtain ⟨rfl, rfl⟩ := hs.once y hy x hx r q d hwr hq hd h.node
      have hji : j ≠ i := fun hji => hne ⟨rfl, by rw [hji]⟩
      omega
  · exact cell_data (h.data d (hs.node_map hy (way_parent hr) hd) hdb)

/-- The new block is where the cell leads, and nothing else has moved. -/
theorem Links.nodes (h : Links s x q i b c t) (hs : Trees s) (hy : y ≤ s.sb.desc.inodes)
    (hp : p = [] ∨ Way p) :
    t.nodeNr y p = if y = x ∧ p = q ++ [i] then some c else s.nodeNr y p := by
  have hnone : s.nodeNr x (q ++ [i]) = none := by
    rw [nodeNr_snoc, h.node, Option.bind_some]
    exact if_pos h.zero
  induction p using List.reverseRecOn with
  | nil =>
    rw [nodeNr_nil, nodeNr_nil, h.layout.descBuf, if_neg]
    exact fun he => List.append_ne_nil_of_right_ne_nil q (List.cons_ne_nil i []) he.2.symm
  | append_singleton r j ih =>
    have hr : Way (r ++ [j]) := hp.resolve_left (List.append_ne_nil_of_right_ne_nil r (List.cons_ne_nil j []))
    rw [nodeNr_snoc, ih (way_parent hr)]
    by_cases hbelow : y = x ∧ r = q ++ [i]
    · obtain ⟨rfl, rfl⟩ := hbelow
      have hlong : ¬ (y = y ∧ q ++ [i] ++ [j] = q ++ [i]) := by
        intro he
        have hlen := congrArg List.length he.2
        simp at hlen
      have hcell : t.cell c (arrayAt y (q ++ [i])) j = 0 := by
        have hcb : c ≠ b := by
          rintro rfl
          rcases way_parent h.way with rfl | hq
          · obtain rfl : s.descBuf y = c := Option.some.inj h.node
            exact (hs.sited.desc y hy).2 h.isZone
          · exact h.free (hs.zone y hy q c hq h.node).2
        rw [cell_data (h.data c (fun hm => hs.sited.map_zone hm h.isZone) hcb)]
        unfold arrayAt
        rw [if_neg (List.append_ne_nil_of_right_ne_nil q (List.cons_ne_nil i []))]
        have hj := way_cell hr
        rw [if_neg (List.append_ne_nil_of_right_ne_nil q (List.cons_ne_nil i []))] at hj
        exact h.bare ⟨j, hr⟩ j hj
      rw [if_pos ⟨rfl, rfl⟩, if_neg hlong, nodeNr_snoc, hnone, Option.bind_none, Option.bind_some]
      exact if_pos hcell
    · rw [if_neg hbelow]
      cases hd : s.nodeNr y r with
      | none =>
        rw [Option.bind_none, if_neg, nodeNr_snoc, hd, Option.bind_none]
        rintro ⟨rfl, he⟩
        obtain ⟨rfl, -⟩ := List.append_inj' he rfl
        rw [h.node] at hd
        cases hd
      | some d =>
        rw [Option.bind_some]
        by_cases hself : y = x ∧ r ++ [j] = q ++ [i]
        · rw [if_pos hself]
          obtain ⟨rfl, he⟩ := hself
          obtain ⟨rfl, hj⟩ := List.append_inj' he rfl
          obtain rfl := (List.cons.inj hj).1
          obtain rfl := Option.some.inj (h.node.symm.trans hd)
          exact link_eq_some.mpr ⟨h.pos hs, h.cell_self hs⟩
        · rw [if_neg hself, nodeNr_snoc, hd, Option.bind_some]
          unfold State.link
          rw [h.cell_other hs hy hr hd hself]

theorem Links.trees (h : Links s x q i b c t) (hs : Trees s) : Trees t where
  sited := hs.sited.of_volume h.layout h.volume
  first := by
    rw [h.layout.base]
    exact (h.allocated _).mpr (.inl hs.first)
  zone y hy p d hp hd := by
    rw [h.layout.desc] at hy
    rw [h.nodes hs hy (.inr hp)] at hd
    rw [h.layout.isZone, h.allocated]
    split_ifs at hd with he
    · obtain rfl := Option.some.inj hd
      exact ⟨h.isZone, .inr rfl⟩
    · exact ⟨(hs.zone y hy p d hp hd).1, .inl (hs.zone y hy p d hp hd).2⟩
  once y hy z hz p r d hp hr hd hd' := by
    rw [h.layout.desc] at hy hz
    rw [h.nodes hs hy (.inr hp)] at hd
    rw [h.nodes hs hz (.inr hr)] at hd'
    have hold : ∀ w ≤ s.sb.desc.inodes, ∀ o, Way o → s.nodeNr w o ≠ some c := fun w hw o ho hc =>
      h.free (hs.zone w hw o c ho hc).2
    split_ifs at hd hd' with he he'
    · exact ⟨he.1.trans he'.1.symm, he.2.trans he'.2.symm⟩
    · exact absurd (hd'.trans hd.symm) (hold z hz r hr)
    · exact absurd (hd.trans hd'.symm) (hold y hy p hp)
    · exact hs.once y hy z hz p r d hp hr hd hd'

end SetCell

end Onix.Fs
