import Onix.Sanity.Forest

/-! What making blocks and truncating does to the index trees. -/

namespace Onix.Fs

open Function Prog Bytes

variable {s t u : State} {x y i j b c k : ℕ} {p q : List ℕ}

section Alloc

/-- The zones that are free hold nothing but zeros, as far as an index block has cells. -/
def Fresh (s : State) : Prop :=
  ∀ c, IsZone s c → ¬ Allocated s c → ∀ j < BLOCK_INDEXES, s.cell c 0 j = 0

/-- The files with numbers outside `X` are as they were: their trees, blocks and descriptors. -/
structure Spares (X : Set ℕ) (s t : State) : Prop where
  layout : SameLayout s t
  nodes : ∀ y ≤ s.sb.desc.inodes, y ∉ X → ∀ p, p = [] ∨ Way p → t.nodeNr y p = s.nodeNr y p
  data : ∀ y ≤ s.sb.desc.inodes, y ∉ X → ∀ p b, Way p → s.nodeNr y p = some b → t.data b = s.data b
  desc : ∀ y ≤ s.sb.desc.inodes, y ∉ X → ∀ a, descAddr y ≤ a → a < descAddr y + DESC_SIZE →
    t.data (s.descBuf y) a = s.data (s.descBuf y) a

variable {X Y : Set ℕ}

instance : IsPreorder State (Spares X) where
  refl _ := ⟨refl_of SameLayout _, fun _ _ _ _ _ => rfl, fun _ _ _ _ _ _ _ => rfl, fun _ _ _ _ _ _ => rfl⟩
  trans s t u h h' := by
    have hle : ∀ y, y ≤ s.sb.desc.inodes → y ≤ t.sb.desc.inodes := fun y hy => by
      rw [h.layout.desc]
      exact hy
    refine ⟨trans_of SameLayout h.layout h'.layout, fun y hy hX p hp => ?_, fun y hy hX p b hp hb => ?_,
      fun y hy hX a ha ha' => ?_⟩
    · rw [h'.nodes y (hle y hy) hX p hp, h.nodes y hy hX p hp]
    · rw [h'.data y (hle y hy) hX p b hp (by rw [h.nodes y hy hX p (.inr hp)]; exact hb),
        h.data y hy hX p b hp hb]
    · have hlast := h'.desc y (hle y hy) hX a ha ha'
      rw [h.layout.descBuf] at hlast
      rw [hlast, h.desc y hy hX a ha ha']

theorem Spares.mono (h : Spares X s t) (hXY : X ⊆ Y) : Spares Y s t where
  layout := h.layout
  nodes y hy hY := h.nodes y hy fun hX => hY (hXY hX)
  data y hy hY := h.data y hy fun hX => hY (hXY hX)
  desc y hy hY := h.desc y hy fun hX => hY (hXY hX)

/-- The trees have at most grown, and nothing has been freed. -/
structure Grown (X : Set ℕ) (s t : State) : Prop where
  spares : Spares X s t
  nodes : ∀ x ≤ s.sb.desc.inodes, ∀ p b, p = [] ∨ Way p → s.nodeNr x p = some b → t.nodeNr x p = some b
  allocated : ∀ b, Allocated s b → Allocated t b
  reached : ∀ b, Allocated t b → Allocated s b ∨
    ∃ x ≤ s.sb.desc.inodes, ∃ p, Way p ∧ t.nodeNr x p = some b
  loose : ∀ b, Loose s b → Allocated s b → Loose t b
  fresh : Fresh s → Fresh t

theorem Grown.layout (h : Grown X s t) : SameLayout s t := h.spares.layout

instance : IsPreorder State (Grown X) where
  refl _ := ⟨refl_of (Spares X) _, fun _ _ _ _ _ => id, fun _ => id, fun _ => .inl, fun _ hb _ => hb, id⟩
  trans s t u h h' := by
    have hle : ∀ y, y ≤ s.sb.desc.inodes → y ≤ t.sb.desc.inodes := fun y hy => by
      rw [h.layout.desc]
      exact hy
    refine ⟨trans_of (Spares X) h.spares h'.spares, fun x hx p b hp hb => ?_,
      fun b hb => h'.allocated b (h.allocated b hb), fun b hb => ?_,
      fun b hb ha => h'.loose b (h.loose b hb ha) (h.allocated b ha), fun hf => h'.fresh (h.fresh hf)⟩
    · exact h'.nodes x (hle x hx) p b hp (h.nodes x hx p b hp hb)
    · rcases h'.reached b hb with hb | ⟨x, hx, p, hp, hb⟩
      · refine (h.reached b hb).imp_right fun ⟨x, hx, p, hp, hb⟩ => ?_
        exact ⟨x, hx, p, hp, h'.nodes x (hle x hx) p b (.inr hp) hb⟩
      · rw [h.layout.desc] at hx
        exact .inr ⟨x, hx, p, hp, hb⟩

theorem Grown.mono (h : Grown X s t) (hXY : X ⊆ Y) : Grown Y s t :=
  { h with spares := h.spares.mono hXY }

/-- Nothing that is free has been written. -/
theorem SameTrees.grown (h : SameTrees s t) (hs : Spares X s t)
    (hdata : ∀ c, IsZone s c → ¬ Allocated s c → t.data c = s.data c) : Grown X s t where
  spares := hs
  nodes x hx p b hp hb := by
    rw [h.nodes x hx p hp]
    exact hb
  allocated b hb := h.allocated.mpr hb
  reached b hb := .inl (h.allocated.mp hb)
  loose b hb _ := h.loose.mpr hb
  fresh hf c hc ha j hj := by
    rw [h.layout.isZone] at hc
    rw [h.allocated] at ha
    rw [cell_data (hdata c hc ha)]
    exact hf c hc ha j hj

/-- No block has been written. -/
theorem Grown.of_data (hl : SameLayout s t) (hdata : t.data = s.data) : Grown X s t := by
  have hkept : SameTrees s t := .of_data hl hdata
  exact hkept.grown ⟨hl, fun y hy _ => hkept.nodes y hy, fun _ _ _ _ b _ _ => congrFun hdata b,
    fun _ _ _ a _ _ => by rw [hdata]⟩ fun c _ _ => congrFun hdata c

theorem Quiet.grown (h : Quiet s t) : Grown X s t := .of_data h.fixed.layout h.data

/-- The descriptors of other inodes are not in the array of the node. -/
theorem Trees.desc_cell (hs : Trees s) (hx : x ≤ s.sb.desc.inodes) (hw : Way (q ++ [i]))
    (hq : s.nodeNr x q = some b) (hy : y ≤ s.sb.desc.inodes) (hne : y ≠ x) (hb : s.descBuf y = b)
    {a : ℕ} (ha : descAddr y ≤ a) (ha' : a < descAddr y + DESC_SIZE) :
    a < arrayAt x q + 2 * i ∨ arrayAt x q + 2 * i + 1 < a := by
  have hlt := hs.sited.inodes
  subst hb
  obtain rfl : q = [] := (way_parent hw).resolve_right fun hq' =>
    (hs.sited.desc y hy).2 (hs.zone x hx q _ hq' hq).1
  have hbuf : s.descBuf x = s.descBuf y := Option.some.inj hq
  have hi : i < ZONE_NR := way_cell hw
  have hapart := desc_apart (by omega) (by omega) hne hbuf.symm
  unfold arrayAt
  rw [if_pos rfl]
  unfold ZONE_NR DIRECT_BLOCK at hi
  unfold DESC_SIZE at hapart ha'
  omega

theorem wr16_ne {d : Bytes} {a v k : ℕ} (h : k < a ∨ a + 1 < k) : d.wr16 a v k = d k := by
  unfold wr16 wr8
  rw [update_of_ne (by omega), update_of_ne (by omega)]

theorem Links.spares (h : Links s x q i b c t) (hs : Trees s) (hX : x ∈ X) : Spares X s t where
  layout := h.layout
  nodes y hy hyX p hp := by
    rw [h.nodes hs hy hp, if_neg]
    exact fun he => hyX (he.1 ▸ hX)
  data y hy hyX p d hp hd := by
    have hyx : y ≠ x := fun he => hyX (he ▸ hX)
    refine h.data d (hs.node_map hy (.inr hp) hd) ?_
    rintro rfl
    rcases way_parent h.way with rfl | hq
    · obtain rfl : s.descBuf x = d := Option.some.inj h.node
      exact (hs.sited.desc x h.le).2 (hs.zone y hy p _ hp hd).1
    · exact hyx (hs.once y hy x h.le p q d hp hq hd h.node).1
  desc y hy hyX a ha ha' := by
    have hyx : y ≠ x := fun he => hyX (he ▸ hX)
    by_cases hyb : s.descBuf y = b
    · rw [hyb, h.cell, wr16_ne (hs.desc_cell h.le h.way h.node hy hyx hyb ha ha')]
    · rw [h.data _ (hs.sited.desc y hy).1 hyb]

theorem Links.grown (h : Links s x q i b c t) (hs : Trees s) (hX : x ∈ X) : Grown X s t where
  spares := h.spares hs hX
  nodes y hy p d hp hd := by
    rw [h.nodes hs hy hp, if_neg]
    · exact hd
    · rintro ⟨rfl, rfl⟩
      rw [nodeNr_snoc, h.node, Option.bind_some] at hd
      exact (link_eq_some.mp hd).1 ((link_eq_some.mp hd).2.symm.trans h.zero)
  allocated d hd := (h.allocated d).mpr (.inl hd)
  reached d hd := by
    refine ((h.allocated d).mp hd).imp_right fun he => ⟨x, h.le, q ++ [i], h.way, ?_⟩
    rw [h.nodes hs h.le (.inr h.way), if_pos ⟨rfl, rfl⟩, he]
  loose d hd ha y hy p hp he := by
    rw [h.layout.desc] at hy
    rw [h.nodes hs hy (inner_way hp)] at he
    split_ifs at he
    · obtain rfl := Option.some.inj he
      exact h.free ha
    · exact hd y hy p hp he
  fresh hf d hd ha j hj := by
    rw [h.layout.isZone] at hd
    rw [h.allocated] at ha
    have hold : ¬ Allocated s d := fun hold => ha (.inl hold)
    have hdb : d ≠ b := by
      rintro rfl
      rcases way_parent h.way with rfl | hq
      · obtain rfl : s.descBuf x = d := Option.some.inj h.node
        exact (hs.sited.desc x h.le).2 hd
      · exact hold (hs.zone x h.le q d hq h.node).2
    rw [cell_data (h.data d (fun hm => hs.sited.map_zone hm hd) hdb)]
    exact hf d hd hold j hj

/-- The descriptors are as they were up to their zone arrays. -/
structure Heads (s t : State) : Prop where
  layout : SameLayout s t
  head : ∀ y ≤ s.sb.desc.inodes, ∀ a, descAddr y ≤ a → a < descAddr y + 14 →
    t.data (s.descBuf y) a = s.data (s.descBuf y) a

instance : IsPreorder State Heads where
  refl _ := ⟨refl_of SameLayout _, fun _ _ _ _ _ => rfl⟩
  trans s t u h h' := by
    refine ⟨trans_of SameLayout h.layout h'.layout, fun y hy a ha ha' => ?_⟩
    have hlast := h'.head y (by rw [h.layout.desc]; exact hy) a ha ha'
    rw [h.layout.descBuf] at hlast
    rw [hlast, h.head y hy a ha ha']

theorem Links.heads (h : Links s x q i b c t) (hs : Trees s) : Heads s t where
  layout := h.layout
  head y hy a ha ha' := by
    by_cases hyb : s.descBuf y = b
    · rw [hyb, h.cell, wr16_ne]
      by_cases hyx : y = x
      · obtain rfl : q = [] := (way_parent h.way).resolve_right fun hq =>
          (hs.sited.desc y hy).2 (by rw [hyb]; exact (hs.zone x h.le q b hq h.node).1)
        unfold arrayAt
        rw [if_pos rfl, ← hyx]
        omega
      · exact hs.desc_cell h.le h.way h.node hy hyx hyb ha (by unfold DESC_SIZE; omega)
    · rw [h.data _ (hs.sited.desc y hy).1 hyb]

/-- Blocks have been made in the tree of number `x`; those in use without cells are as they were. -/
structure Built (x : ℕ) (s t : State) : Prop where
  grown : Grown {x} s t
  heads : Heads s t
  leaf : ∀ b, IsZone s b → Allocated s b → Loose s b → t.data b = s.data b

instance : IsPreorder State (Built x) where
  refl _ := ⟨refl_of (Grown {x}) _, refl_of Heads _, fun _ _ _ _ => rfl⟩
  trans _ _ _ h h' := ⟨trans_of (Grown {x}) h.grown h'.grown, trans_of Heads h.heads h'.heads,
    fun b hz ha hb => (h'.leaf b (h.grown.layout.isZone.mpr hz) (h.grown.allocated b ha)
      (h.grown.loose b hb ha)).trans (h.leaf b hz ha hb)⟩

theorem Heads.of_data (hl : SameLayout s t) (hdata : t.data = s.data) : Heads s t :=
  ⟨hl, fun _ _ _ _ _ => by rw [hdata]⟩

theorem Quiet.heads (h : Quiet s t) : Heads s t := .of_data h.fixed.layout h.data

theorem Built.of_data (hl : SameLayout s t) (hdata : t.data = s.data) : Built x s t :=
  ⟨.of_data hl hdata, .of_data hl hdata, fun b _ _ _ => congrFun hdata b⟩

theorem Links.built (h : Links s x q i b c t) (hs : Trees s) : Built x s t where
  grown := h.grown hs rfl
  heads := h.heads hs
  leaf d hz _ hd := by
    refine h.data d (fun hm => hs.sited.map_zone hm hz) ?_
    rintro rfl
    exact hd x h.le q ⟨i, h.way⟩ h.node

theorem Quiet.built (h : Quiet s t) : Built x s t := .of_data h.fixed.layout h.data

/-- What `balloc` returns was free. -/
structure Balloced (s : State) (c : ℕ) (t : State) : Prop where
  same : Same s t
  isZone : IsZone s c
  free : ¬ Allocated s c
  data : ∀ d, ¬ IsMap s d → t.data d = s.data d
  allocated : ∀ d, Allocated t d ↔ Allocated s d ∨ d = c
  volume : Volume t 1

variable {dev : ℤ} {r inode : ℕ}

theorem Trees.balloc (h : Trees s) (hb : balloc dev s = some (c, t)) : Balloced s c t := by
  have hsame : Same s t := balloc_same dev s _ _ hb
  have hv := h.sited.volume
  have hdev : dev = s.dev := by
    unfold Fs.balloc at hb
    obtain ⟨sb, u, hu, -⟩ := bind_eq_some.mp hb
    exact (getSuper_eq.mp hu).1
  subst hdev
  rcases full_or_firstFree hv with hfull | ⟨n, k, hf⟩
  · unfold Fs.balloc at hb
    obtain ⟨sb, u, hu, hb⟩ := bind_eq_some.mp hb
    obtain ⟨-, rfl, rfl⟩ := getSuper_eq.mp hu
    obtain ⟨o, w, hw, -⟩ := bind_eq_some.mp hb
    rw [scanMaps_full hv hfull ZMAP_NR (Nat.zero_add _) (Nat.zero_le 1) none, if_neg (by decide)] at hw
    cases hw
  obtain ⟨z, hz, hk⟩ := hf.here
  obtain rfl : n = 0 := by
    by_contra hn
    rw [hv.absent n (by omega)] at hz
    cases hz
  obtain ⟨hlt, -, hrun⟩ := balloc_firstFree hv hf hz
  rw [hrun] at hb
  obtain ⟨rfl, rfl⟩ := Prod.mk.inj (Option.some.inj hb)
  have hnum : s.number 0 k = s.base + k := by
    unfold State.number
    omega
  have hpos : 0 < k := by
    rw [Nat.pos_iff_ne_zero]
    rintro rfl
    obtain ⟨w, hw, hbit⟩ := h.first
    rw [Nat.sub_self] at hw hbit
    obtain rfl := Option.some.inj (hz.symm.trans hw)
    have hzero := hk.zero
    rw [show 0 % BLOCK_BITS = 0 from rfl] at hbit
    rw [hbit] at hzero
    cases hzero
  have hself : ∀ d, d - s.base = 0 * BLOCK_BITS + k ↔ d = s.base + k := by
    intro d
    omega
  have hfirst := hv.first
  rw [hnum] at hlt ⊢
  refine ⟨hsame, ⟨?_, hlt⟩, ?_, fun d hd => ?_, fun d => ?_, volume_wrote hv hz nofun⟩
  · unfold State.base
    omega
  · rintro ⟨w, hw, hbit⟩
    rw [Nat.add_sub_cancel_left, Nat.div_eq_of_lt hk.lt] at hw
    rw [Nat.add_sub_cancel_left, Nat.mod_eq_of_lt hk.lt] at hbit
    obtain rfl := Option.some.inj (hz.symm.trans hw)
    rw [hk.zero] at hbit
    cases hbit
  · have hdz : d ≠ z := fun he => hd ⟨0, he ▸ hz⟩
    rw [data_wrote, update_of_ne hdz]
  · rw [allocated_wrote hv hz hk.lt]
    split_ifs with hd
    · exact iff_of_true rfl (.inr ((hself d).mp hd))
    · exact (or_iff_left fun he => hd ((hself d).mpr he)).symm

/-- One cell on the way to a block that is made. -/
theorem Trees.bmapCell (h : Trees s) (hx : x ≤ s.sb.desc.inodes) (hw : Way (q ++ [i]))
    (hq : s.nodeNr x q = some b) (hfresh : Inner (q ++ [i]) → Fresh s ∨ s.nodeNr x (q ++ [i]) ≠ none)
    (hr : bmapCell dev true b (arrayAt x q) i s = some (r, t)) :
    Trees t ∧ Built x s t ∧ t.nodeNr x (q ++ [i]) = some r ∧ r ≠ 0 := by
  rcases bmapCell_cases hr with ⟨⟨hzero, -⟩, c, u, hb, rfl, hrel⟩ | ⟨hfull, rfl, hrel⟩
  · have hnone : s.nodeNr x (q ++ [i]) = none := by
      rw [nodeNr_snoc, hq, Option.bind_some]
      exact if_pos hzero
    have hgot := h.balloc hb
    have hl : SameLayout u (u.setCell b (arrayAt x q) i c) := ⟨rfl, rfl, rfl⟩
    have hl' : SameLayout s t := trans_of SameLayout hgot.same.fixed.layout
      (trans_of SameLayout hl (brelse_same _ _ _ _ hrel).fixed.layout)
    have hmap : ¬ IsMap s b := h.node_map hx (way_parent hw) hq
    have hdata : ∀ d, d ≠ b → t.data d = u.data d := fun d hd => by
      rw [brelse_data hrel]
      exact update_of_ne hd ..
    have hmaps : ∀ z, IsMap u z → t.data z = u.data z := fun z hz =>
      hdata z fun he => hmap (he ▸ hgot.same.fixed.layout.isMap.mp hz)
    have hul : SameLayout u t := trans_of SameLayout hl (brelse_same _ _ _ _ hrel).fixed.layout
    have hlinks : Links s x q i b c t := {
      le := hx
      way := hw
      node := hq
      zero := hzero
      isZone := hgot.isZone
      free := hgot.free
      bare := fun hin => (hfresh hin).resolve_right (not_not_intro hnone) c hgot.isZone hgot.free
      layout := hl'
      volume := hgot.volume.layout hul hmaps
      allocated := fun d => by
        rw [← hgot.allocated]
        unfold Allocated
        rw [hul.zmaps, hul.base]
        refine exists_congr fun z => and_congr_right fun hz => ?_
        rw [hmaps z ⟨_, hz⟩]
      data := fun d hd hdb => (hdata d hdb).trans (hgot.data d hd)
      cell := by
        rw [brelse_data hrel, ← hgot.data b hmap]
        exact update_self .. }
    have hlt : c < 2 ^ 16 := hgot.isZone.2.trans h.sited.volume.zones_lt
    rw [Nat.mod_eq_of_lt hlt]
    refine ⟨hlinks.trees h, hlinks.built h, ?_, hlinks.pos h⟩
    rw [hlinks.nodes h hx (.inr hw), if_pos ⟨rfl, rfl⟩]
  · have hkept : SameTrees s t := .of_data (brelse_same _ _ _ _ hrel).fixed.layout (brelse_data hrel)
    have hne : s.cell b (arrayAt x q) i ≠ 0 := fun h0 => hfull ⟨h0, rfl⟩
    refine ⟨h.kept hkept, (brelse_quiet _ _ _ _ hrel).built, ?_, hne⟩
    rw [hkept.nodes x hx _ (.inr hw), nodeNr_snoc, hq, Option.bind_some]
    exact link_eq_some.mpr ⟨hne, rfl⟩

/-- What a way comes through is there. -/
theorem nodeNr_prefix (h : s.nodeNr x (q ++ p) ≠ none) : s.nodeNr x q ≠ none := by
  induction p using List.reverseRecOn with
  | nil =>
    rw [List.append_nil] at h
    exact h
  | append_singleton p i ih =>
    rw [← List.append_assoc] at h
    obtain ⟨b, hb⟩ := Option.ne_none_iff_exists'.mp h
    obtain ⟨c, hc, -⟩ := nodeNr_parent hb
    apply ih
    rw [hc]
    exact Option.some_ne_none c

theorem way_prefix (hq : q ≠ []) (h : Way (q ++ p)) : Way q := by
  induction p using List.reverseRecOn with
  | nil =>
    rw [List.append_nil] at h
    exact h
  | append_singleton p i ih =>
    rw [← List.append_assoc] at h
    exact ih ((way_parent h).resolve_left (List.append_ne_nil_of_left_ne_nil hq p))

/-- All index blocks on the way are there. -/
def Indexed (s : State) (x : ℕ) (p : List ℕ) : Prop := ∀ q i, p = q ++ [i] → s.nodeNr x q ≠ none

theorem Grown.indexed (h : Grown X s t) (hx : x ≤ s.sb.desc.inodes) (hp : Way p) (hi : Indexed s x p) :
    Indexed t x p := by
  intro q i he
  obtain ⟨b, hb⟩ := Option.ne_none_iff_exists'.mp (hi q i he)
  subst he
  rw [h.nodes x hx q b (way_parent hp) hb]
  exact Option.some_ne_none b

/-- The cells on the way to a block that is made. -/
theorem Trees.follow (h : Trees s) (hx : x ≤ s.sb.desc.inodes) (hp : p ≠ []) (hw : Way (q ++ p))
    (hq : s.nodeNr x q = some b) (hfresh : Fresh s ∨ Indexed s x (q ++ p))
    (hleaf : ¬ Inner (q ++ p)) (hr : follow dev true b (arrayAt x q) p s = some (r, t)) :
    Trees t ∧ Built x s t ∧ t.nodeNr x (q ++ p) = some r := by
  induction p generalizing s q b with
  | nil => exact absurd rfl hp
  | cons i p ih =>
    cases p with
    | nil =>
      obtain ⟨ht, hg, hnode, -⟩ := h.bmapCell hx hw hq (fun hin => absurd hin hleaf) hr
      exact ⟨ht, hg, hnode⟩
    | cons j p =>
      have happ : q ++ i :: j :: p = q ++ [i] ++ j :: p := by
        rw [List.append_assoc]
        rfl
      rw [happ] at hw hleaf hfresh ⊢
      have hne' : q ++ [i] ≠ [] := List.append_ne_nil_of_right_ne_nil q (List.cons_ne_nil i [])
      have hfirst : Way (q ++ [i]) := way_prefix hne' hw
      have hthere : Fresh s ∨ s.nodeNr x (q ++ [i]) ≠ none := by
        refine hfresh.imp_right fun hin => ?_
        obtain ⟨o, k, hok⟩ : ∃ o k, j :: p = o ++ [k] :=
          ⟨_, _, (List.dropLast_append_getLast (List.cons_ne_nil j p)).symm⟩
        exact nodeNr_prefix (hin (q ++ [i] ++ o) k (by rw [hok, List.append_assoc (q ++ [i])]))
      unfold Fs.follow at hr
      obtain ⟨cell, u, hc, k₁⟩ := bind_eq_some.mp hr
      obtain ⟨hu, hg, hnode, hne⟩ := h.bmapCell hx hfirst hq (fun _ => hthere) hc
      rw [if_neg hne] at k₁
      obtain ⟨d, v, hd, k₂⟩ := bind_eq_some.mp k₁
      obtain rfl := bread_eq hd
      have hquiet : Quiet u v := bread_quiet _ _ _ _ _ hd
      have hkept : SameTrees u v := .of_data hquiet.fixed.layout hquiet.data
      have hgv : Built x s v := trans_of (Built x) hg hquiet.built
      have hxu : x ≤ u.sb.desc.inodes := by
        rw [hg.grown.layout.desc]
        exact hx
      have hxv : x ≤ v.sb.desc.inodes := by
        rw [hgv.grown.layout.desc]
        exact hx
      have harray : arrayAt x (q ++ [i]) = 0 := if_neg hne'
      rw [← harray] at k₂
      obtain ⟨ht, hgt, hlast⟩ := ih (hu.kept hkept) hxv (List.cons_ne_nil j p) hw
        (by rw [hkept.nodes x hxu _ (.inr hfirst)]; exact hnode)
        (hfresh.imp hgv.grown.fresh (hgv.grown.indexed hx hw)) hleaf k₂
      exact ⟨ht, trans_of (Built x) hgv hgt, hlast⟩

/-- The inode in slot `i` of the table has the descriptor of number `x`. -/
structure Seat (s : State) (i x : ℕ) : Prop where
  le : x ≤ s.sb.desc.inodes
  buf : s.ibuf i = s.descBuf x
  desc : s.idesc i = descAddr x

theorem Seat.zone (h : Seat s i x) : s.izone i = descAddr x + 14 := by
  unfold State.izone
  rw [h.desc]

theorem Seat.of_kept (h : Seat s i x) (hl : SameLayout s t)
    (hbuf : (t.inodeTable i).buf = (s.inodeTable i).buf)
    (hslot : (t.inodeTable i).slot = (s.inodeTable i).slot) : Seat t i x where
  le := by
    rw [hl.desc]
    exact h.le
  buf := by
    unfold State.ibuf
    rw [hbuf, hl.descBuf]
    exact h.buf
  desc := by
    unfold State.idesc
    rw [hslot]
    exact h.desc

theorem Seat.size (h : Seat s i x) : s.size i = s.sizeNr x := by
  unfold State.size State.sizeNr
  rw [h.buf, h.desc]

theorem Seat.mode (h : Seat s i x) : s.mode i = s.modeNr x := by
  unfold State.mode State.modeNr
  rw [h.buf, h.desc]

/-- `bmap` that makes what is missing. Index blocks are made of fresh ones. -/
theorem Trees.bmap (h : Trees s) (hi : Seat s i x) (hfresh : Fresh s ∨ Indexed s x (path k))
    (hr : bmap i k true s = some (r, t)) :
    Trees t ∧ Built x s t ∧ t.nodeNr x (path k) = some r := by
  have hk := bmap_block hr
  rw [bmap_follow hk, hi.buf, hi.zone] at hr
  have hkept : SameTrees s { s with cache := s.cache.hold (s.descBuf x) } := .of_data ⟨rfl, rfl, rfl⟩ rfl
  have hgrown : Built x s { s with cache := s.cache.hold (s.descBuf x) } := .of_data ⟨rfl, rfl, rfl⟩ rfl
  have hpath : path k ≠ [] := by
    obtain ⟨q, i, hp, -⟩ := path_leaf hk
    rw [hp]
    exact List.append_ne_nil_of_right_ne_nil q (List.cons_ne_nil i [])
  obtain ⟨ht, hg, hnode⟩ := Trees.follow (q := []) (h.kept hkept) hi.le hpath (way_path hk) rfl
    (hfresh.imp hgrown.grown.fresh (hgrown.grown.indexed hi.le (way_path hk))) (path_not_inner hk) hr
  exact ⟨ht, trans_of (Built x) hgrown hg, hnode⟩

end Alloc

end Onix.Fs
