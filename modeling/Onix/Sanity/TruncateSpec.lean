import Onix.Sanity.CellsSpec
import Onix.Sanity.DescFields
import Onix.Sanity.InodeSpec
import Onix.Spec.Truncate

/-! What `inode_truncate` calls, as a list made from the index tree, and what it leaves. -/

namespace Onix.Fs

open Function Prog Bytes

variable {s t u v : State} {inode level buf addr index i j k n b c : ℕ} {p q : List ℕ}
  {l l' : List BlockCall} {X : Set ℕ}

section Tree

/-- The calls for the tree below a cell: the block is read, those below it are freed, and then
it is freed itself. -/
def State.calls (s : State) : (level buf addr index : ℕ) → List BlockCall
  | 0, buf, addr, index =>
    if s.cell buf addr index = 0 then [] else [.bfree (s.cell buf addr index)]
  | level + 1, buf, addr, index =>
    if s.cell buf addr index = 0 then []
    else .bread (s.cell buf addr index) ::
      (List.range BLOCK_INDEXES).flatMap (fun i => s.calls level (s.cell buf addr index) 0 i) ++
      [.bfree (s.cell buf addr index)]

/-- How many levels of index blocks are below cell `i` of a zone array. -/
def depth (i : ℕ) : ℕ := i + 1 - DIRECT_BLOCK

/-- The cells of a zone array. -/
def ZONE_NR : ℕ := DIRECT_BLOCK + 2

/-- The calls of `inode_truncate`. -/
def State.truncateCalls (s : State) (inode : ℕ) : List BlockCall :=
  (List.range ZONE_NR).flatMap fun i => s.calls (depth i) (s.ibuf inode) (s.izone inode) i

/-- The way from the zone array to a block of the tree. -/
def Way (p : List ℕ) : Prop := ∃ i q, p = i :: q ∧ i < ZONE_NR ∧ q.length ≤ depth i ∧
  ∀ j ∈ q, j < BLOCK_INDEXES

/-- The block that a call frees. -/
def BlockCall.freed : BlockCall → Option ℕ
  | .bread _ => none
  | .bfree b => some b

/-- The blocks that are freed. -/
def freed (l : List BlockCall) : List ℕ := l.filterMap BlockCall.freed

/-- The ways through `level` index blocks at most, those below a block before its own. -/
def ways : (level : ℕ) → List (List ℕ)
  | 0 => [[]]
  | level + 1 => (List.range BLOCK_INDEXES).flatMap (fun i => (ways level).map (i :: ·)) ++ [[]]

/-- The ways from a zone array. -/
def zoneWays : List (List ℕ) := (List.range ZONE_NR).flatMap fun i => (ways (depth i)).map (i :: ·)

theorem mem_ways : q ∈ ways level ↔ q.length ≤ level ∧ ∀ j ∈ q, j < BLOCK_INDEXES := by
  induction level generalizing q with
  | zero =>
    unfold ways
    cases q <;> simp
  | succ level ih =>
    unfold ways
    cases q with
    | nil => simp
    | cons i q =>
      simp only [List.mem_append, List.mem_flatMap, List.mem_range, List.mem_map, List.cons.injEq,
        List.mem_singleton, reduceCtorEq, or_false, List.length_cons, Nat.add_le_add_iff_right,
        List.forall_mem_cons]
      constructor
      · intro h
        obtain ⟨a, ha, q', hq', rfl, rfl⟩ := h
        obtain ⟨hlen, hall⟩ := ih.mp hq'
        exact ⟨hlen, ha, hall⟩
      · intro h
        exact ⟨i, h.2.1, q, ih.mpr ⟨h.1, h.2.2⟩, rfl, rfl⟩

/-- Lists that begin with different numbers have nothing in common. -/
theorem nodup_flatMap_cons {is : List ℕ} (his : is.Nodup) {f : ℕ → List (List ℕ)}
    (hf : ∀ i ∈ is, (f i).Nodup) : (is.flatMap fun i => (f i).map (i :: ·)).Nodup := by
  apply List.nodup_flatMap.mpr
  refine ⟨fun i hi => (hf i hi).map (List.cons_injective), ?_⟩
  apply his.imp
  intro a b hab q hqa hqb
  obtain ⟨x, -, rfl⟩ := List.mem_map.mp hqa
  obtain ⟨y, -, he⟩ := List.mem_map.mp hqb
  exact hab (List.cons.inj he).1.symm

theorem nodup_ways : (ways level).Nodup := by
  induction level with
  | zero => exact List.nodup_singleton _
  | succ level ih =>
    apply List.Nodup.append (nodup_flatMap_cons List.nodup_range fun _ _ => ih)
      (List.nodup_singleton _)
    intro q hq hnil
    obtain rfl := List.mem_singleton.mp hnil
    obtain ⟨i, -, hq⟩ := List.mem_flatMap.mp hq
    obtain ⟨q', -, he⟩ := List.mem_map.mp hq
    cases he

theorem nodup_zoneWays : zoneWays.Nodup := nodup_flatMap_cons List.nodup_range fun _ _ => nodup_ways

theorem mem_zoneWays : p ∈ zoneWays ↔ Way p := by
  unfold zoneWays Way
  simp only [List.mem_flatMap, List.mem_range, List.mem_map]
  constructor
  · intro h
    obtain ⟨i, hi, q, hq, rfl⟩ := h
    obtain ⟨hlen, hall⟩ := mem_ways.mp hq
    exact ⟨i, q, rfl, hi, hlen, hall⟩
  · intro h
    obtain ⟨i, q, rfl, hi, hlen, hall⟩ := h
    exact ⟨i, hi, q, mem_ways.mpr ⟨hlen, hall⟩, rfl⟩

theorem node_zero (h : s.cell buf addr i = 0) (q : List ℕ) : s.node buf addr (i :: q) = none := by
  unfold State.node
  exact if_pos h

theorem node_cons (h : s.cell buf addr i ≠ 0) (q : List ℕ) :
    s.node buf addr (i :: q) = s.node (s.cell buf addr i) 0 q := by
  conv_lhs => unfold State.node
  exact if_neg h

/-- What comes after a block of the tree is the way from it on. -/
theorem node_append (h : s.node buf addr (i :: p) = some b) (q : List ℕ) :
    s.node buf addr (i :: p ++ q) = s.node b 0 q := by
  have h0 : s.cell buf addr i ≠ 0 := by
    intro h0
    rw [node_zero h0] at h
    cases h
  rw [node_cons h0] at h
  rw [List.cons_append, node_cons h0]
  induction p generalizing buf addr i with
  | nil =>
    obtain rfl := Option.some.inj h
    rfl
  | cons j p ih =>
    have h1 : s.cell (s.cell buf addr i) 0 j ≠ 0 := by
      intro h1
      rw [node_zero h1] at h
      cases h
    rw [node_cons h1] at h
    rw [List.cons_append, node_cons h1]
    exact ih h h1

theorem filterMap_own (f : List ℕ → Option ℕ) : [([] : List ℕ)].filterMap f = (f []).toList := by
  cases h : f [] with
  | none => exact List.filterMap_cons_none h
  | some b => exact List.filterMap_cons_some h

/-- First the blocks below an index block are freed and then it is. -/
theorem freed_below (h0 : s.cell buf addr index ≠ 0) :
    freed (s.calls (level + 1) buf addr index) = (List.range BLOCK_INDEXES).flatMap
      (fun i => freed (s.calls level (s.cell buf addr index) 0 i)) ++ [s.cell buf addr index] := by
  conv_lhs => unfold State.calls
  rw [if_neg h0]
  unfold freed
  rw [List.filterMap_append, List.filterMap_cons_none rfl, List.filterMap_flatMap]
  rfl

/-- The blocks freed below a cell are those that the ways lead to, in this order. -/
theorem freed_calls : freed (s.calls level buf addr index) =
    (ways level).filterMap fun q => s.node buf addr (index :: q) := by
  induction level generalizing buf addr index with
  | zero =>
    unfold State.calls ways freed
    rw [filterMap_own]
    split_ifs with h0
    · rw [node_zero h0 []]
      rfl
    · rw [node_cons h0 []]
      rfl
  | succ level ih =>
    by_cases h0 : s.cell buf addr index = 0
    · unfold State.calls
      rw [if_pos h0]
      symm
      apply List.filterMap_eq_nil_iff.mpr
      intro q _
      exact node_zero h0 q
    · have hself : s.node buf addr [index] = some (s.cell buf addr index) := node_cons h0 []
      have hways : ways (level + 1) =
          (List.range BLOCK_INDEXES).flatMap (fun i => (ways level).map (i :: ·)) ++ [[]] := rfl
      rw [freed_below h0, hways, List.filterMap_append, filterMap_own, hself]
      apply congrArg (· ++ [s.cell buf addr index])
      rw [List.filterMap_flatMap]
      apply List.flatMap_congr
      intro i _
      rw [ih, List.filterMap_map]
      apply List.filterMap_congr
      intro q _
      exact (node_cons h0 (i :: q)).symm

theorem freed_truncateCalls :
    freed (s.truncateCalls inode) = zoneWays.filterMap fun p => s.nodeOf inode p := by
  have h := @freed_calls s
  unfold freed at h
  unfold freed State.truncateCalls zoneWays
  rw [List.filterMap_flatMap, List.filterMap_flatMap]
  apply List.flatMap_congr
  intro i _
  rw [h, List.filterMap_map]
  rfl

/-- An index block is read and then freed. -/
theorem read_calls (hlen : q.length < level) (hall : ∀ j ∈ q, j < BLOCK_INDEXES)
    (h : s.node buf addr (index :: q) = some b) :
    [BlockCall.bread b, BlockCall.bfree b].Sublist (s.calls level buf addr index) := by
  induction level generalizing buf addr index q with
  | zero => exact absurd hlen (Nat.not_lt_zero _)
  | succ level ih =>
    have h0 : s.cell buf addr index ≠ 0 := by
      intro h0
      rw [node_zero h0] at h
      cases h
    rw [node_cons h0] at h
    unfold State.calls
    rw [if_neg h0]
    cases q with
    | nil =>
      obtain rfl := Option.some.inj h
      rw [List.cons_append]
      exact List.Sublist.cons_cons _ (List.sublist_append_right _ _)
    | cons i q =>
      have hi : i < BLOCK_INDEXES := hall i List.mem_cons_self
      have hsub := ih (Nat.lt_of_succ_lt_succ hlen) (fun j hj => hall j (List.mem_cons_of_mem i hj)) h
      have hbelow : (s.calls level (s.cell buf addr index) 0 i).Sublist
          ((List.range BLOCK_INDEXES).flatMap fun i => s.calls level (s.cell buf addr index) 0 i) :=
        List.sublist_flatten_of_mem (List.mem_map_of_mem (List.mem_range.mpr hi))
      exact (hsub.trans hbelow).trans
        ((List.sublist_cons_self _ _).trans (List.sublist_append_left _ _))

/-- What is read is an index block. -/
theorem mem_calls_bread (h : .bread b ∈ s.calls level buf addr index) :
    ∃ q, q.length < level ∧ (∀ j ∈ q, j < BLOCK_INDEXES) ∧ s.node buf addr (index :: q) = some b := by
  induction level generalizing buf addr index with
  | zero =>
    unfold State.calls at h
    split_ifs at h
    · cases h
    · cases List.mem_singleton.mp h
  | succ level ih =>
    unfold State.calls at h
    split_ifs at h with h0
    · cases h
    cases List.mem_append.mp h with
    | inl h =>
      cases List.mem_cons.mp h with
      | inl h =>
        obtain rfl := BlockCall.bread.inj h
        exact ⟨[], Nat.succ_pos level, List.forall_mem_nil _, node_cons h0 []⟩
      | inr h =>
        obtain ⟨i, hi, h⟩ := List.mem_flatMap.mp h
        obtain ⟨q, hlen, hall, hq⟩ := ih h
        refine ⟨i :: q, Nat.succ_lt_succ hlen, ?_, (node_cons h0 (i :: q)).trans hq⟩
        exact List.forall_mem_cons.mpr ⟨List.mem_range.mp hi, hall⟩
    | inr h => cases List.mem_singleton.mp h

end Tree

section Sweep

/-- A block of the zone bitmap. -/
def IsMap (s : State) (b : ℕ) : Prop := ∃ i, s.sb.zmaps i = some b

/-- Nothing but the zone bitmap has changed. -/
structure Swept (s t : State) : Prop where
  same : Same s t
  data : ∀ c, ¬ IsMap s c → t.data c = s.data c

theorem isMap_congr (h : t.sb = s.sb) : IsMap t b ↔ IsMap s b := by
  unfold IsMap
  rw [h]

instance : IsPreorder State Swept where
  refl s := ⟨refl_of Same s, fun _ _ => rfl⟩
  trans _ _ _ h h' := ⟨trans_of Same h.same h'.same, fun c hc =>
    (h'.data c ((isMap_congr h.same.sb).not.mpr hc)).trans (h.data c hc)⟩

theorem Swept.of_data (hsame : Same s t) (h : t.data = s.data) : Swept s t :=
  ⟨hsame, fun c _ => by rw [h]⟩

theorem clearMaps_map {length idx : ℕ} {offset : ℕ → ℕ} {o : Option ℕ}
    (h : clearMaps s.sb.zmaps length offset idx n i s = some (o, t)) :
    (∀ c, ¬ IsMap s c → t.data c = s.data c) ∧ ∃ j, i ≤ j ∧ j < i + n ∧ offset j ≤ idx := by
  induction n generalizing i with
  | zero => cases h
  | succ n ih =>
    unfold clearMaps at h
    split_ifs at h
    · obtain ⟨hdata, j, hi, hj, hle⟩ := ih h
      exact ⟨hdata, j, by omega, by omega, hle⟩
    cases hz : s.sb.zmaps i with
    | none =>
      rw [hz] at h
      cases h
    | some z =>
      rw [hz] at h
      dsimp only at h
      rw [peek_bind] at h
      obtain ⟨x, u, hu, k₁⟩ := bind_eq_some.mp h
      obtain ⟨htest, rfl⟩ := lift_eq_some.mp hu
      obtain ⟨⟨⟩, w, hw, k₂⟩ := bind_eq_some.mp k₁
      obtain ⟨rfl, rfl⟩ := assert_eq_some.mp hw
      obtain ⟨map, y, hy, k₃⟩ := bind_eq_some.mp k₂
      obtain ⟨-, rfl⟩ := lift_eq_some.mp hy
      obtain ⟨-, rfl⟩ := Prod.mk.inj (Option.some.inj k₃)
      refine ⟨fun c hc => update_of_ne ?_ .., i, Nat.le_refl i, by omega, ?_⟩
      · intro hcz
        exact hc ⟨i, hz.trans (congrArg some hcz.symm)⟩
      · unfold bitmapTest bitmapMake at htest
        dsimp only at htest
        split_ifs at htest
        omega

theorem bfree_swept (dev : ℤ) (b : ℕ) : Leads Swept (bfree dev b) := by
  intro s x t h
  refine ⟨bfree_same _ _ _ _ _ h, fun c hc => ?_⟩
  unfold bfree at h
  obtain ⟨sb, u, hu, k₁⟩ := bind_eq_some.mp h
  obtain ⟨-, rfl, rfl⟩ := getSuper_eq.mp hu
  obtain ⟨⟨⟩, w, hw, k₂⟩ := bind_eq_some.mp k₁
  obtain ⟨-, rfl⟩ := assert_eq_some.mp hw
  obtain ⟨o, v, hv, k₃⟩ := bind_eq_some.mp k₂
  have hlast := congrFun (bwrite_quiet _ _ _ _ k₃).data c
  exact hlast.trans ((clearMaps_map hv).1 c hc)

theorem bread_swept (dev : ℤ) (b : ℕ) : Leads Swept (bread dev b) := fun _ _ _ h =>
  .of_data (bread_same _ _ _ _ _ h) (bread_quiet _ _ _ _ _ h).data

theorem brelse_swept (o : Option ℕ) : Leads Swept (brelse o) := fun _ _ _ h =>
  .of_data (brelse_same _ _ _ _ h) (brelse_quiet _ _ _ _ h).data

theorem inodeBfree_swept (inode level buf addr index : ℕ) :
    Leads Swept (inodeBfree inode level buf addr index) := by
  induction level generalizing buf addr index with
  | zero =>
    exact .bind (leads_peek _) fun _ => .ite (leads_pure _)
      (.bind (leads_peek _) fun _ => bfree_swept _ _)
  | succ level ih =>
    unfold inodeBfree
    exact .bind (leads_peek _) fun _ => .ite (leads_pure _) (.bind (leads_peek _) fun _ =>
      .bind (bread_swept _ _) fun _ => .bind (leads_loop (fun _ => ih _ _ _) _ _) fun _ =>
      .bind (brelse_swept _) fun _ => .bind (leads_peek _) fun _ => bfree_swept _ _)

theorem sub32_ge {x y : ℕ} : x - y ≤ sub32 x y := by
  by_cases hle : y ≤ x
  · rw [sub32_of_le hle]
  · omega

/-- `bfree` does not take a block before the first data zone. -/
theorem bfree_base {dev : ℤ} {x : Unit} (h : bfree dev b s = some (x, t)) : s.base ≤ b := by
  unfold bfree at h
  obtain ⟨sb, u, hu, k₁⟩ := bind_eq_some.mp h
  obtain ⟨-, rfl, rfl⟩ := getSuper_eq.mp hu
  obtain ⟨⟨⟩, w, hw, k₂⟩ := bind_eq_some.mp k₁
  obtain ⟨-, rfl⟩ := assert_eq_some.mp hw
  obtain ⟨o, v, hv, -⟩ := bind_eq_some.mp k₂
  obtain ⟨-, j, -, hj, hle⟩ := clearMaps_map hv
  refine le_trans ?_ hle
  unfold bfreeOffset State.base
  refine le_trans ?_ sub32_ge
  omega

end Sweep

section Counts

theorem clearMaps_counts (maps : ℕ → Option ℕ) (length : ℕ) (offset : ℕ → ℕ) (idx n i : ℕ) :
    Keeps State.counts (clearMaps maps length offset idx n i) := by
  induction n generalizing i with
  | zero => exact keeps_stop
  | succ n ih =>
    unfold clearMaps
    apply Keeps.ite (ih _)
    cases maps i with
    | none => exact keeps_stop
    | some b =>
      exact .bind (keeps_peek _) fun _ => .bind (keeps_lift _) fun _ => .bind (keeps_assert _) fun _ =>
        .bind (keeps_lift _) fun _ => .bind (keeps_poke fun _ => rfl) fun _ => keeps_pure _

theorem bfree_counts (dev : ℤ) (b : ℕ) : Keeps State.counts (bfree dev b) := by
  unfold bfree getSuper
  exact .bind (.bind (keeps_peek _) fun _ => .bind (keeps_assert _) fun _ => keeps_peek _) fun _ =>
    .bind (keeps_assert _) fun _ => .bind (clearMaps_counts _ _ _ _ _ _) fun _ => bwrite_counts _

theorem keeps_loop {f : ℕ → Prog State Unit} (hf : ∀ i, Keeps State.counts (f i)) (n i : ℕ) :
    Keeps State.counts (loop f n i) := by
  induction n generalizing i with
  | zero => exact keeps_pure ()
  | succ n ih => exact (hf i).bind fun _ => ih (i + 1)

/-- `inode_bfree` gives back the holds on the index blocks that it reads. -/
theorem inodeBfree_counts (inode level buf addr index : ℕ) :
    Keeps State.counts (inodeBfree inode level buf addr index) := by
  induction level generalizing buf addr index with
  | zero =>
    exact .bind (keeps_peek _) fun _ => .ite (keeps_pure _)
      (.bind (keeps_peek _) fun _ => bfree_counts _ _)
  | succ level ih =>
    unfold inodeBfree
    refine .bind (keeps_peek _) fun _ => .ite (keeps_pure _) (.bind (keeps_peek _) fun _ => ?_)
    intro s x t h
    obtain ⟨b, u₁, hread, k₁⟩ := bind_eq_some.mp h
    obtain ⟨⟨⟩, u₂, hloop, k₂⟩ := bind_eq_some.mp k₁
    obtain ⟨⟨⟩, u₃, hrel, k₃⟩ := bind_eq_some.mp k₂
    rw [peek_bind] at k₃
    obtain ⟨rfl, h₁⟩ := bread_counts hread
    have h₂ : u₂.counts = u₁.counts := keeps_loop (fun _ => ih _ _ _) _ _ _ _ _ hloop
    obtain ⟨-, h₃⟩ := brelse_counts hrel
    have h₄ : t.counts = u₃.counts := bfree_counts _ _ _ _ _ k₃
    rw [h₄, h₃]
    unfold State.less
    rw [h₂, h₁, update_idem, update_self, Nat.add_sub_cancel, update_eq_self]

end Counts

section Calls

/-- The blocks of `l` that are read are not in `X`, as far as they can be freed. -/
def Clear (s : State) (X : Set ℕ) (l : List BlockCall) : Prop :=
  ∀ b, .bread b ∈ l → s.base ≤ b → b ∉ X

theorem cell_data (h : u.data b = s.data b) : u.cell b addr i = s.cell b addr i := by
  unfold State.cell
  rw [h]

/-- `inode_bfree` makes the calls for the tree below the cell. -/
theorem inodeBfreeNoted_calls (hX : ∀ c, IsMap s c → c ∈ X) (hsb : u.sb = s.sb)
    (hu : ∀ c, c ∉ X → u.data c = s.data c) (hcell : u.cell buf addr index = s.cell buf addr index)
    (hbuf : ¬ IsMap s buf) (hclear : Clear s X (s.calls level buf addr index))
    (h : inodeBfreeNoted inode level buf addr index (u, l) = some ((), (t, l'))) :
    l' = l ++ s.calls level buf addr index := by
  induction level generalizing buf addr index u l l' t with
  | zero =>
    unfold inodeBfreeNoted at h
    rw [still_peek_bind] at h
    unfold State.calls
    rw [← hcell]
    unfold State.cell
    split_ifs at h ⊢
    · obtain ⟨-, hlast⟩ := Prod.mk.inj (Option.some.inj h)
      rw [(Prod.mk.inj hlast).2, List.append_nil]
    · rw [still_peek_bind] at h
      exact (note_eq_some.mp h).2
  | succ level ih =>
    unfold inodeBfreeNoted at h
    rw [still_peek_bind] at h
    obtain ⟨c, hc⟩ : ∃ c, s.cell buf addr index = c := ⟨_, rfl⟩
    have hcur : (u.data buf).rd16 (addr + 2 * index) = c := hcell.trans hc
    rw [hcur] at h
    unfold State.calls at hclear ⊢
    rw [hc] at hclear ⊢
    split_ifs at h hclear ⊢ with h0
    · obtain ⟨-, hlast⟩ := Prod.mk.inj (Option.some.inj h)
      rw [(Prod.mk.inj hlast).2, List.append_nil]
    rw [still_peek_bind] at h
    obtain ⟨b, ⟨u₁, l₁⟩, hr, k₁⟩ := bind_eq_some.mp h
    obtain ⟨hread, rfl⟩ := note_eq_some.mp hr
    obtain rfl := bread_eq hread
    obtain ⟨⟨⟩, ⟨u₂, l₂⟩, hloop, k₂⟩ := bind_eq_some.mp k₁
    obtain ⟨⟨⟩, ⟨u₃, l₃⟩, hr', k₃⟩ := bind_eq_some.mp k₂
    obtain ⟨hrel, rfl⟩ := still_eq_some.mp hr'
    rw [still_peek_bind] at k₃
    obtain ⟨hfree, rfl⟩ := note_eq_some.mp k₃
    have hbelow : Swept u₁ u₂ := leads_loop (fun _ => inodeBfree_swept _ _ _ _ _) _ _ _ _ _
      ((erases_loop (fun _ => inodeBfreeNoted_erases _ _ _ _ _) _ _).forget hloop)
    have hread' : Swept u u₁ := bread_swept _ _ _ _ _ hread
    have hall : Swept u u₃ :=
      trans_of Swept (trans_of Swept hread' hbelow) (brelse_swept _ _ _ _ hrel)
    -- The cell is read again: it is in a block where nothing has changed.
    have hagain : (u₃.data buf).rd16 (addr + 2 * index) = b := by
      rw [hall.data buf ((isMap_congr hsb).not.mpr hbuf)]
      exact hcur
    rw [hagain] at hfree ⊢
    have hbase : s.base ≤ b := by
      have hle := bfree_base hfree
      unfold State.base at hle ⊢
      rw [hall.same.sb, hsb] at hle
      exact hle
    have hout : b ∉ X := hclear b (List.mem_append_left _ List.mem_cons_self) hbase
    have hdata : ∀ c, c ∉ X → u₁.data c = s.data c := fun c hc =>
      (congrFun (bread_quiet _ _ _ _ _ hread).data c).trans (hu c hc)
    have hnotes := loop_notes (f := fun i => s.calls level b 0 i) (fun _ v => Swept u₁ v)
      BLOCK_INDEXES 0 ?_ (refl_of Swept u₁) hloop
    · obtain ⟨rfl, -⟩ := hnotes
      rw [List.range_eq_range']
      simp only [List.append_assoc, List.cons_append, List.nil_append]
    · intro j _ hj v w m m' hv hturn
      have hsb₁ : u₁.sb = s.sb := hread'.same.sb.trans hsb
      have hdatav : ∀ c, c ∉ X → v.data c = s.data c := fun c hc =>
        (hv.data c ((isMap_congr hsb₁).not.mpr fun hm => hc (hX c hm))).trans (hdata c hc)
      have hclear' : Clear s X (s.calls level b 0 j) := by
        intro d hd
        apply hclear d
        apply List.mem_append_left
        apply List.mem_cons_of_mem
        exact List.mem_flatMap.mpr ⟨j, List.mem_range.mpr (by omega), hd⟩
      refine ⟨ih (hv.same.sb.trans hsb₁) hdatav (cell_data (hdatav b hout))
        (fun hm => hout (hX b hm)) hclear' hturn, ?_⟩
      exact trans_of Swept hv
        (inodeBfree_swept _ _ _ _ _ _ _ _ ((inodeBfreeNoted_erases _ _ _ _ _).forget hturn))

end Calls

end Onix.Fs
