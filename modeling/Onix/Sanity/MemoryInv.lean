import Onix.Lib.Cow
import Onix.Sanity.BitmapScan
import Onix.Sanity.MemorySpec

/-! The invariant of the address spaces: which frames are directories, page
tables, user data or free, and the copy-on-write sharing that the tables stand
for. -/

namespace Onix.Memory

open Function Code Bytes

section Counts

variable {s : State} {f i n : ℕ} {m : ℕ → ℕ}

/-- The number of free frames. -/
def zeros (m : ℕ → ℕ) (n : ℕ) : ℕ := ((Finset.range n).filter fun i => m i = 0).card

theorem zeros_congr {w : ℕ → ℕ} (h : ∀ i < n, w i = 0 ↔ m i = 0) : zeros w n = zeros m n := by
  unfold zeros
  congr 1
  exact Finset.filter_congr fun i hi => h i (Finset.mem_range.mp hi)

theorem zeros_update (v : ℕ) (hi : i < n) (h0 : m i = 0) (hv : v ≠ 0) :
    zeros (update m i v) n + 1 = zeros m n := by
  have hset : (Finset.range n).filter (fun j => update m i v j = 0) =
      ((Finset.range n).filter fun j => m j = 0).erase i := by
    ext j
    by_cases hj : j = i
    · subst hj
      simp [hv]
    · simp [hj]
  unfold zeros
  rw [hset]
  exact Finset.card_erase_add_one (Finset.mem_filter.mpr ⟨Finset.mem_range.mpr hi, h0⟩)

/-- The counts of frames: the kernel's are never free, and `free_pages` counts
the free ones and those that `mapping_init` took without counting them. -/
structure Counts (s : State) : Prop where
  start : 4 < s.startPage ∧ s.startPage < 4096
  total : 4096 < s.totalPages ∧ s.totalPages ≤ 2 ^ 20
  kernel : ∀ i < 4096, 1 ≤ s.memoryMap i
  free : s.freePages + s.startPage = zeros s.memoryMap s.totalPages + 4096

theorem Counts.firstFree (h : Counts s) (hf : s.firstFree = some f) :
    4096 ≤ f ∧ f < s.totalPages ∧ s.memoryMap f = 0 := by
  have := h.start
  have := h.total
  obtain ⟨hge, hlt, h0⟩ := scanFrames_some hf
  refine ⟨?_, by omega, h0⟩
  by_contra hk
  have := h.kernel f (by omega)
  omega

theorem Counts.take (h : Counts s) (hf : s.firstFree = some f) : Counts (s.take f) := by
  obtain ⟨hge, hlt, h0⟩ := h.firstFree hf
  have hz := zeros_update 1 hlt h0 (by decide)
  have := h.free
  have := h.start
  refine ⟨h.start, h.total, fun i hi => ?_, ?_⟩
  · unfold State.take State.setCount
    dsimp only
    rw [update_of_ne (by omega)]
    exact h.kernel i hi
  · unfold State.take State.setCount
    dsimp only
    rw [sub32_of_le (by omega)]
    omega

theorem Counts.zeros_lt (h : Counts s) : zeros s.memoryMap s.totalPages + 4096 ≤ s.totalPages := by
  have hsub : (Finset.range s.totalPages).filter (fun i => s.memoryMap i = 0) ⊆
      Finset.Ico 4096 s.totalPages := by
    intro i hi
    obtain ⟨hlt, h0⟩ := Finset.mem_filter.mp hi
    refine Finset.mem_Ico.mpr ⟨?_, Finset.mem_range.mp hlt⟩
    by_contra hk
    have := h.kernel i (by omega)
    omega
  have := Finset.card_le_card hsub
  rw [Nat.card_Ico] at this
  have := h.total
  unfold zeros
  omega

/-- One count of a frame is given back. -/
def State.put (s : State) (f : ℕ) : State :=
  { s.setCount f (s.memoryMap f - 1) with
    freePages := if s.memoryMap f = 1 then s.freePages + 1 else s.freePages }

theorem Counts.put (h : Counts s) (hge : 4096 ≤ f) (hlt : f < s.totalPages)
    (hpos : 0 < s.memoryMap f) : Counts (s.put f) := by
  refine ⟨h.start, h.total, fun i hi => ?_, ?_⟩
  · unfold State.put State.setCount
    dsimp only
    rw [update_of_ne (by omega)]
    exact h.kernel i hi
  · have := h.free
    unfold State.put State.setCount
    dsimp only
    split_ifs with h1
    · have hz := zeros_update 1 (m := update s.memoryMap f 0) hlt (update_self f 0 _) (by decide)
      rw [update_idem, show (1 : ℕ) = s.memoryMap f from h1.symm, update_eq_self] at hz
      rw [show s.memoryMap f - 1 = 0 by omega]
      omega
    · rw [zeros_congr (m := s.memoryMap) (w := update s.memoryMap f (s.memoryMap f - 1))
        fun i _ => ?_]
      · omega
      · by_cases hi : i = f
        · subst hi
          rw [update_self]
          omega
        · rw [update_of_ne hi]

theorem putPage_eq (h : Counts s) (hge : 4096 ≤ f) (hlt : f < s.totalPages)
    (hpos : 0 < s.memoryMap f) : putPage (pageAddr f) s = .next ((), s.put f) := by
  have htotal := h.total
  have hstart := h.start
  have hidx : idx (pageAddr f) = f := idx_pageAddr (by omega)
  have hc := h.put hge hlt hpos
  have hbound := hc.free
  have hzero := hc.zeros_lt
  have hs : (s.put f).startPage = s.startPage := rfl
  have ht : (s.put f).totalPages = s.totalPages := rfl
  have hwrap : (s.freePages + 1) % 2 ^ 32 = s.freePages + 1 := by
    have := h.free
    have := h.zeros_lt
    exact Nat.mod_eq_of_lt (by omega)
  have hstate : (if (s.setCount f (s.memoryMap f - 1)).memoryMap f = 0 then
      { s.setCount f (s.memoryMap f - 1) with
        freePages := ((s.setCount f (s.memoryMap f - 1)).freePages + 1) % 2 ^ 32 }
      else s.setCount f (s.memoryMap f - 1)) = s.put f := by
    have hself : (s.setCount f (s.memoryMap f - 1)).memoryMap f = s.memoryMap f - 1 :=
      update_self _ _ _
    have hfree : (s.setCount f (s.memoryMap f - 1)).freePages = s.freePages := rfl
    unfold State.put
    by_cases h1 : s.memoryMap f = 1
    · rw [if_pos (by omega), if_pos h1, hfree, hwrap]
    · rw [if_neg (by omega), if_neg h1]
      rfl
  unfold putPage
  rw [assert_bind (by simpa using pageAddr_mod f), peek_bind]
  dsimp only [id]
  rw [hidx, assert_bind (by simp; omega), assert_bind (decide_eq_true (Nat.succ_le_of_lt hpos)),
    poke_bind, poke_bind, hstate, peek_bind]
  dsimp only [id]
  have hpos' : 0 < (s.put f).freePages ∧ (s.put f).freePages < (s.put f).totalPages := by omega
  unfold Code.assert Outcome.assert
  rw [if_pos (by simpa using hpos')]

end Counts

section Spaces

/-- The page directory of each space and how many of its entries count so far. -/
abbrev Spaces := ℕ → Option (ℕ × ℕ)

/-- The present entry of page `v` under directory `d`. -/
def State.entryAt (s : State) (d v : ℕ) : Option PageEntryT :=
  if (s.page d (v / 1024)).present then
    if (s.page (s.page d (v / 1024)).index.toNat (v % 1024)).present then
      some (s.page (s.page d (v / 1024)).index.toNat (v % 1024))
    else none
  else none

/-- The sharing of frames that the tables stand for. -/
def State.cow (s : State) (sp : Spaces) : Cow ℕ ℕ ℕ Page where
  map t v :=
    match sp t with
    | some (d, hi) =>
      if 4 ≤ v / 1024 ∧ v / 1024 < hi then
        (s.entryAt d v).map fun e => (e.index.toNat, e.write)
      else none
    | none => none
  data := s.page

/-- Frame `f` is the page table of entry `i` of the directory of space `t`. -/
def Table (s : State) (sp : Spaces) (t i f : ℕ) : Prop :=
  ∃ d hi, sp t = some (d, hi) ∧ 4 ≤ i ∧ i < hi ∧ (s.page d i).present = true ∧
    (s.page d i).index.toNat = f

/-- Frame `f` holds user data. -/
def Used (s : State) (sp : Spaces) (f : ℕ) : Prop := ((s.cow sp).uses f).Nonempty

/-- The frames of directories, tables and data are apart and counted. -/
structure Layout (s : State) (sp : Spaces) : Prop where
  counts : Counts s
  map : s.kernelMap.Fits ∧ s.kernelMap.offset = 256 ∧ s.kernelMap.length = 480
  kernelDir : Dir s 1 ∧ ∀ i, 4 ≤ i → i < 1023 → (s.page 1 i).present = false
  dir : ∀ t d hi, sp t = some (d, hi) → Dir s d ∧ 256 ≤ d ∧ hi ≤ 1023 ∧
    s.kernelMap.bits.bit (d - 256) = true
  dir_inj : ∀ t u d hi hi', sp t = some (d, hi) → sp u = some (d, hi') → t = u
  table : ∀ t i f, Table s sp t i f → 4096 ≤ f ∧ f < s.totalPages ∧ s.memoryMap f = 1 ∧
    ¬ Used s sp f
  table_inj : ∀ t u i j f, Table s sp t i f → Table s sp u j f → t = u ∧ i = j
  user : ∀ t i d hi, sp t = some (d, hi) → 4 ≤ i → i < hi → (s.page d i).present = true →
    (s.page d i).user = true ∧
      ∀ j < 1024, (s.page (s.page d i).index.toNat j).present = true →
        (s.page (s.page d i).index.toNat j).user = true
  used : ∀ f, Used s sp f → 4096 ≤ f ∧ f < s.totalPages
  cow : (s.cow sp).Inv s.memoryMap

variable {s s' : State} {sp : Spaces} {t u d hi i j f v : ℕ} {e : PageEntryT}

theorem entryAt_congr (hd : s'.page d (v / 1024) = s.page d (v / 1024))
    (ht : (s.page d (v / 1024)).present = true →
      s'.page (s.page d (v / 1024)).index.toNat (v % 1024) =
        s.page (s.page d (v / 1024)).index.toNat (v % 1024)) :
    s'.entryAt d v = s.entryAt d v := by
  unfold State.entryAt
  rw [hd]
  split_ifs with hp h1 h2 h2
  · rw [ht hp]
  · rw [ht hp] at h1
    exact absurd h1 h2
  · rw [ht hp] at h1
    exact absurd h2 h1
  · rfl
  · rfl

theorem cow_map {n : ℕ} (hsp : sp t = some (d, n)) : (s.cow sp).map t v =
    if 4 ≤ v / 1024 ∧ v / 1024 < n then (s.entryAt d v).map fun e => (e.index.toNat, e.write)
    else none := by
  simp only [State.cow, hsp]

theorem cow_map_none (hsp : sp t = none) : (s.cow sp).map t v = none := by
  simp only [State.cow, hsp]

theorem table_of_present (hsp : sp t = some (d, hi)) (hi4 : 4 ≤ i) (hlt : i < hi)
    (hp : (s.page d i).present = true) : Table s sp t i (s.page d i).index.toNat :=
  ⟨d, hi, hsp, hi4, hlt, hp, rfl⟩

variable (s') in
/-- A change that leaves the directories, the tables and the counts of the frames
in use alone. -/
theorem Layout.congr (h : Layout s sp) (hc : Counts s') (htotal : s'.totalPages = s.totalPages)
    (hmap : s'.kernelMap.Fits ∧ s'.kernelMap.offset = 256 ∧ s'.kernelMap.length = 480)
    (hbits : ∀ t d hi, sp t = some (d, hi) → s'.kernelMap.bits.bit (d - 256) = true)
    (hk : s'.page 1 = s.page 1)
    (hd : ∀ t d hi, sp t = some (d, hi) → s'.page d = s.page d)
    (ht : ∀ t i f, Table s sp t i f → s'.page f = s.page f ∧ s'.memoryMap f = s.memoryMap f)
    (hu : ∀ f, Used s sp f → s'.memoryMap f = s.memoryMap f) :
    Layout s' sp ∧ (s'.cow sp).map = (s.cow sp).map := by
  have hm : (s'.cow sp).map = (s.cow sp).map := by
    funext t v
    cases hsp : sp t with
    | none => rw [cow_map_none hsp, cow_map_none hsp]
    | some r =>
      obtain ⟨d, hi⟩ := r
      rw [cow_map hsp, cow_map hsp]
      split_ifs with hv
      · refine congrArg _ (entryAt_congr (by rw [hd t d hi hsp]) fun hp => ?_)
        rw [(ht t _ _ (table_of_present hsp hv.1 hv.2 hp)).1]
      · rfl
  have huse : ∀ f, Used s' sp f ↔ Used s sp f := by
    intro f
    unfold Used Cow.uses
    rw [hm]
  have htab : ∀ t i f, Table s' sp t i f ↔ Table s sp t i f := by
    intro t i f
    constructor
    · rintro ⟨d, hi, hsp, h4, hlt, hp, he⟩
      rw [hd t d hi hsp] at hp he
      exact ⟨d, hi, hsp, h4, hlt, hp, he⟩
    · rintro ⟨d, hi, hsp, h4, hlt, hp, he⟩
      rw [← hd t d hi hsp] at hp he
      exact ⟨d, hi, hsp, h4, hlt, hp, he⟩
  refine ⟨⟨hc, hmap, ⟨h.kernelDir.1.congr hk, ?_⟩, fun t d hi hsp => ?_, h.dir_inj,
    fun t i f hf => ?_, fun t u i j f hf hg => ?_, fun t i d hi hsp h4 hlt hp => ?_,
    fun f hf => ?_, h.cow.congr hm fun f hf => hu f hf⟩, hm⟩
  · rw [hk]
    exact h.kernelDir.2
  · obtain ⟨hdir, hge, hle, -⟩ := h.dir t d hi hsp
    exact ⟨hdir.congr (hd t d hi hsp), hge, hle, hbits t d hi hsp⟩
  · have hf := (htab t i f).mp hf
    rw [huse, htotal, (ht t i f hf).2]
    exact h.table t i f hf
  · exact h.table_inj t u i j f ((htab t i f).mp hf) ((htab u j f).mp hg)
  · rw [hd t d hi hsp] at hp ⊢
    rw [(ht t i _ (table_of_present hsp h4 hlt hp)).1]
    exact h.user t i d hi hsp h4 hlt hp
  · rw [htotal]
    exact h.used f ((huse f).mp hf)

/-- A taken frame is spare: nothing refers to it. -/
structure Spare (s : State) (sp : Spaces) (f : ℕ) : Prop where
  ge : 4096 ≤ f
  lt : f < s.totalPages
  table : ∀ t i, ¬ Table s sp t i f
  used : ¬ Used s sp f

theorem Layout.spare_of_zero (h : Layout s sp) (hge : 4096 ≤ f) (hlt : f < s.totalPages)
    (h0 : s.memoryMap f = 0) : Spare s sp f := by
  refine ⟨hge, hlt, fun t i ht => ?_, fun hu => ?_⟩
  · have := (h.table t i f ht).2.2.1
    omega
  · obtain ⟨x, hx⟩ := hu
    have := h.cow.pos hx
    omega

theorem Layout.spare (h : Layout s sp) (hf : s.firstFree = some f) : Spare s sp f := by
  obtain ⟨hge, hlt, h0⟩ := h.counts.firstFree hf
  exact h.spare_of_zero hge hlt h0

theorem Layout.take (h : Layout s sp) (hf : s.firstFree = some f) :
    Layout (s.take f) sp ∧ ((s.take f).cow sp).map = (s.cow sp).map := by
  have hs := h.spare hf
  have hne : ∀ g, g ≠ f → (s.take f).memoryMap g = s.memoryMap g := fun g hg => update_of_ne hg _ _
  refine h.congr _ (h.counts.take hf) rfl h.map (fun t d hi hsp => (h.dir t d hi hsp).2.2.2) rfl
    (fun _ _ _ _ => rfl) (fun t i g hg => ⟨rfl, hne g ?_⟩) fun g hg => hne g ?_
  · rintro rfl
    exact hs.table t i hg
  · rintro rfl
    exact hs.used hg

/-- `copy_page` into a free frame. -/
theorem Layout.copied (h : Layout s sp) (hf : s.firstFree = some f) (src : ℕ) :
    Layout (s.copied f src) sp ∧ ((s.copied f src).cow sp).map = (s.cow sp).map ∧
      ∀ g, g ≠ f → g ≠ 2 → (s.copied f src).page g = s.page g := by
  have hs := h.spare hf
  have hfge := hs.ge
  have hpage : ∀ g, g ≠ f → g ≠ 2 → (s.copied f src).page g = s.page g := by
    intro g hgf hg2
    unfold State.copied
    rw [page_setEntry, update_of_ne hg2, page_setPage, update_of_ne hgf]
    rfl
  have hne : ∀ g, g ≠ f → (s.copied f src).memoryMap g = s.memoryMap g :=
    fun g hg => update_of_ne hg _ _
  have hc := h.counts.take hf
  have hdir : ∀ t d hi, sp t = some (d, hi) → (s.copied f src).page d = s.page d := by
    intro t d hi hsp
    obtain ⟨hd, hge, -, -⟩ := h.dir t d hi hsp
    have := hd.lt
    exact hpage d (by omega) (by omega)
  have htab : ∀ t i g, Table s sp t i g →
      (s.copied f src).page g = s.page g ∧ (s.copied f src).memoryMap g = s.memoryMap g := by
    intro t i g hg
    have := (h.table t i g hg).1
    have hgf : g ≠ f := by
      rintro rfl
      exact hs.table t i hg
    exact ⟨hpage g hgf (by omega), hne g hgf⟩
  have huse : ∀ g, Used s sp g → (s.copied f src).memoryMap g = s.memoryMap g := by
    intro g hg
    refine hne g ?_
    rintro rfl
    exact hs.used hg
  obtain ⟨h1, hm⟩ := h.congr (s.copied f src) ⟨hc.start, hc.total, hc.kernel, hc.free⟩ rfl
    h.map (fun t d hi hsp => (h.dir t d hi hsp).2.2.2) (hpage 1 (by omega) (by decide)) hdir htab huse
  exact ⟨h1, hm, hpage⟩

/-- The contents of a frame that no directory or table is in. -/
theorem Layout.setPage (h : Layout s sp) (p : Page) (hf : 6 ≤ f)
    (hd : f < 4096 → ∀ t hi, sp t ≠ some (f, hi)) (ht : ∀ t i, ¬ Table s sp t i f) :
    Layout (s.setPage f p) sp ∧ ((s.setPage f p).cow sp).map = (s.cow sp).map := by
  refine h.congr _ ⟨h.counts.start, h.counts.total, h.counts.kernel, h.counts.free⟩ rfl h.map
    (fun t d hi hsp => (h.dir t d hi hsp).2.2.2) ?_ (fun t d hi hsp => ?_) (fun t i g hg => ⟨?_, rfl⟩)
    fun _ _ => rfl
  · exact update_of_ne (by omega) _ _
  · refine update_of_ne ?_ _ _
    rintro rfl
    exact hd (h.dir t _ hi hsp).1.lt t hi hsp
  · refine update_of_ne ?_ _ _
    rintro rfl
    exact ht t i hg

variable (s') in
/-- An entry of the table of space `t` for the page `v` is replaced, the counts
being `m` afterwards. -/
theorem Layout.setEntry (h : Layout s sp) (hsp : sp t = some (d, hi)) (hv : 4 ≤ v / 1024)
    (hlt : v / 1024 < hi) (hp : (s.page d (v / 1024)).present = true)
    (hf : (s.page d (v / 1024)).index.toNat = f) (he : e.present = true → e.user = true)
    (hpage : s'.page = update s.page f (update (s.page f) (v % 1024) e))
    (htotal : s'.totalPages = s.totalPages) (hkmap : s'.kernelMap = s.kernelMap) (hc : Counts s')
    (ht : ∀ u i g, Table s sp u i g → s'.memoryMap g = s.memoryMap g)
    (hcow : ((s.cow sp).set t v
      (if e.present then some (e.index.toNat, e.write) else none)).Inv s'.memoryMap)
    (hnew : e.present = true → 4096 ≤ e.index.toNat ∧ e.index.toNat < s.totalPages ∧
      ∀ u i, ¬ Table s sp u i e.index.toNat) :
    Layout s' sp ∧ (s'.cow sp).map = ((s.cow sp).set t v
      (if e.present then some (e.index.toNat, e.write) else none)).map := by
  have htf : Table s sp t (v / 1024) f := hf ▸ table_of_present hsp hv hlt hp
  obtain ⟨hge, -, -, hnot⟩ := h.table t _ f htf
  have hdir : ∀ u d hi, sp u = some (d, hi) → s'.page d = s.page d := by
    intro u d' hi' hsp'
    have := (h.dir u d' hi' hsp').1.lt
    rw [hpage, update_of_ne (by omega)]
  have htab : ∀ u i g, Table s' sp u i g ↔ Table s sp u i g := by
    intro u i g
    constructor
    · rintro ⟨d', hi', hsp', h4, hlt', hp', he'⟩
      rw [hdir u d' hi' hsp'] at hp' he'
      exact ⟨d', hi', hsp', h4, hlt', hp', he'⟩
    · rintro ⟨d', hi', hsp', h4, hlt', hp', he'⟩
      rw [← hdir u d' hi' hsp'] at hp' he'
      exact ⟨d', hi', hsp', h4, hlt', hp', he'⟩
  have hm : (s'.cow sp).map = ((s.cow sp).set t v
      (if e.present then some (e.index.toNat, e.write) else none)).map := by
    funext u w
    rw [Cow.map_set]
    by_cases huw : u = t ∧ w = v
    · obtain ⟨rfl, rfl⟩ := huw
      rw [if_pos ⟨rfl, rfl⟩, cow_map hsp, if_pos ⟨hv, hlt⟩]
      unfold State.entryAt
      rw [hdir u d hi hsp, if_pos hp, hf, hpage, update_self, update_self]
      by_cases hep : e.present = true
      · rw [if_pos hep, if_pos hep]
        rfl
      · rw [if_neg hep, if_neg hep]
        rfl
    · rw [if_neg huw]
      cases hsu : sp u with
      | none => rw [cow_map_none hsu, cow_map_none hsu]
      | some r =>
        obtain ⟨d', hi'⟩ := r
        rw [cow_map hsu, cow_map hsu]
        split_ifs with hw
        · refine congrArg _ (entryAt_congr (by rw [hdir u d' hi' hsu]) fun hp' => ?_)
          by_cases hg : (s.page d' (w / 1024)).index.toNat = f
          · have htw := table_of_present hsu hw.1 hw.2 hp'
            rw [hg] at htw
            obtain ⟨rfl, hdiv⟩ := h.table_inj u t _ _ f htw htf
            rw [hg, hpage, update_self, update_of_ne]
            intro hmod
            refine huw ⟨rfl, ?_⟩
            rw [← Nat.div_add_mod w 1024, hdiv, hmod, Nat.div_add_mod]
          · rw [hpage, update_of_ne hg]
        · rfl
  have huse : ∀ g, Used s' sp g →
      Used s sp g ∨ (e.present = true ∧ g = e.index.toNat) := by
    rintro g ⟨x, hx⟩
    have hx : x ∈ ((s.cow sp).set t v
        (if e.present then some (e.index.toNat, e.write) else none)).uses g := by
      unfold Cow.uses at hx ⊢
      rwa [hm] at hx
    rw [Cow.mem_uses_set] at hx
    split_ifs at hx with hxv hep
    · obtain ⟨b, hb⟩ := hx
      exact Or.inr ⟨hep, (Prod.mk.inj (Option.some.inj hb)).1.symm⟩
    · obtain ⟨b, hb⟩ := hx
      exact absurd hb (by simp)
    · exact Or.inl ⟨x, hx⟩
  refine ⟨⟨hc, hkmap ▸ h.map, ⟨?_, ?_⟩, fun u d' hi' hsp' => ?_, h.dir_inj,
    fun u i g hg => ?_, fun u u' i j g hg hg' => ?_, fun u i d' hi' hsp' h4 hlt' hp' => ?_,
    fun g hg => ?_, ?_⟩, hm⟩
  · exact h.kernelDir.1.congr (by rw [hpage, update_of_ne (by omega)])
  · rw [hpage, update_of_ne (by omega)]
    exact h.kernelDir.2
  · obtain ⟨h1, h2, h3, h4⟩ := h.dir u d' hi' hsp'
    exact ⟨h1.congr (hdir u d' hi' hsp'), h2, h3, hkmap ▸ h4⟩
  · have hg := (htab u i g).mp hg
    obtain ⟨h1, h2, h3, h4⟩ := h.table u i g hg
    refine ⟨h1, by rw [htotal]; exact h2, by rw [ht u i g hg]; exact h3, fun hu => ?_⟩
    rcases huse g hu with hu | ⟨hep, rfl⟩
    · exact h4 hu
    · exact (hnew hep).2.2 u i hg
  · exact h.table_inj u u' i j g ((htab u i g).mp hg) ((htab u' j g).mp hg')
  · rw [hdir u d' hi' hsp'] at hp' ⊢
    obtain ⟨h1, h2⟩ := h.user u i d' hi' hsp' h4 hlt' hp'
    refine ⟨h1, fun j hj hpj => ?_⟩
    rw [hpage] at hpj ⊢
    by_cases hg : (s.page d' i).index.toNat = f
    · rw [hg, update_self] at hpj ⊢
      by_cases hjv : j = v % 1024
      · subst hjv
        rw [update_self] at hpj ⊢
        exact he hpj
      · rw [update_of_ne hjv] at hpj ⊢
        rw [hg] at h2
        exact h2 j hj hpj
    · rw [update_of_ne hg] at hpj ⊢
      exact h2 j hj hpj
  · rw [htotal]
    rcases huse g hg with hg | ⟨hep, rfl⟩
    · exact h.used g hg
    · exact ⟨(hnew hep).1, (hnew hep).2.1⟩
  · exact hcow.congr hm fun _ _ => rfl

end Spaces

end Onix.Memory
