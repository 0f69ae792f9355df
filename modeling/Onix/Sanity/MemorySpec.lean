import Onix.Spec.Memory

/-! What the functions that reach frames through the current tables do, as
changes of the state: one equation each, under what they need of the directory. -/

namespace Onix.Memory

open Function Code

variable {s : State} {d i j k f n v a : ℕ} {e : PageEntryT} {p : Page}

@[simp] theorem page_setPage (s : State) (f : ℕ) (p : Page) :
    (s.setPage f p).page = update s.page f p := rfl

@[simp] theorem page_setEntry (s : State) (f i : ℕ) (e : PageEntryT) :
    (s.setEntry f i e).page = update s.page f (update (s.page f) i e) := rfl

@[simp] theorem entryInit_present (i : ℕ) : (entryInit i).present = true := rfl

theorem entryInit_index (h : i < 2 ^ 20) : (entryInit i).index.toNat = i := by
  unfold entryInit
  simp only [BitVec.toNat_ofNat]
  exact Nat.mod_eq_of_lt h

theorem pageAddr_eq (h : i < 2 ^ 20) : pageAddr i = i * PAGE_SIZE := by
  unfold pageAddr PAGE_SIZE
  exact Nat.mod_eq_of_lt (by omega)

theorem idx_pageAddr (h : i < 2 ^ 20) : idx (pageAddr i) = i := by
  rw [pageAddr_eq h]
  exact Nat.mul_div_cancel i (by decide)

theorem pageAddr_mod (i : ℕ) : pageAddr i % PAGE_SIZE = 0 := by
  unfold pageAddr PAGE_SIZE
  omega

theorem didx_tableAddr (h : i < 1024) : didx (tableAddr i) = 1023 ∧ tidx (tableAddr i) = i := by
  unfold didx tidx tableAddr PDE_MASK PAGE_SIZE
  omega

theorem didx_div (a : ℕ) (h : a < 2 ^ 32) :
    didx a = idx a / 1024 ∧ tidx a = idx a % 1024 := by
  unfold didx tidx idx PAGE_SIZE
  omega

section Walk

/-- The kernel's part of the page directory in frame `d`. -/
structure Dir (s : State) (d : ℕ) : Prop where
  lt : d < 4096
  ne : d < 2 ∨ 6 ≤ d
  kernel : ∀ i < 4, s.page d i = entryInit (2 + i)
  self : s.page d 1023 = entryInit d

theorem Dir.congr {s' : State} (h : Dir s d) (hp : s'.page d = s.page d) : Dir s' d :=
  ⟨h.lt, h.ne, fun i hi => by rw [hp, h.kernel i hi], by rw [hp, h.self]⟩

theorem Dir.self_index (h : Dir s d) : (s.page d 1023).index.toNat = d := by
  have := h.lt
  rw [h.self, entryInit_index (by omega)]

theorem walk_of_present {t : ℕ} (hd : (s.page (idx s.cr3) (didx a)).present = true)
    (ht : (s.page (idx s.cr3) (didx a)).index.toNat = t) :
    s.walk a = if (s.page t (tidx a)).present then
      some (s.page t (tidx a)).index.toNat else none := by
  subst ht
  unfold State.walk
  dsimp only
  rw [if_pos hd]

/-- The tables of the current directory, seen through its last entry. -/
theorem Dir.walk_table (h : Dir s d) (hc : idx s.cr3 = d) (hi : i < 1024) :
    s.walk (tableAddr i) =
      if (s.page d i).present then some (s.page d i).index.toNat else none := by
  obtain ⟨hd, ht⟩ := didx_tableAddr hi
  have hw := walk_of_present (a := tableAddr i) (by rw [hc, hd, h.self]; rfl)
    (by rw [hc, hd, h.self_index])
  rwa [ht] at hw

theorem Dir.frame_pde (h : Dir s d) (hc : idx s.cr3 = d) : frame 0xfffff000 s = .next (d, s) := by
  have hw := h.walk_table hc (i := 1023) (by decide)
  rw [h.self_index, if_pos (by rw [h.self]; rfl)] at hw
  unfold frame
  rw [show (0xfffff000 : ℕ) = tableAddr 1023 from rfl, hw]
  rfl

theorem Dir.frame_table (h : Dir s d) (hc : idx s.cr3 = d) (hi : i < 1024)
    (hp : (s.page d i).present = true) :
    frame (tableAddr i) s = .next ((s.page d i).index.toNat, s) := by
  unfold frame
  rw [h.walk_table hc hi, if_pos hp]
  rfl

end Walk

section Frames

/-- The frame that `get_one_page` takes. -/
def State.firstFree (s : State) : Option ℕ :=
  scanFrames s.memoryMap (s.totalPages - s.startPage) s.startPage

def State.take (s : State) (i : ℕ) : State :=
  { s.setCount i 1 with freePages := sub32 s.freePages 1 }

theorem scanFrames_some {m : ℕ → ℕ} (h : scanFrames m n i = some j) :
    i ≤ j ∧ j < i + n ∧ m j = 0 := by
  induction n generalizing i with
  | zero => simp [scanFrames] at h
  | succ n ih =>
    rw [scanFrames] at h
    split_ifs at h with h0
    · obtain rfl := Option.some.inj h
      exact ⟨Nat.le_refl i, by omega, h0⟩
    · obtain ⟨h1, h2, h3⟩ := ih h
      exact ⟨by omega, by omega, h3⟩

theorem getOnePage_eq (s : State) : getOnePage s =
    match s.firstFree with
    | none => .refused
    | some i => .next (pageAddr i, s.take i) := by
  unfold getOnePage State.firstFree
  rw [peek_bind]
  dsimp only [id]
  cases scanFrames s.memoryMap (s.totalPages - s.startPage) s.startPage <;> rfl

/-- A table is made for a directory entry. -/
def State.newTable (s : State) (d i f : ℕ) : State :=
  ((s.take f).setEntry d i (entryInit f)).setPage f fun _ => zeroEntry

theorem getPte_present (h : Dir s d) (hc : idx s.cr3 = d)
    (hp : (s.page d (didx a)).present = true) (create : Bool) :
    getPte a create s = .next ((s.page d (didx a)).index.toNat, s) := by
  have hi : didx a < 1024 := Nat.mod_lt _ (by decide)
  unfold getPte
  rw [bind_of_next (h.frame_pde hc), peek_bind, assert_bind (by simp [hp]), if_pos hp]
  exact h.frame_table hc hi hp

theorem getPte_create (h : Dir s d) (hc : idx s.cr3 = d)
    (hp : (s.page d (didx a)).present = false) (hi : didx a < 1023) (hi' : 4 ≤ didx a)
    (hf : ∀ f, s.firstFree = some f → 4096 ≤ f ∧ f < 2 ^ 20) :
    getPte a true s =
      match s.firstFree with
      | none => .refused
      | some f => .next (f, s.newTable d (didx a) f) := by
  unfold getPte
  rw [bind_of_next (h.frame_pde hc), peek_bind, assert_bind (Bool.true_or _), if_neg (by simp [hp]),
    bind_apply, getOnePage_eq]
  cases hfree : s.firstFree with
  | none => rfl
  | some f =>
    obtain ⟨-, hlt⟩ := hf f hfree
    dsimp only
    rw [Outcome.next_andThen]
    dsimp only
    rw [poke_bind, idx_pageAddr hlt]
    have hd : Dir ((s.take f).setEntry d (didx a) (entryInit f)) d := by
      refine ⟨h.lt, h.ne, fun i hi4 => ?_, ?_⟩
      · rw [page_setEntry, update_self, update_of_ne (by omega)]
        exact h.kernel i hi4
      · rw [page_setEntry, update_self, update_of_ne (by omega)]
        exact h.self
    have hentry : ((s.take f).setEntry d (didx a) (entryInit f)).page d (didx a) =
        entryInit f := by
      rw [page_setEntry, update_self, update_self]
    have ht := hd.frame_table hc (i := didx a) (by omega) (by rw [hentry]; rfl)
    rw [hentry, entryInit_index hlt] at ht
    rw [bind_of_next ht, poke_bind]
    rfl

end Frames

section Copy

/-- `copy_page` of the frame `src` into the free frame `f`. -/
def State.copied (s : State) (f src : ℕ) : State :=
  ((s.take f).setPage f (s.page src)).setEntry 2 0 { entryInit f with present := false }

/-- The writes of `copy_page`, in their order. -/
theorem copied_eq {src : ℕ} (hf2 : f ≠ 2) (hne : src ≠ 2) :
    State.setEntry (((s.take f).setEntry 2 (tidx 0) (entryInit f)).setPage f
        (((s.take f).setEntry 2 (tidx 0) (entryInit f)).page src)) 2 (tidx 0)
      { (((s.take f).setEntry 2 (tidx 0) (entryInit f)).setPage f
        (((s.take f).setEntry 2 (tidx 0) (entryInit f)).page src)).page 2 (tidx 0) with
          present := false } = s.copied f src := by
  unfold State.copied State.setEntry State.setPage
  congr 1
  funext g
  dsimp only
  by_cases hg2 : g = 2
  · subst hg2
    rw [update_self, update_self, update_of_ne hf2.symm, update_of_ne hf2.symm, update_self]
    funext i
    by_cases hi : i = 0
    · subst hi
      rw [show tidx 0 = 0 from rfl, update_self, update_self, update_self]
    · rw [show tidx 0 = 0 from rfl, update_of_ne hi, update_of_ne hi, update_of_ne hi]
  · rw [update_of_ne hg2, update_of_ne hg2]
    by_cases hgf : g = f
    · subst hgf
      rw [update_self, update_self, update_of_ne hne]
      rfl
    · rw [update_of_ne hgf, update_of_ne hgf, update_of_ne hg2]

/-- Page 0 once its entry has been set. -/
theorem Dir.walk_zero (h : Dir s d) (hc : idx s.cr3 = d) (hlt : f < 2 ^ 20) :
    (s.setEntry 2 (tidx 0) (entryInit f)).walk 0 = some f := by
  have hd2 : d ≠ 2 := by
    have := h.ne
    omega
  have hd' : Dir (s.setEntry 2 (tidx 0) (entryInit f)) d :=
    h.congr (by rw [page_setEntry, update_of_ne hd2])
  have h0 : (s.setEntry 2 (tidx 0) (entryInit f)).page d (didx 0) = entryInit 2 :=
    hd'.kernel 0 (by decide)
  have hc' : idx (s.setEntry 2 (tidx 0) (entryInit f)).cr3 = d := hc
  have hw := walk_of_present (s := s.setEntry 2 (tidx 0) (entryInit f)) (a := 0)
    (t := 2) (by rw [hc', h0]; rfl) (by rw [hc', h0, entryInit_index (by decide)])
  rwa [page_setEntry, update_self, update_self, if_pos (entryInit_present f),
    entryInit_index hlt] at hw

theorem copyPage_eq (h : Dir s d) (hc : idx s.cr3 = d) {src : ℕ}
    (hsrc : ∀ e, (s.setEntry 2 0 e).walk a = some src) (hne : src ≠ 2)
    (hf : ∀ f, s.firstFree = some f → 4096 ≤ f ∧ f < 2 ^ 20 ∧ f ≠ src) :
    copyPage a s =
      match s.firstFree with
      | none => .refused
      | some f => .next (pageAddr f, s.copied f src) := by
  have hlt := h.lt
  unfold copyPage
  rw [bind_apply, getOnePage_eq]
  cases hfree : s.firstFree with
  | none => rfl
  | some f =>
    obtain ⟨hge, hlt, hfs⟩ := hf f hfree
    dsimp only
    rw [Outcome.next_andThen]
    dsimp only
    have hd : Dir (s.take f) d := h.congr rfl
    have h0 : (s.take f).page d (didx 0) = entryInit 2 := h.kernel 0 (by decide)
    have hget := getPte_present hd hc (a := 0) (by rw [h0]; rfl) false
    rw [h0, entryInit_index (by decide)] at hget
    rw [bind_of_next hget, poke_bind, idx_pageAddr hlt]
    have hdst : frame 0 ((s.take f).setEntry 2 (tidx 0) (entryInit f)) =
        .next (f, (s.take f).setEntry 2 (tidx 0) (entryInit f)) := by
      unfold frame
      rw [hd.walk_zero hc hlt]
      rfl
    have hsrc' : frame a ((s.take f).setEntry 2 (tidx 0) (entryInit f)) =
        .next (src, (s.take f).setEntry 2 (tidx 0) (entryInit f)) := by
      have hw : ((s.take f).setEntry 2 (tidx 0) (entryInit f)).walk a = some src :=
        hsrc (entryInit f)
      unfold frame
      rw [hw]
      rfl
    rw [bind_of_next hdst, bind_of_next hsrc', poke_bind, poke_bind, pure_apply]
    congr 2
    exact copied_eq (by omega) hne

/-- The entries below `n` of a table, not to be written through. -/
def protect (p : Page) (n : ℕ) : Page := fun j =>
  if j < n ∧ (p j).present then { p j with write := false } else p j

/-- After `n` turns of the inner loop of `copy_pde`. -/
def State.shared (s : State) (table n : ℕ) : State :=
  { s.setPage table (protect (s.page table) n) with
    memoryMap := fun f =>
      if ∃ j, j < n ∧ (s.page table j).present ∧ (s.page table j).index.toNat = f then
        s.memoryMap f + 1 else s.memoryMap f }

theorem shared_count (s : State) (k n g : ℕ) : (s.shared k n).memoryMap g =
    if ∃ j, j < n ∧ (s.page k j).present = true ∧ (s.page k j).index.toNat = g then
      s.memoryMap g + 1 else s.memoryMap g := rfl

/-- The entries of the table name different frames, each counted between 1 and 253. -/
structure Sharable (s : State) (table : ℕ) : Prop where
  pos : ∀ j < 1024, (s.page table j).present = true →
    0 < s.memoryMap (s.page table j).index.toNat ∧ s.memoryMap (s.page table j).index.toNat < 254
  inj : ∀ i < 1024, ∀ j < 1024, (s.page table i).present = true → (s.page table j).present = true →
    (s.page table i).index.toNat = (s.page table j).index.toNat → i = j

theorem protect_succ (p : Page) (n : ℕ) :
    protect p (n + 1) =
      if (p n).present then update (protect p n) n { p n with write := false } else protect p n := by
  funext j
  by_cases hj : j = n
  · subst hj
    by_cases hp : (p j).present = true <;> simp [protect, hp]
  · have hlt : j < n + 1 ↔ j < n := by omega
    by_cases hp : (p n).present = true <;> simp [protect, hp, hj, hlt]

theorem protect_self (p : Page) (n : ℕ) : protect p n n = p n := by
  unfold protect
  rw [if_neg (by simp)]

theorem shareEntry_shared (h : Sharable s k) (hn : n < 1024) :
    shareEntry k n (s.shared k n) = .next ((), s.shared k (n + 1)) := by
  have hpage : (s.shared k n).page k n = s.page k n := by
    unfold State.shared
    dsimp only
    rw [page_setPage, update_self, protect_self]
  unfold shareEntry
  rw [peek_bind, hpage]
  by_cases hp : (s.page k n).present = true
  · obtain ⟨hpos, hlt⟩ := h.pos n hn hp
    have hcount : (s.shared k n).memoryMap (s.page k n).index.toNat =
        s.memoryMap (s.page k n).index.toNat := by
      unfold State.shared
      dsimp only
      rw [if_neg]
      rintro ⟨j, hj, hpj, he⟩
      exact absurd (h.inj j (by omega) n hn hpj hp he) (by omega)
    have hmod : (s.memoryMap (s.page k n).index.toNat + 1) % 2 ^ 8 =
        s.memoryMap (s.page k n).index.toNat + 1 := Nat.mod_eq_of_lt (by omega)
    rw [if_pos hp, peek_bind, hcount, assert_bind (by simpa using hpos), poke_bind, poke_bind, hmod]
    have hle : s.memoryMap (s.page k n).index.toNat + 1 < 255 := by omega
    unfold Code.assert Outcome.assert
    rw [if_pos (by simpa using hle)]
    congr 2
    unfold State.shared State.setCount State.setEntry State.setPage
    congr 1
    · dsimp only
      rw [update_self, update_idem, protect_succ, if_pos hp]
    · funext f
      dsimp only
      by_cases hf : f = (s.page k n).index.toNat
      · subst hf
        rw [update_self, if_pos ⟨n, by omega, hp, rfl⟩]
      · rw [update_of_ne hf]
        have hiff : (∃ j, j < n ∧ (s.page k j).present ∧ (s.page k j).index.toNat = f) ↔
            ∃ j, j < n + 1 ∧ (s.page k j).present ∧ (s.page k j).index.toNat = f := by
          constructor
          · rintro ⟨j, hj, h'⟩
            exact ⟨j, by omega, h'⟩
          · rintro ⟨j, hj, hpj, he⟩
            refine ⟨j, ?_, hpj, he⟩
            rcases Nat.lt_succ_iff_lt_or_eq.mp hj with hj | rfl
            · exact hj
            · exact absurd he.symm hf
        simp only [hiff]
  · rw [if_neg hp, pure_apply]
    congr 2
    unfold State.shared
    have hiff : ∀ f, (∃ j, j < n ∧ (s.page k j).present ∧ (s.page k j).index.toNat = f) ↔
        ∃ j, j < n + 1 ∧ (s.page k j).present ∧ (s.page k j).index.toNat = f := by
      intro f
      constructor
      · rintro ⟨j, hj, h'⟩
        exact ⟨j, by omega, h'⟩
      · rintro ⟨j, hj, hpj, he⟩
        refine ⟨j, ?_, hpj, he⟩
        rcases Nat.lt_succ_iff_lt_or_eq.mp hj with hj | rfl
        · exact hj
        · exact absurd hpj hp
    rw [protect_succ, if_neg hp]
    simp only [hiff]

theorem loop_shareEntry (h : Sharable s k) :
    loop (shareEntry k) 1024 0 s = .next ((), s.shared k 1024) := by
  have hzero : s.shared k 0 = s := by
    unfold State.shared State.setPage
    have hp : protect (s.page k) 0 = s.page k := by
      funext j
      simp [protect]
    simp [hp]
  have := loop_eq (f := shareEntry k) (s.shared k) 1024 0 fun j _ hj => shareEntry_shared h (by omega)
  rwa [hzero, Nat.zero_add] at this

end Copy

end Onix.Memory
