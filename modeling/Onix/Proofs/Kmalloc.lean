import Onix.Proofs.Arena
import Onix.Proofs.Bitmap

/-! `kmalloc` of any `u32`: what it returns lies in what it reserved, except for the sizes at
which the header makes the sum wrap to less than a page. -/

namespace Onix.Arena

open Function Code Outcome Bytes
open Memory (PAGE_SIZE idx allocKpage)

variable {s t s' s₀ : State} {init : BitmapT} {owner : ℕ → Option Owner} {p a size count D : ℕ}
  {as : List Act} {act : Act}

section Count

/-- How many pages are asked for. -/
theorem count_eq (hn : size < 2 ^ 32) :
    divRoundUp ((size + ARENA_SIZE) % 2 ^ 32) PAGE_SIZE =
      if size + 16 + 4095 < 2 ^ 32 then pages size else if 2 ^ 32 - 16 < size then 1 else 0 := by
  unfold divRoundUp pages ARENA_SIZE PAGE_SIZE
  split_ifs <;> omega

theorem kmallocLarge_stops (h : divRoundUp ((size + ARENA_SIZE) % 2 ^ 32) PAGE_SIZE = 0) :
    kmallocLarge size s = .failed := by
  unfold kmallocLarge
  rw [h]
  apply bind_of_failed
  unfold inMemory allocKpage
  rw [assert_bind_failed (by decide)]
  rfl

/-- A call that returns and is not one of the last sizes is for less than there is. -/
theorem size_le {r : ℕ × State} (h : Layout init owner s) (hn : size < 2 ^ 32 - 15)
    (hr : kmalloc size s = .next r) : size ≤ 2 ^ 31 := by
  by_contra hlt
  unfold kmalloc at hr
  rw [if_pos (by omega)] at hr
  have hcount := count_eq (Nat.lt_of_lt_of_le hn (Nat.sub_le ..))
  split_ifs at hcount
  · unfold kmallocLarge at hr
    rw [hcount] at hr
    obtain ⟨r', hr', -⟩ := andThen_eq_next.mp hr
    obtain ⟨D, bits, -, hD, -⟩ := (alloc_all h (pages_pos size)).of_next hr'
    have hfits := hD.2.1
    unfold pages at hfits
    omega
  · omega
  · rw [kmallocLarge_stops hcount] at hr
    cases hr

end Count

section Fresh

/-- What `kmalloc` returns was free. -/
def Fresh (s : State) (p size : ℕ) : Prop :=
  if 1024 < size then ∀ a, p ≤ a → a < p + size → bitmapTest s.m.kernelMap (idx a) = some false
  else p ∈ s.freeList (descFor size) ∨ bitmapTest s.m.kernelMap (idx p) = some false

theorem fresh_of_large (hn : 1024 < size)
    (h : ∀ a, p ≤ a → a < p + size → bitmapTest s.m.kernelMap (idx a) = some false) :
    Fresh s p size := by
  unfold Fresh
  rw [if_pos hn]
  exact h

theorem fresh_of_small (hn : ¬ 1024 < size)
    (h : p ∈ s.freeList (descFor size) ∨ bitmapTest s.m.kernelMap (idx p) = some false) :
    Fresh s p size := by
  unfold Fresh
  rw [if_neg hn]
  exact h

theorem kmallocLarge_fresh (h : Layout init owner s) (hn : 1024 < size) (hmax : size ≤ 2 ^ 31) :
    All (fun r => Fresh s r.1 size) (kmallocLarge size s) := by
  unfold kmallocLarge
  rw [divRoundUp_eq hmax]
  refine all_bind ((alloc_all h (pages_pos size)).mono ?_)
  intro r hr
  obtain ⟨D, bits, he, hD, hbits⟩ := hr
  subst he
  dsimp only
  rw [bind_of_next (clearPages_eq { s with m := s.m.setKernelBits bits } h hD rfl), poke_bind]
  have hle := pages_le size
  change Fresh s (D * PAGE_SIZE + ARENA_SIZE) size
  apply fresh_of_large hn
  intro a ha ha'
  apply h.clear hD
  · unfold idx PAGE_SIZE ARENA_SIZE at *
    omega
  · unfold idx PAGE_SIZE ARENA_SIZE at *
    omega

theorem takeBlock_fst {b d : ℕ} {l : List ℕ} (h : Layout init owner s) (hl : s.freeList d = b :: l) :
    All (fun r => r.1 = b) (takeBlock d s) := by
  rw [takeBlock_eq h hl]
  rfl

theorem kmalloc_fresh (h : Inv init s) (hmax : size ≤ 2 ^ 31) :
    All (fun r => Fresh s r.1 size) (kmalloc size s) := by
  obtain ⟨owner, h, hbusy⟩ := h
  unfold kmalloc
  split_ifs with hn
  · exact kmallocLarge_fresh h hn hmax
  · rw [peek_bind]
    split_ifs with hempty
    · refine all_bind ((newArena_all h hbusy (descFor_lt size) hempty).mono ?_)
      intro r hr
      obtain ⟨owner', D, h₁, hD, hl, hbusy'⟩ := hr
      have hpos : 0 < totalBlock (descFor size) := by
        have : ∀ d < DESC_COUNT, 0 < totalBlock d := by decide
        exact this _ (descFor_lt size)
      obtain ⟨m, hm⟩ := Nat.exists_eq_succ_of_ne_zero hpos.ne'
      rw [hm, blocks_succ] at hl
      refine (takeBlock_fst h₁ hl).mono fun r' hr' => fresh_of_small hn (Or.inr ?_)
      rw [hr', (blockAddr_self (by omega)).1]
      exact h.clear hD (Nat.le_refl D) (by omega)
    · obtain ⟨b, l, hl⟩ := List.exists_cons_of_ne_nil hempty
      refine (takeBlock_fst h hl).mono fun r' hr' => fresh_of_small hn (Or.inl ?_)
      rw [hr', hl]
      exact List.mem_cons_self

/-- What is handed out is taken, and in no list. -/
theorem within_of_fresh (h : Layout init owner { t with live := (p, size) :: t.live })
    (hfresh : Fresh s p size) : Within s t p size := by
  have hmem : (p, size) ∈ (p, size) :: t.live := List.mem_cons_self
  have htaken : ∀ a, p ≤ a → a < p + extent size → bitmapTest t.m.kernelMap (idx a) = some true :=
    fun a ha ha' => h.taken (h.extent_page hmem ha ha').1
  unfold Fresh at hfresh
  split_ifs at hfresh with hn
  · unfold extent at htaken
    rw [if_neg (by omega)] at htaken
    exact ⟨p, p + size, .pages hfresh htaken, Nat.le_refl _, Nat.le_refl _⟩
  · have hn := Nat.le_of_not_lt hn
    unfold extent at htaken
    rw [if_pos hn] at htaken
    refine ⟨p, _, .block (descFor_lt size) hfresh htaken fun d hd => ?_, Nat.le_refl _,
      Nat.add_le_add_left (descFor_le hn) p⟩
    exact (h.free d p hd).2 size hmem

theorem kmalloc_within (h : Inv init s) (hn : size < 2 ^ 32 - 15)
    (hr : kmalloc size s = .next (p, t)) :
    Inv init { t with live := (p, size) :: t.live } ∧ Within s t p size := by
  have hmax : size ≤ 2 ^ 31 := by
    obtain ⟨owner, hl, -⟩ := h
    exact size_le hl hn hr
  have hinv := (kmalloc_all h hmax).of_next hr
  have hfresh := (kmalloc_fresh h hmax).of_next hr
  obtain ⟨owner, hl, hbusy⟩ := hinv
  exact ⟨⟨owner, hl, hbusy⟩, within_of_fresh hl hfresh⟩

end Fresh

section Wrap

/-- One of the last sizes takes one page. -/
theorem kmalloc_wraps (h : Layout init owner s) (hlo : 2 ^ 32 - 15 ≤ size) (hn : size < 2 ^ 32) :
    All (fun r => ∃ D, bitmapTest s.m.kernelMap D = some false ∧
      idx (r.1 + 4080) = D + 1 ∧ ∃ bits,
        r.2.m.kernelMap = { s.m.kernelMap with bits := bits } ∧ 256 ≤ D ∧
        bits.bit (D + 1 - 256) = s.m.kernelMap.bits.bit (D + 1 - 256)) (kmalloc size s) := by
  have hcount := count_eq hn
  rw [if_neg (by omega), if_pos (by omega)] at hcount
  unfold kmalloc
  rw [if_pos (by omega)]
  unfold kmallocLarge
  rw [hcount]
  refine all_bind ((alloc_all h Nat.one_pos).mono ?_)
  intro r hr
  obtain ⟨D, bits, he, hD, hbits⟩ := hr
  subst he
  dsimp only
  rw [bind_of_next (clearPages_eq { s with m := s.m.setKernelBits bits } h hD rfl), poke_bind]
  refine ⟨D, h.clear hD (Nat.le_refl D) (by omega), ?_, bits, rfl, hD.1, ?_⟩
  · dsimp only
    unfold idx PAGE_SIZE ARENA_SIZE
    omega
  · have hlo := hD.1
    rw [hbits, h.bit, decide_eq_false (by omega), Bool.or_false]

theorem not_within (hlo : 2 ^ 32 - 15 ≤ size)
    (h : bitmapTest s.m.kernelMap (idx (p + 4080)) = some false →
      bitmapTest t.m.kernelMap (idx (p + 4080)) = some false) : ¬ Within s t p size := by
  intro hw
  obtain ⟨lo, hi, hres, hp, hsize⟩ := hw
  cases hres with
  | pages hclear htaken =>
    have hfalse := h (hclear _ (by omega) (by omega))
    have htrue := htaken (p + 4080) (by omega) (by omega)
    rw [hfalse] at htrue
    cases htrue
  | block hd _ _ _ =>
    have hle : ∀ d < DESC_COUNT, blockSize d ≤ 1024 := by decide
    have := hle _ hd
    omega

/-- A page is found if there is one. -/
theorem alloc_next (h : Layout init owner s) (hp : bitmapTest s.m.kernelMap p = some false) :
    ∃ r, inMemory (allocKpage 1) s = .next r := by
  obtain ⟨hfits, hoff, hlen⟩ := h.fits
  obtain ⟨h₁, h₂, hbit⟩ := (bitmapTest_false hfits).mp hp
  unfold inMemory allocKpage
  rw [assert_bind (by decide), peek_bind]
  dsimp only [id]
  rcases bitmapScan_spec hfits Nat.one_pos with ⟨b, bits, hrun, he, -⟩ | ⟨hnone, -⟩
  · have hle := hrun.le
    rw [lift_bind he]
    dsimp only
    rw [if_neg (by unfold EOF; omega), poke_bind, pure_apply]
    exact ⟨_, rfl⟩
  · exact absurd (clear_one.mpr hbit) (hnone _ (by omega))

theorem kmalloc_next (h : Layout init owner s) (hlo : 2 ^ 32 - 15 ≤ size) (hn : size < 2 ^ 32)
    (hp : bitmapTest s.m.kernelMap p = some false) : ∃ q t, kmalloc size s = .next (q, t) := by
  have hcount := count_eq hn
  rw [if_neg (by omega), if_pos (by omega)] at hcount
  obtain ⟨r, hr⟩ := alloc_next h hp
  obtain ⟨D, bits, rfl, hD, -⟩ := (alloc_all h Nat.one_pos).of_next hr
  unfold kmalloc
  rw [if_pos (by omega)]
  unfold kmallocLarge
  rw [hcount, bind_of_next hr,
    bind_of_next (clearPages_eq { s with m := s.m.setKernelBits bits } h hD rfl), poke_bind]
  exact ⟨_, _, rfl⟩

end Wrap

section Calls

/-- The sizes at which no sum wraps to a page. -/
def Bounded (_ : State) (act : Act) : Prop := ∀ size, act = .malloc size → size < 2 ^ 32 - 15

theorem call_inv (h : Inv init s) (hb : Bounded s act) (hc : Call s act s') : Inv init s' := by
  unfold Call at hc
  cases act with
  | malloc size =>
    obtain ⟨-, ptr, t, hr, rfl⟩ := hc
    exact (kmalloc_within h (hb size rfl) hr).1
  | free ptr => exact (exec_inv h (.free ptr)).of_next hc
  | fill ptr f => exact (exec_inv h (.fill ptr f)).of_next hc

theorem inv_calls (h₀ : Init s₀) (h : Run (Guarded Bounded Call) s₀ as s) :
    Inv s₀.m.kernelMap s :=
  h.invariant (fun _ _ _ hi hs => call_inv hi hs.1 hs.2) (inv_init h₀)

/-- After any calls with sizes below `2 ^ 32 - 15` a `kmalloc` of any `u32` keeps within what it
reserves, if it returns, exactly when its size is below that too or no page is free. -/
theorem kmalloc_within_iff (h₀ : Init s₀) (h : Run (Guarded Bounded Call) s₀ as s)
    (hn : size < 2 ^ 32) :
    (∀ p t, kmalloc size s = .next (p, t) → Within s t p size) ↔
      size < 2 ^ 32 - 15 ∨ ∀ p, bitmapTest s.m.kernelMap p ≠ some false := by
  have hinv := inv_calls h₀ h
  constructor
  · intro hall
    by_contra hnot
    obtain ⟨hlo, hfree⟩ := not_or.mp hnot
    obtain ⟨k, hk⟩ := not_forall.mp hfree
    obtain ⟨owner, hl, -⟩ := hinv
    obtain ⟨p, t, hr⟩ := kmalloc_next hl (by omega) hn (not_not.mp hk)
    obtain ⟨D, -, hpage, bits, hmap, hD, hbit⟩ := (kmalloc_wraps hl (by omega) hn).of_next hr
    dsimp only at hpage hmap
    refine not_within (by omega) (fun hfalse => ?_) (hall p t hr)
    rw [hpage] at hfalse ⊢
    have hoff := hl.fits.2.1
    unfold bitmapTest at hfalse ⊢
    rw [hmap]
    dsimp only
    rw [hoff] at hfalse ⊢
    rw [hbit]
    exact hfalse
  · intro hor p t hr
    rcases Nat.lt_or_ge size (2 ^ 32 - 15) with hlt | hge
    · exact (kmalloc_within hinv hlt hr).2
    · obtain ⟨owner, hl, -⟩ := hinv
      obtain ⟨D, hD, -⟩ := (kmalloc_wraps hl hge hn).of_next hr
      exact absurd hD (hor.resolve_left (by omega) D)

/-- All of memory but one byte, in one page. -/
theorem kmalloc_wraps_page : ∃ p t, kmalloc (2 ^ 32 - 1) start = .next (p, t) ∧
    ¬ Within start t p (2 ^ 32 - 1) := by
  have h : (kmalloc (2 ^ 32 - 1) start).Ends (fun r =>
      bitmapTest r.2.m.kernelMap (idx (r.1 + 4080)) == some false) = true := by decide +kernel
  obtain ⟨r, hr, hp⟩ := ends_eq_true.mp h
  exact ⟨r.1, r.2, hr, not_within (by decide) fun _ => by simpa using hp⟩

theorem kmalloc_within_iff_two : ∃ s, Run (Guarded Bounded Call) start [.malloc 5000] s ∧
    ((∀ p t, kmalloc 700 s = .next (p, t) → Within s t p 700) ↔
      700 < 2 ^ 32 - 15 ∨ ∀ p, bitmapTest s.m.kernelMap p ≠ some false) := by
  have h : (kmalloc 5000 start).Ends (fun _ => true) = true := by decide +kernel
  obtain ⟨r, hr, -⟩ := ends_eq_true.mp h
  have hb : Bounded start (.malloc 5000) := fun size hs => by
    cases hs
    decide
  have hrun : Run (Guarded Bounded Call) start [.malloc 5000] { r.2 with live := (r.1, 5000) :: r.2.live } :=
    Run.single ⟨hb, by decide, r.1, r.2, hr, rfl⟩
  exact ⟨_, hrun, kmalloc_within_iff init_start hrun (by decide)⟩

end Calls

end Onix.Arena
