import Onix.Spec.Reckon

/-! Many tasks that map one file block at once: they all return one zone, and only it and
the missing index blocks are allocated, unless two of them are in `balloc` for one cell. -/

namespace Onix.Reckon

open Function Outcome Fs

/-- The variables at the `k`-th level of the way down. -/
def frame (block : ℕ) : ℕ → Frame
  | 0 => first block
  | k + 1 => (frame block k).next

/-- The level of the data block. -/
def depth (block : ℕ) : ℕ := (first block).level

section Way

variable (A : Option ℕ → ℕ → ℕ) (block : ℕ)

/-- The array at the `k`-th level, where the cells above are filled. -/
def walk : ℕ → Option ℕ
  | 0 => none
  | k + 1 => some (A (walk k) (frame block k).index)

/-- The cell at the `k`-th level. -/
def cell (k : ℕ) : ℕ := A (walk A block k) (frame block k).index

/-- The first `k` cells are filled. -/
def Filled (k : ℕ) : Prop := ∀ j < k, cell A block j ≠ 0

end Way

variable {A : Option ℕ → ℕ → ℕ} {block : ℕ} {j k n : ℕ}

theorem frame_level : (frame block k).level = depth block - k := by
  induction k with
  | zero => rfl
  | succ k ih =>
    have : (frame block (k + 1)).level = (frame block k).level - 1 := rfl
    omega

theorem filled_succ : Filled A block (k + 1) ↔ Filled A block k ∧ cell A block k ≠ 0 :=
  Nat.forall_lt_succ_right

theorem Filled.mono (h : Filled A block k) (hjk : j ≤ k) : Filled A block j :=
  fun i hi => h i (by omega)

/-- There is one level at which the way down stops. -/
theorem stop_unique (hj : Filled A block j) (hk : Filled A block k) (hj0 : cell A block j = 0)
    (hk0 : cell A block k = 0) : j = k := by
  rcases Nat.lt_trichotomy j k with h | h | h
  · exact absurd hj0 (hk j h)
  · exact h
  · exact absurd hk0 (hj k h)

variable {τ : Type*} {s s₀ s' : State τ} {t u : τ} {p : Pc} {nr : ℕ}

/-- The loop that creates nothing returns the last cell where all are filled. -/
theorem reckon_filled (hn : k + n = depth block) (h : Filled s.array block (depth block)) :
    s.reckon n (walk s.array block k) (frame block k) = cell s.array block (depth block) := by
  induction n generalizing k with
  | zero =>
    obtain rfl : k = depth block := hn
    rfl
  | succ n ih =>
    have hk : cell s.array block k ≠ 0 := h k (by omega)
    unfold cell at hk
    rw [State.reckon, if_neg hk]
    exact ih (k := k + 1) (by omega)

theorem bmap_filled (h : Filled s.array block (depth block)) :
    s.bmap block = cell s.array block (depth block) :=
  reckon_filled (k := 0) (Nat.zero_add _) h

/-- Where a task is in its way down. -/
def At (A : Option ℕ → ℕ → ℕ) (block : ℕ) : Pc → Prop
  | .out => True
  | .balloc array f nr => ∃ k ≤ depth block, f = frame block k ∧ array = walk A block k ∧
      Filled A block k ∧ cell A block k = 0 ∧ nr ≠ 0
  | .brelse array f => ∃ k ≤ depth block, f = frame block k ∧ array = walk A block k ∧
      Filled A block (k + 1)
  | .bread b f => ∃ k < depth block, f = frame block k ∧ b = cell A block k ∧
      Filled A block (k + 1)

/-- The zone that a task in `balloc` has taken. -/
def Pc.taken : Pc → Option ℕ
  | .balloc _ _ nr => some nr
  | _ => none

/-- `nr` is stored at a level that was missing at the start. -/
def Made (s₀ s : State τ) (block k nr : ℕ) : Prop :=
  k ≤ depth block ∧ ¬ Filled s₀.array block (k + 1) ∧ Filled s.array block (k + 1) ∧
    cell s.array block k = nr

structure Inv (block : ℕ) (s₀ s : State τ) : Prop where
  place : ∀ t, At s.array block (s.pc t)
  one : ∀ t u, (s.pc t).taken ≠ none → (s.pc u).taken ≠ none → t = u
  rets : ∀ r ∈ s.rets, Filled s.array block (depth block + 1) ∧
    r.2 = cell s.array block (depth block)
  kept : ∀ k, Filled s₀.array block k → Filled s.array block k
  fresh : ∀ k nr, Made s₀ s block k nr → s₀.used nr = false
  inj : ∀ j k nr, Made s₀ s block j nr → Made s₀ s block k nr → j = k
  used : ∀ nr, s.used nr = true ↔
    s₀.used nr = true ∨ (∃ k, Made s₀ s block k nr) ∨ ∃ t, (s.pc t).taken = some nr
  taken : ∀ t nr, (s.pc t).taken = some nr → s₀.used nr = false ∧ ∀ k, ¬ Made s₀ s block k nr

theorem inv_init (h : Init block s) : Inv block s s where
  place t := by simp [h.pc, At]
  one t u ht := by simp [h.pc, Pc.taken] at ht
  rets r hr := by simp [h.rets] at hr
  kept _ hk := hk
  fresh k nr hm := absurd hm.2.2.1 hm.2.1
  inj j k nr hm := absurd hm.2.2.1 hm.2.1
  used nr := by
    have : ∀ k, ¬ Made s s block k nr := fun k hm => hm.2.1 hm.2.2.1
    simp [h.pc, Pc.taken, this]
  taken t nr ht := by simp [h.pc, Pc.taken] at ht

/-- The file block, not mapped in `s₀`, is mapped to `v`; what has been allocated is `v`
and one index block at each level that was missing. -/
structure Once (block : ℕ) (s₀ s : State τ) (v : ℕ) : Prop where
  bmap : s.bmap block = v
  made : Made s₀ s block (depth block) v
  fresh : ∀ k nr, Made s₀ s block k nr → s₀.used nr = false
  apart : ∀ j k nr, Made s₀ s block j nr → Made s₀ s block k nr → j = k
  used : ∀ nr, s.used nr = true ↔ s₀.used nr = true ∨ ∃ k, Made s₀ s block k nr

theorem once_of_inv {v : ℕ} (h₀ : Init block s₀) (hi : Inv block s₀ s) (hv : (t, v) ∈ s.rets) :
    Once block s₀ s v := by
  obtain ⟨hf, hcell⟩ := hi.rets _ hv
  have hlast : Made s₀ s block (depth block) v := by
    refine ⟨le_rfl, fun hf₀ => ?_, hf, hcell.symm⟩
    have := bmap_filled (hf₀.mono (Nat.le_succ _))
    rw [h₀.unmapped] at this
    exact hf₀ (depth block) (by omega) this.symm
  have hno : ∀ nr, ¬ ∃ u, (s.pc u).taken = some nr := by
    rintro nr ⟨u, hu⟩
    have hat := hi.place u
    cases hp : s.pc u with
    | balloc array f m =>
      rw [hp] at hat
      obtain ⟨k, hk, -, -, -, h0, -⟩ := hat
      exact hf k (by omega) h0
    | _ => simp [hp, Pc.taken] at hu
  refine ⟨?_, hlast, hi.fresh, hi.inj, fun nr => ?_⟩
  · rw [bmap_filled (hf.mono (Nat.le_succ _))]
    exact hcell.symm
  · rw [hi.used nr]
    simp [hno]

variable [DecidableEq τ]

/-- A task outside `balloc` goes on without entering it. -/
theorem inv_move {l : List (τ × ℕ)} (hi : Inv block s₀ s) (ht : (s.pc t).taken = none)
    (hp : p.taken = none) (hat : At s.array block p)
    (hl : ∀ r ∈ l, Filled s.array block (depth block + 1) ∧ r.2 = cell s.array block (depth block)) :
    Inv block s₀ { s.goto t p with rets := l } := by
  have htaken : ∀ u, (({ s.goto t p with rets := l } : State τ).pc u).taken = (s.pc u).taken := by
    intro u
    by_cases hu : u = t
    · subst hu
      simp [State.goto, ht, hp]
    · simp [State.goto, hu]
  refine ⟨fun u => ?_, fun u v hu hv => ?_, hl, hi.kept, hi.fresh, hi.inj, fun nr => ?_, fun u nr hu => ?_⟩
  · by_cases hu : u = t
    · subst hu
      simpa [State.goto] using hat
    · simpa [State.goto, hu] using hi.place u
  · rw [htaken] at hu hv
    exact hi.one u v hu hv
  · simp only [htaken]
    exact hi.used nr
  · rw [htaken] at hu
    exact hi.taken u nr hu

/-- A turn of the loop in the `k`-th array. -/
theorem inv_turn (hi : Inv block s₀ s) (ht : (s.pc t).taken = none) (hk : k ≤ depth block)
    (hf : Filled s.array block k)
    (hc : cell s.array block k = 0 → ¬ s.Filling (walk s.array block k) (frame block k).index)
    (h : turn s t (walk s.array block k) (frame block k) nr = .next s') : Inv block s₀ s' := by
  unfold turn at h
  split_ifs at h with h0
  · obtain ⟨hg, h⟩ := guard_eq_next.mp h
    obtain ⟨hpos, -, hfree⟩ := of_decide_eq_true hg
    obtain rfl := next.inj h
    -- nobody is in `balloc`: it would be for the cell where the way down stops
    have hno : ∀ u, (s.pc u).taken = none := by
      intro u
      cases hu : s.pc u with
      | balloc array f m =>
        have hat := hi.place u
        rw [hu] at hat
        obtain ⟨j, -, rfl, rfl, hfj, hj0, -⟩ := hat
        obtain rfl := stop_unique hfj hf hj0 h0
        exact absurd ⟨u, by simp [hu, Pc.Fills]⟩ (hc h0)
      | _ => rfl
    have htaken : ∀ u, ((((s.mark nr).goto t (.balloc (walk s.array block k) (frame block k) nr)).pc u).taken)
        = if u = t then some nr else none := by
      intro u
      by_cases hu : u = t
      · simp [State.goto, hu, Pc.taken]
      · simpa [State.goto, State.mark, hu] using hno u
    have hnew : s.used nr = false := by simpa using hfree
    have hold : s₀.used nr = false ∧ ∀ j, ¬ Made s₀ s block j nr := by
      have := (hi.used nr).not.mp (by simp [hnew])
      push Not at this
      exact ⟨by simpa using this.1, this.2.1⟩
    refine ⟨fun u => ?_, fun u v hu hv => ?_, hi.rets, hi.kept, hi.fresh, hi.inj, fun m => ?_,
      fun u m hu => ?_⟩
    · by_cases hu : u = t
      · subst hu
        simp only [State.goto, update_self]
        exact ⟨k, hk, rfl, rfl, hf, h0, by omega⟩
      · simpa [State.goto, State.mark, hu] using hi.place u
    · rw [htaken] at hu hv
      by_cases hut : u = t <;> by_cases hvt : v = t <;> simp_all
    · simp only [htaken]
      have := hi.used m
      simp only [hno] at this
      by_cases hm : m = nr
      · subst hm
        simp [State.goto, State.mark]
      · simpa [State.goto, State.mark, hm, Ne.symm hm, Made] using this
    · rw [htaken] at hu
      split_ifs at hu
      obtain rfl := Option.some.inj hu
      exact hold
  · obtain rfl := next.inj h
    exact inv_move hi ht rfl ⟨k, hk, rfl, rfl, filled_succ.mpr ⟨hf, h0⟩⟩ hi.rets

/-- The arrays after a store into the `k`-th cell. -/
def stored (A : Option ℕ → ℕ → ℕ) (block k v : ℕ) : Option ℕ → ℕ → ℕ :=
  update A (walk A block k) (update (A (walk A block k)) (frame block k).index v)

theorem stored_ne {v : ℕ} (hf : Filled A block k) (h0 : cell A block k = 0) (hj : j < k) :
    stored A block k v (walk A block j) (frame block j).index = cell A block j := by
  unfold stored
  by_cases hw : walk A block j = walk A block k
  · have hne : (frame block j).index ≠ (frame block k).index := by
      intro hidx
      refine hf j hj ?_
      rw [cell, hw, hidx]
      exact h0
    rw [hw, update_self, update_of_ne hne, cell, hw]
  · rw [update_of_ne hw, cell]

/-- A store where the way down stops leaves the way to it as it was. -/
theorem walk_stored {v : ℕ} (hf : Filled A block k) (h0 : cell A block k = 0) (hj : j ≤ k) :
    walk (stored A block k v) block j = walk A block j := by
  induction j with
  | zero => rfl
  | succ j ih =>
    rw [walk, ih (by omega), stored_ne hf h0 (by omega)]
    rfl

theorem cell_stored {v : ℕ} (hf : Filled A block k) (h0 : cell A block k = 0) (hj : j < k) :
    cell (stored A block k v) block j = cell A block j := by
  rw [cell, walk_stored hf h0 hj.le, stored_ne hf h0 hj]

theorem cell_stored_self {v : ℕ} (hf : Filled A block k) (h0 : cell A block k = 0) :
    cell (stored A block k v) block k = v := by
  rw [cell, walk_stored hf h0 le_rfl]
  simp [stored]

/-- The cells that are filled after the store of `v`, which goes no further. -/
theorem filled_stored {v : ℕ} (hf : Filled A block k) (h0 : cell A block k = 0) (hv : v ≠ 0)
    (hk : k ≤ depth block) (hnext : k < depth block → cell (stored A block k v) block (k + 1) = 0)
    (hj : j ≤ depth block) : Filled (stored A block k v) block (j + 1) ↔ j ≤ k := by
  constructor
  · intro h
    by_contra hjk
    exact h (k + 1) (by omega) (hnext (by omega))
  · intro hjk i hi
    rcases Nat.lt_or_ge i k with hik | hik
    · rw [cell_stored hf h0 hik]
      exact hf i hik
    · obtain rfl : i = k := by omega
      rwa [cell_stored_self hf h0]

/-- The end of a `balloc`. -/
theorem inv_put {array : Option ℕ} {f : Frame} (hi : Inv block s₀ s)
    (ht : s.pc t = .balloc array f nr)
    (hc : f.level ≠ 0 → (s.put array f.index nr).array (some nr) f.next.index = 0) :
    Inv block s₀ ((s.put array f.index nr).goto t (.brelse array f)) := by
  have hat := hi.place t
  rw [ht] at hat
  obtain ⟨k, hk, rfl, rfl, hf, h0, hv⟩ := hat
  have htk : (s.pc t).taken = some nr := by rw [ht]; rfl
  have hA : (s.put (walk s.array block k) (frame block k).index nr).array =
      stored s.array block k nr := rfl
  set s' := (s.put (walk s.array block k) (frame block k).index nr).goto t
    (.brelse (walk s.array block k) (frame block k)) with hs'
  have hA' : s'.array = stored s.array block k nr := rfl
  have hnext : k < depth block → cell (stored s.array block k nr) block (k + 1) = 0 := by
    intro hlt
    have := hc (by rw [frame_level]; omega)
    rw [hA] at this
    have hw : walk (stored s.array block k nr) block (k + 1) = some nr := by
      change some (cell (stored s.array block k nr) block k) = some nr
      rw [cell_stored_self hf h0]
    rw [cell, hw]
    exact this
  have hfill : ∀ j ≤ depth block, Filled s'.array block (j + 1) ↔ j ≤ k :=
    fun j hj => filled_stored hf h0 hv hk hnext hj
  have hlt : ∀ j, Filled s.array block (j + 1) → j < k := by
    intro j hj
    by_contra h
    exact hj k (by omega) h0
  have hmissing : ¬ Filled s₀.array block (k + 1) := fun h => hi.kept _ h k (by omega) h0
  have hmade : ∀ j m, Made s₀ s' block j m ↔ Made s₀ s block j m ∨ j = k ∧ m = nr := by
    intro j m
    constructor
    · rintro ⟨hj, hmiss, hfj, hm⟩
      rcases Nat.lt_or_ge j k with hjk | hjk
      · rw [hA', cell_stored hf h0 hjk] at hm
        exact .inl ⟨hj, hmiss, hf.mono hjk, hm⟩
      · obtain rfl : j = k := le_antisymm ((hfill j hj).mp hfj) hjk
        rw [hA', cell_stored_self hf h0] at hm
        exact .inr ⟨rfl, hm.symm⟩
    · rintro (⟨hj, hmiss, hfj, hm⟩ | ⟨rfl, rfl⟩)
      · have hjk := hlt j hfj
        refine ⟨hj, hmiss, (hfill j hj).mpr hjk.le, ?_⟩
        rwa [hA', cell_stored hf h0 hjk]
      · exact ⟨hk, hmissing, (hfill _ hk).mpr le_rfl, cell_stored_self hf h0⟩
  have hnot : ∀ u, u ≠ t → (s.pc u).taken = none := by
    intro u hu
    by_contra h
    exact hu (hi.one u t h (by simp [htk]))
  have htaken : ∀ u, (s'.pc u).taken = none := by
    intro u
    by_cases hu : u = t
    · simp [s', State.goto, hu, Pc.taken]
    · simpa [s', State.goto, State.put, hu] using hnot u hu
  obtain ⟨hnr, hnr'⟩ := hi.taken t nr htk
  refine ⟨fun u => ?_, fun u v hu => absurd (htaken u) hu, fun r hr => ?_, fun j hj => ?_,
    fun j m hm => ?_, fun i j m hm hm' => ?_, fun m => ?_, fun u m hu => ?_⟩
  · by_cases hu : u = t
    · have : s'.pc u = .brelse (walk s.array block k) (frame block k) := by simp [s', State.goto, hu]
      rw [this]
      exact ⟨k, hk, rfl, (walk_stored hf h0 le_rfl).symm, (hfill k hk).mpr le_rfl⟩
    · have hpc : s'.pc u = s.pc u := by simp [s', State.goto, State.put, hu]
      have hat := hi.place u
      rw [hpc]
      cases hp : s.pc u with
      | out => trivial
      | balloc array f m =>
        have := hnot u hu
        rw [hp] at this
        cases this
      | brelse array f =>
        rw [hp] at hat
        obtain ⟨j, hj, rfl, rfl, hfj⟩ := hat
        have hjk := hlt j hfj
        exact ⟨j, hj, rfl, (walk_stored hf h0 hjk.le).symm, (hfill j hj).mpr hjk.le⟩
      | bread b f =>
        rw [hp] at hat
        obtain ⟨j, hj, rfl, rfl, hfj⟩ := hat
        have hjk := hlt j hfj
        exact ⟨j, hj, rfl, (cell_stored hf h0 hjk).symm, (hfill j hj.le).mpr hjk.le⟩
  · exact absurd h0 ((hi.rets r hr).1 k (by omega))
  · have hjk : j ≤ k := by
      by_contra h
      exact hi.kept j hj k (by omega) h0
    exact ((hfill k hk).mpr le_rfl).mono (by omega)
  · rcases (hmade j m).mp hm with hm | ⟨-, rfl⟩
    · exact hi.fresh j m hm
    · exact hnr
  · rcases (hmade i m).mp hm with hm₁ | ⟨hik, hmn⟩ <;> rcases (hmade j m).mp hm' with hm₂ | ⟨hjk, hmn'⟩
    · exact hi.inj i j m hm₁ hm₂
    · exact absurd (hmn' ▸ hm₁) (hnr' i)
    · exact absurd (hmn ▸ hm₂) (hnr' j)
    · rw [hik, hjk]
  · have hone : (∃ u, (s.pc u).taken = some m) ↔ m = nr := by
      constructor
      · rintro ⟨u, hu⟩
        have hut : u = t := hi.one u t (by simp [hu]) (by simp [htk])
        rw [hut, htk] at hu
        exact (Option.some.inj hu).symm
      · rintro rfl
        exact ⟨t, htk⟩
    have hex : (∃ j, Made s₀ s' block j m) ↔ (∃ j, Made s₀ s block j m) ∨ m = nr := by
      simp only [hmade, exists_or, exists_eq_left]
    rw [hex, show s'.used m = s.used m from rfl, hi.used m, hone]
    simp [htaken]
  · simp [htaken] at hu

/-- No task tests an empty cell while another is in `balloc` for it, and a new index block
holds 0 where the call goes on. -/
def Apart (block : ℕ) (s : State τ) : Act τ → Prop
  | .bmap _ _ => s.array none (first block).index = 0 → ¬ s.Filling none (first block).index
  | .go t _ =>
    match s.pc t with
    | .balloc array f nr => f.level ≠ 0 → (s.put array f.index nr).array (some nr) f.next.index = 0
    | .bread b f => s.array (some b) f.next.index = 0 → ¬ s.Filling (some b) f.next.index
    | _ => True

theorem inv_step {a : Act τ} (hi : Inv block s₀ s) (hc : Apart block s a) (h : Step block s a s') :
    Inv block s₀ s' := by
  cases a with
  | bmap t nr =>
    obtain ⟨ht, h⟩ := guard_eq_next.mp h
    obtain ⟨-, h⟩ := assert_eq_next.mp h
    have ht : s.pc t = .out := of_decide_eq_true ht
    exact inv_turn (k := 0) hi (by simp [ht, Pc.taken]) (by omega) (fun j hj => by omega) hc h
  | go t nr =>
    unfold Step exec at h
    unfold Apart at hc
    have hat := hi.place t
    cases hp : s.pc t with
    | out => simp [hp] at h
    | balloc array f m =>
      simp only [hp] at h hc
      obtain rfl := next.inj h
      exact inv_put hi hp hc
    | brelse array f =>
      simp only [hp] at h hat
      obtain ⟨k, hk, rfl, rfl, hf⟩ := hat
      have htk : (s.pc t).taken = none := by rw [hp]; rfl
      have hcell : s.array (walk s.array block k) (frame block k).index = cell s.array block k := rfl
      have hne := hf k (by omega)
      obtain rfl := next.inj h
      rw [hcell, frame_level]
      split_ifs with hlast
      · obtain rfl : k = depth block := by omega
        refine inv_move hi htk rfl trivial fun r hr => ?_
        rcases List.mem_cons.mp hr with rfl | hr
        · exact ⟨hf, rfl⟩
        · exact hi.rets r hr
      · exact inv_move hi htk rfl ⟨k, by omega, rfl, rfl, hf⟩ hi.rets
    | bread b f =>
      simp only [hp] at h hat hc
      obtain ⟨k, hk, rfl, rfl, hf⟩ := hat
      exact inv_turn (k := k + 1) hi (by rw [hp]; rfl) hk hf hc h

/-- In every run in which no task tests an empty cell while another is in `balloc` for it
and no new index block holds an old number where a call goes on: all calls return the zone
that the block is now mapped to, and no zone is allocated twice. -/
theorem bmap_once {as : List (Act τ)} (h₀ : Init block s₀)
    (h : Run (Guarded (Apart block) (Step block)) s₀ as s) :
    ∀ t v, (t, v) ∈ s.rets → Once block s₀ s v := fun _ _ hv =>
  once_of_inv h₀ (h.invariant (fun _ _ _ hi hs => inv_step hi hs.1 hs.2) (inv_init h₀)) hv

instance (p : Pc) (array : Option ℕ) (index : ℕ) : Decidable (p.Fills array index) := by
  cases p <;> unfold Pc.Fills <;> infer_instance

instance [Fintype τ] (s : State τ) (array : Option ℕ) (index : ℕ) :
    Decidable (s.Filling array index) :=
  inferInstanceAs (Decidable (∃ t, (s.pc t).Fills array index))

instance [Fintype τ] (block : ℕ) (s : State τ) (a : Act τ) : Decidable (Apart block s a) :=
  match a with
  | .bmap .. => inferInstanceAs (Decidable (_ → ¬ _))
  | .go t _ =>
    match h : s.pc t with
    | .balloc array f nr =>
      decidable_of_iff (f.level ≠ 0 → (s.put array f.index nr).array (some nr) f.next.index = 0)
        (by simp only [Apart, h])
    | .bread b f =>
      decidable_of_iff (s.array (some b) f.next.index = 0 → ¬ s.Filling (some b) f.next.index)
        (by simp only [Apart, h])
    | .out => .isTrue (by simp [Apart, h])
    | .brelse .. => .isTrue (by simp [Apart, h])

/-- An empty file on a disk whose zones up to 34 are in use. -/
def empty : State Bool where
  array _ _ := 0
  used nr := nr < 35
  pc _ := .out
  rets := []

theorem init_empty (hb : block < DIRECT_BLOCK) : Init block empty where
  unmapped := by simp [State.bmap, first, hb, State.reckon, empty]
  pc _ := rfl
  rets := rfl

/-- The second task comes when the first has the index block and asks for the data block
when it is there. -/
theorem bmap_once_indirect : ∃ s, Run (Guarded (Apart 8) (Step 8)) empty
    [.bmap true 35, .go true 0, .go true 0, .bmap false 0, .go false 0, .go true 36, .go true 0,
      .go false 0, .go false 0, .go true 0] s ∧
    s.rets = [(true, 36), (false, 36)] ∧ Once 8 empty s 36 := by
  obtain ⟨s, hs, hp⟩ := run_of_play (Apart 8) (exec 8) empty
    [.bmap true 35, .go true 0, .go true 0, .bmap false 0, .go false 0, .go true 36, .go true 0,
      .go false 0, .go false 0, .go true 0]
    (fun s => s.rets == [(true, 36), (false, 36)]) (by decide +kernel)
  have hp : s.rets = [(true, 36), (false, 36)] := by simpa using hp
  exact ⟨s, hs, hp, bmap_once ⟨by decide +kernel, fun _ => rfl, rfl⟩ hs true 36 (by simp [hp])⟩

/-- Both tasks find the cell empty: the first returns its zone before the second stores
another one. -/
theorem bmap_twice : ¬ ∀ (block : ℕ) (s₀ s : State Bool) (as : List (Act Bool)),
    Init block s₀ → Run (Step block) s₀ as s →
      ∀ t v u w, (t, v) ∈ s.rets → (u, w) ∈ s.rets → v = w := by
  intro h
  obtain ⟨s, hs, hp⟩ := run_of_play (fun _ _ => True) (exec 3) empty
    [.bmap true 35, .bmap false 36, .go true 0, .go true 0, .go false 0, .go false 0]
    (fun s => s.rets == [(false, 36), (true, 35)]) (by decide +kernel)
  have hp : s.rets = [(false, 36), (true, 35)] := by simpa using hp
  have := h 3 empty s _ (init_empty (by decide)) hs.of_guarded true 35 false 36 (by simp [hp])
    (by simp [hp])
  cases this

end Onix.Reckon
