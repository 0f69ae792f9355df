import Onix.Proofs.Device

/-! The order in which a disk serves its requests: the list stays sorted by sectors, so the
sweep of `request_nextreq` goes to the nearest request on its way. -/

namespace Onix.Device

open Function Outcome

variable {τ : Type*} {s s' s₀ : State τ} {a : Act τ} {as : List (Act τ)} {t : τ}
  {d n : ℕ} {r q p : RequestT τ} {l xs ys : List (RequestT τ)}

/-- The sector that is asked for, counted from the start of the disk, fits in an `int`. -/
def LowSector (s : State τ) : Act τ → Prop
  | .request dev _ _ idx _ _ => (idx + (s.devices dev).sectorStart) % 2 ^ 32 < 2 ^ 31
  | _ => True

/-- Ascending sectors, none of them negative as an `int`. -/
def Ascending (l : List (RequestT τ)) : Prop :=
  l.Pairwise (fun p q => p.idx ≤ q.idx) ∧ ∀ p ∈ l, p.idx < 2 ^ 31

theorem key_eq (h : r.idx < 2 ^ 31) : r.key = r.idx := by
  unfold RequestT.key
  apply Int.bmod_eq_of_le
  · omega
  · omega

/-- What is inserted goes behind everything with a sector not above its own. -/
theorem Ascending.insert (h : Ascending l) (hr : r.idx < 2 ^ 31) : Ascending (listInsertSort l r) := by
  unfold listInsertSort
  induction l with
  | nil =>
    refine ⟨List.pairwise_singleton _ r, fun p hp => ?_⟩
    rw [List.orderedInsert_nil, List.mem_singleton] at hp
    rw [hp]
    exact hr
  | cons q l ih =>
    obtain ⟨hsorted, hlow⟩ := h
    obtain ⟨hhead, htail⟩ := List.pairwise_cons.mp hsorted
    have hq : q.idx < 2 ^ 31 := hlow q List.mem_cons_self
    have hmem : ∀ p, p ∈ List.orderedInsert (fun req ptr : RequestT τ => req.key < ptr.key) r l ↔
        p = r ∨ p ∈ l := fun p => List.mem_orderedInsert _
    obtain ⟨hpair, hall⟩ := ih ⟨htail, fun p hp => hlow p (List.mem_cons_of_mem _ hp)⟩
    rw [List.orderedInsert_cons]
    split_ifs with hlt
    · rw [key_eq hr, key_eq hq] at hlt
      refine ⟨List.pairwise_cons.mpr ⟨fun p hp => ?_, hsorted⟩, fun p hp => ?_⟩
      · obtain rfl | hp := List.mem_cons.mp hp
        · omega
        · have := hhead p hp
          omega
      · obtain rfl | hp := List.mem_cons.mp hp
        · exact hr
        · exact hlow p hp
    · rw [key_eq hr, key_eq hq] at hlt
      refine ⟨List.pairwise_cons.mpr ⟨fun p hp => ?_, hpair⟩, fun p hp => ?_⟩
      · obtain rfl | hp := (hmem p).mp hp
        · omega
        · exact hhead p hp
      · obtain rfl | hp := List.mem_cons.mp hp
        · exact hq
        · exact hall p hp

theorem Ascending.remove (h : Ascending l) (n : ℕ) : Ascending (Chain.remove RequestT.nr l n) :=
  ⟨h.1.filter _, fun p hp => h.2 p (Chain.mem_remove.mp hp).1⟩

/-- From a request to the next: `up` to the next sector above with none in between, `down` to the
next below, and turning round only where nothing lies further on. -/
structure Swept (device : DeviceT τ) (r : RequestT τ) : Prop where
  up : ∀ q, (requestNextreq device r).1 = some q → (requestNextreq device r).2 = .up →
    r.idx ≤ q.idx ∧ ∀ p ∈ device.requestList, ¬ (r.idx < p.idx ∧ p.idx < q.idx)
  down : ∀ q, (requestNextreq device r).1 = some q → (requestNextreq device r).2 = .down →
    q.idx ≤ r.idx ∧ ∀ p ∈ device.requestList, ¬ (q.idx < p.idx ∧ p.idx < r.idx)
  turn : (requestNextreq device r).2 ≠ device.direct → ∀ p ∈ device.requestList,
    ¬ (device.direct = .up ∧ r.idx < p.idx) ∧ ¬ (device.direct = .down ∧ p.idx < r.idx)

/-- On a sorted list the neighbours are the nearest. -/
theorem swept_of_ascending {device : DeviceT τ} (hn : (device.requestList.map RequestT.nr).Nodup)
    (hr : r ∈ device.requestList) (ha : Ascending device.requestList) : Swept device r := by
  obtain ⟨xs, ys, hl, hnext, hprev, -⟩ := Chain.around hn hr
  have hpair := ha.1
  rw [hl, List.pairwise_append, List.pairwise_cons] at hpair
  obtain ⟨hxs, ⟨hafter, hys⟩, hacross⟩ := hpair
  have hbefore : ∀ p ∈ xs, p.idx ≤ r.idx := fun p hp => hacross p hp r List.mem_cons_self
  have hmem : ∀ p ∈ device.requestList, p ∈ xs ∨ p = r ∨ p ∈ ys := by
    intro p hp
    rw [hl, List.mem_append, List.mem_cons] at hp
    exact hp
  have hnearUp : ∀ q, ys.head? = some q →
      r.idx ≤ q.idx ∧ ∀ p ∈ device.requestList, ¬ (r.idx < p.idx ∧ p.idx < q.idx) := by
    intro q hq
    obtain ⟨zs, rfl⟩ := List.head?_eq_some_iff.mp hq
    have hfirst := (List.pairwise_cons.mp hys).1
    refine ⟨hafter q List.mem_cons_self, fun p hp => ?_⟩
    obtain hp | rfl | hp := hmem p hp
    · have := hbefore p hp
      omega
    · omega
    · obtain rfl | hp := List.mem_cons.mp hp
      · omega
      · have := hfirst p hp
        omega
  have hnearDown : ∀ q, xs.getLast? = some q →
      q.idx ≤ r.idx ∧ ∀ p ∈ device.requestList, ¬ (q.idx < p.idx ∧ p.idx < r.idx) := by
    intro q hq
    obtain ⟨zs, rfl⟩ := List.getLast?_eq_some_iff.mp hq
    have hlast := (List.pairwise_append.mp hxs).2.2
    have hqmem : q ∈ zs ++ [q] := List.mem_append_right _ (List.mem_singleton.mpr rfl)
    refine ⟨hbefore q hqmem, fun p hp => ?_⟩
    obtain hp | rfl | hp := hmem p hp
    · obtain hp | hp := List.mem_append.mp hp
      · have := hlast p hp q (List.mem_singleton.mpr rfl)
        omega
      · rw [List.mem_singleton.mp hp]
        omega
    · omega
    · have := hafter p hp
      omega
  have hnextq : ∀ q, (requestNextreq device r).1 = some q →
      ((requestNextreq device r).2 = .up → ys.head? = some q) ∧
      ((requestNextreq device r).2 = .down → xs.getLast? = some q) := by
    intro q hq
    unfold requestNextreq at hq ⊢
    dsimp only at hq ⊢
    rw [hnext, hprev] at hq ⊢
    constructor
    · intro hup
      rw [if_pos hup] at hq
      exact hq
    · intro hdown
      rw [if_neg (by rw [hdown]; decide)] at hq
      exact hq
  refine ⟨fun q hq hup => hnearUp q ((hnextq q hq).1 hup),
    fun q hq hdown => hnearDown q ((hnextq q hq).2 hdown), fun hturn p hp => ?_⟩
  unfold requestNextreq at hturn
  dsimp only at hturn
  rw [hnext, hprev] at hturn
  split_ifs at hturn with hend hstart
  · obtain ⟨hup, hys⟩ := hend
    obtain rfl := List.head?_eq_none_iff.mp hys
    refine ⟨fun ⟨_, hlt⟩ => ?_, fun ⟨hdown, _⟩ => by rw [hup] at hdown; cases hdown⟩
    obtain hp | rfl | hp := hmem p hp
    · have := hbefore p hp
      omega
    · omega
    · cases hp
  · obtain ⟨hdown, hxs⟩ := hstart
    obtain rfl := List.getLast?_eq_none_iff.mp hxs
    refine ⟨fun ⟨hup, _⟩ => (by rw [hdown] at hup; cases hup), fun ⟨_, hlt⟩ => ?_⟩
    obtain hp | rfl | hp := hmem p hp
    · cases hp
    · omega
    · have := hafter p hp
      omega
  · exact absurd rfl hturn

variable [DecidableEq τ]

theorem taskBlock_list (h : taskBlock s t = .next s') (d : ℕ) : s'.list d = s.list d := by
  obtain ⟨-, h⟩ := assert_eq_next.mp h
  rw [← next.inj h]
  rfl

theorem taskUnblock_list (h : taskUnblock s t = .next s') (d : ℕ) : s'.list d = s.list d := by
  obtain ⟨-, h⟩ := assert_eq_next.mp h
  rw [← next.inj h]
  rfl

/-- `device_request` inserts a request for its sector into the list of the disk. -/
theorem deviceRequest_list {dev buf count idx : ℕ} {flags : ℤ} {type : ReqType}
    (h : deviceRequest s t dev buf count idx flags type = .next s') : ∃ disk r,
      r.idx = (idx + (s.devices dev).sectorStart) % 2 ^ 32 ∧
      ∀ d, s'.list d = if d = disk then listInsertSort (s.list disk) r else s.list d := by
  obtain ⟨-, h⟩ := assert_eq_next.mp h
  obtain ⟨-, h⟩ := assert_eq_next.mp h
  obtain ⟨-, h⟩ := assert_eq_next.mp h
  obtain ⟨-, h⟩ := assert_eq_next.mp h
  obtain ⟨-, h⟩ := assert_eq_next.mp h
  dsimp only at h
  generalize (if (s.devices dev).parent ≠ 0 then (s.devices dev).parent else dev) = disk at h
  split_ifs at h
  · refine ⟨disk, ⟨s.made.length, disk, type, (idx + (s.devices dev).sectorStart) % 2 ^ 32, count, flags,
      buf, none⟩, rfl, fun d => ?_⟩
    rw [← next.inj h]
    exact list_setList ..
  · refine ⟨disk, ⟨s.made.length, disk, type, (idx + (s.devices dev).sectorStart) % 2 ^ 32, count, flags,
      buf, some t⟩, rfl, fun d => ?_⟩
    rw [taskBlock_list h d]
    exact list_setList ..

/-- The end of `device_request` takes the request off its list. -/
theorem endRequest_list (h : endRequest s t d r = .next s') (e : ℕ) :
    s'.list e = if e = d then Chain.remove RequestT.nr (s.list d) r.nr else s.list e := by
  unfold endRequest at h
  dsimp only at h
  cases hn : (requestNextreq (s.devices d) r).1 with
  | none =>
    rw [hn] at h
    rw [← next.inj h]
    exact list_setList ..
  | some q =>
    rw [hn] at h
    dsimp only at h
    cases hq : q.task with
    | none => simp [hq] at h
    | some u =>
      rw [hq] at h
      obtain ⟨-, h⟩ := assert_eq_next.mp h
      rw [taskUnblock_list h e]
      exact list_setList ..

/-- What a step can do to the list of a disk. -/
theorem list_step (hl : LowSector s a) (h : Step s a s') (d : ℕ) : s'.list d = s.list d ∨
    (∃ r, r.idx < 2 ^ 31 ∧ s'.list d = listInsertSort (s.list d) r) ∨
    ∃ n, s'.list d = Chain.remove RequestT.nr (s.list d) n := by
  unfold Step exec at h
  cases a with
  | request dev buf count idx flags type =>
    cases hc : s.cpu with
    | none => simp [hc] at h
    | some t =>
      rw [hc] at h
      obtain ⟨-, h⟩ := guard_eq_next.mp h
      obtain ⟨disk, r, hr, hlist⟩ := deviceRequest_list h
      obtain rfl | hne := eq_or_ne d disk
      · refine .inr (.inl ⟨r, by rw [hr]; exact hl, ?_⟩)
        rw [hlist, if_pos rfl]
      · left
        rw [hlist, if_neg hne]
  | pause =>
    cases hc : s.cpu with
    | none => simp [hc] at h
    | some t =>
      rw [hc] at h
      dsimp only at h
      cases hp : s.pc t with
      | serving e r =>
        rw [hp] at h
        exact .inl (taskBlock_list h d)
      | _ => simp [hp] at h
  | finish =>
    cases hc : s.cpu with
    | none => simp [hc] at h
    | some t =>
      rw [hc] at h
      dsimp only at h
      cases hp : s.pc t with
      | serving e r =>
        rw [hp] at h
        have hlist := endRequest_list h d
        obtain rfl | hne := eq_or_ne d e
        · rw [if_pos rfl] at hlist
          exact .inr (.inr ⟨r.nr, hlist⟩)
        · rw [if_neg hne] at hlist
          exact .inl hlist
      | _ => simp [hp] at h
  | block =>
    cases hc : s.cpu with
    | none => simp [hc] at h
    | some t =>
      rw [hc] at h
      obtain ⟨-, h⟩ := guard_eq_next.mp h
      exact .inl (taskBlock_list h d)
  | preempt =>
    cases hc : s.cpu with
    | none => simp [hc] at h
    | some t =>
      rw [hc] at h
      obtain ⟨-, h⟩ := guard_eq_next.mp h
      rw [← next.inj h]
      exact .inl rfl
  | wake u =>
    dsimp only at h
    cases hp : s.pc u with
    | queued e r => simp [hp] at h
    | _ =>
      rw [hp] at h
      obtain ⟨-, h⟩ := guard_eq_next.mp h
      exact .inl (taskUnblock_list h d)
  | dispatch u =>
    obtain ⟨-, h⟩ := guard_eq_next.mp h
    obtain ⟨-, h⟩ := assert_eq_next.mp h
    dsimp only at h
    cases hp : s.pc u with
    | _ =>
      rw [hp] at h
      rw [← next.inj h]
      exact .inl rfl

theorem run_ascending (h₀ : Init s₀) (h : Run (Guarded LowSector Step) s₀ as s) (d : ℕ) :
    Ascending (s.list d) := by
  have hall : ∀ d, Ascending (s.list d) := by
    refine h.invariant (I := fun s => ∀ d, Ascending (s.list d)) (fun s a s' hi hs d => ?_) fun d => ?_
    · obtain hsame | ⟨r, hr, hins⟩ | ⟨n, hrem⟩ := list_step hs.1 hs.2 d
      · rw [hsame]
        exact hi d
      · rw [hins]
        exact (hi d).insert hr
      · rw [hrem]
        exact (hi d).remove n
    · have hempty : s₀.list d = [] := h₀.empty d
      rw [hempty]
      exact ⟨List.Pairwise.nil, fun p hp => absurd hp List.not_mem_nil⟩
  exact hall d

/-- Whatever requests have arrived, and when: a request that is served is followed as the
elevator goes. -/
theorem request_elevator (h₀ : Init s₀) (h : Run (Guarded LowSector Step) s₀ as s) (t : τ) (d : ℕ)
    (r : RequestT τ) (hs : s.pc t = .serving d r) : Swept (s.devices d) r := by
  have hi := run_inv h₀ h.of_guarded
  exact swept_of_ascending (hi.nodup d) ((hi.member d r).mpr ⟨t, .inr hs⟩) (run_ascending h₀ h d)

instance (s : State τ) : DecidablePred (LowSector s)
  | .request dev _ _ idx _ _ =>
    inferInstanceAs (Decidable ((idx + (s.devices dev).sectorStart) % 2 ^ 32 < 2 ^ 31))
  | .pause | .finish | .block | .preempt | .wake _ | .dispatch _ => .isTrue trivial

/-- Sector 73 is being served, 67 and 90 are in the list. -/
theorem request_elevator_busy : ∃ s r, Run (Guarded LowSector Step) start busy s ∧
    s.pc 0 = .serving 1 r ∧ (s.list 1).map RequestT.idx = [67, 73, 90] ∧ Swept (s.devices 1) r := by
  obtain ⟨s, hs, hp⟩ := run_of_play LowSector exec start busy
    (fun s => s.pc 0 == .serving 1 ⟨0, 1, .read, 73, 2, 0, 0, none⟩ &&
      (s.list 1).map RequestT.idx == [67, 73, 90]) (by decide)
  simp only [Bool.and_eq_true, beq_iff_eq] at hp
  exact ⟨s, _, hs, hp.1, hp.2, request_elevator init_start hs 0 1 _ hp.1⟩

end Onix.Device
