import Onix.Lib.Run
import Onix.Spec.Device

/-! The invariant of the request lists: every request on a list belongs to one
task, and of each list that is not empty exactly one request is being served or
about to be. -/

namespace Onix.Device

open Function Outcome

variable {τ : Type*} {s s' : State τ} {t u : τ} {d e : ℕ} {r q : RequestT τ}

/-- The list of a disk. -/
def State.list (s : State τ) (d : ℕ) : List (RequestT τ) := (s.devices d).requestList

/-- The request that a task is in `device_request` with. -/
def Holds (s : State τ) (t : τ) (d : ℕ) (r : RequestT τ) : Prop :=
  s.pc t = .queued d r ∨ s.pc t = .serving d r

/-- The task is serving the request, or has been woken to do so. -/
def Active (s : State τ) (t : τ) (d : ℕ) (r : RequestT τ) : Prop :=
  s.pc t = .serving d r ∨ (s.pc t = .queued d r ∧ s.state t = .ready)

structure Inv (s : State τ) : Prop where
  cpu : ∀ t, s.state t = .running ↔ s.cpu = some t
  linked : ∀ t, s.linked t = true ↔ s.state t = .blocked
  magic : ∀ t, s.magic t = ONIX_MAGIC
  nodup : ∀ d, ((s.list d).map RequestT.nr).Nodup
  member : ∀ d r, r ∈ s.list d ↔ ∃ t, Holds s t d r
  inj : ∀ t u d e r, Holds s t d r → Holds s u e r → t = u
  waiting : ∀ t d r, s.pc t = .queued d r → r.task = some t ∧ s.state t ≠ .running
  token : ∀ d, s.list d ≠ [] → ∃ t r, Active s t d r
  unique : ∀ t u d r q, Active s t d r → Active s u d q → t = u
  fresh : ∀ t d r, Holds s t d r → r ∈ s.made
  numbers : ∀ r ∈ s.made, r.nr < s.made.length
  number_inj : ∀ r ∈ s.made, ∀ q ∈ s.made, r.nr = q.nr → r = q
  once : s.performed.Nodup
  performed : ∀ r, r ∈ s.performed ↔ r ∈ s.made ∧ ∀ t d, s.pc t ≠ .queued d r

theorem Active.holds (h : Active s t d r) : Holds s t d r := by
  rcases h with h | h
  · exact Or.inr h
  · exact Or.inl h.1

theorem Holds.unique (h : Holds s t d r) (h' : Holds s t e q) : d = e ∧ r = q := by
  unfold Holds at h h'
  rcases h with h | h <;> rcases h' with h' | h' <;> rw [h] at h' <;> cases h' <;> exact ⟨rfl, rfl⟩

theorem inv_init (h : Init s) : Inv s where
  cpu := h.cpu
  linked := h.linked
  magic := h.magic
  nodup d := by simp [State.list, h.empty]
  member d r := by simp [State.list, h.empty, Holds, h.pc]
  inj t u d e r ht := by simp [Holds, h.pc] at ht
  waiting t d r ht := by simp [h.pc] at ht
  token d hd := absurd (h.empty d) hd
  unique t u d r q ht := by simp [Active, h.pc] at ht
  fresh t d r ht := by simp [Holds, h.pc] at ht
  numbers r hr := by simp [h.made] at hr
  number_inj r hr := by simp [h.made] at hr
  once := by simp [h.performed]
  performed r := by simp [h.performed, h.made]

/-- Two requests of tasks with one number are one. -/
theorem Inv.eq_of_nr (hi : Inv s) (h : Holds s t d r) (h' : Holds s u e q) (hn : r.nr = q.nr) :
    r = q ∧ t = u := by
  obtain rfl := hi.number_inj r (hi.fresh t d r h) q (hi.fresh u e q h') hn
  exact ⟨rfl, hi.inj t u d e r h h'⟩

/-- The owner of a request that is not active is blocked and known to it. -/
theorem Inv.blocked_of_not_active (hi : Inv s) (hq : q ∈ s.list d) (hn : ∀ u, ¬ Active s u d q) :
    ∃ u, s.pc u = .queued d q ∧ q.task = some u ∧ s.state u = .blocked := by
  obtain ⟨u, hu⟩ := (hi.member d q).mp hq
  rcases hu with hu | hu
  · obtain ⟨htask, hrun⟩ := hi.waiting u d q hu
    refine ⟨u, hu, htask, ?_⟩
    cases hst : s.state u with
    | ready => exact absurd (Or.inr ⟨hu, hst⟩) (hn u)
    | running => exact absurd hst hrun
    | blocked => rfl
  · exact absurd (Or.inl hu) (hn u)

/-- While one request is served, the others of its disk wait. -/
theorem Inv.others_blocked (hi : Inv s) (ha : Active s t d r) (hq : q ∈ s.list d)
    (hne : q.nr ≠ r.nr) : ∃ u, u ≠ t ∧ s.pc u = .queued d q ∧ q.task = some u ∧
      s.state u = .blocked := by
  have hn : ∀ u, ¬ Active s u d q := by
    intro u hu
    obtain rfl := hi.unique u t d q r hu ha
    exact hne (congrArg RequestT.nr (hu.holds.unique ha.holds).2)
  obtain ⟨u, hpc, htask, hst⟩ := hi.blocked_of_not_active hq hn
  refine ⟨u, ?_, hpc, htask, hst⟩
  rintro rfl
  exact hne (congrArg RequestT.nr (Holds.unique (Or.inl hpc) ha.holds).2)

/-- The sweep finds another request of the list exactly if there is one. -/
theorem requestNextreq_spec {device : DeviceT τ} (hn : (device.requestList.map RequestT.nr).Nodup)
    (hr : r ∈ device.requestList) :
    ((requestNextreq device r).1 = none ↔ device.requestList = [r]) ∧
      ∀ q, (requestNextreq device r).1 = some q → q ∈ device.requestList ∧ q.nr ≠ r.nr := by
  obtain ⟨xs, ys, hl, hnext, hprev, -⟩ := Chain.around hn hr
  have hone : device.requestList = [r] ↔ xs = [] ∧ ys = [] := by
    rw [hl]
    constructor
    · intro h
      have := congrArg List.length h
      simp only [List.length_append, List.length_cons, List.length_nil] at this
      exact ⟨List.eq_nil_of_length_eq_zero (by omega), List.eq_nil_of_length_eq_zero (by omega)⟩
    · rintro ⟨rfl, rfl⟩
      rfl
  have hside : ∀ q, q ∈ xs ∨ q ∈ ys → q ∈ device.requestList ∧ q.nr ≠ r.nr := by
    intro q hq
    rw [hl] at hn ⊢
    rw [List.map_append, List.map_cons, List.nodup_append, List.nodup_cons] at hn
    obtain ⟨-, ⟨hys, -⟩, hdisj⟩ := hn
    rcases hq with hq | hq
    · exact ⟨List.mem_append_left _ hq, hdisj _ (List.mem_map_of_mem hq) _ List.mem_cons_self⟩
    · exact ⟨List.mem_append_right _ (List.mem_cons_of_mem _ hq),
        fun h => hys (h ▸ List.mem_map_of_mem hq)⟩
  have hys : ys.head? = none ↔ ys = [] := List.head?_eq_none_iff
  have hxs : xs.getLast? = none ↔ xs = [] := List.getLast?_eq_none_iff
  rw [hone]
  unfold requestNextreq
  dsimp only
  rw [hnext, hprev]
  constructor
  · cases hd : device.direct <;> by_cases hx : xs = [] <;> by_cases hy : ys = [] <;>
      simp [hx, hy]
  · intro q hq
    split_ifs at hq with h1 h2
    all_goals first
      | exact hside q (Or.inl (List.mem_of_getLast? hq))
      | exact hside q (Or.inr (List.mem_of_head? hq))

/-- Only what the scheduler works with has changed, and nothing of a task that
waits for its turn. -/
theorem Inv.sched (hi : Inv s) (hd : s'.devices = s.devices) (hpc : s'.pc = s.pc)
    (hm : s'.made = s.made) (hp : s'.performed = s.performed)
    (hcpu : ∀ t, s'.state t = .running ↔ s'.cpu = some t)
    (hlinked : ∀ t, s'.linked t = true ↔ s'.state t = .blocked) (hmagic : s'.magic = s.magic)
    (hq : ∀ t d r, s.pc t = .queued d r → s'.state t = s.state t) : Inv s' := by
  have hl : ∀ d, s'.list d = s.list d := fun d => by
    unfold State.list
    rw [hd]
  have hh : ∀ t d r, Holds s' t d r ↔ Holds s t d r := fun t d r => by
    unfold Holds
    rw [hpc]
  have ha : ∀ t d r, Active s' t d r ↔ Active s t d r := by
    intro t d r
    unfold Active
    rw [hpc]
    constructor
    · rintro (h | ⟨h, hs⟩)
      · exact Or.inl h
      · exact Or.inr ⟨h, (hq t d r h).symm.trans hs⟩
    · rintro (h | ⟨h, hs⟩)
      · exact Or.inl h
      · exact Or.inr ⟨h, (hq t d r h).trans hs⟩
  refine ⟨hcpu, hlinked, fun t => by rw [hmagic]; exact hi.magic t, fun d => by
    rw [hl]; exact hi.nodup d, fun d r => ?_, fun t u d e r h h' => ?_, fun t d r h => ?_,
    fun d h => ?_, fun t u d r q h h' => ?_, fun t d r h => ?_, by rw [hm]; exact hi.numbers, by
    rw [hm]; exact hi.number_inj, by rw [hp]; exact hi.once, by rw [hp, hm, hpc]; exact hi.performed⟩
  · simp only [hl, hh]
    exact hi.member d r
  · exact hi.inj t u d e r ((hh t d r).mp h) ((hh u e r).mp h')
  · rw [hpc] at h
    rw [hq t d r h]
    exact hi.waiting t d r h
  · obtain ⟨t, r, h⟩ := hi.token d (hl d ▸ h)
    exact ⟨t, r, (ha t d r).mpr h⟩
  · exact hi.unique t u d r q ((ha t d r).mp h) ((ha u d q).mp h')
  · rw [hm]
    exact hi.fresh t d r ((hh t d r).mp h)

theorem list_setList (s : State τ) (d e : ℕ) (l : List (RequestT τ)) (direct : Direct) :
    (s.setList d l direct).list e = if e = d then l else s.list e := by
  unfold State.setList State.list
  dsimp only
  by_cases he : e = d
  · subst he
    rw [update_self, if_pos rfl]
  · rw [update_of_ne he, if_neg he]

section Request

variable [DecidableEq τ] {p : Pc τ}

theorem pc_goto (s : State τ) (t u : τ) (p : Pc τ) :
    (s.goto t p).pc u = if u = t then p else s.pc u := by
  unfold State.goto
  dsimp only
  by_cases hu : u = t
  · subst hu
    rw [update_self, if_pos rfl]
  · rw [update_of_ne hu, if_neg hu]

/-- The state after `t` has entered the request `r` of disk `d`, and waits for it
or serves it. -/
structure Entered (s s' : State τ) (t : τ) (d : ℕ) (r : RequestT τ) (p : Pc τ) : Prop where
  pc : ∀ u, s'.pc u = if u = t then p else s.pc u
  list : ∀ e, s'.list e = if e = d then listInsertSort (s.list d) r else s.list e
  made : s'.made = s.made ++ [r]
  magic : s'.magic = s.magic

/-- A new request joins its list; it is served at once exactly if the list was empty. -/
theorem Inv.enter (hi : Inv s) (hout : s.pc t = .out) (hnr : r.nr = s.made.length)
    (hen : Entered s s' t d r p)
    (hp : (p = .serving d r ∧ s.list d = [] ∧ s'.performed = s.performed ++ [r]) ∨
      (p = .queued d r ∧ s.list d ≠ [] ∧ s'.performed = s.performed ∧ r.task = some t ∧
        s'.state t = .blocked))
    (hcpu : ∀ t, s'.state t = .running ↔ s'.cpu = some t)
    (hlinked : ∀ t, s'.linked t = true ↔ s'.state t = .blocked)
    (hst : ∀ u, u ≠ t → s'.state u = s.state u) : Inv s' := by
  have hnew : r ∉ s.made := fun hr => by
    have := hi.numbers r hr
    omega
  have hpt : s'.pc t = p := by rw [hen.pc, if_pos rfl]
  have hpu : ∀ u, u ≠ t → s'.pc u = s.pc u := fun u hu => by rw [hen.pc, if_neg hu]
  have hnone : ∀ e q, ¬ Holds s t e q := fun e q h => by simp [Holds, hout] at h
  have hself : ∀ e q, Holds s' t e q ↔ e = d ∧ q = r := by
    intro e q
    unfold Holds
    rw [hpt]
    rcases hp with ⟨rfl, -⟩ | ⟨rfl, -⟩ <;> simp [eq_comm]
  have hother : ∀ u, u ≠ t → ∀ e q, Holds s' u e q ↔ Holds s u e q := fun u hu e q => by
    unfold Holds
    rw [hpu u hu]
  have hact : ∀ u, u ≠ t → ∀ e q, Active s' u e q ↔ Active s u e q := fun u hu e q => by
    unfold Active
    rw [hpu u hu, hst u hu]
  have hnot : ∀ u e q, Holds s u e q → u ≠ t := by
    rintro u e q h rfl
    exact hnone e q h
  have hlist : ∀ e q, q ∈ s'.list e ↔ (e = d ∧ q = r) ∨ q ∈ s.list e := by
    intro e q
    rw [hen.list]
    by_cases he : e = d
    · subst he
      rw [if_pos rfl, listInsertSort, List.mem_orderedInsert]
      simp
    · rw [if_neg he]
      simp [he]
  have hmade : ∀ q, q ∈ s'.made ↔ q ∈ s.made ∨ q = r := fun q => by
    rw [hen.made, List.mem_append, List.mem_singleton]
  refine ⟨hcpu, hlinked, fun u => by rw [hen.magic]; exact hi.magic u, fun e => ?_, fun e q => ?_,
    fun u v e e' q h h' => ?_, fun u e q h => ?_, fun e he => ?_, fun u v e q q' h h' => ?_,
    fun u e q h => ?_, fun q hq => ?_, fun q hq q' hq' hqq => ?_, ?_, fun q => ?_⟩
  · rw [hen.list]
    split_ifs with he
    · have hperm := (List.perm_orderedInsert (fun req ptr : RequestT τ => req.key < ptr.key) r
        (s.list d)).map RequestT.nr
      rw [listInsertSort, hperm.nodup_iff, List.map_cons, List.nodup_cons]
      refine ⟨fun hmem => ?_, hi.nodup d⟩
      obtain ⟨q, hq, hqn⟩ := List.mem_map.mp hmem
      obtain ⟨u, hu⟩ := (hi.member d q).mp hq
      have := hi.numbers q (hi.fresh u d q hu)
      omega
    · exact hi.nodup e
  · rw [hlist, hi.member]
    constructor
    · rintro (⟨rfl, rfl⟩ | ⟨u, hu⟩)
      · exact ⟨t, (hself e q).mpr ⟨rfl, rfl⟩⟩
      · exact ⟨u, (hother u (hnot u e q hu) e q).mpr hu⟩
    · rintro ⟨u, hu⟩
      by_cases hut : u = t
      · subst hut
        exact Or.inl ((hself e q).mp hu)
      · exact Or.inr ⟨u, (hother u hut e q).mp hu⟩
  · have hne : ∀ w e, w ≠ t → Holds s' w e q → q ≠ r := by
      rintro w e hw hh rfl
      exact hnew (hi.fresh w e q ((hother w hw e q).mp hh))
    by_cases hu : u = t <;> by_cases hv : v = t
    · rw [hu, hv]
    · rw [hu] at h
      exact absurd ((hself e q).mp h).2 (hne v e' hv h')
    · rw [hv] at h'
      exact absurd ((hself e' q).mp h').2 (hne u e hu h)
    · exact hi.inj u v e e' q ((hother u hu e q).mp h) ((hother v hv e' q).mp h')
  · by_cases hu : u = t
    · subst hu
      obtain ⟨rfl, rfl⟩ := (hself e q).mp (Or.inl h)
      rcases hp with ⟨rfl, -⟩ | ⟨rfl, -, -, htask, hblocked⟩
      · rw [hpt] at h
        cases h
      · exact ⟨htask, by rw [hblocked]; decide⟩
    · rw [hpu u hu] at h
      rw [hst u hu]
      exact hi.waiting u e q h
  · by_cases hed : e = d
    · subst hed
      rcases hp with ⟨rfl, -⟩ | ⟨-, hne, -⟩
      · exact ⟨t, r, Or.inl hpt⟩
      · obtain ⟨u, q, hu⟩ := hi.token e hne
        exact ⟨u, q, (hact u (hnot u e q hu.holds) e q).mpr hu⟩
    · rw [hen.list, if_neg hed] at he
      obtain ⟨u, q, hu⟩ := hi.token e he
      exact ⟨u, q, (hact u (hnot u e q hu.holds) e q).mpr hu⟩
  · have hlone : ∀ w e q, w ≠ t → Active s' w e q → Active s' t e r → False := by
      intro w e q hw hh ht
      have hh := (hact w hw e q).mp hh
      obtain ⟨rfl, -⟩ := (hself e r).mp ht.holds
      rcases hp with ⟨-, hempty, -⟩ | ⟨rfl, -, -, -, hblocked⟩
      · have hmem := (hi.member e q).mpr ⟨w, hh.holds⟩
        rw [hempty] at hmem
        cases hmem
      · rcases ht with ht | ⟨-, ht⟩
        · rw [hpt] at ht
          cases ht
        · rw [hblocked] at ht
          cases ht
    by_cases hu : u = t <;> by_cases hv : v = t
    · rw [hu, hv]
    · subst hu
      obtain ⟨-, rfl⟩ := (hself e q).mp h.holds
      exact (hlone v e q' hv h' h).elim
    · subst hv
      obtain ⟨-, rfl⟩ := (hself e q').mp h'.holds
      exact (hlone u e q hu h h').elim
    · exact hi.unique u v e q q' ((hact u hu e q).mp h) ((hact v hv e q').mp h')
  · rw [hmade]
    by_cases hu : u = t
    · subst hu
      exact Or.inr ((hself e q).mp h).2
    · exact Or.inl (hi.fresh u e q ((hother u hu e q).mp h))
  · rw [hen.made, List.length_append, List.length_singleton]
    rcases (hmade q).mp hq with hq | rfl
    · have := hi.numbers q hq
      omega
    · omega
  · rcases (hmade q).mp hq with hq | rfl <;> rcases (hmade q').mp hq' with hq' | rfl
    · exact hi.number_inj q hq q' hq' hqq
    · have := hi.numbers q hq
      omega
    · have := hi.numbers q' hq'
      omega
    · rfl
  · rcases hp with ⟨-, -, hperf⟩ | ⟨-, -, hperf, -⟩
    · rw [hperf, List.nodup_append]
      refine ⟨hi.once, List.nodup_singleton r, fun x hx y hy => ?_⟩
      rintro rfl
      rw [List.mem_singleton.mp hy] at hx
      exact hnew ((hi.performed r).mp hx).1
    · rw [hperf]
      exact hi.once
  · have hwait : ∀ q, (∀ u e, s'.pc u ≠ .queued e q) ↔
        (∀ u e, s.pc u ≠ .queued e q) ∧ ∀ e, p ≠ .queued e q := by
      intro q
      constructor
      · intro h
        refine ⟨fun u e hu => ?_, fun e he => h t e (hpt.trans he)⟩
        refine h u e ?_
        rw [hpu u (hnot u e q (Or.inl hu))]
        exact hu
      · rintro ⟨h, hp'⟩ u e hu
        by_cases hut : u = t
        · subst hut
          exact hp' e (hpt.symm.trans hu)
        · rw [hpu u hut] at hu
          exact h u e hu
    rw [hwait, hmade]
    rcases hp with ⟨rfl, -, hperf⟩ | ⟨rfl, -, hperf, -⟩
    · rw [hperf, List.mem_append, List.mem_singleton, hi.performed]
      constructor
      · rintro (⟨h1, h2⟩ | rfl)
        · exact ⟨Or.inl h1, h2, fun e h => by cases h⟩
        · exact ⟨Or.inr rfl, fun u e hu => hnew (hi.fresh u e q (Or.inl hu)), fun e h => by cases h⟩
      · rintro ⟨h1 | rfl, h2, -⟩
        · exact Or.inl ⟨h1, h2⟩
        · exact Or.inr rfl
    · rw [hperf, hi.performed]
      constructor
      · rintro ⟨h1, h2⟩
        refine ⟨Or.inl h1, h2, fun e h => ?_⟩
        cases h
        exact hnew h1
      · rintro ⟨h1 | rfl, h2, h3⟩
        · exact ⟨h1, h2⟩
        · exact absurd rfl (h3 d)

end Request

section Leave

variable {w : Option τ}

/-- The state after `t` has served `r` and task `w` was woken to go on. -/
structure Left (s s' : State τ) (t : τ) (d : ℕ) (r : RequestT τ) (w : Option τ) : Prop where
  self : s'.pc t = .out
  pc : ∀ u, u ≠ t → s'.pc u = s.pc u
  list : ∀ e q, q ∈ s'.list e ↔ q ∈ s.list e ∧ (e = d → q ≠ r)
  nodup : ∀ e, ((s'.list e).map RequestT.nr).Nodup
  made : s'.made = s.made
  performed : s'.performed = s.performed
  magic : s'.magic = s.magic
  woken : ∀ u, w = some u → s'.state u = .ready
  state : ∀ u e q, s.pc u = .queued e q → w ≠ some u → s'.state u = s.state u
  next : ∀ u, w = some u → ∃ q, s.pc u = .queued d q
  last : w = none → s.list d = [r]

theorem Inv.left (hi : Inv s) (hs : s.pc t = .serving d r) (hl : Left s s' t d r w)
    (hcpu : ∀ t, s'.state t = .running ↔ s'.cpu = some t)
    (hlinked : ∀ t, s'.linked t = true ↔ s'.state t = .blocked) : Inv s' := by
  have hr : Holds s t d r := Or.inr hs
  have hnone : ∀ e q, ¬ Holds s' t e q := fun e q h => by simp [Holds, hl.self] at h
  have hwt : w ≠ some t := by
    intro hw
    obtain ⟨q, hq⟩ := hl.next t hw
    rw [hs] at hq
    cases hq
  have hholds : ∀ u e q, Holds s' u e q ↔ u ≠ t ∧ Holds s u e q := by
    intro u e q
    by_cases hu : u = t
    · subst hu
      simp [hnone]
    · unfold Holds
      simp [hl.pc u hu, hu]
  have hact : ∀ u e q, Active s' u e q → (e ≠ d ∧ Active s u e q) ∨ (e = d ∧ w = some u) := by
    intro u e q h
    have hu := ((hholds u e q).mp h.holds).1
    unfold Active at h
    rw [hl.pc u hu] at h
    by_cases hw : w = some u
    · obtain ⟨q', hq'⟩ := hl.next u hw
      obtain ⟨rfl, -⟩ := Holds.unique (Or.inl hq') ((hholds u e q).mp ((by
        unfold Holds
        rw [hl.pc u hu]
        rcases h with h | h
        · exact Or.inr h
        · exact Or.inl h.1) : Holds s' u e q)).2
      exact Or.inr ⟨rfl, hw⟩
    · have ha : Active s u e q := by
        rcases h with h | ⟨h, hready⟩
        · exact Or.inl h
        · exact Or.inr ⟨h, (hl.state u e q h hw).symm.trans hready⟩
      refine Or.inl ⟨?_, ha⟩
      rintro rfl
      exact hu (hi.unique u t e q r ha (Or.inl hs))
  refine ⟨hcpu, hlinked, fun u => by rw [hl.magic]; exact hi.magic u, hl.nodup, fun e q => ?_,
    fun u v e e' q h h' => ?_, fun u e q h => ?_, fun e he => ?_, fun u v e q q' h h' => ?_,
    fun u e q h => ?_, by rw [hl.made]; exact hi.numbers, by rw [hl.made]; exact hi.number_inj, by
    rw [hl.performed]; exact hi.once, fun q => ?_⟩
  · rw [hl.list, hi.member]
    constructor
    · rintro ⟨⟨u, hu⟩, hq⟩
      refine ⟨u, (hholds u e q).mpr ⟨?_, hu⟩⟩
      rintro rfl
      obtain ⟨rfl, rfl⟩ := hu.unique hr
      exact hq rfl rfl
    · rintro ⟨u, hu⟩
      obtain ⟨hut, hu⟩ := (hholds u e q).mp hu
      refine ⟨⟨u, hu⟩, ?_⟩
      rintro rfl rfl
      exact hut (hi.inj u t e e q hu hr)
  · exact hi.inj u v e e' q ((hholds u e q).mp h).2 ((hholds v e' q).mp h').2
  · have hu := ((hholds u e q).mp (Or.inl h)).1
    rw [hl.pc u hu] at h
    obtain ⟨htask, hrun⟩ := hi.waiting u e q h
    refine ⟨htask, ?_⟩
    by_cases hw : w = some u
    · rw [hl.woken u hw]
      decide
    · rw [hl.state u e q h hw]
      exact hrun
  · by_cases hed : e = d
    · subst hed
      cases hw : w with
      | none =>
        obtain ⟨q, hq⟩ := List.exists_mem_of_ne_nil _ he
        obtain ⟨hq, hne⟩ := (hl.list e q).mp hq
        rw [hl.last hw] at hq
        exact absurd (List.mem_singleton.mp hq) (hne rfl)
      | some u =>
        obtain ⟨q, hq⟩ := hl.next u hw
        have hu : u ≠ t := by
          rintro rfl
          exact hwt hw
        exact ⟨u, q, Or.inr ⟨(hl.pc u hu).trans hq, hl.woken u hw⟩⟩
    · obtain ⟨q, hq⟩ := List.exists_mem_of_ne_nil _ he
      have hne : s.list e ≠ [] := List.ne_nil_of_mem ((hl.list e q).mp hq).1
      obtain ⟨u, q', hu⟩ := hi.token e hne
      have hut : u ≠ t := by
        rintro rfl
        exact hed (hu.holds.unique hr).1
      refine ⟨u, q', ?_⟩
      unfold Active
      rw [hl.pc u hut]
      rcases hu with hu | ⟨hu, hready⟩
      · exact Or.inl hu
      · refine Or.inr ⟨hu, ?_⟩
        by_cases hw : w = some u
        · exact hl.woken u hw
        · rw [hl.state u e q' hu hw]
          exact hready
  · rcases hact u e q h with ⟨hne, h⟩ | ⟨he, hw⟩ <;> rcases hact v e q' h' with ⟨hne', h'⟩ | ⟨he', hw'⟩
    · exact hi.unique u v e q q' h h'
    · exact absurd he' hne
    · exact absurd he hne'
    · rw [hw] at hw'
      exact Option.some.inj hw'
  · rw [hl.made]
    exact hi.fresh u e q ((hholds u e q).mp h).2
  · rw [hl.performed, hl.made, hi.performed]
    refine and_congr_right fun _ => ⟨fun h u e hu => ?_, fun h u e hu => ?_⟩
    · have hut := ((hholds u e q).mp (Or.inl hu)).1
      rw [hl.pc u hut] at hu
      exact h u e hu
    · have hut : u ≠ t := by
        rintro rfl
        rw [hs] at hu
        cases hu
      refine h u e ?_
      rw [hl.pc u hut]
      exact hu

variable [DecidableEq τ]

/-- The server's request leaves the list, and where others wait, one of them is
made ready. -/
theorem Inv.endRequest (hi : Inv s) (hs : s.pc t = .serving d r) :
    All Inv (endRequest s t d r) := by
  have hr : r ∈ s.list d := (hi.member d r).mpr ⟨t, Or.inr hs⟩
  obtain ⟨hnone, hsome⟩ := requestNextreq_spec (hi.nodup d) hr
  obtain ⟨next, direct, hnext⟩ : ∃ next direct, requestNextreq (s.devices d) r = (next, direct) :=
    ⟨_, _, rfl⟩
  obtain ⟨s₁, hs₁⟩ : ∃ s₁, (s.setList d (Chain.remove RequestT.nr (s.devices d).requestList r.nr)
    direct).goto t .out = s₁ := ⟨_, rfl⟩
  have hpc : ∀ u, s₁.pc u = if u = t then .out else s.pc u := fun u => hs₁ ▸ pc_goto _ t u .out
  have hl : ∀ e, s₁.list e = if e = d then Chain.remove RequestT.nr (s.list d) r.nr else s.list e :=
    fun e => hs₁ ▸ list_setList s d e _ direct
  have hlist : ∀ e q, q ∈ s₁.list e ↔ q ∈ s.list e ∧ (e = d → q ≠ r) := by
    intro e q
    rw [hl]
    split_ifs with he
    · subst he
      rw [Chain.mem_remove]
      refine and_congr_right fun hq => ⟨fun h _ he => h (he ▸ rfl), fun h hn => h rfl ?_⟩
      obtain ⟨u, hu⟩ := (hi.member e q).mp hq
      exact (hi.eq_of_nr hu (Or.inr hs) hn).1
    · simp [he]
  have hnodup : ∀ e, ((s₁.list e).map RequestT.nr).Nodup := by
    intro e
    rw [hl]
    split_ifs
    · exact (List.filter_sublist.map RequestT.nr).nodup (hi.nodup d)
    · exact hi.nodup e
  have hself : s₁.pc t = .out := by rw [hpc, if_pos rfl]
  have hother : ∀ u, u ≠ t → s₁.pc u = s.pc u := fun u hu => by rw [hpc, if_neg hu]
  unfold Device.endRequest
  dsimp only
  rw [hnext] at hnone hsome ⊢
  dsimp only at hnone hsome ⊢
  rw [hs₁]
  cases next with
  | none =>
    refine hi.left (w := none) hs ⟨hself, hother, hlist, hnodup, by rw [← hs₁]; rfl,
      by rw [← hs₁]; rfl, by rw [← hs₁]; rfl, nofun, fun _ _ _ _ _ => by rw [← hs₁]; rfl, nofun,
      fun _ => hnone.mp rfl⟩ ?_ ?_
    · rw [← hs₁]
      exact hi.cpu
    · rw [← hs₁]
      exact hi.linked
  | some q =>
    obtain ⟨hq, hne⟩ := hsome q rfl
    obtain ⟨u, hut, hu, htask, hst⟩ := hi.others_blocked (Or.inl hs) hq hne
    have hlinked : s₁.linked u = true := by
      rw [← hs₁]
      exact (hi.linked u).mpr hst
    have hmagic : s₁.magic u = ONIX_MAGIC := by
      rw [← hs₁]
      exact hi.magic u
    have hstate : s₁.state = s.state := by rw [← hs₁]; rfl
    dsimp only
    rw [htask]
    dsimp only
    refine all_assert (by rw [hmagic]; rfl) (all_assert hlinked ?_)
    refine hi.left (w := some u) hs ⟨hself, hother, hlist, hnodup, by rw [← hs₁]; rfl,
      by rw [← hs₁]; rfl, by rw [← hs₁]; rfl, fun v hv => ?_, fun v e q' _ hv => ?_,
      fun v hv => ?_, nofun⟩ (fun v => ?_) fun v => ?_
    · obtain rfl := Option.some.inj hv
      exact update_self _ _ _
    · have hvu : v ≠ u := fun h => hv (congrArg some h.symm)
      dsimp only
      rw [update_of_ne hvu, hstate]
    · obtain rfl := Option.some.inj hv
      exact ⟨q, hu⟩
    · have hcpu : s₁.cpu = s.cpu := by rw [← hs₁]; rfl
      dsimp only
      rw [hcpu, hstate]
      by_cases hvu : v = u
      · subst hvu
        rw [update_self, ← hi.cpu, hst]
        simp
      · rw [update_of_ne hvu]
        exact hi.cpu v
    · have hlink : s₁.linked = s.linked := by rw [← hs₁]; rfl
      dsimp only
      rw [hlink, hstate]
      by_cases hvu : v = u
      · subst hvu
        simp
      · rw [update_of_ne hvu, update_of_ne hvu]
        exact hi.linked v

/-- A woken task goes on to serve its request. -/
theorem Inv.serve (hi : Inv s) (hq : s.pc t = .queued d r) (hready : s.state t = .ready)
    (hcpu : s.cpu = none) :
    Inv (enterRequest { s with state := update s.state t .running, cpu := some t } t d r) := by
  obtain ⟨s', hs'⟩ : ∃ s', enterRequest
    { s with state := update s.state t .running, cpu := some t } t d r = s' := ⟨_, rfl⟩
  have hpt : s'.pc t = .serving d r := by
    rw [← hs']
    exact update_self _ _ _
  have hpu : ∀ u, u ≠ t → s'.pc u = s.pc u := fun u hu => by
    rw [← hs']
    exact update_of_ne hu _ _
  have hsu : ∀ u, u ≠ t → s'.state u = s.state u := fun u hu => by
    rw [← hs']
    exact update_of_ne hu _ _
  have hlist : ∀ e, s'.list e = s.list e := fun e => by
    rw [← hs']
    rfl
  have hmade : s'.made = s.made := by rw [← hs']; rfl
  have hperf : s'.performed = s.performed ++ [r] := by rw [← hs']; rfl
  have hself : ∀ e q, Holds s t e q ↔ e = d ∧ q = r := by
    intro e q
    unfold Holds
    rw [hq]
    simp [eq_comm]
  have hholds : ∀ u e q, Holds s' u e q ↔ Holds s u e q := by
    intro u e q
    by_cases hu : u = t
    · subst hu
      rw [hself]
      unfold Holds
      rw [hpt]
      simp [eq_comm]
    · unfold Holds
      rw [hpu u hu]
  have hact : ∀ u e q, Active s' u e q ↔ Active s u e q := by
    intro u e q
    by_cases hu : u = t
    · subst hu
      unfold Active
      rw [hpt, hq, hready]
      simp
    · unfold Active
      rw [hpu u hu, hsu u hu]
  rw [hs']
  refine ⟨fun u => ?_, fun u => ?_, fun u => ?_, fun e => by rw [hlist]; exact hi.nodup e,
    fun e q => ?_, fun u v e e' q h h' => ?_, fun u e q h => ?_, fun e he => ?_,
    fun u v e q q' h h' => ?_, fun u e q h => ?_, by rw [hmade]; exact hi.numbers, by
    rw [hmade]; exact hi.number_inj, ?_, fun q => ?_⟩
  · have hc : s'.cpu = some t := by rw [← hs']; rfl
    rw [hc]
    by_cases hu : u = t
    · subst hu
      have : s'.state u = .running := by
        rw [← hs']
        exact update_self _ _ _
      simp [this]
    · rw [hsu u hu, hi.cpu, hcpu]
      simp [Ne.symm hu]
  · have hlink : s'.linked = s.linked := by rw [← hs']; rfl
    rw [hlink, hi.linked]
    by_cases hu : u = t
    · subst hu
      have : s'.state u = .running := by
        rw [← hs']
        exact update_self _ _ _
      simp [this, hready]
    · rw [hsu u hu]
  · rw [← hs']
    exact hi.magic u
  · simp only [hlist, hholds]
    exact hi.member e q
  · exact hi.inj u v e e' q ((hholds u e q).mp h) ((hholds v e' q).mp h')
  · have hu : u ≠ t := by
      rintro rfl
      rw [hpt] at h
      cases h
    rw [hpu u hu] at h
    rw [hsu u hu]
    exact hi.waiting u e q h
  · obtain ⟨u, q, hu⟩ := hi.token e (hlist e ▸ he)
    exact ⟨u, q, (hact u e q).mpr hu⟩
  · exact hi.unique u v e q q' ((hact u e q).mp h) ((hact v e q').mp h')
  · rw [hmade]
    exact hi.fresh u e q ((hholds u e q).mp h)
  · rw [hperf, List.nodup_append]
    refine ⟨hi.once, List.nodup_singleton r, fun x hx y hy => ?_⟩
    rintro rfl
    rw [List.mem_singleton.mp hy] at hx
    exact ((hi.performed r).mp hx).2 t d hq
  · rw [hperf, hmade, List.mem_append, List.mem_singleton, hi.performed]
    constructor
    · rintro (⟨hmem, h⟩ | rfl)
      · refine ⟨hmem, fun u e hu => ?_⟩
        have hut : u ≠ t := by
          rintro rfl
          rw [hpt] at hu
          cases hu
        exact h u e (hpu u hut ▸ hu)
      · refine ⟨hi.fresh t d q (Or.inl hq), fun u e hu => ?_⟩
        obtain rfl := hi.inj u t e d q ((hholds u e q).mp (Or.inl hu)) (Or.inl hq)
        rw [hpt] at hu
        cases hu
    · rintro ⟨hmem, h⟩
      by_cases hqr : q = r
      · exact Or.inr hqr
      · refine Or.inl ⟨hmem, fun u e hu => ?_⟩
        have hut : u ≠ t := by
          rintro rfl
          exact hqr ((hself e q).mp (Or.inl hu)).2
        exact h u e ((hpu u hut).trans hu)

end Leave

end Onix.Device
