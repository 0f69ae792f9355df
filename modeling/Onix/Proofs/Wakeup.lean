import Onix.Proofs.Sched

/-! When `task_wakeup` wakes a sleeper: the tick at which it was due, counted without a
bound, against the 32-bit deadline that the code compares. -/

namespace Onix.Sched

open Function Outcome Onix.Task

variable {s s' s₀ s₁ : State} {k k' : Kernel} {i j n : ℕ} {t t' u : TaskT} {as : List Act}

section Clocked

/-- The ticks that `task_sleep(ms)` asks for. -/
def requested (ms : ℕ) : ℕ := if ms / JIFFY > 0 then ms / JIFFY else 1

/-- A state with the ticks since the counter was 0, never wrapped, and the tick at which each
sleeper is due. -/
structure Clocked where
  s : State
  now : ℕ
  wake : ℕ → ℕ

def Clocked.start (s : State) : Clocked := ⟨s, s.jiffies, fun _ => 0⟩

def nowAfter (a : Act) (now : ℕ) : ℕ :=
  match a with
  | .clock => now + 1
  | _ => now

def wakeAfter (x : Clocked) (a : Act) : ℕ → ℕ :=
  match a, process x.s with
  | .sleep ms, some (i, _) => update x.wake i (x.now + requested ms)
  | _, _ => x.wake

/-- An action, with its effect on what the code does not keep. -/
def Clocked.exec (x : Clocked) (a : Act) : Outcome Clocked :=
  (Sched.exec x.s a).andThen fun s => .next ⟨s, nowAfter a x.now, wakeAfter x a⟩

/-- `task_wakeup` makes ready exactly the sleepers whose ticks have passed. -/
def Exact (x : Clocked) : Prop :=
  ∃ s', taskWakeup x.s = .next s' ∧ ∀ i t, x.s.k.table i = some t → ∃ t', s'.k.table i = some t' ∧
    t'.state = if t.state = .sleeping ∧ x.wake i ≤ x.now then .ready else t.state

/-- At a `task_sleep` the deadline does not wrap, and no sleeper's deadline is on the other
side of `2 ^ 31`. -/
def Timely (x : Clocked) : Act → Prop
  | .sleep ms => x.s.jiffies + requested ms < 2 ^ 32 ∧ ∀ i ∈ x.s.k.lists .sleepList,
      (u32 (ticksOf x.s.k i) < 2 ^ 31 ↔ x.s.jiffies + requested ms < 2 ^ 31)
  | _ => True

instance (x : Clocked) : (a : Act) → Decidable (Timely x a)
  | .sleep ms => inferInstanceAs (Decidable (x.s.jiffies + requested ms < 2 ^ 32 ∧
      ∀ i ∈ x.s.k.lists .sleepList,
        (u32 (ticksOf x.s.k i) < 2 ^ 31 ↔ x.s.jiffies + requested ms < 2 ^ 31)))
  | .yield | .clock | .block .. | .unblock _ | .wakeup | .fork | .exit _ | .waitpid _ | .resume =>
    .isTrue trivial

/-- The deadlines on the sleep list: none has passed, none is in another round of the counter
or on another side of `2 ^ 31`, and they are in order. -/
structure Queued (x : Clocked) : Prop where
  inv : Inv x.s
  jiffies : x.s.jiffies = x.now % 2 ^ 32
  ticks : ∀ i ∈ x.s.k.lists .sleepList, ticksOf x.s.k i = int32 (x.wake i)
  ahead : ∀ i ∈ x.s.k.lists .sleepList, x.now ≤ x.wake i ∧ x.wake i / 2 ^ 32 = x.now / 2 ^ 32
  side : ∀ i ∈ x.s.k.lists .sleepList, ∀ j ∈ x.s.k.lists .sleepList,
    (x.wake i % 2 ^ 32 < 2 ^ 31 ↔ x.wake j % 2 ^ 32 < 2 ^ 31)
  sorted : (x.s.k.lists .sleepList).Pairwise fun i j => x.wake i ≤ x.wake j

end Clocked

section Words

theorem u32_int32 (n : ℕ) : u32 (int32 n) = n % 2 ^ 32 := by
  unfold u32 int32 Int.bmod
  dsimp only
  push_cast
  split_ifs <;> omega

/-- On one side of `2 ^ 31` and in one round the signed order is the order in time. -/
theorem int32_le {a b : ℕ} (hround : a / 2 ^ 32 = b / 2 ^ 32)
    (hside : a % 2 ^ 32 < 2 ^ 31 ↔ b % 2 ^ 32 < 2 ^ 31) : int32 a ≤ int32 b ↔ a ≤ b := by
  unfold int32 Int.bmod
  dsimp only
  push_cast
  split_ifs <;> omega

end Words

section SleepList

/-- The sleep list and the deadlines on it stay. -/
structure SameSleep (k k' : Kernel) : Prop where
  list : k'.lists .sleepList = k.lists .sleepList
  ticks : ∀ i ∈ k.lists .sleepList, ticksOf k' i = ticksOf k i

theorem SameSleep.refl (k : Kernel) : SameSleep k k := ⟨rfl, fun _ _ => rfl⟩

theorem SameSleep.trans {k₁ : Kernel} (h : SameSleep k k₁) (h' : SameSleep k₁ k') : SameSleep k k' :=
  ⟨h'.list.trans h.list, fun i hi => (h'.ticks i (by rwa [h.list])).trans (h.ticks i hi)⟩

theorem ticksOf_eq (h : k.table i = some t) : ticksOf k i = t.ticks := by
  unfold ticksOf
  rw [h]

theorem ticksOf_congr (h : k'.table i = k.table i) : ticksOf k' i = ticksOf k i := by
  unfold ticksOf
  rw [h]

/-- A task that is not asleep changes. -/
theorem sameSleep_update {o : Option TaskT} (htable : k'.table = update k.table i o)
    (hi : i ∉ k.lists .sleepList) (hlist : k'.lists .sleepList = k.lists .sleepList) :
    SameSleep k k' := by
  refine ⟨hlist, fun j hj => ticksOf_congr ?_⟩
  rw [htable, update_of_ne]
  intro he
  rw [he] at hj
  exact hi hj

theorem Lists.awake (hl : Lists k) (hi : k.table i = some t) (hs : t.state ≠ .sleeping) :
    i ∉ k.lists .sleepList := (hl.asleep hi).not.mpr hs

/-- `schedule` gives no sleeper another deadline, unless its caller sleeps until tick 0. -/
theorem schedule_same (hs : Sound s) (hc : s.k.cpu = some i ∨ s.k.cpu = none)
    (hi : i ∈ s.k.lists .sleepList → ticksOf s.k i ≠ 0) (h : schedule s i = .next s') :
    SameSleep s.k s'.k ∧ s'.jiffies = s.jiffies := by
  obtain ⟨n, v, k', -, -, -, hk', -, hlists, htable⟩ := schedule_next hs hc
  obtain rfl := Outcome.next.inj (hk'.symm.trans h)
  refine ⟨⟨by rw [hlists], fun j hj => ?_⟩, rfl⟩
  unfold ticksOf
  dsimp only
  rw [htable]
  cases hu : s.k.table j with
  | none => rfl
  | some u =>
    dsimp only [Option.map_some]
    rw [(switched_fields i n j u).2.2.2.2.2, if_neg]
    intro h
    obtain ⟨rfl, h0⟩ := h
    exact hi hj ((ticksOf_eq hu).trans h0)

/-- A task that is not asleep calls `schedule` after what has left the sleepers alone. -/
theorem same_schedule (hs : Sound s') (hc : s'.k.cpu = some i ∨ s'.k.cpu = none)
    (h : SameSleep s.k s'.k) (hj : s'.jiffies = s.jiffies) (hi : i ∉ s.k.lists .sleepList)
    (he : schedule s' i = .next s₁) : SameSleep s.k s₁.k ∧ s₁.jiffies = s.jiffies := by
  rw [← h.list] at hi
  obtain ⟨h₁, hj₁⟩ := schedule_same hs hc (fun hmem => absurd hmem hi) he
  exact ⟨h.trans h₁, hj₁.trans hj⟩

theorem taskUnblock_same (h : taskUnblock k i t = .next k') (hi : i ∉ k.lists .sleepList) :
    SameSleep k k' := by
  obtain ⟨htable, -⟩ := taskUnblock_spec h
  obtain ⟨-, h⟩ := assert_eq_next.mp h
  obtain rfl := Outcome.next.inj h
  exact sameSleep_update htable hi (List.erase_of_not_mem hi)

theorem taskBlock_same {blist : ListId} {state : TaskState}
    (h : taskBlock k i t blist state = .next k') (hb : blist ≠ .sleepList)
    (hi : i ∉ k.lists .sleepList) : SameSleep k k' := by
  obtain ⟨htable, -⟩ := taskBlock_spec h
  obtain ⟨-, h⟩ := assert_eq_next.mp h
  obtain ⟨-, h⟩ := assert_eq_next.mp h
  obtain ⟨-, h⟩ := assert_eq_next.mp h
  obtain rfl := Outcome.next.inj h
  apply sameSleep_update htable hi
  split_ifs <;> exact update_of_ne hb.symm _ _

theorem taskExit_same (ht : Tree k) (hl : Lists k) (hi : k.table i = some t) {status : ℤ}
    (h : taskExit k i t status = .next k') : SameSleep k k' := by
  obtain ⟨hrun, -, htable⟩ := taskExit_spec ht hi h
  have table₁ := table_buried status ht hi
  refine ⟨?_, fun j hj => ?_⟩
  · unfold taskExit at h
    obtain ⟨-, h⟩ := assert_eq_next.mp h
    dsimp only at h
    have lists₁ : (reparent (k.setTask i { t with state := .died, status := status })
      t.pid t.ppid).lists = k.lists := rfl
    generalize reparent (k.setTask i { t with state := .died, status := status }) t.pid t.ppid = k₁
      at table₁ lists₁ h
    cases hp : k₁.table t.ppid with
    | none => simp [hp] at h
    | some parent =>
      rw [hp] at h
      dsimp only at h
      split_ifs at h with hw
      · have hawake : t.ppid ∉ k.lists .sleepList := by
          rw [table₁] at hp
          obtain ⟨p, hp', rfl⟩ := Option.map_eq_some_iff.mp hp
          apply hl.awake hp'
          intro hsleep
          have hwait := hw.1
          unfold buried at hwait
          dsimp only at hwait
          split_ifs at hwait <;> simp_all
        rw [← lists₁] at hawake
        obtain ⟨-, h⟩ := assert_eq_next.mp h
        obtain rfl := Outcome.next.inj h
        exact (List.erase_of_not_mem hawake).trans (by rw [lists₁])
      · obtain rfl := Outcome.next.inj h
        rw [lists₁]
  · unfold ticksOf
    rw [htable]
    cases hu : k.table j with
    | none => rfl
    | some u =>
      dsimp only [Option.map_some]
      unfold exitEffect buried
      dsimp only
      split_ifs <;> rfl

theorem taskWaitpid_list {pid : ℤ} {r : WaitResult} (hi : i ∉ k.lists .sleepList)
    (h : taskWaitpid k i t pid = .next (k', r)) :
    k'.lists .sleepList = k.lists .sleepList := by
  unfold taskWaitpid at h
  generalize waitScan k t.pid pid (List.range' 2 (NR_TASKS - 2)) false = w at h
  obtain ⟨found, b⟩ := w
  cases found with
  | some jc =>
    obtain ⟨rfl, -⟩ := Prod.mk.inj (Outcome.next.inj h)
    rfl
  | none =>
    cases b with
    | false =>
      obtain ⟨rfl, -⟩ := Prod.mk.inj (Outcome.next.inj h)
      rfl
    | true =>
      dsimp only at h
      cases hk : taskBlock (k.setTask i { t with waitpid := pid }) i { t with waitpid := pid }
          .blockList .waiting with
      | refused => simp [hk] at h
      | failed => simp [hk] at h
      | next k₁ =>
        rw [hk] at h
        obtain ⟨rfl, -⟩ := Prod.mk.inj (Outcome.next.inj h)
        exact (taskBlock_same hk nofun hi).list

theorem taskWaitpid_same (hl : Lists k) (hi : k.table i = some t) (hrun : t.state = .running)
    {pid : ℤ} {r : WaitResult} (h : taskWaitpid k i t pid = .next (k', r)) : SameSleep k k' := by
  have hi' : i ∉ k.lists .sleepList := hl.awake hi (by simp [hrun])
  have hlist := taskWaitpid_list hi' h
  obtain ⟨j, c, -, -, hc, -, hd, rfl⟩ | ⟨-, rfl⟩ | ⟨-, -, htable, -⟩ := taskWaitpid_spec h
  · exact sameSleep_update rfl (hl.awake hc (by simp [hd])) hlist
  · exact SameSleep.refl k'
  · exact sameSleep_update htable hi' hlist

theorem fork_same (hl : Lists k) (h : taskFork k t = .next (k', j)) : SameSleep k k' := by
  obtain ⟨-, -, hnone, rfl⟩ := taskFork_spec h
  have hj : j ∉ k.lists .sleepList := by
    intro hmem
    obtain ⟨u, hu, -⟩ := hl.mem .sleepList j hmem
    rw [hnone] at hu
    cases hu
  exact sameSleep_update rfl hj rfl

end SleepList

section Wake

/-- What `task_wakeup` makes of a sleeper that is due. -/
def woken (t : TaskT) : TaskT := { t with ticks := 0, node := false, state := .ready }

variable {now : ℕ} {wake : ℕ → ℕ}

/-- The loop of `task_wakeup` on sleepers in the order in which they are due. -/
theorem wakeLoop_due (jiffies : ℕ) (is : List ℕ) (hnd : is.Nodup) (hk : (k.lists .sleepList).Nodup)
    (his : ∀ i ∈ is, ∃ t, k.table i = some t ∧ t.node = true ∧
      (u32 t.ticks > jiffies ↔ now < wake i))
    (hsort : is.Pairwise fun i j => wake i ≤ wake j) :
    ∃ k', wakeLoop jiffies is k = .next k' ∧
      (∀ j, k'.table j = if j ∈ is ∧ wake j ≤ now then (k.table j).map woken else k.table j) ∧
      (k'.lists .sleepList).Sublist (k.lists .sleepList) ∧
      ∀ j ∈ k'.lists .sleepList, ¬ (j ∈ is ∧ wake j ≤ now) := by
  induction is generalizing k with
  | nil => exact ⟨k, rfl, fun j => by simp, List.Sublist.refl _, fun j _ => by simp⟩
  | cons i is ih =>
    obtain ⟨hi, hnd⟩ := List.nodup_cons.mp hnd
    obtain ⟨hfirst, hsort⟩ := List.pairwise_cons.mp hsort
    obtain ⟨t, ht, hnode, hdue⟩ := his i List.mem_cons_self
    unfold wakeLoop
    rw [ht]
    dsimp only
    obtain hlt | hle := Nat.lt_or_ge now (wake i)
    · -- nobody behind the first is due before it
      have hnone : ∀ j, ¬ (j ∈ i :: is ∧ wake j ≤ now) := by
        intro j h
        obtain ⟨hj, hw⟩ := h
        obtain rfl | hj := List.mem_cons.mp hj
        · omega
        · have := hfirst j hj
          omega
      rw [if_pos (hdue.mpr hlt)]
      exact ⟨k, rfl, fun j => by rw [if_neg (hnone j)], List.Sublist.refl _, fun j _ => hnone j⟩
    · rw [if_neg (fun h => absurd (hdue.mp h) (by omega))]
      let k₁ : Kernel := { k with
        lists := fun l => (k.lists l).erase i
        table := update k.table i (some (woken t)) }
      have hk₁ : taskUnblock k i { t with ticks := 0 } = .next k₁ := if_pos hnode
      have hother : ∀ j, j ≠ i → k₁.table j = k.table j := fun j hj => update_of_ne hj _ _
      obtain ⟨k', hk', htable, hsub, hmem⟩ : ∃ k', wakeLoop jiffies is k₁ = .next k' ∧
          (∀ j, k'.table j =
            if j ∈ is ∧ wake j ≤ now then (k₁.table j).map woken else k₁.table j) ∧
          (k'.lists .sleepList).Sublist (k₁.lists .sleepList) ∧
          ∀ j ∈ k'.lists .sleepList, ¬ (j ∈ is ∧ wake j ≤ now) := by
        apply ih hnd (hk.erase i) _ hsort
        intro j hj
        obtain ⟨u, hu, h⟩ := his j (List.mem_cons_of_mem i hj)
        refine ⟨u, (hother j ?_).trans hu, h⟩
        rintro rfl
        exact hi hj
      have hsub' : (k₁.lists .sleepList).Sublist (k.lists .sleepList) := List.erase_sublist
      refine ⟨k', by rw [hk₁]; exact hk', fun j => ?_, hsub.trans hsub', fun j hj => ?_⟩
      · rw [htable]
        obtain rfl | hj := eq_or_ne j i
        · rw [if_neg (fun h => hi h.1), if_pos ⟨List.mem_cons_self, hle⟩, ht]
          exact update_self ..
        · rw [hother j hj]
          simp only [List.mem_cons, hj, false_or]
      · intro h
        obtain ⟨hj', hw⟩ := h
        obtain rfl | hj' := List.mem_cons.mp hj'
        · exact hk.not_mem_erase (hsub.subset hj)
        · exact hmem j hj ⟨hj', hw⟩

/-- The code's test of a deadline that is in the round of the counter is the test of the time. -/
theorem Queued.due {x : Clocked} (hq : Queued x) (hi : i ∈ x.s.k.lists .sleepList)
    (ht : x.s.k.table i = some t) : u32 t.ticks > x.s.jiffies ↔ x.now < x.wake i := by
  obtain ⟨hle, hround⟩ := hq.ahead i hi
  have hticks := (ticksOf_eq ht).symm.trans (hq.ticks i hi)
  rw [hticks, u32_int32, hq.jiffies]
  omega

/-- A run of `task_wakeup`: it is exact, and whoever still sleeps is due later. -/
theorem Queued.wakeup {x : Clocked} (hq : Queued x) :
    ∃ s', taskWakeup x.s = .next s' ∧ Queued ⟨s', x.now, x.wake⟩ ∧
      (∀ i ∈ s'.k.lists .sleepList, x.now < x.wake i) ∧
      s'.jiffies = x.s.jiffies ∧ s'.k.cpu = x.s.k.cpu ∧ Exact x := by
  have hl := hq.inv.lists
  have his : ∀ i ∈ x.s.k.lists .sleepList, ∃ t, x.s.k.table i = some t ∧ t.node = true ∧
      (u32 t.ticks > x.s.jiffies ↔ x.now < x.wake i) := by
    intro i hi
    obtain ⟨t, ht, hlink, -⟩ := hl.mem .sleepList i hi
    exact ⟨t, ht, (hl.node i t ht).mpr hlink, hq.due hi ht⟩
  obtain ⟨k', hk', htable, hsub, hmem⟩ :=
    wakeLoop_due x.s.jiffies _ (hl.nodup .sleepList) (hl.nodup .sleepList) his hq.sorted
  have hs' : taskWakeup x.s = .next { x.s with k := k' } := by
    unfold taskWakeup
    rw [hk']
    rfl
  obtain ⟨hinv, hcpu, -⟩ := (taskWakeup_inv hq.inv).of_next hs'
  have hlater : ∀ i ∈ k'.lists .sleepList, x.now < x.wake i := by
    intro i hi
    by_contra hle
    exact hmem i hi ⟨hsub.subset hi, by omega⟩
  have hsame : ∀ i ∈ k'.lists .sleepList, k'.table i = x.s.k.table i := by
    intro i hi
    rw [htable, if_neg (hmem i hi)]
  refine ⟨_, hs', ⟨hinv, hq.jiffies, fun i hi => ?_, fun i hi => hq.ahead i (hsub.subset hi),
    fun i hi j hj => hq.side i (hsub.subset hi) j (hsub.subset hj), hq.sorted.sublist hsub⟩,
    hlater, rfl, hcpu, _, hs', fun i t ht => ?_⟩
  · exact (ticksOf_congr (hsame i hi)).trans (hq.ticks i (hsub.subset hi))
  · dsimp only
    rw [htable, ht]
    simp only [hl.asleep ht]
    split_ifs
    · exact ⟨_, rfl, rfl⟩
    · exact ⟨t, rfl, rfl⟩

end Wake

section Actions

variable {x y : Clocked}

/-- An action that is not about sleep. -/
theorem Queued.same (hq : Queued x) (hinv : Inv s') (h : SameSleep x.s.k s'.k)
    (hj : s'.jiffies = x.s.jiffies) : Queued ⟨s', x.now, x.wake⟩ := by
  refine ⟨hinv, hj.trans hq.jiffies, fun i hi => ?_, ?_, ?_, ?_⟩
  · dsimp only at hi
    rw [h.list] at hi
    exact (h.ticks i hi).trans (hq.ticks i hi)
  · dsimp only
    rw [h.list]
    exact hq.ahead
  · dsimp only
    rw [h.list]
    exact hq.side
  · dsimp only
    rw [h.list]
    exact hq.sorted

/-- The counter goes on, maybe into its next round: then nobody sleeps. -/
theorem Queued.tick (hq : Queued x) (hlater : ∀ i ∈ x.s.k.lists .sleepList, x.now < x.wake i)
    (hinv : Inv s') (h : SameSleep x.s.k s'.k) (hj : s'.jiffies = (x.s.jiffies + 1) % 2 ^ 32) :
    Queued ⟨s', x.now + 1, x.wake⟩ := by
  have hjiffies := hq.jiffies
  refine ⟨hinv, ?_, fun i hi => ?_, fun i hi => ?_, ?_, ?_⟩
  · dsimp only
    rw [hj, hjiffies]
    omega
  · dsimp only at hi
    rw [h.list] at hi
    exact (h.ticks i hi).trans (hq.ticks i hi)
  · dsimp only at hi ⊢
    rw [h.list] at hi
    have := hlater i hi
    have := hq.ahead i hi
    omega
  · dsimp only
    rw [h.list]
    exact hq.side
  · dsimp only
    rw [h.list]
    exact hq.sorted

theorem modTask_same (f : TaskT → TaskT) (hi : i ∉ k.lists .sleepList) :
    SameSleep k (modTask k i f) := by
  refine ⟨by rw [modTask_lists], fun j hj => ticksOf_congr ?_⟩
  rw [modTask_table, if_neg]
  rintro rfl
  exact hi hj

theorem Inv.awake (hs : Inv s) (hc : s.k.cpu = some i) : i ∉ s.k.lists .sleepList := by
  obtain ⟨m, t, hm, ht⟩ := hs.running
  obtain rfl : m = i := Option.some.inj (hm.symm.trans hc)
  have hrun := (hs.tree.cpu m t ht).mpr hc
  exact hs.lists.awake ht (by simp [hrun])

theorem clockTick_same (hs : Inv s) (hc : s.k.cpu = some i) (h : clockTick s i = .next s') :
    SameSleep s.k s'.k ∧ s'.jiffies = s.jiffies := by
  have hi := hs.awake hc
  have hinv : Inv { s with
      k := modTask s.k i fun t => { t with ticks := int32 (t.ticks - 1) }, held := s.held + 1 } :=
    modTask_inv hs (fun u => { u with ticks := int32 (u.ticks - 1) })
      (fun u => ⟨rfl, rfl, rfl, rfl⟩) _ _
  have hsame : SameSleep s.k (modTask s.k i fun t => { t with ticks := int32 (t.ticks - 1) }) :=
    modTask_same _ hi
  unfold clockTick at h
  dsimp only at h
  split_ifs at h
  · exact same_schedule hinv.toSound (.inl ((modTask_cpu ..).trans hc)) hsame rfl hi h
  · obtain rfl := Outcome.next.inj h
    exact ⟨hsame, rfl⟩

theorem Queued.clock (hq : Queued x) (hc : x.s.k.cpu = some i)
    (h : ((clockEntry x.s i).andThen fun s => clockTick s i) = .next s') :
    Queued ⟨s', x.now + 1, x.wake⟩ := by
  obtain ⟨s₁, hwake, hq₁, hlater, hj₁, hc₁, -⟩ := hq.wakeup
  obtain ⟨s₂, h₂, h⟩ := andThen_eq_next.mp h
  obtain ⟨hinv₂, hc₂⟩ := (clockEntry_inv hq.inv hc).of_next h₂
  have hinv := (clockTick_inv hinv₂ hc₂).of_next h
  obtain ⟨hsame, hj⟩ := clockTick_same hinv₂ hc₂ h
  unfold clockEntry at h₂
  rw [hwake] at h₂
  obtain ⟨-, h₂⟩ := assert_eq_next.mp h₂
  obtain rfl := Outcome.next.inj h₂
  have hentry := modTask_same (fun t => { t with jiffies := (s₁.jiffies + 1) % 2 ^ 32 })
    (hq₁.inv.awake (hc₁.trans hc))
  exact hq₁.tick hlater hinv (hentry.trans hsame) hj

theorem insertSort_sorted (key : ℕ → ℤ) (i : ℕ) (l : List ℕ)
    (h : l.Pairwise fun i j => key i ≤ key j) :
    (insertSort key i l).Pairwise fun i j => key i ≤ key j := by
  induction l with
  | nil => exact List.pairwise_singleton _ _
  | cons j l ih =>
    obtain ⟨hj, hl⟩ := List.pairwise_cons.mp h
    unfold insertSort
    split_ifs with hlt
    · refine List.pairwise_cons.mpr ⟨fun m hm => ?_, h⟩
      obtain rfl | hm := List.mem_cons.mp hm
      · omega
      · have := hj m hm
        omega
    · refine List.pairwise_cons.mpr ⟨fun m hm => ?_, ih hl⟩
      obtain rfl | hm := List.mem_cons.mp ((insertSort_perm key i l).mem_iff.mp hm)
      · omega
      · exact hj m hm

/-- `task_sleep` with a deadline in the round of the counter, on the side of the others. -/
theorem Queued.sleep (hq : Queued x) (hp : process x.s = some (i, t)) {ms : ℕ}
    (htime : Timely x (.sleep ms)) (h : taskSleep x.s i t ms = .next s') :
    Queued ⟨s', x.now, update x.wake i (x.now + requested ms)⟩ := by
  obtain ⟨hwrap, hside⟩ := htime
  obtain ⟨hc, -, hi⟩ := process_eq hp
  have hawake := hq.inv.awake hc
  have hjiffies := hq.jiffies
  have hpos : 1 ≤ requested ms := by
    unfold requested
    split_ifs <;> omega
  obtain ⟨k', ticks, heq, hs', hc', htable, hticks, hlist⟩ := taskSleep_eq hq.inv hp ms
  change ticks = int32 ((x.s.jiffies : ℤ) + (requested ms : ℕ)) at hticks
  have hself : ticksOf k' i = int32 (x.now + requested ms : ℕ) := by
    unfold ticksOf
    rw [htable, update_self, hticks, hjiffies]
    unfold int32 Int.bmod
    dsimp only
    push_cast
    split_ifs <;> omega
  have hnonzero : ticksOf k' i ≠ 0 := by
    rw [hself]
    unfold int32 Int.bmod
    dsimp only
    push_cast
    split_ifs <;> omega
  have hother : ∀ j, j ≠ i → ticksOf k' j = ticksOf x.s.k j := fun j hj =>
    ticksOf_congr (by rw [htable, update_of_ne hj])
  have hmem : ∀ j ∈ k'.lists .sleepList, j = i ∨ j ≠ i ∧ j ∈ x.s.k.lists .sleepList := by
    intro j hj
    rw [hlist, (insertSort_perm _ i _).mem_iff] at hj
    obtain rfl | hin := List.mem_cons.mp hj
    · exact .inl rfl
    · refine .inr ⟨?_, hin⟩
      rintro rfl
      exact hawake hin
  have hsleeper : ∀ j ∈ k'.lists .sleepList,
      ticksOf k' j = int32 (update x.wake i (x.now + requested ms) j) ∧
      (x.now ≤ update x.wake i (x.now + requested ms) j ∧
        update x.wake i (x.now + requested ms) j / 2 ^ 32 = x.now / 2 ^ 32) ∧
      (update x.wake i (x.now + requested ms) j % 2 ^ 32 < 2 ^ 31 ↔
        x.s.jiffies + requested ms < 2 ^ 31) := by
    intro j hj
    obtain rfl | ⟨hne, hj⟩ := hmem j hj
    · rw [update_self]
      exact ⟨hself, by omega, by omega⟩
    · rw [update_of_ne hne, hother j hne, ← hside j hj, hq.ticks j hj, u32_int32]
      exact ⟨rfl, hq.ahead j hj, Iff.rfl⟩
  have horder : ∀ {j m}, j ∈ k'.lists .sleepList → m ∈ k'.lists .sleepList →
      (ticksOf k' j ≤ ticksOf k' m ↔ update x.wake i (x.now + requested ms) j ≤
        update x.wake i (x.now + requested ms) m) := by
    intro j m hj hm
    obtain ⟨h₁, h₂, h₃⟩ := hsleeper j hj
    obtain ⟨h₄, h₅, h₆⟩ := hsleeper m hm
    rw [h₁, h₄]
    exact int32_le (h₂.2.trans h₅.2.symm) (h₃.trans h₆.symm)
  have hold : (x.s.k.lists .sleepList).Pairwise fun j m => ticksOf k' j ≤ ticksOf k' m := by
    refine hq.sorted.imp_of_mem fun {j m} hj hm hle => ?_
    have hne : ∀ l ∈ x.s.k.lists .sleepList, l ≠ i := by
      rintro l hl rfl
      exact hawake hl
    rw [hother j (hne j hj), hother m (hne m hm), hq.ticks j hj, hq.ticks m hm]
    refine (int32_le ?_ (hq.side j hj m hm)).mpr hle
    exact (hq.ahead j hj).2.trans (hq.ahead m hm).2.symm
  have hsorted : (k'.lists .sleepList).Pairwise fun j m =>
      update x.wake i (x.now + requested ms) j ≤ update x.wake i (x.now + requested ms) m := by
    refine (List.Pairwise.iff_of_mem horder).mp ?_
    rw [hlist]
    exact insertSort_sorted _ i _ hold
  rw [heq] at h
  have hinv := (schedule_inv hs' (.inr hc')).of_next h
  obtain ⟨hsame, hj⟩ := schedule_same hs' (.inr hc') (fun _ => hnonzero) h
  have hmid : s'.k.lists .sleepList = k'.lists .sleepList := hsame.list
  refine ⟨hinv, hj.trans hjiffies, fun j hm => ?_, fun j hm => ?_, fun j hm l hl => ?_, ?_⟩
  · dsimp only at hm
    rw [hmid] at hm
    exact (hsame.ticks j hm).trans (hsleeper j hm).1
  · dsimp only at hm
    rw [hmid] at hm
    exact (hsleeper j hm).2.1
  · dsimp only at hm hl
    rw [hmid] at hm hl
    exact (hsleeper j hm).2.2.trans (hsleeper l hl).2.2.symm
  · dsimp only
    rw [hmid]
    exact hsorted

theorem waitPass_same (hs : Inv s) (hc : s.k.cpu = some i) (h0 : i ≠ 0)
    (hi : s.k.table i = some t) {pid : ℤ} (h : waitPass s i t pid = .next s') :
    SameSleep s.k s'.k ∧ s'.jiffies = s.jiffies := by
  have hrun : t.state = .running := (hs.tree.cpu i t hi).mpr hc
  unfold waitPass at h
  obtain ⟨⟨k', r⟩, hk, h⟩ := andThen_eq_next.mp h
  have hpassed := (taskWaitpid_all hs.tree hs.lists hi h0 hc pid).of_next hk
  have hsame := taskWaitpid_same hs.lists hi hrun hk
  have hcpu := hpassed.cpu
  cases r with
  | waits =>
    have hk' := hs.toSound.of_kernel hpassed.tree hpassed.lists hpassed.old
    have hsound : Sound { s with k := k', call := update s.call i (some pid) } :=
      ⟨hk'.tree, hk'.lists, hk'.magic, by simpa [h0.symm] using hs.call⟩
    exact same_schedule hsound (.inr hcpu) hsame rfl (hs.awake hc) h
  | noChild =>
    obtain rfl := Outcome.next.inj h
    exact ⟨hsame, rfl⟩
  | reaped j pid status =>
    obtain rfl := Outcome.next.inj h
    exact ⟨hsame, rfl⟩

/-- One action of a run in which every `task_sleep` is timely. -/
theorem step_queued (hq : Queued x) {a : Act} (htime : Timely x a) (hstep : x.exec a = .next y) :
    Queued y := by
  obtain ⟨s', h, hy⟩ := andThen_eq_next.mp hstep
  obtain rfl := Outcome.next.inj hy
  have hinv := (exec_inv hq.inv a).of_next h
  have hs := hq.inv
  unfold Sched.exec at h
  cases a with
  | yield =>
    cases hc : x.s.k.cpu with
    | none => simp [hc] at h
    | some i =>
      rw [hc] at h
      obtain ⟨hsame, hj⟩ := same_schedule hs.toSound (.inl hc) (SameSleep.refl x.s.k) rfl
        (hs.awake hc) (guard_eq_next.mp h).2
      exact hq.same hinv hsame hj
  | clock =>
    cases hc : x.s.k.cpu with
    | none => simp [hc] at h
    | some i =>
      rw [hc] at h
      exact hq.clock hc (guard_eq_next.mp h).2
  | block blist state =>
    cases hp : process x.s with
    | none => simp [hp] at h
    | some it =>
      obtain ⟨i, t⟩ := it
      obtain ⟨hc, h0, hi⟩ := process_eq hp
      simp only [hp] at h
      obtain ⟨hg, h⟩ := guard_eq_next.mp h
      have hstate : state = .blocked ∨ state = .waiting := by simpa using hg
      obtain ⟨k', hk', h⟩ := andThen_eq_next.mp h
      obtain ⟨hs', hc', -⟩ := (block_all hs hp blist hstate).of_next hk'
      have hb : blistOf blist ≠ .sleepList := by cases blist <;> exact fun he => by cases he
      have hsame := taskBlock_same hk' hb (hs.awake hc)
      obtain ⟨hsame, hj⟩ := same_schedule hs' (.inr hc') hsame rfl (hs.awake hc) h
      exact hq.same hinv hsame hj
  | unblock j =>
    cases hj : x.s.k.table j with
    | none => simp [hj] at h
    | some u =>
      simp only [hj] at h
      obtain ⟨hg, h⟩ := guard_eq_next.mp h
      obtain ⟨k', hk', h⟩ := andThen_eq_next.mp h
      obtain rfl := Outcome.next.inj h
      have hstate : u.state = .blocked ∨ u.state = .waiting := by simpa using hg
      have hawake : u.state ≠ .sleeping := by
        obtain h | h := hstate <;> simp [h]
      exact hq.same hinv (taskUnblock_same hk' (hs.lists.awake hj hawake)) rfl
  | sleep ms =>
    cases hp : process x.s with
    | none => simp [hp] at h
    | some it =>
      obtain ⟨i, t⟩ := it
      simp only [hp] at h
      have hwake : wakeAfter x (.sleep ms) = update x.wake i (x.now + requested ms) := by
        unfold wakeAfter
        rw [hp]
      rw [hwake]
      exact hq.sleep hp htime h
  | wakeup =>
    obtain ⟨s₁, hwake, hq₁, -⟩ := hq.wakeup
    obtain rfl := Outcome.next.inj (hwake.symm.trans h)
    exact hq₁
  | fork =>
    cases hp : process x.s with
    | none => simp [hp] at h
    | some it =>
      obtain ⟨i, t⟩ := it
      simp only [hp] at h
      obtain ⟨⟨k', j⟩, hk', h⟩ := andThen_eq_next.mp (guard_eq_next.mp h).2
      obtain rfl := Outcome.next.inj h
      exact hq.same hinv (fork_same hs.lists hk') rfl
  | exit status =>
    cases hp : process x.s with
    | none => simp [hp] at h
    | some it =>
      obtain ⟨i, t⟩ := it
      obtain ⟨hc, h0, hi⟩ := process_eq hp
      simp only [hp] at h
      obtain ⟨k', hk', h⟩ := andThen_eq_next.mp h
      obtain ⟨hs', hc'⟩ := (exit_all hs hp status).of_next hk'
      have hsame := taskExit_same hs.tree hs.lists hi hk'
      obtain ⟨hsame, hj⟩ := same_schedule hs' (.inr hc') hsame rfl (hs.awake hc) h
      exact hq.same hinv hsame hj
  | waitpid pid =>
    cases hp : process x.s with
    | none => simp [hp] at h
    | some it =>
      obtain ⟨i, t⟩ := it
      obtain ⟨hc, h0, hi⟩ := process_eq hp
      simp only [hp] at h
      obtain ⟨hsame, hj⟩ := waitPass_same hs hc h0 hi h
      exact hq.same hinv hsame hj
  | resume =>
    obtain ⟨i, t, hc, hi⟩ := hs.running
    rw [hc] at h
    dsimp only at h
    cases hcall : x.s.call i with
    | none => simp [hcall] at h
    | some pid =>
      rw [hcall, hi] at h
      have h0 : i ≠ 0 := by
        rintro rfl
        simp [hs.call] at hcall
      obtain ⟨hsame, hj⟩ := waitPass_same hs hc h0 hi h
      exact hq.same hinv hsame hj

end Actions

section Runs

theorem queued_start (h₀ : Init s₀) (hj : s₀.jiffies < 2 ^ 32) : Queued (.start s₀) := by
  have hnone : (Clocked.start s₀).s.k.lists .sleepList = [] := h₀.lists .sleepList
  refine ⟨inv_init h₀, (Nat.mod_eq_of_lt hj).symm, ?_, ?_, ?_, ?_⟩ <;> rw [hnone]
  · exact fun i hi => by cases hi
  · exact fun i hi => by cases hi
  · exact fun i hi => by cases hi
  · exact List.Pairwise.nil

/-- In every run from any value of the counter, however often it wraps, `task_wakeup` is exact
if at every `task_sleep` the deadline does not wrap and no sleeper's is on the other side of
`2 ^ 31`. -/
theorem wakeup_exact (h₀ : Init s₀) (hj : s₀.jiffies < 2 ^ 32) {x : Clocked}
    (h : Run (Guarded Timely fun x a y => x.exec a = .next y) (.start s₀) as x) : Exact x := by
  have hq : Queued x := h.invariant (fun _ _ _ hq hs => step_queued hq hs.1 hs.2)
    (queued_start h₀ hj)
  obtain ⟨-, -, -, -, -, -, hexact⟩ := hq.wakeup
  exact hexact

/-- `boot` with the counter somewhere else. -/
def bootAt (jiffies : ℕ) : State := { boot with jiffies := jiffies }

theorem init_bootAt (jiffies : ℕ) : Init (bootAt jiffies) := by
  refine ⟨fun i t ht => ?_, init_boot.idle, init_boot.first, init_boot.lists, init_boot.running,
    init_boot.call⟩
  obtain ⟨hlt, hc⟩ := init_boot.created i t ht
  exact ⟨hlt, hc.node, hc.state, hc.pid, hc.ppid, hc.magic⟩

/-- Two processes sleep for one and for two ticks. -/
def twoSleepers : List Act := [.fork, .sleep 10, .yield, .sleep 20, .clock]

theorem wakeup_exact_twoSleepers : ∃ x,
    Run (Guarded Timely fun x a y => x.exec a = .next y) (.start (bootAt (2 ^ 31))) twoSleepers x ∧
      x.s.k.lists .sleepList = [1, 2] ∧ x.wake 1 = x.now ∧ Exact x := by
  obtain ⟨x, hx, hp⟩ := run_of_play Timely Clocked.exec (.start (bootAt (2 ^ 31))) twoSleepers
    (fun x => x.s.k.lists .sleepList == [1, 2] && x.wake 1 == x.now) (by decide +kernel)
  simp only [Bool.and_eq_true, beq_iff_eq] at hp
  exact ⟨x, hx, hp.1, hp.2, wakeup_exact (init_bootAt _) (by decide) hx⟩

/-- The second deadline is `2 ^ 31`: as an `int` it comes before the first, as a `u32` it is
not due, and the first sleeper is left behind. -/
theorem wakeup_late : ¬ ∀ s₀ as x, Init s₀ → s₀.jiffies < 2 ^ 32 →
    Run (fun x a y => x.exec a = .next y) (Clocked.start s₀) as x → Exact x := by
  intro h
  obtain ⟨x, hx, hp⟩ := run_of_play (fun _ _ => True) Clocked.exec
    (.start (bootAt (2 ^ 31 - 2))) twoSleepers
    (fun x => decide (x.wake 1 ≤ x.now) && (x.s.k.table 1).any (fun t => t.state == .sleeping) &&
      (taskWakeup x.s).Ends fun s => (s.k.table 1).any fun t => t.state == .sleeping)
    (by decide +kernel)
  simp only [Bool.and_eq_true, decide_eq_true_eq] at hp
  obtain ⟨⟨hdue, hsleep⟩, hend⟩ := hp
  obtain ⟨t, ht, hsleep⟩ := (Option.any_eq_true _ _).mp hsleep
  obtain ⟨s₁, hs₁, hend⟩ := ends_eq_true.mp hend
  obtain ⟨u, hu, hstill⟩ := (Option.any_eq_true _ _).mp hend
  obtain ⟨s₂, hs₂, hall⟩ := h _ _ x (init_bootAt _) (by decide) hx.of_guarded
  obtain rfl := Outcome.next.inj (hs₁.symm.trans hs₂)
  obtain ⟨v, hv, hready⟩ := hall 1 t ht
  obtain rfl : u = v := Option.some.inj (hu.symm.trans hv)
  rw [if_pos ⟨beq_iff_eq.mp hsleep, hdue⟩, beq_iff_eq.mp hstill] at hready
  cases hready

end Runs

end Onix.Sched
