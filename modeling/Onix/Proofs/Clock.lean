import Onix.Proofs.Sched
import Onix.Sanity.Contents
import Onix.Spec.Clock

/-! The time of day goes on exactly as long as the milliseconds since the start do not wrap
round. -/

namespace Onix.Fs

open Function Prog

variable {s t : State} {inode n : ℕ} {bytes : List Byte} {offset : ℤ}

/-- `inode_write` stamps the inode with one reading of the time. -/
theorem inodeWrite_stamp (h : inodeWrite inode bytes offset s = some (n, t)) :
    ∃ k, (t.inodeTable inode).atime = s.clock k ∧ t.mtime inode = s.clock k % 2 ^ 32 := by
  unfold inodeWrite at h
  rw [peek_bind] at h
  obtain ⟨⟨⟩, s', hassert, h₁⟩ := bind_eq_some.mp h
  obtain ⟨-, rfl⟩ := assert_eq_some.mp hassert
  obtain ⟨⟨⟩, u, hloop, h₂⟩ := bind_eq_some.mp h₁
  obtain ⟨⟨⟩, v, htouch, h₃⟩ := bind_eq_some.mp h₂
  have hclock : u.clock = s'.clock := (writeLoop_same inode _ _ _ _ _ hloop).clock
  have hatime : (v.inodeTable inode).atime = s'.clock u.ticks := by
    rw [touch_eq htouch, ← hclock]
    exact congrArg InodeT.atime (update_self inode _ u.inodeTable)
  rw [poke_bind, peek_bind] at h₃
  obtain rfl : v.stamped inode (v.inodeTable inode).atime = t := (Prod.mk.inj (Option.some.inj h₃)).2
  have hmtime : (v.stamped inode (v.inodeTable inode).atime).mtime inode =
      ((v.data (v.ibuf inode)).wr32 (v.idesc inode + 8) (v.inodeTable inode).atime).rd32
        (v.idesc inode + 8) :=
    congrArg (fun d : Block => d.rd32 (v.idesc inode + 8)) (stamped_self _)
  refine ⟨u.ticks, hatime, ?_⟩
  rw [hmtime, Bytes.rd32_wr32, hatime]

end Onix.Fs

namespace Onix.Sched

open Outcome Onix.Task

variable {startupTime j₁ j₂ : ℕ} {s s' s₀ s₁ s₂ : State} {a : Act} {as bs : List Act} {i : ℕ} {t : TaskT}

theorem schedule_kept (h : schedule s i = .next s') :
    s'.jiffies = s.jiffies ∧ s'.call = s.call ∧ s'.k.lists = s.k.lists := by
  unfold schedule at h
  cases hn : taskSearch s.k i .ready with
  | none =>
    rw [hn] at h
    cases h
  | some n =>
    rw [hn] at h
    obtain ⟨-, h⟩ := assert_eq_next.mp h
    obtain rfl := Outcome.next.inj h
    exact ⟨rfl, rfl, (modTask_lists ..).trans (modTask_lists ..)⟩

theorem waitPass_jiffies {pid : ℤ} (h : waitPass s i t pid = .next s') : s'.jiffies = s.jiffies := by
  obtain ⟨⟨k, r⟩, -, h⟩ := andThen_eq_next.mp h
  cases r with
  | waits => exact (schedule_kept h).1
  | noChild =>
    obtain rfl := Outcome.next.inj h
    rfl
  | reaped j pid status =>
    obtain rfl := Outcome.next.inj h
    rfl

theorem clock_step (h : Step s .clock s') : s'.jiffies = (s.jiffies + 1) % 2 ^ 32 := by
  unfold Step exec at h
  cases hc : s.k.cpu with
  | none => simp [hc] at h
  | some i =>
    simp only [hc] at h
    obtain ⟨-, h⟩ := guard_eq_next.mp h
    obtain ⟨u, hentry, h⟩ := andThen_eq_next.mp h
    obtain ⟨v, hwake, hentry⟩ := andThen_eq_next.mp hentry
    obtain ⟨k, -, hwake⟩ := andThen_eq_next.mp hwake
    obtain rfl := Outcome.next.inj hwake
    obtain ⟨-, hentry⟩ := assert_eq_next.mp hentry
    obtain rfl := Outcome.next.inj hentry
    unfold clockTick at h
    dsimp only at h
    split_ifs at h
    · exact (schedule_kept h).1
    · obtain rfl := Outcome.next.inj h
      rfl

/-- Only `clock_handler` counts the ticks. -/
theorem step_jiffies (h : Step s a s') : s'.jiffies = (s.jiffies + a.ticks) % 2 ^ 32 ∨
    a.ticks = 0 ∧ s'.jiffies = s.jiffies := by
  by_cases hclock : a = .clock
  · subst hclock
    exact .inl (clock_step h)
  refine .inr ⟨by cases a <;> simp_all [Act.ticks], ?_⟩
  unfold Step at h
  cases a with
  | clock => exact absurd rfl hclock
  | wakeup =>
    obtain ⟨k, -, h⟩ := andThen_eq_next.mp h
    obtain rfl := Outcome.next.inj h
    rfl
  | unblock j =>
    unfold exec at h
    cases hj : s.k.table j with
    | none => simp [hj] at h
    | some u =>
      simp only [hj] at h
      obtain ⟨k, -, h⟩ := andThen_eq_next.mp (guard_eq_next.mp h).2
      obtain rfl := Outcome.next.inj h
      rfl
  | yield =>
    unfold exec at h
    cases hc : s.k.cpu with
    | none => simp [hc] at h
    | some i =>
      simp only [hc] at h
      exact (schedule_kept (guard_eq_next.mp h).2).1
  | resume =>
    unfold exec at h
    cases hc : s.k.cpu with
    | none => simp [hc] at h
    | some i =>
      simp only [hc] at h
      split at h
      · exact waitPass_jiffies h
      · cases h
  | block blist state =>
    unfold exec at h
    cases hp : process s with
    | none => simp [hp] at h
    | some it =>
      simp only [hp] at h
      obtain ⟨k, -, h⟩ := andThen_eq_next.mp (guard_eq_next.mp h).2
      exact (schedule_kept h).1
  | sleep ms =>
    unfold exec at h
    cases hp : process s with
    | none => simp [hp] at h
    | some it =>
      simp only [hp] at h
      exact (schedule_kept (assert_eq_next.mp h).2).1
  | fork =>
    unfold exec at h
    cases hp : process s with
    | none => simp [hp] at h
    | some it =>
      simp only [hp] at h
      obtain ⟨⟨k, j⟩, -, h⟩ := andThen_eq_next.mp (guard_eq_next.mp h).2
      obtain rfl := Outcome.next.inj h
      rfl
  | exit status =>
    unfold exec at h
    cases hp : process s with
    | none => simp [hp] at h
    | some it =>
      simp only [hp] at h
      obtain ⟨k, -, h⟩ := andThen_eq_next.mp h
      exact (schedule_kept h).1
  | waitpid pid =>
    unfold exec at h
    cases hp : process s with
    | none => simp [hp] at h
    | some it =>
      simp only [hp] at h
      exact waitPass_jiffies h

/-- `jiffies` counts the calls of `clock_handler` modulo `2 ^ 32`. -/
theorem run_jiffies (h₀ : s₀.jiffies = 0) (h : Run Step s₀ as s) :
    s.jiffies = ticks as % 2 ^ 32 := by
  unfold ticks
  induction h with
  | nil => exact h₀
  | snoc hrun hstep ih =>
    rw [List.map_append, List.sum_append, List.map_singleton, List.sum_singleton]
    rcases step_jiffies hstep with hj | ⟨hticks, hj⟩
    · rw [hj, ih]
      omega
    · rw [hj, ih, hticks, Nat.add_zero]

theorem sysTime_lt (startupTime j : ℕ) : sysTime startupTime j < 2 ^ 32 :=
  Nat.mod_lt _ (by norm_num)

/-- The stamps of a write are the time of its tick. -/
theorem writtenAt_stamps {j inode : ℕ} {s t : Fs.State} (h : WrittenAt startupTime j s inode t) :
    (t.inodeTable inode).atime = sysTime startupTime j ∧ t.mtime inode = sysTime startupTime j := by
  obtain ⟨hclock, bytes, offset, n, hwrite⟩ := h
  obtain ⟨k, hatime, hmtime⟩ := Fs.inodeWrite_stamp hwrite
  rw [hclock] at hatime hmtime
  exact ⟨hatime, hmtime.trans (Nat.mod_eq_of_lt (sysTime_lt startupTime j))⟩

/-- Where `startup_time` and the seconds fit into 32 bits only the product wraps. -/
theorem sysTime_eq (hfit : startupTime + j₁ * JIFFY / 1000 < 2 ^ 32) :
    sysTime startupTime j₁ = startupTime + j₁ * JIFFY % 2 ^ 32 / 1000 := by
  have hle : j₁ * JIFFY % 2 ^ 32 / 1000 ≤ j₁ * JIFFY / 1000 :=
    Nat.div_le_div_right (Nat.mod_le _ _)
  exact Nat.mod_eq_of_lt (by omega)

theorem timeGoesOn_iff (hj : j₁ ≤ j₂) (hfit : startupTime + j₂ * JIFFY / 1000 < 2 ^ 32) :
    TimeGoesOn startupTime j₁ j₂ ↔ j₁ * JIFFY / 2 ^ 32 = j₂ * JIFFY / 2 ^ 32 := by
  have hmono : j₁ * JIFFY / 1000 ≤ j₂ * JIFFY / 1000 :=
    Nat.div_le_div_right (Nat.mul_le_mul_right _ hj)
  have h₁ : sysTime startupTime j₁ = startupTime + j₁ * JIFFY % 2 ^ 32 / 1000 :=
    sysTime_eq (by omega)
  have h₂ := sysTime_eq hfit
  constructor
  · intro h
    have horder := h.order
    have hleast := h.least
    rw [h₁, h₂] at horder hleast
    unfold JIFFY HZ at *
    omega
  · intro hwrap
    have horder : sysTime startupTime j₁ ≤ sysTime startupTime j₂ := by
      rw [h₁, h₂]
      unfold JIFFY at *
      omega
    refine ⟨horder, ?_, ?_, ?_⟩
    · rw [h₁, h₂]
      unfold JIFFY HZ at *
      omega
    · rw [h₁, h₂]
      unfold JIFFY HZ at *
      omega
    · intro s₁ i₁ t₁ s₂ i₂ t₂ hw₁ hw₂
      obtain ⟨ha₁, hm₁⟩ := writtenAt_stamps hw₁
      obtain ⟨ha₂, hm₂⟩ := writtenAt_stamps hw₂
      rw [ha₁, hm₁, ha₂, hm₂]
      exact ⟨horder, horder⟩

/-- Between two ticks that the clock comes to, `sys_time` goes on by the seconds and the stamps
do not go back, exactly where `jiffies * JIFFY` wraps round equally often up to both. -/
theorem sys_time_iff (h₀ : s₀.jiffies = 0) (h₁ : Run Step s₀ as s₁) (h₂ : Run Step s₁ bs s₂)
    (hticks : ticks (as ++ bs) < 2 ^ 32)
    (hfit : startupTime + ticks (as ++ bs) * JIFFY / 1000 < 2 ^ 32) :
    TimeGoesOn startupTime s₁.jiffies s₂.jiffies ↔
      ticks as * JIFFY / 2 ^ 32 = ticks (as ++ bs) * JIFFY / 2 ^ 32 := by
  have hle : ticks as ≤ ticks (as ++ bs) := by
    unfold ticks
    rw [List.map_append, List.sum_append]
    exact Nat.le_add_right _ _
  rw [run_jiffies h₀ h₁, run_jiffies h₀ (h₁.trans h₂), Nat.mod_eq_of_lt (hle.trans_lt hticks),
    Nat.mod_eq_of_lt hticks]
  exact timeGoesOn_iff hle hfit

section Idle

theorem schedule_ne_refused (s : State) (i : ℕ) : schedule s i ≠ .refused := by
  unfold schedule
  cases taskSearch s.k i .ready with
  | none => simp
  | some n =>
    dsimp only
    unfold Outcome.assert
    split_ifs <;> simp

/-- While nobody sleeps or waits the clock ticks. -/
theorem clock_next (hs : Inv s) (hempty : s.k.lists .sleepList = []) (hcall : ∀ i, s.call i = none) :
    ∃ s', Step s .clock s' ∧ s'.k.lists .sleepList = [] ∧ ∀ i, s'.call i = none := by
  obtain ⟨i, t, hc, hi⟩ := hs.running
  have hwake : taskWakeup s = .next s := by
    unfold taskWakeup
    rw [hempty]
    rfl
  have hentry : clockEntry s i = .next { s with
      k := modTask s.k i fun t => { t with jiffies := (s.jiffies + 1) % 2 ^ 32 }
      jiffies := (s.jiffies + 1) % 2 ^ 32 } := by
    unfold clockEntry
    rw [hwake]
    simp only [next_andThen]
    rw [hs.magic i t hi]
    rfl
  have hexec : exec s .clock = clockTick { s with
      k := modTask s.k i fun t => { t with jiffies := (s.jiffies + 1) % 2 ^ 32 }
      jiffies := (s.jiffies + 1) % 2 ^ 32 } i := by
    unfold exec
    rw [hc]
    dsimp only
    rw [hcall i, hentry]
    rfl
  have hnot := (exec_inv hs .clock).ne_failed
  unfold Step
  rw [hexec] at hnot ⊢
  unfold clockTick at hnot ⊢
  dsimp only at hnot ⊢
  split_ifs at hnot ⊢
  · cases hsched : schedule _ i with
    | failed => exact absurd hsched hnot
    | refused => exact absurd hsched (schedule_ne_refused _ i)
    | next s' =>
      obtain ⟨-, hcall', hlists⟩ := schedule_kept hsched
      refine ⟨s', rfl, ?_, ?_⟩
      · rw [hlists, modTask_lists, modTask_lists, hempty]
      · rw [hcall']
        exact hcall
  · refine ⟨_, rfl, ?_, hcall⟩
    rw [modTask_lists, modTask_lists, hempty]

/-- Every number of ticks is reached. -/
theorem run_clock (n : ℕ) : ∃ s, Run Step boot (List.replicate n .clock) s ∧
    s.k.lists .sleepList = [] ∧ ∀ i, s.call i = none := by
  induction n with
  | zero => exact ⟨boot, Run.nil, rfl, fun _ => rfl⟩
  | succ n ih =>
    obtain ⟨s, hrun, hempty, hcall⟩ := ih
    obtain ⟨s', hstep, hempty', hcall'⟩ := clock_next (inv_run init_boot hrun) hempty hcall
    rw [List.replicate_succ']
    exact ⟨s', hrun.snoc hstep, hempty', hcall'⟩

theorem ticks_clock (n : ℕ) : ticks (List.replicate n .clock) = n := by
  unfold ticks
  rw [List.map_replicate, List.sum_replicate]
  exact Nat.mul_one n

/-- A run of one tick after `n` others. -/
theorem run_clock_succ (n : ℕ) : ∃ s₁ s₂, Run Step boot (List.replicate n .clock) s₁ ∧
    Run Step s₁ [.clock] s₂ ∧ ticks (List.replicate n .clock ++ [.clock]) = n + 1 := by
  obtain ⟨s₁, hrun, hempty, hcall⟩ := run_clock n
  obtain ⟨s₂, hstep, -⟩ := clock_next (inv_run init_boot hrun) hempty hcall
  refine ⟨s₁, s₂, hrun, Run.single hstep, ?_⟩
  rw [← List.replicate_succ']
  exact ticks_clock (n + 1)

theorem sys_time_second : ∃ s₁ s₂, Run Step boot (List.replicate 99 .clock) s₁ ∧
    Run Step s₁ [.clock] s₂ ∧ TimeGoesOn 1000 s₁.jiffies s₂.jiffies := by
  obtain ⟨s₁, s₂, h₁, h₂, hticks⟩ := run_clock_succ 99
  refine ⟨s₁, s₂, h₁, h₂, (sys_time_iff rfl h₁ h₂ (by rw [hticks]; decide)
    (by rw [hticks]; decide)).mpr ?_⟩
  rw [hticks, ticks_clock]
  decide

/-- After 49 days and 17 hours the time goes back to the start. -/
theorem sys_time_back : ∃ s₁ s₂, Run Step boot (List.replicate 429496729 .clock) s₁ ∧
    Run Step s₁ [.clock] s₂ ∧ ticks (List.replicate 429496729 .clock ++ [.clock]) < 2 ^ 32 ∧
    sysTime 0 s₁.jiffies = 4294967 ∧ sysTime 0 s₂.jiffies = 0 ∧
    ¬ TimeGoesOn 0 s₁.jiffies s₂.jiffies := by
  obtain ⟨s₁, s₂, h₁, h₂, hticks⟩ := run_clock_succ 429496729
  have hj₁ := run_jiffies rfl h₁
  have hj₂ := run_jiffies rfl (h₁.trans h₂)
  rw [ticks_clock] at hj₁
  rw [hticks] at hj₂ ⊢
  have ht₁ : sysTime 0 s₁.jiffies = 4294967 := by
    rw [hj₁]
    decide
  have ht₂ : sysTime 0 s₂.jiffies = 0 := by
    rw [hj₂]
    decide
  refine ⟨s₁, s₂, h₁, h₂, by decide, ht₁, ht₂, fun h => ?_⟩
  have horder := h.order
  rw [ht₁, ht₂] at horder
  exact absurd horder (by decide)

end Idle

end Onix.Sched
