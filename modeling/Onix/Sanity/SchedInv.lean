import Onix.Sanity.TaskInv
import Onix.Spec.Sched

/-! Which task `schedule` chooses, and how the nodes of the tasks hang in the lists: what
each call does to the lists, said once. -/

namespace Onix.Sched

open Function Outcome Onix.Task
open Mutex (ONIX_MAGIC)

variable {k k' : Kernel} {s s' : State} {i j n : ℕ} {t t' u : TaskT}

section Search

/-- A task that `task_search` may choose. -/
def Candidate (k : Kernel) (current : ℕ) (state : TaskState) (i : ℕ) (t : TaskT) : Prop :=
  k.table i = some t ∧ t.state = state ∧ current ≠ i

variable {current : ℕ} {state : TaskState} {best : Option (ℕ × TaskT)}

theorem searchStep_cases (k : Kernel) (current : ℕ) (state : TaskState) (best : Option (ℕ × TaskT))
    (i : ℕ) :
    (∃ t, Candidate k current state i t ∧ searchStep k current state best i = some (i, t)) ∨
    (searchStep k current state best i = best ∧
      (best = none → ∀ t, ¬ Candidate k current state i t)) := by
  unfold searchStep
  cases ht : k.table i with
  | none => exact .inr ⟨rfl, fun _ t hc => by simp [Candidate, ht] at hc⟩
  | some t =>
    dsimp only
    split_ifs with hs hc
    · refine .inr ⟨rfl, fun _ u hu => hs ?_⟩
      obtain rfl : t = u := Option.some.inj (ht.symm.trans hu.1)
      exact hu.2.1
    · exact .inr ⟨rfl, fun _ u hu => hu.2.2 hc⟩
    · have hcand : Candidate k current state i t := ⟨ht, not_not.mp hs, hc⟩
      cases best with
      | none => exact .inl ⟨t, hcand, rfl⟩
      | some b =>
        obtain ⟨j, task⟩ := b
        dsimp only
        split_ifs
        · exact .inl ⟨t, hcand, rfl⟩
        · exact .inr ⟨rfl, fun h => by cases h⟩

/-- The loop ends with a candidate, or there was none. -/
theorem search_spec (is : List ℕ) (hbest : ∀ b, best = some b → Candidate k current state b.1 b.2) :
    (∀ b, is.foldl (searchStep k current state) best = some b → Candidate k current state b.1 b.2) ∧
    (is.foldl (searchStep k current state) best = none →
      best = none ∧ ∀ i ∈ is, ∀ t, ¬ Candidate k current state i t) := by
  induction is generalizing best with
  | nil => exact ⟨hbest, fun h => ⟨h, fun i hi => by cases hi⟩⟩
  | cons i is ih =>
    rw [List.foldl_cons]
    rcases searchStep_cases k current state best i with ⟨t, hc, heq⟩ | ⟨heq, hnone⟩
    · rw [heq]
      have hfirst : ∀ b, some (i, t) = some b → Candidate k current state b.1 b.2 := by
        intro b hb
        obtain rfl := Option.some.inj hb
        exact hc
      obtain ⟨h₁, h₂⟩ := ih hfirst
      exact ⟨h₁, fun h => absurd (h₂ h).1 (by simp)⟩
    · rw [heq]
      obtain ⟨h₁, h₂⟩ := ih hbest
      refine ⟨h₁, fun h => ?_⟩
      obtain ⟨hb, hall⟩ := h₂ h
      refine ⟨hb, fun j hj => ?_⟩
      rcases List.mem_cons.mp hj with rfl | hj
      · exact hnone hb
      · exact hall j hj

/-- `schedule` switches to another ready task, or the idle task to itself if it is alone. -/
theorem taskSearch_ready (ht : Tree k) (hc : k.cpu = some i ∨ k.cpu = none) : ∃ n, taskSearch k i .ready = some n ∧
      ((n ≠ i ∧ ∃ u, k.table n = some u ∧ u.state = .ready) ∨
        (n = 0 ∧ i = 0 ∧ ∀ j u, k.table j = some u → u.state = .ready → j = 0)) := by
  have hfirst : ∀ b : ℕ × TaskT, none = some b → Candidate k i .ready b.1 b.2 := fun b hb => by cases hb
  obtain ⟨hsome, hnone⟩ := search_spec (List.range NR_TASKS) hfirst
  unfold taskSearch
  cases hf : (List.range NR_TASKS).foldl (searchStep k i .ready) none with
  | some b =>
    obtain ⟨n, u⟩ := b
    obtain ⟨hn, hs, hne⟩ := hsome _ hf
    exact ⟨n, rfl, .inl ⟨hne.symm, u, hn, hs⟩⟩
  | none =>
    have hall := (hnone hf).2
    have hno : ∀ j u, k.table j = some u → u.state = .ready → i = j := by
      intro j u hu hs
      by_contra hne
      exact hall j (List.mem_range.mpr (ht.bound j u hu)) u ⟨hu, hs, hne⟩
    refine ⟨0, by simp, .inr ⟨rfl, ?_⟩⟩
    -- were it another task, the idle task would be ready and a candidate
    have hi : i = 0 := by
      obtain ⟨u, hu, hs, -⟩ := ht.idle
      rcases hs with hs | hs
      · exact hno 0 u hu hs
      · have hrun := (ht.cpu 0 u hu).mp hs
        rcases hc with hc | hc
        · exact Option.some.inj (hc.symm.trans hrun)
        · rw [hc] at hrun
          cases hrun
    exact ⟨hi, fun j u hu hs => (hno j u hu hs).symm.trans hi⟩

end Search

section Effect

theorem modTask_table (k : Kernel) (i : ℕ) (f : TaskT → TaskT) (j : ℕ) :
    (modTask k i f).table j = if j = i then (k.table j).map f else k.table j := by
  unfold modTask
  cases h : k.table i with
  | none =>
    split_ifs with hj
    · rw [hj, h]
      rfl
    · rfl
  | some t =>
    obtain rfl | hj := eq_or_ne j i
    · simp [Kernel.setTask, h]
    · simp [Kernel.setTask, hj]

@[simp] theorem modTask_lists (k : Kernel) (i : ℕ) (f : TaskT → TaskT) :
    (modTask k i f).lists = k.lists := by
  unfold modTask
  cases k.table i <;> rfl

@[simp] theorem modTask_cpu (k : Kernel) (i : ℕ) (f : TaskT → TaskT) :
    (modTask k i f).cpu = k.cpu := by
  unfold modTask
  cases k.table i <;> rfl

/-- What the switch from the task in slot `i` to the one in slot `n` makes of the task in
slot `j`. -/
def switched (i n j : ℕ) (u : TaskT) : TaskT :=
  let u := if j = i then outgoing u else u
  if j = n then { u with state := .running } else u

theorem switched_state (i n j : ℕ) (u : TaskT) : (switched i n j u).state =
    if j = n then .running
    else if j = i ∧ u.state = .running then .ready else u.state := by
  unfold switched outgoing
  dsimp only
  split_ifs <;> simp_all

theorem switched_fields (i n j : ℕ) (u : TaskT) : (switched i n j u).pid = u.pid ∧
    (switched i n j u).ppid = u.ppid ∧ (switched i n j u).node = u.node ∧
    (switched i n j u).priority = u.priority ∧ (switched i n j u).waitpid = u.waitpid ∧
    (switched i n j u).ticks = if j = i ∧ u.ticks = 0 then (u.priority : ℤ) else u.ticks := by
  unfold switched outgoing
  dsimp only
  split_ifs <;> simp_all

/-- What `schedule` leaves where it finds a task. -/
theorem schedule_eq (hn : taskSearch s.k i .ready = some n) (hm : s.magic n = ONIX_MAGIC) :
    ∃ k', schedule s i = .next { s with k := k', held := 0 } ∧ k'.cpu = some n ∧
      k'.lists = s.k.lists ∧ ∀ j, k'.table j = (s.k.table j).map (switched i n j) := by
  refine ⟨{ modTask (modTask s.k i outgoing) n (fun t => { t with state := .running }) with
    cpu := some n }, ?_, rfl, ?_, fun j => ?_⟩
  · unfold schedule
    rw [hn]
    dsimp only
    rw [hm]
    rfl
  · simp
  · dsimp only
    rw [modTask_table, modTask_table]
    unfold switched
    cases s.k.table j <;> simp only [Option.map_none, Option.map_some] <;> split_ifs <;> rfl

end Effect

section Lists

/-- Which nodes are on which lists. -/
structure Lists (k : Kernel) : Prop where
  node : ∀ i t, k.table i = some t → (t.node = true ↔ Linked t.state)
  mem : ∀ l i, i ∈ k.lists l → ∃ t, k.table i = some t ∧ Linked t.state ∧
    (l = .sleepList ↔ t.state = .sleeping)
  found : ∀ i t, k.table i = some t → Linked t.state → ∃ l, i ∈ k.lists l
  one : ∀ i l l', i ∈ k.lists l → i ∈ k.lists l' → l = l'
  nodup : ∀ l, (k.lists l).Nodup

/-- The sleep list holds the sleeping tasks. -/
theorem Lists.asleep (hl : Lists k) (hi : k.table i = some t) :
    i ∈ k.lists .sleepList ↔ t.state = .sleeping := by
  constructor
  · intro hmem
    obtain ⟨u, hu, -, hsleep⟩ := hl.mem .sleepList i hmem
    obtain rfl : t = u := Option.some.inj (hi.symm.trans hu)
    exact hsleep.mp rfl
  · intro hsleep
    obtain ⟨l, hl'⟩ := hl.found i t hi (.inr (.inl hsleep))
    obtain ⟨u, hu, -, hlist⟩ := hl.mem l i hl'
    obtain rfl : t = u := Option.some.inj (hi.symm.trans hu)
    rwa [hlist.mpr hsleep] at hl'

/-- The lists stay, and so do the tasks on them. -/
theorem Lists.congr (hl : Lists k) (hlists : k'.lists = k.lists)
    (hnode : ∀ i t, k'.table i = some t → (t.node = true ↔ Linked t.state))
    (old : ∀ i t, k.table i = some t → Linked t.state → ∃ t', k'.table i = some t' ∧
      Linked t'.state ∧ (t'.state = .sleeping ↔ t.state = .sleeping))
    (new : ∀ i t', k'.table i = some t' → Linked t'.state → ∃ t, k.table i = some t ∧
      Linked t.state) : Lists k' := by
  refine ⟨hnode, fun l i hi => ?_, fun i t ht hs => ?_, ?_, ?_⟩
  · rw [hlists] at hi
    obtain ⟨t, ht, hs, hsleep⟩ := hl.mem l i hi
    obtain ⟨t', ht', hs', hsleep'⟩ := old i t ht hs
    exact ⟨t', ht', hs', hsleep.trans hsleep'.symm⟩
  · obtain ⟨u, hu, hs'⟩ := new i t ht hs
    rw [hlists]
    exact hl.found i u hu hs'
  · rw [hlists]
    exact hl.one
  · rw [hlists]
    exact hl.nodup

/-- A task that is on no list is put on one. -/
theorem Lists.link (hl : Lists k) (ht : k.table i = some t) (hs : ¬ Linked t.state)
    {l : ListId} {is : List ℕ} (hperm : is.Perm (i :: k.lists l)) (hnode : t'.node = true)
    (hs' : Linked t'.state) (hsleep : l = .sleepList ↔ t'.state = .sleeping)
    (htable : k'.table = update k.table i (some t'))
    (hlists : k'.lists = update k.lists l is) : Lists k' := by
  have hoff : ∀ l', i ∉ k.lists l' := by
    intro l' hi
    obtain ⟨u, hu, hlink, -⟩ := hl.mem l' i hi
    obtain rfl : t = u := Option.some.inj (ht.symm.trans hu)
    exact hs hlink
  have hmem : ∀ l' j, j ∈ k'.lists l' ↔ (j = i ∧ l' = l) ∨ j ∈ k.lists l' := by
    intro l' j
    rw [hlists]
    obtain rfl | hne := eq_or_ne l' l
    · simp [hperm.mem_iff]
    · simp [hne]
  have hself : k'.table i = some t' := by rw [htable, update_self]
  have hother : ∀ j, j ≠ i → k'.table j = k.table j := fun j hj => by rw [htable, update_of_ne hj]
  refine ⟨fun j u hu => ?_, fun l' j hj => ?_, fun j u hu hlink => ?_, fun j l₁ l₂ h₁ h₂ => ?_,
    fun l' => ?_⟩
  · obtain rfl | hj := eq_or_ne j i
    · obtain rfl := Option.some.inj (hself.symm.trans hu)
      exact iff_of_true hnode hs'
    · rw [hother j hj] at hu
      exact hl.node j u hu
  · rcases (hmem l' j).mp hj with ⟨rfl, rfl⟩ | hj
    · exact ⟨t', hself, hs', hsleep⟩
    · have hji : j ≠ i := by
        rintro rfl
        exact hoff l' hj
      rw [hother j hji]
      exact hl.mem l' j hj
  · obtain rfl | hj := eq_or_ne j i
    · exact ⟨l, (hmem l j).mpr (.inl ⟨rfl, rfl⟩)⟩
    · rw [hother j hj] at hu
      obtain ⟨l', hl'⟩ := hl.found j u hu hlink
      exact ⟨l', (hmem l' j).mpr (.inr hl')⟩
  · rcases (hmem l₁ j).mp h₁ with ⟨rfl, rfl⟩ | h₁
    · rcases (hmem l₂ j).mp h₂ with ⟨-, rfl⟩ | h₂
      · rfl
      · exact absurd h₂ (hoff l₂)
    · rcases (hmem l₂ j).mp h₂ with ⟨rfl, rfl⟩ | h₂
      · exact absurd h₁ (hoff l₁)
      · exact hl.one j l₁ l₂ h₁ h₂
  · rw [hlists]
    obtain rfl | hne := eq_or_ne l' l
    · rw [update_self, hperm.nodup_iff]
      exact List.nodup_cons.mpr ⟨hoff l', hl.nodup l'⟩
    · rw [update_of_ne hne]
      exact hl.nodup l'

/-- A task is taken off its list. -/
theorem Lists.unlink (hl : Lists k) (hnode : t'.node = false) (hs' : ¬ Linked t'.state)
    (htable : k'.table = update k.table i (some t'))
    (hlists : k'.lists = fun l => (k.lists l).erase i) : Lists k' := by
  have hself : k'.table i = some t' := by rw [htable, update_self]
  have hother : ∀ j, j ≠ i → k'.table j = k.table j := fun j hj => by rw [htable, update_of_ne hj]
  have hmem : ∀ l j, j ∈ k'.lists l ↔ j ≠ i ∧ j ∈ k.lists l := by
    intro l j
    rw [hlists]
    exact (hl.nodup l).mem_erase_iff
  refine ⟨fun j u hu => ?_, fun l j hj => ?_, fun j u hu hlink => ?_, fun j l₁ l₂ h₁ h₂ => ?_,
    fun l => ?_⟩
  · obtain rfl | hj := eq_or_ne j i
    · obtain rfl := Option.some.inj (hself.symm.trans hu)
      exact iff_of_false (by simp [hnode]) hs'
    · rw [hother j hj] at hu
      exact hl.node j u hu
  · obtain ⟨hne, hj⟩ := (hmem l j).mp hj
    rw [hother j hne]
    exact hl.mem l j hj
  · obtain rfl | hj := eq_or_ne j i
    · obtain rfl := Option.some.inj (hself.symm.trans hu)
      exact absurd hlink hs'
    · rw [hother j hj] at hu
      obtain ⟨l, hl'⟩ := hl.found j u hu hlink
      exact ⟨l, (hmem l j).mpr ⟨hj, hl'⟩⟩
  · exact hl.one j l₁ l₂ ((hmem l₁ j).mp h₁).2 ((hmem l₂ j).mp h₂).2
  · rw [hlists]
    exact (hl.nodup l).erase i

theorem insertSort_perm (key : ℕ → ℤ) (i : ℕ) (l : List ℕ) : (insertSort key i l).Perm (i :: l) := by
  induction l with
  | nil => exact List.Perm.refl _
  | cons j l ih =>
    unfold insertSort
    split_ifs
    · exact List.Perm.refl _
    · exact (ih.cons j).trans (List.Perm.swap i j l)

end Lists

end Onix.Sched
