import Onix.Lib.Lossy
import Onix.Lib.Run
import Onix.Sanity.FifoSpec
import Onix.Spec.Keyboard

/-! The invariant of the keyboard: what the tasks' records say, who has the lock and who
waits for it, and that the recorded waiter is the reader that sleeps at an empty queue. -/

namespace Onix.Keyboard

open Function Outcome
open Mutex (TaskState LockT MutexT)

variable {τ : Type*} {s s' : State τ} {t u w : τ}

/-- The records of the tasks; the task that runs is outside the calls it returns from. -/
structure Tasks (cpu : Option τ) (state : τ → TaskState) (linked : τ → Bool) (pc : τ → Pc) :
    Prop where
  cpu : ∀ t, state t = .running ↔ cpu = some t
  linked : ∀ t, linked t = true ↔ state t = .blocked
  away : ∀ t, pc t ≠ .out → state t ≠ .running

/-- The queue, and where the characters went. -/
structure Ring (fifo : Fifo (Byte × ℕ)) (queued : List Byte) (delivered dropped : List (Byte × ℕ)) :
    Prop where
  holds : fifo.Holds fifo.contents
  size : fifo.length = BUFFER_SIZE
  log : Lossy queued.zipIdx delivered dropped fifo.contents

/-- The lock; `me` is the task that has it and runs. -/
structure Locked (lock : LockT τ) (state : τ → TaskState) (pc : τ → Pc) (me : Option τ) :
    Prop where
  holder : ∀ t, lock.holder = some t ↔ me = some t ∨ ∃ n, pc t = .reading n
  value : lock.mutex.value = true ↔ lock.holder ≠ none
  held : lock.holder ≠ none → lock.repeats = 1
  free : lock.holder = none → lock.repeats = 0
  nodup : lock.mutex.waiters.Nodup
  waiters : ∀ t, t ∈ lock.mutex.waiters ↔ (∃ n, pc t = .acquiring n) ∧ state t = .blocked

/-- The waiter is the reader that sleeps, and the queue is empty then. -/
structure Asleep (waiter : Option τ) (pending : List (Byte × ℕ)) (state : τ → TaskState)
    (pc : τ → Pc) : Prop where
  who : ∀ t, waiter = some t ↔ (∃ n, pc t = .reading n) ∧ state t = .blocked
  calm : waiter ≠ none → pending = []

structure Inv (s : State τ) : Prop where
  tasks : Tasks s.cpu s.state s.linked s.pc
  ring : Ring s.fifo s.queued s.delivered s.dropped
  locked : Locked s.lock s.state s.pc none
  asleep : Asleep s.waiter s.undelivered s.state s.pc
  coming : s.lock.mutex.value = false → s.lock.mutex.waiters ≠ [] →
    ∃ t n, s.pc t = .acquiring n ∧ s.state t = .ready

theorem inv_init (h : Init s) : Inv s := by
  obtain ⟨buf, hbuf⟩ := h.fifo
  have hholds : s.fifo.Holds [] := by
    rw [hbuf]
    exact Fifo.holds_init (by decide) (by decide)
  have hnone : s.fifo.contents = [] := hholds.contents
  have hnot : ∀ t p, p ≠ .out → s.pc t ≠ p := fun t p hp he => hp (he.symm.trans (h.pc t))
  refine ⟨⟨h.cpu, h.linked, fun t ht => absurd (h.pc t) ht⟩, ⟨?_, ?_, ?_⟩, ?_, ?_, ?_⟩
  · rwa [hnone]
  · rw [hbuf]
    rfl
  · rw [hnone, h.queued, h.delivered, h.dropped]
    exact Lossy.nil
  · rw [h.lock]
    refine ⟨fun t => ?_, ?_, ?_, fun _ => rfl, List.nodup_nil, fun t => ?_⟩
    · simp [h.pc]
    · simp
    · simp
    · simp [h.pc]
  · refine ⟨fun t => ?_, fun hw => absurd h.waiter hw⟩
    rw [h.waiter]
    simp [h.pc]
  · intro _ hne
    rw [h.lock] at hne
    exact absurd rfl hne

section Tasks

variable {cpu : Option τ} {state : τ → TaskState} {linked : τ → Bool} {pc : τ → Pc} {p : Pc}

theorem Tasks.running (h : Tasks cpu state linked pc) (hc : cpu = some t) :
    state t = .running ∧ pc t = .out ∧ linked t = false ∧ ∀ u, state u = .running → u = t := by
  have hrun := (h.cpu t).mpr hc
  refine ⟨hrun, ?_, ?_, fun u hu => ?_⟩
  · by_contra hout
    exact h.away t hout hrun
  · rw [← Bool.not_eq_true, h.linked, hrun]
    decide
  · exact Option.some.inj (((h.cpu u).mp hu).symm.trans hc)

variable [DecidableEq τ]

/-- The running task is put aside, on a list or ready. -/
theorem Tasks.aside (h : Tasks cpu state linked pc) (hc : cpu = some t) (p : Pc) (x : TaskState)
    (hx : x ≠ .running) (l : Bool) (hl : l = true ↔ x = .blocked) :
    Tasks none (update state t x) (update linked t l) (update pc t p) := by
  obtain ⟨-, -, -, hone⟩ := h.running hc
  refine ⟨fun u => ?_, fun u => ?_, fun u hu => ?_⟩
  · obtain rfl | hne := eq_or_ne u t
    · simpa using hx
    · rw [update_of_ne hne]
      exact ⟨fun hr => absurd (hone u hr) hne, fun hn => by cases hn⟩
  · obtain rfl | hne := eq_or_ne u t
    · simpa using hl
    · rw [update_of_ne hne, update_of_ne hne]
      exact h.linked u
  · obtain rfl | hne := eq_or_ne u t
    · simpa using hx
    · rw [update_of_ne hne]
      exact fun hr => hne (hone u hr)

/-- The running task gives up the processor. -/
theorem Tasks.yielded (h : Tasks cpu state linked pc) (hc : cpu = some t) (p : Pc) :
    Tasks none (update state t .ready) linked (update pc t p) := by
  have haside := h.aside hc p .ready (by decide) false (by decide)
  rwa [← (h.running hc).2.2.1, update_eq_self] at haside

theorem Tasks.woken (h : Tasks cpu state linked pc) (hw : state w = .blocked) :
    Tasks cpu (update state w .ready) (update linked w false) pc := by
  refine ⟨fun u => ?_, fun u => ?_, fun u hu => ?_⟩
  · obtain rfl | hne := eq_or_ne u w
    · rw [update_self, ← h.cpu, hw]
      simp
    · rw [update_of_ne hne]
      exact h.cpu u
  · obtain rfl | hne := eq_or_ne u w
    · simp
    · rw [update_of_ne hne, update_of_ne hne]
      exact h.linked u
  · obtain rfl | hne := eq_or_ne u w
    · simp
    · rw [update_of_ne hne]
      exact h.away u hu

theorem Tasks.dispatched (h : Tasks none state linked pc) (hu : state u = .ready) :
    Tasks (some u) (update state u .running) linked (update pc u .out) := by
  have hnobody : ∀ v, state v ≠ .running := fun v hv => by cases (h.cpu v).mp hv
  refine ⟨fun v => ?_, fun v => ?_, fun v hv => ?_⟩
  · obtain rfl | hne := eq_or_ne v u
    · simp
    · rw [update_of_ne hne]
      exact ⟨fun hr => absurd hr (hnobody v), fun he => absurd (Option.some.inj he).symm hne⟩
  · obtain rfl | hne := eq_or_ne v u
    · rw [update_self, h.linked, hu]
      simp
    · rw [update_of_ne hne]
      exact h.linked v
  · obtain rfl | hne := eq_or_ne v u
    · exact absurd (update_self ..) hv
    · rw [update_of_ne hne]
      exact hnobody v

end Tasks

section Parts

variable {lock : LockT τ} {state state' : τ → TaskState} {pc pc' : τ → Pc} {me waiter : Option τ}
  {pending : List (Byte × ℕ)}

/-- The lock sees who is reading and who waits for it. -/
theorem Locked.congr (h : Locked lock state pc me)
    (hread : ∀ t, (∃ n, pc' t = .reading n) ↔ ∃ n, pc t = .reading n)
    (hwait : ∀ t, (∃ n, pc' t = .acquiring n) ∧ state' t = .blocked ↔
      (∃ n, pc t = .acquiring n) ∧ state t = .blocked) : Locked lock state' pc' me :=
  ⟨fun t => by rw [h.holder, hread], h.value, h.held, h.free, h.nodup,
    fun t => by rw [h.waiters, hwait]⟩

/-- The one that reads is the one that has the lock. -/
theorem Locked.reader (h : Locked lock state pc me) {n : ℕ} (ht : pc t = .reading n) :
    lock.holder = some t := (h.holder t).mpr (Or.inr ⟨n, ht⟩)

theorem Asleep.nobody (h : ∀ t n, pc t ≠ .reading n) : Asleep none pending state pc := by
  refine ⟨fun t => ⟨fun he => (by cases he), fun ht => ?_⟩, fun hne => absurd rfl hne⟩
  obtain ⟨⟨n, hn⟩, -⟩ := ht
  exact absurd hn (h t n)

variable [DecidableEq τ]

/-- A task outside the calls that changes its state is not seen. -/
theorem Locked.other (h : Locked lock state pc me) (ht : pc t = .out) (x : TaskState) :
    Locked lock (update state t x) pc me := by
  apply h.congr (fun _ => Iff.rfl)
  intro u
  obtain rfl | hne := eq_or_ne u t
  · simp [ht]
  · rw [update_of_ne hne]

theorem Asleep.other (h : Asleep waiter pending state pc) (ht : pc t = .out) (x : TaskState) :
    Asleep waiter pending (update state t x) pc := by
  refine ⟨fun u => ?_, h.calm⟩
  rw [h.who]
  obtain rfl | hne := eq_or_ne u t
  · simp [ht]
  · rw [update_of_ne hne]

end Parts

section Queue

variable {fifo : Fifo (Byte × ℕ)} {queued : List Byte} {delivered dropped : List (Byte × ℕ)}

/-- A character is put into the queue: the oldest is dropped where it is full. -/
theorem Ring.put (h : Ring fifo queued delivered dropped) (ch : Byte) :
    ∃ lost fifo', fifo.put (ch, queued.length) = some (lost, fifo') ∧
      (lost = [] ∨ ∃ old rest, fifo.contents = old :: rest ∧
        fifo.contents.length = BUFFER_SIZE - 1 ∧ lost = [old]) ∧
      Ring fifo' (queued ++ [ch]) delivered (dropped ++ lost) := by
  have hzip : (queued ++ [ch]).zipIdx = queued.zipIdx ++ [(ch, queued.length)] := by
    rw [List.zipIdx_append]
    simp
  have hroom := h.holds.room
  rw [h.size] at hroom
  by_cases hfull : fifo.contents.length + 1 = BUFFER_SIZE
  · obtain ⟨old, rest, hxs⟩ : ∃ old rest, fifo.contents = old :: rest := by
      apply List.exists_cons_of_ne_nil
      intro hnil
      rw [hnil] at hfull
      exact absurd hfull (by decide)
    have hholds := h.holds
    have hlog := h.log
    rw [hxs] at hholds hlog hfull
    obtain ⟨fifo', hput, hnew, hsize⟩ := hholds.put_full (by rw [h.size, ← hfull]; rfl)
      (ch, queued.length)
    refine ⟨[old], fifo', hput, Or.inr ⟨old, rest, hxs, ?_, rfl⟩, ?_, hsize.trans h.size, ?_⟩
    · rw [hxs]
      omega
    · rwa [hnew.contents]
    · rw [hnew.contents, hzip]
      exact hlog.drop.send _
  · obtain ⟨fifo', hput, hnew, hsize⟩ := h.holds.put (by rw [h.size]; omega) (ch, queued.length)
    refine ⟨[], fifo', hput, Or.inl rfl, ?_, hsize.trans h.size, ?_⟩
    · rwa [hnew.contents]
    · rw [hnew.contents, hzip, List.append_nil]
      exact h.log.send _

/-- The oldest character is taken out for a reader. -/
theorem Ring.get (h : Ring fifo queued delivered dropped) (hne : fifo.contents ≠ []) :
    ∃ ch fifo', fifo.get = some (ch, fifo') ∧ Ring fifo' queued (delivered ++ [ch]) dropped := by
  obtain ⟨ch, rest, hxs⟩ := List.exists_cons_of_ne_nil hne
  have hholds := h.holds
  have hlog := h.log
  rw [hxs] at hholds hlog
  obtain ⟨fifo', hget, hnew, hsize⟩ := hholds.get
  refine ⟨ch, fifo', hget, ?_, hsize.trans h.size, ?_⟩
  · rwa [hnew.contents]
  · rw [hnew.contents]
    exact hlog.deliver

end Queue

end Onix.Keyboard
