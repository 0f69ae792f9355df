import Onix.Sanity.ListSpec

/-! The doubly linked lists over every sequence of calls, and the queue that `list_push` and
`list_popback` make. -/

namespace Onix.Lists

section Sequences

variable {ι : Type} [DecidableEq ι] {lists : ι → ListT} {m₀ m : Memory} {S : ι → List Addr}
  {cs : List (Call ι)}

theorem rep_run (h0 : Init lists m₀) (h : Run (Step lists) (m₀, fun _ => []) cs (m, S)) :
    Rep lists m S :=
  Run.invariant (I := fun s => Rep lists s.1 s.2) (fun _ _ _ hi hs => rep_step hi hs) h (rep_init h0)

/-- After every legal sequence of calls the memory agrees with the sequences: the chains along
`next` and `prev`, disjoint, with null links outside, and the searches and sizes. Each further
legal call fails exactly when it pops an empty list, and returns what it returns on the
sequences. -/
theorem list_calls (h0 : Init lists m₀) (h : Run (Step lists) (m₀, fun _ => []) cs (m, S)) :
    Agrees lists m S ∧ ∀ c, Legal lists S c →
      (apply S c = none → exec lists m c = none) ∧
        ∀ S' r, apply S c = some (S', r) →
          ∃ m', exec lists m c = some (m', r) ∧ Agrees lists m' S' := by
  have hrep := rep_run h0 h
  refine ⟨hrep.agrees, fun c hc => ⟨fun hnone => ?_, fun S' r happly => ?_⟩⟩
  · rcases exec_apply hrep hc with ⟨-, hexec⟩ | ⟨m', S', r, happly, -⟩
    · exact hexec
    · rw [hnone] at happly
      cases happly
  · rcases exec_apply hrep hc with ⟨hnone, -⟩ | ⟨m', T, x, happly', hexec, hrep'⟩
    · rw [hnone] at happly
      cases happly
    · obtain ⟨rfl, rfl⟩ := Prod.mk.inj (Option.some.inj (happly.symm.trans happly'))
      exact ⟨m', hexec, hrep'.agrees⟩

/-- Two lists. -/
def two : Bool → ListT
  | false => ⟨1, 2⟩
  | true => ⟨3, 4⟩

/-- Null links everywhere. -/
def null : Memory := ⟨fun _ => none, fun _ => none⟩

theorem init_two : Init two (listInit (listInit null (two false)) (two true)) := by
  refine ⟨fun i => ?_, fun a ha => ?_, ?_, ?_, ?_⟩
  · cases i <;> simp [listInit, setPrev, setNext, two, null, funext_iff, Function.update_apply] <;> grind
  · have h1 := ha false
    have h2 := ha true
    simp only [two] at h1 h2
    simp only [listInit, setPrev, setNext, null, two, Function.update_apply]
    grind
  · decide
  · decide
  · decide

/-- Nodes go into two lists, next to each other and at the ends, and two of them come out. -/
theorem list_calls_two : ∃ m S,
    Run (Step two) (listInit (listInit null (two false)) (two true), fun _ => [])
      [.push false 8, .pushback false 9, .push true 7, .insertAfter 8 10, .remove 9, .pop false]
      (m, S) ∧ S false = [10] ∧ S true = [7] ∧
    Agrees two m S ∧ ∀ c, Legal two S c →
      (apply S c = none → exec two m c = none) ∧
        ∀ S' r, apply S c = some (S', r) →
          ∃ m', exec two m c = some (m', r) ∧ Agrees two m' S' := by
  obtain ⟨m₁, h₁, hrep⟩ := (rep_init init_two).step (c := .push false 8) (by unfold Legal Loose; decide) rfl
  obtain ⟨m₂, h₂, hrep⟩ := hrep.step (c := .pushback false 9) (by unfold Legal Loose; decide) rfl
  obtain ⟨m₃, h₃, hrep⟩ := hrep.step (c := .push true 7) (by unfold Legal Loose; decide) rfl
  obtain ⟨m₄, h₄, hrep⟩ := hrep.step (c := .insertAfter 8 10) (by unfold Legal Loose; decide) rfl
  obtain ⟨m₅, h₅, hrep⟩ := hrep.step (c := .remove 9) (by unfold Legal; decide) rfl
  obtain ⟨m₆, h₆, hrep⟩ := hrep.step (c := .pop false) trivial rfl
  have hstart : Run (Step two) (listInit (listInit null (two false)) (two true), fun _ => []) []
      (listInit (listInit null (two false)) (two true), fun _ => []) := Run.nil
  have hrun := hstart.snoc h₁ |>.snoc h₂ |>.snoc h₃ |>.snoc h₄ |>.snoc h₅ |>.snoc h₆
  exact ⟨m₆, _, hrun, by decide, by decide, list_calls init_two hrun⟩

end Sequences

section Queue

variable {list : ListT} {m₀ m : Memory} {q q' : Queue} {c : QueueCall} {cs : List QueueCall}

theorem listPopback_no_value {x : Memory × Option Addr} (h : listPopback m list = some x) :
    x.2 = none := by
  unfold listPopback at h
  split at h
  · cases h
  · split at h
    · cases h
    · obtain ⟨m', -, rfl⟩ := Option.map_eq_some_iff.mp h
      rfl

theorem evict_eq_none (m : Memory) (list : ListT) (chain : Addr → ListT) :
    evict m list chain = none := by
  unfold evict
  split
  · rename_i heq
    cases listPopback_no_value heq
  · rfl

/-- The list holds the waiting nodes, the latest first; no value was ever returned. -/
structure Waits (list : ListT) (cs : List QueueCall) (q : Queue) : Prop where
  rep : Rep (fun _ : Unit => list) q.memory fun _ => q.waiting.reverse
  returned : q.returned = List.replicate (cs.count .popback) none
  length : q.returned.length ≤ q.pushed.length

theorem waits_step (h : Waits list cs q) (hs : QueueStep list q c q') :
    Waits list (cs ++ [c]) q' := by
  obtain ⟨hc, hexec⟩ := hs
  cases c with
  | push node =>
    have hloose : Loose (fun _ : Unit => list) (fun _ => q.waiting.reverse) node := by
      intro i
      rw [List.mem_reverse]
      exact hc node rfl
    obtain ⟨m', hpush, rfl⟩ := Option.map_eq_some_iff.mp hexec
    have hwaiting : (q.pushed ++ [node]).drop q.returned.length = q.waiting ++ [node] := by
      rw [List.drop_append_of_le_length h.length]
      rfl
    rcases exec_apply h.rep (c := .push () node) hloose with ⟨hnone, -⟩ | ⟨m₂, S, r, happly, hcall, hrep⟩
    · cases hnone
    · refine ⟨?_, ?_, ?_⟩
      · change (listPush q.memory list node).map (fun m => (m, none)) = some (m₂, r) at hcall
        rw [hpush] at hcall
        cases hcall
        cases happly
        convert hrep using 2
        rename_i i
        cases i
        rw [Function.update_self]
        change ((q.pushed ++ [node]).drop q.returned.length).reverse = _
        rw [hwaiting, List.reverse_append]
        rfl
      · rw [List.count_append]
        exact h.returned
      · rw [List.length_append]
        exact Nat.le_add_right_of_le h.length
  | popback =>
    obtain ⟨x, hpop, rfl⟩ := Option.map_eq_some_iff.mp hexec
    have hnonempty : q.waiting ≠ [] := by
      intro hnil
      have hempty := (h.rep.empty ()).mpr (by simp [hnil])
      unfold listPopback at hpop
      rw [if_pos hempty] at hpop
      cases hpop
    obtain ⟨old, rest, hold⟩ := List.exists_cons_of_ne_nil hnonempty
    have hS : q.waiting.reverse = rest.reverse ++ [old] := by
      rw [hold, List.reverse_cons]
    obtain ⟨m', hcall, hrep⟩ := h.rep.popback (i := ()) hS
    have hlength : q.returned.length < q.pushed.length := by
      have := congrArg List.length hold
      rw [Queue.waiting, List.length_drop, List.length_cons] at this
      omega
    rw [hcall] at hpop
    cases hpop
    refine ⟨?_, ?_, ?_⟩
    · convert hrep using 2
      rename_i i
      cases i
      rw [Function.update_self]
      change (q.pushed.drop (q.returned ++ [none]).length).reverse = _
      rw [List.length_append, List.length_singleton, ← List.drop_drop]
      change (q.waiting.drop 1).reverse = _
      rw [hold]
      rfl
    · rw [List.count_append, h.returned]
      simp [List.replicate_succ']
    · rw [List.length_append]
      exact hlength

theorem waits_run (h0 : Init (fun _ : Unit => list) m₀)
    (h : Run (QueueStep list) ⟨m₀, [], []⟩ cs q) : Waits list cs q := by
  induction h with
  | nil => exact ⟨rep_init h0, rfl, le_refl _⟩
  | snoc _ hs ih => exact waits_step ih hs

/-- The nodes leave the list in the order in which they were pushed, but nothing is returned
for any of them: the queue gives what was pushed first exactly as long as it gives nothing,
and the end of `get_free_buffer` never has a buffer. -/
theorem popback_fifo_iff (h0 : Init (fun _ : Unit => list) m₀)
    (h : Run (QueueStep list) ⟨m₀, [], []⟩ cs q) :
    (q.Fifo ↔ QueueCall.popback ∉ cs) ∧
      (∀ k, q.waiting.length < k →
        Links.chase q.memory.next k list.head = q.waiting.reverse ++ [list.tail]) ∧
      ∀ chain, evict q.memory list chain = none := by
  have hw := waits_run h0 h
  refine ⟨⟨fun hfifo hmem => ?_, fun hmem => ?_⟩, fun k hk => ?_, evict_eq_none q.memory list⟩
  · have hpos := List.count_pos_iff.mpr hmem
    have hnone : none ∈ q.returned := by
      rw [hw.returned]
      exact List.mem_replicate.mpr ⟨Nat.ne_of_gt hpos, rfl⟩
    rw [hfifo, List.mem_map] at hnone
    obtain ⟨node, -, hnode⟩ := hnone
    cases hnode
  · have hzero := List.count_eq_zero.mpr hmem
    have hnil : q.returned = [] := by rw [hw.returned, hzero]; rfl
    simp [Queue.Fifo, hnil]
  · exact hw.rep.agrees.next () k (by simpa using hk)

/-- A list of its own. -/
def one : ListT := ⟨1, 2⟩

theorem init_one : Init (fun _ : Unit => one) (listInit null one) := by
  refine ⟨fun i => ?_, fun a ha => ?_, ?_, ?_, ?_⟩
  · simp [listInit, setPrev, setNext, one, null, funext_iff, Function.update_apply]
    grind
  · have h1 := ha ()
    simp only [one] at h1
    simp only [listInit, setPrev, setNext, null, one, Function.update_apply]
    grind
  · decide
  · decide
  · decide

theorem run_push_popback : ∃ q,
    Run (QueueStep one) ⟨listInit null one, [], []⟩ [.push 8, .push 9, .popback] q ∧
      q.pushed = [8, 9] ∧ q.returned = [none] := by
  have h₈ : ∀ node, QueueCall.push 8 = .push node →
      node ≠ one.head ∧ node ≠ one.tail ∧ node ∉ (⟨listInit null one, [], []⟩ : Queue).waiting := by
    intro node hn
    cases hn
    decide
  have h₉ : ∀ m node, QueueCall.push 9 = .push node →
      node ≠ one.head ∧ node ≠ one.tail ∧ node ∉ (⟨m, [8], []⟩ : Queue).waiting := by
    intro m node hn
    cases hn
    simp [one, Queue.waiting]
  refine ⟨_, Run.nil |>.snoc ⟨h₈, rfl⟩ |>.snoc ⟨h₉ _, rfl⟩ |>.snoc ⟨fun node hn => ?_, rfl⟩, rfl, rfl⟩
  cases hn

/-- Of two nodes the one pushed first should come back, and nothing does. -/
theorem popback_lost : ∃ q,
    Run (QueueStep one) ⟨listInit null one, [], []⟩ [.push 8, .push 9, .popback] q ∧
      q.pushed = [8, 9] ∧ ¬ q.Fifo := by
  obtain ⟨q, hrun, hpushed, hreturned⟩ := run_push_popback
  refine ⟨q, hrun, hpushed, fun hfifo => ?_⟩
  rw [Queue.Fifo, hpushed, hreturned] at hfifo
  cases hfifo

theorem popback_fifo_two : ∃ q,
    Run (QueueStep one) ⟨listInit null one, [], []⟩ [.push 8, .push 9, .popback] q ∧
      (q.Fifo ↔ QueueCall.popback ∉ [QueueCall.push 8, .push 9, .popback]) ∧
      (∀ k, q.waiting.length < k →
        Links.chase q.memory.next k one.head = q.waiting.reverse ++ [one.tail]) ∧
      ∀ chain, evict q.memory one chain = none := by
  obtain ⟨q, hrun, -⟩ := run_push_popback
  exact ⟨q, hrun, popback_fifo_iff init_one hrun⟩

end Queue

end Onix.Lists
