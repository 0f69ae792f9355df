import Onix.Proofs.Memory
import Onix.Spec.CopyOut

/-! Copy on write and the kernel: a copy into a user buffer is seen by every process that
shares the page. -/

namespace Onix.Memory

open Function Code Outcome

variable {s s' : State} {as : List CallAct} {a : CallAct} {size t u f v vaddr : ℕ} {garbage : ℕ → Page}
  {task : TaskT} {map : BitmapT} {word : PageEntryT} {b : Bool}

/-- What the callers see to; a buffer is in user memory. -/
def CalledCopy (s : State) : CallAct → Prop
  | .act a => Called false s a
  | .copy vaddr _ => s.RunningTask (fun task => task.vmap.isSome) ∧ UserAddr vaddr

instance (s : State) (a : CallAct) : Decidable (CalledCopy s a) := by
  cases a <;> unfold CalledCopy <;> infer_instance

/-- No other process than the running one sees a difference. -/
def Unseen (s s' : State) : Prop :=
  ∀ t, t ≠ s.running → ∀ a, UserAddr a → s'.read t a = s.read t a

/-- The address is on a page that another process shares, and the word there differs. -/
def Exposed (s : State) (vaddr : ℕ) (word : PageEntryT) : Prop :=
  ∃ r ∈ s.lookup s.cr3 vaddr, r.2.write = false ∧ 1 < s.memoryMap r.2.index.toNat ∧
    s.page r.2.index.toNat (vaddr / 4 % 1024) ≠ word

theorem Private.unseen (h : Inv s) (hp : Private s s') : Unseen s s' := by
  intro t ht a ha
  rw [read_eq hp.inv t ha, read_eq h t ha, hp.view t ht]

/-- A word of user data is no part of the tables. -/
theorem Inv.setWord (h : Inv s) (hused : Used s s.spaces f) (i : ℕ) (word : PageEntryT) :
    Inv (s.setEntry f i word) ∧ (s.setEntry f i word).sharing.map = s.sharing.map := by
  have hl := h.layout
  have hge := (hl.used f hused).1
  have hpage := hl.setPage (update (s.page f) i word) (f := f) (by omega)
    (fun hlt => by omega) fun t i ht => (hl.table t i f ht).2.2.2 hused
  exact h.congr (s.setEntry f i word) rfl rfl rfl hpage

/-- What a process reads after a word of user data has changed. -/
theorem read_setWord (h : Inv s) (hused : Used s s.spaces f) (i : ℕ) (word : PageEntryT) (t : ℕ)
    (hu : UserAddr vaddr) : (s.setEntry f i word).read t vaddr =
      (s.sharing.map t (idx vaddr)).map fun e =>
        if e.1 = f ∧ vaddr / 4 % 1024 = i then word else s.page e.1 (vaddr / 4 % 1024) := by
  obtain ⟨hinv, hmap⟩ := h.setWord hused i word
  rw [read_eq hinv t hu]
  unfold Cow.view
  rw [hmap, Option.map_map]
  congr 1
  funext e
  by_cases hf : e.1 = f
  · by_cases hi : vaddr / 4 % 1024 = i
    · simp [State.sharing, State.cow, State.setEntry, State.setPage, hf, hi]
    · simp [State.sharing, State.cow, State.setEntry, State.setPage, hf, hi]
  · simp [State.sharing, State.cow, State.setEntry, State.setPage, hf]

theorem read_map (h : Inv s) (t : ℕ) (hu : UserAddr vaddr) :
    s.read t vaddr = (s.sharing.map t (idx vaddr)).map fun e => s.page e.1 (vaddr / 4 % 1024) := by
  rw [read_eq h t hu]
  unfold Cow.view
  rw [Option.map_map]
  rfl

/-- A frame that is counted twice is on the same page of another process. -/
theorem shared_other (h : Inv s) (hm : s.sharing.map t v = some (f, b)) (hc : 1 < s.memoryMap f) :
    ∃ u, u ≠ t ∧ ∃ b', s.sharing.map u v = some (f, b') := by
  have hx : (t, v) ∈ s.sharing.uses f := Cow.mem_uses hm
  rw [h.layout.cow.count f ⟨_, hx⟩] at hc
  obtain ⟨⟨u, w⟩, hy, hne⟩ := Set.exists_ne_of_one_lt_ncard hc (t, v)
  obtain rfl : w = v := h.layout.cow.aligned f _ hy _ hx
  refine ⟨u, fun hu => hne (by rw [hu]), hy⟩

/-- A word stored through an entry is unseen unless it is on a shared page and differs. -/
theorem unseen_setEntry (h : Inv s) (hu : UserAddr vaddr)
    (hm : s.sharing.map s.running (idx vaddr) = some (f, b)) :
    Unseen s (s.setEntry f (vaddr / 4 % 1024) word) ↔
      ¬ (b = false ∧ 1 < s.memoryMap f ∧ s.page f (vaddr / 4 % 1024) ≠ word) := by
  have hused : Used s s.spaces f := ⟨_, Cow.mem_uses hm⟩
  constructor
  · rintro hseen ⟨-, hc, hne⟩
    obtain ⟨u, hur, b', hm'⟩ := shared_other h hm hc
    have := hseen u hur vaddr hu
    rw [read_setWord h hused _ word u hu, read_map h u hu, hm'] at this
    simp only [Option.map_some, and_self, if_true, Option.some.injEq] at this
    exact hne this.symm
  · intro hno t ht a ha
    rw [read_setWord h hused _ word t ha, read_map h t ha]
    cases hma : s.sharing.map t (idx a) with
    | none => rfl
    | some e =>
      rw [Option.map_some, Option.map_some]
      split_ifs with hf
      · obtain ⟨hf, hi⟩ := hf
        obtain ⟨g, b'⟩ := e
        obtain rfl : g = f := hf
        have hx : (t, idx a) ∈ s.sharing.uses g := Cow.mem_uses hma
        have hy : (s.running, idx vaddr) ∈ s.sharing.uses g := Cow.mem_uses hm
        have hpos := h.layout.cow.pos hx
        have hsole : ¬ s.memoryMap g = 1 := fun h1 =>
          ht (Prod.mk.inj (h.layout.cow.eq_of_one h1 hx hy)).1
        have hb : b = false := by
          cases b with
          | false => rfl
          | true => exact absurd (h.layout.cow.one_of_write hm) hsole
        by_contra hne
        exact hno ⟨hb, by omega, by rw [← hi]; exact fun heq => hne (by rw [heq])⟩
      · rfl

theorem kernelStore_spec (h : Inv s) (hr : Runs s task map) (hu : UserAddr vaddr) {r : Unit × State}
    (hk : kernelStore vaddr word s = .next r) :
    Inv r.2 ∧ (Unseen s r.2 ↔ ¬ Exposed s vaddr word) := by
  obtain ⟨hsp, -, -⟩ := h.of_runs hr
  have hcr3 := h.cr3 task hr.run
  unfold kernelStore at hk
  cases hl : s.lookup s.cr3 vaddr with
  | none =>
    rw [hl] at hk
    have hp : Private s r.2 := (pageFault_absent h hr hu.1 hu.2 true).of_next hk
    refine ⟨hp.inv, iff_of_true (hp.unseen h) ?_⟩
    rintro ⟨e, he, -⟩
    simp [hl] at he
  | some e =>
    rw [hl] at hk
    have hwp : writeProtect = false := by decide
    simp only [hwp, Bool.false_and, Bool.false_eq_true, if_false] at hk
    obtain rfl := next.inj hk
    rw [hcr3] at hl
    obtain ⟨-, hmap⟩ := lookup_some (l := e.1) (e := e.2) h hsp hu hl
    refine ⟨(h.setWord ⟨_, Cow.mem_uses hmap⟩ _ _).1, ?_⟩
    rw [unseen_setEntry h hu hmap]
    unfold Exposed
    rw [hcr3, hl]
    simp

theorem call_inv (h : Inv s) (hc : CalledCopy s a) (hstep : CallStep s a s') : Inv s' := by
  cases a with
  | act a => exact (exec_inv h hc).of_next hstep
  | copy vaddr word =>
    obtain ⟨hr, hu⟩ := hc
    obtain ⟨task, map, hr⟩ := runs_of_user hr
    obtain ⟨r, hk, hs⟩ := andThen_eq_next.mp hstep
    obtain rfl := next.inj hs
    exact (kernelStore_spec h hr hu hk).1

end Onix.Memory
