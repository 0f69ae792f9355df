import Onix.Sanity.IgetInv

/-! `iget` and `iput` by many tasks: every inode that `iget` has returned points into a
loaded buffer, unless a call finds a slot whose descriptor is still being read. -/

namespace Onix.Iget

open Function Outcome

variable {τ ι β : Type*} {s s' : State τ ι β} {as : List (Act τ ι β)}

/-- A call of `iget` that has begun and whose inode has not been put back. -/
def State.Live (s : State τ ι β) (c : Call ι) : Prop :=
  (∃ t, (s.pc t).call = some c) ∨ ∃ t, (t, c) ∈ s.refs

/-- Every inode that `iget` has returned is loaded, and calls that overlap and ask for the
same inode have one slot. -/
structure Sound (s : State τ ι β) : Prop where
  loaded : ∀ t c, (t, c) ∈ s.refs → Loaded s c
  same : ∀ c d, s.Live c → s.Live d → c.dev = d.dev → c.nr = d.nr → c.inode = d.inode

/-- No call of `iget` finds a slot that another task is still in `bread` for, nor one that
has as many users as `count` can tell. -/
def Apart (s : State τ ι β) : Act τ ι β → Prop
  | .iget _ dev nr _ _ => ∀ i ∈ s.findInode dev nr,
    ¬ s.Loading i ∧ (s.inode i).count + 1 < 2 ^ 32
  | _ => True

variable [DecidableEq ι]

theorem sound_of_inv (hi : Inv s) : Sound s := by
  have hnames : ∀ c, s.Live c → Names s c := by
    rintro c (⟨t, hc⟩ | ⟨t, hr⟩)
    · exact (hi.call t c hc).1
    · exact (hi.ref _ hr).1
  refine ⟨fun t c hr => ?_, fun c d hc hd => hi.same (hnames c hc) (hnames d hd)⟩
  exact hi.loaded c (hi.ref _ hr).1 (hi.ref _ hr).2

variable [DecidableEq τ] [DecidableEq β]

theorem inv_iget {t : τ} {dev nr : ℕ} {i : ι} {free : Option β} (hi : Inv s)
    (hc : Apart s (.iget t dev nr i free)) (h : Step s (.iget t dev nr i free) s') : Inv s' := by
  obtain ⟨ht, h⟩ := guard_eq_next.mp h
  cases hf : s.findInode dev nr with
  | some j =>
    rw [hf] at h
    obtain rfl := next.inj h
    obtain ⟨hl, hlt⟩ := hc j hf
    exact inv_found hi hf hl hlt
  | none =>
    rw [hf] at h
    obtain ⟨-, h⟩ := assert_eq_next.mp h
    obtain ⟨hfree, h⟩ := guard_eq_next.mp h
    obtain ⟨-, h⟩ := assert_eq_next.mp h
    have hp : Inv (published s t ⟨dev, nr, i⟩) :=
      inv_published hi (of_decide_eq_true ht) (by simpa using hfree) hf
    refine inv_bread hp (c := ⟨dev, nr, i⟩) ?_ (bread_goto.trans h)
    simp [published, State.goto, Pc.call]

theorem inv_iput {t : τ} {c : Call ι} (hi : Inv s) (h : Step s (.iput t c) s') : Inv s' := by
  obtain ⟨hg, h⟩ := guard_eq_next.mp h
  obtain ⟨-, hr⟩ := of_decide_eq_true hg
  obtain ⟨hn, hl⟩ := hi.ref _ hr
  have hpos : 1 ≤ (s.inode c.inode).count := by
    rw [hi.count c.inode hl]
    exact List.countP_pos_iff.mpr ⟨(t, c), hr, by simp⟩
  have hput := inv_put hi hr
  dsimp only at h
  cases hb : (s.inode c.inode).buf with
  | none =>
    rw [hb] at h
    exact nomatch h
  | some b =>
    rw [hb] at h
    dsimp only at h
    rw [sub32_of_le hpos] at h
    rw [← hb] at h
    split_ifs at h with hne
    · obtain rfl := next.inj h
      exact hput
    · exact inv_putInode hput (names_recount.mpr hn) hl (by simpa [recount, State.setInode] using hb)
        (by simpa [recount, State.setInode] using hne) h

theorem inv_step {a : Act τ ι β} (hi : Inv s) (hc : Apart s a) (h : Step s a s') : Inv s' := by
  cases a with
  | iget t dev nr i free => exact inv_iget hi hc h
  | wake t b =>
    unfold Step exec at h
    cases hp : s.pc t with
    | waiting c =>
      simp only [hp] at h
      obtain ⟨hb, h⟩ := guard_eq_next.mp h
      obtain rfl := next.inj h
      exact inv_takeBuffer hi (by simp [hp, Pc.call]) (of_decide_eq_true hb)
    | _ => simp [hp] at h
  | lock t =>
    unfold Step exec at h
    cases hp : s.pc t with
    | locking c b =>
      simp only [hp] at h
      obtain ⟨-, h⟩ := guard_eq_next.mp h
      obtain rfl := next.inj h
      have hcall : (s.pc t).call = some c := by simp [hp, Pc.call]
      exact inv_lockBuffer hi hcall (hi.busy t c b hcall (by simp [hp, Pc.buf]))
    | _ => simp [hp] at h
  | done t =>
    unfold Step exec at h
    cases hp : s.pc t with
    | reading c b =>
      simp only [hp] at h
      obtain rfl := next.inj h
      have hcall : (s.pc t).call = some c := by simp [hp, Pc.call]
      have hh := hi.busy t c b hcall (by simp [hp, Pc.buf])
      have hk : s.holders b ≠ [] →
          Kept s b { s.buffer b with valid := true, lock := false } (s.holders b) :=
        fun _ => ⟨rfl, rfl, fun _ => rfl, fun _ h _ => h⟩
      rw [set_eq_rehold]
      exact inv_finish (inv_rehold _ hi hk (hi.holders b)) hcall
        (holds_rehold hk (hi.call t c hcall).1 hh).1 (by simp [rehold, State.set])
    | _ => simp [hp] at h
  | iput t c => exact inv_iput hi h

/-- In every run in which no call of `iget` finds a slot that another task is still reading,
every inode returned has `desc` at its descriptor in a valid buffer that it holds, and
overlapping calls for one inode return one slot. -/
theorem iget_loaded (h₀ : Init s) (h : Run (Guarded Apart Step) s as s') : Sound s' :=
  sound_of_inv (h.invariant (fun _ _ _ hi hs => inv_step hi hs.1 hs.2) (inv_init h₀))

instance [Fintype τ] (s : State τ ι β) (i : ι) : Decidable (s.Loading i) :=
  inferInstanceAs (Decidable (∃ t, (s.pc t).call.map Call.inode = some i))

instance [Fintype τ] (s : State τ ι β) (a : Act τ ι β) : Decidable (Apart s a) := by
  cases a <;> unfold Apart <;> infer_instance

/-- Two tasks, slots and buffers. -/
def start : State Bool Bool Bool where
  sb _ := ⟨64, 1, 1, []⟩
  inode _ := ⟨none, 0, 0, none, none⟩
  buffer _ := ⟨0, 0, 0, false, false⟩
  chain := []
  pc _ := .out
  refs := []
  holders _ := []

theorem init_start : Init start := ⟨fun _ => rfl, fun _ => ⟨rfl, rfl⟩, fun _ => rfl, fun _ => rfl, rfl,
  fun _ => rfl⟩

/-- The second task waits for the block that the first one reads, and finds the inode of
the first when it has been read. -/
theorem iget_loaded_oneBlock : ∃ s, Run (Guarded Apart Step) start
    [.iget true 3 5 true (some true), .iget false 3 9 false none, .done true, .lock false,
      .iget false 3 5 false none, .iput true ⟨3, 5, true⟩] s ∧
    s.refs = [(false, ⟨3, 5, true⟩), (false, ⟨3, 9, false⟩)] ∧ Sound s := by
  obtain ⟨s, hs, hp⟩ := run_of_play Apart exec start
    [.iget true 3 5 true (some true), .iget false 3 9 false none, .done true, .lock false,
      .iget false 3 5 false none, .iput true ⟨3, 5, true⟩]
    (fun s => s.refs == [(false, ⟨3, 5, true⟩), (false, ⟨3, 9, false⟩)]) (by decide +kernel)
  exact ⟨s, hs, by simpa using hp, iget_loaded init_start hs⟩

/-- The second task asks for the inode that the first one reads, and gets it without a
descriptor. -/
theorem iget_unread : ¬ ∀ (as : List (Act Bool Bool Bool)) (s : State Bool Bool Bool),
    Run Step start as s → Sound s := by
  intro h
  obtain ⟨s, hs, hp⟩ := run_of_play (fun _ _ => True) exec start
    [.iget true 3 5 true (some true), .iget false 3 5 true none]
    (fun s => s.refs == [(false, ⟨3, 5, true⟩)] && (s.inode true).desc == none) (by decide +kernel)
  simp only [Bool.and_eq_true, beq_iff_eq] at hp
  obtain ⟨b, hdesc, -⟩ := (h _ s hs.of_guarded).loaded false ⟨3, 5, true⟩ (by simp [hp.1])
  rw [hp.2] at hdesc
  cases hdesc

end Onix.Iget
