import Onix.Sanity.IdeInv

/-! The disks behind a controller, whatever its tasks, its drives and its interrupts do when: the calls are
served one after the other, and each that has begun can end. -/

namespace Onix.Ide

open Function Ata

variable {τ : Type*} [DecidableEq τ] {s t u : State τ} {v : τ} {a : Call} {as : List (Act τ)}
  {d disk : Bool → ℕ → Sector} {c : Channel} {pc : Pc}

omit [DecidableEq τ] in
theorem init_inv (h : Init s) : Inv s.channel.disk s :=
  ⟨h.prompt, fun v _ => .inl (h.pc v), s.channel.disk, by rw [h.served]; exact .nil,
    .resting h.holder h.idle rfl h.waiter⟩

theorem run_inv (hi : Inv disk s) (h : Run (Guarded Proper Step) s as t) : Inv disk t :=
  h.invariant (fun _ act _ hi hstep => (exec_all hi act hstep.1).of_next hstep.2) hi

/-- The call writes sector `k` of a disk. -/
def Call.Writes (a : Call) (slave : Bool) (k : ℕ) : Prop :=
  ∃ buf, a.io = .write buf ∧ a.slave = slave ∧ a.lba ≤ k ∧ k < a.lba + buf.length

theorem written_apply {slave : Bool} {lba k : ℕ} {b : Bool} {buf : List Sector}
    (h : ¬ (b = slave ∧ lba ≤ k ∧ k < lba + buf.length)) : written d slave lba buf b k = d b k := by
  unfold written
  split_ifs with hk
  · have hge : lba + buf.length ≤ k := by
      by_contra hlt
      exact h ⟨hk.1, hk.2, by omega⟩
    rw [List.getElem?_eq_none (by omega)]
    rfl
  · rfl

/-- The sectors written so far are among those that the call writes. -/
theorem written_keeps {slave : Bool} {lba n k : ℕ} {b : Bool} {buf : List Sector}
    (hw : ¬ Call.Writes ⟨slave, lba, .write buf⟩ b k) : written d slave lba (buf.take n) b k = d b k := by
  refine written_apply fun ⟨hb, hle, hlt⟩ => hw ⟨buf, rfl, hb.symm, hle, ?_⟩
  rw [List.length_take] at hlt
  exact hlt.trans_le (Nat.add_le_add_left (min_le_right _ _) lba)

/-- A transfer changes nothing but the sectors that it writes. -/
theorem Serving.keeps (h : Serving d c pc) : ∃ a, pc.transfer = some a ∧
    ∀ b k, ¬ a.Writes b k → c.disk b k = d b k := by
  cases h with
  | fetching hn hp hd => exact ⟨_, rfl, fun b k _ => by rw [hd]⟩
  | sending hn hp hd => exact ⟨_, rfl, fun b k _ => by rw [hd]⟩
  | storing hs hp hd => exact ⟨_, rfl, fun b k hw => by rw [hd, written_keeps hw]⟩
  | stored hn hp hd => exact ⟨_, rfl, fun b k hw => by rw [hd, written_keeps hw]⟩

/-- In every run no assertion fails, no task waits for a status that does not come and no word is moved that
the drive does not have or take. The calls that are over have been served one after the other, each read with
what was on the disk; a sector that no write in progress is for holds what these leave. A task that is
blocked has an interrupt coming. -/
theorem transfers_served (h₀ : Init s) (h : Run (Guarded Proper Step) s as t) :
    (∀ act, Proper t act → exec t act ≠ .failed) ∧
    (∃ d, Serves s.channel.disk t.served d ∧ ∀ b k,
      (∀ v a, t.holder = some v → (t.pc v).transfer = some a → ¬ a.Writes b k) → t.channel.disk b k = d b k) ∧
    ∀ v, (t.pc v).transfer.isSome → t.ready v = false →
      t.waiter = some v ∧ (t.channel.busy = true ∨ t.channel.intrq = true) := by
  have hi := run_inv (init_inv h₀) h
  refine ⟨fun act hp => (exec_all hi act hp).ne_failed, ?_, fun v hv hr => ?_⟩
  · obtain ⟨d, hd, hat⟩ := hi.served
    refine ⟨d, hd, fun b k hw => ?_⟩
    cases hat with
    | resting hh hidle hdisk => rw [hdisk]
    | moving v hh hserving =>
      obtain ⟨a, ha, hsame⟩ := hserving.keeps
      exact hsame b k (hw v a hh ha)
  · obtain ⟨d, -, -, hblocked, -⟩ := hi.moving (hi.holder_of_pc (not_outside hv))
    exact hblocked hr

/-- 256 times the word `w`. -/
def sectorOf (w : Word) : Sector := ⟨List.replicate 256 w, List.length_replicate⟩

/-- A controller at rest, with zeros on its disks. -/
def start : State ℕ where
  channel :=
    { disk := fun _ _ => sectorOf 0, prompt := true, count := 0, lbaLow := 0, lbaMid := 0, lbaHigh := 0
      device := 0, phase := .idle, intrq := false }
  holder := none
  waiter := none
  pc _ := .out
  ready _ := true
  served := []

/-- Task 0 writes a sector of the slave; task 1, which called before it was done, reads it. -/
def writeRead : List (Act ℕ) :=
  [.call 0 ⟨true, 7, .write [sectorOf 5]⟩, .acquire 0, .call 1 ⟨true, 7, .read 1⟩, .drive, .interrupt,
    .resume 0, .acquire 1, .drive, .interrupt, .resume 1]

theorem transfers_served_writeRead : ∃ t, Run (Guarded Proper Step) start writeRead t ∧
    t.served.map Served.got = [[], [List.replicate 256 5]] ∧ ∃ d, Serves start.channel.disk t.served d := by
  obtain ⟨t, ht, hp⟩ := run_of_play Proper exec start writeRead
    (fun t => decide (t.served.map Served.got = [[], [List.replicate 256 5]])) (by decide +kernel)
  have hinit : Init start := ⟨rfl, rfl, rfl, rfl, fun _ => rfl, rfl⟩
  obtain ⟨-, ⟨d, hd, -⟩, -⟩ := transfers_served hinit ht
  exact ⟨t, ht, of_decide_eq_true hp, d, hd⟩

end Onix.Ide
