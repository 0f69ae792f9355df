import Onix.Spec.Ide

/-! The channel and the tasks of a controller in the middle of a transfer, and what each step makes
of them. -/

namespace Onix.Ide

open Function Ata

variable {τ : Type*} [DecidableEq τ] {c : Channel} {d : Bool → ℕ → Sector} {slave : Bool}
  {lba n k : ℕ} {count cmd mask : BitVec 8} {buf : List Sector} {x : Transfer}

theorem reached_of_status {v : BitVec 8} (hv : c.status = v) (h : v &&& IDE_SR_BSY = 0 ∧ v &&& mask = mask) :
    ideBusyWait.reached mask c = true := by
  unfold ideBusyWait.reached
  rw [hv, h.1, h.2]
  simp

/-- The status has come to what is waited for. -/
theorem busyWait_ready {v : BitVec 8} (hv : c.status = v) (h : v &&& IDE_SR_BSY = 0 ∧ v &&& mask = mask) :
    ideBusyWait mask c = some c := if_pos (reached_of_status hv h)

/-- The drive gets there by itself. -/
theorem busyWait_busy {c' : Channel} (hf : c.finish = some c') (h : ideBusyWait.reached mask c' = true) :
    ideBusyWait mask c = some c' := by
  have hnot : ¬ ideBusyWait.reached mask c = true := by
    unfold ideBusyWait.reached
    rw [Channel.status_of_finish hf]
    simp [IDE_SR_BSY]
  unfold ideBusyWait
  rw [if_neg hnot, hf, Option.bind_eq_bind, Option.bind_some, if_pos h]

section Registers

/-- The channel with the registers that `ide_select_sector` writes. -/
def addressed (slave : Bool) (lba : BitVec 32) (count : BitVec 8) (c : Channel) : Channel :=
  { c with
    count := count
    lbaLow := (lba &&& 0xff).setWidth 8
    lbaMid := ((lba >>> 8) &&& 0xff).setWidth 8
    lbaHigh := ((lba >>> 16) &&& 0xff).setWidth 8
    device := ((lba >>> 24) &&& 0xf).setWidth 8 ||| selector slave }

theorem ideCommand_idle (h : c.phase = .idle) (lba : BitVec 32) :
    ideCommand slave lba count cmd c = (addressed slave lba count c).command cmd := by
  have hout : ∀ (c : Channel) (port : ℕ) (value : BitVec 8), c.phase = .idle → c.outb port value =
      ({ c with phase := .idle } : Channel).outb port value := fun c port value h => by
    rw [← h]
  have hwait : ideBusyWait IDE_SR_DRDY { c with phase := .idle, device := selector slave } =
      some { c with phase := .idle, device := selector slave } := busyWait_ready (v := 0x50) rfl (by decide)
  unfold ideCommand ideSelectDrive
  rw [hout c _ _ h]
  change (ideBusyWait IDE_SR_DRDY { c with phase := .idle, device := selector slave }).bind _ = _
  rw [hwait]
  have hc : addressed slave lba count c = addressed slave lba count { c with phase := .idle } := by rw [← h]
  rw [hc]
  rfl

theorem setWidth_and {v m : BitVec 32} (hm : m.toNat = 2 ^ k - 1) (hk : k ≤ 8) :
    ((v &&& m).setWidth 8).toNat = v.toNat % 2 ^ k := by
  have hle : 2 ^ k ≤ 2 ^ 8 := Nat.pow_le_pow_right (by decide) hk
  have hlt := Nat.mod_lt v.toNat (Nat.two_pow_pos k)
  rw [BitVec.toNat_setWidth, BitVec.toNat_and, hm, Nat.and_two_pow_sub_one_eq_mod,
    Nat.mod_eq_of_lt (by omega)]

/-- The registers say where the transfer is to begin. -/
theorem addressed_transfer (hn : 0 < n) (hn' : n < 2 ^ 8) (hlba : lba < 2 ^ 28) :
    (addressed slave (BitVec.ofNat 32 lba) (BitVec.ofNat 8 n) c).transfer = ⟨slave, lba, n - 1⟩ := by
  have hv : (BitVec.ofNat 32 lba).toNat = lba := by
    rw [BitVec.toNat_ofNat, Nat.mod_eq_of_lt (by omega)]
  have hshift : ∀ i, (BitVec.ofNat 32 lba >>> i).toNat = lba / 2 ^ i := fun i => by
    rw [BitVec.toNat_ushiftRight, hv, Nat.shiftRight_eq_div_pow]
  have hdev : ∀ x : BitVec 4, ∀ slave, (x.setWidth 8 ||| selector slave).toNat % 16 = x.toNat ∧
      (x.setWidth 8 ||| selector slave).getLsbD 4 = slave := by decide
  have hnibble : ((BitVec.ofNat 32 lba >>> 24) &&& 0xf).setWidth 8 =
      ((BitVec.ofNat 32 lba >>> 24).setWidth 4).setWidth 8 := by
    apply BitVec.eq_of_toNat_eq
    rw [setWidth_and (k := 4) (by decide) (by decide), BitVec.toNat_setWidth, BitVec.toNat_setWidth]
    omega
  have hlow : ((BitVec.ofNat 32 lba &&& 0xff).setWidth 8).toNat = lba % 2 ^ 8 := by
    rw [setWidth_and (k := 8) (by decide) le_rfl, hv]
  have hmid : (((BitVec.ofNat 32 lba >>> 8) &&& 0xff).setWidth 8).toNat = lba / 2 ^ 8 % 2 ^ 8 := by
    rw [setWidth_and (k := 8) (by decide) le_rfl, hshift]
  have hhigh : (((BitVec.ofNat 32 lba >>> 16) &&& 0xff).setWidth 8).toNat = lba / 2 ^ 16 % 2 ^ 8 := by
    rw [setWidth_and (k := 8) (by decide) le_rfl, hshift]
  have htop : ((BitVec.ofNat 32 lba >>> 24).setWidth 4).toNat = lba / 2 ^ 24 := by
    rw [BitVec.toNat_setWidth, hshift, Nat.mod_eq_of_lt (by omega)]
  obtain ⟨hdev₁, hdev₂⟩ := hdev ((BitVec.ofNat 32 lba >>> 24).setWidth 4) slave
  unfold Channel.transfer addressed
  simp only [hnibble, hdev₂, hdev₁, hlow, hmid, hhigh, htop, Transfer.mk.injEq, true_and]
  constructor
  · omega
  · bv_omega

theorem ideCommand_read (h : c.phase = .idle) (hn : 0 < n) (hn' : n < 2 ^ 8) (hlba : lba < 2 ^ 28) :
    ideCommand slave (BitVec.ofNat 32 lba) (BitVec.ofNat 8 n) IDE_CMD_READ c =
      some { addressed slave (BitVec.ofNat 32 lba) (BitVec.ofNat 8 n) c with
        phase := .fetching ⟨slave, lba, n - 1⟩ } := by
  have hread := Channel.command_read (c := addressed slave (BitVec.ofNat 32 lba) (BitVec.ofNat 8 n) c)
  rw [addressed_transfer hn hn' hlba] at hread
  exact (ideCommand_idle h _).trans hread

theorem ideCommand_write (h : c.phase = .idle) (hprompt : c.prompt = true) (hn : 0 < n) (hn' : n < 2 ^ 8)
    (hlba : lba < 2 ^ 28) :
    ideCommand slave (BitVec.ofNat 32 lba) (BitVec.ofNat 8 n) IDE_CMD_WRITE c =
      some { addressed slave (BitVec.ofNat 32 lba) (BitVec.ofNat 8 n) c with
        phase := .receiving ⟨slave, lba, n - 1⟩ [] } := by
  have hwrite :=
    Channel.command_write (c := addressed slave (BitVec.ofNat 32 lba) (BitVec.ofNat 8 n) c) hprompt
  rw [addressed_transfer hn hn' hlba] at hwrite
  exact (ideCommand_idle h _).trans hwrite

end Registers

section Disks

theorem written_nil : written d slave lba [] = d := by
  funext b k
  unfold written
  split_ifs <;> rfl

/-- A write to the disk of one more sector. -/
theorem written_take {sector : Sector} (hs : buf[n]? = some sector) :
    update (written d slave lba (buf.take n)) slave
      (update (written d slave lba (buf.take n) slave) (lba + n) sector) =
        written d slave lba (buf.take (n + 1)) := by
  have hlt : n < buf.length := (List.getElem?_eq_some_iff.mp hs).1
  funext b k
  by_cases hb : b = slave
  · subst hb
    rw [update_self]
    by_cases hk : k = lba + n
    · subst hk
      unfold written
      rw [update_self, if_pos ⟨rfl, Nat.le_add_right _ _⟩, Nat.add_sub_cancel_left, List.getElem?_take,
        if_pos (Nat.lt_succ_self n), hs]
      rfl
    · rw [update_of_ne hk]
      unfold written
      by_cases hle : lba ≤ k
      · rw [if_pos ⟨rfl, hle⟩, if_pos ⟨rfl, hle⟩, List.getElem?_take, List.getElem?_take]
        by_cases hlt : k - lba < n
        · rw [if_pos hlt, if_pos (by omega)]
        · rw [if_neg hlt, if_neg (by omega)]
      · rw [if_neg fun h => hle h.2, if_neg fun h => hle h.2]
  · rw [update_of_ne hb]
    unfold written
    rw [if_neg fun h => hb h.1, if_neg fun h => hb h.1]

theorem sectors_succ : sectors d slave lba (n + 1) = sectors d slave lba n ++ [(d slave (lba + n)).1] := by
  unfold sectors
  rw [List.range_succ, List.map_append]
  rfl

theorem sectors_length : (sectors d slave lba n).length = n := by
  unfold sectors
  rw [List.length_map, List.length_range]

end Disks

section Transfers

/-- The channel under the call of a task that waits at `pc`, when the disks held `d` at its start. -/
inductive Serving (d : Bool → ℕ → Sector) (c : Channel) : Pc → Prop where
  | fetching {slave : Bool} {lba n count : ℕ} (hn : n < count)
      (hp : c.phase = .fetching ⟨slave, lba + n, count - 1 - n⟩) (hd : c.disk = d) :
      Serving d c (.reading ⟨slave, lba, .read count⟩ (sectors d slave lba n))
  | sending {slave : Bool} {lba n count : ℕ} (hn : n < count)
      (hp : c.phase = .sending ⟨slave, lba + n, count - 1 - n⟩ (d slave (lba + n)).1) (hd : c.disk = d) :
      Serving d c (.reading ⟨slave, lba, .read count⟩ (sectors d slave lba n))
  | storing {slave : Bool} {lba n : ℕ} {buf : List Sector} {sector : Sector} (hs : buf[n]? = some sector)
      (hp : c.phase = .storing ⟨slave, lba + n, buf.length - 1 - n⟩ sector)
      (hd : c.disk = written d slave lba (buf.take n)) :
      Serving d c (.writing ⟨slave, lba, .write buf⟩ (n + 1))
  | stored {slave : Bool} {lba n : ℕ} {buf : List Sector} (hn : n < buf.length)
      (hp : c.phase =
        (Transfer.next ⟨slave, lba + n, buf.length - 1 - n⟩).elim .idle fun t => .receiving t [])
      (hd : c.disk = written d slave lba (buf.take (n + 1))) :
      Serving d c (.writing ⟨slave, lba, .write buf⟩ (n + 1))

/-- The task is not in a transfer. -/
def Outside (pc : Pc) : Prop := pc = .out ∨ ∃ a : Call, a.Proper ∧ pc = .acquiring a

/-- The controller when the calls that are over have left `d` on the disks. -/
inductive At (d : Bool → ℕ → Sector) (s : State τ) : Prop where
  | resting (holder : s.holder = none) (idle : s.channel.phase = .idle) (disk : s.channel.disk = d)
      (waiter : s.waiter = none)
  | moving (t : τ) (holder : s.holder = some t) (serving : Serving d s.channel (s.pc t))
      (blocked : s.ready t = false → s.waiter = some t ∧ (s.channel.busy = true ∨ s.channel.intrq = true))
      (goes : s.ready t = true → s.waiter = none)

structure Inv (disk : Bool → ℕ → Sector) (s : State τ) : Prop where
  prompt : s.channel.prompt = true
  outside : ∀ t, s.holder ≠ some t → Outside (s.pc t)
  served : ∃ d, Serves disk s.served d ∧ At d s

theorem Serving.finish {pc : Pc} {c' : Channel} (h : Serving d c pc) (hf : c.finish = some c') :
    Serving d c' pc ∧ c'.intrq = true ∧ c'.prompt = c.prompt := by
  unfold Channel.finish at hf
  cases h with
  | fetching hn hp hd =>
    rw [hp] at hf
    obtain rfl := Option.some.inj hf
    exact ⟨.sending hn (by rw [hd]) hd, rfl, rfl⟩
  | sending hn hp hd =>
    rw [hp] at hf
    exact nomatch hf
  | @storing slave lba n buf sector hs hp hd =>
    rw [hp] at hf
    obtain rfl := Option.some.inj hf
    refine ⟨.stored (List.getElem?_eq_some_iff.mp hs).1 rfl ?_, rfl, rfl⟩
    rw [← written_take hs, ← hd]
  | @stored slave lba n buf hn hp hd =>
    rw [hp] at hf
    cases hnext : Transfer.next ⟨slave, lba + n, buf.length - 1 - n⟩ with
    | none =>
      rw [hnext] at hf
      exact nomatch hf
    | some t =>
      rw [hnext] at hf
      exact nomatch hf

/-- While the task waits for a sector to be read. -/
theorem Serving.busyWait_read {count : ℕ} {got : List (List Word)} {slave : Bool} {lba : ℕ}
    (h : Serving d c (.reading ⟨slave, lba, .read count⟩ got)) :
    ∃ n c', got = sectors d slave lba n ∧ n < count ∧
      ideBusyWait IDE_SR_DRQ c = some c' ∧
      c'.phase = .sending ⟨slave, lba + n, count - 1 - n⟩ (d slave (lba + n)).1 ∧ c'.disk = d ∧
        c'.prompt = c.prompt := by
  cases h with
  | @fetching slave lba n count hn hp hd =>
    have hf : c.finish = some { c with
        phase := .sending ⟨slave, lba + n, count - 1 - n⟩ (d slave (lba + n)).1, intrq := true } := by
      unfold Channel.finish
      rw [hp, hd]
    exact ⟨n, _, rfl, hn, busyWait_busy hf (reached_of_status (v := 0x58) rfl (by decide)), rfl, hd, rfl⟩
  | @sending slave lba n count hn hp hd =>
    have hv : c.status = 0x58 := by
      unfold Channel.status
      rw [hp]
    exact ⟨n, c, rfl, hn, busyWait_ready hv (by decide), hp, hd, rfl⟩

theorem Serving.busyWait_write {i : ℕ} {slave : Bool} {lba : ℕ} {buf : List Sector}
    (h : Serving d c (.writing ⟨slave, lba, .write buf⟩ i)) : ∃ n c', i = n + 1 ∧ n < buf.length ∧
      ideBusyWait IDE_SR_NULL c = some c' ∧
      c'.phase = ((Transfer.next ⟨slave, lba + n, buf.length - 1 - n⟩).elim .idle fun t => .receiving t []) ∧
        c'.disk = written d slave lba (buf.take (n + 1)) ∧ c'.prompt = c.prompt := by
  have hready : ∀ {c : Channel} {o : Option Transfer}, c.phase = o.elim .idle (fun t => .receiving t []) →
      ideBusyWait.reached IDE_SR_NULL c = true := fun {c o} hp => by
    cases o with
    | none => exact reached_of_status (v := 0x50) (by unfold Channel.status; rw [hp]; rfl) (by decide)
    | some t => exact reached_of_status (v := 0x58) (by unfold Channel.status; rw [hp]; rfl) (by decide)
  cases h with
  | @storing slave lba n buf sector hs hp hd =>
    have hn : n < buf.length := (List.getElem?_eq_some_iff.mp hs).1
    have hf : c.finish = some { c with
        disk := update c.disk slave (update (c.disk slave) (lba + n) sector)
        phase := (Transfer.next ⟨slave, lba + n, buf.length - 1 - n⟩).elim .idle fun t => .receiving t []
        intrq := true } := by
      unfold Channel.finish
      rw [hp]
    refine ⟨n, _, rfl, hn, busyWait_busy hf (hready rfl), rfl, ?_, rfl⟩
    rw [← written_take hs, ← hd]
  | @stored slave lba n buf hn hp hd => exact ⟨n, c, rfl, hn, if_pos (hready hp), hp, hd, rfl⟩

variable {disk : Bool → ℕ → Sector} {s : State τ} {t : τ} {a : Call} {pc : Pc}

omit [DecidableEq τ] in
theorem withChannel_some (k : State τ → Outcome (State τ)) :
    withChannel s (some c) k = k { s with channel := c } := rfl

theorem waitAt_inv (hprompt : s.channel.prompt = true) (hout : ∀ u, u ≠ t → Outside (s.pc u))
    (hh : s.holder = some t) (hd : Serves disk s.served d) (hs : Serving d s.channel pc)
    (hline : s.channel.busy = true ∨ s.channel.intrq = true) : Inv disk (waitAt s t pc) where
  prompt := hprompt
  outside u hu := by
    have hne : u ≠ t := fun h => hu (h ▸ hh)
    change Outside (update s.pc t pc u)
    rw [update_of_ne hne]
    exact hout u hne
  served := by
    refine ⟨d, hd, .moving t hh ?_ (fun _ => ⟨rfl, hline⟩) fun hr => ?_⟩
    · change Serving d s.channel (update s.pc t pc t)
      rwa [update_self]
    · have hf : (waitAt s t pc).ready t = false := update_self ..
      rw [hf] at hr
      exact absurd hr Bool.false_ne_true

theorem done_inv {got : List (List Word)} (hprompt : s.channel.prompt = true)
    (hout : ∀ u, u ≠ t → Outside (s.pc u)) (hw : s.waiter = none) (hp : s.channel.phase = .idle)
    (hd : Serves disk (s.served ++ [⟨a, got⟩]) s.channel.disk) : Inv disk (done s t a got) where
  prompt := hprompt
  outside u _ := by
    change Outside (update s.pc t .out u)
    by_cases hu : u = t
    · rw [hu, update_self]
      exact .inl rfl
    · rw [update_of_ne hu]
      exact hout u hu
  served := ⟨s.channel.disk, hd, .resting rfl hp rfl hw⟩

theorem writeSector (h : c.phase = .receiving x []) (sector : Sector) :
    idePioWriteSector sector c = some { c with phase := .storing x sector } := by
  have hne : sector.1 ≠ [] := fun hn => by
    have hlen := sector.2
    rw [hn] at hlen
    exact absurd hlen (by decide)
  exact Channel.outws_receiving h hne (by rw [List.nil_append]; exact sector.2)

theorem readSector {sector : Sector} (h : c.phase = .sending x sector.1) :
    idePioReadSector c = some (sector.1, { c with phase := x.next.elim .idle .fetching }) := by
  have hne : sector.1 ≠ [] := fun hn => by
    have hlen := sector.2
    rw [hn] at hlen
    exact absurd hlen (by decide)
  have hread := Channel.inws_sending h hne
  rwa [sector.2] at hread

theorem begin_all (hi : Inv disk s) (ha : a.Proper) (hh : s.holder = none) :
    (begin s t a).All (Inv disk) := by
  obtain ⟨d, hd, hat⟩ := hi.served
  have hout : ∀ u, Outside (s.pc u) := fun u =>
    hi.outside u fun h => Option.some_ne_none u (h.symm.trans hh)
  cases hat with
  | moving u hu => exact absurd (hu.symm.trans hh) (Option.some_ne_none u)
  | resting _ hidle hdisk hw =>
    obtain ⟨slave, lba, io⟩ := a
    have hlt : io.count < 2 ^ 8 := ha.count_lt
    have hpos : 0 < io.count := ha.count_pos
    have hlba : lba + io.count ≤ 2 ^ 28 := ha.lba_le
    refine Outcome.all_assert (decide_eq_true hpos) ?_
    cases io with
    | read count =>
      dsimp only [Io.count] at hpos hlt hlba ⊢
      rw [ideCommand_read hidle hpos hlt (show lba < 2 ^ 28 by omega)]
      exact waitAt_inv hi.prompt (fun u _ => hout u) rfl hd (.fetching hpos rfl hdisk) (.inl rfl)
    | write buf =>
      dsimp only [Io.count] at hpos hlt hlba ⊢
      rw [ideCommand_write hidle hi.prompt hpos hlt (show lba < 2 ^ 28 by omega)]
      cases buf with
      | nil => exact absurd hpos (lt_irrefl 0)
      | cons sector rest =>
        rw [withChannel_some]
        dsimp only
        rw [writeSector rfl sector]
        exact waitAt_inv hi.prompt (fun u _ => hout u) rfl hd
          (.storing (show (sector :: rest)[0]? = some sector from rfl) rfl (hdisk.trans written_nil.symm))
          (.inl rfl)

omit [DecidableEq τ] in
theorem Inv.outside_of_ne (hi : Inv disk s) (hh : s.holder = some t) (u : τ) (hu : u ≠ t) :
    Outside (s.pc u) :=
  hi.outside u fun h => hu (Option.some.inj (h.symm.trans hh))

theorem next_of_lt {count : ℕ} (h : n + 1 < count) :
    Transfer.next ⟨slave, lba + n, count - 1 - n⟩ = some ⟨slave, lba + (n + 1), count - 1 - (n + 1)⟩ := by
  unfold Transfer.next
  rw [if_neg (show count - 1 - n ≠ 0 by omega)]
  rfl

theorem next_of_last {count : ℕ} (h : n + 1 = count) :
    Transfer.next ⟨slave, lba + n, count - 1 - n⟩ = none := by
  unfold Transfer.next
  rw [if_pos (show count - 1 - n = 0 by omega)]

/-- A sector is read; the drive goes on with the next or is through. -/
theorem readTurn_eq {slave : Bool} {lba count : ℕ} {got : List (List Word)}
    (h : Serving d s.channel (.reading ⟨slave, lba, .read count⟩ got)) : ∃ n c, got = sectors d slave lba n ∧
      n < count ∧ c.phase = (Transfer.next ⟨slave, lba + n, count - 1 - n⟩).elim .idle .fetching ∧
      c.disk = d ∧ c.prompt = s.channel.prompt ∧
      readTurn s t ⟨slave, lba, .read count⟩ got = .next (if n + 1 < count then
          waitAt { s with channel := c } t (.reading ⟨slave, lba, .read count⟩ (sectors d slave lba (n + 1)))
        else done { s with channel := c } t ⟨slave, lba, .read count⟩ (sectors d slave lba (n + 1))) := by
  obtain ⟨n, c, rfl, hn, hwait, hphase, hdisk, hprompt⟩ := h.busyWait_read
  refine ⟨n, { c with phase := (Transfer.next ⟨slave, lba + n, count - 1 - n⟩).elim .idle .fetching },
    rfl, hn, rfl, hdisk, hprompt, ?_⟩
  unfold readTurn
  rw [hwait, withChannel_some]
  dsimp only
  rw [readSector hphase]
  dsimp only [Io.count]
  rw [← sectors_succ, sectors_length]
  rfl

/-- A sector has been stored; the driver writes the next or is through. -/
theorem writeTurn_eq {slave : Bool} {lba i : ℕ} {buf : List Sector}
    (h : Serving d s.channel (.writing ⟨slave, lba, .write buf⟩ i)) : ∃ n c, i = n + 1 ∧ n < buf.length ∧
      c.disk = written d slave lba (buf.take (n + 1)) ∧ c.prompt = s.channel.prompt ∧
      ((∃ sector, buf[n + 1]? = some sector ∧
          c.phase = .storing ⟨slave, lba + (n + 1), buf.length - 1 - (n + 1)⟩ sector ∧
          writeTurn s t ⟨slave, lba, .write buf⟩ buf i =
            .next (waitAt { s with channel := c } t (.writing ⟨slave, lba, .write buf⟩ (i + 1)))) ∨
        n + 1 = buf.length ∧ c.phase = .idle ∧
          writeTurn s t ⟨slave, lba, .write buf⟩ buf i =
            .next (done { s with channel := c } t ⟨slave, lba, .write buf⟩ [])) := by
  obtain ⟨n, c, rfl, hn, hwait, hphase, hdisk, hprompt⟩ := h.busyWait_write
  unfold writeTurn
  rw [hwait, withChannel_some]
  dsimp only
  cases hbuf : buf[n + 1]? with
  | none =>
    have hlast : n + 1 = buf.length := le_antisymm hn (List.getElem?_eq_none_iff.mp hbuf)
    rw [next_of_last hlast] at hphase
    exact ⟨n, c, rfl, hn, hdisk, hprompt, .inr ⟨hlast, hphase, rfl⟩⟩
  | some sector =>
    have hlt : n + 1 < buf.length := (List.getElem?_eq_some_iff.mp hbuf).1
    rw [next_of_lt hlt] at hphase
    refine ⟨n, { c with phase := .storing ⟨slave, lba + (n + 1), buf.length - 1 - (n + 1)⟩ sector }, rfl,
      hn, hdisk, hprompt, .inl ⟨sector, hbuf, rfl, ?_⟩⟩
    dsimp only
    rw [writeSector hphase sector, withChannel_some]

omit [DecidableEq τ] in
/-- The task that holds the lock is in its transfer. -/
theorem Inv.moving (hi : Inv disk s) (hh : s.holder = some t) : ∃ d, Serves disk s.served d ∧
    Serving d s.channel (s.pc t) ∧
    (s.ready t = false → s.waiter = some t ∧ (s.channel.busy = true ∨ s.channel.intrq = true)) ∧
    (s.ready t = true → s.waiter = none) := by
  obtain ⟨d, hd, hat⟩ := hi.served
  cases hat with
  | resting hn => exact absurd (hh.symm.trans hn) (Option.some_ne_none t)
  | moving u hu hserving hblocked hgoes =>
    obtain rfl : t = u := Option.some.inj (hh.symm.trans hu)
    exact ⟨d, hd, hserving, hblocked, hgoes⟩

theorem readTurn_all {got : List (List Word)} (hi : Inv disk s) (hh : s.holder = some t)
    (hpc : s.pc t = .reading a got) (hr : s.ready t = true) : (readTurn s t a got).All (Inv disk) := by
  obtain ⟨d, hd, hserving, -, hgoes⟩ := hi.moving hh
  have hout := hi.outside_of_ne hh
  rw [hpc] at hserving
  obtain ⟨slave, lba, io⟩ := a
  cases io with
  | write buf => exact nomatch hserving
  | read count =>
    obtain ⟨n, c, rfl, hn, hphase, hdisk, hprompt, heq⟩ := readTurn_eq (s := s) (t := t) hserving
    rw [heq]
    change Inv disk (if n + 1 < count then _ else _)
    split_ifs with hlt
    · rw [next_of_lt hlt] at hphase
      have hbusy : c.busy = true := by
        unfold Channel.busy
        rw [hphase]
        rfl
      exact waitAt_inv (hprompt.trans hi.prompt) hout hh hd (.fetching hlt hphase hdisk) (.inl hbusy)
    · obtain rfl : n + 1 = count := by omega
      rw [next_of_last rfl] at hphase
      refine done_inv (hprompt.trans hi.prompt) hout (hgoes hr) hphase ?_
      change Serves disk _ c.disk
      rw [hdisk]
      exact .read hd

theorem writeTurn_all {buf : List Sector} {i : ℕ} {slave : Bool} {lba : ℕ} (hi : Inv disk s)
    (hh : s.holder = some t) (hpc : s.pc t = .writing ⟨slave, lba, .write buf⟩ i) (hr : s.ready t = true) :
    (writeTurn s t ⟨slave, lba, .write buf⟩ buf i).All (Inv disk) := by
  obtain ⟨d, hd, hserving, -, hgoes⟩ := hi.moving hh
  have hout := hi.outside_of_ne hh
  rw [hpc] at hserving
  obtain ⟨n, c, rfl, hn, hdisk, hprompt, ⟨sector, hbuf, hphase, heq⟩ | ⟨hlast, hphase, heq⟩⟩ :=
    writeTurn_eq (s := s) (t := t) hserving
  · rw [heq]
    have hbusy : c.busy = true := by
      unfold Channel.busy
      rw [hphase]
    exact waitAt_inv (hprompt.trans hi.prompt) hout hh hd (.storing hbuf hphase hdisk) (.inl hbusy)
  · rw [heq]
    refine done_inv (hprompt.trans hi.prompt) hout (hgoes hr) hphase ?_
    change Serves disk _ c.disk
    rw [hdisk, hlast, List.take_length]
    exact .write hd

/-- The interrupt line does not matter to a transfer. -/
theorem Serving.ack (h : Serving d c pc) : Serving d c.ack pc := by
  cases h with
  | fetching hn hp hd => exact .fetching hn hp hd
  | sending hn hp hd => exact .sending hn hp hd
  | storing hs hp hd => exact .storing hs hp hd
  | stored hn hp hd => exact .stored hn hp hd

theorem ideHandler_all (hi : Inv disk s) : (ideHandler s).All (Inv disk) := by
  obtain ⟨d, hd, hat⟩ := hi.served
  unfold ideHandler
  cases hat with
  | resting hh hidle hdisk hw =>
    dsimp only
    rw [hw]
    exact ⟨hi.prompt, hi.outside, d, hd, .resting hh hidle hdisk rfl⟩
  | moving t hh hserving hblocked hgoes =>
    dsimp only
    cases hr : s.ready t with
    | true =>
      rw [hgoes hr]
      refine ⟨hi.prompt, hi.outside, d, hd, .moving t hh hserving.ack (fun h => ?_) fun _ => rfl⟩
      rw [hr] at h
      exact absurd h.symm Bool.false_ne_true
    | false =>
      rw [(hblocked hr).1]
      refine Outcome.all_assert (by rw [hr]; rfl) ?_
      refine ⟨hi.prompt, hi.outside, d, hd, .moving t hh hserving.ack (fun h => ?_) fun _ => rfl⟩
      have hup : update s.ready t true t = true := update_self ..
      exact absurd (h.symm.trans hup) Bool.false_ne_true

omit [DecidableEq τ] in
theorem drive_all (hi : Inv disk s) (hf : s.channel.finish = some c) : Inv disk { s with channel := c } := by
  obtain ⟨d, hd, hat⟩ := hi.served
  cases hat with
  | resting hh hidle =>
    unfold Channel.finish at hf
    rw [hidle] at hf
    exact nomatch hf
  | moving t hh hserving hblocked hgoes =>
    obtain ⟨hserving', hline, hprompt⟩ := hserving.finish hf
    exact ⟨hprompt.trans hi.prompt, hi.outside, d, hd,
      .moving t hh hserving' (fun h => ⟨(hblocked h).1, .inr hline⟩) hgoes⟩

omit [DecidableEq τ] in
/-- A task in a transfer holds the lock. -/
theorem Inv.holder_of_pc (hi : Inv disk s) (h : ¬ Outside (s.pc t)) : s.holder = some t := by
  by_contra hne
  exact h (hi.outside t hne)

theorem not_outside (h : pc.transfer.isSome) : ¬ Outside pc := by
  rintro (rfl | ⟨_, -, rfl⟩)
  all_goals exact absurd h Bool.false_ne_true

/-- A task calls: it waits for the lock, and the transfer goes on. -/
theorem call_inv (hi : Inv disk s) (hpc : s.pc t = .out) (ha : a.Proper) :
    Inv disk { s with pc := update s.pc t (.acquiring a) } := by
  have hout : ∀ u, s.holder ≠ some u → Outside (update s.pc t (.acquiring a) u) := fun u hu => by
    by_cases hut : u = t
    · rw [hut, update_self]
      exact .inr ⟨a, ha, rfl⟩
    · rw [update_of_ne hut]
      exact hi.outside u hu
  obtain ⟨d, hd, hat⟩ := hi.served
  refine ⟨hi.prompt, hout, d, hd, ?_⟩
  cases hat with
  | resting hh hidle hdisk hw => exact .resting hh hidle hdisk hw
  | moving v hh hserving hblocked hgoes =>
    have hne : v ≠ t := fun h => by
      rw [h, hpc] at hserving
      exact nomatch hserving
    refine .moving v hh ?_ hblocked hgoes
    change Serving d s.channel (update s.pc t (.acquiring a) v)
    rwa [update_of_ne hne]

omit [DecidableEq τ] in
/-- A task that waits for the lock has asked for sectors that there are. -/
theorem Inv.proper (hi : Inv disk s) (hpc : s.pc t = .acquiring a) (hh : s.holder = none) : a.Proper := by
  have hout := hi.outside t fun h => Option.some_ne_none t (h.symm.trans hh)
  rw [hpc] at hout
  obtain h | ⟨a', ha, h⟩ := hout
  · exact nomatch h
  · obtain rfl := Pc.acquiring.inj h
    exact ha

theorem exec_all (hi : Inv disk s) (act : Act τ) (hp : Proper s act) : (exec s act).All (Inv disk) := by
  cases act with
  | call t a =>
    dsimp only [exec]
    cases hpc : s.pc t with
    | out => exact call_inv hi hpc hp
    | acquiring | reading | writing => trivial
  | acquire t =>
    dsimp only [exec]
    cases hpc : s.pc t with
    | acquiring a =>
      cases hh : s.holder with
      | none => exact begin_all hi (hi.proper hpc hh) hh
      | some u => trivial
    | out | reading | writing => trivial
  | resume t =>
    refine Outcome.all_guard fun hr => ?_
    cases hpc : s.pc t with
    | reading a got => exact readTurn_all hi (hi.holder_of_pc (not_outside (by rw [hpc]; rfl))) hpc hr
    | writing a i =>
      obtain ⟨slave, lba, io⟩ := a
      cases io with
      | read count => trivial
      | write buf => exact writeTurn_all hi (hi.holder_of_pc (not_outside (by rw [hpc]; rfl))) hpc hr
    | out | acquiring => trivial
  | drive =>
    dsimp only [exec]
    cases hf : s.channel.finish with
    | none => trivial
    | some c => exact drive_all hi hf
  | interrupt => exact Outcome.all_guard fun _ => ideHandler_all hi

end Transfers

end Onix.Ide
