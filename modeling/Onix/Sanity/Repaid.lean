import Onix.Sanity.Owes

/-! The calls on names give back the references they take, but for those they hand on, and none
of their calls of `iput` comes without one. -/

namespace Onix.Fs

open Function Prog Cstr

variable {base : ℕ → ℕ} {task : TaskT} {R R' B B' : Multiset ℕ} {s : State} {α β : Type}
  {Q : α → State → Prop}

/-- The references of a task. -/
def TaskT.refs (t : TaskT) : Multiset ℕ := {t.ipwd} + {t.iroot}

/-- `iput` finds a reference. -/
def Put.Alive (p : Put) : Prop := 0 < p.count

/-- A call that has `R` and `B` comes to where `Q` holds, and its calls of `iput` find references. -/
def Pays (base : ℕ → ℕ) (task : TaskT) (R B : Multiset ℕ) (m : Noted State Put α)
    (Q : α → State → Prop) : Prop :=
  Triple (Along Put.Alive (Owes base task R B)) m fun a => Along Put.Alive (Q a)

section Rules

theorem Owes.none (h : Owes base task R B s) : Owes base task (one none + R) B s := by
  rw [one_none_add]
  exact h

theorem Trades.still {m : Prog State α} {R' B' : α → Multiset ℕ} (h : Trades base task R B m R' B') :
    Pays base task R B (still m) fun a => Owes base task (R' a) (B' a) := triple_still h

theorem pays_pure {a : α} (h : ∀ s, Owes base task R B s → Q a s) : Pays base task R B (pure a) Q :=
  triple_pure fun s hs => ⟨h s.1 hs.1, hs.2⟩

theorem Pays.bind {m : Noted State Put β} {f : β → Noted State Put α} {R' B' : β → Multiset ℕ}
    (h : Pays base task R B m fun b => Owes base task (R' b) (B' b))
    (hf : ∀ b, Pays base task (R' b) (B' b) (f b) Q) : Pays base task R B (m >>= f) Q :=
  Triple.bind h hf

theorem Pays.calm {m : Prog State β} {f : β → Noted State Put α} (h : Leads Calm m)
    (hf : ∀ b, Pays base task R B (f b) Q) : Pays base task R B (still m >>= f) Q :=
  (trades_calm h).still.bind hf

theorem Pays.ite {c : Prop} [Decidable c] {m m' : Noted State Put α} (hm : Pays base task R B m Q)
    (hm' : Pays base task R B m' Q) : Pays base task R B (if c then m else m') Q := Triple.ite hm hm'

/-- The task whose call it is. -/
theorem Pays.running {f : TaskT → Noted State Put α} (h : Pays base task R B (f task) Q) :
    Pays base task R B (still (peek State.task) >>= f) Q := by
  intro x hx a y hy
  have hf : f task x = some (a, y) := by
    rw [← hx.1.task]
    exact hy
  exact h x hx a y hf

theorem iputNoted_pays (o : Option ℕ) :
    Pays base task (one o + R) B (iputNoted o) fun _ => Owes base task R B := by
  cases o with
  | none =>
    rw [one_none_add]
    exact pays_pure fun _ hs => hs
  | some i =>
    intro x hx a y hy
    have hpos : 0 < (x.1.inodeTable i).count := by
      have hcount := hx.1.count i
      rw [show one (some i) + R = {i} + R from rfl, count_add_self] at hcount
      omega
    have hput : Pays base task (one (some i) + R) B (note (⟨i, (x.1.inodeTable i).count⟩ : Put)
        (iputInode i)) fun _ => Owes base task R B := triple_note (iput_trades (some i)) hpos
    exact hput x hx a y hy

/-- The two ways out of `find_entry`. -/
theorem Pays.find {dir : ℕ} {name : Str} {f : Option (Entry × Str) → Noted State Put α}
    (hnone : Pays base task R B (f none) Q)
    (hsome : ∀ e, Pays base task R ({e.1.buf} + B) (f (some e)) Q) :
    Pays base task R B (still (findEntry dir name) >>= f) Q := by
  refine (findEntry_trades _ _).still.bind fun o => ?_
  cases o with
  | none =>
    rw [show oneOf ((none : Option (Entry × Str)).map Prod.fst) + B = B from oneOf_none_add B]
    exact hnone
  | some e => exact hsome e

end Rules

section Walk

/-- One turn gives the directory back and takes the next one. -/
theorem namedLoop_pays (hroom : Room base R 1) (right : Str) (n inode : ℕ) (left : Str)
    (buf : Option ℕ) :
    Pays base task ({inode} + R) (one buf + B) (namedLoopNoted right n inode left buf) fun r =>
      Owes base task (one (r.map Prod.fst) + R) B := by
  induction n generalizing inode left buf with
  | zero => exact triple_still triple_stop
  | succ n ih =>
    refine (brelse_trades _).still.bind fun _ => .find ?_ fun e => ?_
    · exact (iputNoted_pays (some inode)).bind fun _ => pays_pure fun _ hs => hs.none
    · refine .calm (leads_peek _) fun _ => (iputNoted_pays (some inode)).bind fun _ =>
        .calm (leads_peek _) fun _ => (iget_trades hroom).still.bind fun i => .calm (leads_peek _) fun _ =>
        .ite ?_ (.ite ?_ (ih i e.2 (some e.1.buf)))
      · exact (brelse_trades (some e.1.buf)).still.bind fun _ => (iputNoted_pays (some i)).bind fun _ =>
          pays_pure fun _ hs => hs.none
      · exact (brelse_trades (some e.1.buf)).still.bind fun _ => pays_pure fun _ hs => hs

theorem namedFrom_pays (hroom : Room base R 1) {inode : ℕ} (hmem : inode ∈ R) (left : Str) :
    Pays base task R B (namedFromNoted inode left) fun r =>
      Owes base task (one (r.map Prod.fst) + R) B := by
  have hcount : Trades base task R B
      (poke fun s => s.modInode inode fun n => { n with count := (n.count + 1) % 2 ^ 32 })
      (fun _ => {inode} + R) fun _ => B := fun s hs =>
    post_poke (hs.take hroom (hs.mem hmem) fun _ => ⟨rfl, rfl⟩)
  refine hcount.still.bind fun _ => .ite (pays_pure fun _ hs => hs) ?_
  cases strrsep left with
  | none => exact pays_pure fun _ hs => hs
  | some right =>
    have hloop : Pays base task ({inode} + R) (one none + B)
        (namedLoopNoted right.tail (namedTurns left) inode left none) fun r =>
          Owes base task (one (r.map Prod.fst) + R) B := namedLoop_pays hroom _ _ _ _ _
    rw [one_none_add] at hloop
    exact hloop

theorem ipwd_mem : task.ipwd ∈ task.refs :=
  Multiset.mem_add.mpr (.inl (Multiset.mem_singleton_self _))

theorem iroot_mem : task.iroot ∈ task.refs :=
  Multiset.mem_add.mpr (.inr (Multiset.mem_singleton_self _))

theorem named_pays (hroom : Room base R 1) (hrefs : task.refs ≤ R) (pathname : Str) :
    Pays base task R B (namedNoted pathname) fun r =>
      Owes base task (one (r.map Prod.fst) + R) B :=
  .running (.ite (namedFrom_pays hroom (Multiset.mem_of_le hrefs iroot_mem) _)
    (.ite (namedFrom_pays hroom (Multiset.mem_of_le hrefs ipwd_mem) _) (pays_pure fun _ hs => hs.none)))

/-- The two ways out of `named`. -/
theorem Pays.named (hroom : Room base R 1) (hrefs : task.refs ≤ R) {pathname : Str}
    {f : Option (ℕ × Str) → Noted State Put α} (hnone : Pays base task R B (f none) Q)
    (hsome : ∀ r, Pays base task ({r.1} + R) B (f (some r)) Q) :
    Pays base task R B (namedNoted pathname >>= f) Q := by
  refine (named_pays hroom hrefs _).bind fun o => ?_
  cases o with
  | none =>
    rw [show one ((none : Option (ℕ × Str)).map Prod.fst) + R = R from one_none_add R]
    exact hnone
  | some r => exact hsome r

theorem namei_pays (hroom : Room base R 2) (hrefs : task.refs ≤ R) (pathname : Str) :
    Pays base task R B (nameiNoted pathname) fun o => Owes base task (one o + R) B := by
  refine .named (hroom.mono (Nat.le_succ 1)) hrefs (pays_pure fun _ hs => hs.none) fun r =>
    .ite (pays_pure fun _ hs => hs) (.find ?_ fun e => ?_)
  · exact (iputNoted_pays (some r.1)).bind fun _ => pays_pure fun _ hs => hs.none
  · refine .calm (leads_peek _) fun _ => .calm (leads_peek _) fun _ =>
      (iget_trades (hroom.add r.1)).still.bind fun i => ?_
    rw [add_left_comm]
    exact (iputNoted_pays (some r.1)).bind fun _ => (brelse_trades (some e.1.buf)).still.bind fun _ =>
      pays_pure fun _ hs => hs

/-- The two ways out of `namei`. -/
theorem Pays.namei (hroom : Room base R 2) (hrefs : task.refs ≤ R) {pathname : Str}
    {f : Option ℕ → Noted State Put α} (hnone : Pays base task R B (f none) Q)
    (hsome : ∀ i, Pays base task ({i} + R) B (f (some i)) Q) :
    Pays base task R B (nameiNoted pathname >>= f) Q := by
  refine (namei_pays hroom hrefs _).bind fun o => ?_
  cases o with
  | none =>
    rw [one_none_add]
    exact hnone
  | some i => exact hsome i

end Walk

section Calls

theorem mkdirRollback_pays (ebuf dir : Option ℕ) (hR : R = one dir + R') (hB : B = one ebuf + B') :
    Pays base task R B (mkdirRollbackNoted ebuf dir) fun _ => Owes base task R' B' := by
  subst hR hB
  exact (brelse_trades _).still.bind fun _ => (iputNoted_pays _).bind fun _ => pays_pure fun _ hs => hs

theorem mkdirIn_pays (hroom : Room base R 2) (dir : ℕ) (name : Str) (mode : ℕ) :
    Pays base task ({dir} + R) B (mkdirInNoted dir name mode) fun _ => Owes base task R B := by
  refine (addEntry_trades _ _).still.bind fun e => .calm (poke_calm (fun _ => rfl) fun _ => rfl) fun _ =>
    .calm (leads_peek _) fun _ => .calm (ialloc_calm _) fun _ =>
    .calm (poke_calm (fun _ => rfl) fun _ => rfl) fun _ => .calm (leads_peek _) fun _ =>
    (iget_trades (hroom.add dir)).still.bind fun i => .calm (mkdirInode_calm _ _) fun _ =>
    .calm (poke_calm (fun _ => rfl) fun _ => rfl) fun _ =>
    .calm (poke_calm (fun _ => rfl) fun _ => rfl) fun _ =>
    (mkdirEntries_trades _ _).still.bind fun z => (iputNoted_pays (some i)).bind fun _ =>
    (iputNoted_pays (some dir)).bind fun _ => ?_
  rw [add_left_comm]
  exact (brelse_trades (some e.buf)).still.bind fun _ => (brelse_trades (some z)).still.bind fun _ =>
    pays_pure fun _ hs => hs

theorem sysMkdir_pays (hroom : Room base R 2) (hrefs : task.refs ≤ R) (pathname : Str) (mode : ℕ) :
    Pays base task R B (sysMkdirNoted pathname mode) fun _ => Owes base task R B := by
  refine .named (hroom.mono (Nat.le_succ 1)) hrefs
    (mkdirRollback_pays none none (one_none_add R).symm (one_none_add B).symm) fun r => ?_
  have hdir : Pays base task ({r.1} + R) B (mkdirRollbackNoted none (some r.1)) fun _ =>
      Owes base task R B := mkdirRollback_pays none (some r.1) rfl (one_none_add B).symm
  exact .ite hdir (.calm (leads_peek _) fun _ => .ite hdir (.find (mkdirIn_pays hroom _ _ _) fun e =>
    mkdirRollback_pays (some e.1.buf) (some r.1) rfl rfl))

theorem rmdirRollback_pays (inode dir ebuf : Option ℕ) (ret : ℕ) (hR : R = one inode + (one dir + R'))
    (hB : B = one ebuf + B') :
    Pays base task R B (rmdirRollbackNoted inode dir ebuf ret) fun _ => Owes base task R' B' := by
  subst hR hB
  exact (iputNoted_pays _).bind fun _ => (iputNoted_pays _).bind fun _ =>
    (brelse_trades _).still.bind fun _ => pays_pure fun _ hs => hs

theorem sysRmdir_pays (hroom : Room base R 2) (hrefs : task.refs ≤ R) (pathname : Str) :
    Pays base task R B (sysRmdirNoted pathname) fun _ => Owes base task R B := by
  refine .named (hroom.mono (Nat.le_succ 1)) hrefs (rmdirRollback_pays none none none EOF
    (by simp only [one_none_add]) (one_none_add B).symm) fun r => ?_
  have hdir : Pays base task ({r.1} + R) B (rmdirRollbackNoted none (some r.1) none EOF) fun _ =>
      Owes base task R B :=
    rmdirRollback_pays none (some r.1) none EOF (one_none_add _).symm (one_none_add B).symm
  refine .ite hdir (.calm (leads_peek _) fun _ => .ite hdir (.find hdir fun e =>
    .calm (leads_peek _) fun _ => .calm (leads_peek _) fun _ =>
    (iget_trades (hroom.add r.1)).still.bind fun i => ?_))
  have hboth : ∀ ret, Pays base task ({i} + ({r.1} + R)) ({e.1.buf} + B)
      (rmdirRollbackNoted (some i) (some r.1) (some e.1.buf) ret) fun _ => Owes base task R B :=
    fun ret => rmdirRollback_pays (some i) (some r.1) (some e.1.buf) ret rfl rfl
  exact .calm (leads_peek _) fun _ => .ite (hboth EOF) ((isEmpty_trades _).still.bind fun _ =>
    .ite (hboth EOF) (.calm (rmdirIn_calm _ _ _) fun _ => hboth 0))

theorem linkRollback_pays (buf inode dir : Option ℕ) (ret : ℕ) (hR : R = one inode + (one dir + R'))
    (hB : B = one buf + B') :
    Pays base task R B (linkRollbackNoted buf inode dir ret) fun _ => Owes base task R' B' := by
  subst hR hB
  exact (brelse_trades _).still.bind fun _ => (iputNoted_pays _).bind fun _ =>
    (iputNoted_pays _).bind fun _ => pays_pure fun _ hs => hs

theorem sysLink_pays (hroom : Room base R 2) (hrefs : task.refs ≤ R) (oldname newname : Str) :
    Pays base task R B (sysLinkNoted oldname newname) fun _ => Owes base task R B := by
  refine .namei hroom hrefs (linkRollback_pays none none none EOF (by simp only [one_none_add])
    (one_none_add B).symm) fun inode => ?_
  have hold : Pays base task ({inode} + R) B (linkRollbackNoted none (some inode) none EOF) fun _ =>
      Owes base task R B :=
    linkRollback_pays none (some inode) none EOF (by rw [one_none_add]; rfl) (one_none_add B).symm
  refine .calm (leads_peek _) fun _ => .ite hold (.named (hroom.add inode)
    (hrefs.trans (Multiset.le_add_left _ _)) hold fun r => ?_)
  have hnew : Pays base task ({r.1} + ({inode} + R)) B
      (linkRollbackNoted none (some inode) (some r.1) EOF) fun _ => Owes base task R B :=
    linkRollback_pays none (some inode) (some r.1) EOF (add_left_comm _ _ _) (one_none_add B).symm
  refine .ite hnew (.calm (leads_peek _) fun _ => .calm (leads_peek _) fun _ => .ite hnew
    (.find ((linkIn_trades _ _ _).still.bind fun e => ?_) fun e => ?_))
  · exact linkRollback_pays (some e.buf) (some inode) (some r.1) 0 (add_left_comm _ _ _) rfl
  · exact linkRollback_pays (some e.1.buf) (some inode) (some r.1) EOF (add_left_comm _ _ _) rfl

theorem sysUnlink_pays (hroom : Room base R 2) (hrefs : task.refs ≤ R) (filename : Str) :
    Pays base task R B (sysUnlinkNoted filename) fun _ => Owes base task R B := by
  refine .named (hroom.mono (Nat.le_succ 1)) hrefs (linkRollback_pays none none none EOF
    (by simp only [one_none_add]) (one_none_add B).symm) fun r => ?_
  have hdir : Pays base task ({r.1} + R) B (linkRollbackNoted none none (some r.1) EOF) fun _ =>
      Owes base task R B :=
    linkRollback_pays none none (some r.1) EOF (one_none_add _).symm (one_none_add B).symm
  refine .ite hdir (.calm (leads_peek _) fun _ => .ite hdir (.find hdir fun e =>
    .calm (leads_peek _) fun _ => .calm (leads_peek _) fun _ =>
    (iget_trades (hroom.add r.1)).still.bind fun i => ?_))
  have hboth : ∀ ret, Pays base task ({i} + ({r.1} + R)) ({e.1.buf} + B)
      (linkRollbackNoted (some e.1.buf) (some i) (some r.1) ret) fun _ => Owes base task R B :=
    fun ret => linkRollback_pays (some e.1.buf) (some i) (some r.1) ret rfl rfl
  exact .calm (leads_peek _) fun _ => .ite (hboth EOF) (.calm (leads_peek _) fun _ =>
    .ite (hboth EOF) (.calm (unlinkIn_calm _ _) fun _ => hboth 0))

theorem openRollback_pays (buf dir inode : Option ℕ) (hR : R = one dir + (one inode + R'))
    (hB : B = one buf + B') : Pays base task R B (openRollbackNoted buf dir inode) fun o =>
      Owes base task (one o + R') B' := by
  subst hR hB
  exact (brelse_trades _).still.bind fun _ => (iputNoted_pays _).bind fun _ =>
    (iputNoted_pays _).bind fun _ => pays_pure fun _ hs => hs.none

theorem makeup_pays (dir inode buf flag : ℕ) :
    Pays base task ({inode} + ({dir} + R)) ({buf} + B) (makeupNoted dir inode buf flag) fun o =>
      Owes base task (one o + R) B := by
  have hback : Pays base task ({inode} + ({dir} + R)) ({buf} + B)
      (openRollbackNoted (some buf) (some dir) (some inode)) fun o => Owes base task (one o + R) B :=
    openRollback_pays (some buf) (some dir) (some inode) (add_left_comm _ _ _) rfl
  refine .calm (leads_peek _) fun _ => .ite hback (.calm (leads_peek _) fun _ => .ite hback
    (.calm (touch_calm _) fun _ => .calm (leads_when (inodeTruncate_calm _)) fun _ =>
      (brelse_trades (some buf)).still.bind fun _ => ?_))
  rw [add_left_comm]
  exact (iputNoted_pays (some dir)).bind fun _ => pays_pure fun _ hs => hs

theorem openIn_trades (hroom : Room base R 1) (dir : ℕ) (name : Str) (mode : ℕ) :
    Trades base task R B (openIn dir name mode) (fun r => {r.2} + R) fun r => {r.1.buf} + B :=
  .bind (addEntry_trades _ _) fun _ => .calm (leads_peek _) fun _ => .calm (ialloc_calm _) fun _ =>
    .calm (poke_calm (fun _ => rfl) fun _ => rfl) fun _ => .calm (leads_peek _) fun _ =>
    .bind (iget_trades hroom) fun _ => .calm (openInode_calm _ _) fun _ => triple_pure fun _ hs => hs

theorem inodeOpen_pays (hroom : Room base R 2) (hrefs : task.refs ≤ R) (pathname : Str)
    (flag mode : ℕ) : Pays base task R B (inodeOpenNoted pathname flag mode) fun o =>
      Owes base task (one o + R) B := by
  refine .named (hroom.mono (Nat.le_succ 1)) hrefs (openRollback_pays none none none
    (by simp only [one_none_add]) (one_none_add B).symm) fun r => .ite (pays_pure fun _ hs => hs) ?_
  have hdir : Pays base task ({r.1} + R) B (openRollbackNoted none (some r.1) none) fun o =>
      Owes base task (one o + R) B :=
    openRollback_pays none (some r.1) none (by rw [one_none_add]; rfl) (one_none_add B).symm
  refine .find (.ite hdir (.calm (leads_peek _) fun _ => .ite hdir ?_)) fun e => ?_
  · exact (openIn_trades (hroom.add r.1) _ _ _).still.bind fun _ => makeup_pays _ _ _ _
  · exact .calm (leads_peek _) fun _ => .calm (leads_peek _) fun _ =>
      (iget_trades (hroom.add r.1)).still.bind fun _ => makeup_pays _ _ _ _

end Calls

section Directories

theorem Owes.modTask (h : Owes base task R B s) (f : TaskT → TaskT) :
    Owes base (f task) R B (s.modTask f) where
  task := (update_self ..).trans (congrArg f h.task)
  count := h.count
  holds := h.holds
  listed := h.listed
  nodup := h.nodup

theorem Pays.modTask {g : TaskT → TaskT} {f : Unit → Noted State Put α}
    (h : Pays base (g task) R B (f ()) Q) :
    Pays base task R B (still (poke fun s => s.modTask g) >>= f) Q :=
  Triple.bind (triple_still fun _ hs => post_poke (Q := fun _ => Owes base (g task) R B) (hs.modTask g))
    fun _ => h

/-- The call has only the references of its task, whatever directories it has now, and `D`. -/
def Settled (base : ℕ → ℕ) (D B : Multiset ℕ) (s : State) : Prop :=
  Owes base s.task (s.task.refs + D) B s

theorem Owes.settled {D : Multiset ℕ} (h : Owes base task (task.refs + D) B s) : Settled base D B s := by
  obtain rfl := h.task
  exact h

variable {D : Multiset ℕ}

theorem sysChdir_pays (hroom : Room base (task.refs + D) 2) (pathname : Str) :
    Pays base task (task.refs + D) B (sysChdirNoted pathname) fun _ => Settled base D B := by
  refine .running (.namei hroom (Multiset.le_add_right _ _) (pays_pure fun _ hs => hs.settled)
    fun inode => .calm (leads_peek _) fun _ => .ite ?_ (.calm (leads_lift _) fun pwd => .modTask ?_))
  · exact (iputNoted_pays (some inode)).bind fun _ => pays_pure fun _ hs => hs.settled
  · have hmove : {inode} + (task.refs + D) = {task.ipwd} + ({inode} + {task.iroot} + D) := by
      unfold TaskT.refs
      abel
    rw [hmove]
    exact (iputNoted_pays (some task.ipwd)).bind fun _ => .modTask (pays_pure fun _ hs => hs.settled)

theorem sysChroot_pays (hroom : Room base (task.refs + D) 2) (pathname : Str) :
    Pays base task (task.refs + D) B (sysChrootNoted pathname) fun _ => Settled base D B := by
  refine .running (.namei hroom (Multiset.le_add_right _ _) (pays_pure fun _ hs => hs.settled)
    fun inode => .calm (leads_peek _) fun _ => .ite ?_ ?_)
  · exact (iputNoted_pays (some inode)).bind fun _ => pays_pure fun _ hs => hs.settled
  · have hmove : {inode} + (task.refs + D) = {task.iroot} + ({task.ipwd} + {inode} + D) := by
      unfold TaskT.refs
      abel
    rw [hmove]
    exact (iputNoted_pays (some task.iroot)).bind fun _ => .modTask (pays_pure fun _ hs => hs.settled)

end Directories

end Onix.Fs
