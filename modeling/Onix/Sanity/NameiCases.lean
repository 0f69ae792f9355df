import Onix.Sanity.FsFrame

/-! The ways through the system calls on names: each either gives up and has
changed no block, or goes on to the part that makes the change. -/

namespace Onix.Fs

open Function Prog Cstr

variable {s t u : State} {r inode dir mode flag : ℕ} {name path old new : Str}

theorem EOF_ne_zero : EOF ≠ 0 := by decide

/-- `named` and the tests that `sys_mkdir`, `sys_rmdir`, `sys_unlink` and a creating
`inode_open` make on what it returns. -/
structure Parent (s : State) (path : Str) (dir : ℕ) (name : Str) (u : State) : Prop where
  named : named path s = some (some (dir, name), u)
  nonempty : deref name ≠ EOS
  permitted : u.permission dir P_WRITE = true

theorem Parent.quiet (h : Parent s path dir name u) : Quiet s u := named_quiet path s _ _ h.named

theorem mkdirRollback_cases {ebuf d : Option ℕ} (h : mkdirRollback ebuf d s = some (r, t)) :
    r = EOF ∧ Quiet s t := by
  refine ⟨?_, mkdirRollback_quiet ebuf d s _ _ h⟩
  obtain ⟨_, _, _, h⟩ := bind_eq_some.mp h
  obtain ⟨_, _, _, h⟩ := bind_eq_some.mp h
  simp only [pure_apply, Option.some.injEq, Prod.mk.injEq] at h
  exact h.1.symm

theorem rmdirRollback_cases {i d e : Option ℕ} {ret : ℕ}
    (h : rmdirRollback i d e ret s = some (r, t)) : r = ret ∧ Quiet s t := by
  refine ⟨?_, rmdirRollback_quiet i d e ret s _ _ h⟩
  obtain ⟨_, _, _, h⟩ := bind_eq_some.mp h
  obtain ⟨_, _, _, h⟩ := bind_eq_some.mp h
  obtain ⟨_, _, _, h⟩ := bind_eq_some.mp h
  simp only [pure_apply, Option.some.injEq, Prod.mk.injEq] at h
  exact h.1.symm

theorem linkRollback_cases {b i d : Option ℕ} {ret : ℕ}
    (h : linkRollback b i d ret s = some (r, t)) : r = ret ∧ Quiet s t := by
  refine ⟨?_, linkRollback_quiet b i d ret s _ _ h⟩
  obtain ⟨_, _, _, h⟩ := bind_eq_some.mp h
  obtain ⟨_, _, _, h⟩ := bind_eq_some.mp h
  obtain ⟨_, _, _, h⟩ := bind_eq_some.mp h
  simp only [pure_apply, Option.some.injEq, Prod.mk.injEq] at h
  exact h.1.symm

theorem openRollback_cases {b d i o : Option ℕ} (h : openRollback b d i s = some (o, t)) :
    o = none ∧ Quiet s t := by
  refine ⟨?_, openRollback_quiet b d i s _ _ h⟩
  obtain ⟨_, _, _, h⟩ := bind_eq_some.mp h
  obtain ⟨_, _, _, h⟩ := bind_eq_some.mp h
  obtain ⟨_, _, _, h⟩ := bind_eq_some.mp h
  simp only [pure_apply, Option.some.injEq, Prod.mk.injEq] at h
  exact h.1.symm

theorem sysMkdir_cases (h : sysMkdir path mode s = some (r, t)) :
    (r = EOF ∧ Quiet s t) ∨
    ∃ dir name u v, Parent s path dir name u ∧ findEntry dir name u = some (none, v) ∧
      mkdirIn dir name mode v = some (r, t) := by
  unfold sysMkdir at h
  obtain ⟨p, u, hn, h⟩ := bind_eq_some.mp h
  have hq : Quiet s u := named_quiet path s _ _ hn
  have hgive : ∀ {e d : Option ℕ} {u' : State}, Quiet s u' →
      mkdirRollback e d u' = some (r, t) → r = EOF ∧ Quiet s t := fun hu hr =>
    ⟨(mkdirRollback_cases hr).1, trans_of Quiet hu (mkdirRollback_cases hr).2⟩
  rcases p with - | ⟨dir, name⟩
  · exact .inl (hgive hq h)
  dsimp only at h
  split_ifs at h with hname
  · exact .inl (hgive hq h)
  rw [peek_bind] at h
  split_ifs at h with hp
  · exact .inl (hgive hq h)
  obtain ⟨e, v, he, h⟩ := bind_eq_some.mp h
  rcases e with - | ⟨entry, next⟩
  · exact .inr ⟨dir, name, u, v, ⟨hn, hname, by simpa using hp⟩, he, h⟩
  · exact .inl (hgive (trans_of Quiet hq (findEntry_quiet dir name u _ _ he)) h)

/-- A program that only returns `a`. -/
theorem returns_bind {σ α β : Type} {m : Prog σ α} {f : α → Prog σ β} {a : β}
    (h : ∀ x s, Post (f x) s fun r _ => r = a) (s : σ) : Post (m >>= f) s fun r _ => r = a :=
  post_bind fun x u _ => h x u

theorem mkdirIn_returns (s : State) : Post (mkdirIn dir name mode) s fun r _ => r = 0 := by
  unfold mkdirIn
  iterate 15 refine returns_bind (fun _ s => ?_) _
  exact post_pure rfl

/-- The way to the entry of `sys_rmdir` and `sys_unlink`, and its inode. -/
structure Found (s : State) (path : Str) (dir inode : ℕ) (entry : Entry) (u : State) : Prop where
  parent : ∃ name next v w, Parent s path dir name v ∧
    findEntry dir name v = some (some (entry, next), w) ∧
      iget (w.inodeTable dir).dev (w.entryNr entry) w = some (inode, u)

theorem Found.quiet {entry : Entry} (h : Found s path dir inode entry u) : Quiet s u := by
  obtain ⟨name, next, v, w, hp, hf, hg⟩ := h.parent
  exact trans_of Quiet hp.quiet (trans_of Quiet (findEntry_quiet dir name v _ _ hf)
    (iget_quiet _ _ w _ _ hg))

theorem sysRmdir_cases (h : sysRmdir path s = some (r, t)) :
    (r = EOF ∧ Quiet s t) ∨
    ∃ dir inode entry u v w, Found s path dir inode entry u ∧ u.removable dir inode = true ∧
      isEmpty inode u = some (true, v) ∧ rmdirIn dir inode entry v = some ((), w) ∧ r = 0 ∧
      Quiet w t := by
  unfold sysRmdir at h
  obtain ⟨p, u, hn, h⟩ := bind_eq_some.mp h
  have hq : Quiet s u := named_quiet path s _ _ hn
  have hgive : ∀ {i d e : Option ℕ} {u' : State}, Quiet s u' →
      rmdirRollback i d e EOF u' = some (r, t) → r = EOF ∧ Quiet s t := fun hu hr =>
    ⟨(rmdirRollback_cases hr).1, trans_of Quiet hu (rmdirRollback_cases hr).2⟩
  rcases p with - | ⟨dir, name⟩
  · exact .inl (hgive hq h)
  dsimp only at h
  split_ifs at h with hname
  · exact .inl (hgive hq h)
  rw [peek_bind] at h
  split_ifs at h with hp
  · exact .inl (hgive hq h)
  obtain ⟨e, v, he, h⟩ := bind_eq_some.mp h
  have hv : Quiet s v := trans_of Quiet hq (findEntry_quiet dir name u _ _ he)
  rcases e with - | ⟨entry, next⟩
  · exact .inl (hgive hv h)
  dsimp only at h
  rw [peek_bind, peek_bind] at h
  obtain ⟨inode, w, hi, h⟩ := bind_eq_some.mp h
  have hw : Quiet s w := trans_of Quiet hv (iget_quiet _ _ v _ _ hi)
  rw [peek_bind] at h
  split_ifs at h with hr
  · exact .inl (hgive hw h)
  obtain ⟨b, x, hb, h⟩ := bind_eq_some.mp h
  split_ifs at h with hempty
  · exact .inl (hgive (trans_of Quiet hw (isEmpty_quiet inode w _ _ hb)) h)
  obtain ⟨⟨⟩, y, hy, h⟩ := bind_eq_some.mp h
  obtain rfl : b = true := by simpa using hempty
  exact .inr ⟨dir, inode, entry, w, x, y,
    ⟨⟨name, next, u, v, ⟨hn, hname, by simpa using hp⟩, he, hi⟩⟩, by simpa using hr, hb, hy,
    (rmdirRollback_cases h).1, (rmdirRollback_cases h).2⟩

/-- The way to the part of `sys_link` that adds the entry, with no test of the
permission. -/
structure Linking (s : State) (old new : Str) (inode dir : ℕ) (name : Str) (v : State) : Prop where
  reached : ∃ w u, namei old s = some (some inode, w) ∧ isDir (w.mode inode) = false ∧
    named new w = some (some (dir, name), u) ∧ deref name ≠ EOS ∧
    (u.inodeTable dir).dev = (u.inodeTable inode).dev ∧ findEntry dir name u = some (none, v)

theorem sysLink_cases (h : sysLink old new s = some (r, t)) :
    (r = EOF ∧ Quiet s t) ∨
    ∃ inode dir name v w entry, Linking s old new inode dir name v ∧
      linkIn dir name inode v = some (entry, w) ∧ r = 0 ∧ Quiet w t := by
  unfold sysLink at h
  obtain ⟨p, u, hn, h⟩ := bind_eq_some.mp h
  have hq : Quiet s u := namei_quiet old s _ _ hn
  have hgive : ∀ {i d e : Option ℕ} {u' : State}, Quiet s u' →
      linkRollback i d e EOF u' = some (r, t) → r = EOF ∧ Quiet s t := fun hu hr =>
    ⟨(linkRollback_cases hr).1, trans_of Quiet hu (linkRollback_cases hr).2⟩
  rcases p with - | inode
  · exact .inl (hgive hq h)
  dsimp only at h
  rw [peek_bind] at h
  split_ifs at h with hdir
  · exact .inl (hgive hq h)
  obtain ⟨p, v, hv, h⟩ := bind_eq_some.mp h
  have hqv : Quiet s v := trans_of Quiet hq (named_quiet new u _ _ hv)
  rcases p with - | ⟨dir, name⟩
  · exact .inl (hgive hqv h)
  dsimp only at h
  split_ifs at h with hname
  · exact .inl (hgive hqv h)
  rw [peek_bind, peek_bind] at h
  split_ifs at h with hdev
  · exact .inl (hgive hqv h)
  obtain ⟨e, w, he, h⟩ := bind_eq_some.mp h
  rcases e with - | ⟨entry, next⟩
  · dsimp only at h
    obtain ⟨entry, x, hx, h⟩ := bind_eq_some.mp h
    exact .inr ⟨inode, dir, name, w, x, entry,
      ⟨⟨u, v, hn, by simpa using hdir, hv, hname, by simpa using hdev, he⟩⟩, hx,
      (linkRollback_cases h).1, (linkRollback_cases h).2⟩
  · exact .inl (hgive (trans_of Quiet hqv (findEntry_quiet dir name v _ _ he)) h)

theorem sysUnlink_cases (h : sysUnlink path s = some (r, t)) :
    (r = EOF ∧ Quiet s t) ∨
    ∃ dir inode entry u w, Found s path dir inode entry u ∧ isDir (u.mode inode) = false ∧
      unlinkIn inode entry u = some ((), w) ∧ r = 0 ∧ Quiet w t := by
  unfold sysUnlink at h
  obtain ⟨p, u, hn, h⟩ := bind_eq_some.mp h
  have hq : Quiet s u := named_quiet path s _ _ hn
  have hgive : ∀ {i d e : Option ℕ} {u' : State}, Quiet s u' →
      linkRollback i d e EOF u' = some (r, t) → r = EOF ∧ Quiet s t := fun hu hr =>
    ⟨(linkRollback_cases hr).1, trans_of Quiet hu (linkRollback_cases hr).2⟩
  rcases p with - | ⟨dir, name⟩
  · exact .inl (hgive hq h)
  dsimp only at h
  split_ifs at h with hname
  · exact .inl (hgive hq h)
  rw [peek_bind] at h
  split_ifs at h with hp
  · exact .inl (hgive hq h)
  obtain ⟨e, v, he, h⟩ := bind_eq_some.mp h
  have hv : Quiet s v := trans_of Quiet hq (findEntry_quiet dir name u _ _ he)
  rcases e with - | ⟨entry, next⟩
  · exact .inl (hgive hv h)
  dsimp only at h
  rw [peek_bind, peek_bind] at h
  obtain ⟨inode, w, hi, h⟩ := bind_eq_some.mp h
  have hw : Quiet s w := trans_of Quiet hv (iget_quiet _ _ v _ _ hi)
  rw [peek_bind] at h
  split_ifs at h with hdir
  · exact .inl (hgive hw h)
  rw [peek_bind] at h
  split_ifs at h with hsticky
  · exact .inl (hgive hw h)
  obtain ⟨⟨⟩, y, hy, h⟩ := bind_eq_some.mp h
  exact .inr ⟨dir, inode, entry, w, y,
    ⟨⟨name, next, u, v, ⟨hn, hname, by simpa using hp⟩, he, hi⟩⟩, by simpa using hdir, hy,
    (linkRollback_cases h).1, (linkRollback_cases h).2⟩

theorem openFlag_creat (flag : ℕ) : openFlag flag &&& O_CREAT = flag &&& O_CREAT := by
  unfold openFlag
  split_ifs
  · rw [Nat.and_or_distrib_right]
    exact Nat.or_zero _
  · rfl

/-- The tests that `makeup` of `inode_open` makes; `flag` is that after `openFlag`. -/
def State.allows (s : State) (inode flag : ℕ) : Bool :=
  s.permission inode (flag &&& O_ACCMODE) &&
    !(isDir (s.mode inode) && flag &&& O_ACCMODE ≠ O_RDONLY)

theorem makeup_cases {buf : ℕ} {o : Option ℕ} (h : makeup dir inode buf flag s = some (o, t)) :
    (o = none ∧ Quiet s t ∧ s.allows inode flag = false) ∨
    (o = some inode ∧ s.allows inode flag = true ∧ ∃ u v, touch inode s = some ((), u) ∧
      when (flag &&& O_TRUNC ≠ 0) (inodeTruncate inode) u = some ((), v) ∧ Quiet v t ∧
      Seated v t) := by
  unfold makeup at h
  rw [peek_bind] at h
  split_ifs at h with hp
  · exact .inl ⟨(openRollback_cases h).1, (openRollback_cases h).2, by
      simpa [State.allows] using fun hperm => absurd hperm (by simpa using hp)⟩
  rw [peek_bind] at h
  split_ifs at h with hd
  · exact .inl ⟨(openRollback_cases h).1, (openRollback_cases h).2, by
      simp [State.allows, hd]⟩
  obtain ⟨⟨⟩, u, hu, h⟩ := bind_eq_some.mp h
  obtain ⟨⟨⟩, v, hv, h⟩ := bind_eq_some.mp h
  obtain ⟨⟨⟩, w, hw, h⟩ := bind_eq_some.mp h
  obtain ⟨⟨⟩, x, hx, h⟩ := bind_eq_some.mp h
  simp only [pure_apply, Option.some.injEq, Prod.mk.injEq] at h
  obtain ⟨rfl, rfl⟩ := h
  refine .inr ⟨rfl, ?_, u, v, hu, hv,
    trans_of Quiet (brelse_quiet _ v _ _ hw) (iput_quiet _ w _ _ hx),
    trans_of Seated (brelse_same _ v _ _ hw).seated (iput_seated _ w _ _ hx)⟩
  rw [State.allows, Bool.and_eq_true]
  refine ⟨by simpa using hp, ?_⟩
  cases hdir : isDir (s.mode inode) with
  | false => rfl
  | true => simpa [hdir] using hd

/-- The ways out of `inode_open`: it gives up, it returns the directory of a path
with no last name, it opens what the last name is an entry of, or makes a file. -/
inductive Opens (s : State) (path : Str) (flag mode : ℕ) (o : Option ℕ) (t : State) : Prop where
  | quiet (ho : o = none) (hq : Quiet s t)
  | parent (dir : ℕ) (name : Str) (hn : named path s = some (some (dir, name), t))
    (hname : deref name = EOS) (ho : o = some dir)
  | old (dir : ℕ) (name next : Str) (u v w : State) (entry : Entry) (inode : ℕ)
    (hn : named path s = some (some (dir, name), u)) (hname : deref name ≠ EOS)
    (hf : findEntry dir name u = some (some (entry, next), v))
    (hi : iget (v.inodeTable dir).dev (v.entryNr entry) v = some (inode, w))
    (hm : makeup dir inode entry.buf (openFlag flag) w = some (o, t))
  | new (dir : ℕ) (name : Str) (u v w : State) (entry : Entry) (inode : ℕ)
    (hn : named path s = some (some (dir, name), u)) (hname : deref name ≠ EOS)
    (hf : findEntry dir name u = some (none, v)) (hcreat : flag &&& O_CREAT ≠ 0)
    (hp : v.permission dir P_WRITE = true)
    (hi : openIn dir name mode v = some ((entry, inode), w))
    (hm : makeup dir inode entry.buf (openFlag flag) w = some (o, t))

/-- The way to `makeup` for a name that is there. -/
theorem inodeOpen_old {v w : State} {entry : Entry} {next : Str}
    (hn : named path s = some (some (dir, name), u)) (hname : deref name ≠ EOS)
    (hf : findEntry dir name u = some (some (entry, next), v))
    (hi : iget (v.inodeTable dir).dev (v.entryNr entry) v = some (inode, w)) :
    inodeOpen path flag mode s = makeup dir inode entry.buf (openFlag flag) w := by
  unfold inodeOpen
  rw [bind_of_eq hn]
  dsimp only
  rw [if_neg hname, bind_of_eq hf]
  dsimp only
  rw [peek_bind, peek_bind, bind_of_eq hi]

/-- The way to the creating part of `inode_open`. -/
theorem inodeOpen_new {v : State} (hn : named path s = some (some (dir, name), u))
    (hname : deref name ≠ EOS) (hf : findEntry dir name u = some (none, v))
    (hcreat : flag &&& O_CREAT ≠ 0) (hp : v.permission dir P_WRITE = true) :
    inodeOpen path flag mode s = (openIn dir name mode >>= fun p =>
      makeup dir p.2 p.1.buf (openFlag flag)) v := by
  unfold inodeOpen
  rw [bind_of_eq hn]
  dsimp only
  rw [if_neg hname, bind_of_eq hf]
  dsimp only
  rw [openFlag_creat, if_neg hcreat, peek_bind, hp]
  rfl

theorem inodeOpen_cases {o : Option ℕ} (h : inodeOpen path flag mode s = some (o, t)) :
    Opens s path flag mode o t := by
  unfold inodeOpen at h
  obtain ⟨p, u, hn, h⟩ := bind_eq_some.mp h
  have hq : Quiet s u := named_quiet path s _ _ hn
  have hgive : ∀ {b d i : Option ℕ} {u' : State}, Quiet s u' →
      openRollback b d i u' = some (o, t) → Opens s path flag mode o t := fun hu hr =>
    .quiet (openRollback_cases hr).1 (trans_of Quiet hu (openRollback_cases hr).2)
  rcases p with - | ⟨dir, name⟩
  · exact hgive hq h
  dsimp only at h
  by_cases hname : deref name = EOS
  · rw [if_pos hname] at h
    simp only [pure_apply, Option.some.injEq, Prod.mk.injEq] at h
    obtain ⟨rfl, rfl⟩ := h
    exact .parent dir name hn hname rfl
  rw [if_neg hname] at h
  obtain ⟨e, v, he, h⟩ := bind_eq_some.mp h
  have hv : Quiet s v := trans_of Quiet hq (findEntry_quiet dir name u _ _ he)
  rcases e with - | ⟨entry, next⟩
  · dsimp only at h
    split_ifs at h with hcreat
    · exact hgive hv h
    rw [peek_bind] at h
    split_ifs at h with hp
    · exact hgive hv h
    obtain ⟨⟨entry, inode⟩, w, hi, h⟩ := bind_eq_some.mp h
    rw [openFlag_creat] at hcreat
    exact .new dir name u v w entry inode hn hname he hcreat (by simpa using hp) hi h
  · dsimp only at h
    rw [peek_bind, peek_bind] at h
    obtain ⟨inode, w, hi, h⟩ := bind_eq_some.mp h
    exact .old dir name next u v w entry inode hn hname he hi h

theorem sysMkdir_fixed (path : Str) (mode : ℕ) : Leads Fixed (sysMkdir path mode) := by
  intro s r t h
  rcases sysMkdir_cases h with ⟨-, hq⟩ | ⟨dir, name, u, v, hp, hf, hm⟩
  · exact hq.fixed
  · exact trans_of Fixed hp.quiet.fixed (trans_of Fixed (findEntry_same dir name u _ _ hf).fixed
      (mkdirIn_fixed dir name mode v _ _ hm))

theorem sysRmdir_fixed (path : Str) : Leads Fixed (sysRmdir path) := by
  intro s r t h
  rcases sysRmdir_cases h with ⟨-, hq⟩ | ⟨dir, inode, entry, u, v, w, hf, -, he, hr, -, hq⟩
  · exact hq.fixed
  · exact trans_of Fixed hf.quiet.fixed (trans_of Fixed (isEmpty_same inode u _ _ he).fixed
      (trans_of Fixed (rmdirIn_fixed dir inode entry v _ _ hr) hq.fixed))

theorem Linking.quiet {v : State} (h : Linking s old new inode dir name v) : Quiet s v := by
  obtain ⟨w, u, hold, -, hnew, -, -, hfind⟩ := h.reached
  exact trans_of Quiet (namei_quiet old s _ _ hold) (trans_of Quiet (named_quiet new w _ _ hnew)
    (findEntry_quiet dir name u _ _ hfind))

theorem sysLink_fixed (old new : Str) : Leads Fixed (sysLink old new) := by
  intro s r t h
  rcases sysLink_cases h with ⟨-, hq⟩ | ⟨inode, dir, name, v, w, entry, hl, hi, -, hq⟩
  · exact hq.fixed
  · exact trans_of Fixed hl.quiet.fixed (trans_of Fixed (linkIn_fixed dir name inode v _ _ hi) hq.fixed)

theorem sysUnlink_fixed (path : Str) : Leads Fixed (sysUnlink path) := by
  intro s r t h
  rcases sysUnlink_cases h with ⟨-, hq⟩ | ⟨dir, inode, entry, u, w, hf, -, hu, -, hq⟩
  · exact hq.fixed
  · exact trans_of Fixed hf.quiet.fixed
      (trans_of Fixed (unlinkIn_same inode entry u _ _ hu).fixed hq.fixed)

theorem inodeOpen_fixed (path : Str) (flag mode : ℕ) : Leads Fixed (inodeOpen path flag mode) := by
  intro s o t h
  cases inodeOpen_cases h with
  | quiet ho hq => exact hq.fixed
  | parent dir name hn hname ho => exact (named_quiet path s _ _ hn).fixed
  | old dir name next u v w entry inode hn hname hf hi hm =>
    exact trans_of Fixed (named_quiet path s _ _ hn).fixed
      (trans_of Fixed (findEntry_same dir name u _ _ hf).fixed
      (trans_of Fixed (iget_quiet _ _ v _ _ hi).fixed (makeup_fixed _ _ _ _ w _ _ hm)))
  | new dir name u v w entry inode hn hname hf hcreat hp hi hm =>
    exact trans_of Fixed (named_quiet path s _ _ hn).fixed
      (trans_of Fixed (findEntry_same dir name u _ _ hf).fixed
      (trans_of Fixed (openIn_fixed _ _ _ v _ _ hi) (makeup_fixed _ _ _ _ w _ _ hm)))

end Onix.Fs
