import Onix.Spec.Named
import Onix.Sanity.TreeSpec

/-! The loop of `named` against the walk that the contents of the disk give. -/

namespace Onix.Fs

open Function Prog Cstr

section Disk

variable (s : State) (x : ℕ)

/-- `permission` by inode number. -/
def State.permissionNr (mask : ℕ) : Bool :=
  let d := s.data (s.descBuf x)
  let mode := d.rd16 (descAddr x)
  let rights :=
    if s.task.uid = d.rd16 (descAddr x + 2) then mode >>> 6
    else if s.task.gid = d.rd8 (descAddr x + 12) then mode >>> 3
    else mode
  if d.rd8 (descAddr x + 13) = 0 then false
  else if s.task.uid = KERNEL_USER then true
  else rights &&& mask &&& 0b111 == mask

/-- What `match_name` says to entry `k` of the directory with number `x`. -/
def State.matchNr (left : Str) (k : ℕ) : Option Str :=
  matchName left (s.data (s.slotNr x k).buf) ((s.slotNr x k).addr + 2)

/-- Entry `k` is the first of directory `x` that `left` matches, with `next` left of the path. -/
structure State.Hits (left next : Str) (k : ℕ) : Prop where
  lt : k < s.entriesNr x
  hit : s.matchNr x left k = some next
  first : ∀ j < k, s.matchNr x left j = none

/-- The first entry of directory `x` that `left` matches leads to the directory `y`, which the
task may search, with `next` left of the path. -/
structure State.Follows (left next : Str) (y : ℕ) : Prop where
  dir : isDir (s.modeNr x) = true
  entry : ∃ k, s.Hits x left next k ∧ s.target x k = y
  target : isDir (s.modeNr y) = true
  search : s.permissionNr y P_EXEC = true

/-- The walk from `left` in directory `x` comes to `left'` in `x'`, never at `right` before. -/
inductive State.Reaches (s : State) (right : Str) : ℕ → Str → ℕ → Str → Prop where
  | refl (x : ℕ) (left : Str) : Reaches s right x left x left
  | step {x y x' : ℕ} {left next left' : Str} (h : s.Follows x left next y)
    (hnext : right.length ≠ next.length) (hrest : Reaches s right y next x' left') :
    Reaches s right x left x' left'

/-- From directory `x` on the first entries that the rest `left` of the path matches lead from
directory to directory for ever and use up none of it. -/
def State.Trap (left : Str) : Prop :=
  ∃ f : ℕ → ℕ, f 0 = x ∧ ∀ n, s.Follows (f n) left left (f (n + 1))

/-- The walk comes past the last separator to the end of the path, in a directory where empty
names lead on for ever. -/
def State.Trapped (pathname : Str) : Prop := ∃ inode left right x left',
  s.enters pathname = some (inode, left, right) ∧
    s.Reaches right (s.nr inode) left x left' ∧ deref left' = EOS ∧ s.Trap x left'

end Disk

variable {s t u v : State} {right left left' next next' pathname : Str} {x y y' x' i n k : ℕ}
  {e : Entry}

section Path

theorem strrsep_length {right : Str} (h : strrsep left = some right) :
    right.length ≤ left.length ∧ right ≠ [] := by
  induction left with
  | nil => cases h
  | cons c left ih =>
    rw [strrsep] at h
    by_cases hc : c = EOS
    · rw [if_pos hc] at h
      cases h
    rw [if_neg hc] at h
    cases hs : strrsep left with
    | some last =>
      rw [hs] at h
      cases h
      have hrest := ih hs
      exact ⟨Nat.le_succ_of_le hrest.1, hrest.2⟩
    | none =>
      rw [hs] at h
      dsimp only at h
      by_cases hsep : isSeparator c = true
      · rw [if_pos hsep] at h
        cases h
        exact ⟨le_rfl, List.cons_ne_nil c left⟩
      · rw [if_neg hsep] at h
        cases h

theorem entersFrom_eq_some (h : entersFrom x left = some (i, left', right)) :
    i = x ∧ left' = left ∧ deref left ≠ EOS ∧ ∃ c, strrsep left = some (c :: right) := by
  unfold entersFrom at h
  split_ifs at h with hend
  obtain ⟨r, hr, he⟩ := Option.map_eq_some_iff.mp h
  cases he
  obtain ⟨c, q, rfl⟩ := List.exists_cons_of_ne_nil (strrsep_length hr).2
  exact ⟨rfl, rfl, hend, c, hr⟩

/-- The loop begins before the last separator, and not at the end of the path. -/
theorem enters_spec (h : s.enters pathname = some (i, left, right)) :
    (i = s.task.iroot ∨ i = s.task.ipwd) ∧ deref left ≠ EOS ∧ right.length < left.length ∧
      ∃ c, strrsep left = some (c :: right) := by
  have hfrom : ∀ x l, entersFrom x l = some (i, left, right) →
      i = x ∧ deref left ≠ EOS ∧ right.length < left.length ∧
        ∃ c, strrsep left = some (c :: right) := by
    intro x l hl
    obtain ⟨rfl, rfl, hend, c, hc⟩ := entersFrom_eq_some hl
    exact ⟨rfl, hend, (strrsep_length hc).1, c, hc⟩
  unfold State.enters at h
  split_ifs at h
  · obtain ⟨hi, hrest⟩ := hfrom _ _ h
    exact ⟨Or.inl hi, hrest⟩
  · obtain ⟨hi, hrest⟩ := hfrom _ _ h
    exact ⟨Or.inr hi, hrest⟩

end Path

section Loop

/-- A turn is a turn of the loop. -/
theorem namedLoop_succ (right : Str) (n inode : ℕ) (left : Str) (buf : Option ℕ) :
    namedLoop right (n + 1) inode left buf = namedTurn right ⟨inode, left, buf⟩ >>= fun o =>
      match o with
      | .inl x => namedLoop right n x.inode x.left x.buf
      | .inr r => pure r := by
  unfold namedTurn
  rw [namedLoop, bind_assoc]
  refine congrArg (brelse buf >>= ·) (funext fun _ => ?_)
  rw [bind_assoc]
  refine congrArg (findEntry inode left >>= ·) (funext fun o => ?_)
  rcases o with - | ⟨entry, next⟩
  · dsimp only
    rw [bind_assoc]
    rfl
  dsimp only
  rw [bind_assoc]
  refine congrArg (peek _ >>= ·) (funext fun dev => ?_)
  rw [bind_assoc]
  refine congrArg (iput (some inode) >>= ·) (funext fun _ => ?_)
  rw [bind_assoc]
  refine congrArg (peek _ >>= ·) (funext fun nr => ?_)
  rw [bind_assoc]
  refine congrArg (iget dev nr >>= ·) (funext fun j => ?_)
  rw [bind_assoc]
  refine congrArg (peek _ >>= ·) (funext fun ok => ?_)
  split_ifs
  · rw [bind_assoc]
    refine congrArg (brelse (some entry.buf) >>= ·) (funext fun _ => ?_)
    rw [bind_assoc]
    rfl
  · rw [bind_assoc]
    rfl
  · rfl

end Loop

section Placed

theorem SameDisk.permissionNr {mask : ℕ} (h : SameDisk s t) (ht : t.task = s.task) :
    t.permissionNr x mask = s.permissionNr x mask := by
  unfold State.permissionNr
  rw [h.data, h.descBuf, ht]

theorem Placed.permission {mask : ℕ} (h : Placed s) (hi : i ∈ s.sb.inodeList) :
    s.permission i mask = s.permissionNr (s.nr i) mask := by
  unfold State.permission State.permissionNr State.rights State.nlinks State.mode State.uid State.gid
  rw [h.buf i hi, h.idesc hi]
  rfl

theorem SameDisk.matchNr (h : SameDisk s t) : t.matchNr x left k = s.matchNr x left k := by
  unfold State.matchNr
  rw [h.slotNr, h.data]

theorem Placed.matchSlot (h : Placed s) (hi : i ∈ s.sb.inodeList) :
    s.matchSlot i k left = s.matchNr (s.nr i) left k := by
  unfold State.matchSlot State.matchNr
  rw [h.slot_eq hi]

theorem State.Hits.unique {k' : ℕ} (h : s.Hits x left next k) (h' : s.Hits x left next' k') :
    next = next' ∧ k = k' := by
  obtain hlt | rfl | hlt := Nat.lt_trichotomy k k'
  · have hnone := h'.first k hlt
    rw [h.hit] at hnone
    cases hnone
  · exact ⟨Option.some.inj (h.hit.symm.trans h'.hit), rfl⟩
  · have hnone := h.first k' hlt
    rw [h'.hit] at hnone
    cases hnone

/-- The rest of the path and the directory are determined. -/
theorem State.Follows.unique (h : s.Follows x left next y) (h' : s.Follows x left next' y') :
    next = next' ∧ y = y' := by
  obtain ⟨k, hk, rfl⟩ := h.entry
  obtain ⟨k', hk', rfl⟩ := h'.entry
  obtain ⟨rfl, rfl⟩ := hk.unique hk'
  exact ⟨rfl, rfl⟩

/-- A walk over the disk of `s` by its task stands at the inode. -/
structure Walks (s u : State) (inode : ℕ) : Prop where
  stands : Stands s (fun _ => True) u inode
  task : u.task = s.task

theorem Walks.same (h : Walks s u i) (hs : Same u v) (hd : v.data = u.data) : Walks s v i :=
  ⟨h.stands.same hs hd, hs.fixed.task.trans h.task⟩

/-- What `find_entry` finds is what the disk has. -/
theorem Walks.find (h : Walks s u i) (hf : findEntry i left u = some (some (e, next), v)) :
    isDir (s.modeNr (u.nr i)) = true ∧
      ∃ k, s.Hits (u.nr i) left next k ∧ s.target (u.nr i) k = v.entryNr e := by
  have hdisk := h.stands.disk
  have hv : v.data = u.data := (findEntry_quiet i left u _ _ hf).data
  obtain ⟨hd, k, hk, rfl, hmatch, hfirst⟩ := h.stands.placed.find h.stands.mem hf
  rw [hdisk.modeNr] at hd
  rw [hdisk.entriesNr] at hk
  refine ⟨hd, k, ⟨hk, ?_, fun j hj => ?_⟩, ?_⟩
  · rw [← hdisk.matchNr]
    exact hmatch
  · rw [← hdisk.matchNr, ← h.stands.placed.matchSlot h.stands.mem]
    exact hfirst j hj
  · rw [← hdisk.target]
    unfold State.target State.entryNr
    rw [hv]

theorem Walks.miss (h : Walks s u i) (hf : findEntry i left u = some (none, v)) :
    ¬ s.Follows (u.nr i) left next y := by
  intro hfollows
  obtain ⟨k, hk, -⟩ := hfollows.entry
  obtain ⟨-, ⟨-, hall⟩ | ⟨_, _, hsome, -⟩⟩ := findEntry_finds hf
  · have hnone := hall k (by
      rw [h.stands.placed.entries h.stands.mem, h.stands.disk.entriesNr]
      exact hk.lt)
    rw [h.stands.placed.matchSlot h.stands.mem, h.stands.disk.matchNr, hk.hit] at hnone
    cases hnone
  · cases hsome

end Placed

section Turn

end Turn

end Onix.Fs
