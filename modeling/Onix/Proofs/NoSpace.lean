import Onix.Sanity.BmapSpec
import Onix.Sanity.IallocSpec
import Onix.Sanity.NameiCases
import Onix.Spec.Image

/-! A volume with no free zone or inode: only `balloc` can say so. -/

namespace Onix.Fs

open Function Prog Cstr

/-- No inode number is free. -/
def NoInode (s : State) : Prop := ∀ i z, s.sb.imaps i = some z → (s.data z).Full BLOCK_BITS

/-- `balloc` returns `EOF` and leaves the bitmap as it was. -/
def BallocRefuses (s : State) : Prop := ∃ t, balloc s.dev s = some (EOF, t) ∧
  ∀ i z, s.sb.zmaps i = some z → t.data z = s.data z

/-- `ialloc` returns `EOF` and leaves the bitmap as it was. -/
def IallocRefuses (s : State) : Prop := ∃ t, ialloc s.dev s = some (EOF, t) ∧
  ∀ i z, s.sb.imaps i = some z → t.data z = s.data z

/-- `bmap` with `create` returns that there is no block. -/
def BmapReports (s : State) (inode block : ℕ) : Prop := ∃ r t,
  bmap inode block true s = some (r, t) ∧ (r = 0 ∨ r = EOF)

/-- `inode_write` returns something else than the length of what it was to write. -/
def WriteReports (s : State) (inode : ℕ) (bytes : List Byte) (offset : ℤ) : Prop := ∃ r t,
  inodeWrite inode bytes offset s = some (r, t) ∧ r ≠ bytes.length

/-- The way to the part of `sys_mkdir` that needs an inode and a block. -/
def Making (s : State) (path : Str) : Prop := ∃ dir name u v,
  Parent s path dir name u ∧ findEntry dir name u = some (none, v)

/-- `sys_mkdir` fails. -/
def MkdirReports (s : State) (path : Str) (mode : ℕ) : Prop := ∃ r t,
  sysMkdir path mode s = some (r, t) ∧ r ≠ 0

/-- The way to the part of `inode_open` that needs an inode, and a block where the
directory has to grow. -/
structure Creating (s : State) (path : Str) (flag dir : ℕ) (name : Str) (v : State) : Prop where
  creat : flag &&& O_CREAT ≠ 0
  permitted : v.permission dir P_WRITE = true
  found : ∃ u, named path s = some (some (dir, name), u) ∧ deref name ≠ EOS ∧
    findEntry dir name u = some (none, v)

/-- `inode_open` fails, and not because the new file refuses the access mode. -/
def OpenReports (s : State) (path : Str) (flag mode dir : ℕ) (name : Str) (v : State) : Prop :=
  (∃ t, inodeOpen path flag mode s = some (none, t)) ∧ ∀ entry inode w,
    openIn dir name mode v = some ((entry, inode), w) → w.allows inode (openFlag flag) = true

variable {s t v : State} {n inode block flag mode dir : ℕ} {bytes : List Byte} {offset : ℤ}
  {path name : Str}

theorem balloc_refuses_iff (h : Volume s n) (hf : NoZone s) : BallocRefuses s ↔ n = ZMAP_NR := by
  have hscan := scanMaps_full h hf ZMAP_NR (Nat.zero_add _) (Nat.zero_le n) none
  have hsuper : balloc s.dev s = (scanMaps s.sb.zmaps BLOCK_SIZE (ballocOffset s.sb) s.sb.desc.zones
      ZMAP_NR 0 none >>= fun r => bwrite r.1 >>= fun _ => pure r.2) s := by
    unfold balloc getSuper
    simp only [bind_assoc, peek_bind]
    rw [assert_bind (by simp)]
    rfl
  constructor
  · rintro ⟨t, hb, -⟩
    by_contra hn
    rw [if_neg hn] at hscan
    rw [hsuper, bind_of_none hscan] at hb
    cases hb
  · intro hn
    obtain ⟨z, hz⟩ := h.loaded (ZMAP_NR - 1) (by rw [hn]; decide)
    rw [if_pos hn, if_neg (by decide), hz] at hscan
    refine ⟨s.cleaned z, ?_, fun i z' hz' => ?_⟩
    · rw [hsuper, bind_of_eq hscan]
      rfl
    · rw [data_cleaned]

theorem ialloc_never_refuses (hf : NoInode s) : ¬ IallocRefuses s := by
  rintro ⟨t, hi, -⟩
  cases hz : s.sb.imaps 0 with
  | none =>
    unfold ialloc getSuper at hi
    simp only [bind_assoc, peek_bind] at hi
    rw [assert_bind (by simp), peek_bind] at hi
    have hscan : scanMaps s.sb.imaps BLOCK_BITS imapOffset s.sb.desc.inodes IMAP_NR 0 none s = none := by
      unfold IMAP_NR
      rw [scanMaps, hz]
      rfl
    rw [bind_of_none hscan] at hi
    cases hi
  | some z =>
    rw [ialloc_over hz (hf 0 z hz)] at hi
    cases hi

theorem bmap_never_reports (h : Volume s n) (hf : NoZone s) : ¬ BmapReports s inode block := by
  rintro ⟨r, t, hb, hr⟩
  obtain ⟨hne, hlt, -⟩ := bmap_spent ⟨h, hf⟩ hb
  rcases hr with rfl | rfl
  · exact hne rfl
  · exact absurd hlt (by decide)

theorem inodeWrite_returns (s : State) : Post (inodeWrite inode bytes offset) s fun r _ =>
    r = bytes.length := by
  unfold inodeWrite
  iterate 7 refine returns_bind (fun _ s => ?_) _
  exact post_pure rfl

theorem sysMkdir_making (hm : Making s path) (h : sysMkdir path mode s = some (n, t)) : n = 0 := by
  obtain ⟨dir, name, u, v, hp, hf⟩ := hm
  unfold sysMkdir at h
  rw [bind_of_eq hp.named] at h
  dsimp only at h
  rw [if_neg hp.nonempty, peek_bind, hp.permitted] at h
  have h : (findEntry dir name >>= fun e => _) u = some (n, t) := h
  rw [bind_of_eq hf] at h
  exact mkdirIn_returns v n t h

theorem open_never_reports (hc : Creating s path flag dir name v) :
    ¬ OpenReports s path flag mode dir name v := by
  rintro ⟨⟨t, ho⟩, hall⟩
  obtain ⟨u, hn, hname, hf⟩ := hc.found
  rw [inodeOpen_new hn hname hf hc.creat hc.permitted] at ho
  obtain ⟨⟨entry, inode⟩, w, hi, hm⟩ := bind_eq_some.mp ho
  rcases makeup_cases hm with ⟨-, -, hno⟩ | ⟨hsome, -⟩
  · rw [hall entry inode w hi] at hno
    cases hno
  · cases hsome

/-- `balloc` reports that no zone is free exactly with all eight bitmap blocks loaded,
`ialloc` never does for inodes, and no function above them ever reports either. -/
theorem no_space (h : Volume s n) :
    (NoZone s → (BallocRefuses s ↔ n = ZMAP_NR) ∧ ∀ inode block, ¬ BmapReports s inode block) ∧
    (NoInode s → ¬ IallocRefuses s) ∧
    (∀ inode bytes offset, ¬ WriteReports s inode bytes offset) ∧
    (∀ path mode, Making s path → ¬ MkdirReports s path mode) ∧
    (∀ path flag mode dir name v, Creating s path flag dir name v →
      ¬ OpenReports s path flag mode dir name v) := by
  refine ⟨fun hf => ⟨balloc_refuses_iff h hf, fun _ _ => bmap_never_reports h hf⟩,
    ialloc_never_refuses, ?_, ?_, fun _ _ _ _ _ _ => open_never_reports⟩
  · rintro inode bytes offset ⟨r, t, hw, hr⟩
    exact hr (inodeWrite_returns s r t hw)
  · rintro path mode hm ⟨r, t, hk, hr⟩
    exact hr (sysMkdir_making hm hk)

/-- A volume with one bitmap block and 60 blocks in use. -/
def fullDisk : Image where
  descs := [⟨0o040755, 0, 32, 2, [5]⟩]
  blocks := List.replicate 60 []
  uid := 0

theorem bitmapOf_bit (bit : ℕ → Bool) (k : ℕ) : (bitmapOf bit).bit k = bit k := by
  have hdigit : ∀ (b : Bool) (n j : ℕ), (2 * n + b.toNat).testBit j =
      if j = 0 then b else n.testBit (j - 1) := by
    intro b n j
    cases j with
    | zero => cases b <;> simp [Nat.testBit_zero]
    | succ j =>
      have hhalf : (2 * n + b.toNat) / 2 = n := by cases b <;> simp; omega
      rw [Nat.testBit_succ, hhalf]
      simp
  have hk : k = 8 * (k / 8) + k % 8 := by omega
  have h8 : k % 8 < 8 := Nat.mod_lt _ (by decide)
  unfold Bytes.bit bitmapOf
  conv_rhs => rw [hk]
  generalize k % 8 = j at h8
  simp only [BitVec.getLsbD_ofNat, h8, decide_true, Bool.true_and, List.range_succ, List.range_zero,
    List.nil_append, List.foldr_append, List.foldr_cons, List.foldr_nil, hdigit]
  interval_cases j <;> simp

theorem mount_map (m : Image) : ∀ i z, m.mount.sb.zmaps i = some z → i = 0 ∧ z = 3 := by
  intro i z hz
  by_cases hi : i = 0
  · subst hi
    exact ⟨rfl, (Option.some.inj hz).symm⟩
  · simp [Image.mount, hi] at hz

theorem mount_volume (m : Image) : Volume m.mount 1 where
  pos := le_rfl
  le := by decide
  loaded i hi := ⟨3, by simp [Image.mount, show i = 0 by omega]⟩
  absent i hi := by simp [Image.mount, show i ≠ 0 by omega]
  distinct i j z hi hj := (mount_map m i z hi).1.trans (mount_map m j z hj).1.symm
  first := Nat.succ_pos 4
  zones := Nat.le_of_ble_eq_true rfl
  zones_lt := Nat.lt_of_sub_eq_succ rfl
  preset i z k hz _ hk := by
    obtain ⟨rfl, rfl⟩ := mount_map m i z hz
    have hdata : m.mount.data 3 = bitmapOf fun k => k ≤ m.blocks.length ∨ 64 ≤ 4 + k := rfl
    have hge : 64 ≤ 4 + (0 * BLOCK_BITS + k) := hk
    rw [hdata, bitmapOf_bit]
    exact decide_eq_true (.inr (by omega))

theorem fullDisk_noZone : NoZone fullDisk.mount := by
  intro i z hz k hk
  obtain ⟨-, rfl⟩ := mount_map _ i z hz
  have hdata : fullDisk.mount.data 3 =
      bitmapOf fun k => k ≤ fullDisk.blocks.length ∨ 64 ≤ 4 + k := rfl
  rw [hdata, bitmapOf_bit]
  simp [fullDisk]
  omega

/-- With one bitmap block loaded `balloc` trips over the second. -/
theorem balloc_trips : ∃ (s : State) (n : ℕ), Volume s n ∧ NoZone s ∧ ¬ BallocRefuses s :=
  ⟨fullDisk.mount, 1, mount_volume _, fullDisk_noZone, fun h =>
    absurd ((balloc_refuses_iff (mount_volume _) fullDisk_noZone).mp h) (by decide)⟩

theorem no_space_fullDisk : ¬ BallocRefuses fullDisk.mount ∧
    (∀ inode block, ¬ BmapReports fullDisk.mount inode block) :=
  have h := (no_space (mount_volume _)).1 fullDisk_noZone
  ⟨fun hb => absurd (h.1.mp hb) (by decide), h.2⟩

end Onix.Fs
