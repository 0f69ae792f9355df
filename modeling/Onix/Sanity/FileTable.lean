import Onix.Lib.Commute
import Onix.Sanity.Contents
import Onix.Spec.File

/-! `bmap` does not look at the table of open files, so what is said of a file between calls of
`bmap` also holds where descriptors move in between. -/

namespace Onix.Fs

open Function Prog Bytes

variable {s t u : State} {dev : ℤ} {inode n k block level buf addr index divider : ℕ} {create : Bool}
  {D : Set ℕ} {m : ℕ → ℕ} {f : ℕ → FileT} {bytes : List Byte}

/-- The same state with another table of open files. -/
def State.withFiles (s : State) (f : ℕ → FileT) : State := { s with fileTable := f }

section Blind

theorem getSuper_commutes : Commutes (State.withFiles · f) (getSuper dev) :=
  .bind (commutes_peek fun _ => rfl) fun _ => .bind (commutes_assert _) fun _ =>
    commutes_peek fun _ => rfl

theorem bread_commutes : Commutes (State.withFiles · f) (bread dev block) :=
  .bind (commutes_peek fun _ => rfl) fun _ => .bind (commutes_assert _) fun _ =>
    .bind (commutes_poke fun _ => rfl) fun _ => commutes_pure _

theorem bwrite_commutes (b : Option ℕ) : Commutes (State.withFiles · f) (bwrite b) := by
  cases b with
  | none => exact commutes_stop
  | some b => exact commutes_poke fun _ => rfl

theorem brelse_commutes (b : Option ℕ) : Commutes (State.withFiles · f) (brelse b) := by
  cases b with
  | none => exact commutes_pure ()
  | some b =>
    intro s
    change (s.cache.drop b).map _ = ((s.cache.drop b).map _).map _
    rw [Option.map_map]
    rfl

theorem scanMaps_commutes (maps : ℕ → Option ℕ) (length : ℕ) (offset : ℕ → ℕ) (limit n i : ℕ)
    (b : Option ℕ) : Commutes (State.withFiles · f) (scanMaps maps length offset limit n i b) := by
  induction n generalizing i b with
  | zero => exact commutes_pure _
  | succ n ih =>
    unfold scanMaps
    cases maps i with
    | none => exact commutes_stop
    | some b =>
      exact .bind (commutes_peek fun _ => rfl) fun _ => .bind (commutes_lift _) fun _ =>
        .bind (commutes_poke fun _ => rfl) fun _ => .ite (.bind (commutes_assert _) fun _ =>
          .bind (commutes_poke fun _ => rfl) fun _ => commutes_pure _) (ih _ _)

theorem balloc_commutes : Commutes (State.withFiles · f) (balloc dev) :=
  .bind getSuper_commutes fun _ => .bind (scanMaps_commutes _ _ _ _ _ _ _) fun _ =>
    .bind (bwrite_commutes _) fun _ => commutes_pure _

theorem bmapCell_commutes : Commutes (State.withFiles · f) (bmapCell dev create buf addr index) := by
  unfold bmapCell
  exact .bind (commutes_peek fun _ => rfl) fun _ => .ite (.bind balloc_commutes fun _ =>
    .bind (commutes_poke fun _ => rfl) fun _ => .bind (brelse_commutes _) fun _ =>
      commutes_peek fun _ => rfl) (.bind (brelse_commutes _) fun _ => commutes_peek fun _ => rfl)

theorem bmapLoop_commutes :
    Commutes (State.withFiles · f) (bmapLoop dev create level buf addr index block divider) := by
  induction level generalizing buf addr index block divider with
  | zero => exact bmapCell_commutes
  | succ level ih =>
    unfold bmapLoop
    exact .bind bmapCell_commutes fun _ => .ite (commutes_pure _) (.bind bread_commutes fun _ => ih)

theorem bmap_commutes : Commutes (State.withFiles · f) (bmap inode block create) := by
  unfold bmap
  exact .bind (commutes_assert _) fun _ => .bind (commutes_peek fun _ => rfl) fun _ =>
    .bind (commutes_peek fun _ => rfl) fun _ => .bind (commutes_peek fun _ => rfl) fun _ =>
    .bind (commutes_poke fun _ => rfl) fun _ => .ite bmapLoop_commutes (.ite bmapLoop_commutes
      (.bind (commutes_assert _) fun _ => bmapLoop_commutes))

end Blind

section Move

theorem Mapped.withFiles (h : Mapped inode m s k) : Mapped inode m (s.withFiles f) k := by
  obtain ⟨t, ht⟩ := h
  exact ⟨t.withFiles f, bmap_commutes.run ht⟩

theorem Stored.withFiles (h : Stored inode D m s t) :
    Stored inode D m (s.withFiles f) (t.withFiles f) where
  same := ⟨h.same.dev, h.same.sb, rfl, rfl, h.same.tasks, h.same.running, h.same.clock⟩
  table := h.table
  data := h.data

theorem Later.withFiles (h : Later inode D m s t) :
    Later inode D m (s.withFiles f) (t.withFiles f) := by
  induction h with
  | here => exact .here
  | bmap _ hk hb ih => exact .bmap ih hk (bmap_commutes.run hb)
  | store _ hs ih => exact .store ih hs.withFiles

theorem MapsTo.withFiles (hm : MapsTo inode D m s) : MapsTo inode D m (s.withFiles f) where
  dev := hm.dev
  ne_zero := hm.ne_zero
  inj := hm.inj
  apart := hm.apart
  create t ht k hk := by
    have hback : Later inode D m s (t.withFiles s.fileTable) := ht.withFiles
    obtain ⟨u, hu, hmapped, hdata, hmode, hsize⟩ := hm.create _ hback k hk
    have hrun : bmap inode k true ((t.withFiles s.fileTable).withFiles t.fileTable) =
        some (m k, u.withFiles t.fileTable) := bmap_commutes.run hu
    exact ⟨_, hrun, hmapped.withFiles, hdata, hmode, hsize⟩
  again t u ht hu k hk hmapped := by
    have hback : Later inode D m s (t.withFiles s.fileTable) := ht.withFiles
    have h : Mapped inode m (u.withFiles s.fileTable) k :=
      hm.again _ _ hback hu.withFiles k hk hmapped.withFiles
    exact h.withFiles (f := u.fileTable)

theorem Wrote.withFiles (h : Wrote inode D m n bytes s t) :
    Wrote inode D m n bytes (s.withFiles f) (t.withFiles f) where
  later := h.later.withFiles
  mode := h.mode
  size := h.size
  mapped p hp hlt := (h.mapped p hp hlt).withFiles
  byte := h.byte

end Move

end Onix.Fs
