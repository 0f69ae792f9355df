import Onix.Sanity.Contents
import Onix.Spec.Image

/-! `inode_read` after `inode_write`, at every alignment of the two ranges. -/

namespace Onix.Fs

open Function Prog Bytes

variable {s t u : State} {dev : ℤ} {inode n buf addr i k : ℕ} {D : Set ℕ} {m : ℕ → ℕ}
  {p : List ℕ} {bytes : List Byte}

section Present

/-- The blocks `D` of a file are there, and neither the inode nor the index blocks on the way
to them are among them. -/
structure InPlace (inode : ℕ) (D : Set ℕ) (m : ℕ → ℕ) (s : State) : Prop where
  dev : (s.inodeTable inode).dev = s.dev
  lt : ∀ k ∈ D, k < TOTAL_BLOCK
  held : ∀ k ∈ D, s.held (s.spotOf inode k) = m k
  ne_zero : ∀ k ∈ D, m k ≠ 0
  inj : ∀ k ∈ D, ∀ l ∈ D, m k = m l → k = l
  apart : ∀ k ∈ D, m k ≠ s.ibuf inode
  way : ∀ k ∈ D, ∀ q r b, q ≠ [] → r ≠ [] → q ++ r = path k → s.nodeOf inode q = some b →
    b ≠ s.ibuf inode ∧ ∀ l ∈ D, b ≠ m l

/-- Where the way to a cell reads the same, so does the cell. -/
theorem held_spot_congr (h₀ : ∀ j, addr ≤ j → t.data buf j = s.data buf j)
    (h : ∀ q r b, q ≠ [] → r ≠ [] → q ++ r = p → s.node buf addr q = some b → t.data b = s.data b) :
    t.held (t.spot buf addr p) = s.held (s.spot buf addr p) := by
  have hrd : ∀ j, addr ≤ j → (t.data buf).rd16 j = (s.data buf).rd16 j := by
    intro j hj
    unfold rd16 rd8
    rw [h₀ j hj, h₀ (j + 1) (by omega)]
  induction p generalizing buf addr with
  | nil => rfl
  | cons i p ih =>
    cases p with
    | nil => exact hrd _ (by omega)
    | cons j p =>
      have hcell : t.cell buf addr i = s.cell buf addr i := hrd _ (by omega)
      unfold State.spot
      rw [hcell]
      split_ifs with h0
      · rfl
      have hnode : s.node buf addr [i] = some (s.cell buf addr i) := by
        unfold State.node
        rw [if_neg h0]
        rfl
      have hdata := h [i] (j :: p) _ (List.cons_ne_nil _ _) (List.cons_ne_nil _ _) rfl hnode
      refine ih (fun l _ => by rw [hdata]) (fun q r b _ hr hqr hb => ?_) fun l _ => by rw [hdata]
      refine h (i :: q) r b (List.cons_ne_nil _ _) hr (by rw [List.cons_append, hqr]) ?_
      unfold State.node
      rw [if_neg h0]
      exact hb

theorem bmapCell_create (h : s.cell buf addr i ≠ 0) :
    bmapCell dev true buf addr i s = bmapCell dev false buf addr i s := by
  have hnot : (decide ((s.data buf).rd16 (addr + 2 * i) = 0) && true) = false := by
    rw [Bool.and_true]
    exact decide_eq_false h
  unfold bmapCell
  rw [peek_bind, peek_bind, hnot, Bool.and_false]

/-- Where every cell on the way is filled, there is nothing to create. -/
theorem follow_create (hdev : dev = s.dev) (hpos : 0 < s.cache.count buf)
    (h : s.held (s.spot buf addr p) ≠ 0) :
    follow dev true buf addr p s = follow dev false buf addr p s := by
  induction p generalizing s buf addr with
  | nil => exact absurd rfl h
  | cons i p ih =>
    cases p with
    | nil => exact bmapCell_create h
    | cons j p =>
      unfold State.spot at h
      split_ifs at h with h0
      · exact absurd rfl h
      obtain ⟨u, hu⟩ : ∃ u, bmapCell dev false buf addr i s = some (s.cell buf addr i, u) :=
        bmapCell_look hpos
      have hdata : u.data = s.data := (bmapCell_writtenBack s _ _ hu).data
      have hdevu : dev = u.dev := hdev.trans (bmapCell_same dev false buf addr i s _ _ hu).dev.symm
      unfold follow
      rw [bind_of_eq ((bmapCell_create h0).trans hu), bind_of_eq hu, if_neg h0, if_neg h0,
        bind_of_eq (bread_held hdevu _), bind_of_eq (bread_held hdevu _)]
      refine ih hdevu ?_ ?_
      · have hself : (u.cache.hold (s.cell buf addr i)).count (s.cell buf addr i) =
            u.cache.count (s.cell buf addr i) + 1 := update_self ..
        dsimp only
        rw [hself]
        exact Nat.succ_pos _
      · have hdata' : { u with cache := u.cache.hold (s.cell buf addr i) }.data = s.data := hdata
        rw [spot_congr hdata', held_congr hdata']
        exact h

/-- What stays of an allocated file: the way to its blocks. -/
structure Kept (inode : ℕ) (D : Set ℕ) (s t : State) : Prop where
  desc : ∀ j, s.izone inode ≤ j → t.data (s.ibuf inode) j = s.data (s.ibuf inode) j
  way : ∀ k ∈ D, ∀ q r b, q ≠ [] → r ≠ [] → q ++ r = path k → s.nodeOf inode q = some b →
    t.data b = s.data b

theorem Later.slot (h : Later inode D m s t) : t.izone inode = s.izone inode := by
  obtain ⟨-, a, ha⟩ := h.kept
  unfold State.izone State.idesc
  rw [ha]

/-- `bmap` finds every block of an allocated file and changes none, whether it may create or
not. -/
theorem InPlace.bmap (ha : InPlace inode D m s) (hl : Later inode D m s t) (h : Kept inode D s t)
    (hk : k ∈ D) (create : Bool) : ∃ u, bmap inode k create t = some (m k, u) ∧ u.data = t.data := by
  obtain ⟨hdev, a, htable⟩ := hl.kept
  have hheld : t.held (t.spotOf inode k) = m k := by
    rw [← ha.held k hk]
    unfold State.spotOf
    rw [hl.ibuf, hl.slot]
    exact held_spot_congr h.desc (h.way k hk)
  let v : State := { t with cache := t.cache.hold (t.ibuf inode) }
  have hpos : 0 < v.cache.count (t.ibuf inode) := by
    have hself : v.cache.count (t.ibuf inode) = t.cache.count (t.ibuf inode) + 1 := update_self ..
    rw [hself]
    exact Nat.succ_pos _
  have hdevt : (t.inodeTable inode).dev = v.dev := by
    rw [htable]
    exact ha.dev.trans hdev.symm
  have hspot : v.held (v.spot (t.ibuf inode) (t.izone inode) (path k)) = m k := by
    have hdatav : v.data = t.data := rfl
    rw [spot_congr hdatav, held_congr hdatav]
    exact hheld
  have hpath : path k ≠ [] := by
    intro h0
    rw [h0] at hspot
    exact ha.ne_zero k hk hspot.symm
  obtain ⟨u, hu⟩ : ∃ u, follow (t.inodeTable inode).dev false (t.ibuf inode) (t.izone inode) (path k) v =
      some (v.held (v.spot (t.ibuf inode) (t.izone inode) (path k)), u) :=
    follow_look hdevt hpos hpath
  rw [hspot] at hu
  have hrun : Fs.bmap inode k create t = some (m k, u) := by
    rw [bmap_follow (ha.lt k hk)]
    cases create with
    | false => exact hu
    | true => exact (follow_create hdevt hpos (by rw [hspot]; exact ha.ne_zero k hk)).trans hu
  exact ⟨u, hrun, (follow_writtenBack v _ _ hu).data⟩

theorem InPlace.kept (ha : InPlace inode D m s) (hl : Later inode D m s t) : Kept inode D s t := by
  induction hl with
  | here => exact ⟨fun _ _ => rfl, fun _ _ _ _ _ _ _ _ _ => rfl⟩
  | @bmap t u k r create hl hk hb ih =>
    obtain ⟨v, hv, hdata⟩ := ha.bmap hl ih hk create
    obtain rfl : v = u := by
      rw [hb] at hv
      exact (Prod.mk.inj (Option.some.inj hv)).2.symm
    exact ⟨fun j hj => by rw [hdata, ih.desc j hj], fun k hk q r b hq hr hqr hb => by
      rw [hdata, ih.way k hk q r b hq hr hqr hb]⟩
  | @store t u hl hs ih =>
    have hibuf : t.ibuf inode = s.ibuf inode := hl.ibuf
    have hidesc : s.izone inode = t.idesc inode + 14 := hl.slot.symm
    refine ⟨fun j hj => ?_, fun k hk q r b hq hr hqr hb => ?_⟩
    · rw [← ih.desc j hj]
      refine hs.data _ _ (fun k hk h => ha.apart k hk h.symm) fun h => ?_
      omega
    · obtain ⟨hne, hd⟩ := ha.way k hk q r b hq hr hqr hb
      rw [← ih.way k hk q r b hq hr hqr hb]
      funext j
      exact hs.data b j hd fun h => hne (h.1.trans hibuf)

/-- A file whose blocks are there is one for which `bmap` always returns the same blocks. -/
theorem InPlace.mapsTo (ha : InPlace inode D m s) : MapsTo inode D m s where
  dev := ha.dev
  ne_zero := ha.ne_zero
  inj := ha.inj
  apart := ha.apart
  create t hl k hk := by
    obtain ⟨u, hu, hdata⟩ := ha.bmap hl (ha.kept hl) hk true
    have hlu : Later inode D m s u := .bmap hl hk hu
    obtain ⟨v, hv, -⟩ := ha.bmap hlu (ha.kept hlu) hk false
    have hsame := bmap_same _ _ _ _ _ _ hu
    refine ⟨u, hu, ⟨v, hv⟩, fun l _ => by rw [hdata], ?_⟩
    unfold State.mode State.size State.ibuf State.idesc
    rw [hdata, hsame.inodeTable]
    exact ⟨rfl, rfl⟩
  again t u hl hl' k hk _ := by
    obtain ⟨v, hv, -⟩ := ha.bmap (hl.trans hl') (ha.kept (hl.trans hl')) hk false
    exact ⟨v, hv⟩

end Present

/-- A file of one block. -/
theorem InPlace.single {b : ℕ} (hdev : (s.inodeTable inode).dev = s.dev)
    (hheld : s.held (s.spotOf inode 0) = b) (h0 : b ≠ 0) (hapart : b ≠ s.ibuf inode) :
    InPlace inode {0} (fun _ => b) s := by
  have hpath : path 0 = [0] := rfl
  refine ⟨hdev, ?_, ?_, fun k _ => h0, ?_, fun k _ => hapart, ?_⟩
  · intro k hk
    obtain rfl := Set.mem_singleton_iff.mp hk
    decide
  · intro k hk
    obtain rfl := Set.mem_singleton_iff.mp hk
    exact hheld
  · intro k hk l hl _
    exact hk.trans hl.symm
  · intro k hk q r b hq hr hqr
    obtain rfl := Set.mem_singleton_iff.mp hk
    rw [hpath] at hqr
    have hlen := congrArg List.length hqr
    rw [List.length_append] at hlen
    have hq' := List.length_pos_iff.mpr hq
    have hr' := List.length_pos_iff.mpr hr
    simp only [List.length_cons, List.length_nil] at hlen
    omega

end Onix.Fs
