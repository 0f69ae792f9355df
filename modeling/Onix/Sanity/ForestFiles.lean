import Onix.Lib.Refine
import Onix.Sanity.ForestCalls
import Onix.Spec.Files

/-! The files that the index trees hold, and what `inode_read`, `inode_write` and `inode_truncate`
do to them. -/

namespace Onix.Fs

open Function Prog Bytes

variable {s t u v : State} {x y i k n left fuel r : ℕ} {p q : List ℕ} {bytes out : List Byte}

section View

/-- Byte `n` of the file with number `x`. -/
def State.fileByte (s : State) (x n : ℕ) : Option Byte :=
  if n / BLOCK_SIZE < TOTAL_BLOCK then
    (s.nodeNr x (path (n / BLOCK_SIZE))).map fun b => s.data b (n % BLOCK_SIZE)
  else none

def State.content (s : State) (x : ℕ) : Content := ⟨s.modeNr x, s.sizeNr x, s.fileByte x⟩

/-- The files of the volume. -/
def State.files (s : State) : Files := fun x => if x ≤ s.sb.desc.inodes then some (s.content x) else none

/-- The bytes of a file are the same if its blocks are. -/
theorem fileByte_congr (h : ∀ k < TOTAL_BLOCK, t.nodeNr x (path k) = s.nodeNr x (path k) ∧
    ∀ b, s.nodeNr x (path k) = some b → t.data b = s.data b) : t.fileByte x = s.fileByte x := by
  funext n
  unfold State.fileByte
  split_ifs with hk
  · obtain ⟨hnode, hdata⟩ := h _ hk
    rw [hnode]
    exact Option.map_congr fun b hb => by rw [hdata b hb]
  · rfl

theorem nodeNr_data (hl : SameLayout s t) (h : t.data = s.data) : t.nodeNr x p = s.nodeNr x p := by
  unfold State.nodeNr
  rw [node_congr h, hl.descBuf]

theorem content_data (hl : SameLayout s t) (h : t.data = s.data) (hx : x ≤ s.sb.desc.inodes) :
    t.content x = s.content x := by
  have hheads : Heads s t := .of_data hl h
  unfold State.content
  rw [hheads.mode hx, hheads.size hx, fileByte_congr fun k _ => ⟨nodeNr_data hl h, fun b _ => by rw [h]⟩]

/-- A file with a number outside `X` is as it was. -/
theorem Spares.content {X : Set ℕ} (h : Spares X s t) (hx : x ≤ s.sb.desc.inodes) (hX : x ∉ X) :
    t.content x = s.content x := by
  have hcell : ∀ {o : ℕ}, o < DESC_SIZE →
      (t.data (t.descBuf x)).rd8 (descAddr x + o) = (s.data (s.descBuf x)).rd8 (descAddr x + o) := by
    intro o ho
    unfold rd8
    rw [h.layout.descBuf, h.desc x hx hX _ (by omega) (by omega)]
  have hmode : t.modeNr x = s.modeNr x := by
    have h0 := hcell (by decide : 0 < DESC_SIZE)
    unfold State.modeNr rd16
    rw [Nat.add_zero] at h0
    rw [h0, hcell (by decide : 1 < DESC_SIZE)]
  have hsize : t.sizeNr x = s.sizeNr x := by
    unfold State.sizeNr rd32 rd16
    simp only [Nat.add_assoc, hcell (by decide : 4 < DESC_SIZE), hcell (by decide : 5 < DESC_SIZE),
      hcell (by decide : 6 < DESC_SIZE), hcell (by decide : 7 < DESC_SIZE), Nat.reduceAdd]
  have hbytes : t.fileByte x = s.fileByte x := fileByte_congr fun k hk =>
    ⟨h.nodes x hx hX _ (.inr (way_path hk)), fun b => h.data x hx hX _ b (way_path hk)⟩
  unfold State.content
  rw [hmode, hsize, hbytes]

/-- Where only the file with number `x` may have changed. -/
theorem Spares.files (h : Spares {x} s t) (hx : x ≤ s.sb.desc.inodes) :
    t.files = update s.files x (some (t.content x)) := by
  funext y
  unfold State.files
  rw [h.layout.desc]
  by_cases hyx : y = x
  · subst hyx
    rw [update_self, if_pos hx]
  · rw [update_of_ne hyx]
    split_ifs with hy
    · rw [h.content hy hyx]
    · rfl

end View

section Read

end Read

section Write

/-- Bytes have been written at `n` to the file with number `x` and nowhere else. -/
structure Fills (x n : ℕ) (bytes : List Byte) (s t : State) : Prop where
  grows : Grows {x} s t
  after : (s.content x).After (.write n bytes) (t.content x)

theorem Fills.nil (h : Trees s) : Fills x n [] s s :=
  ⟨⟨h, refl_of (Grown {x}) s⟩, rfl, (if_pos rfl).symm, fun p hp hlt => absurd hlt (by simpa using hp),
    fun _ _ _ => id⟩

/-- Two writes one after the other are one. -/
theorem Fills.append {xs ys : List Byte} (h : Fills x n xs s t) (h' : Fills x (n + xs.length) ys t u) :
    Fills x n (xs ++ ys) s u := by
  obtain ⟨hmode, hsize, hbytes, hold⟩ := h.after
  obtain ⟨hmode', hsize', hbytes', hold'⟩ := h'.after
  refine ⟨h.grows.trans h'.grows, hmode'.trans hmode, ?_, fun p hp hlt => ?_, fun p c hp hc => ?_⟩
  · rw [hsize', hsize, List.length_append]
    cases xs with
    | nil => simp
    | cons x xs =>
      cases ys with
      | nil => simp
      | cons y ys =>
        simp only [List.cons_append, reduceCtorEq, if_false]
        omega
  · rw [List.length_append] at hlt
    by_cases hx : p < n + xs.length
    · rw [List.getD_append _ _ _ _ (by omega)]
      exact hold' p _ (by omega) (hbytes p hp hx)
    · rw [List.getD_append_right _ _ _ _ (by omega), Nat.sub_sub]
      exact hbytes' p (by omega) (by omega)
  · rw [List.length_append] at hp
    exact hold' p c (by omega) (hold p c (by omega) hc)

theorem Fills.quiet (h : Fills x n bytes s t) (hx : x ≤ s.sb.desc.inodes) (hq : Quiet t u) :
    Fills x n bytes s u := by
  refine ⟨h.grows.trans (h.grows.trees.quiet hq), ?_⟩
  rw [content_data hq.fixed.layout hq.data (h.grows.le hx)]
  exact h.after

end Write

section Truncate

end Truncate

end Onix.Fs
