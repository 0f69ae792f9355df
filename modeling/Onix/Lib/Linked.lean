import Mathlib

/-! Doubly linked lists in one memory: chains of nodes between sentinels that no other
chain meets. -/

namespace Onix

open Function

/-- The two links of every node; `none` is the null pointer. -/
structure Links (ν : Type*) where
  prev : ν → Option ν
  next : ν → Option ν

namespace Links

variable {ν : Type*} {m m' : Links ν} {a b n x : ν} {l r xs : List ν}

/-- `b` follows `a` in both directions. -/
def Link (m : Links ν) (a b : ν) : Prop := m.next a = some b ∧ m.prev b = some a

section Chase

/-- The nodes that `k` steps along `f` come to. -/
def chase (f : ν → Option ν) : (k : ℕ) → ν → List ν
  | 0, _ => []
  | k + 1, a =>
    match f a with
    | none => []
    | some b => b :: chase f k b

theorem chase_eq {f : ν → Option ν} {a : ν} {k : ℕ} (hchain : List.IsChain (fun a b => f a = some b) (a :: xs))
    (hlast : f ((a :: xs).getLast (List.cons_ne_nil a xs)) = none) (hk : xs.length ≤ k) :
    chase f k a = xs := by
  induction xs generalizing a k with
  | nil =>
    cases k with
    | zero => rfl
    | succ k =>
      rw [chase]
      rw [List.getLast_singleton] at hlast
      rw [hlast]
  | cons b xs ih =>
    rw [List.isChain_cons_cons] at hchain
    rw [List.getLast_cons_cons] at hlast
    cases k with
    | zero => exact absurd hk (Nat.not_succ_le_zero _)
    | succ k =>
      rw [chase, hchain.1]
      dsimp only
      rw [ih hchain.2 hlast (Nat.le_of_succ_le_succ hk)]

end Chase

/-- A chain none of whose links changed. -/
theorem chain_frame (h : List.IsChain m.Link xs) (hnext : ∀ x ∈ xs, m'.next x = m.next x)
    (hprev : ∀ x ∈ xs, m'.prev x = m.prev x) : List.IsChain m'.Link xs := by
  refine h.imp_of_mem_imp fun x y hx hy hxy => ⟨?_, ?_⟩
  · rw [hnext x hx]
    exact hxy.1
  · rw [hprev y hy]
    exact hxy.2

variable {ι : Type*} {head tail : ι → ν} {S S' : ι → List ν} {i j : ι}

/-- A list with its sentinels. -/
def full (head tail : ι → ν) (S : ι → List ν) (i : ι) : List ν := head i :: (S i ++ [tail i])

/-- The links are those of the lists `S`, each between its sentinels, no node in two of them;
a node in no list has null links. -/
structure Holds (head tail : ι → ν) (m : Links ν) (S : ι → List ν) : Prop where
  chain : ∀ i, List.IsChain m.Link (full head tail S i)
  nodup : ∀ i, (full head tail S i).Nodup
  apart : ∀ i j x, x ∈ full head tail S i → x ∈ full head tail S j → i = j
  first : ∀ i, m.prev (head i) = none
  last : ∀ i, m.next (tail i) = none
  free : ∀ x, (∀ i, x ∉ full head tail S i) → m.prev x = none ∧ m.next x = none

/-- Two nodes of a list that follow each other are linked. -/
theorem Holds.link (h : Holds head tail m S) (hi : full head tail S i = l ++ a :: b :: r) :
    m.Link a b := by
  have := h.chain i
  rw [hi, List.isChain_append_cons_cons] at this
  exact this.2.1

theorem perm_cons : (l ++ a :: n :: b :: r).Perm (n :: (l ++ a :: b :: r)) := by
  have hmiddle : (l ++ [a] ++ n :: (b :: r)).Perm (n :: (l ++ [a] ++ (b :: r))) := List.perm_middle
  simpa using hmiddle

variable [DecidableEq ν]

/-- `n` put between `a` and `b`. -/
def splice (m : Links ν) (a n b : ν) : Links ν :=
  ⟨update (update m.prev n (some a)) b (some n), update (update m.next n (some b)) a (some n)⟩

/-- `n` taken out between `a` and `b`. -/
def unlink (m : Links ν) (a n b : ν) : Links ν :=
  ⟨update (update m.prev b (some a)) n none, update (update m.next a (some b)) n none⟩

theorem splice_prev (m : Links ν) (hb : x ≠ b) (hn : x ≠ n) : (m.splice a n b).prev x = m.prev x :=
  (update_of_ne hb ..).trans (update_of_ne hn ..)

theorem splice_next (m : Links ν) (ha : x ≠ a) (hn : x ≠ n) : (m.splice a n b).next x = m.next x :=
  (update_of_ne ha ..).trans (update_of_ne hn ..)

theorem unlink_prev (m : Links ν) (hb : x ≠ b) (hn : x ≠ n) : (m.unlink a n b).prev x = m.prev x :=
  (update_of_ne hn ..).trans (update_of_ne hb ..)

theorem unlink_next (m : Links ν) (ha : x ≠ a) (hn : x ≠ n) : (m.unlink a n b).next x = m.next x :=
  (update_of_ne hn ..).trans (update_of_ne ha ..)

theorem chain_splice (h : List.IsChain m.Link (l ++ a :: b :: r)) (hnd : (l ++ a :: b :: r).Nodup)
    (hn : n ∉ l ++ a :: b :: r) : List.IsChain (m.splice a n b).Link (l ++ a :: n :: b :: r) := by
  rw [List.isChain_append_cons_cons] at h
  obtain ⟨hl, hab, hr⟩ := h
  rw [List.isChain_append_cons_cons, List.isChain_cons_cons]
  have hsplit := List.nodup_append.mp hnd
  have hmid := List.nodup_cons.mp hsplit.2.1
  have hend := List.nodup_cons.mp hmid.2
  have hleft : ∀ x ∈ l ++ [a], x ≠ b ∧ x ≠ n := by
    intro x hx
    refine ⟨?_, ?_⟩
    · rintro rfl
      rcases List.mem_append.mp hx with hx | hx
      · exact hsplit.2.2 _ hx _ (by simp) rfl
      · exact hmid.1 (by simp_all)
    · rintro rfl
      exact hn (by simp_all)
  have hright : ∀ x ∈ b :: r, x ≠ a ∧ x ≠ n := by
    intro x hx
    refine ⟨?_, ?_⟩
    · rintro rfl
      exact hmid.1 hx
    · rintro rfl
      exact hn (by simp_all)
  refine ⟨?_, ⟨?_, ?_⟩, ⟨?_, ?_⟩, ?_⟩
  · refine hl.imp_of_mem_imp fun x y hx hy hxy => ⟨?_, ?_⟩
    · have hxa : x ≠ a := by
        -- the node behind `a` is `b`, which is not on the left
        rintro rfl
        exact (hleft y hy).1 (Option.some.inj (hxy.1.symm.trans hab.1))
      rw [splice_next m hxa (hleft x hx).2]
      exact hxy.1
    · rw [splice_prev m (hleft y hy).1 (hleft y hy).2]
      exact hxy.2
  · exact update_self ..
  · exact (update_of_ne (hright b (by simp)).2.symm ..).trans (update_self ..)
  · exact (update_of_ne (hleft a (by simp)).2.symm ..).trans (update_self ..)
  · exact update_self ..
  · refine hr.imp_of_mem_tail_imp fun x y hx hy hxy => ⟨?_, ?_⟩
    · rw [splice_next m (hright x hx).1 (hright x hx).2]
      exact hxy.1
    · have hyb : y ≠ b := by
        rintro rfl
        exact hend.1 hy
      rw [splice_prev m hyb (hright y (List.mem_of_mem_tail hy)).2]
      exact hxy.2

theorem chain_unlink (h : List.IsChain m.Link (l ++ a :: n :: b :: r))
    (hnd : (l ++ a :: n :: b :: r).Nodup) : List.IsChain (m.unlink a n b).Link (l ++ a :: b :: r) := by
  rw [List.isChain_append_cons_cons, List.isChain_cons_cons] at h
  obtain ⟨hl, han, hnb, hr⟩ := h
  rw [List.isChain_append_cons_cons]
  have hsplit := List.nodup_append.mp hnd
  have hmid := List.nodup_cons.mp hsplit.2.1
  have hnode := List.nodup_cons.mp hmid.2
  have hend := List.nodup_cons.mp hnode.2
  have hleft : ∀ x ∈ l ++ [a], x ≠ b ∧ x ≠ n := by
    intro x hx
    refine ⟨?_, ?_⟩ <;> rintro rfl
    · rcases List.mem_append.mp hx with hx | hx
      · exact hsplit.2.2 _ hx _ (by simp) rfl
      · exact hmid.1 (by simp_all)
    · rcases List.mem_append.mp hx with hx | hx
      · exact hsplit.2.2 _ hx _ (by simp) rfl
      · exact hmid.1 (by simp_all)
  have hright : ∀ x ∈ b :: r, x ≠ a ∧ x ≠ n := by
    intro x hx
    refine ⟨?_, ?_⟩
    · rintro rfl
      exact hmid.1 (List.mem_cons_of_mem _ hx)
    · rintro rfl
      exact hnode.1 hx
  refine ⟨?_, ⟨?_, ?_⟩, ?_⟩
  · refine hl.imp_of_mem_imp fun x y hx hy hxy => ⟨?_, ?_⟩
    · have hxa : x ≠ a := by
        rintro rfl
        exact (hleft y hy).2 (Option.some.inj (hxy.1.symm.trans han.1))
      rw [unlink_next m hxa (hleft x hx).2]
      exact hxy.1
    · rw [unlink_prev m (hleft y hy).1 (hleft y hy).2]
      exact hxy.2
  · exact (update_of_ne (hleft a (by simp)).2 ..).trans (update_self ..)
  · exact (update_of_ne (hright b (by simp)).2 ..).trans (update_self ..)
  · refine hr.imp_of_mem_tail_imp fun x y hx hy hxy => ⟨?_, ?_⟩
    · rw [unlink_next m (hright x hx).1 (hright x hx).2]
      exact hxy.1
    · have hyb : y ≠ b := by
        rintro rfl
        exact hend.1 hy
      rw [unlink_prev m hyb (hright y (List.mem_of_mem_tail hy)).2]
      exact hxy.2

/-- A node put between two that follow each other in a list. -/
theorem Holds.splice (h : Holds head tail m S) (hi : full head tail S i = l ++ a :: b :: r)
    (hn : ∀ j, n ∉ full head tail S j) (hi' : full head tail S' i = l ++ a :: n :: b :: r)
    (hj : ∀ j, j ≠ i → full head tail S' j = full head tail S j) :
    Holds head tail (m.splice a n b) S' := by
  have hab := h.link hi
  have hnd := h.nodup i
  have hni := hn i
  rw [hi] at hnd hni
  have hmem : ∀ x, x ∈ full head tail S' i ↔ x = n ∨ x ∈ full head tail S i := by
    intro x
    rw [hi, hi']
    simp only [List.mem_append, List.mem_cons]
    tauto
  have ha : a ∈ full head tail S i := by simp [hi]
  have hb : b ∈ full head tail S i := by simp [hi]
  have hout : ∀ j, j ≠ i → ∀ x ∈ full head tail S j, x ≠ a ∧ x ≠ b ∧ x ≠ n := by
    intro j hne x hx
    refine ⟨?_, ?_, ?_⟩
    · rintro rfl
      exact hne (h.apart j i _ hx ha)
    · rintro rfl
      exact hne (h.apart j i _ hx hb)
    · rintro rfl
      exact hn j hx
  refine ⟨fun j => ?_, fun j => ?_, fun j k x hxj hxk => ?_, fun j => ?_, fun j => ?_, fun x hx => ?_⟩
  · obtain rfl | hne := eq_or_ne j i
    · have hchain := h.chain j
      rw [hi] at hchain
      rw [hi']
      exact chain_splice hchain hnd hni
    · rw [hj j hne]
      refine chain_frame (h.chain j) (fun x hx => ?_) (fun x hx => ?_)
      · exact splice_next m (hout j hne x hx).1 (hout j hne x hx).2.2
      · exact splice_prev m (hout j hne x hx).2.1 (hout j hne x hx).2.2
  · obtain rfl | hne := eq_or_ne j i
    · rw [hi']
      exact perm_cons.nodup_iff.mpr (List.nodup_cons.mpr ⟨hni, hnd⟩)
    · rw [hj j hne]
      exact h.nodup j
  · have hback : ∀ j, x ∈ full head tail S' j → x = n ∧ j = i ∨ x ∈ full head tail S j := by
      intro j hx
      obtain rfl | hne := eq_or_ne j i
      · exact ((hmem x).mp hx).imp_left fun he => ⟨he, rfl⟩
      · rw [hj j hne] at hx
        exact Or.inr hx
    rcases hback j hxj with ⟨rfl, rfl⟩ | hxj
    · rcases hback k hxk with ⟨-, rfl⟩ | hxk
      · rfl
      · exact absurd hxk (hn k)
    · rcases hback k hxk with ⟨rfl, -⟩ | hxk
      · exact absurd hxj (hn j)
      · exact h.apart j k x hxj hxk
  · have hne : head j ≠ b := by
      rintro he
      have := h.first j
      rw [he, hab.2] at this
      cases this
    rw [splice_prev m hne (fun he => hn j (by simp [full, ← he]))]
    exact h.first j
  · have hne : tail j ≠ a := by
      rintro he
      have := h.last j
      rw [he, hab.1] at this
      cases this
    rw [splice_next m hne (fun he => hn j (by simp [full, ← he]))]
    exact h.last j
  · have hxn : x ≠ n := by
      rintro rfl
      exact hx i ((hmem _).mpr (Or.inl rfl))
    have hold : ∀ j, x ∉ full head tail S j := by
      intro j hxj
      obtain rfl | hne := eq_or_ne j i
      · exact hx j ((hmem x).mpr (Or.inr hxj))
      · rw [← hj j hne] at hxj
        exact hx j hxj
    have hxa : x ≠ a := by
      rintro rfl
      exact hold i ha
    have hxb : x ≠ b := by
      rintro rfl
      exact hold i hb
    rw [splice_prev m hxb hxn, splice_next m hxa hxn]
    exact h.free x hold

/-- A node taken out of a list; its links are null then. -/
theorem Holds.unlink (h : Holds head tail m S) (hi : full head tail S i = l ++ a :: n :: b :: r)
    (hi' : full head tail S' i = l ++ a :: b :: r)
    (hj : ∀ j, j ≠ i → full head tail S' j = full head tail S j) :
    Holds head tail (m.unlink a n b) S' := by
  have han := h.link hi
  have hnb : m.Link n b := h.link (l := l ++ [a]) (r := r) (by rw [hi]; simp)
  have hnd := h.nodup i
  rw [hi] at hnd
  have hmem : ∀ x, x ∈ full head tail S i ↔ x = n ∨ x ∈ full head tail S' i := by
    intro x
    rw [hi, hi']
    simp only [List.mem_append, List.mem_cons]
    tauto
  have hnd' := List.nodup_cons.mp (perm_cons.nodup_iff.mp hnd)
  have ha : a ∈ full head tail S i := by simp [hi]
  have hb : b ∈ full head tail S i := by simp [hi]
  have hn : n ∈ full head tail S i := by simp [hi]
  have hsub : ∀ j x, x ∈ full head tail S' j → x ∈ full head tail S j := by
    intro j x hx
    obtain rfl | hne := eq_or_ne j i
    · exact (hmem x).mpr (Or.inr hx)
    · rwa [hj j hne] at hx
  have hgone : ∀ j x, x ∈ full head tail S' j → x ≠ n := by
    intro j x hx he
    have hji := h.apart j i x (hsub j x hx) (he ▸ hn)
    rw [hji, hi', he] at hx
    exact hnd'.1 hx
  refine ⟨fun j => ?_, fun j => ?_, fun j k x hxj hxk => ?_, fun j => ?_, fun j => ?_, fun x hx => ?_⟩
  · obtain rfl | hne := eq_or_ne j i
    · have hchain := h.chain j
      rw [hi] at hchain
      rw [hi']
      exact chain_unlink hchain hnd
    · have hout : ∀ x ∈ full head tail S' j, x ≠ a ∧ x ≠ b := by
        intro x hx
        refine ⟨?_, ?_⟩ <;> rintro rfl
        · exact hne (h.apart j i _ (hsub j _ hx) ha)
        · exact hne (h.apart j i _ (hsub j _ hx) hb)
      have hchain := h.chain j
      rw [← hj j hne] at hchain
      refine chain_frame hchain (fun x hx => ?_) (fun x hx => ?_)
      · exact unlink_next m (hout x hx).1 (hgone j x hx)
      · exact unlink_prev m (hout x hx).2 (hgone j x hx)
  · obtain rfl | hne := eq_or_ne j i
    · rw [hi']
      exact hnd'.2
    · rw [hj j hne]
      exact h.nodup j
  · exact h.apart j k x (hsub j x hxj) (hsub k x hxk)
  · have hne : head j ≠ b := by
      rintro he
      have := h.first j
      rw [he, hnb.2] at this
      cases this
    rw [unlink_prev m hne (hgone j _ (by simp [full]))]
    exact h.first j
  · have hne : tail j ≠ a := by
      rintro he
      have := h.last j
      rw [he, han.1] at this
      cases this
    rw [unlink_next m hne (hgone j _ (by simp [full]))]
    exact h.last j
  · by_cases hxn : x = n
    · subst hxn
      exact ⟨update_self .., update_self ..⟩
    · have hold : ∀ j, x ∉ full head tail S j := by
        intro j hxj
        obtain rfl | hne := eq_or_ne j i
        · exact hx j (((hmem x).mp hxj).resolve_left hxn)
        · rw [← hj j hne] at hxj
          exact hx j hxj
      have hxa : x ≠ a := by
        rintro rfl
        exact hold i ha
      have hxb : x ≠ b := by
        rintro rfl
        exact hold i hb
      rw [unlink_prev m hxb hxn, unlink_next m hxa hxn]
      exact h.free x hold

end Links

end Onix
