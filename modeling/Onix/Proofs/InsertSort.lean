import Onix.Proofs.List

/-! `list_insert_sort` on a list in the order of its keys. -/

namespace Onix.Lists

variable {m : Memory} {list : ListT} {L l r xs : List Addr} {node x : Addr} {data : Bytes}
  {offset : Addr} {key : Addr → ℤ}

/-- A node with two null links is in no chain. -/
theorem not_mem_chain (h : List.IsChain m.Link (x :: xs)) (hne : xs ≠ [])
    (hnext : m.next node = none) (hprev : m.prev node = none) : node ∉ x :: xs := by
  induction xs generalizing x with
  | nil => exact absurd rfl hne
  | cons y xs ih =>
    obtain ⟨hxy, hchain⟩ := List.isChain_cons_cons.mp h
    intro hmem
    rcases List.mem_cons.mp hmem with rfl | hmem
    · cases hnext.symm.trans hxy.1
    · cases xs with
      | nil =>
        obtain rfl := List.mem_singleton.mp hmem
        cases hprev.symm.trans hxy.2
      | cons z xs => exact ih hchain (List.cons_ne_nil z xs) hmem

/-- One of the lists that a memory holds. -/
theorem Rep.forms {ι : Type} {lists : ι → ListT} {S : ι → List Addr} (h : Rep lists m S) (i : ι) :
    Forms m (lists i) (S i) := ⟨h.chain i, h.nodup i⟩

theorem Forms.tail_notMem (h : Forms m list L) : list.tail ∉ L := by
  intro hmem
  have hnd := (List.nodup_cons.mp h.nodup).2
  rw [List.nodup_append] at hnd
  exact hnd.2.2 _ hmem _ (List.mem_singleton_self _) rfl

/-- There are no more nodes than addresses. -/
theorem Forms.length_lt (h : Forms m list L) : L.length < TURNS := by
  have hle := List.Nodup.length_le_card h.nodup
  rw [Fintype.card_congr (⟨BitVec.toFin, BitVec.ofFin, fun _ => rfl, fun _ => rfl⟩ :
    Addr ≃ Fin (2 ^ 32)), Fintype.card_fin, List.length_cons, List.length_append] at hle
  unfold TURNS
  omega

/-- A node that is in no list goes between any two of one. -/
theorem Forms.insert (h : Forms m list L) (hL : L = l ++ r) (hnext : m.next node = none)
    (hprev : m.prev node = none) : ∃ b m', (r ++ [list.tail]).head? = some b ∧
      listInsertBefore m b node = some m' ∧ Forms m' list (l ++ node :: r) ∧
      ∀ x, x ≠ node → x ∉ list.head :: (L ++ [list.tail]) →
        m'.prev x = m.prev x ∧ m'.next x = m.next x := by
  obtain ⟨A, a, hA⟩ := List.eq_nil_or_concat (list.head :: l) |>.resolve_left (by simp)
  obtain ⟨b, B, hB⟩ := List.exists_cons_of_ne_nil (l := r ++ [list.tail]) (by simp)
  have hold : list.head :: (L ++ [list.tail]) = A ++ a :: b :: B := by
    rw [hL, List.append_assoc, ← List.cons_append, hA, hB]
    simp
  have hnew : list.head :: (l ++ node :: r ++ [list.tail]) = A ++ a :: node :: b :: B := by
    rw [List.append_assoc, List.cons_append, hB, ← List.cons_append, hA]
    simp
  have hnot := not_mem_chain h.chain (by simp) hnext hprev
  have hchain := h.chain
  have hnd := h.nodup
  rw [hold] at hnot hchain hnd ⊢
  have hab := (List.isChain_append_cons_cons.mp hchain).2.1
  have hb : node ≠ b := by
    rintro rfl
    exact hnot (by simp)
  refine ⟨b, _, by rw [hB, List.head?_cons], insertBefore_eq hab hb, ⟨?_, ?_⟩, ?_⟩
  · rw [hnew]
    exact Links.chain_splice hchain hnd hnot
  · rw [hnew]
    exact Links.perm_cons.nodup_iff.mpr (List.nodup_cons.mpr ⟨hnot, hnd⟩)
  · intro x hx hmem
    have hxa : x ≠ a := by
      rintro rfl
      exact hmem (by simp)
    have hxb : x ≠ b := by
      rintro rfl
      exact hmem (by simp)
    exact ⟨Links.splice_prev m hxb hx, Links.splice_next m hxa hx⟩

/-- In the order of the keys, all nodes are greater from the first greater one on. -/
theorem greater_of_head (hr : r.Pairwise fun x y => key x ≤ key y)
    (hhead : ∀ x ∈ r.head?, key node < key x) : ∀ x ∈ r, key node < key x := by
  cases r with
  | nil => simp
  | cons y r =>
    have hy : key node < key y := hhead y rfl
    intro x hx
    rcases List.mem_cons.mp hx with rfl | hx
    · exact hy
    · exact hy.trans_le ((List.pairwise_cons.mp hr).1 x hx)

/-- A list in the order of its keys, with a node between those that are no greater and those
that are greater. -/
theorem pairwise_insert (hs : (l ++ r).Pairwise fun x y => key x ≤ key y)
    (hle : ∀ x ∈ l, key x ≤ key node) (hgt : ∀ x ∈ r, key node < key x) :
    (l ++ node :: r).Pairwise fun x y => key x ≤ key y := by
  obtain ⟨hl, hr, hlr⟩ := List.pairwise_append.mp hs
  refine List.pairwise_append.mpr ⟨hl, List.pairwise_cons.mpr ⟨?_, hr⟩, ?_⟩
  · intro x hx
    exact (hgt x hx).le
  · intro x hx y hy
    rcases List.mem_cons.mp hy with rfl | hy
    · exact hle x hx
    · exact hlr x hx y hy

/-- In a list in the order of the keys at `offset`, a node with null links comes behind all
that have no greater key and before all that have a greater one; these keep their places, and
the links of nodes outside the list do not change. -/
theorem list_insert_sort_stable (h : Forms m list L)
    (hs : L.Pairwise fun x y => elementNodeKey data offset x ≤ elementNodeKey data offset y)
    (hnext : m.next node = none) (hprev : m.prev node = none) :
    ∃ m' l r, listInsertSort m list node (elementNodeKey data offset) = some m' ∧
      L = l ++ r ∧ Forms m' list (l ++ node :: r) ∧
      (l ++ node :: r).Pairwise
        (fun x y => elementNodeKey data offset x ≤ elementNodeKey data offset y) ∧
      (∀ x ∈ l, elementNodeKey data offset x ≤ elementNodeKey data offset node) ∧
      (∀ x ∈ r, elementNodeKey data offset node < elementNodeKey data offset x) ∧
      ∀ x, x ≠ node → x ∉ list.head :: (L ++ [list.tail]) →
        m'.prev x = m.prev x ∧ m'.next x = m.next x := by
  have hfirst : m.next list.head = (L ++ [list.tail]).head? := next_eq h.chain (by simp)
  obtain ⟨l, r, hL, -, hloop, hle, hhead⟩ := anchor_chain (elementNodeKey data offset) node TURNS
    h.chain.tail h.tail_notMem h.length_lt
  obtain ⟨b, m', hb, hexec, hforms, hframe⟩ := h.insert hL hnext hprev
  rw [hL] at hs
  have hgt := greater_of_head (List.pairwise_append.mp hs).2.1 hhead
  refine ⟨m', l, r, ?_, hL, hforms, pairwise_insert hs hle hgt, hle, hgt, hframe⟩
  unfold listInsertSort
  rw [hfirst, hloop, hb]
  dsimp only
  rw [if_pos ⟨hnext, hprev⟩, hexec]

/-- The keys of the nodes 16, 32 and 48, 8 bytes behind each. -/
def keys : Bytes := fun k => if k = 40 then 9 else if k = 24 ∨ k = 56 then 5 else 0

/-- Between a node with the same key and one with a greater key. -/
theorem list_insert_sort_between : ∃ m m', Forms m one [16, 32] ∧
    listInsertSort m one 48 (elementNodeKey keys 8) = some m' ∧ Forms m' one [16, 48, 32] := by
  obtain ⟨m₁, -, hrep⟩ :=
    (rep_init init_one).step (c := .pushback () 16) (by unfold Legal Loose; decide) rfl
  obtain ⟨m, -, hrep⟩ := hrep.step (c := .pushback () 32) (by unfold Legal Loose; decide) rfl
  have hforms : Forms m one [16, 32] := hrep.forms ()
  have hnull : m.prev 48 = none ∧ m.next 48 = none :=
    hrep.agrees.null 48 (by unfold Loose; decide)
  have hs : [16, 32].Pairwise fun x y => elementNodeKey keys 8 x ≤ elementNodeKey keys 8 y := by
    decide
  obtain ⟨m', l, r, hexec, hL, hforms', -, hle, hgt, -⟩ :=
    list_insert_sort_stable hforms hs hnull.2 hnull.1
  refine ⟨m, m', hforms, hexec, ?_⟩
  match l, r, hL with
  | [], _, rfl => exact absurd (hgt 16 (by simp)) (by decide)
  | [_], _, rfl => exact hforms'
  | [_, _], _, rfl => exact absurd (hle 32 (by simp)) (by decide)

end Onix.Lists
