import Onix.Spec.List
import Onix.Lib.Run

/-! What the operations of the lists do in a memory that holds them: the links of four
nodes change, and the sequences change as they should. -/

namespace Onix.Lists

open Function
open Links (full)

variable {ι : Type} {lists : ι → ListT} {m : Memory} {S T : ι → List Addr} {i : ι}
  {node anchor a b : Addr} {l r xs : List Addr} {key : Addr → ℤ}

/-- The memory holds the lists as the sequences `S`. -/
abbrev Rep (lists : ι → ListT) (m : Memory) (S : ι → List Addr) : Prop :=
  Links.Holds (fun i => (lists i).head) (fun i => (lists i).tail) m S

/-- A list with its sentinels. -/
abbrev nodes (lists : ι → ListT) (S : ι → List Addr) (i : ι) : List Addr :=
  full (fun i => (lists i).head) (fun i => (lists i).tail) S i

theorem nodes_eq (lists : ι → ListT) (S : ι → List Addr) (i : ι) :
    nodes lists S i = (lists i).head :: (S i ++ [(lists i).tail]) := rfl

theorem loose_iff : Loose lists S node ↔ ∀ i, node ∉ nodes lists S i := by
  unfold Loose
  refine forall_congr' fun i => ?_
  rw [nodes_eq]
  simp only [List.mem_cons, List.mem_append, List.not_mem_nil, or_false]
  tauto

theorem rep_init (h : Init lists m) : Rep lists m fun _ => [] := by
  have hne : ∀ i, (lists i).head ≠ (lists i).tail := fun i => h.apart i i
  have hprev : ∀ i, m.prev (lists i).head = none ∧ m.prev (lists i).tail = some (lists i).head := by
    intro i
    rw [← h.init i]
    refine ⟨(update_of_ne (hne i) ..).trans (update_self ..), update_self ..⟩
  have hnext : ∀ i, m.next (lists i).tail = none ∧ m.next (lists i).head = some (lists i).tail := by
    intro i
    rw [← h.init i]
    refine ⟨(update_of_ne (hne i).symm ..).trans (update_self ..), update_self ..⟩
  refine ⟨fun i => ?_, fun i => ?_, fun i j x hi hj => ?_, fun i => (hprev i).1, fun i => (hnext i).1,
    fun x hx => h.null x fun i => ?_⟩
  · rw [full, List.nil_append, List.isChain_pair]
    exact ⟨(hnext i).2, (hprev i).2⟩
  · simpa [full] using hne i
  · simp only [full, List.nil_append, List.mem_cons, List.not_mem_nil, or_false] at hi hj
    rcases hi with rfl | rfl <;> rcases hj with hj | hj
    · exact h.heads hj
    · exact absurd hj (h.apart i j)
    · exact absurd hj.symm (h.apart j i)
    · exact h.tails hj
  · have := hx i
    simpa [full] using this

section Memory

/-- `list_insert_before` and `list_insert_after` put the node between the same two. -/
theorem insertBefore_eq (hab : m.Link a b) (hb : node ≠ b) :
    listInsertBefore m b node = some (m.splice a node b) := by
  have hprev : (setNext (setPrev m node (m.prev b)) node (some b)).prev b = some a :=
    (update_of_ne hb.symm ..).trans hab.2
  unfold listInsertBefore
  dsimp only
  rw [hprev, hab.2]
  rfl

theorem insertAfter_eq (hab : m.Link a b) (ha : node ≠ a) :
    listInsertAfter m a node = some (m.splice a node b) := by
  have hfirst : (setPrev m node (some a)).next a = some b := hab.1
  have hnext : (setNext (setPrev m node (some a)) node (some b)).next a = some b :=
    (update_of_ne ha.symm ..).trans hab.1
  unfold listInsertAfter
  dsimp only
  rw [hfirst, hnext]
  rfl

theorem remove_eq (han : m.Link a node) (hnb : m.Link node b) (ha : node ≠ a) :
    listRemove m node = some (m.unlink a node b) := by
  have hnext : (setNext m a (some b)).next node = some b :=
    (update_of_ne ha ..).trans hnb.1
  have hprev : (setNext m a (some b)).prev node = some a := han.2
  unfold listRemove
  rw [han.2, hnb.1]
  dsimp only
  rw [hnext]
  dsimp only
  rw [hprev]
  rfl

/-- A loose node is put into a list at any place. -/
theorem Rep.insert (h : Rep lists m S) (hnode : Loose lists S node) (hS : S i = l ++ r)
    (hS' : T i = l ++ node :: r) (hj : ∀ j, j ≠ i → T j = S j) :
    ∃ a b, ((lists i).head :: l).getLast? = some a ∧ (r ++ [(lists i).tail]).head? = some b ∧
      Rep lists (m.splice a node b) T ∧
      listInsertBefore m b node = some (m.splice a node b) ∧
      listInsertAfter m a node = some (m.splice a node b) := by
  obtain ⟨L, a, hL⟩ := List.eq_nil_or_concat ((lists i).head :: l) |>.resolve_left (by simp)
  obtain ⟨b, R, hR⟩ := List.exists_cons_of_ne_nil (l := r ++ [(lists i).tail]) (by simp)
  have hfull : nodes lists S i = L ++ a :: b :: R := by
    rw [nodes_eq, hS, List.append_assoc, ← List.cons_append, hL, hR]
    simp
  have hfull' : nodes lists T i = L ++ a :: node :: b :: R := by
    rw [nodes_eq, hS', List.append_assoc, List.cons_append, hR, ← List.cons_append, hL]
    simp
  have hnot := loose_iff.mp hnode
  have hab := Links.Holds.link h hfull
  have hni := hnot i
  rw [hfull] at hni
  have ha : node ≠ a := by
    rintro rfl
    exact hni (by simp)
  have hb : node ≠ b := by
    rintro rfl
    exact hni (by simp)
  refine ⟨a, b, by rw [hL]; simp, by rw [hR]; rfl, ?_, insertBefore_eq hab hb,
    insertAfter_eq hab ha⟩
  apply Links.Holds.splice h hfull hnot hfull'
  intro j hne
  unfold full
  rw [hj j hne]

/-- A node is taken out of its list. -/
theorem Rep.remove (h : Rep lists m S) (hS : S i = l ++ node :: r) (hS' : T i = l ++ r)
    (hj : ∀ j, j ≠ i → T j = S j) :
    ∃ m', listRemove m node = some m' ∧ Rep lists m' T := by
  obtain ⟨L, a, hL⟩ := List.eq_nil_or_concat ((lists i).head :: l) |>.resolve_left (by simp)
  obtain ⟨b, R, hR⟩ := List.exists_cons_of_ne_nil (l := r ++ [(lists i).tail]) (by simp)
  have hfull : nodes lists S i = L ++ a :: node :: b :: R := by
    rw [nodes_eq, hS, List.append_assoc, List.cons_append, hR, ← List.cons_append, hL]
    simp
  have hfull' : nodes lists T i = L ++ a :: b :: R := by
    rw [nodes_eq, hS', List.append_assoc, ← List.cons_append, hL, hR]
    simp
  have han := Links.Holds.link h hfull
  have hcut : nodes lists S i = (L ++ [a]) ++ node :: b :: R := hfull.trans (by simp)
  have hnb := Links.Holds.link h hcut
  have hnd : (nodes lists S i).Nodup := h.nodup i
  rw [hfull] at hnd
  have ha : node ≠ a := by
    rintro rfl
    simp [List.nodup_append] at hnd
  refine ⟨_, remove_eq han hnb ha, ?_⟩
  apply Links.Holds.unlink h hfull hfull'
  intro j hne
  unfold full
  rw [hj j hne]

end Memory

section Loops

variable {list : ListT} {x : Addr}

/-- What follows a node in a chain. -/
theorem next_eq (h : List.IsChain m.Link (x :: xs)) (hne : xs ≠ []) : m.next x = xs.head? := by
  obtain ⟨y, ys, rfl⟩ := List.exists_cons_of_ne_nil hne
  exact (List.isChain_cons_cons.mp h).1.1

theorem search_chain (n : ℕ) (h : List.IsChain m.Link (xs ++ [list.tail])) (ht : list.tail ∉ xs)
    (hn : xs.length < n) :
    searchLoop m list node n (xs ++ [list.tail]).head? = some (decide (node ∈ xs)) := by
  induction xs generalizing n with
  | nil =>
    obtain ⟨n, rfl⟩ := Nat.exists_eq_succ_of_ne_zero (Nat.ne_of_gt hn)
    simp [searchLoop]
  | cons x xs ih =>
    obtain ⟨n, rfl⟩ := Nat.exists_eq_succ_of_ne_zero (Nat.ne_of_gt (Nat.zero_lt_of_lt hn))
    rw [List.mem_cons, not_or] at ht
    rw [List.length_cons] at hn
    rw [List.cons_append, List.head?_cons, searchLoop, if_neg (Ne.symm ht.1)]
    by_cases hx : x = node
    · rw [if_pos hx]
      simp [hx]
    · have hnext : m.next x = (xs ++ [list.tail]).head? := next_eq h (by simp)
      rw [if_neg hx, hnext, ih n h.tail ht.2 (by omega)]
      simp [Ne.symm hx]

theorem size_chain (n size : ℕ) (h : List.IsChain m.Link (xs ++ [list.tail])) (ht : list.tail ∉ xs)
    (hn : xs.length < n) (hsize : size + xs.length < 2 ^ 32) :
    sizeLoop m list n (xs ++ [list.tail]).head? size = some (size + xs.length) := by
  induction xs generalizing n size with
  | nil =>
    obtain ⟨n, rfl⟩ := Nat.exists_eq_succ_of_ne_zero (Nat.ne_of_gt hn)
    simp [sizeLoop]
  | cons x xs ih =>
    obtain ⟨n, rfl⟩ := Nat.exists_eq_succ_of_ne_zero (Nat.ne_of_gt (Nat.zero_lt_of_lt hn))
    rw [List.mem_cons, not_or] at ht
    rw [List.length_cons] at hn hsize
    have hnext : m.next x = (xs ++ [list.tail]).head? := next_eq h (by simp)
    rw [List.cons_append, List.head?_cons, sizeLoop, if_neg (Ne.symm ht.1), hnext,
      Nat.mod_eq_of_lt (by omega), ih n (size + 1) h.tail ht.2 (by omega) (by omega),
      List.length_cons, Nat.add_assoc, Nat.add_comm 1]

/-- The anchor of `list_insert_sort` cuts the list where the node belongs. -/
theorem anchor_chain (key : Addr → ℤ) (node : Addr) (n : ℕ)
    (h : List.IsChain m.Link (xs ++ [list.tail])) (ht : list.tail ∉ xs) (hn : xs.length < n) :
    ∃ l r, xs = l ++ r ∧ sorted key node xs = l ++ node :: r ∧
      anchorLoop m list key node n (xs ++ [list.tail]).head? = (r ++ [list.tail]).head? ∧
      (∀ x ∈ l, key x ≤ key node) ∧ ∀ x ∈ r.head?, key node < key x := by
  induction xs generalizing n with
  | nil =>
    obtain ⟨n, rfl⟩ := Nat.exists_eq_succ_of_ne_zero (Nat.ne_of_gt hn)
    exact ⟨[], [], rfl, rfl, by simp [anchorLoop], by simp, by simp⟩
  | cons x xs ih =>
    obtain ⟨n, rfl⟩ := Nat.exists_eq_succ_of_ne_zero (Nat.ne_of_gt (Nat.zero_lt_of_lt hn))
    rw [List.mem_cons, not_or] at ht
    rw [List.length_cons] at hn
    rw [List.cons_append, List.head?_cons, anchorLoop, if_neg (Ne.symm ht.1), sorted]
    by_cases hkey : key node < key x
    · rw [if_pos hkey, if_pos hkey]
      exact ⟨[], x :: xs, rfl, rfl, rfl, by simp, by simpa using hkey⟩
    · obtain ⟨l, r, rfl, hsorted, hloop, hle, hgt⟩ := ih n h.tail ht.2 (by omega)
      have hnext : m.next x = (l ++ r ++ [list.tail]).head? := next_eq h (by simp)
      rw [if_neg hkey, if_neg hkey, hnext, hloop, hsorted]
      exact ⟨x :: l, r, rfl, rfl, rfl, List.forall_mem_cons.mpr ⟨not_lt.mp hkey, hle⟩, hgt⟩

end Loops

section Lists

/-- Along `next`, and how many nodes there can be. -/
theorem Rep.walk (h : Rep lists m S) (i : ι) :
    m.next (lists i).head = (S i ++ [(lists i).tail]).head? ∧
      List.IsChain m.Link (S i ++ [(lists i).tail]) ∧ (lists i).tail ∉ S i ∧
      (S i).length + 2 ≤ TURNS := by
  have hchain := h.chain i
  have hnd := h.nodup i
  have hcard : (nodes lists S i).length ≤ 2 ^ 32 := by
    have hle := List.Nodup.length_le_card hnd
    rwa [Fintype.card_congr (⟨BitVec.toFin, BitVec.ofFin, fun _ => rfl, fun _ => rfl⟩ :
      Addr ≃ Fin (2 ^ 32)), Fintype.card_fin] at hle
  refine ⟨next_eq hchain (by simp), hchain.tail, ?_, ?_⟩
  · intro hmem
    have htail := (List.nodup_cons.mp hnd).2
    rw [List.nodup_append] at htail
    exact htail.2.2 _ hmem _ (by simp) rfl
  · rw [nodes_eq, List.length_cons, List.length_append, List.length_singleton] at hcard
    exact hcard

theorem Rep.search (h : Rep lists m S) (i : ι) (a : Addr) :
    listSearch m (lists i) a = some (decide (a ∈ S i)) := by
  obtain ⟨hhead, hchain, htail, hlen⟩ := h.walk i
  unfold listSearch
  rw [hhead]
  exact search_chain TURNS hchain htail (by omega)

theorem Rep.size (h : Rep lists m S) (i : ι) : listSize m (lists i) = some (S i).length := by
  obtain ⟨hhead, hchain, htail, hlen⟩ := h.walk i
  have hsize := size_chain TURNS 0 hchain htail (by omega) (by unfold TURNS at hlen; omega)
  unfold listSize
  rw [hhead, hsize, Nat.zero_add]

theorem Rep.empty (h : Rep lists m S) (i : ι) : listEmpty m (lists i) = true ↔ S i = [] := by
  obtain ⟨hhead, -, htail, -⟩ := h.walk i
  unfold listEmpty
  rw [decide_eq_true_iff, hhead]
  cases hS : S i with
  | nil => simp
  | cons x xs =>
    rw [hS, List.mem_cons, not_or] at htail
    simp [Ne.symm htail.1]

/-- A memory that holds the sequences agrees with them. -/
theorem Rep.agrees (h : Rep lists m S) : Agrees lists m S where
  next i k hk := by
    have hchain := h.chain i
    apply Links.chase_eq (hchain.imp fun _ _ hab => hab.1)
    · rw [List.getLast_cons (by simp), List.getLast_append_singleton]
      exact h.last i
    · simpa using hk
  prev i k hk := by
    have hchain := List.isChain_reverse.mpr (h.chain i)
    have hrev : (nodes lists S i).reverse =
        (lists i).tail :: ((S i).reverse ++ [(lists i).head]) := by
      rw [nodes_eq]
      simp
    rw [hrev] at hchain
    apply Links.chase_eq (hchain.imp fun _ _ hab => hab.2)
    · rw [List.getLast_cons (by simp), List.getLast_append_singleton]
      exact h.first i
    · simpa using hk
  nodup i := by
    have hnd := (List.nodup_cons.mp (h.nodup i)).2
    exact (List.nodup_append.mp hnd).1
  apart i j a hi hj := h.apart i j a (by simp [full, hi]) (by simp [full, hj])
  null a ha := h.free a (loose_iff.mp ha)
  search := h.search
  size := h.size
  empty := h.empty

end Lists

section Calls

theorem before_of_not_mem (h : anchor ∉ xs) : before anchor node xs = xs := by
  induction xs with
  | nil => rfl
  | cons x xs ih =>
    rw [List.mem_cons, not_or] at h
    rw [before, if_neg (Ne.symm h.1), ih h.2]

theorem behind_of_not_mem (h : anchor ∉ xs) : behind anchor node xs = xs := by
  induction xs with
  | nil => rfl
  | cons x xs ih =>
    rw [List.mem_cons, not_or] at h
    rw [behind, if_neg (Ne.symm h.1), ih h.2]

theorem before_append (h : anchor ∉ l) :
    before anchor node (l ++ anchor :: r) = l ++ node :: anchor :: r := by
  induction l with
  | nil => exact if_pos rfl
  | cons x l ih =>
    rw [List.mem_cons, not_or] at h
    rw [List.cons_append, before, if_neg (Ne.symm h.1), ih h.2]
    rfl

theorem behind_append (h : anchor ∉ l) :
    behind anchor node (l ++ anchor :: r) = l ++ anchor :: node :: r := by
  induction l with
  | nil => exact if_pos rfl
  | cons x l ih =>
    rw [List.mem_cons, not_or] at h
    rw [List.cons_append, behind, if_neg (Ne.symm h.1), ih h.2]
    rfl

/-- Where a node of a list is. -/
theorem Rep.split (h : Rep lists m S) (ha : a ∈ S i) :
    ∃ l r, S i = l ++ a :: r ∧ a ∉ l ∧ ∀ j, j ≠ i → a ∉ S j := by
  obtain ⟨l, r, hS⟩ := List.append_of_mem ha
  have hagrees := h.agrees
  have hnd := hagrees.nodup i
  rw [hS, List.nodup_append] at hnd
  refine ⟨l, r, hS, fun hl => hnd.2.2 a hl a (by simp) rfl, fun j hne hj => ?_⟩
  exact hne (hagrees.apart j i a hj ha)

variable [DecidableEq ι]

/-- A legal call in memory does what it does to the sequences, and returns the same. -/
theorem exec_apply (h : Rep lists m S) {c : Call ι} (hc : Legal lists S c) :
    (apply S c = none ∧ exec lists m c = none) ∨
      ∃ m' T r, apply S c = some (T, r) ∧ exec lists m c = some (m', r) ∧ Rep lists m' T := by
  cases c with
  | push i node =>
    have hne : ∀ j, j ≠ i → update S i (node :: S i) j = S j := fun j hj => update_of_ne hj ..
    obtain ⟨a, b, ha, -, hrep, -, hexec⟩ := h.insert hc (l := []) (r := S i) rfl
      (update_self ..) hne
    have hsearch := h.search i node
    rw [decide_eq_false (hc i).2.2] at hsearch
    obtain rfl : (lists i).head = a := by simpa using ha
    refine Or.inr ⟨_, _, none, rfl, ?_, hrep⟩
    change (listPush m (lists i) node).map _ = _
    unfold listPush
    rw [hsearch]
    dsimp only
    rw [hexec]
    rfl
  | pushback i node =>
    have hne : ∀ j, j ≠ i → update S i (S i ++ [node]) j = S j := fun j hj => update_of_ne hj ..
    obtain ⟨a, b, -, hb, hrep, hexec, -⟩ := h.insert hc (l := S i) (r := []) (by simp)
      (update_self ..) hne
    have hsearch := h.search i node
    rw [decide_eq_false (hc i).2.2] at hsearch
    obtain rfl : (lists i).tail = b := by simpa using hb
    refine Or.inr ⟨_, _, none, rfl, ?_, hrep⟩
    change (listPushback m (lists i) node).map _ = _
    unfold listPushback
    rw [hsearch]
    dsimp only
    rw [hexec]
    rfl
  | pop i =>
    have hempty := h.empty i
    dsimp only [exec, apply, listPop]
    cases hS : S i with
    | nil =>
      rw [if_pos (hempty.mpr hS)]
      exact Or.inl ⟨rfl, rfl⟩
    | cons x xs =>
      have hne : ∀ j, j ≠ i → update S i xs j = S j := fun j hj => update_of_ne hj ..
      obtain ⟨m', hexec, hrep⟩ := h.remove (l := []) hS (update_self ..) hne
      have hhead := (h.walk i).1
      rw [hS] at hhead
      rw [if_neg (by rw [hempty, hS]; simp), hhead]
      refine Or.inr ⟨m', _, some x, rfl, ?_, hrep⟩
      dsimp only [List.cons_append, List.head?_cons]
      rw [hexec]
      rfl
  | insertBefore anchor node =>
    obtain ⟨hnode, i, hi⟩ := hc
    obtain ⟨l, r, hS, hl, hout⟩ := h.split hi
    have hS' : before anchor node (S i) = l ++ node :: anchor :: r := by
      rw [hS]
      exact before_append hl
    obtain ⟨a, b, -, hb, hrep, hexec, -⟩ := h.insert hnode hS
      (T := fun j => before anchor node (S j)) hS' fun j hj => before_of_not_mem (hout j hj)
    obtain rfl : anchor = b := by simpa using hb
    refine Or.inr ⟨_, _, none, rfl, ?_, hrep⟩
    change (listInsertBefore m anchor node).map _ = _
    rw [hexec]
    rfl
  | insertAfter anchor node =>
    obtain ⟨hnode, i, hi⟩ := hc
    obtain ⟨l, r, hS, hl, hout⟩ := h.split hi
    have hcut : S i = (l ++ [anchor]) ++ r := by simp [hS]
    have hS' : behind anchor node (S i) = (l ++ [anchor]) ++ node :: r := by
      rw [hS, behind_append hl]
      simp
    obtain ⟨a, b, ha, -, hrep, -, hexec⟩ := h.insert hnode hcut
      (T := fun j => behind anchor node (S j)) hS' fun j hj => behind_of_not_mem (hout j hj)
    obtain rfl : anchor = a := by
      rw [← List.cons_append, List.getLast?_concat] at ha
      exact Option.some.inj ha
    refine Or.inr ⟨_, _, none, rfl, ?_, hrep⟩
    change (listInsertAfter m anchor node).map _ = _
    rw [hexec]
    rfl
  | insertSort i node key =>
    obtain ⟨hhead, hchain, htail, hlen⟩ := h.walk i
    obtain ⟨l, r, hS, hsorted, hloop, -, -⟩ :=
      anchor_chain key node TURNS hchain htail (by omega)
    have hne : ∀ j, j ≠ i → update S i (sorted key node (S i)) j = S j :=
      fun j hj => update_of_ne hj ..
    obtain ⟨a, b, -, hb, hrep, hexec, -⟩ := h.insert hc hS ((update_self ..).trans hsorted) hne
    obtain ⟨hprev, hnext⟩ := h.agrees.null node hc
    refine Or.inr ⟨_, _, none, rfl, ?_, hrep⟩
    change (listInsertSort m (lists i) node key).map _ = _
    unfold listInsertSort
    rw [hhead, hloop, hb]
    dsimp only
    rw [if_pos ⟨hnext, hprev⟩, hexec]
    rfl
  | remove node =>
    obtain ⟨i, hi⟩ := hc
    obtain ⟨l, r, hS, hl, hout⟩ := h.split hi
    have hS' : (S i).erase node = l ++ r := by
      rw [hS, List.erase_append_right _ hl, List.erase_cons_head]
    obtain ⟨m', hexec, hrep⟩ := h.remove hS (T := fun j => (S j).erase node) hS'
      fun j hj => List.erase_of_not_mem (hout j hj)
    refine Or.inr ⟨m', _, none, rfl, ?_, hrep⟩
    change (listRemove m node).map _ = _
    rw [hexec]
    rfl

/-- `list_popback` unlinks the last node and returns no value. -/
theorem Rep.popback (h : Rep lists m S) (hS : S i = l ++ [node]) :
    ∃ m', listPopback m (lists i) = some (m', none) ∧ Rep lists m' (update S i l) := by
  have hne : ∀ j, j ≠ i → update S i l j = S j := fun j hj => update_of_ne hj ..
  obtain ⟨m', hremove, hrep⟩ := h.remove (r := []) hS (T := update S i l) (by simp) hne
  have hcut : nodes lists S i = ((lists i).head :: l) ++ node :: (lists i).tail :: [] := by
    rw [nodes_eq, hS]
    simp
  have hprev := (Links.Holds.link h hcut).2
  refine ⟨m', ?_, hrep⟩
  unfold listPopback
  rw [if_neg (by rw [h.empty i, hS]; simp), hprev]
  dsimp only
  rw [hremove]
  rfl

/-- A legal call that the sequences allow is a step. -/
theorem Rep.step (h : Rep lists m S) {c : Call ι} {x : Option Addr} (hc : Legal lists S c)
    (ha : apply S c = some (T, x)) : ∃ m', Step lists (m, S) c (m', T) ∧ Rep lists m' T := by
  rcases exec_apply h hc with ⟨hnone, -⟩ | ⟨m', U, r, happly, hexec, hrep⟩
  · rw [ha] at hnone
    cases hnone
  · obtain ⟨rfl, rfl⟩ := Prod.mk.inj (Option.some.inj (ha.symm.trans happly))
    exact ⟨m', ⟨hc, x, hexec, ha⟩, hrep⟩

theorem rep_step {s s' : Memory × (ι → List Addr)} {c : Call ι} (h : Rep lists s.1 s.2)
    (hs : Step lists s c s') : Rep lists s'.1 s'.2 := by
  obtain ⟨hc, r, hexec, happly⟩ := hs
  rcases exec_apply h hc with ⟨hnone, -⟩ | ⟨m', U, x, happly', hexec', hrep⟩
  · rw [happly] at hnone
    cases hnone
  · rw [happly] at happly'
    rw [hexec] at hexec'
    cases happly'
    cases hexec'
    exact hrep

end Calls

end Onix.Lists
