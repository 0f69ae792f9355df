import Onix.Sanity.CellsSpec
import Onix.Spec.Image

/-! The file blocks below `TOTAL_BLOCK` and the cells of the index tree are the same in
number and order, and `bmap` reads the one cell of its block. -/

namespace Onix.Fs

open Function Prog

variable {s t : State} {buf addr inode i j k l b r : ℕ} {p q : List ℕ} {c d : ℕ × ℕ}

section Ways

/-- Cell `i` of the array at the end of the way `q` holds a block of the file. -/
inductive Leaf : List ℕ → ℕ → Prop
  | direct (i : ℕ) : i < DIRECT_BLOCK → Leaf [] i
  | single (i : ℕ) : i < BLOCK_INDEXES → Leaf [DIRECT_BLOCK] i
  | double (i j : ℕ) : i < BLOCK_INDEXES → j < BLOCK_INDEXES → Leaf [DIRECT_BLOCK + 1, i] j

theorem Leaf.interior (h : Leaf q i) : Interior q := by
  cases h with
  | direct => exact .root
  | single => exact .single
  | double i _ hi => exact .inner i hi

/-- What is left of a block number below the second index block, in two digits. -/
theorem digits_lt (hk : k < TOTAL_BLOCK) (h : DIRECT_BLOCK + INDIRECT1_BLOCK ≤ k) :
    (k - (DIRECT_BLOCK + INDIRECT1_BLOCK)) / BLOCK_INDEXES < BLOCK_INDEXES := by
  apply Nat.div_lt_of_lt_mul
  have htotal : TOTAL_BLOCK = DIRECT_BLOCK + INDIRECT1_BLOCK + BLOCK_INDEXES * BLOCK_INDEXES := rfl
  omega

/-- The way to a block ends in a cell for blocks. -/
theorem path_leaf (hk : k < TOTAL_BLOCK) : ∃ q i, path k = q ++ [i] ∧ Leaf q i := by
  unfold path
  by_cases h₀ : k < DIRECT_BLOCK
  · rw [if_pos h₀]
    exact ⟨[], k, rfl, .direct k h₀⟩
  rw [if_neg h₀]
  by_cases h₁ : k < DIRECT_BLOCK + INDIRECT1_BLOCK
  · rw [if_pos h₁]
    have hlt : k - DIRECT_BLOCK < BLOCK_INDEXES := by
      have hsize : INDIRECT1_BLOCK = BLOCK_INDEXES := rfl
      omega
    exact ⟨[DIRECT_BLOCK], _, rfl, .single _ hlt⟩
  rw [if_neg h₁]
  have hmod : (k - (DIRECT_BLOCK + INDIRECT1_BLOCK)) % BLOCK_INDEXES < BLOCK_INDEXES :=
    Nat.mod_lt _ (by decide)
  exact ⟨[DIRECT_BLOCK + 1, _], _, rfl, .double _ _ (digits_lt hk (by omega)) hmod⟩

/-- Every cell for blocks is at the end of the way to one. -/
theorem leaf_path (h : Leaf q i) : ∃ k < TOTAL_BLOCK, path k = q ++ [i] := by
  have htotal : TOTAL_BLOCK = DIRECT_BLOCK + INDIRECT1_BLOCK + BLOCK_INDEXES * BLOCK_INDEXES := rfl
  have hsize : INDIRECT1_BLOCK = BLOCK_INDEXES := rfl
  cases h with
  | direct i hi =>
    refine ⟨i, by omega, ?_⟩
    unfold path
    rw [if_pos hi]
    rfl
  | single i hi =>
    refine ⟨DIRECT_BLOCK + i, by omega, ?_⟩
    unfold path
    rw [if_neg (by omega), if_pos (by omega), Nat.add_sub_cancel_left]
    rfl
  | double a i ha hi =>
    have hlt : a * BLOCK_INDEXES + i < BLOCK_INDEXES * BLOCK_INDEXES := by
      calc a * BLOCK_INDEXES + i < a * BLOCK_INDEXES + BLOCK_INDEXES := by omega
        _ = (a + 1) * BLOCK_INDEXES := by ring
        _ ≤ BLOCK_INDEXES * BLOCK_INDEXES := Nat.mul_le_mul_right _ ha
    have hdiv : (a * BLOCK_INDEXES + i) / BLOCK_INDEXES = a := by
      rw [Nat.add_comm, Nat.add_mul_div_right _ _ (by omega), Nat.div_eq_of_lt hi, Nat.zero_add]
    have hmod : (a * BLOCK_INDEXES + i) % BLOCK_INDEXES = i := by
      rw [Nat.add_comm, Nat.add_mul_mod_self_right, Nat.mod_eq_of_lt hi]
    refine ⟨DIRECT_BLOCK + INDIRECT1_BLOCK + (a * BLOCK_INDEXES + i), by omega, ?_⟩
    unfold path
    rw [if_neg (by omega), if_neg (by omega), Nat.add_sub_cancel_left, hdiv, hmod]
    rfl

/-- The number that a way spells. -/
def number : List ℕ → ℕ
  | [i] => i
  | [_, i] => DIRECT_BLOCK + i
  | [_, i, j] => DIRECT_BLOCK + INDIRECT1_BLOCK + (i * BLOCK_INDEXES + j)
  | _ => 0

theorem number_path (k : ℕ) : number (path k) = k := by
  unfold path
  by_cases h₀ : k < DIRECT_BLOCK
  · rw [if_pos h₀]
    rfl
  rw [if_neg h₀]
  by_cases h₁ : k < DIRECT_BLOCK + INDIRECT1_BLOCK
  · rw [if_pos h₁]
    exact Nat.add_sub_cancel' (by omega)
  rw [if_neg h₁]
  have hsum := Nat.div_add_mod' (k - (DIRECT_BLOCK + INDIRECT1_BLOCK)) BLOCK_INDEXES
  calc DIRECT_BLOCK + INDIRECT1_BLOCK + ((k - (DIRECT_BLOCK + INDIRECT1_BLOCK)) / BLOCK_INDEXES *
        BLOCK_INDEXES + (k - (DIRECT_BLOCK + INDIRECT1_BLOCK)) % BLOCK_INDEXES)
      = DIRECT_BLOCK + INDIRECT1_BLOCK + (k - (DIRECT_BLOCK + INDIRECT1_BLOCK)) := by rw [hsum]
    _ = k := Nat.add_sub_cancel' (by omega)

theorem path_injective : Injective path := by
  apply LeftInverse.injective
  exact number_path

end Ways

section Spots

/-- The last cell of a way lies in the block that the way before it leads to. -/
theorem spot_snoc : s.spot buf addr (q ++ [i]) =
    (s.node buf addr q).map fun b => (b, (if q = [] then addr else 0) + 2 * i) := by
  induction q generalizing buf addr with
  | nil => rfl
  | cons a q ih =>
    have hcons : ∃ j p, q ++ [i] = j :: p := by
      cases q with
      | nil => exact ⟨i, [], rfl⟩
      | cons j q => exact ⟨j, q ++ [i], rfl⟩
    obtain ⟨j, p, hp⟩ := hcons
    rw [if_neg (List.cons_ne_nil a q)]
    unfold State.node
    rw [List.cons_append, hp]
    unfold State.spot
    rw [← hp, ih]
    split_ifs <;> rfl

/-- The cell of block `k`, by the index block that it lies in. -/
theorem spotOf_leaf (hk : k < TOTAL_BLOCK) (h : s.spotOf inode k = some c) :
    ∃ q i, path k = q ++ [i] ∧ Leaf q i ∧ s.nodeOf inode q = some c.1 ∧
      c.2 = (if q = [] then s.izone inode else 0) + 2 * i := by
  obtain ⟨q, i, hp, hl⟩ := path_leaf hk
  unfold State.spotOf at h
  rw [hp, spot_snoc] at h
  obtain ⟨b, hb, rfl⟩ := Option.map_eq_some_iff.mp h
  exact ⟨q, i, hp, hl, hb, rfl⟩

theorem spotOf_of_leaf (hp : path k = q ++ [i]) (hb : s.nodeOf inode q = some b) :
    s.spotOf inode k = some (b, (if q = [] then s.izone inode else 0) + 2 * i) := by
  unfold State.spotOf
  rw [hp, spot_snoc]
  unfold State.nodeOf at hb
  rw [hb]
  rfl

/-- Different blocks of a file have cells that share no byte. -/
theorem spotOf_apart (hn : s.NoTwice inode) (hk : k < TOTAL_BLOCK) (hl : l < TOTAL_BLOCK)
    (hne : k ≠ l) (hc : s.spotOf inode k = some c) (hd : s.spotOf inode l = some d) :
    Apart c d := by
  intro hsame
  obtain ⟨q, i, hp, hleaf, hnode, hat⟩ := spotOf_leaf hk hc
  obtain ⟨q', i', hp', hleaf', hnode', hat'⟩ := spotOf_leaf hl hd
  rw [← hsame] at hnode'
  obtain rfl := hn q q' c.1 hleaf.interior hleaf'.interior hnode hnode'
  have hi : i ≠ i' := by
    intro hi
    apply hne
    apply path_injective
    rw [hp, hp', hi]
  rw [hat, hat']
  omega

theorem nodeOf_one : s.nodeOf inode [i] = some b ↔
    b ≠ 0 ∧ b = s.cell (s.ibuf inode) (s.izone inode) i := by
  unfold State.nodeOf State.node State.node
  split_ifs with h0
  · exact ⟨fun h => absurd h (by simp), fun h => absurd (h.2.trans h0) h.1⟩
  · refine ⟨fun h => ?_, fun h => by rw [h.2]⟩
    obtain rfl := Option.some.inj h
    exact ⟨h0, rfl⟩

theorem nodeOf_two : s.nodeOf inode [i, j] = some b ↔
    ∃ a, s.nodeOf inode [i] = some a ∧ b ≠ 0 ∧ b = s.cell a 0 j := by
  unfold State.nodeOf State.node State.node State.node
  split_ifs with h0 h1
  · simp
  · refine ⟨fun h => absurd h (by simp), fun ⟨a, ha, hb, h⟩ => ?_⟩
    obtain rfl := Option.some.inj ha
    exact absurd (h.trans h1) hb
  · refine ⟨fun h => ?_, fun ⟨a, ha, hb, h⟩ => ?_⟩
    · obtain rfl := Option.some.inj h
      exact ⟨_, rfl, h1, rfl⟩
    · obtain rfl := Option.some.inj ha
      rw [h]

/-- The cells of the file's blocks are the data cells of the tree. -/
theorem dataCell_iff : DataCell s inode c ↔ ∃ k < TOTAL_BLOCK, s.spotOf inode k = some c := by
  constructor
  · intro h
    cases h with
    | direct i hi =>
      obtain ⟨k, hk, hp⟩ := leaf_path (.direct i hi)
      exact ⟨k, hk, spotOf_of_leaf hp rfl⟩
    | single b i hi hb h =>
      obtain ⟨k, hk, hp⟩ := leaf_path (.single i hi)
      have hnode := spotOf_of_leaf hp (nodeOf_one.mpr ⟨hb, h⟩)
      rw [if_neg (List.cons_ne_nil _ _), Nat.zero_add] at hnode
      exact ⟨k, hk, hnode⟩
    | double b c i j hi hj hb h hc h' =>
      obtain ⟨k, hk, hp⟩ := leaf_path (.double i j hi hj)
      have hnode := spotOf_of_leaf hp (nodeOf_two.mpr ⟨b, nodeOf_one.mpr ⟨hb, h⟩, hc, h'⟩)
      rw [if_neg (List.cons_ne_nil _ _), Nat.zero_add] at hnode
      exact ⟨k, hk, hnode⟩
  · rintro ⟨k, hk, h⟩
    obtain ⟨q, i, -, hleaf, hnode, hat⟩ := spotOf_leaf hk h
    obtain ⟨b, a⟩ := c
    dsimp only at hnode hat
    cases hleaf with
    | direct i hi =>
      obtain rfl := Option.some.inj hnode
      rw [hat]
      exact .direct i hi
    | single i hi =>
      obtain ⟨hb, h⟩ := nodeOf_one.mp hnode
      rw [hat, if_neg (List.cons_ne_nil _ _), Nat.zero_add]
      exact .single b i hi hb h
    | double a i ha hi =>
      obtain ⟨e, he, hc, h'⟩ := nodeOf_two.mp hnode
      obtain ⟨hb, h⟩ := nodeOf_one.mp he
      rw [hat, if_neg (List.cons_ne_nil _ _), Nat.zero_add]
      exact .double e b a i ha hi hb h hc h'

theorem apart_irrefl : ¬ Apart c c := by
  intro h
  have := h rfl
  omega

/-- Every data cell belongs to one block of the file. -/
theorem dataCell_unique (hn : s.NoTwice inode) (h : DataCell s inode c) :
    ∃! k, k < TOTAL_BLOCK ∧ s.spotOf inode k = some c := by
  obtain ⟨k, hk, hc⟩ := dataCell_iff.mp h
  refine ⟨k, ⟨hk, hc⟩, ?_⟩
  rintro l ⟨hl, hd⟩
  by_contra hne
  exact apart_irrefl (spotOf_apart hn hl hk hne hd hc)

end Spots

section Look

/-- `bmap` that does not create comes back, with what the cell of its block holds. -/
theorem bmap_look (hdev : (s.inodeTable inode).dev = s.dev) (hk : k < TOTAL_BLOCK) :
    ∃ t, bmap inode k false s = some (s.held (s.spotOf inode k), t) := by
  have hpos : 0 < (s.cache.hold (s.ibuf inode)).count (s.ibuf inode) := by
    unfold Cache.hold
    dsimp only
    rw [update_self]
    exact Nat.succ_pos _
  have hpath : path k ≠ [] := by
    obtain ⟨q, i, hp, -⟩ := path_leaf hk
    rw [hp]
    exact List.append_ne_nil_of_right_ne_nil q (List.cons_ne_nil i [])
  obtain ⟨t, ht⟩ : ∃ t, follow (s.inodeTable inode).dev false (s.ibuf inode) (s.izone inode) (path k)
      { s with cache := s.cache.hold (s.ibuf inode) } = some (State.held
        { s with cache := s.cache.hold (s.ibuf inode) } (State.spot
          { s with cache := s.cache.hold (s.ibuf inode) } (s.ibuf inode) (s.izone inode) (path k)), t) :=
    follow_look hdev hpos hpath
  refine ⟨t, ?_⟩
  rw [bmap_follow hk, ht]
  have hdata : State.data { s with cache := s.cache.hold (s.ibuf inode) } = s.data := rfl
  rw [spot_congr hdata, held_congr hdata]
  rfl

theorem bmap_writtenBack (h : bmap inode k false s = some (r, t)) : WrittenBack s t := by
  rw [bmap_follow (bmap_block h)] at h
  have hwalk := follow_writtenBack _ _ _ h
  exact ⟨hwalk.data, hwalk.block⟩

end Look

/-- `bmap` goes the way to the one cell of its block, whether it creates or not; the cells of
different blocks share no byte and together they are the data cells of the tree. Without
`create` it comes back with what the cell holds, and nothing happens but that dirty blocks
are written back. Every buffer is held as often after the call as before. -/
theorem bmap_cells (hn : s.NoTwice inode) :
    (∀ k < TOTAL_BLOCK, ∀ create, bmap inode k create s =
      follow (s.inodeTable inode).dev create (s.ibuf inode) (s.izone inode) (path k)
        { s with cache := s.cache.hold (s.ibuf inode) }) ∧
    (∀ k < TOTAL_BLOCK, ∀ l < TOTAL_BLOCK, ∀ c d, k ≠ l → s.spotOf inode k = some c →
      s.spotOf inode l = some d → Apart c d) ∧
    (∀ k < TOTAL_BLOCK, ∀ c, s.spotOf inode k = some c → DataCell s inode c) ∧
    (∀ c, DataCell s inode c → ∃! k, k < TOTAL_BLOCK ∧ s.spotOf inode k = some c) ∧
    (∀ k < TOTAL_BLOCK, (s.inodeTable inode).dev = s.dev →
      ∃ t, bmap inode k false s = some (s.held (s.spotOf inode k), t) ∧ WrittenBack s t) ∧
    (∀ k r t create, bmap inode k create s = some (r, t) → t.cache.count = s.cache.count) := by
  refine ⟨fun k hk create => bmap_follow hk, ?_, ?_, fun c hc => dataCell_unique hn hc, ?_, ?_⟩
  · intro k hk l hl c d hne hc hd
    exact spotOf_apart hn hk hl hne hc hd
  · intro k hk c hc
    exact dataCell_iff.mpr ⟨k, hk, hc⟩
  · intro k hk hdev
    obtain ⟨t, ht⟩ := bmap_look hdev hk
    exact ⟨t, ht, bmap_writtenBack ht⟩
  · intro k r t create h
    exact bmap_counts h

section Example

/-- A root directory with a direct block and both index blocks. -/
def tree : Image where
  descs := [{ mode := 0o40755, uid := 0, size := 1024, nlinks := 2, zone := [5, 0, 0, 0, 0, 0, 0, 6, 7] }]
  blocks := [[], le16 8, le16 9, [], le16 10, []]
  uid := 0

theorem tree_node (hp : Interior p) (h : tree.mount.nodeOf 0 p = some b) :
    (p, b) ∈ [([], 4), ([7], 6), ([8], 7), ([8, 0], 9)] := by
  cases hp with
  | root =>
    obtain rfl := Option.some.inj h
    decide
  | single =>
    obtain ⟨-, rfl⟩ := nodeOf_one.mp h
    decide +kernel
  | double =>
    obtain ⟨-, rfl⟩ := nodeOf_one.mp h
    decide +kernel
  | inner i hi =>
    obtain ⟨a, ha, hb, hc⟩ := nodeOf_two.mp h
    obtain ⟨-, rfl⟩ := nodeOf_one.mp ha
    have hseven : tree.mount.cell (tree.mount.ibuf 0) (tree.mount.izone 0) (DIRECT_BLOCK + 1) = 7 := by
      decide +kernel
    rw [hseven] at hc
    have hlen : (le16 9).length = 2 := rfl
    by_cases h0 : i = 0
    · subst h0
      rw [hc]
      decide +kernel
    · refine absurd ?_ hb
      rw [hc]
      change (blockOf (le16 9)).rd16 (0 + 2 * i) = 0
      unfold blockOf Bytes.rd16 Bytes.rd8
      dsimp only
      rw [List.getD_eq_default _ _ (by omega), List.getD_eq_default _ _ (by omega)]
      rfl

theorem tree_noTwice : tree.mount.NoTwice 0 := by
  intro p q b hp hq h h'
  have hmem := tree_node hp h
  have hmem' := tree_node hq h'
  simp only [List.mem_cons, Prod.mk.injEq, List.not_mem_nil, or_false] at hmem hmem'
  rcases hmem with ⟨rfl, rfl⟩ | ⟨rfl, rfl⟩ | ⟨rfl, rfl⟩ | ⟨rfl, rfl⟩ <;> simp_all

/-- Block 519 of the root is the one that the inner index block leads to first. -/
theorem bmap_cells_tree : tree.mount.spotOf 0 519 = some (9, 0) ∧
    ∃ t, bmap 0 519 false tree.mount = some (10, t) ∧ WrittenBack tree.mount t := by
  have hspot : tree.mount.spotOf 0 519 = some (9, 0) := by decide +kernel
  have hheld : tree.mount.held (some (9, 0)) = 10 := by decide +kernel
  obtain ⟨t, ht, hw⟩ := (bmap_cells tree_noTwice).2.2.2.2.1 519 (by decide) rfl
  rw [hspot, hheld] at ht
  exact ⟨hspot, t, ht, hw⟩

end Example

end Onix.Fs
