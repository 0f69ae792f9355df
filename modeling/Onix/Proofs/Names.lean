import Onix.Lib.First
import Onix.Proofs.Contents
import Onix.Sanity.AddEntry
import Onix.Sanity.NameMatch

/-! Names in directories: when `find_entry` finds the entry that `add_entry` has made, what that
does to the other names, and what `match_name` looks at. -/

namespace Onix.Fs

open Function Prog Cstr Bytes

variable {s t u v : State} {dir i j k n nr b : ℕ} {D : Set ℕ} {m : ℕ → ℕ} {name q : Str} {e : Entry}

/-- A name without separators. -/
def Plain (name : Str) : Prop := ∀ c ∈ chars name, isSeparator c = false

/-- The slot that `add_entry` uses: the first with number 0, or the one at the end. -/
def State.freeSlot (s : State) (dir : ℕ) : ℕ :=
  ((List.range (s.entries dir)).find? fun j => s.entryNr (s.slot dir j) = 0).getD (s.entries dir)

/-- What `name` and `nr` in the free slot change for the name `q` at slot `j`. The slot itself
loses an old name, or gets the first 13 characters of a longer one. A slot before it in its
block does so where nothing up to the free slot ends its name. -/
def State.Differs (s : State) (dir nr : ℕ) (name q : Str) (j : ℕ) : Prop :=
  let i := s.freeSlot dir
  if j < i then
    let d := s.data (s.slot dir j).buf
    let a := (s.slot dir j).addr + 2
    let n := DENTRY_SIZE * (i - j) - 2
    j / BLOCK_DENTRIES = i / BLOCK_DENTRIES ∧ d.read a n = (chars q).take n ∧
      ¬ ((matchName (q.drop n) d (a + n)).isSome ↔ (chars q).drop n = chars (entryBytes nr name))
  else
    j = i ∧ ¬ ((i < s.entries dir ∧ (s.matchSlot dir i q).isSome) ↔
      chars q = (chars name).take (NAME_LEN - 1))

section Search

/-- The result of `find_entry` where the blocks are there. -/
theorem findEntry_first (hmap : ∀ j < s.entries dir, Mapped dir m s (j / BLOCK_DENTRIES))
    (hq : Plain q) {o : Option (Entry × Str)} (h : findEntry dir q s = some (o, t)) :
    First (fun j => j < s.entries dir ∧ (s.matchSlot dir j q).isSome)
      (fun j => (slotAt m j, q.drop (chars q).length)) o := by
  obtain ⟨-, ⟨ho, hall⟩ | ⟨k, next, ho, hk⟩⟩ := findEntry_finds h
  · refine .inl ⟨ho, fun j hj => ?_⟩
    have hsome := hj.2
    rw [hall j hj.1] at hsome
    cases hsome
  · have hlt : k < s.entries dir := by
      have := hk.lt
      omega
    refine .inr ⟨k, ?_, ⟨hlt, Option.isSome_of_mem hk.hit⟩, fun j hj h => ?_⟩
    · rw [ho, (hmap k hlt).slot, matchName_next hq hk.hit]
    · have hsome := h.2
      rw [hk.first j (Nat.zero_le j) hj] at hsome
      cases hsome

theorem Filled.freeSlot (hd : Directory dir D m s) (h : Filled dir D m name k s t) :
    s.freeSlot dir = k := by
  have hslot : ∀ j < s.entries dir, s.slot dir j = slotAt m j := fun j hj => (hd.mapped j hj).2.slot
  unfold State.freeSlot
  cases hf : (List.range (s.entries dir)).find? fun j => s.entryNr (s.slot dir j) = 0 with
  | none =>
    have hnone := List.find?_eq_none.mp hf
    apply Nat.le_antisymm _ h.le
    apply Nat.le_of_not_lt
    intro hlt
    have hk := hnone k (List.mem_range.mpr hlt)
    rw [hslot k hlt] at hk
    exact hk (decide_eq_true (h.free hlt))
  | some l =>
    obtain ⟨hl, as, bs, hrange, hbefore⟩ := List.find?_eq_some_iff_append.mp hf
    have hlt : l < s.entries dir := List.mem_range.mp (List.mem_of_find?_eq_some hf)
    rw [hslot l hlt] at hl
    obtain hlk | rfl | hkl := Nat.lt_trichotomy l k
    · exact absurd (of_decide_eq_true hl) (h.used l hlk)
    · rfl
    · have hmem : k ∈ as := by
        have hkmem : k ∈ as ++ l :: bs := by
          rw [← hrange]
          exact List.mem_range.mpr (by omega)
        obtain h₁ | h₁ := List.mem_append.mp hkmem
        · exact h₁
        · have hsorted := List.pairwise_lt_range (n := s.entries dir)
          rw [hrange] at hsorted
          obtain ⟨-, hsorted, -⟩ := List.pairwise_append.mp hsorted
          obtain rfl | h₂ := List.mem_cons.mp h₁
          · omega
          · have := (List.pairwise_cons.mp hsorted).1 k h₂
            omega
      have hk := hbefore k hmem
      rw [hslot k (by omega)] at hk
      exact absurd (h.free (by omega)) (by simpa using hk)

end Search

section Added

/-- From `s` to `u` slot `k` has been given the name and the number. -/
structure Added (dir : ℕ) (D : Set ℕ) (m : ℕ → ℕ) (name : Str) (nr k : ℕ) (s u : State) : Prop where
  filled : ∃ t, Filled dir D m name k s t ∧ Later dir D m t u
  self : u.data (m (k / BLOCK_DENTRIES)) =
    (s.data (m (k / BLOCK_DENTRIES))).write (slotAt m k).addr (entryBytes nr name)
  other : ∀ l ∈ D, l ≠ k / BLOCK_DENTRIES → u.data (m l) = s.data (m l)
  mode : u.mode dir = s.mode dir
  entries : u.entries dir = max (s.entries dir) (k + 1)

theorem Filled.added (hd : Directory dir D m s) (h : Filled dir D m name k s t) (nr : ℕ) :
    Added dir D m name nr k s (t.setEntryNr (slotAt m k) nr) := by
  obtain ⟨hedit, hsize⟩ := edits_setData (hd.maps.later h.later) h.block
    ((t.data (m (k / BLOCK_DENTRIES))).wr16 (slotAt m k).addr nr)
  refine ⟨⟨t, h, hedit.later⟩, hedit.self.trans (h.self nr),
    fun l hl hne => (hedit.other l hl hne).trans (h.other l hl hne), hedit.mode.trans h.mode, ?_⟩
  rw [← h.entries]
  exact congrArg (· / DENTRY_SIZE) hsize

theorem Added.mapped (hd : Directory dir D m s) (h : Added dir D m name nr k s u)
    (hj : j < u.entries dir) : j / BLOCK_DENTRIES ∈ D ∧ Mapped dir m u (j / BLOCK_DENTRIES) := by
  obtain ⟨t, ht, hlater⟩ := h.filled
  rw [h.entries] at hj
  obtain hlt | hge := Nat.lt_or_ge j (s.entries dir)
  · obtain ⟨hD, hmap⟩ := hd.mapped j hlt
    exact ⟨hD, hd.maps.again s u .here (ht.later.trans hlater) _ hD hmap⟩
  · have hle := ht.le
    obtain rfl : j = k := by omega
    exact ⟨ht.block, hd.maps.again t u ht.later hlater _ ht.block ht.mapped⟩

theorem Added.maps (hd : Directory dir D m s) (h : Added dir D m name nr k s u) : MapsTo dir D m u := by
  obtain ⟨t, ht, hlater⟩ := h.filled
  exact hd.maps.later (ht.later.trans hlater)

theorem eos_mem_entryBytes : EOS ∈ entryBytes nr name := by
  unfold entryBytes
  simp

theorem length_entryBytes : (entryBytes nr name).length ≤ DENTRY_SIZE := by
  have hle : (le16 nr).length = 2 := rfl
  have hnl : NAME_LEN - 1 = 13 := rfl
  have hds : DENTRY_SIZE = 16 := rfl
  unfold entryBytes
  rw [List.length_append, List.length_append, List.length_take, hle, List.length_singleton, hnl, hds]
  omega

/-- The slot with the name matches this, or its first 13 characters. -/
theorem Added.matchSelf (hd : Directory dir D m s) (h : Added dir D m name nr k s u) (hq : Plain q) :
    (u.matchSlot dir k q).isSome ↔ chars q = (chars name).take (NAME_LEN - 1) := by
  have hk : k < u.entries dir := by
    rw [h.entries]
    omega
  have heos : EOS ∉ (chars name).take (NAME_LEN - 1) :=
    fun hmem => eos_notMem_chars (List.mem_of_mem_take hmem)
  have hwrite : u.data (m (k / BLOCK_DENTRIES)) =
      ((s.data (m (k / BLOCK_DENTRIES))).wr16 (slotAt m k).addr nr).write ((slotAt m k).addr + 2)
        ((chars name).take (NAME_LEN - 1) ++ [EOS]) := by
    rw [h.self, entryBytes, ← wr16_write]
    funext x
    unfold Bytes.write
    split_ifs with hx
    · unfold Bytes.wr16 Bytes.wr8
      rw [update_of_ne (by omega), update_of_ne (by omega), if_pos hx]
    · unfold Bytes.wr16 Bytes.wr8 Function.update
      simp only [eq_rec_constant, dite_eq_ite, if_neg hx]
  unfold State.matchSlot
  rw [(h.mapped hd hk).2.slot]
  have hblock : u.data (slotAt m k).buf = u.data (m (k / BLOCK_DENTRIES)) := rfl
  rw [hblock, hwrite]
  exact matchName_stands hq heos read_write_left write_last

/-- Where the slots match differently before and after. -/
theorem Added.differs (hd : Directory dir D m s) (h : Added dir D m name nr k s u) (hq : Plain q) :
    ¬ (j < s.entries dir ∧ (s.matchSlot dir j q).isSome ↔
      j < u.entries dir ∧ (u.matchSlot dir j q).isSome) ↔ s.Differs dir nr name q j := by
  obtain ⟨t, ht, -⟩ := id h.filled
  have hle := ht.le
  have hfree : s.freeSlot dir = k := ht.freeSlot hd
  have hentries := h.entries
  unfold State.Differs
  rw [hfree]
  obtain hjk | rfl | hjk := Nat.lt_trichotomy j k
  · have hj : j < s.entries dir := by omega
    have hj' : j < u.entries dir := by omega
    have hsj : s.slot dir j = slotAt m j := (hd.mapped j hj).2.slot
    have huj : u.slot dir j = slotAt m j := (h.mapped hd hj').2.slot
    dsimp only
    rw [if_pos hjk, hsj]
    unfold State.matchSlot
    rw [hsj, huj]
    simp only [hj, hj', true_and]
    by_cases hblock : j / BLOCK_DENTRIES = k / BLOCK_DENTRIES
    · -- the same block
      have hgap : (slotAt m j).addr + 2 + (DENTRY_SIZE * (k - j) - 2) = (slotAt m k).addr := by
        unfold slotAt
        unfold BLOCK_DENTRIES BLOCK_SIZE DENTRY_SIZE at *
        dsimp only
        omega
      have hbuf : (slotAt m j).buf = m (k / BLOCK_DENTRIES) := congrArg m hblock
      rw [hbuf, h.self, matchName_before hq eos_mem_entryBytes hgap, hgap]
      exact ⟨fun h => ⟨hblock, h⟩, fun h => h.2⟩
    · have hsame : u.data (slotAt m j).buf = s.data (slotAt m j).buf :=
        h.other _ (hd.mapped j hj).1 hblock
      rw [hsame]
      exact ⟨fun h => absurd Iff.rfl h, fun h => absurd h.1 hblock⟩
  · have hj' : j < u.entries dir := by omega
    dsimp only
    rw [if_neg (Nat.lt_irrefl j), ← h.matchSelf hd hq]
    simp only [hj', true_and]
  · dsimp only
    rw [if_neg (by omega)]
    refine ⟨fun hne => absurd ?_ hne, fun hne => absurd hne.1 (by omega)⟩
    by_cases hj : j < s.entries dir
    swap
    · have hj' : ¬ j < u.entries dir := by omega
      simp only [hj, hj', false_and]
    have hj' : j < u.entries dir := by omega
    have hsj : s.slot dir j = slotAt m j := (hd.mapped j hj).2.slot
    have huj : u.slot dir j = slotAt m j := (h.mapped hd hj').2.slot
    unfold State.matchSlot
    rw [hsj, huj]
    simp only [hj, hj', true_and]
    by_cases hblock : j / BLOCK_DENTRIES = k / BLOCK_DENTRIES
    · have hbuf : (slotAt m j).buf = m (k / BLOCK_DENTRIES) := congrArg m hblock
      have hbehind : (slotAt m k).addr + DENTRY_SIZE ≤ (slotAt m j).addr := by
        unfold slotAt
        unfold BLOCK_DENTRIES BLOCK_SIZE DENTRY_SIZE at *
        dsimp only
        omega
      have hlen : (entryBytes nr name).length ≤ DENTRY_SIZE := length_entryBytes
      rw [hbuf, h.self, matchName_congr]
      intro y hy
      unfold Bytes.write
      rw [if_neg (by omega)]
    · have hsame : u.data (slotAt m j).buf = s.data (slotAt m j).buf :=
        h.other _ (hd.mapped j hj).1 hblock
      rw [hsame]

/-- Nothing changes behind the slot. -/
theorem Added.differs_le (hd : Directory dir D m s) (h : Added dir D m name nr k s u)
    (hj : s.Differs dir nr name q j) : j ≤ k := by
  obtain ⟨t, ht, -⟩ := h.filled
  unfold State.Differs at hj
  rw [ht.freeSlot hd] at hj
  dsimp only at hj
  split_ifs at hj with hlt
  · exact Nat.le_of_lt hlt
  · exact Nat.le_of_eq hj.1

/-- A name that fits changes nothing before the slot for itself. -/
theorem Added.differs_self (hd : Directory dir D m s) (h : Added dir D m name nr k s u)
    (hfit : (chars name).length < NAME_LEN) (hj : s.Differs dir nr name name j) : j = k := by
  obtain ⟨t, ht, -⟩ := h.filled
  unfold State.Differs at hj
  rw [ht.freeSlot hd] at hj
  dsimp only at hj
  split_ifs at hj with hlt
  · obtain ⟨-, hrun, -⟩ := hj
    have hlen := congrArg List.length hrun
    have hds : DENTRY_SIZE = 16 := rfl
    have hnl : NAME_LEN = 14 := rfl
    rw [length_readAt, List.length_take, hds] at hlen
    omega
  · exact hj.1

end Added

/-- After `add_entry` has made an entry for a name and it has been given a number, `find_entry`
finds it if the name has less than 14 characters, and finds for another name what it has found
before if no slot matches it differently, but behind one that matches; `match_name` looks at the
field of a name and at the first component of the path, unless the path runs on over the field. -/
theorem names_kept (hd : Directory dir D m s) (hname : Plain name)
    (hnot : findEntry dir name s = some (none, v)) (hadd : addEntry dir name s = some (e, t))
    (nr : ℕ) :
    (∃ o u, findEntry dir name (t.setEntryNr e nr) = some (o, u) ∧
      (o.map Prod.fst = some e ↔ (chars name).length < NAME_LEN)) ∧
    (∀ q, Plain q → chars q ≠ chars name → ∃ o o' u u', findEntry dir q s = some (o, u) ∧
      findEntry dir q (t.setEntryNr e nr) = some (o', u') ∧
      (o' = o ↔ ∀ j, s.Differs dir nr name q j →
        ∃ l < j, (s.matchSlot dir l q).isSome ∧ ¬ s.Differs dir nr name q l)) ∧
    ∀ lhs d a, (∀ d', (∀ x < NAME_LEN, d' (a + x) = d (a + x)) →
      ((matchName lhs d' a).isSome ↔ component lhs = fieldName d a)) ↔ ¬ RunsOn lhs d a := by
  obtain ⟨k, rfl, hfilled⟩ := addEntry_filled hd hnot hadd
  have h : Added dir D m name nr k s (t.setEntryNr (slotAt m k) nr) := hfilled.added hd nr
  have hdir : isDir (s.mode dir) = true := (findEntry_finds hnot).1
  have hmu := h.maps hd
  have hdir' : isDir ((t.setEntryNr (slotAt m k) nr).mode dir) = true := by
    rw [h.mode]
    exact hdir
  have hreturns : ∀ q, ∃ o u, findEntry dir q (t.setEntryNr (slotAt m k) nr) = some (o, u) := by
    intro q
    obtain ⟨o, u, hu, -⟩ := findEntry_returns q hmu hdir' fun j hj => h.mapped hd hj
    exact ⟨o, u, hu⟩
  refine ⟨?_, fun q hq _ => ?_, fun lhs d a => matchName_field⟩
  · obtain ⟨o, u, hu⟩ := hreturns name
    refine ⟨o, u, hu, ?_⟩
    have hfirst := findEntry_first (fun j hj => (h.mapped hd hj).2) hname hu
    have hnone : ∀ j, ¬ (j < s.entries dir ∧ (s.matchSlot dir j name).isSome) := by
      obtain ⟨-, hno⟩ | ⟨j, hj, -⟩ := findEntry_first (fun j hj => (hd.mapped j hj).2) hname hnot
      · exact hno
      · cases hj
    have hk : k < (t.setEntryNr (slotAt m k) nr).entries dir := by
      rw [h.entries]
      omega
    have hself := h.matchSelf hd hname
    constructor
    · intro ho
      obtain ⟨rfl, -⟩ | ⟨j, rfl, ⟨hj, hmatch⟩, -⟩ := hfirst
      · cases ho
      obtain rfl : j = k := slotAt_inj hmu (h.mapped hd hj).1 (h.mapped hd hk).1 (Option.some.inj ho)
      have hlen := congrArg List.length (hself.mp hmatch)
      have hnl : NAME_LEN = 14 := rfl
      rw [List.length_take, hnl] at hlen
      omega
    · intro hfit
      have hwhole : (chars name).take (NAME_LEN - 1) = chars name :=
        List.take_of_length_le (by omega)
      have hmatch := hself.mpr hwhole.symm
      obtain ⟨rfl, hno⟩ | ⟨j, rfl, hj, hbefore⟩ := hfirst
      · exact absurd ⟨hk, hmatch⟩ (hno k)
      have hdiffers : s.Differs dir nr name name j :=
        (h.differs hd hname).mp fun hiff => hnone j (hiff.mpr hj)
      rw [h.differs_self hd hfit hdiffers]
      rfl
  · obtain ⟨o, u, hu, -⟩ := findEntry_returns q hd.maps hdir hd.mapped
    obtain ⟨o', u', hu'⟩ := hreturns q
    refine ⟨o, o', u, u', hu, hu', ?_⟩
    have hfirst := findEntry_first (fun j hj => (hd.mapped j hj).2) hq hu
    have hfirst' := findEntry_first (fun j hj => (h.mapped hd hj).2) hq hu'
    rw [hfirst.eq_iff hfirst' fun j l hj hl heq =>
      slotAt_inj hmu (hd.mapped j hj.1).1 (h.mapped hd hl.1).1 (Prod.mk.inj heq).1]
    apply forall_congr'
    intro j
    rw [h.differs hd hq]
    apply imp_congr_right
    intro hj
    have hle : j ≤ s.entries dir := (h.differs_le hd hj).trans hfilled.le
    apply exists_congr
    intro l
    apply and_congr_right
    intro hl
    rw [← h.differs hd hq, not_not]
    constructor
    · intro hboth
      exact ⟨hboth.1.2, fun _ => hboth.2, fun _ => hboth.1⟩
    · intro hboth
      exact ⟨⟨by omega, hboth.1⟩, hboth.2.mp ⟨by omega, hboth.1⟩⟩

/-- A root with `.` and `..`. -/
def dotsImage : Image where
  descs := [⟨IFDIR, 0, 32, 2, [5]⟩]
  blocks := [dentry 1 [DOT] ++ dentry 1 [DOT, DOT]]
  uid := 0

/-- `n` times the letter `a`. -/
def letters (n : ℕ) : Str := List.replicate n 0x61

theorem directory_dotsImage : Directory 0 {0} (fun _ => 5) dotsImage.mount := by
  have hplace : InPlace 0 {0} (fun _ => 5) dotsImage.mount :=
    .single rfl (by decide +kernel) (by decide) (by decide)
  have hentries : dotsImage.mount.entries 0 = 2 := by decide +kernel
  obtain ⟨u, hu, -⟩ := hplace.bmap .here (hplace.kept .here) rfl false
  refine ⟨hplace.mapsTo, by decide +kernel, fun j hj => ?_, fun _ => ?_⟩
  · rw [hentries] at hj
    have hdiv : j / BLOCK_DENTRIES = 0 :=
      Nat.div_eq_of_lt (by unfold BLOCK_DENTRIES BLOCK_SIZE DENTRY_SIZE; omega)
    rw [hdiv]
    exact ⟨rfl, u, hu⟩
  · rw [hentries]
    exact Set.mem_singleton_iff.mpr (by decide)

/-- 13 letters are found again. -/
theorem names_kept_dotsImage : ∃ e t, addEntry 0 (letters 13) dotsImage.mount = some (e, t) ∧
    ∃ o u, findEntry 0 (letters 13) (t.setEntryNr e 2) = some (o, u) ∧ o.map Prod.fst = some e := by
  have hplain : Plain (letters 13) := by
    unfold Plain
    decide
  have hnone : (findEntry 0 (letters 13) dotsImage.mount).map Prod.fst = some none := by decide +kernel
  have hsome : (addEntry 0 (letters 13) dotsImage.mount).isSome = true := by decide +kernel
  obtain ⟨⟨o, v⟩, hnot, rfl⟩ := Option.map_eq_some_iff.mp hnone
  obtain ⟨⟨e, t⟩, hadd⟩ := Option.isSome_iff_exists.mp hsome
  obtain ⟨o, u, hu, ho⟩ := (names_kept directory_dotsImage hplain hnot hadd 2).1
  exact ⟨e, t, hadd, o, u, hu, ho.mpr (by decide)⟩

/-- 14 letters are not. -/
theorem name_lost : Directory 0 {0} (fun _ => 5) dotsImage.mount ∧ Plain (letters 14) ∧
    ∃ v e t u, findEntry 0 (letters 14) dotsImage.mount = some (none, v) ∧
      addEntry 0 (letters 14) dotsImage.mount = some (e, t) ∧
      findEntry 0 (letters 14) (t.setEntryNr e 2) = some (none, u) := by
  have hplain : Plain (letters 14) := by
    unfold Plain
    decide
  have hnone : (findEntry 0 (letters 14) dotsImage.mount).map Prod.fst = some none := by decide +kernel
  have hlost : ((addEntry 0 (letters 14) dotsImage.mount).bind fun r =>
      (findEntry 0 (letters 14) (r.2.setEntryNr r.1 2)).map Prod.fst) = some none := by decide +kernel
  obtain ⟨⟨o, v⟩, hnot, rfl⟩ := Option.map_eq_some_iff.mp hnone
  obtain ⟨⟨e, t⟩, hadd, hfind⟩ := Option.bind_eq_some_iff.mp hlost
  obtain ⟨⟨o, u⟩, hu, rfl⟩ := Option.map_eq_some_iff.mp hfind
  exact ⟨directory_dotsImage, hplain, v, e, t, u, hnot, hadd, hu⟩

end Onix.Fs
