import Onix.Spec.Path

/-! `abspath` against paths as lists of components. -/

namespace Onix.Cstr

open Function

/-- The memory from address 0 on holds the string and its terminator. -/
def Spells (b : Bytes) (str : Str) : Prop := ∀ i ≤ str.length, b i = str.getD i EOS

/-- What a path says after its leading separator. -/
def relative (path : Str) : Str := if isSeparator (deref path) then path.tail else path

def pieces (path : Str) : List Str := path.splitOnP isSeparator

/-- An empty piece at the end comes from a trailing separator. -/
def components (path : Str) : List Str :=
  if (pieces path).getLast? = some [] then (pieces path).dropLast else pieces path

/-- One component of a path. -/
def climb (cs : List Str) (c : Str) : List Str :=
  if c = [DOT] then cs else if c = [DOT, DOT] then cs.dropLast else cs ++ [c]

/-- Where a path begins. -/
def origin (cs : List Str) (path : Str) : List Str := if isSeparator (deref path) then [] else cs

/-- The components of the directory that a path leads to from the one with components `cs`. -/
def resolve (cs : List Str) (path : Str) : List Str :=
  (components (relative path)).foldl climb (origin cs path)

/-- The canonical path. -/
def text (cs : List Str) : Str := SEPARATOR1 :: cs.flatMap (· ++ [SEPARATOR1])

/-- A name as a component can be. -/
def IsName (c : Str) : Prop := ∀ x ∈ c, x ≠ EOS ∧ isSeparator x = false

/-- Of the components that begin with a dot and have a separator behind them there is
only a last `./` and `../` at the root. -/
def Plain (cs l : List Str) : Prop := ∀ before c after, l = before ++ c :: after → after ≠ [] →
  deref c = DOT → (c = [DOT] ∧ after = [[]]) ∨ (c = [DOT, DOT] ∧ before.foldl climb cs = [])

variable {b : Bytes} {str path p c rest : Str} {cs l : List Str} {x : Byte} {i n : ℕ}

theorem isSeparator_separator1 : isSeparator SEPARATOR1 = true := rfl

theorem text_append : text (cs ++ [c]) = text cs ++ c ++ [SEPARATOR1] := by simp [text]

theorem text_length : (text (cs ++ [c])).length = (text cs).length + c.length + 1 := by
  simp [text_append]
  omega

/-! ## Reading -/

theorem Spells.at (h : Spells b str) (hi : i ≤ str.length) : b i = str.getD i EOS := h i hi

theorem Spells.end (h : Spells b str) : b str.length = EOS := by simp [h _ le_rfl]

theorem Spells.left {s₁ s₂ : Str} (h : Spells b (s₁ ++ s₂)) (hi : i < s₁.length) :
    b i = s₁.getD i EOS := by
  rw [h i (by simp; omega), List.getD_append _ _ _ _ hi]

theorem Spells.congr {b' : Bytes} (h : Spells b str) (hb : ∀ i ≤ str.length, b' i = b i) :
    Spells b' str := fun i hi => (hb i hi).trans (h i hi)

/-- A string up to a place that is made its end. -/
theorem Spells.cut {s₁ s₂ : Str} (h : Spells b (s₁ ++ s₂)) : Spells (update b s₁.length EOS) s₁ := by
  intro i hi
  obtain rfl | hlt := hi.eq_or_lt
  · simp
  · rw [update_of_ne hlt.ne]
    exact h.left hlt

theorem getD_terminated {new : Str} (h : n ≤ new.length) :
    (new ++ [EOS]).getD n 0 = new.getD n EOS := by
  obtain rfl | hlt := h.eq_or_lt
  · simp
  · rw [List.getD_append _ _ _ _ hlt]
    rfl

/-- A copy to the end of a string. -/
theorem Spells.write (h : Spells b str) (new : Str) :
    Spells (b.write str.length (new ++ [EOS])) (str ++ new) := by
  intro i hi
  unfold Bytes.write
  rw [List.length_append] at hi
  simp only [List.length_append, List.length_singleton]
  by_cases hlt : i < str.length
  · rw [if_neg (by omega), h.at hlt.le, List.getD_append _ _ _ _ hlt]
  · have hr : (str ++ new).getD i EOS = new.getD (i - str.length) EOS :=
      List.getD_append_right _ _ _ _ (by omega)
    rw [if_pos (by omega), hr]
    exact getD_terminated (by omega)

/-- The terminator becomes a character, and the next byte is 0 already. -/
theorem Spells.snoc (h : Spells b str) (hz : b (str.length + 1) = EOS) (x : Byte) :
    Spells (update b str.length x) (str ++ [x]) := by
  intro i hi
  rw [List.length_append, List.length_singleton] at hi
  rcases lt_trichotomy i str.length with hlt | rfl | hgt
  · rw [update_of_ne hlt.ne, h.at hlt.le, List.getD_append _ _ _ _ hlt]
  · simp
  · obtain rfl : i = str.length + 1 := by omega
    rw [update_of_ne (by omega), hz]
    simp

theorem afterLast_step {last : Option ℕ} (h : b i ≠ EOS) : afterLast b (n + 1) i last =
    afterLast b n (i + 1) (if isSeparator (b i) then some (i + 1) else last) := by
  simp [afterLast, h]

/-- `afterLast` goes over a string; over a name it keeps what it has found. -/
theorem afterLast_over (last : Option ℕ) (hstr : EOS ∉ str) (hn : str.length ≤ n)
    (h : ∀ k < str.length, b (i + k) = str.getD k EOS) : ∃ last',
    afterLast b n i last = afterLast b (n - str.length) (i + str.length) last' ∧
      (IsName str → last' = last) := by
  induction str generalizing n i last with
  | nil => exact ⟨last, by simp, fun _ => rfl⟩
  | cons x str ih =>
    obtain ⟨n, rfl⟩ : ∃ m, n = m + 1 := ⟨n - 1, by simp at hn; omega⟩
    have h0 : b i = x := by simpa using h 0 (by simp)
    have hrest : ∀ k < str.length, b (i + 1 + k) = str.getD k EOS := by
      intro k hk
      simpa [Nat.add_assoc, Nat.add_comm 1] using h (k + 1) (by simpa using hk)
    obtain ⟨last', he, hname⟩ := ih (if isSeparator (b i) then some (i + 1) else last)
      (fun hx => hstr (by simp [hx])) (by simpa using hn) hrest
    refine ⟨last', ?_, fun hstr' => ?_⟩
    · rw [afterLast_step (by rintro hz; exact hstr (by simp [← h0, hz])), he]
      simp only [List.length_cons]
      congr 1 <;> omega
    · rw [hname fun y hy => hstr' y (by simp [hy]), h0, (hstr' x (by simp)).2]
      rfl

/-- `strrsep` finds the separator before the last component. -/
theorem afterLast_eq {pre : Str} (hp : EOS ∉ pre) (hc : IsName c)
    (hb : Spells b (pre ++ SEPARATOR1 :: c)) (hn : (pre ++ SEPARATOR1 :: c).length < n) :
    afterLast b n 0 none = some (pre.length + 1) := by
  simp only [List.length_append, List.length_cons] at hn
  obtain ⟨last, hpre, -⟩ := afterLast_over (b := b) (n := n) (i := 0) none hp (by omega)
    (fun k hk => by rw [Nat.zero_add, hb.left hk])
  have hsep : b pre.length = SEPARATOR1 := by simpa using hb.at (i := pre.length) (by simp)
  have hcat : ∀ k ≤ c.length, b (pre.length + 1 + k) = c.getD k EOS := by
    intro k hk
    rw [hb.at (by simp; omega), List.getD_append_right _ _ _ _ (by omega)]
    simp [show pre.length + 1 + k - pre.length = k + 1 by omega]
  obtain ⟨m, hm⟩ : ∃ m, n = pre.length + (m + 1) := ⟨n - pre.length - 1, by omega⟩
  obtain ⟨k, rfl⟩ : ∃ k, m = c.length + (k + 1) := ⟨m - c.length - 1, by omega⟩
  obtain ⟨last', hname, hlast⟩ := afterLast_over (b := b) (n := c.length + (k + 1))
    (i := pre.length + 1) (some (pre.length + 1)) (fun hz => (hc _ hz).1 rfl) (by omega)
    (fun k hk => hcat k hk.le)
  have hend : b (pre.length + 1 + c.length) = EOS := by simp [hcat c.length le_rfl]
  rw [hpre, hm, Nat.zero_add, Nat.add_sub_cancel_left, afterLast_step (by rw [hsep]; decide), hsep,
    if_pos isSeparator_separator1, hname, hlast hc, Nat.add_sub_cancel_left]
  have hno : isSeparator EOS = false := rfl
  simp [afterLast, hend, hno]

/-! ## The loop -/

theorem compare_ne {l r : Byte} (h : l ≠ r) : compare l r ≠ 0 := by
  have hne : l.toInt ≠ r.toInt := fun he => h (BitVec.eq_of_toInt_eq he)
  unfold compare
  split_ifs <;> omega

theorem memcmp_first {q lit : Str} (h : deref q ≠ deref lit) (hn : 2 ≤ n) : memcmp q lit n ≠ 0 := by
  obtain ⟨m, rfl⟩ : ∃ m, n = m + 1 := ⟨n - 1, by omega⟩
  rw [memcmp, if_neg h, if_neg (by omega)]
  exact compare_ne h

theorem memcmp_dotdot : memcmp (DOT :: DOT :: rest) [DOT, SEPARATOR1] 2 = 0 := rfl

theorem strsep_none (h : IsName p) : strsep p = none := by
  induction p with
  | nil => rfl
  | cons x p ih =>
    obtain ⟨hz, hx⟩ := h x (by simp)
    rw [strsep, if_neg (by simp [hx]), if_neg hz]
    exact ih fun y hy => h y (by simp [hy])

theorem strsep_append (hc : IsName c) (hx : isSeparator x = true) :
    strsep (c ++ x :: rest) = some (x :: rest) := by
  induction c with
  | nil => simp [strsep, hx]
  | cons y c ih =>
    obtain ⟨hz, hy⟩ := hc y (by simp)
    rw [List.cons_append, strsep, if_neg (by simp [hy]), if_neg hz]
    exact ih fun z h => hc z (by simp [h])

/-- A path is one piece or begins with a piece and its separator. -/
theorem path_cases (hp : EOS ∉ p) : (IsName p ∧ pieces p = [p]) ∨ ∃ c x rest, p = c ++ x :: rest ∧
    IsName c ∧ isSeparator x = true ∧ EOS ∉ rest ∧ pieces p = c :: pieces rest := by
  induction p with
  | nil => exact .inl ⟨by simp [IsName], rfl⟩
  | cons y p ih =>
    have hy : y ≠ EOS := fun hz => hp (by simp [hz])
    have hp' : EOS ∉ p := fun hz => hp (by simp [hz])
    by_cases hsep : isSeparator y = true
    · exact .inr ⟨[], y, p, rfl, by simp [IsName], hsep, hp',
        by simp [pieces, List.splitOnP_cons_eq_if_modifyHead, hsep]⟩
    · have hcons : ∀ {c : Str}, IsName c → IsName (y :: c) := fun hc z hz => by
        rcases List.mem_cons.mp hz with rfl | hz
        · exact ⟨hy, by simpa using hsep⟩
        · exact hc z hz
      rcases ih hp' with ⟨hname, -⟩ | ⟨c, x, rest, rfl, hname, hx, hrest, -⟩
      · exact .inl ⟨hcons hname, List.splitOnP_eq_singleton fun z hz => (hcons hname z hz).2⟩
      · exact .inr ⟨y :: c, x, rest, rfl, hcons hname, hx, hrest,
          List.splitOnP_append_cons_of_forall_mem (fun z hz => (hcons hname z hz).2) x hx rest⟩

theorem pieces_ne_nil (p : Str) : pieces p ≠ [] := List.splitOnP_ne_nil _ _

/-- A component that is no dot name is added. -/
theorem climb_name (h : deref c ≠ DOT) : climb cs c = cs ++ [c] := by
  have h₁ : c ≠ [DOT] := by rintro rfl; exact h rfl
  have h₂ : c ≠ [DOT, DOT] := by rintro rfl; exact h rfl
  rw [climb, if_neg h₁, if_neg h₂]

/-- One turn of the loop. -/
theorem abspathLoop_turn {cur : ℕ} (hc : IsName c) (hx : isSeparator x = true) :
    abspathLoop (n + 1) b cur (c ++ x :: rest) =
      if memcmp (c ++ SEPARATOR1 :: rest) [DOT, SEPARATOR1] 2 = 0 then abspathLoop n b cur rest
      else if memcmp (c ++ SEPARATOR1 :: rest) [DOT, DOT, SEPARATOR1] 3 = 0 then do
        let (pwd, cur) ← parent b cur
        abspathLoop n pwd cur rest
      else abspathLoop n (strncpy b cur (c ++ SEPARATOR1 :: rest) (c.length + 2))
        (cur + (c.length + 1)) rest := by
  have hne : deref (c ++ x :: rest) ≠ EOS := by
    cases c with
    | nil =>
      rintro rfl
      exact absurd hx (by decide)
    | cons y c => exact (hc y (by simp)).1
  have hlen : (c ++ x :: rest).length - (x :: rest).length + 1 = c.length + 1 := by simp
  have hset : (c ++ x :: rest).set (c.length + 1 - 1) SEPARATOR1 = c ++ SEPARATOR1 :: rest := by simp
  have hdrop : (c ++ SEPARATOR1 :: rest).drop (c.length + 1) = rest := by
    simp [List.drop_append]
  rw [abspathLoop, if_neg hne, strsep_append hc hx]
  dsimp only
  rw [hlen, hset, hdrop]

theorem chars_eq (h : EOS ∉ p) : chars p = p := by
  unfold chars
  rw [List.takeWhile_eq_self_iff]
  intro x hx
  have hne : x ≠ EOS := fun hz => h (hz ▸ hx)
  simp [hne]

/-- The copy of a component together with its separator. -/
theorem strncpy_component {cur : ℕ} (hc : IsName c) (hrest : EOS ∉ rest) :
    strncpy b cur (c ++ SEPARATOR1 :: rest) (c.length + 2) =
      b.write cur (c ++ [SEPARATOR1] ++ [EOS]) := by
  have hall : EOS ∉ c ++ SEPARATOR1 :: rest := by
    simp only [List.mem_append, List.mem_cons, not_or]
    exact ⟨fun hz => (hc _ hz).1 rfl, by decide, hrest⟩
  have htake : (c ++ SEPARATOR1 :: rest).take (c.length + 2 - 1) = c ++ [SEPARATOR1] := by
    simp [List.take_append]
  rw [strncpy, chars_eq hall, htake]

theorem pieces_eq_empty (hp : EOS ∉ p) (h : pieces p = [[]]) : p = [] := by
  rcases path_cases hp with ⟨-, he⟩ | ⟨c, x, rest, -, -, -, -, he⟩
  · simpa [he] using h
  · rw [he] at h
    exact absurd (List.cons.inj h).2 (pieces_ne_nil rest)

/-- The memory behind a string is as it was. -/
def Behind (b b' : Bytes) (n : ℕ) : Prop := ∀ i, n < i → b' i = b i

/-- What the loop leaves: the components but the last piece. -/
structure Looped (b : Bytes) (cs : List Str) (p : Str) (b' : Bytes) (cs' : List Str) (last : Str) :
    Prop where
  split : ∃ init, pieces p = init ++ [last] ∧ cs' = init.foldl climb cs
  spells : Spells b' (text cs')
  behind : Behind b b' (text cs').length
  grows : (text cs).length ≤ (text cs').length
  bound : (text cs').length ≤ (text cs).length + p.length
  names : ∀ c ∈ cs', IsName c
  last : IsName last

theorem Looped.cons {b₀ b' : Bytes} {cs' : List Str} {last : Str}
    (h : Looped b (climb cs c) rest b' cs' last) (hp : pieces p = c :: pieces rest)
    (hb : Behind b₀ b (text (climb cs c)).length) (hg : (text cs).length ≤ (text (climb cs c)).length)
    (hl : (text (climb cs c)).length + rest.length ≤ (text cs).length + p.length) :
    Looped b₀ cs p b' cs' last := by
  obtain ⟨init, hi, hcs⟩ := h.split
  exact ⟨⟨c :: init, by rw [hp, hi]; rfl, hcs⟩, h.spells,
    fun i hi => (h.behind i hi).trans (hb i (by have := h.grows; omega)), hg.trans h.grows,
    h.bound.trans hl, h.names, h.last⟩

theorem plain_single : Plain cs [c] := by
  intro before c' after he hne
  have hpos := List.length_pos_iff.mpr hne
  have hlen := congrArg List.length he
  simp at hlen
  omega

theorem Plain.tail (h : Plain cs (c :: l)) : Plain (climb cs c) l := by
  intro before c' after he hne hdot
  exact h (c :: before) c' after (by rw [he]; rfl) hne hdot

/-- The loop of `abspath` over a path in which the dot names do no harm. -/
theorem abspathLoop_spec (hn : p.length ≤ n) (hp : EOS ∉ p) (hs : Spells b (text cs))
    (hcs : ∀ c ∈ cs, IsName c) (hplain : Plain cs (pieces p)) : ∃ b' cs' last,
    abspathLoop n b (text cs).length p = some (b', (text cs').length, last) ∧
      Looped b cs p b' cs' last := by
  induction n generalizing b cs p with
  | zero =>
    obtain rfl : p = [] := by simpa using hn
    exact ⟨b, cs, [], rfl, ⟨[], rfl, rfl⟩, hs, fun _ _ => rfl, le_rfl, by omega, hcs,
      by simp [IsName]⟩
  | succ n ih =>
    rcases path_cases hp with ⟨hname, hpieces⟩ | ⟨c, x, rest, rfl, hname, hx, hrest, hpieces⟩
    · refine ⟨b, cs, p, ?_, ⟨[], hpieces, rfl⟩, hs, fun _ _ => rfl, le_rfl, by omega, hcs, hname⟩
      rw [abspathLoop, strsep_none hname]
      simp
    have hlen : rest.length ≤ n := by simp at hn; omega
    rw [hpieces] at hplain
    rw [abspathLoop_turn hname hx]
    by_cases hdot : deref c = DOT
    · have hskip : climb cs c = cs ∧ memcmp (c ++ SEPARATOR1 :: rest) [DOT, SEPARATOR1] 2 = 0 := by
        rcases hplain [] c (pieces rest) rfl (pieces_ne_nil rest) hdot with ⟨rfl, hlast⟩ | ⟨rfl, hroot⟩
        · obtain rfl := pieces_eq_empty hrest hlast
          exact ⟨rfl, rfl⟩
        · obtain rfl : cs = [] := hroot
          exact ⟨rfl, memcmp_dotdot⟩
      have hplain' : Plain cs (pieces rest) := hskip.1 ▸ hplain.tail
      rw [if_pos hskip.2]
      obtain ⟨b', cs', last, he, hl⟩ := ih hlen hrest hs hcs hplain'
      rw [← hskip.1] at hl
      refine ⟨b', cs', last, he, hl.cons hpieces (fun _ _ => rfl) ?_ ?_⟩
      · rw [hskip.1]
      · rw [hskip.1]
        simp
        omega
    · have hne : ∀ lit : Str, deref lit = DOT → deref (c ++ SEPARATOR1 :: rest) ≠ deref lit := by
        intro lit hl
        rw [hl]
        cases c with
        | nil => exact (by decide : SEPARATOR1 ≠ DOT)
        | cons y c => exact hdot
      have hclimb : climb cs c = cs ++ [c] := climb_name hdot
      have hs' : Spells (b.write (text cs).length (c ++ [SEPARATOR1] ++ [EOS])) (text (climb cs c)) := by
        rw [hclimb, text_append, List.append_assoc (text cs)]
        exact hs.write (c ++ [SEPARATOR1])
      have hcs' : ∀ d ∈ climb cs c, IsName d := by
        rw [hclimb]
        intro d hd
        rcases List.mem_append.mp hd with hd | hd
        · exact hcs d hd
        · obtain rfl := List.mem_singleton.mp hd
          exact hname
      obtain ⟨b', cs', last, he, hl⟩ := ih hlen hrest hs' hcs' hplain.tail
      refine ⟨b', cs', last, ?_, hl.cons hpieces (fun i hi => ?_) ?_ ?_⟩
      · rw [if_neg (memcmp_first (hne _ rfl) le_rfl), if_neg (memcmp_first (hne _ rfl) (by decide)),
          strncpy_component hname hrest, ← he, hclimb, text_length, Nat.add_assoc]
      · rw [hclimb, text_length] at hi
        unfold Bytes.write
        rw [if_neg (by simp; omega)]
      · rw [hclimb, text_length]
        omega
      · rw [hclimb, text_length]
        simp
        omega

/-! ## The whole of `abspath` -/

/-- A component that is not one of the dot names. -/
def Ordinary (c : Str) : Prop := c ≠ [] ∧ c ≠ [DOT] ∧ c ≠ [DOT, DOT]

/-- A path `abspath` gets right from the page `pwd`: no dot names where they do harm, and
behind a new path that ends in a name the page holds 0. -/
def Tame (pwd : Bytes) (cs : List Str) (path : Str) : Prop :=
  Plain (origin cs path) (pieces (relative path)) ∧
    ((∃ c, (pieces (relative path)).getLast? = some c ∧ Ordinary c) →
      pwd (text (resolve cs path)).length = EOS)

theorem text_noEOS (h : ∀ c ∈ cs, IsName c) : EOS ∉ text cs := by
  intro hz
  rcases List.mem_cons.mp hz with hz | hz
  · exact absurd hz (by decide)
  obtain ⟨c, hc, hz⟩ := List.mem_flatMap.mp hz
  rcases List.mem_append.mp hz with hz | hz
  · exact (h c hc _ hz).1 rfl
  · exact absurd (List.mem_singleton.mp hz) (by decide)

theorem text_pos (cs : List Str) : 0 < (text cs).length := Nat.succ_pos _

/-- A canonical path ends in a separator. -/
theorem text_eq (cs : List Str) : ∃ pre, text cs = pre ++ [SEPARATOR1] := by
  rcases List.eq_nil_or_concat' cs with rfl | ⟨cs, c, rfl⟩
  · exact ⟨[], rfl⟩
  · exact ⟨text cs ++ c, text_append⟩

/-- `strrsep(pwd) + 1`. -/
theorem afterLast_text (h : ∀ c ∈ cs, IsName c) (hs : Spells b (text cs))
    (hn : (text cs).length < n) : afterLast b n 0 none = some (text cs).length := by
  obtain ⟨pre, hpre⟩ := text_eq cs
  have hz : EOS ∉ pre := fun hz => text_noEOS h (by simp [hpre, hz])
  rw [hpre] at hs hn ⊢
  simpa using afterLast_eq hz (by simp [IsName] : IsName []) hs hn

/-- The parent of a directory. -/
theorem parent_eq (h : ∀ c ∈ cs, IsName c) (hs : Spells b (text cs))
    (hn : (text cs).length < PAGE_SIZE) : ∃ b',
      parent b (text cs).length = some (b', (text cs.dropLast).length) ∧ Spells b' (text cs.dropLast) := by
  rcases List.eq_nil_or_concat' cs with rfl | ⟨cs, c, rfl⟩
  · exact ⟨b, by simp [parent, text], hs⟩
  obtain ⟨pre, hpre⟩ := text_eq cs
  have hcs : ∀ d ∈ cs, IsName d := fun d hd => h d (by simp [hd])
  have hz : EOS ∉ pre := fun hz => text_noEOS hcs (by simp [hpre, hz])
  have hcut : Spells (update b (text cs ++ c).length EOS) (text cs ++ c) := by
    rw [text_append] at hs
    exact hs.cut
  have hlast : afterLast (update b (text cs ++ c).length EOS) PAGE_SIZE 0 none =
      some (text cs).length := by
    have hlt : (text cs ++ c).length < PAGE_SIZE := by
      rw [text_length] at hn
      rw [List.length_append]
      omega
    rw [hpre, List.append_assoc] at hcut hlt ⊢
    simpa using afterLast_eq hz (h c (by simp)) hcut hlt
  have hne : (text (cs ++ [c])).length ≠ 1 := by
    have := text_pos cs
    rw [text_length]
    omega
  have hpos : (text (cs ++ [c])).length - 1 = (text cs ++ c).length := by
    rw [text_length, List.length_append]
    omega
  rw [List.dropLast_concat]
  refine ⟨update (update b (text cs ++ c).length EOS) (text cs).length EOS, ?_, hcut.cut⟩
  unfold parent
  rw [if_pos hne, hpos]
  dsimp only
  rw [hlast]
  rfl

theorem resolve_eq {init : List Str} {last : Str} (h : pieces (relative path) = init ++ [last]) :
    resolve cs path = if last = [] then init.foldl climb (origin cs path)
      else climb (init.foldl climb (origin cs path)) last := by
  unfold resolve components
  rw [h, List.getLast?_concat]
  by_cases hl : last = []
  · simp [hl]
  · simp [hl]

/-- The place from which `abspath` goes on. -/
theorem abspath_origin (path : Str) (h : ∀ c ∈ cs, IsName c) (hs : Spells b (text cs))
    (hn : (text cs).length < PAGE_SIZE) :
    (if isSeparator (deref path) then some 1 else afterLast b PAGE_SIZE 0 none) =
      some (text (origin cs path)).length ∧
    Spells (update b (text (origin cs path)).length EOS) (text (origin cs path)) ∧
    (text (origin cs path)).length ≤ (text cs).length := by
  unfold origin
  split_ifs with habs
  · have hcut : Spells b (text [] ++ cs.flatMap (· ++ [SEPARATOR1])) := hs
    exact ⟨rfl, hcut.cut, text_pos cs⟩
  · have hcut : Spells b (text cs ++ []) := by simpa using hs
    exact ⟨afterLast_text h hs hn, hcut.cut, le_rfl⟩

theorem deref_name (h : IsName c) : deref c = EOS ↔ c = [] := by
  cases c with
  | nil => exact ⟨fun _ => rfl, fun _ => rfl⟩
  | cons x c => exact ⟨fun hx => absurd hx (h x (by simp)).1, fun hx => by cases hx⟩

/-- What `abspath` does behind its loop. -/
def abspathEnd (pwd : Bytes) (cur : ℕ) (pathname : Str) : Option Bytes :=
  if deref pathname = EOS then some pwd
  else if chars pathname = [DOT] then some pwd
  else if chars pathname ≠ [DOT, DOT] then
    some (update (strcpy pwd cur pathname) (cur + (chars pathname).length) SEPARATOR1)
  else (parent pwd cur).map Prod.fst

theorem abspath_of {cur cur' : ℕ} {b' : Bytes}
    (hcur : (if isSeparator (deref path) then some 1 else afterLast b PAGE_SIZE 0 none) = some cur)
    (hloop : abspathLoop (relative path).length (update b cur EOS) cur (relative path) =
      some (b', cur', rest)) : abspath b path = abspathEnd b' cur' rest := by
  have hmap : (parent b' cur').map Prod.fst = (parent b' cur').bind fun r => some r.1 :=
    Option.map_eq_bind
  unfold relative at hloop
  unfold abspath abspathEnd
  rw [hmap]
  by_cases h : isSeparator (deref path) = true
  · obtain rfl : cur = 1 := by simpa [h] using hcur.symm
    simp only [h, if_true, Option.bind_eq_bind, Option.bind_some] at hloop ⊢
    rw [hloop]
    rfl
  · rw [if_neg h] at hcur
    simp only [h, if_false, Bool.false_eq_true, hcur, Option.bind_eq_bind, Option.bind_some] at hloop ⊢
    rw [hloop]
    rfl

/-- `abspath` of a tame path leaves the canonical path of the directory it leads to. -/
theorem abspath_spec (hp : EOS ∉ path) (hcs : ∀ c ∈ cs, IsName c) (hs : Spells b (text cs))
    (hlen : (text cs).length + path.length < PAGE_SIZE) (ht : Tame b cs path) : ∃ b',
    abspath b path = some b' ∧ Spells b' (text (resolve cs path)) ∧ ∀ c ∈ resolve cs path, IsName c := by
  obtain ⟨hplain, hzero⟩ := ht
  have hshort : (text cs).length < PAGE_SIZE := by omega
  obtain ⟨hcur, hs₁, hle⟩ := abspath_origin path hcs hs hshort
  have hrel : EOS ∉ relative path ∧ (relative path).length ≤ path.length := by
    unfold relative
    split_ifs
    · exact ⟨fun hz => hp (List.mem_of_mem_tail hz), by simp⟩
    · exact ⟨hp, le_rfl⟩
  have horigin : ∀ c ∈ origin cs path, IsName c := by
    unfold origin
    split_ifs
    · simp
    · exact hcs
  obtain ⟨b₂, cs₂, last, hloop, hl⟩ := abspathLoop_spec le_rfl hrel.1 hs₁ horigin hplain
  obtain ⟨init, hsplit, rfl⟩ := hl.split
  have hzlast : EOS ∉ last := fun hz => (hl.last _ hz).1 rfl
  rw [resolve_eq hsplit] at hzero ⊢
  rw [abspath_of hcur hloop]
  unfold abspathEnd
  simp only [deref_name hl.last, chars_eq hzlast]
  by_cases h0 : last = []
  · rw [if_pos h0, if_pos h0]
    exact ⟨b₂, rfl, hl.spells, hl.names⟩
  rw [if_neg h0, if_neg h0]
  rw [if_neg h0] at hzero
  by_cases h1 : last = [DOT]
  · rw [if_pos h1, climb, if_pos h1]
    exact ⟨b₂, rfl, hl.spells, hl.names⟩
  rw [if_neg h1, climb, if_neg h1]
  rw [climb, if_neg h1] at hzero
  by_cases h2 : last = [DOT, DOT]
  · rw [if_neg (not_not.mpr h2), if_pos h2]
    obtain ⟨b₃, hb₃, hs₃⟩ := parent_eq hl.names hl.spells (by have := hl.bound; omega)
    exact ⟨b₃, by rw [hb₃]; rfl, hs₃, fun c hc => hl.names c (List.mem_of_mem_dropLast hc)⟩
  · rw [if_pos h2, if_neg h2]
    rw [if_neg h2, hsplit] at hzero
    refine ⟨_, rfl, ?_, fun c hc => ?_⟩
    · have hlast : ∃ c, (init ++ [last]).getLast? = some c ∧ Ordinary c :=
        ⟨last, List.getLast?_concat, h0, h1, h2⟩
      have hwrite := hl.spells.write last
      have hend : b₂ ((text (init.foldl climb (origin cs path))).length + last.length + 1) = EOS := by
        have hg := hl.grows
        rw [hl.behind _ (by omega), update_of_ne (by omega), ← text_length]
        exact hzero hlast
      rw [text_append, ← List.length_append]
      unfold strcpy
      rw [chars_eq hzlast]
      refine hwrite.snoc ?_ SEPARATOR1
      rw [List.length_append]
      unfold Bytes.write
      rw [if_neg (by simp only [List.length_append, List.length_singleton]; omega), hend]
    · rcases List.mem_append.mp hc with hc | hc
      · exact hl.names c hc
      · obtain rfl := List.mem_singleton.mp hc
        exact hl.last

end Onix.Cstr
