import Onix.Spec.Path

/-! `match_name` against the string that stands where the name of an entry begins. -/

namespace Onix.Cstr

open Function Bytes

variable {q w r lhs : Str} {d d' : Bytes} {a n : ℕ} {c : Byte}

section Strings

theorem chars_cons (h : c ≠ EOS) : chars (c :: q) = c :: chars q :=
  List.takeWhile_cons_of_pos (by simpa using h)

theorem chars_eos : chars (EOS :: q) = [] := rfl

theorem eos_notMem_chars : EOS ∉ chars q := by
  intro h
  have := List.mem_takeWhile_imp h
  simp at this

theorem read_succ : d.read a (n + 1) = d a :: d.read (a + 1) n := by
  unfold Bytes.read
  rw [List.range'_succ, List.map_cons]

theorem length_readAt : (d.read a n).length = n := by
  unfold Bytes.read
  rw [List.length_map, List.length_range']

theorem read_add (m : ℕ) : d.read a (n + m) = d.read a n ++ d.read (a + n) m := by
  unfold Bytes.read
  rw [← List.map_append, List.range'_append_1]

theorem read_congr (h : ∀ x < n, d' (a + x) = d (a + x)) : d'.read a n = d.read a n := by
  unfold Bytes.read
  apply List.map_congr_left
  intro x hx
  obtain ⟨hle, hlt⟩ := List.mem_range'_1.mp hx
  have hget := h (x - a) (by omega)
  rw [Nat.add_sub_cancel' hle] at hget
  exact hget

theorem read_write : (d.write a w).read a w.length = w := by
  apply List.ext_getElem length_readAt
  intro x h hx
  have hget : ((d.write a w).read a w.length)[x] = d.write a w (a + x) := by simp [Bytes.read]
  rw [hget]
  unfold Bytes.write
  rw [if_pos (by omega), Nat.add_sub_cancel_left, List.getD_eq_getElem _ _ hx]

theorem read_write_left : (d.write a (w ++ r)).read a w.length = w := by
  have hall : (d.write a (w ++ r)).read a (w ++ r).length = w ++ r := read_write
  rw [List.length_append, read_add] at hall
  exact (List.append_inj hall length_readAt).1

theorem write_last : d.write a (w ++ [c]) (a + w.length) = c := by
  unfold Bytes.write
  rw [List.length_append, List.length_singleton, if_pos (by omega), Nat.add_sub_cancel_left,
    List.getD_append_right _ _ _ _ (Nat.le_refl _), Nat.sub_self]
  rfl

/-- Where `w` stands at `a`, `match_name` gets past it. -/
theorem matchName_append (hw : EOS ∉ w) (h : d.read a w.length = w) :
    matchName (w ++ r) d a = matchName r d (a + w.length) := by
  induction w generalizing a with
  | nil => rfl
  | cons c w ih =>
    rw [List.length_cons, read_succ] at h
    obtain ⟨hc, hrest⟩ := List.cons.inj h
    have hne : c ≠ EOS := fun h0 => hw (List.mem_cons.mpr (.inl h0.symm))
    rw [List.cons_append, matchName, if_pos ⟨hc.symm, hne⟩,
      ih (fun hmem => hw (List.mem_cons_of_mem c hmem)) hrest, List.length_cons]
    congr 1
    omega

/-- A path that goes another way than `w` does not match where `w` stands. -/
theorem matchName_apart (hw : EOS ∉ w) (h : d.read a w.length = w) (hpre : ¬ w <+: chars q) :
    matchName q d a = none := by
  induction w generalizing a q with
  | nil => exact absurd List.nil_prefix hpre
  | cons b w ih =>
    rw [List.length_cons, read_succ] at h
    obtain ⟨hb, hrest⟩ := List.cons.inj h
    have hne : d a ≠ EOS := by
      rw [hb]
      exact fun h0 => hw (List.mem_cons.mpr (.inl h0.symm))
    cases q with
    | nil =>
      unfold matchName
      exact if_pos hne
    | cons c q =>
      unfold matchName
      split_ifs with hc
      · apply ih (fun hmem => hw (List.mem_cons_of_mem b hmem)) hrest
        intro hp
        apply hpre
        rw [chars_cons hc.2, hc.1, hb]
        exact List.cons_prefix_cons.mpr ⟨rfl, hp⟩
      · rfl

/-- The first component ends here. -/
def stops (q : Str) : Bool := deref q == EOS || isSeparator (deref q)

theorem matchName_eos (h : d a = EOS) : (matchName q d a).isSome = stops q := by
  cases q with
  | nil =>
    unfold matchName
    rw [if_neg (by simpa using h)]
    rfl
  | cons c q =>
    unfold matchName stops deref
    rw [if_neg (by rw [h]; exact fun hc => hc.2 hc.1), if_neg (by simpa using h)]
    cases hs : isSeparator c with
    | true => simp
    | false =>
      by_cases h0 : c = EOS <;> simp [h0]

theorem matchName_differs (h : d a ≠ EOS) (hne : d a ≠ deref q) : matchName q d a = none := by
  cases q with
  | nil =>
    unfold matchName
    exact if_pos h
  | cons c q =>
    unfold matchName
    rw [if_neg (fun hc => hne hc.1.symm), if_pos h]

theorem chars_append_drop (q : Str) : chars q ++ q.drop (chars q).length = q := by
  induction q with
  | nil => rfl
  | cons c q ih =>
    by_cases h : c = EOS
    · subst h
      rfl
    · rw [chars_cons h]
      exact congrArg (c :: ·) ih

theorem deref_drop_chars (q : Str) : deref (q.drop (chars q).length) = EOS := by
  induction q with
  | nil => rfl
  | cons c q ih =>
    by_cases h : c = EOS
    · subst h
      rfl
    · rw [chars_cons h]
      exact ih

/-- A name without separators matches where it stands and ends. -/
theorem matchName_name (hsep : ∀ c ∈ chars q, isSeparator c = false) :
    (matchName q d a).isSome ↔
      d.read a (chars q).length = chars q ∧ d (a + (chars q).length) = EOS := by
  induction q generalizing a with
  | nil =>
    change (matchName [] d a).isSome ↔ d.read a 0 = [] ∧ d (a + 0) = EOS
    unfold matchName
    by_cases h : d a = EOS <;> simp [h, Bytes.read]
  | cons c q ih =>
    by_cases h0 : c = EOS
    · subst h0
      rw [chars_eos]
      by_cases h : d a = EOS
      · rw [matchName_eos h]
        simpa [stops, deref, Bytes.read] using h
      · have hnone : matchName (EOS :: q) d a = none := matchName_differs h h
        rw [hnone]
        simp [h]
    rw [chars_cons h0] at hsep ⊢
    rw [List.length_cons, read_succ, List.cons.injEq, and_assoc]
    have hrest : ∀ x ∈ chars q, isSeparator x = false := fun x hx => hsep x (List.mem_cons_of_mem c hx)
    by_cases hc : c = d a
    · rw [matchName, if_pos ⟨hc, h0⟩, ih hrest, Nat.add_right_comm a 1, Nat.add_assoc]
      simp [hc]
    · have hnot : ¬ d a = c := fun h => hc h.symm
      by_cases h : d a = EOS
      · rw [matchName_eos h]
        have hstop : stops (c :: q) = false := by
          unfold stops deref
          rw [hsep c List.mem_cons_self]
          simpa using h0
        simp [hstop, hnot]
      · have hnone : matchName (c :: q) d a = none := matchName_differs h hnot
        rw [hnone]
        simp [hnot]

/-- At the end of both, what is left of the path is left. -/
theorem matchName_end (h : d a = EOS) (hr : deref r = EOS) : matchName r d a = some r := by
  cases r with
  | nil =>
    unfold matchName
    exact if_neg (by simpa using h)
  | cons c r =>
    obtain rfl : c = EOS := hr
    unfold matchName
    rw [if_neg (fun hc => hc.2 rfl), if_neg (by simpa using h), if_neg (by decide), if_neg (by simp)]

/-- What a match of a name leaves for the next component. -/
theorem matchName_next {next : Str} (hsep : ∀ c ∈ chars q, isSeparator c = false)
    (h : matchName q d a = some next) : next = q.drop (chars q).length := by
  obtain ⟨hread, hend⟩ := (matchName_name hsep).mp (Option.isSome_of_mem h)
  have hall : matchName (chars q ++ q.drop (chars q).length) d a =
      some (q.drop (chars q).length) := by
    rw [matchName_append eos_notMem_chars hread]
    exact matchName_end hend (deref_drop_chars q)
  rw [chars_append_drop] at hall
  exact Option.some.inj (h.symm.trans hall)

/-- A path matches where its own characters stand, with a terminator. -/
theorem matchName_self : (matchName r (d.write a (chars r ++ [EOS])) a).isSome = true := by
  have hall : matchName (chars r ++ r.drop (chars r).length) (d.write a (chars r ++ [EOS])) a =
      some (r.drop (chars r).length) := by
    rw [matchName_append eos_notMem_chars read_write_left]
    exact matchName_end write_last (deref_drop_chars r)
  rw [chars_append_drop] at hall
  rw [hall]
  rfl

end Strings

section Field

/-- The first component of a path. -/
def component (lhs : Str) : Str := (chars lhs).takeWhile fun c => !isSeparator c

/-- The name in the `NAME_LEN` bytes of the field at `a`. -/
def fieldName (d : Bytes) (a : ℕ) : Str := chars (d.read a NAME_LEN)

/-- The path begins with the name in the field, which takes all of it, or has a separator
in it and is followed by the end of a component. -/
def RunsOn (lhs : Str) (d : Bytes) (a : ℕ) : Prop :=
  fieldName d a <+: chars lhs ∧ ((fieldName d a).length = NAME_LEN ∨
    (∃ c ∈ fieldName d a, isSeparator c = true) ∧ stops (lhs.drop (fieldName d a).length) = true)

/-- The name in a field stands there, and ends where there is room for a terminator. -/
theorem fieldName_spec (d : Bytes) (a : ℕ) : (fieldName d a).length ≤ NAME_LEN ∧
    d.read a (fieldName d a).length = fieldName d a ∧
    ((fieldName d a).length < NAME_LEN → d (a + (fieldName d a).length) = EOS) := by
  obtain ⟨rest, hrest⟩ : fieldName d a <+: d.read a NAME_LEN := List.takeWhile_prefix _
  have hlen : (fieldName d a).length ≤ NAME_LEN := by
    have := congrArg List.length hrest
    rw [List.length_append, length_readAt] at this
    omega
  have hsplit := read_add (d := d) (a := a) (n := (fieldName d a).length)
    (NAME_LEN - (fieldName d a).length)
  rw [Nat.add_sub_cancel' hlen, ← hrest] at hsplit
  obtain ⟨hread, hafter⟩ := List.append_inj hsplit length_readAt.symm
  refine ⟨hlen, hread.symm, fun hlt => ?_⟩
  have hderef : deref ((d.read a NAME_LEN).drop (fieldName d a).length) = EOS := deref_drop_chars _
  rw [← hrest, List.drop_left, hafter] at hderef
  obtain ⟨m, hm⟩ := Nat.exists_eq_succ_of_ne_zero (Nat.sub_ne_zero_of_lt hlt)
  rw [hm, read_succ] at hderef
  exact hderef

theorem component_eq_iff (hw : w <+: chars lhs) : component lhs = w ↔
    (∀ c ∈ w, isSeparator c = false) ∧ stops (lhs.drop w.length) = true := by
  obtain ⟨rest, hrest⟩ := hw
  have hdrop : lhs.drop w.length = rest ++ lhs.drop (chars lhs).length := by
    conv_lhs => rw [← chars_append_drop lhs, ← hrest, List.append_assoc, List.drop_left]
    rw [hrest]
  have hhead : stops (lhs.drop w.length) = true ↔ ∀ c ∈ rest.head?, isSeparator c = true := by
    rw [hdrop]
    cases hr : rest with
    | nil =>
      have := deref_drop_chars lhs
      simp [stops, this]
    | cons c rest' =>
      have hne : c ≠ EOS := by
        intro h0
        refine eos_notMem_chars (q := lhs) ?_
        rw [← hrest, hr, h0]
        exact List.mem_append_right _ List.mem_cons_self
      simp [stops, deref, hne]
  rw [hhead]
  unfold component
  rw [← hrest]
  constructor
  · intro h
    have hall : ∀ c ∈ w, isSeparator c = false := by
      intro c hc
      rw [← h] at hc
      simpa using List.mem_takeWhile_imp hc
    refine ⟨hall, fun c hc => ?_⟩
    rw [List.takeWhile_append_of_pos (by simpa using hall)] at h
    cases rest with
    | nil => cases hc
    | cons b rest =>
      obtain rfl := Option.some.inj hc
      by_contra hsep
      rw [List.takeWhile_cons_of_pos (by simpa using hsep)] at h
      simpa using congrArg List.length h
  · intro h
    rw [List.takeWhile_append_of_pos (by simpa using h.1)]
    cases rest with
    | nil => simp
    | cons b rest =>
      rw [List.takeWhile_cons_of_neg (by simpa using h.2 b rfl), List.append_nil]

/-- `match_name` looks at the field and the first component, and nothing else, but where the
path runs on behind the field or over a separator in it. -/
theorem matchName_field : (∀ d', (∀ x < NAME_LEN, d' (a + x) = d (a + x)) →
    ((matchName lhs d' a).isSome ↔ component lhs = fieldName d a)) ↔ ¬ RunsOn lhs d a := by
  obtain ⟨hlen, hread, hend⟩ := fieldName_spec d a
  have heos : EOS ∉ fieldName d a := eos_notMem_chars
  unfold RunsOn
  generalize fieldName d a = f at *
  by_cases hpre : f <+: chars lhs
  swap
  · refine ⟨fun _ h => hpre h.1, fun _ d' hd' => ?_⟩
    have hread' : d'.read a f.length = f :=
      (read_congr fun x hx => hd' x (by omega)).trans hread
    rw [matchName_apart heos hread' hpre]
    simp only [Option.isSome_none, Bool.false_eq_true, false_iff]
    intro h
    apply hpre
    rw [← h]
    exact List.takeWhile_prefix _
  obtain ⟨rest, hrest⟩ := hpre
  have hlhs : f ++ lhs.drop f.length = lhs := by
    conv_lhs => rw [← chars_append_drop lhs, ← hrest, List.append_assoc, List.drop_left]
    conv_rhs => rw [← chars_append_drop lhs, ← hrest, List.append_assoc]
  have hwalk : ∀ d', (∀ x < NAME_LEN, d' (a + x) = d (a + x)) →
      matchName lhs d' a = matchName (lhs.drop f.length) d' (a + f.length) := by
    intro d' hd'
    conv_lhs => rw [← hlhs]
    exact matchName_append heos ((read_congr fun x hx => hd' x (by omega)).trans hread)
  rw [component_eq_iff ⟨rest, hrest⟩]
  obtain hlt | hfull := Nat.lt_or_ge f.length NAME_LEN
  · -- there is a terminator in the field
    have hstop : ∀ d', (∀ x < NAME_LEN, d' (a + x) = d (a + x)) →
        (matchName lhs d' a).isSome = stops (lhs.drop f.length) := by
      intro d' hd'
      rw [hwalk d' hd']
      exact matchName_eos ((hd' f.length hlt).trans (hend hlt))
    constructor
    · intro h hbad
      obtain ⟨-, hfull | ⟨⟨c, hc, hsep⟩, hs⟩⟩ := hbad
      · omega
      · obtain ⟨hno, -⟩ := (h d fun _ _ => rfl).mp (by rw [hstop d fun _ _ => rfl]; exact hs)
        rw [hno c hc] at hsep
        cases hsep
    · intro h d' hd'
      rw [hstop d' hd']
      refine ⟨fun hs => ⟨fun c hc => ?_, hs⟩, fun hs => hs.2⟩
      by_contra hsep
      exact h ⟨⟨rest, hrest⟩, .inr ⟨⟨c, hc, by simpa using hsep⟩, hs⟩⟩
  · -- the bytes behind the field decide
    have hfull : f.length = NAME_LEN := by omega
    refine ⟨fun h _ => ?_, fun h => absurd ⟨⟨rest, hrest⟩, .inl hfull⟩ h⟩
    have hwrite : ∀ bytes : List Byte, ∀ x < NAME_LEN, d.write (a + NAME_LEN) bytes (a + x) = d (a + x) := by
      intro bytes x hx
      unfold Bytes.write
      rw [if_neg (by omega)]
    by_cases hcomp : (∀ c ∈ f, isSeparator c = false) ∧ stops (lhs.drop f.length) = true
    · -- another byte that the path does not go on with
      obtain ⟨b, hb, hb'⟩ : ∃ b : Byte, b ≠ EOS ∧ b ≠ deref (lhs.drop f.length) := by
        by_cases h1 : deref (lhs.drop f.length) = 1
        · exact ⟨2, by decide, by rw [h1]; decide⟩
        · exact ⟨1, by decide, fun h => h1 h.symm⟩
      have hat : d.write (a + NAME_LEN) [b] (a + f.length) = b := by
        rw [hfull]
        simp [Bytes.write]
      have hsome := (h _ (hwrite [b])).mpr hcomp
      rw [hwalk _ (hwrite [b]), matchName_differs (by rw [hat]; exact hb) (by rw [hat]; exact hb')] at hsome
      cases hsome
    · -- the rest of the path itself
      apply hcomp
      apply (h _ (hwrite (chars (lhs.drop f.length) ++ [EOS]))).mp
      rw [hwalk _ (hwrite _), hfull]
      exact matchName_self

end Field

section Written

variable {x bytes : Str} {b : ℕ}

theorem matchName_congr (h : ∀ y, a ≤ y → d' y = d y) : matchName q d' a = matchName q d a := by
  induction q generalizing a with
  | nil =>
    unfold matchName
    rw [h a (Nat.le_refl a)]
  | cons c q ih =>
    unfold matchName
    rw [h a (Nat.le_refl a), ih fun y hy => h y (by omega)]

theorem component_eq_chars (hsep : ∀ c ∈ chars q, isSeparator c = false) : component q = chars q :=
  List.takeWhile_eq_self_iff.mpr (by simpa using hsep)

/-- A name matches where a string stands if it is this string. -/
theorem matchName_stands (hsep : ∀ c ∈ chars q, isSeparator c = false) (hx : EOS ∉ x)
    (hread : d.read a x.length = x) (hend : d (a + x.length) = EOS) :
    (matchName q d a).isSome ↔ chars q = x := by
  rw [← component_eq_chars hsep]
  by_cases hpre : x <+: chars q
  · obtain ⟨rest, hrest⟩ := hpre
    have hq : x ++ q.drop x.length = q := by
      conv_lhs => rw [← chars_append_drop q, ← hrest, List.append_assoc, List.drop_left]
      conv_rhs => rw [← chars_append_drop q, ← hrest, List.append_assoc]
    have hwalk : matchName q d a = matchName (q.drop x.length) d (a + x.length) := by
      conv_lhs => rw [← hq]
      exact matchName_append hx hread
    rw [hwalk, matchName_eos hend, component_eq_iff ⟨rest, hrest⟩]
    refine ⟨fun h => ⟨fun c hc => hsep c ?_, h⟩, fun h => h.2⟩
    rw [← hrest]
    exact List.mem_append_left _ hc
  · rw [matchName_apart hx hread hpre, component_eq_chars hsep]
    simp only [Option.isSome_none, Bool.false_eq_true, false_iff]
    intro h
    exact hpre (by rw [h])

/-- The string that stands where bytes with a terminator have been written. -/
theorem matchName_written (hsep : ∀ c ∈ chars q, isSeparator c = false) (hbytes : EOS ∈ bytes) :
    (matchName q (d.write b bytes) b).isSome ↔ chars q = chars bytes := by
  obtain ⟨rest, hrest⟩ : ∃ rest, bytes = chars bytes ++ EOS :: rest := by
    refine ⟨(bytes.drop (chars bytes).length).tail, ?_⟩
    have hsplit := chars_append_drop bytes
    have hderef := deref_drop_chars bytes
    revert hsplit hderef
    generalize bytes.drop (chars bytes).length = r
    intro hsplit hderef
    cases r with
    | nil =>
      rw [List.append_nil] at hsplit
      rw [← hsplit] at hbytes
      exact absurd hbytes eos_notMem_chars
    | cons c r =>
      obtain rfl : c = EOS := hderef
      exact hsplit.symm
  apply matchName_stands hsep eos_notMem_chars
  · have hread : (d.write b (chars bytes ++ EOS :: rest)).read b (chars bytes).length = chars bytes :=
      read_write_left
    rw [← hrest] at hread
    exact hread
  · have hsplit : chars bytes ++ [EOS] ++ rest = bytes := by
      rw [List.append_assoc]
      exact hrest.symm
    have hread : (d.write b (chars bytes ++ [EOS] ++ rest)).read b (chars bytes ++ [EOS]).length =
        chars bytes ++ [EOS] := read_write_left
    rw [hsplit] at hread
    rw [List.length_append, List.length_singleton, read_add] at hread
    exact (List.cons.inj (List.append_inj hread length_readAt).2).1

/-- What a write at `b` does to the match of a name at `a`, `n` bytes before: something only
where the name runs over all these bytes. -/
theorem matchName_before (hsep : ∀ c ∈ chars q, isSeparator c = false) (hbytes : EOS ∈ bytes)
    (hab : a + n = b) :
    ¬ ((matchName q d a).isSome ↔ (matchName q (d.write b bytes) a).isSome) ↔
      d.read a n = (chars q).take n ∧
        ¬ ((matchName (q.drop n) d b).isSome ↔ (chars q).drop n = chars bytes) := by
  have hlow : ∀ y < b, d.write b bytes y = d y := by
    intro y hy
    unfold Bytes.write
    rw [if_neg (by omega)]
  have hread : ∀ l ≤ n, (d.write b bytes).read a l = d.read a l :=
    fun l hl => read_congr fun y hy => hlow _ (by omega)
  by_cases hrun : d.read a n = (chars q).take n
  · have hlen : n ≤ (chars q).length := by
      have := congrArg List.length hrun
      rw [length_readAt, List.length_take] at this
      omega
    have htake : ((chars q).take n).length = n := List.length_take_of_le hlen
    have hq : (chars q).take n ++ q.drop n = q := by
      have hdrop : q.drop n = (chars q).drop n ++ q.drop (chars q).length := by
        conv_lhs => rw [← chars_append_drop q, List.drop_append_of_le_length hlen]
      rw [hdrop, ← List.append_assoc, List.take_append_drop, chars_append_drop]
    have heos : EOS ∉ (chars q).take n := fun h => eos_notMem_chars (List.mem_of_mem_take h)
    have hchars : chars (q.drop n) = (chars q).drop n := by
      have hsame : chars q = (chars q).take n ++ chars (q.drop n) := by
        conv_lhs => rw [← hq]
        exact List.takeWhile_append_of_pos (by
          intro c hc
          have hne : c ≠ EOS := fun h => heos (h ▸ hc)
          simpa using hne)
      conv_rhs => rw [hsame]
      exact (List.drop_left' htake).symm
    have hsep' : ∀ c ∈ chars (q.drop n), isSeparator c = false := by
      rw [hchars]
      exact fun c hc => hsep c (List.mem_of_mem_drop hc)
    have hold : matchName q d a = matchName (q.drop n) d b := by
      conv_lhs => rw [← hq]
      rw [matchName_append heos (by rw [htake]; exact hrun), htake, hab]
    have hnew : matchName q (d.write b bytes) a = matchName (q.drop n) (d.write b bytes) b := by
      conv_lhs => rw [← hq]
      rw [matchName_append heos (by rw [htake, hread n (Nat.le_refl n)]; exact hrun), htake, hab]
    rw [hold, hnew, matchName_written hsep' hbytes, hchars]
    exact ⟨fun h => ⟨hrun, h⟩, fun h => h.2⟩
  · refine ⟨fun h => absurd ?_ h, fun h => absurd h.1 hrun⟩
    rw [matchName_name hsep, matchName_name hsep]
    obtain hlen | hlen := Nat.lt_or_ge (chars q).length n
    · rw [hread _ (Nat.le_of_lt hlen), hlow _ (by omega)]
    · -- neither reads the name up to `b`
      have hnot : ∀ d₁ : Bytes, d₁.read a n = d.read a n → ¬ d₁.read a (chars q).length = chars q := by
        intro d₁ hd₁ hall
        apply hrun
        have hsplit := read_add (d := d₁) (a := a) (n := n) ((chars q).length - n)
        rw [Nat.add_sub_cancel' hlen, hall] at hsplit
        rw [hsplit, List.take_left' length_readAt, hd₁]
      exact ⟨fun h => absurd h.1 (hnot d rfl), fun h => absurd h.1 (hnot _ (hread n (Nat.le_refl n)))⟩

end Written

end Onix.Cstr
