import Onix.Sanity.ReadlineTurn

/-! `cmd_parse` run by run: where it stands in the line, and what it has done so far. -/

namespace Onix.Osh

open Function
open Cstr (EOS read_add read_succ read_congr length_readAt)

variable {line xs : Str} {m : Bytes} {cmd a i j k n p q turns : ℕ} {argv : ℕ → ℕ} {s : Parse}

section Lists

theorem takeWhile_spec (f : Byte → Bool) (d : Byte) (xs : List Byte) :
    (xs.takeWhile f).length ≤ xs.length ∧ (∀ i < (xs.takeWhile f).length, f (xs.getD i d) = true) ∧
      ((xs.takeWhile f).length < xs.length → f (xs.getD (xs.takeWhile f).length d) = false) := by
  induction xs with
  | nil => simp
  | cons x xs ih =>
    obtain ⟨hle, hall, hend⟩ := ih
    cases hx : f x with
    | false => simp [hx]
    | true =>
      rw [List.takeWhile_cons, hx, if_pos rfl, List.length_cons, List.length_cons]
      refine ⟨Nat.succ_le_succ hle, ?_, fun hlt => hend (Nat.lt_of_succ_lt_succ hlt)⟩
      intro i hi
      cases i with
      | zero => exact hx
      | succ i => exact hall i (Nat.lt_of_succ_lt_succ hi)

/-- `skip` goes over the characters that it is to skip. -/
theorem skip_takeWhile (f : Byte → Bool) (hf : f EOS = false)
    (h : m.read a (xs.length + 1) = xs ++ [EOS]) (hn : xs.length < n) :
    skip m f n a = some (a + (xs.takeWhile f).length) := by
  induction xs generalizing a n with
  | nil =>
    obtain ⟨n, rfl⟩ := Nat.exists_eq_succ_of_ne_zero (Nat.ne_of_gt hn)
    obtain ⟨ha, -⟩ := List.cons.inj h
    rw [skip, ha, hf]
    rfl
  | cons x xs ih =>
    obtain ⟨n, rfl⟩ := Nat.exists_eq_succ_of_ne_zero (Nat.ne_of_gt (Nat.zero_lt_of_lt hn))
    rw [List.length_cons, read_succ, List.cons_append] at h
    obtain ⟨ha, htail⟩ := List.cons.inj h
    rw [skip, ha, List.takeWhile_cons]
    cases hx : f x with
    | false => rfl
    | true =>
      rw [if_pos rfl, if_pos rfl, ih htail (Nat.lt_of_succ_lt_succ hn), List.length_cons,
        Nat.add_right_comm, Nat.add_assoc]

end Lists

section Runs

/-- The runs from `p` on. -/
def runsFrom (line : Str) (p : ℕ) : List ℕ :=
  (List.range' p (line.length - p)).filter fun i => RunAt line i

theorem runs_eq (line : Str) : runs line = runsFrom line 0 := by
  unfold runs runsFrom
  rw [List.range_eq_range', Nat.sub_zero]

theorem runsFrom_length (line : Str) : runsFrom line line.length = [] := by
  unfold runsFrom
  rw [Nat.sub_self]
  rfl

theorem runsFrom_step (hp : p < line.length) :
    runsFrom line p = (if RunAt line p then [p] else []) ++ runsFrom line (p + 1) := by
  unfold runsFrom
  obtain ⟨d, hd⟩ : ∃ d, line.length - p = d + 1 := ⟨line.length - p - 1, by omega⟩
  have hd' : line.length - (p + 1) = d := by omega
  rw [hd, hd', List.range'_succ, List.filter_cons]
  split_ifs <;> simp_all

/-- Where no run begins there is nothing to find. -/
theorem runsFrom_skip (hpq : p ≤ q) (hq : q ≤ line.length)
    (h : ∀ i, p ≤ i → i < q → ¬ RunAt line i) : runsFrom line p = runsFrom line q := by
  induction q, hpq using Nat.le_induction with
  | base => rfl
  | succ q hpq ih =>
    rw [ih (Nat.le_of_succ_le hq) fun i hi hlt => h i hi (Nat.lt_succ_of_lt hlt), runsFrom_step hq,
      if_neg (h q hpq (Nat.lt_succ_self q)), List.nil_append]

theorem getD_drop (line : Str) (p i : ℕ) (d : Byte) : (line.drop p).getD i d = line.getD (p + i) d := by
  simp [List.getD]

/-- The next run, behind the spaces. -/
theorem runsFrom_spaces (hp : p ≤ line.length)
    (hedge : p = 0 ∨ line.getD (p - 1) SPACE = SPACE ∨ p = line.length)
    (hq : q = p + ((line.drop p).takeWhile fun c => c = SPACE).length) :
    q ≤ line.length ∧ runsFrom line p = runsFrom line q ∧ (q < line.length → RunAt line q) := by
  obtain ⟨hle, hall, hend⟩ := takeWhile_spec (fun c => c = SPACE) SPACE (line.drop p)
  rw [List.length_drop] at hle hend
  have hspace : ∀ i, p ≤ i → i < q → line.getD i SPACE = SPACE := by
    intro i hi hlt
    have h := hall (i - p) (by omega)
    rw [getD_drop, Nat.add_sub_cancel' hi] at h
    exact of_decide_eq_true h
  have hqle : q ≤ line.length := by omega
  refine ⟨hqle, runsFrom_skip (by omega) hqle fun i hi hlt h => h.1 (hspace i hi hlt), fun hlt => ⟨?_, ?_⟩⟩
  · have h := hend (by omega)
    rw [getD_drop, ← hq] at h
    exact of_decide_eq_false h
  · rcases Nat.eq_or_lt_of_le (show p ≤ q by omega) with rfl | hpq
    · rcases hedge with h | h | h
      · exact .inl h
      · exact .inr h
      · exact absurd h hlt.ne
    · exact .inr (hspace (q - 1) (by omega) (by omega))

/-- What follows a run. -/
theorem runsFrom_run (h : RunAt line p) (hp : p < line.length) (hq : q = p + (run line p).length) :
    p < q ∧ q ≤ line.length ∧ runsFrom line p = p :: runsFrom line q ∧
      (q < line.length → line.getD q SPACE = SPACE ∧ runsFrom line q = runsFrom line (q + 1)) := by
  obtain ⟨hle, hall, hend⟩ := takeWhile_spec (fun c => c ≠ SPACE) SPACE (line.drop p)
  change q = p + ((line.drop p).takeWhile fun c => c ≠ SPACE).length at hq
  rw [List.length_drop] at hle hend
  have hword : ∀ i, p ≤ i → i < q → line.getD i SPACE ≠ SPACE := by
    intro i hi hlt
    have h := hall (i - p) (by omega)
    rw [getD_drop, Nat.add_sub_cancel' hi] at h
    exact of_decide_eq_true h
  have hspace : q < line.length → line.getD q SPACE = SPACE := by
    intro hlt
    have h := hend (by omega)
    rw [getD_drop, ← hq] at h
    exact not_not.mp (of_decide_eq_false h)
  have hpq : p < q := by
    by_contra hnot
    obtain rfl : p = q := by omega
    exact h.1 (hspace hp)
  have hqle : q ≤ line.length := by omega
  refine ⟨hpq, hqle, ?_, fun hlt => ⟨hspace hlt, ?_⟩⟩
  · rw [runsFrom_step hp, if_pos h, List.singleton_append]
    refine congrArg (p :: ·) (runsFrom_skip hpq hqle fun i hi hlt hrun => ?_)
    rcases hrun.2 with h0 | hprev
    · omega
    · exact hword (i - 1) (by omega) (by omega) hprev
  · rw [runsFrom_step hlt, if_neg fun hrun => hrun.1 (hspace hlt), List.nil_append]

end Runs

section Loop

/-- `cmd_parse` stands at `p` in the line, the first `k` runs are in `argv`; from `p` on the
line is as it was. -/
structure Parsing (line : Str) (cmd p k : ℕ) (s : Parse) : Prop where
  le : p ≤ line.length
  edge : p = 0 ∨ line.getD (p - 1) SPACE = SPACE ∨ p = line.length
  rest : s.store.mem.read (cmd + p) (line.length - p + 1) = line.drop p ++ [EOS]
  found : (runs line).drop k = runsFrom line p
  le_runs : k ≤ (runs line).length
  le_max : k ≤ MAX_ARG_NR
  args : ∀ j i, j < k → (runs line)[j]? = some i → s.argv j = cmd + i ∧
    s.store.mem.read (cmd + i) ((run line i).length + 1) = run line i ++ [EOS] ∧
    (i + (run line i).length < p ∨ p = line.length)
  inside : ∀ a ∈ s.store.stored, cmd ≤ a ∧ a < cmd + line.length
  slots : ∀ i ∈ s.slots, i < MAX_ARG_NR

theorem parsing_start (h : LineAt line cmd m) (argv : ℕ → ℕ) :
    Parsing line cmd 0 0 ⟨⟨m, []⟩, argv, []⟩ where
  le := Nat.zero_le _
  edge := .inl rfl
  rest := h.2.2
  found := runs_eq line
  le_runs := Nat.zero_le _
  le_max := Nat.zero_le _
  args j _ hj := absurd hj (Nat.not_lt_zero j)
  inside _ ha := absurd ha List.not_mem_nil
  slots _ hi := absurd hi List.not_mem_nil

theorem Parsing.suffix (h : Parsing line cmd p k s) (hpi : p ≤ i) (hi : i ≤ line.length) :
    s.store.mem.read (cmd + i) (line.length - i + 1) = line.drop i ++ [EOS] := by
  have hrest := h.rest
  have hlen : line.length - p + 1 = (i - p) + (line.length - i + 1) := by omega
  have hdrop : line.drop p = (line.drop p).take (i - p) ++ line.drop i := by
    have := (List.take_append_drop (i - p) (line.drop p)).symm
    rwa [List.drop_drop, Nat.add_sub_cancel' hpi] at this
  rw [hlen, read_add, hdrop, List.append_assoc, Nat.add_assoc, Nat.add_sub_cancel' hpi] at hrest
  refine (List.append_inj hrest ?_).2
  rw [length_readAt, List.length_take, List.length_drop]
  omega

/-- The character at `i`. -/
theorem Parsing.char (h : Parsing line cmd p k s) (hpi : p ≤ i) (hi : i < line.length) :
    s.store.mem (cmd + i) = line.getD i SPACE := by
  have hsuffix := h.suffix hpi hi.le
  rw [read_succ, List.drop_eq_getElem_cons hi, List.cons_append] at hsuffix
  rw [(List.cons.inj hsuffix).1, List.getD_eq_getElem _ _ hi]

theorem Parsing.char_end (h : Parsing line cmd p k s) : s.store.mem (cmd + line.length) = EOS := by
  have hsuffix := h.suffix h.le le_rfl
  rw [List.drop_length, Nat.sub_self, List.nil_append] at hsuffix
  exact (List.cons.inj hsuffix).1

theorem Parsing.char_eq_eos (h : Parsing line cmd p k s) (heos : EOS ∉ line) (hpi : p ≤ i)
    (hi : i ≤ line.length) : s.store.mem (cmd + i) = EOS ↔ i = line.length := by
  constructor
  · intro hchar
    by_contra hne
    have hlt : i < line.length := lt_of_le_of_ne hi hne
    rw [h.char hpi hlt, List.getD_eq_getElem _ _ hlt] at hchar
    exact heos (hchar ▸ List.getElem_mem hlt)
  · rintro rfl
    exact h.char_end

/-- The run at `i` is in memory. -/
theorem Parsing.word (h : Parsing line cmd p k s) (hpi : p ≤ i) (hi : i ≤ line.length) :
    s.store.mem.read (cmd + i) (run line i).length = run line i := by
  obtain ⟨rest, hrest⟩ : ∃ rest, run line i ++ rest = line.drop i :=
    List.takeWhile_prefix (fun c => c ≠ SPACE)
  have hlen : (run line i).length + (rest.length + 1) = line.length - i + 1 := by
    have := congrArg List.length hrest
    rw [List.length_append, List.length_drop] at this
    omega
  have hsuffix := h.suffix hpi hi
  rw [← hlen, read_add, ← hrest, List.append_assoc] at hsuffix
  exact (List.append_inj hsuffix length_readAt).1

/-- The runs up to `k` are where they were after stores from `p` on. -/
theorem Parsing.args_kept (h : Parsing line cmd p k s) (hp : p < line.length) {s' : Parse}
    (hargv : ∀ j < k, s'.argv j = s.argv j)
    (hmem : ∀ a, a < cmd + p → s'.store.mem a = s.store.mem a) (hpq : p ≤ q) (hj : j < k)
    (hi : (runs line)[j]? = some i) : s'.argv j = cmd + i ∧
    s'.store.mem.read (cmd + i) ((run line i).length + 1) = run line i ++ [EOS] ∧
    (i + (run line i).length < q ∨ q = line.length) := by
  obtain ⟨harg, hread, hend⟩ := h.args j i hj hi
  have hlt : i + (run line i).length < p := hend.resolve_right hp.ne
  refine ⟨(hargv j hj).trans harg, ?_, .inl (hlt.trans_le hpq)⟩
  rw [← hread]
  exact read_congr fun x hx => hmem _ (by omega)

/-- The next run goes into `argv` and gets its `NUL`. -/
theorem Parsing.store (h : Parsing line cmd p k s) (hp : p < line.length) (hk : k < MAX_ARG_NR)
    (hpi : p ≤ i) (hi : i < line.length) (hrun : RunAt line i) (hfrom : runsFrom line p = runsFrom line i)
    (hq : q = i + (run line i).length) :
    (q < line.length → Parsing line cmd (q + 1) (k + 1) ((s.setArg k (cmd + i)).put (cmd + q) EOS)) ∧
    (q = line.length → Parsing line cmd q (k + 1) (s.setArg k (cmd + i))) := by
  obtain ⟨hiq, hqle, hcons, hspace⟩ := runsFrom_run hrun hi hq
  have hdrop : (runs line).drop k = i :: runsFrom line q := by rw [h.found, hfrom, hcons]
  have hget : (runs line)[k]? = some i := by
    rw [← List.head?_drop, hdrop, List.head?_cons]
  have hfound : (runs line).drop (k + 1) = runsFrom line q := by
    rw [← List.tail_drop, hdrop, List.tail_cons]
  have hle : k + 1 ≤ (runs line).length := (List.getElem?_eq_some_iff.mp hget).1
  have hargv : ∀ j < k, (s.setArg k (cmd + i)).argv j = s.argv j := fun j hj => update_of_ne hj.ne ..
  have hslots : ∀ j ∈ (s.setArg k (cmd + i)).slots, j < MAX_ARG_NR := by
    intro j hj
    rcases List.mem_append.mp hj with hj | hj
    · exact h.slots j hj
    · rw [List.mem_singleton.mp hj]
      exact hk
  constructor
  · intro hlt
    obtain ⟨hchar, hskip⟩ := hspace hlt
    have hmem : ∀ a, a ≠ cmd + q → ((s.setArg k (cmd + i)).put (cmd + q) EOS).store.mem a = s.store.mem a :=
      fun a ha => update_of_ne ha ..
    refine ⟨hlt, .inr (.inl hchar), ?_, hfound.trans hskip, hle, hk, ?_, ?_, hslots⟩
    · rw [← h.suffix (by omega) hlt]
      exact read_congr fun x _ => hmem _ (by omega)
    · intro j r hj hr
      rcases Nat.lt_succ_iff_lt_or_eq.mp hj with hj | rfl
      · exact h.args_kept hp hargv (fun a ha => hmem a (by omega)) (by omega) hj hr
      · obtain rfl : i = r := Option.some.inj (hget.symm.trans hr)
        refine ⟨update_self .., ?_, .inl (by omega)⟩
        have hput := read_put_last s.store (cmd + i) (run line i).length EOS
        rw [h.word hpi hi.le, Nat.add_assoc, ← hq] at hput
        exact hput
    · intro a ha
      rcases mem_stored_put ha with ha | rfl
      · exact h.inside a ha
      · omega
  · rintro rfl
    refine ⟨le_rfl, .inr (.inr rfl), ?_, hfound, hle, hk, ?_, h.inside, hslots⟩
    · exact h.suffix (by omega) le_rfl
    · intro j r hj hr
      rcases Nat.lt_succ_iff_lt_or_eq.mp hj with hj | rfl
      · exact h.args_kept hp hargv (fun a _ => rfl) hp.le hj hr
      · obtain rfl : i = r := Option.some.inj (hget.symm.trans hr)
        refine ⟨update_self .., ?_, .inr rfl⟩
        change s.store.mem.read (cmd + i) ((run line i).length + 1) = _
        rw [read_snoc, h.word hpi hi.le, Nat.add_assoc, ← hq, h.char_end]

theorem takeWhile_word (heos : EOS ∉ xs) :
    xs.takeWhile (fun c => c ≠ EOS ∧ c ≠ SPACE) = xs.takeWhile fun c => c ≠ SPACE := by
  induction xs with
  | nil => rfl
  | cons x xs ih =>
    obtain ⟨hx, hxs⟩ := not_or.mp (List.mem_cons.not.mp heos)
    rw [List.takeWhile_cons, List.takeWhile_cons, ih hxs]
    simp [Ne.symm hx]

/-- The loop of `cmd_parse` ends where there are no more runs, or with `argv` full. -/
theorem Parsing.loop (h : Parsing line cmd p k s) (heos : EOS ∉ line) (hturns : line.length < turns)
    (hn : line.length - p < n) : ∃ q argc s', parseLoop turns SPACE n (cmd + p) k s = some (argc, s') ∧
      Parsing line cmd q argc s' ∧ (runsFrom line q = [] ∨ argc = MAX_ARG_NR) := by
  induction n generalizing p k s with
  | zero => exact absurd hn (Nat.not_lt_zero _)
  | succ n ih =>
    rw [parseLoop]
    by_cases hcond : s.store.mem (cmd + p) ≠ EOS ∧ k < MAX_ARG_NR
    · have hp : p < line.length :=
        lt_of_le_of_ne h.le ((h.char_eq_eos heos le_rfl h.le).not.mp hcond.1)
      obtain ⟨i, hi⟩ : ∃ i, i = p + ((line.drop p).takeWhile fun c => c = SPACE).length := ⟨_, rfl⟩
      obtain ⟨hile, hfrom, hrun⟩ := runsFrom_spaces h.le h.edge hi
      have hrest := h.rest
      rw [← List.length_drop] at hrest
      have hskip : skip s.store.mem (fun c => c = SPACE) turns (cmd + p) = some (cmd + i) := by
        rw [skip_takeWhile _ (by decide) hrest (by rw [List.length_drop]; omega), hi, Nat.add_assoc]
      rw [if_pos hcond, hskip]
      simp only [Option.bind_eq_bind, Option.bind_some]
      by_cases hend : i = line.length
      · rw [if_pos ((h.char_eq_eos heos (by omega) hile).mpr hend)]
        refine ⟨p, k, s, rfl, h, .inl ?_⟩
        rw [hfrom, hend, runsFrom_length]
      · have hlt : i < line.length := lt_of_le_of_ne hile hend
        obtain ⟨q, hq⟩ : ∃ q, q = i + (run line i).length := ⟨_, rfl⟩
        obtain ⟨hiq, hqle, -⟩ := runsFrom_run (hrun hlt) hlt hq
        obtain ⟨hmore, hlast⟩ := h.store hp hcond.2 (by omega) hlt (hrun hlt) hfrom hq
        have hsuffix := h.suffix (i := i) (by omega) hile
        rw [← List.length_drop] at hsuffix
        have hword : skip (s.setArg k (cmd + i)).store.mem (fun c => c ≠ EOS ∧ c ≠ SPACE) turns
            (cmd + i) = some (cmd + q) := by
          have hnot : EOS ∉ line.drop i := fun hmem => heos (List.mem_of_mem_drop hmem)
          change skip s.store.mem _ turns (cmd + i) = _
          rw [skip_takeWhile _ (by decide) hsuffix (by rw [List.length_drop]; omega),
            takeWhile_word hnot, hq, Nat.add_assoc]
          rfl
        have hchar : (s.setArg k (cmd + i)).store.mem (cmd + q) = EOS ↔ q = line.length :=
          h.char_eq_eos heos (by omega) hqle
        rw [if_neg ((h.char_eq_eos heos (by omega) hile).not.mpr hend), hword]
        simp only [Option.bind_some]
        rcases Nat.lt_or_eq_of_le hqle with hqlt | hqeq
        · rw [if_pos (hchar.not.mpr hqlt.ne)]
          exact ih (hmore hqlt) (by omega)
        · rw [if_neg (not_not.mpr (hchar.mpr hqeq))]
          exact ih (hlast hqeq) (by omega)
    · rw [if_neg hcond]
      refine ⟨p, k, s, rfl, h, ?_⟩
      rcases not_and_or.mp hcond with hchar | hk
      · left
        rw [(h.char_eq_eos heos le_rfl h.le).mp (not_not.mp hchar), runsFrom_length]
      · exact .inr (le_antisymm h.le_max (not_lt.mp hk))

/-- What `cmd_parse` does with every command line; the element behind the last argument need
not be one of `argv`. -/
theorem cmdParse_spec (h : LineAt line cmd m) (hturns : line.length < turns) (argv : ℕ → ℕ) :
    ∃ argc s, cmdParse turns SPACE cmd m argv = some (argc, s) ∧
      argc = min (runs line).length MAX_ARG_NR ∧
      (∀ j i, j < argc → (runs line)[j]? = some i → s.argv j = cmd + i ∧
        s.store.mem.read (cmd + i) ((run line i).length + 1) = run line i ++ [EOS]) ∧
      s.argv argc = NULL ∧ (∀ a ∈ s.store.stored, cmd ≤ a ∧ a < cmd + line.length) ∧
      argc ∈ s.slots ∧ ∀ i ∈ s.slots, i < MAX_ARG_NR ∨ i = argc := by
  obtain ⟨q, argc, s, hloop, hparsing, hend⟩ :=
    (parsing_start h argv).loop h.2.1 hturns (n := turns) (by omega)
  refine ⟨argc, s.setArg argc NULL, ?_, ?_, ?_, update_self .., hparsing.inside,
    List.mem_append_right _ (List.mem_singleton_self _), ?_⟩
  · unfold cmdParse
    rw [Nat.add_zero] at hloop
    rw [hloop]
    rfl
  · have hle := hparsing.le_runs
    have hmax := hparsing.le_max
    rcases hend with hnone | rfl
    · have hlen := List.drop_eq_nil_iff.mp (hparsing.found.trans hnone)
      omega
    · omega
  · intro j i hj hi
    obtain ⟨harg, hread, -⟩ := hparsing.args j i hj hi
    exact ⟨(update_of_ne hj.ne ..).trans harg, hread⟩
  · intro i hi
    rcases List.mem_append.mp hi with hi | hi
    · exact .inl (hparsing.slots i hi)
    · exact .inr (List.mem_singleton.mp hi)

end Loop

end Onix.Osh
