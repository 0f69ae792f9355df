import Onix.Sanity.AbspathSpec
import Onix.Sanity.CmdParse

/-! The shell parses a command line and hands its words on, for every line but three kinds:
too many words, nothing but spaces, `cd` or `cat` alone. -/

namespace Onix.Osh

open Cstr (EOS)

variable {line w name : Str} {m : Bytes} {cmd a i argc turns : ℕ} {argv : ℕ → ℕ}
  {dir : Option (List Str)} {passes : List Pass} {bs : List (Str × List Pass)}

section Dispatch

theorem compare_eq_zero {l r : Byte} : Cstr.compare l r = 0 ↔ l = r := by
  constructor
  · intro h
    by_contra hne
    exact Cstr.compare_ne hne h
  · rintro rfl
    simp [Cstr.compare]

/-- `strcmp` with a string of the shell. -/
theorem strcmp_eq_zero (h : m.read a (w.length + 1) = w ++ [EOS]) (hw : EOS ∉ w) (hname : EOS ∉ name) :
    strcmp m a name = 0 ↔ w = name := by
  induction name generalizing a w with
  | nil =>
    rw [strcmp, compare_eq_zero]
    cases w with
    | nil => simpa using (List.cons.inj h).1
    | cons x w =>
      rw [List.length_cons, Cstr.read_succ, List.cons_append] at h
      rw [(List.cons.inj h).1]
      have hx : x ≠ EOS := fun hx => hw (hx ▸ List.mem_cons_self)
      simp [hx]
  | cons c name ih =>
    obtain ⟨hc, hname⟩ := not_or.mp (List.mem_cons.not.mp hname)
    rw [strcmp]
    cases w with
    | nil =>
      have ha : m a = EOS := (List.cons.inj h).1
      rw [ha, if_neg (by simp), compare_eq_zero]
      simp [hc]
    | cons x w =>
      obtain ⟨hx, hw⟩ := not_or.mp (List.mem_cons.not.mp hw)
      rw [List.length_cons, Cstr.read_succ, List.cons_append] at h
      obtain ⟨ha, htail⟩ := List.cons.inj h
      rw [ha]
      by_cases hxc : x = c
      · rw [if_pos ⟨hxc, Ne.symm hx, Ne.symm hc⟩, ih htail hw hname, hxc]
        simp
      · rw [if_neg (fun h => hxc h.1), compare_eq_zero]
        simp [hxc]

/-- What `execute` passes on: the name of the command, or what the command does. -/
theorem mem_dispatch {f : Callee} {ptr : Pointer} (h : (f, ptr) ∈ dispatch m a bs) :
    ptr = .own ∨ ptr = .arg a ∨ ∃ b ∈ bs, strcmp m a b.1 = 0 ∧ (f, ptr) ∈ b.2 := by
  induction bs with
  | nil => cases h
  | cons b bs ih =>
    obtain ⟨name, body⟩ := b
    rw [dispatch] at h
    rcases List.mem_cons.mp h with h | h
    · exact .inr (.inl (Prod.mk.inj h).2)
    rcases List.mem_cons.mp h with h | h
    · exact .inl (Prod.mk.inj h).2
    split_ifs at h with hname
    · exact .inr (.inr ⟨_, List.mem_cons_self, hname, h⟩)
    · rcases ih h with h | h | ⟨b, hb, hzero, hmem⟩
      · exact .inl h
      · exact .inr (.inl h)
      · exact .inr (.inr ⟨b, List.mem_cons_of_mem _ hb, hzero, hmem⟩)

/-- The command of a name that occurs once is carried out. -/
theorem dispatch_of_mem (body : List Pass) (hw : ∀ b ∈ bs, strcmp m a b.1 = 0 ↔ w = b.1)
    (hnd : (bs.map Prod.fst).Nodup) (hb : (w, body) ∈ bs) : ∀ x ∈ body, x ∈ dispatch m a bs := by
  induction bs with
  | nil => cases hb
  | cons b bs ih =>
    obtain ⟨name, first⟩ := b
    obtain ⟨hnot, hnd⟩ := List.nodup_cons.mp hnd
    have hfirst := hw _ List.mem_cons_self
    intro x hx
    rw [dispatch]
    refine List.mem_cons_of_mem _ (List.mem_cons_of_mem _ ?_)
    rcases List.mem_cons.mp hb with heq | hin
    · obtain ⟨rfl, rfl⟩ := Prod.mk.inj heq
      rw [if_pos (hfirst.mpr rfl)]
      exact hx
    · have hne : w ≠ name := by
        rintro rfl
        exact hnot (List.mem_map.mpr ⟨_, hin, rfl⟩)
      rw [if_neg (hfirst.not.mpr hne)]
      exact ih (fun b hb => hw b (List.mem_cons_of_mem _ hb)) hnd hin x hx

end Dispatch

section Execute

/-- The names of the commands do not depend on the arguments. -/
theorem names_builtins (argc : ℕ) (argv : ℕ → ℕ) (dir : Option (List Str)) :
    (builtins argc argv dir).map Prod.fst = (builtins 0 (fun _ => 0) none).map Prod.fst := rfl

theorem eos_notMem_builtins (argc : ℕ) (argv : ℕ → ℕ) (dir : Option (List Str)) :
    ∀ b ∈ builtins argc argv dir, EOS ∉ b.1 := by
  have hall : ∀ name ∈ (builtins 0 (fun _ => 0) none).map Prod.fst, EOS ∉ name := by decide
  intro b hb
  apply hall
  rw [← names_builtins argc argv dir]
  exact List.mem_map.mpr ⟨b, hb, rfl⟩

theorem nodup_builtins (argc : ℕ) (argv : ℕ → ℕ) (dir : Option (List Str)) :
    ((builtins argc argv dir).map Prod.fst).Nodup := by
  rw [names_builtins]
  decide

/-- `ls` passes on strings of the shell only. -/
theorem own_of_mem_builtinLs {x : Pass} (h : x ∈ builtinLs dir) : x.2 = .own := by
  unfold builtinLs at h
  rcases List.mem_cons.mp h with rfl | h
  · rfl
  cases dir with
  | none => cases h
  | some names =>
    obtain ⟨name, -, hx⟩ := List.mem_flatMap.mp h
    split_ifs at hx <;> simp_all

/-- A builtin passes on strings of the shell and the first argument; `cd` and `cat` do not ask
whether there is one. -/
theorem mem_builtins {b : Str × List Pass} (hb : b ∈ builtins argc argv dir) {f : Callee}
    {ptr : Pointer} (h : (f, ptr) ∈ b.2) : ptr = .own ∨ ptr = .arg (argv 1) ∧
      (2 ≤ argc ∨ b.1 = str ['c', 'd'] ∨ b.1 = str ['c', 'a', 't']) := by
  have hif : ∀ {g : Callee}, (f, ptr) ∈ (if argc < 2 then [] else [(g, Pointer.arg (argv 1))]) →
      ptr = .arg (argv 1) ∧ 2 ≤ argc := by
    intro g hg
    split_ifs at hg with hlt
    · cases hg
    · exact ⟨(Prod.mk.inj (List.mem_singleton.mp hg)).2, not_lt.mp hlt⟩
  simp only [builtins, List.mem_cons, List.not_mem_nil, or_false] at hb
  rcases hb with rfl | rfl | rfl | rfl | rfl | rfl | rfl | rfl | rfl | rfl | rfl
  · cases h
  · cases h
  · cases h
  · cases h
  · change (f, ptr) ∈ (if argc = 2 then [(Callee.atoi, Pointer.arg (argv 1))] else []) at h
    split_ifs at h with htwo
    · exact .inr ⟨(Prod.mk.inj (List.mem_singleton.mp h)).2, .inl htwo.ge⟩
    · cases h
  · exact .inl (own_of_mem_builtinLs h)
  · exact .inr ⟨(Prod.mk.inj (List.mem_singleton.mp h)).2, .inr (.inl rfl)⟩
  · exact .inr ⟨(Prod.mk.inj (List.mem_singleton.mp h)).2, .inr (.inr rfl)⟩
  · exact .inr ((hif h).imp_right .inl)
  · exact .inr ((hif h).imp_right .inl)
  · exact .inr ((hif h).imp_right .inl)

end Execute

section Lines

variable {s : Parse}

theorem eos_notMem_run (h : LineAt line cmd m) (i : ℕ) : EOS ∉ run line i := fun hmem =>
  h.2.1 (List.mem_of_mem_drop ((List.takeWhile_sublist _).subset hmem))

/-- `execute` on arguments that are words of the line. -/
theorem execute_passes (h : LineAt line cmd m) (hargc : argc = (runs line).length)
    (hargs : ∀ j i, j < argc → (runs line)[j]? = some i → s.argv j = cmd + i ∧
      s.store.mem.read (cmd + i) ((run line i).length + 1) = run line i ++ [EOS])
    (hne : runs line ≠ [])
    (hready : ∀ i, runs line = [i] → run line i ≠ str ['c', 'd'] ∧ run line i ≠ str ['c', 'a', 't']) :
    PassesRuns line cmd (execute s.store.mem argc s.argv dir) := by
  obtain ⟨first, rest, hruns⟩ := List.exists_cons_of_ne_nil hne
  have hcmd := h.1
  have hword : ∀ {j i}, (runs line)[j]? = some i →
      s.argv j = cmd + i ∧ i ∈ runs line ∧ s.argv j ≠ NULL := by
    intro j i hj
    have hlt : j < argc := hargc ▸ (List.getElem?_eq_some_iff.mp hj).1
    have harg := (hargs j i hlt hj).1
    refine ⟨harg, List.mem_of_getElem? hj, ?_⟩
    unfold NULL
    omega
  have hzero : (runs line)[0]? = some first := by rw [hruns]; rfl
  intro f ptr hmem
  rcases mem_dispatch hmem with hown | harg | ⟨b, hb, hname, hmem⟩
  · cases hown
  · obtain ⟨heq, hin, hnull⟩ := hword hzero
    obtain rfl := Pointer.arg.inj harg
    exact ⟨hnull, first, hin, heq⟩
  · rcases mem_builtins hb hmem with hown | ⟨harg, htwo⟩
    · cases hown
    obtain rfl := Pointer.arg.inj harg
    have hsecond : 2 ≤ argc := by
      by_contra hlt
      have hrest : rest = [] := by
        rw [hruns, List.length_cons] at hargc
        exact List.eq_nil_of_length_eq_zero (by omega)
      have hone : runs line = [first] := by rw [hruns, hrest]
      obtain ⟨hcd, hcat⟩ := hready first hone
      obtain ⟨heq, -⟩ := hword hzero
      have hread := (hargs 0 first (by rw [hargc, hone]; exact Nat.one_pos) hzero).2
      rw [heq, strcmp_eq_zero hread (eos_notMem_run h first) (eos_notMem_builtins _ _ _ b hb)] at hname
      rcases htwo with htwo | hb | hb
      · exact hlt htwo
      · exact hcd (hname.trans hb)
      · exact hcat (hname.trans hb)
    obtain ⟨heq, hin, hnull⟩ :=
      hword (List.getElem?_eq_getElem (show 1 < (runs line).length by omega))
    exact ⟨hnull, _, hin, heq⟩

/-- `cd` and `cat` without an argument pass on what is behind the last argument. -/
theorem mem_execute_alone (argc : ℕ) (dir : Option (List Str)) {m' : Bytes} (h : LineAt line cmd m)
    (hread : m'.read a ((run line i).length + 1) = run line i ++ [EOS]) (hargv : argv 0 = a)
    (hname : run line i = str ['c', 'd'] ∨ run line i = str ['c', 'a', 't']) :
    ∃ f, (f, Pointer.arg (argv 1)) ∈ execute m' argc argv dir := by
  have hw : ∀ b ∈ builtins argc argv dir, strcmp m' (argv 0) b.1 = 0 ↔ run line i = b.1 := by
    intro b hb
    rw [hargv]
    exact strcmp_eq_zero hread (eos_notMem_run h i) (eos_notMem_builtins _ _ _ b hb)
  have hnd := nodup_builtins argc argv dir
  rcases hname with hname | hname
  · refine ⟨.chdir, dispatch_of_mem (builtinCd argv) hw hnd ?_ _ (List.mem_singleton_self _)⟩
    rw [hname]
    simp [builtins]
  · refine ⟨.open, dispatch_of_mem (builtinCat argv) hw hnd ?_ _ (List.mem_singleton_self _)⟩
    rw [hname]
    simp [builtins]

/-- The lines that the shell is ready for: not too many words, a word unless the line is empty,
and an argument for `cd` and `cat`. -/
def Ready (line : Str) : Prop :=
  (runs line).length < MAX_ARG_NR ∧ (line = [] ∨ runs line ≠ []) ∧
    ∀ i, runs line = [i] → run line i ≠ str ['c', 'd'] ∧ run line i ≠ str ['c', 'a', 't']

theorem oshMain_eq (dir : Option (List Str)) {s : Parse} (hne : m cmd ≠ EOS)
    (hparse : cmdParse turns SPACE cmd m argv = some (argc, s)) : oshMain m argv dir turns cmd =
      some (if argc ≥ MAX_ARG_NR then [] else execute s.store.mem argc s.argv dir) := by
  unfold oshMain
  rw [if_neg hne, hparse]
  simp only [Option.bind_eq_bind, Option.bind_some]
  split_ifs <;> rfl

/-- The first character of a line. -/
theorem first_eq_eos (h : LineAt line cmd m) : m cmd = EOS ↔ line = [] := by
  have hread := h.2.2
  cases line with
  | nil => exact iff_of_true (List.cons.inj hread).1 rfl
  | cons c line =>
    rw [List.length_cons, Cstr.read_succ, List.cons_append] at hread
    rw [(List.cons.inj hread).1]
    refine iff_of_false ?_ (List.cons_ne_nil c line)
    rintro rfl
    exact h.2.1 List.mem_cons_self

/-- `cmd_parse` makes `argv` of the words of the line, within bounds, and `osh_main` and
`execute` pass on words only, exactly for the lines that are ready. -/
theorem osh_line_iff (h : LineAt line cmd m) (hturns : line.length < turns) :
    (∃ argc s passes, cmdParse turns SPACE cmd m argv = some (argc, s) ∧
      oshMain m argv dir turns cmd = some passes ∧
      Parses line cmd argc s ∧ PassesRuns line cmd passes) ↔ Ready line := by
  obtain ⟨argc, s, hparse, hcount, hargs, hlast, hinside, hslot, hslots⟩ :=
    cmdParse_spec h hturns argv
  constructor
  · rintro ⟨argc', s', passes, hparse', hmain, hparses, hpasses⟩
    rw [hparse] at hparse'
    obtain ⟨rfl, rfl⟩ := Prod.mk.inj (Option.some.inj hparse')
    have hfew : argc < MAX_ARG_NR := hparses.slots _ hslot
    have hlen : argc = (runs line).length := by omega
    refine ⟨by omega, ?_, fun i hi => ?_⟩
    · by_contra hnot
      obtain ⟨hline, hruns⟩ := not_or.mp hnot
      rw [oshMain_eq dir ((first_eq_eos h).not.mpr hline) hparse, if_neg (not_le.mpr hfew)] at hmain
      obtain rfl := Option.some.inj hmain
      rw [not_not.mp hruns, List.length_nil] at hlen
      rw [hlen] at hlast
      exact (hpasses .strcmp _ List.mem_cons_self).1 hlast
    · have hline : line ≠ [] := by
        rintro rfl
        cases hi
      rw [oshMain_eq dir ((first_eq_eos h).not.mpr hline) hparse, if_neg (not_le.mpr hfew)] at hmain
      obtain rfl := Option.some.inj hmain
      rw [hi, List.length_singleton] at hlen
      obtain ⟨harg, hread⟩ := hargs 0 i (by omega) (by rw [hi]; rfl)
      rw [hlen] at hlast
      by_contra hnot
      rw [not_and_or, not_not, not_not] at hnot
      obtain ⟨f, hmem⟩ := mem_execute_alone argc dir h hread harg hnot
      exact (hpasses f _ hmem).1 hlast
  · rintro ⟨hfew, hempty, hready⟩
    have hlen : argc = (runs line).length := by omega
    have hparses : Parses line cmd argc s := by
      refine ⟨hcount, fun j i hj hi => hargs j i hj hi, hlast, hinside, fun i hi => ?_⟩
      rcases hslots i hi with hlt | rfl
      · exact hlt
      · omega
    by_cases hline : line = []
    · have hmain : oshMain m argv dir turns cmd = some [] := by
        unfold oshMain
        rw [if_pos ((first_eq_eos h).mpr hline)]
      exact ⟨argc, s, [], hparse, hmain, hparses, fun f ptr hmem => by cases hmem⟩
    · have hmain := oshMain_eq dir ((first_eq_eos h).not.mpr hline) hparse
      rw [if_neg (by omega)] at hmain
      exact ⟨argc, s, _, hparse, hmain, hparses,
        execute_passes h hlen hargs (hempty.resolve_left hline) hready⟩

/-- The memory that holds only the line, at the address 1. -/
def lineMem (line : Str) : Bytes := fun a => if a = 0 then EOS else line.getD (a - 1) EOS

/-- A line of one space: `execute` passes `NULL` to `strcmp`. -/
theorem osh_space : LineAt [SPACE] 1 (lineMem [SPACE]) ∧ ¬ ∃ argc s passes,
    cmdParse 2 SPACE 1 (lineMem [SPACE]) (fun _ => NULL) = some (argc, s) ∧
      oshMain (lineMem [SPACE]) (fun _ => NULL) none 2 1 = some passes ∧
      Parses [SPACE] 1 argc s ∧ PassesRuns [SPACE] 1 passes := by
  refine ⟨by unfold LineAt; decide, ?_⟩
  rintro ⟨argc, s, passes, -, hmain, -, hpasses⟩
  have hnull : ∃ l, oshMain (lineMem [SPACE]) (fun _ => NULL) none 2 1 =
      some ((.strcmp, .arg NULL) :: l) := ⟨_, rfl⟩
  obtain ⟨l, hnull⟩ := hnull
  obtain rfl := Option.some.inj (hmain.symm.trans hnull)
  exact (hpasses .strcmp NULL List.mem_cons_self).1 rfl

/-- `cat  a`, with two spaces. -/
def catLine : Str := str ['c', 'a', 't', ' ', ' ', 'a']

theorem osh_catLine : ∃ argc s passes,
    cmdParse 7 SPACE 1 (lineMem catLine) (fun _ => NULL) = some (argc, s) ∧
      oshMain (lineMem catLine) (fun _ => NULL) none 7 1 = some passes ∧
      Parses catLine 1 argc s ∧ PassesRuns catLine 1 passes := by
  refine (osh_line_iff (by unfold LineAt; decide) (by decide)).mpr ⟨by decide, by decide, fun i hi => ?_⟩
  have hruns : runs catLine = [0, 5] := by decide
  rw [hruns] at hi
  cases hi

end Lines

end Onix.Osh
