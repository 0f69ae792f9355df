import Onix.Proofs.Number

/-! `vsprintf` reads a format as the literals and directives it was put together from, and stores what
each of them stands for one behind the other. -/

namespace Onix.Printf

open Cstr

inductive Flag where
  | minus | plus | space | hash | zero
  deriving DecidableEq

def Flag.char : Flag → Byte
  | minus => 0x2d
  | plus => 0x2b
  | space => 0x20
  | hash => 0x23
  | zero => 0x30

def Flag.set (flags : Flags) : Flag → Flags
  | minus => { flags with left := true }
  | plus => { flags with plus := true }
  | space => { flags with space := true }
  | hash => { flags with special := true }
  | zero => { flags with zeropad := true }

inductive Width where
  | none | star
  | num (n : ℕ)

inductive Precision where
  | none
  /-- A `.` alone. -/
  | dot
  | num (n : ℕ)

structure Directive where
  flags : List Flag
  width : Width
  precision : Precision
  qualifier : Option Byte
  conversion : Byte

def decimal (n : ℕ) : Str := (tmpOf n 10 {}).reverse

def Width.chars : Width → Str
  | none => []
  | star => [0x2a]
  | num n => decimal n

def Precision.chars : Precision → Str
  | none => []
  | dot => [0x2e]
  | num n => 0x2e :: decimal n

def Directive.chars (d : Directive) : Str :=
  0x25 :: (d.flags.map Flag.char ++
    (d.width.chars ++ (d.precision.chars ++ (d.qualifier.toList ++ [d.conversion]))))

/-- A character that may stand for a conversion: none of those that come before it. -/
def IsConversion (c : Byte) : Prop :=
  isDigit c = false ∧ ∀ x ∈ [0x2d, 0x2b, 0x20, 0x23, 0x2a, 0x2e, 0x68, 0x6c, 0x4c, EOS], c ≠ x

structure Directive.Proper (d : Directive) : Prop where
  pos : ∀ n, d.width = .num n → 0 < n
  width : ∀ n, d.width = .num n → n < 2 ^ 31
  precision : ∀ n, d.precision = .num n → n < 2 ^ 31
  qualifier : ∀ q ∈ d.qualifier, q ∈ [0x68, 0x6c, 0x4c]
  conversion : IsConversion d.conversion

/-- The width that is read, with the flags it leaves. -/
def Width.value (flags : Flags) (va : Va) : Width → ℤ × Flags × Va
  | none => (-1, flags, va)
  | num n => (n, flags, va)
  | star =>
    if va.int.1 < 0 then (int (-va.int.1), { flags with left := true }, va.int.2)
    else (va.int.1, flags, va.int.2)

def Precision.value : Precision → ℤ
  | none => -1
  | dot => 0
  | num n => n

/-- What a directive stands for. -/
def Directive.render (d : Directive) (done : ℕ) (va : Va) : Option (Str × Va) :=
  let w := d.width.value (d.flags.foldl Flag.set {}) va
  convert w.2.1 w.1 d.precision.value d.conversion done w.2.2

inductive Item where
  | lit (c : Byte)
  | dir (d : Directive)

def Item.chars : Item → Str
  | lit c => [c]
  | dir d => d.chars

def Item.Proper : Item → Prop
  | lit c => c ≠ 0x25 ∧ c ≠ EOS
  | dir d => d.Proper

/-- What the items of a format stand for, one behind the other. -/
def renderAll (out : Str) (va : Va) : List Item → Option (Str × Va)
  | [] => some (out, va)
  | .lit c :: items => renderAll (out ++ [c]) va items
  | .dir d :: items => (d.render out.length va).bind fun r => renderAll (out ++ r.1) r.2 items

variable {flags : Flags} {fmt rest : Str} {va : Va} {n : ℕ} {c : Byte}

theorem parseFlags_chars (fs : List Flag) (h : ∀ f : Flag, deref rest ≠ f.char) :
    parseFlags flags (fs.map Flag.char ++ rest) = (fs.foldl Flag.set flags, rest) := by
  induction fs generalizing flags with
  | nil =>
    cases rest with
    | nil => rfl
    | cons c rest =>
      have h₁ := h .minus
      have h₂ := h .plus
      have h₃ := h .space
      have h₄ := h .hash
      have h₅ := h .zero
      simp only [deref, Flag.char] at h₁ h₂ h₃ h₄ h₅
      simp only [List.map_nil, List.nil_append, parseFlags, if_neg h₁, if_neg h₂, if_neg h₃, if_neg h₄,
        if_neg h₅, List.foldl_nil]
  | cons f fs ih =>
    rw [List.map_cons, List.cons_append, List.foldl_cons, ← ih]
    cases f <;> rfl

theorem isDigit_iff : isDigit c = true ↔ 0x30 ≤ c.toNat ∧ c.toNat ≤ 0x39 := by
  simp [isDigit]

/-- `skip_atoi` over digits whose value an `int` can hold. -/
theorem skipAtoi_digits (ds : Str) (i : ℕ) (hd : ∀ c ∈ ds, isDigit c = true)
    (hrest : isDigit (deref rest) = false)
    (hlt : ds.foldl (fun n c => n * 10 + digitValue c) i < 2 ^ 31) :
    skipAtoi i (ds ++ rest) = (((ds.foldl (fun n c => n * 10 + digitValue c) i : ℕ) : ℤ), rest) := by
  induction ds generalizing i with
  | nil =>
    cases rest with
    | nil => rfl
    | cons c rest =>
      have h : isDigit c = false := hrest
      simp [skipAtoi, h]
  | cons c ds ih =>
    have hc := hd c List.mem_cons_self
    obtain ⟨hlo, hhi⟩ := isDigit_iff.mp hc
    have hvalue : digitValue c = c.toNat - 0x30 := if_pos (by omega)
    have hmono : ∀ (ds : Str) (i : ℕ), i ≤ ds.foldl (fun n c => n * 10 + digitValue c) i := fun ds => by
      induction ds with
      | nil => exact fun _ => le_rfl
      | cons c ds ih => exact fun i => (by omega : i ≤ i * 10 + digitValue c).trans (ih _)
    have hle := hmono ds (i * 10 + digitValue c)
    rw [List.foldl_cons] at hlt
    have hint : int (i * 10 + c.toNat - 0x30) = ((i * 10 + digitValue c : ℕ) : ℤ) := by
      rw [int_of_bounds (by omega) (by omega)]
      omega
    rw [List.cons_append, List.foldl_cons, ← ih _ (fun d h => hd d (List.mem_cons_of_mem c h)) hlt,
      skipAtoi, if_pos hc, hint]

theorem decimal_isDigit (hc : c ∈ decimal n) : isDigit c = true := by
  have hm : c ∈ tmpOf n 10 {} := List.mem_reverse.mp hc
  unfold tmpOf at hm
  split_ifs at hm with h
  · rw [List.mem_singleton.mp hm]
    decide
  · rw [digitLoop_eq (by decide)] at hm
    obtain ⟨d, hd, rfl⟩ := List.mem_map.mp hm
    have hlt : d < 10 := Nat.digits_lt_base (by decide) hd
    rw [isDigit_iff, digit_toNat (by omega), if_pos hlt]
    omega

theorem skipAtoi_decimal (hn : n < 2 ^ 31) (hrest : isDigit (deref rest) = false) :
    skipAtoi 0 (decimal n ++ rest) = ((n : ℤ), rest) := by
  have hvalue : (decimal n).foldl (fun n c => n * 10 + digitValue c) 0 = n :=
    readDigits_tmpOf n {} (by decide) (by decide)
  have h := skipAtoi_digits (decimal n) 0 (fun c hc => decimal_isDigit hc) hrest (by rw [hvalue]; exact hn)
  rwa [hvalue] at h

/-- The first digit of a positive width is not the flag `0`. -/
theorem exists_decimal (hn : 0 < n) : ∃ d u, decimal n = d :: u ∧ isDigit d = true ∧ d ≠ 0x30 := by
  have hne : Nat.digits 10 n ≠ [] := Nat.digits_ne_nil_iff_ne_zero.mpr (by omega)
  set ds := Nat.digits 10 n with hds
  have hlast : ds.getLast hne ≠ 0 := Nat.getLast_digit_ne_zero 10 (by omega)
  have hlt : ds.getLast hne < 10 := Nat.digits_lt_base (by decide) (List.getLast_mem hne)
  have hdec : decimal n = digit false (ds.getLast hne) :: (ds.dropLast.map (digit false)).reverse := by
    calc decimal n = (ds.map (digit false)).reverse := by
          unfold decimal tmpOf
          rw [if_neg (by omega), digitLoop_eq (by decide)]
      _ = ((ds.dropLast ++ [ds.getLast hne]).map (digit false)).reverse := by rw [List.dropLast_append_getLast]
      _ = _ := by simp
  have hnat : (digit false (ds.getLast hne)).toNat = _ := digit_toNat (by omega)
  rw [if_pos hlt] at hnat
  refine ⟨_, _, hdec, isDigit_iff.mpr (by omega), fun h => ?_⟩
  have := congrArg BitVec.toNat h
  rw [hnat] at this
  change 0x30 + ds.getLast hne = 0x30 at this
  omega

/-! What stands behind each field of a directive does not go on with it. -/

theorem IsConversion.ne {x : Byte} (h : IsConversion c)
    (hx : x ∈ [0x2d, 0x2b, 0x20, 0x23, 0x2a, 0x2e, 0x68, 0x6c, 0x4c, EOS]) :
    c ≠ x := h.2 x hx

variable {q : Option Byte}

theorem parseQualifier_chars (hq : ∀ x ∈ q, x ∈ [0x68, 0x6c, 0x4c]) (hc : IsConversion c) :
    parseQualifier (q.toList ++ c :: rest) = c :: rest := by
  cases q with
  | none =>
    have hno : ¬ (c = 0x68 ∨ c = 0x6c ∨ c = 0x4c) := by
      rintro (h | h | h)
      all_goals exact hc.2 _ (by decide) h
    exact if_neg hno
  | some x =>
    have hyes : x = 0x68 ∨ x = 0x6c ∨ x = 0x4c := by simpa using hq x rfl
    exact if_pos hyes

theorem qualifier_stops (rest : Str) (hq : ∀ x ∈ q, x ∈ [0x68, 0x6c, 0x4c]) (hc : IsConversion c) :
    isDigit (deref (q.toList ++ c :: rest)) = false ∧
      deref (q.toList ++ c :: rest) ∉ [0x2d, 0x2b, 0x20, 0x23, 0x2a, 0x2e] := by
  cases q with
  | none =>
    refine ⟨hc.1, fun h => hc.2 _ (List.mem_append_left [0x68, 0x6c, 0x4c, EOS] h) rfl⟩
  | some x =>
    have hall : ∀ x : Byte, x ∈ [0x68, 0x6c, 0x4c] →
        isDigit x = false ∧ x ∉ [0x2d, 0x2b, 0x20, 0x23, 0x2a, 0x2e] := by decide
    exact hall x (hq x rfl)

variable {w : Width} {p : Precision}

theorem precision_stops
    (hstop : isDigit (deref rest) = false ∧ deref rest ∉ [0x2d, 0x2b, 0x20, 0x23, 0x2a, 0x2e]) :
    isDigit (deref (p.chars ++ rest)) = false ∧ deref (p.chars ++ rest) ∉ [0x2d, 0x2b, 0x20, 0x23, 0x2a] := by
  cases p with
  | none => exact ⟨hstop.1, fun h => hstop.2 (List.mem_append_left [0x2e] h)⟩
  | dot => exact ⟨rfl, by change (0x2e : Byte) ∉ _; decide⟩
  | num n => exact ⟨rfl, by change (0x2e : Byte) ∉ _; decide⟩

theorem width_stops (hw : ∀ n, w = .num n → 0 < n)
    (hstop : isDigit (deref rest) = false ∧ deref rest ∉ [0x2d, 0x2b, 0x20, 0x23, 0x2a]) (f : Flag) :
    deref (w.chars ++ rest) ≠ f.char := by
  cases w with
  | none =>
    intro h
    cases f with
    | zero => exact absurd (h ▸ hstop.1) (by decide)
    | _ => exact hstop.2 (by change deref rest = _ at h; rw [h]; decide)
  | star =>
    change (0x2a : Byte) ≠ _
    cases f <;> decide
  | num n =>
    obtain ⟨d, u, hdec, hdig, hne⟩ := exists_decimal (hw n rfl)
    have hhead : deref ((Width.num n).chars ++ rest) = d := by
      change deref (decimal n ++ rest) = d
      rw [hdec]
      rfl
    rw [hhead]
    cases f with
    | zero => exact hne
    | _ =>
      intro h
      rw [h] at hdig
      exact absurd hdig (by decide)

theorem parseWidth_chars (hpos : ∀ n, w = .num n → 0 < n) (hlt : ∀ n, w = .num n → n < 2 ^ 31)
    (hdig : isDigit (deref rest) = false) (hstar : deref rest ≠ 0x2a) :
    parseWidth flags (w.chars ++ rest) va =
      ((w.value flags va).1, (w.value flags va).2.1, rest, (w.value flags va).2.2) := by
  unfold parseWidth
  cases w with
  | none =>
    change (if isDigit (deref rest) then _ else if deref rest = 0x2a then _ else (-1, flags, rest, va)) = _
    rw [hdig, if_neg Bool.false_ne_true, if_neg hstar]
    rfl
  | star =>
    have hno : isDigit (deref (Width.star.chars ++ rest)) = false := rfl
    have hyes : deref (Width.star.chars ++ rest) = 0x2a := rfl
    have htail : (Width.star.chars ++ rest).tail = rest := rfl
    rw [hno, if_neg Bool.false_ne_true, if_pos hyes, htail]
    by_cases hneg : va.int.1 < 0
    · simp only [Width.value, if_pos hneg]
    · simp only [Width.value, if_neg hneg]
  | num n =>
    obtain ⟨d, u, hdec, hd, -⟩ := exists_decimal (hpos n rfl)
    have hyes : isDigit (deref ((Width.num n).chars ++ rest)) = true := by
      change isDigit (deref (decimal n ++ rest)) = true
      rw [hdec]
      exact hd
    have hread : skipAtoi 0 ((Width.num n).chars ++ rest) = ((n : ℤ), rest) :=
      skipAtoi_decimal (hlt n rfl) hdig
    rw [if_pos hyes, hread]
    rfl

theorem exists_decimal' (n : ℕ) : ∃ d u, decimal n = d :: u ∧ isDigit d = true := by
  obtain rfl | hn := Nat.eq_zero_or_pos n
  · exact ⟨0x30, [], rfl, rfl⟩
  · obtain ⟨d, u, hdec, hd, -⟩ := exists_decimal hn
    exact ⟨d, u, hdec, hd⟩

theorem parsePrecision_chars (hlt : ∀ n, p = .num n → n < 2 ^ 31) (hdig : isDigit (deref rest) = false)
    (hstop : deref rest ∉ [0x2a, 0x2e]) : parsePrecision (p.chars ++ rest) va = (p.value, rest, va) := by
  have hstar : deref rest ≠ 0x2a := fun h => hstop (by rw [h]; decide)
  have hdot : deref rest ≠ 0x2e := fun h => hstop (by rw [h]; decide)
  unfold parsePrecision
  cases p with
  | none => exact if_neg hdot
  | dot =>
    have hyes : deref (Precision.dot.chars ++ rest) = 0x2e := rfl
    have htail : (Precision.dot.chars ++ rest).tail = rest := rfl
    have hfield : precisionField rest va = (-1, rest, va) := by
      unfold precisionField
      rw [hdig, if_neg Bool.false_ne_true, if_neg hstar]
    rw [if_pos hyes, htail, hfield]
    rfl
  | num n =>
    have hyes : deref ((Precision.num n).chars ++ rest) = 0x2e := rfl
    have htail : ((Precision.num n).chars ++ rest).tail = decimal n ++ rest := rfl
    obtain ⟨d, u, hdec, hd⟩ := exists_decimal' n
    have hfield : precisionField (decimal n ++ rest) va = ((n : ℤ), rest, va) := by
      have hyes : isDigit (deref (decimal n ++ rest)) = true := by
        rw [hdec]
        exact hd
      unfold precisionField
      rw [if_pos hyes, skipAtoi_decimal (hlt n rfl) hdig]
    have hnn : ¬ ((n : ℤ) < 0) := by omega
    rw [if_pos hyes, htail, hfield]
    simp only [if_neg hnn]
    rfl

theorem directive_chars {d : Directive} (hd : d.Proper) (rest : Str) (done : ℕ) (va : Va) :
    directive (d.chars.tail ++ rest) done va = (d.render done va).map fun r => (r.1, rest, r.2) := by
  have hq := qualifier_stops rest hd.qualifier hd.conversion
  have hp := precision_stops (p := d.precision) hq
  have hw := width_stops (w := d.width) hd.pos hp
  have hchars : d.chars.tail ++ rest = d.flags.map Flag.char ++ (d.width.chars ++ (d.precision.chars ++
      (d.qualifier.toList ++ d.conversion :: rest))) := by
    simp [Directive.chars]
  have hstar : deref (d.precision.chars ++ (d.qualifier.toList ++ d.conversion :: rest)) ≠ 0x2a :=
    fun h => hp.2 (by rw [h]; decide)
  have hlate : deref (d.qualifier.toList ++ d.conversion :: rest) ∉ [0x2a, 0x2e] := fun h =>
    hq.2 (List.mem_append_right [0x2d, 0x2b, 0x20, 0x23] h)
  have heos : ¬ deref (d.conversion :: rest) = EOS := hd.conversion.2 _ (by decide)
  unfold directive
  rw [hchars, parseFlags_chars d.flags hw]
  simp only [parseWidth_chars hd.pos hd.width hp.1 hstar, parsePrecision_chars hd.precision hq.1 hlate,
    parseQualifier_chars hd.qualifier hd.conversion, if_neg heos, List.tail_cons]
  rfl

theorem vsprintfLoop_items (items : List Item) (h : ∀ i ∈ items, i.Proper) (out : Str) (va : Va) :
    vsprintfLoop out va (items.flatMap Item.chars) = renderAll out va items := by
  induction items generalizing out va with
  | nil =>
    rw [List.flatMap_nil, vsprintfLoop]
    rfl
  | cons i items ih =>
    have hi := h i List.mem_cons_self
    have ih := ih fun i hm => h i (List.mem_cons_of_mem _ hm)
    rw [List.flatMap_cons]
    cases i with
    | lit c =>
      have hcons : (Item.lit c).chars ++ items.flatMap Item.chars = c :: items.flatMap Item.chars := rfl
      rw [hcons, vsprintfLoop, if_neg hi.2, if_pos hi.1, ih]
      rfl
    | dir d =>
      have hcons : (Item.dir d).chars ++ items.flatMap Item.chars =
        0x25 :: (d.chars.tail ++ items.flatMap Item.chars) := rfl
      have hdir := directive_chars hi (items.flatMap Item.chars) out.length va
      rw [hcons, vsprintfLoop, if_neg (by decide), if_neg (by decide)]
      unfold renderAll
      cases hr : d.render out.length va with
      | none =>
        rw [hr] at hdir
        split
        · rfl
        · rename_i heq
          exact absurd (heq.symm.trans hdir) (Option.some_ne_none _)
      | some r =>
        rw [hr] at hdir
        split
        · rename_i heq
          exact absurd (hdir.symm.trans heq) (Option.some_ne_none _)
        · rename_i heq
          rw [hdir] at heq
          obtain ⟨rfl, rfl, rfl⟩ := (Prod.mk.inj (Option.some.inj heq)).imp_right Prod.mk.inj
          exact ih _ _

/-- `vsprintf` finds the items of a format put together of literals and directives, stores what they stand
for, and fails where that is 1024 bytes or longer. -/
theorem vsprintf_items (m : Bytes) (args : ℕ) (items : List Item) (h : ∀ i ∈ items, i.Proper) :
    vsprintf m (items.flatMap Item.chars) args = (renderAll [] ⟨m, args⟩ items).bind fun r =>
      if r.1.length < 1024 then some (r.1, r.2.mem) else none := by
  unfold vsprintf
  rw [vsprintfLoop_items items h]
  rfl

/-- `x=%08x` -/
def hexItems : List Item :=
  [.lit 0x78, .lit 0x3d, .dir ⟨[.zero], .num 8, .none, none, 0x78⟩]

theorem hexItems_proper : ∀ i ∈ hexItems, i.Proper := by
  intro i hi
  obtain rfl | rfl | rfl : i = .lit 0x78 ∨ i = .lit 0x3d ∨ i = .dir ⟨[.zero], .num 8, .none, none, 0x78⟩ := by
    simpa [hexItems] using hi
  · exact ⟨by decide, by decide⟩
  · exact ⟨by decide, by decide⟩
  · exact
      { pos := fun n h => by cases h; decide
        width := fun n h => by cases h; decide
        precision := fun n h => nomatch h
        qualifier := fun q h => nomatch h
        conversion := ⟨rfl, by decide⟩ }

theorem vsprintf_items_hex : vsprintf (fun _ => 0x41) (hexItems.flatMap Item.chars) 0x1000 =
    (renderAll [] ⟨fun _ => 0x41, 0x1000⟩ hexItems).bind fun r =>
      if r.1.length < 1024 then some (r.1, r.2.mem) else none :=
  vsprintf_items _ _ hexItems hexItems_proper

end Onix.Printf
