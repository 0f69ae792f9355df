import Onix.Spec.Printf

/-! What `number` writes is as wide as asked for, and reads back as the number. -/

namespace Onix.Printf

open Cstr

variable {num base : ℕ} {size precision : ℤ} {flags : Flags} {small : Bool} {c : Byte} {s : Str} {n : ℕ}

theorem int_of_bounds {x : ℤ} (h₁ : -2 ^ 31 ≤ x) (h₂ : x < 2 ^ 31) : int x = x := by
  unfold int
  exact Int.bmod_eq_of_le (by omega) (by omega)

/-- The value of a digit. -/
def digitValue (c : Byte) : ℕ :=
  if c.toNat < 0x3a then c.toNat - 0x30
  else if c.toNat < 0x5b then c.toNat - 0x41 + 10 else c.toNat - 0x61 + 10

theorem digit_toNat (h : n < 36) : (digit small n).toNat =
    if n < 10 then 0x30 + n else (if small then 0x61 else 0x41) + (n - 10) := by
  unfold digit
  rw [BitVec.toNat_ofNat, Nat.mod_eq_of_lt]
  split_ifs <;> omega

theorem digitValue_digit (h : n < 36) : digitValue (digit small n) = n := by
  unfold digitValue
  rw [digit_toNat h]
  split_ifs <;> omega

theorem digit_ne_space (h : n < 36) : digit small n ≠ 0x20 := by
  intro hc
  have := congrArg BitVec.toNat hc
  rw [digit_toNat h] at this
  change _ = 0x20 at this
  split_ifs at this <;> omega

theorem digitLoop_eq (hb : 2 ≤ base) :
    digitLoop small base num = (Nat.digits base num).map (digit small) := by
  induction num using Nat.strong_induction_on with
  | _ num ih =>
    unfold digitLoop
    by_cases h : num = 0
    · rw [if_pos (.inl h), h, Nat.digits_zero, List.map_nil]
    · rw [if_neg (by omega), ih _ (Nat.div_lt_self (by omega) (by omega)),
        Nat.digits_def' (show 1 < base by omega) (show 0 < num by omega), List.map_cons]

/-- Reading digits. -/
def readDigits (base : ℕ) (s : Str) : ℕ := s.foldl (fun n c => n * base + digitValue c) 0

/-- A reader of what `number` writes: blanks, a sign, the mark of the base, digits, blanks. -/
def readNumber (base : ℕ) (special : Bool) (s : Str) : ℕ :=
  let s := s.dropWhile (· = 0x20)
  let s := if deref s = 0x2b then s.tail else s
  let s := if special && base == 16 then s.drop 2 else s
  readDigits base (s.takeWhile (· ≠ 0x20))

theorem pad_of_pos (h : 0 < size) : pad c size = (List.replicate size.toNat c, -1) := if_pos h

theorem pad_of_nonpos (h : size ≤ 0) (hlo : -2 ^ 31 < size) : pad c size = ([], size - 1) := by
  unfold pad
  rw [if_neg (by omega), int_of_bounds (by omega) (by omega)]

/-- The number of digits with the zeros that the precision asks for. -/
def digitCount (num base : ℕ) (precision : ℤ) (flags : Flags) : ℕ :=
  max precision.toNat (tmpOf num base flags).length

/-- What is missing to the field width. -/
def missing (num base : ℕ) (size precision : ℤ) (flags : Flags) : ℕ :=
  (size - ((signOf num flags).length + (markOf base flags).length +
    digitCount num base precision flags)).toNat

/-- What `number` writes: padded with blanks on the left, with zeros behind the sign and the mark, or with
blanks on the right. -/
def numberText (num base : ℕ) (size precision : ℤ) (flags : Flags) : Str :=
  let fill (c : Byte) : Str := List.replicate (missing num base size precision flags) c
  let digits := List.replicate (digitCount num base precision flags - (tmpOf num base flags).length) 0x30 ++
    (tmpOf num base flags).reverse
  let body (zeros : Str) := signOf num flags ++ markOf base flags ++ zeros ++ digits
  if flags.left then body [] ++ fill 0x20
  else if flags.zeropad then body (fill 0x30)
  else fill 0x20 ++ body []

theorem tmpOf_length (flags : Flags) (hb : 2 ≤ base) (hnum : num < 2 ^ 32) :
    (tmpOf num base flags).length ≤ 32 := by
  unfold tmpOf
  split_ifs with h
  · decide
  · rw [digitLoop_eq hb, List.length_map]
    exact (Nat.digits_length_le_iff hb num).mpr (hnum.trans_le (Nat.pow_le_pow_left hb 32))

theorem signOf_length (num : ℕ) (flags : Flags) : (signOf num flags).length ≤ 1 := by
  unfold signOf
  split_ifs <;> decide

theorem markOf_length (base : ℕ) (flags : Flags) : (markOf base flags).length ≤ 2 := by
  unfold markOf
  split_ifs <;> simp

/-- The width that is left for padding, as `number` computes it. -/
theorem size_eq (hlo : -1 ≤ size) (hhi : size < 2 ^ 31) :
    (if flags.special then
      if base = 16 then int ((if signOf num flags = [] then size else int (size - 1)) - 2)
      else if base = 8 then int ((if signOf num flags = [] then size else int (size - 1)) - 1)
      else if signOf num flags = [] then size else int (size - 1)
    else if signOf num flags = [] then size else int (size - 1)) =
      size - (signOf num flags).length - (markOf base flags).length := by
  have hsign : (if signOf num flags = [] then size else int (size - 1)) =
      size - (signOf num flags).length := by
    have hle := signOf_length num flags
    by_cases h : signOf num flags = []
    · rw [if_pos h, h, List.length_nil]
      omega
    · have hlt := List.length_pos_iff.mpr h
      rw [if_neg h, int_of_bounds (by omega) (by omega)]
      omega
  have hle := signOf_length num flags
  rw [hsign]
  unfold markOf
  by_cases hsp : flags.special
  · simp only [if_pos hsp]
    by_cases h16 : base = 16
    · subst h16
      rw [if_pos rfl, if_neg (by decide), if_pos rfl, int_of_bounds (by omega) (by omega)]
      rfl
    · by_cases h8 : base = 8
      · subst h8
        rw [if_neg (by decide), if_pos rfl, if_pos rfl, int_of_bounds (by omega) (by omega)]
        rfl
      · rw [if_neg h16, if_neg h8, if_neg h8, if_neg h16]
        exact (Int.sub_zero _).symm
  · rw [if_neg hsp, if_neg hsp]
    exact (Int.sub_zero _).symm

theorem number_eq (hb : 2 ≤ base) (hb' : base ≤ 36) (hnum : num < 2 ^ 32) (hlo : -1 ≤ size)
    (hhi : size < 2 ^ 31) (hp : -2 ^ 31 ≤ precision ∧ precision < 2 ^ 30) :
    number num base size precision flags = some (numberText num base size precision flags) := by
  have htmp := tmpOf_length flags hb hnum
  have hsign := signOf_length num flags
  have hmark := markOf_length base flags
  have hprec : (if precision < (tmpOf num base flags).length
      then ((tmpOf num base flags).length : ℤ) else precision) = digitCount num base precision flags := by
    unfold digitCount
    split_ifs <;> omega
  have hcount : (digitCount num base precision flags : ℤ) < 2 ^ 30 := by
    unfold digitCount
    omega
  have hbad : ¬ (base < 2 ∨ 36 < base) := by omega
  unfold number
  simp only [size_eq hlo hhi, hprec, if_neg hbad]
  set x : ℤ := size - (signOf num flags).length - (markOf base flags).length - digitCount num base precision flags with hx
  have hxint : int x = x := int_of_bounds (by omega) (by omega)
  have hmiss : missing num base size precision flags = x.toNat := by
    unfold missing
    rw [hx]
    congr 1
    ring
  unfold numberText
  rw [hmiss, hxint]
  have hzeros : ((digitCount num base precision flags : ℤ) - (tmpOf num base flags).length).toNat =
      digitCount num base precision flags - (tmpOf num base flags).length := by omega
  have hfirst : ∀ c, (pad c x).1 = List.replicate x.toNat c ∧ (pad c x).2 ≤ 0 ∧
      -2 ^ 31 < (pad c x).2 - 2 := fun c => by
    by_cases h : 0 < x
    · rw [pad_of_pos h]
      exact ⟨rfl, by change (-1 : ℤ) ≤ 0; decide, by change (-2 ^ 31 : ℤ) < -1 - 2; decide⟩
    · rw [pad_of_nonpos (by omega) (by omega), Int.toNat_of_nonpos (by omega)]
      exact ⟨rfl, by change x - 1 ≤ 0; omega, by change -2 ^ 31 < x - 1 - 2; omega⟩
  have hlater : ∀ c y, y ≤ 0 → -2 ^ 31 < y → (pad c y).1 = [] ∧ (pad c y).2 = y - 1 := fun c y h₁ h₂ => by
    rw [pad_of_nonpos h₁ h₂]
    exact ⟨rfl, rfl⟩
  rw [hzeros]
  -- of the three loops over `size` the first that runs takes all of it
  cases hl : flags.left with
  | true =>
    obtain ⟨h₁, -, -⟩ := hfirst 0x20#8
    simp [h₁]
  | false =>
    cases hz : flags.zeropad with
    | true =>
      obtain ⟨h₁, h₂, h₃⟩ := hfirst 0x30#8
      obtain ⟨h₄, -⟩ := hlater 0x20#8 (pad 0x30#8 x).2 h₂ (by omega)
      simp [h₁, h₄, ← List.append_assoc]
    | false =>
      obtain ⟨h₁, h₂, h₃⟩ := hfirst 0x20#8
      obtain ⟨h₄, h₅⟩ := hlater 0x20#8 (pad 0x20#8 x).2 h₂ (by omega)
      obtain ⟨h₆, -⟩ := hlater 0x20#8 (pad 0x20#8 (pad 0x20#8 x).2).2 (by omega) (by omega)
      simp [h₁, h₄, h₆]

/-! Reading back. -/

theorem readDigits_append {t : Str} : readDigits base (s ++ t) =
    t.foldl (fun n c => n * base + digitValue c) (readDigits base s) := List.foldl_append

theorem readDigits_zeros : readDigits base (List.replicate n 0x30) = 0 := by
  induction n with
  | zero => rfl
  | succ n ih =>
    rw [List.replicate_succ', readDigits_append, ih]
    simp [digitValue]

theorem readDigits_tmpOf (num : ℕ) (flags : Flags) (hb : 2 ≤ base) (hb' : base ≤ 36) :
    readDigits base (tmpOf num base flags).reverse = num := by
  unfold tmpOf
  split_ifs with h
  · rw [h]
    simp [readDigits, digitValue]
  · have hvalue : (Nat.digits base num).map (fun d => digitValue (digit flags.small d)) =
        Nat.digits base num := by
      refine (List.map_congr_left fun d hd => ?_).trans (List.map_id _)
      exact digitValue_digit ((Nat.digits_lt_base (by omega) hd).trans_le hb')
    have hfold : readDigits base ((Nat.digits base num).map (digit flags.small)).reverse =
        ((Nat.digits base num).map (fun d => digitValue (digit flags.small d))).foldr
          (fun d n => n * base + d) 0 := by
      unfold readDigits
      rw [List.foldl_reverse, List.foldr_map, List.foldr_map]
    have hof : Nat.ofDigits base (Nat.digits base num) =
      (Nat.digits base num).foldr (fun d n => n * base + d) 0 := by
      rw [Nat.ofDigits_eq_foldr]
      congr 1
      funext d n
      rw [Nat.cast_id, Nat.add_comm, Nat.mul_comm]
    rw [digitLoop_eq hb, hfold, hvalue, ← hof, Nat.ofDigits_digits]

theorem tmpOf_ne_nil (num : ℕ) (flags : Flags) (hb : 2 ≤ base) : tmpOf num base flags ≠ [] := by
  unfold tmpOf
  split_ifs with h
  · exact List.cons_ne_nil _ _
  · rw [digitLoop_eq hb]
    exact fun hc => h (Nat.digits_eq_nil_iff_eq_zero.mp (List.map_eq_nil_iff.mp hc))

theorem digit_ne_plus (h : n < 36) : digit small n ≠ 0x2b := by
  intro hc
  have := congrArg BitVec.toNat hc
  rw [digit_toNat h] at this
  change _ = 0x2b at this
  split_ifs at this <;> omega

/-- A digit is neither a blank nor a sign. -/
theorem mem_tmpOf (hb : 2 ≤ base) (hb' : base ≤ 36) (hc : c ∈ tmpOf num base flags) :
    c ≠ 0x20 ∧ c ≠ 0x2b := by
  unfold tmpOf at hc
  split_ifs at hc with h
  · rw [List.mem_singleton.mp hc]
    decide
  · rw [digitLoop_eq hb] at hc
    obtain ⟨d, hd, rfl⟩ := List.mem_map.mp hc
    have hd' : d < 36 := (Nat.digits_lt_base (by omega) hd).trans_le hb'
    exact ⟨digit_ne_space hd', digit_ne_plus hd'⟩

theorem takeWhile_blanks (h : ∀ c ∈ s, c ≠ 0x20) : (s ++ List.replicate n 0x20).takeWhile (· ≠ 0x20) = s := by
  rw [List.takeWhile_append_of_pos (by simpa using h)]
  cases n <;> simp [List.replicate_succ]

theorem dropWhile_blanks {d : Byte} (h : d ≠ 0x20) :
    (List.replicate n 0x20 ++ d :: s).dropWhile (· = 0x20) = d :: s := by
  induction n with
  | zero => simpa using h
  | succ n ih => simpa [List.replicate_succ] using ih

/-- The digits with all that is read as a zero before them. -/
theorem readDigits_padded (hb : 2 ≤ base) (hb' : base ≤ 36) :
    readDigits base (List.replicate n 0x30 ++ (tmpOf num base flags).reverse) = num := by
  have h := readDigits_tmpOf num flags hb hb'
  rw [readDigits_append, readDigits_zeros]
  exact h

/-- What the reader makes of a text behind its blanks and its sign. -/
theorem readNumber_body {d : Byte} {t : Str} (hs : s = d :: t) (hd : d ≠ 0x20) (hd' : d ≠ 0x2b) {a : ℕ}
    (special : Bool) : readNumber base special (List.replicate a 0x20 ++ signOf num flags ++ s) =
      readDigits base ((if special && base == 16 then s.drop 2 else s).takeWhile (· ≠ 0x20)) := by
  subst hs
  unfold readNumber signOf
  have hneg : (flags.sign && decide (num < 0)) = false := by simp
  rw [hneg]
  cases flags.plus with
  | true =>
    have hdrop := dropWhile_blanks (n := a) (d := 0x2b) (s := d :: t) (by decide)
    simp only [Bool.false_eq_true, if_false, if_true, List.append_assoc, List.singleton_append]
    rw [hdrop]
    rfl
  | false =>
    have hdrop := dropWhile_blanks (n := a) (s := t) hd
    have hdrop' := dropWhile_blanks (n := a + 1) (s := t) hd
    have hderef : ¬ deref (d :: t) = 0x2b := hd'
    cases flags.space with
    | true =>
      have hblank : List.replicate a (0x20 : Byte) ++ [0x20] = List.replicate (a + 1) 0x20 :=
        (List.replicate_succ' ..).symm
      simp only [Bool.false_eq_true, if_false, if_true]
      rw [hblank, hdrop', if_neg hderef]
    | false =>
      simp only [Bool.false_eq_true, if_false, List.append_nil]
      rw [hdrop, if_neg hderef]

/-- The text is blanks, a sign, a mark, zeros, digits and blanks, in all its layouts. -/
theorem numberText_parts (num base : ℕ) (size precision : ℤ) (flags : Flags) :
    ∃ a b e, a + b + e = missing num base size precision flags ∧
    numberText num base size precision flags = List.replicate a 0x20 ++ signOf num flags ++
      (markOf base flags ++ (List.replicate
        (b + (digitCount num base precision flags - (tmpOf num base flags).length)) 0x30 ++
          (tmpOf num base flags).reverse) ++
          List.replicate e 0x20) := by
  unfold numberText
  set k := missing num base size precision flags
  cases flags.left with
  | true => exact ⟨0, 0, k, by omega, by simp [List.append_assoc]⟩
  | false =>
    cases flags.zeropad with
    | true => exact ⟨0, k, 0, by omega, by simp [List.append_assoc, ← List.replicate_append_replicate]⟩
    | false => exact ⟨k, 0, 0, by omega, by simp [List.append_assoc]⟩

/-- What stands behind the mark, up to the blanks, is read as the number. -/
theorem takeWhile_digits (hb : 2 ≤ base) (hb' : base ≤ 36) {e : ℕ} :
    readDigits base ((List.replicate n 0x30 ++ (tmpOf num base flags).reverse ++
      List.replicate e 0x20).takeWhile
      (· ≠ 0x20)) = num := by
  rw [takeWhile_blanks, readDigits_padded hb hb']
  intro c hc
  rcases List.mem_append.mp hc with h | h
  · rw [List.eq_of_mem_replicate h]
    decide
  · exact (mem_tmpOf hb hb' (List.mem_reverse.mp h)).1

/-- The first character behind a mark. -/
theorem exists_head (num n : ℕ) (flags : Flags) (hb : 2 ≤ base) (hb' : base ≤ 36) (t : Str) : ∃ d u,
    List.replicate n 0x30 ++ (tmpOf num base flags).reverse ++ t = d :: u ∧ d ≠ 0x20 ∧ d ≠ 0x2b := by
  cases n with
  | zero =>
    obtain ⟨d, u, hu⟩ := List.exists_cons_of_ne_nil (mt List.reverse_eq_nil_iff.mp (tmpOf_ne_nil num flags hb))
    have hd : d ∈ tmpOf num base flags := List.mem_reverse.mp (hu ▸ List.mem_cons_self)
    exact ⟨d, u ++ t, by simp [hu], mem_tmpOf hb hb' hd⟩
  | succ n => exact ⟨0x30, _, rfl, by decide, by decide⟩

/-- `number` writes as many characters as the width asks for, or as the sign, the mark and the digits take,
and they read back as the number. -/
theorem number_reads_back (hb : 2 ≤ base) (hb' : base ≤ 36) (hnum : num < 2 ^ 32) (hlo : -1 ≤ size)
    (hhi : size < 2 ^ 31) (hp : -2 ^ 31 ≤ precision ∧ precision < 2 ^ 30) : ∃ out, number num base size precision flags = some out ∧
      readNumber base flags.special out = num ∧
      (out.length : ℤ) = max size
        ((signOf num flags).length + (markOf base flags).length + digitCount num base precision flags) := by
  refine ⟨_, number_eq hb hb' hnum hlo hhi hp, ?_, ?_⟩
  all_goals
    obtain ⟨a, b, e, hsum, htext⟩ := numberText_parts num base size precision flags
    rw [htext]
  · set n := b + (digitCount num base precision flags - (tmpOf num base flags).length)
    obtain ⟨d, u, hu, hd, hd'⟩ := exists_head num n flags hb hb' (List.replicate e 0x20)
    by_cases hsp : flags.special
    · by_cases h16 : base = 16
      · have hmark : markOf base flags = [0x30, digit flags.small 33] := by
          unfold markOf
          rw [if_pos hsp, if_neg (by omega), if_pos h16]
        have hcons : markOf base flags ++ (List.replicate n 0x30 ++ (tmpOf num base flags).reverse) ++
            List.replicate e 0x20 = 0x30 :: digit flags.small 33 ::
              (List.replicate n 0x30 ++ (tmpOf num base flags).reverse ++ List.replicate e 0x20) := by
          rw [hmark]
          rfl
        rw [readNumber_body hcons (by decide) (by decide), hcons]
        simp only [hsp, h16, beq_self_eq_true, Bool.and_self, if_true]
        exact takeWhile_digits (by decide) (by decide)
      · have hno : (flags.special && base == 16) = false := by simp [h16]
        by_cases h8 : base = 8
        · -- the mark of an octal number is one more zero
          have hmark : markOf base flags = [0x30] := by
            unfold markOf
            rw [if_pos hsp, if_pos h8]
          have hcons : markOf base flags ++ (List.replicate n 0x30 ++ (tmpOf num base flags).reverse) ++
              List.replicate e 0x20 =
                List.replicate (n + 1) 0x30 ++ (tmpOf num base flags).reverse ++ List.replicate e 0x20 := by
            rw [hmark, List.replicate_succ]
            simp only [List.cons_append, List.nil_append, List.append_assoc]
          have hhead : List.replicate (n + 1) 0x30 ++ (tmpOf num base flags).reverse ++
            List.replicate e 0x20 =
            0x30 :: (List.replicate n 0x30 ++ (tmpOf num base flags).reverse ++ List.replicate e 0x20) := rfl
          rw [hcons, readNumber_body hhead (by decide) (by decide), hno]
          exact takeWhile_digits hb hb'
        · have hmark : markOf base flags = [] := by
            unfold markOf
            rw [if_pos hsp, if_neg h8, if_neg h16]
          rw [hmark, List.nil_append, readNumber_body hu hd hd', hno]
          exact takeWhile_digits hb hb'
    · have hmark : markOf base flags = [] := if_neg hsp
      rw [hmark, List.nil_append, readNumber_body hu hd hd']
      simp only [hsp, Bool.false_and, Bool.false_eq_true, if_false]
      exact takeWhile_digits hb hb'
  · have hle : (tmpOf num base flags).length ≤ digitCount num base precision flags := le_max_right _ _
    simp only [List.length_append, List.length_replicate, List.length_reverse]
    unfold missing at hsum
    omega

/-- `%#010X` -/
def hexFlags : Flags := { zeropad := true, special := true }

theorem number_reads_back_hex : ∃ out, number 0xbeef 16 10 (-1) hexFlags = some out ∧
    readNumber 16 hexFlags.special out = 0xbeef ∧ (out.length : ℤ) = max (10 : ℤ)
      ((signOf 0xbeef hexFlags).length + (markOf 16 hexFlags).length + digitCount 0xbeef 16 (-1) hexFlags) :=
  number_reads_back (by decide) (by decide) (by decide) (by decide) (by decide) ⟨by decide, by decide⟩

end Onix.Printf
