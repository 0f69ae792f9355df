import Onix.Spec.Path

/-! `lib/vsprintf.c`. What is stored from `buf` on is a list; the arguments and the strings they
point to are in memory, which `buf` is taken to be apart from. -/

namespace Onix.Printf

open Cstr

/-- The value of an `int` computed as `x`. -/
def int (x : ℤ) : ℤ := x.bmod (2 ^ 32)

/-- The bits of `flags`. -/
structure Flags where
  zeropad : Bool := false
  sign : Bool := false
  plus : Bool := false
  space : Bool := false
  left : Bool := false
  special : Bool := false
  small : Bool := false
  deriving DecidableEq

def isDigit (c : Byte) : Bool := 0x30 ≤ c.toNat && c.toNat ≤ 0x39

/-- `skip_atoi` from the value `i` on, and what it leaves of the string. -/
def skipAtoi (i : ℤ) : Str → ℤ × Str
  | [] => (i, [])
  | c :: s => if isDigit c then skipAtoi (int (i * 10 + c.toNat - 0x30)) s else (i, c :: s)

/-- `digits[index]`. -/
def digit (small : Bool) (index : ℕ) : Byte :=
  BitVec.ofNat 8 (if index < 10 then 0x30 + index else (if small then 0x61 else 0x41) + (index - 10))

/-- The loop that fills `tmp`. -/
def digitLoop (small : Bool) (base num : ℕ) : Str :=
  if num = 0 ∨ base < 2 then []
  else digit small (num % base) :: digitLoop small base (num / base)
termination_by num
decreasing_by exact Nat.div_lt_self (by omega) (by omega)

/-- `while (size-- > 0) *str++ = c;`: what it stores and the `size` it leaves. -/
def pad (c : Byte) (size : ℤ) : Str × ℤ :=
  if 0 < size then (List.replicate size.toNat c, -1) else ([], int (size - 1))

/-- The sign of `number`; `num` is unsigned, so it is never below 0. -/
def signOf (num : ℕ) (flags : Flags) : Str :=
  if flags.sign && decide (num < 0) then [0x2d]
  else if flags.plus then [0x2b] else if flags.space then [0x20] else []

/-- What `SPECIAL` puts before the digits. -/
def markOf (base : ℕ) (flags : Flags) : Str :=
  if flags.special then
    if base = 8 then [0x30] else if base = 16 then [0x30, digit flags.small 33] else []
  else []

/-- `tmp`, the digits with the last one first. -/
def tmpOf (num base : ℕ) (flags : Flags) : Str := if num = 0 then [0x30] else digitLoop flags.small base num

/-- `number`, what it stores; `none` where it returns 0. -/
def number (num base : ℕ) (size precision : ℤ) (flags : Flags) : Option Str :=
  let zeropad := flags.zeropad && !flags.left
  let c : Byte := if zeropad then 0x30 else 0x20
  let sign := signOf num flags
  let size := if sign = [] then size else int (size - 1)
  let size := if flags.special then
      if base = 16 then int (size - 2) else if base = 8 then int (size - 1) else size
    else size
  let tmp := tmpOf num base flags
  let precision : ℤ := if precision < tmp.length then tmp.length else precision
  let size := int (size - precision)
  let before := if zeropad || flags.left then ([], size) else pad 0x20 size
  let fill := if flags.left then ([], before.2) else pad c before.2
  let zeros := List.replicate (precision - tmp.length).toNat 0x30
  let after := pad 0x20 fill.2
  if base < 2 ∨ 36 < base then none
  else some (before.1 ++ sign ++ markOf base flags ++ fill.1 ++ zeros ++ tmp.reverse ++ after.1)

/-- The memory and `args`. -/
structure Va where
  mem : Bytes
  ap : ℕ

/-- `va_arg` of a word. -/
def Va.arg (va : Va) : ℕ × Va := (va.mem.rd32 va.ap, { va with ap := va.ap + 4 })

/-- `va_arg(args, int)` -/
def Va.int (va : Va) : ℤ × Va := (Printf.int va.arg.1, va.arg.2)

/-- The characters of the string at `s`, of which an address space holds at most `n`. -/
def strAt (m : Bytes) (s : ℕ) : ℕ → Str
  | 0 => []
  | n + 1 => if m s = EOS then [] else m s :: strAt m (s + 1) n

/-- The loop over the flag characters, which starts behind the `%`. -/
def parseFlags (flags : Flags) : Str → Flags × Str
  | [] => (flags, [])
  | c :: fmt =>
    if c = 0x2d then parseFlags { flags with left := true } fmt
    else if c = 0x2b then parseFlags { flags with plus := true } fmt
    else if c = 0x20 then parseFlags { flags with space := true } fmt
    else if c = 0x23 then parseFlags { flags with special := true } fmt
    else if c = 0x30 then parseFlags { flags with zeropad := true } fmt
    else (flags, c :: fmt)

/-- The field width. -/
def parseWidth (flags : Flags) (fmt : Str) (va : Va) : ℤ × Flags × Str × Va :=
  if isDigit (deref fmt) then ((skipAtoi 0 fmt).1, flags, (skipAtoi 0 fmt).2, va)
  else if deref fmt = 0x2a then
    if va.int.1 < 0 then (int (-va.int.1), { flags with left := true }, fmt.tail, va.int.2)
    else (va.int.1, flags, fmt.tail, va.int.2)
  else (-1, flags, fmt, va)

/-- The precision behind its `.`; behind a `*` the source does not go on. -/
def precisionField (fmt : Str) (va : Va) : ℤ × Str × Va :=
  if isDigit (deref fmt) then ((skipAtoi 0 fmt).1, (skipAtoi 0 fmt).2, va)
  else if deref fmt = 0x2a then (va.int.1, fmt, va.int.2)
  else (-1, fmt, va)

def parsePrecision (fmt : Str) (va : Va) : ℤ × Str × Va :=
  if deref fmt = 0x2e then
    let p := precisionField fmt.tail va
    (if p.1 < 0 then 0 else p.1, p.2)
  else (-1, fmt, va)

/-- The length modifier, which is not used. -/
def parseQualifier (fmt : Str) : Str :=
  if deref fmt = 0x68 ∨ deref fmt = 0x6c ∨ deref fmt = 0x4c then fmt.tail else fmt

/-- `case 'c'` -/
def convertChar (flags : Flags) (width : ℤ) (va : Va) : Str × Va :=
  let (arg, va) := va.arg
  let loop (w : ℤ) : Str × ℤ :=
    if 0 < int (w - 1) then (List.replicate (int (w - 1)).toNat 0x20, 0) else ([], int (w - 1))
  let (before, width) := if flags.left then ([], width) else loop width
  (before ++ [BitVec.ofNat 8 arg] ++ (loop width).1, va)

/-- `case 's'` -/
def convertStr (flags : Flags) (width precision : ℤ) (va : Va) : Str × Va :=
  let (s, va) := va.arg
  let str := strAt va.mem s (2 ^ 32)
  let len : ℤ := if precision < 0 then str.length else if precision < str.length then precision else str.length
  let loop (w : ℤ) : Str × ℤ :=
    if len < w then (List.replicate (w - len).toNat 0x20, len - 1) else ([], int (w - 1))
  let (before, width) := if flags.left then ([], width) else loop width
  (before ++ str.take len.toNat ++ (loop width).1, va)

/-- The conversion `c`, when `done` bytes have been stored. -/
def convert (flags : Flags) (width precision : ℤ) (c : Byte) (done : ℕ) (va : Va) : Option (Str × Va) :=
  let num (base : ℕ) (width : ℤ) (flags : Flags) : Option (Str × Va) :=
    (number va.arg.1 base width precision flags).map fun str => (str, va.arg.2)
  if c = 0x63 then some (convertChar flags width va)
  else if c = 0x73 then some (convertStr flags width precision va)
  else if c = 0x6f then num 8 width flags
  else if c = 0x70 then
    if width = -1 then num 16 8 { flags with zeropad := true } else num 16 width flags
  else if c = 0x78 then num 16 width { flags with small := true }
  else if c = 0x58 then num 16 width flags
  else if c = 0x64 ∨ c = 0x69 then num 10 width { flags with sign := true }
  else if c = 0x75 then num 10 width flags
  else if c = 0x6e then
    let (ip, va) := va.arg
    some ([], { va with mem := va.mem.wr32 ip done })
  else some ((if c ≠ 0x25 then [0x25] else []) ++ (if c ≠ EOS then [c] else []), va)

/-- One directive, behind its `%`: what it stores, and what it leaves of the format. At the end of the
format the loop stops. -/
def directive (fmt : Str) (done : ℕ) (va : Va) : Option (Str × Str × Va) :=
  let f := parseFlags {} fmt
  let w := parseWidth f.1 f.2 va
  let p := parsePrecision w.2.2.1 w.2.2.2
  let fmt := parseQualifier p.2.1
  (convert w.2.1 w.1 p.1 (deref fmt) done p.2.2).map fun r =>
    (r.1, if deref fmt = EOS then [] else fmt.tail, r.2)

theorem skipAtoi_length (i : ℤ) (fmt : Str) : (skipAtoi i fmt).2.length ≤ fmt.length := by
  induction fmt generalizing i with
  | nil => exact le_rfl
  | cons c s ih =>
    unfold skipAtoi
    split_ifs
    · exact (ih _).trans (Nat.le_succ _)
    · exact le_rfl

theorem parseFlags_length (flags : Flags) (fmt : Str) : (parseFlags flags fmt).2.length ≤ fmt.length := by
  induction fmt generalizing flags with
  | nil => exact le_rfl
  | cons c fmt ih =>
    unfold parseFlags
    split_ifs <;> first | exact (ih _).trans (Nat.le_succ _) | exact le_rfl

theorem tail_length (fmt : Str) : fmt.tail.length ≤ fmt.length := by
  rw [List.length_tail]
  exact Nat.sub_le _ _

theorem parseWidth_length (flags : Flags) (fmt : Str) (va : Va) :
    (parseWidth flags fmt va).2.2.1.length ≤ fmt.length := by
  unfold parseWidth
  split_ifs
  · exact skipAtoi_length 0 fmt
  · exact tail_length fmt
  · exact tail_length fmt
  · exact le_rfl

theorem parsePrecision_length (fmt : Str) (va : Va) : (parsePrecision fmt va).2.1.length ≤ fmt.length := by
  unfold parsePrecision precisionField
  split_ifs
  · exact (skipAtoi_length 0 _).trans (tail_length fmt)
  · exact tail_length fmt
  · exact tail_length fmt
  · exact le_rfl

theorem parseQualifier_length (fmt : Str) : (parseQualifier fmt).length ≤ fmt.length := by
  unfold parseQualifier
  split_ifs
  · exact tail_length fmt
  · exact le_rfl

theorem directive_length {fmt rest str : Str} {done : ℕ} {va va' : Va}
    (h : directive fmt done va = some (str, rest, va')) : rest.length ≤ fmt.length := by
  unfold directive at h
  obtain ⟨r, -, hr⟩ := Option.map_eq_some_iff.mp h
  obtain ⟨-, hrest, -⟩ := (Prod.mk.inj hr).imp_right Prod.mk.inj
  have hflags := parseFlags_length {} fmt
  have hwidth := parseWidth_length (parseFlags {} fmt).1 (parseFlags {} fmt).2 va
  set w := parseWidth (parseFlags {} fmt).1 (parseFlags {} fmt).2 va
  have hprec := parsePrecision_length w.2.2.1 w.2.2.2
  set p := parsePrecision w.2.2.1 w.2.2.2
  have hqual := parseQualifier_length p.2.1
  have htail := tail_length (parseQualifier p.2.1)
  rw [← hrest]
  split_ifs
  · exact Nat.zero_le _
  · omega

/-- The loop of `vsprintf`, when `out` has been stored. -/
def vsprintfLoop (out : Str) (va : Va) : (fmt : Str) → Option (Str × Va)
  | [] => some (out, va)
  | c :: fmt =>
    if c = EOS then some (out, va)
    else if c ≠ 0x25 then vsprintfLoop (out ++ [c]) va fmt
    else
      match _h : directive fmt out.length va with
      | none => none
      | some (str, rest, va) => vsprintfLoop (out ++ str) va rest
termination_by fmt => fmt.length
decreasing_by
  · exact Nat.lt_succ_self _
  · exact Nat.lt_succ_of_le (directive_length _h)

/-- `vsprintf`: `buf` holds the result and an `EOS`, the length is returned. The assertion comes after
the stores. -/
def vsprintf (m : Bytes) (fmt : Str) (args : ℕ) : Option (Str × Bytes) := do
  let (out, va) ← vsprintfLoop [] ⟨m, args⟩ fmt
  if out.length < 1024 then some (out, va.mem) else none

end Onix.Printf
