import Onix.Lib.Bytes

/-! Path strings: the functions of `fs/namei.c` and `lib/string.c` that walk over
them. A pointer into a string is what is left of it; past the end it reads `EOS`. -/

namespace Onix

/-- A `char *`. -/
abbrev Str := List Byte

namespace Cstr

def SEPARATOR1 : Byte := 0x2f

def SEPARATOR2 : Byte := 0x5c

def EOS : Byte := 0

def DOT : Byte := 0x2e

def NAME_LEN : ℕ := 14

def PAGE_SIZE : ℕ := 4096

/-- `*ptr`. -/
def deref : Str → Byte
  | [] => EOS
  | c :: _ => c

/-- `IS_SEPARATOR(c)`. -/
def isSeparator (c : Byte) : Bool := c == SEPARATOR1 || c == SEPARATOR2

/-- The characters before the end of the string. -/
def chars (str : Str) : Str := str.takeWhile (· != EOS)

/-- `strsep(str)`. -/
def strsep : Str → Option Str
  | [] => none
  | c :: ptr => if isSeparator c then some (c :: ptr) else if c = EOS then none else strsep ptr

/-- `strrsep(str)`. -/
def strrsep : Str → Option Str
  | [] => none
  | c :: ptr =>
    if c = EOS then none
    else
      match strrsep ptr with
      | some last => some last
      | none => if isSeparator c then some (c :: ptr) else none

/-- `match_name(lhs, rhs, next)`: what it leaves in `*next`, where it returns true. -/
def matchName (lhs : Str) (data : Bytes) (rhs : ℕ) : Option Str :=
  match lhs with
  | c :: ptr =>
    if c = data rhs ∧ c ≠ EOS then matchName ptr data (rhs + 1)
    else if data rhs ≠ EOS then none
    else if isSeparator c then some ptr
    else if c ≠ EOS then none
    else some (c :: ptr)
  | [] => if data rhs ≠ EOS then none else some []

/-- `strncpy(dest, src, count)`. -/
def strncpy (dest : Bytes) (i : ℕ) (src : Str) (count : ℕ) : Bytes :=
  dest.write i ((chars src).take (count - 1) ++ [EOS])

/-- `strcpy(dest, src)`. -/
def strcpy (dest : Bytes) (i : ℕ) (src : Str) : Bytes := dest.write i (chars src ++ [EOS])

/-- `*lptr < *rptr ? -1 : *lptr > *rptr`. -/
def compare (l r : Byte) : ℤ := if l.toInt < r.toInt then -1 else if l.toInt > r.toInt then 1 else 0

/-- `memcmp(lhs, rhs, count)`. After `count` equal characters `count--` has wrapped
round and the next two are compared; a difference in the last one leaves `count` 0. -/
def memcmp (lhs rhs : Str) : ℕ → ℤ
  | 0 => compare (deref lhs) (deref rhs)
  | count + 1 =>
    if deref lhs = deref rhs then memcmp lhs.tail rhs.tail count
    else if count = 0 then 0
    else compare (deref lhs) (deref rhs)

/-- `strrsep(pwd) + 1` for the string in the page of `pwd`, from address `i` on. -/
def afterLast (pwd : Bytes) : (n i : ℕ) → Option ℕ → Option ℕ
  | 0, _, _ => none
  | n + 1, i, last =>
    let last := if isSeparator (pwd i) then some (i + 1) else last
    if pwd i = EOS then last else afterLast pwd n (i + 1) last

/-- The steps of `abspath` that go to the parent; the string begins at address 0. -/
def parent (pwd : Bytes) (cur : ℕ) : Option (Bytes × ℕ) :=
  if cur ≠ 1 then do
    let pwd := Function.update pwd (cur - 1) EOS
    let cur ← afterLast pwd PAGE_SIZE 0 none
    some (Function.update pwd cur EOS, cur)
  else some (pwd, cur)

/-- The loop of `abspath`: `pwd`, `cur` and what is left of `pathname` at its end. -/
def abspathLoop : (n : ℕ) → Bytes → ℕ → Str → Option (Bytes × ℕ × Str)
  | 0, pwd, cur, pathname => some (pwd, cur, pathname)
  | n + 1, pwd, cur, pathname =>
    if deref pathname = EOS then some (pwd, cur, pathname)
    else
      match strsep pathname with
      | none => some (pwd, cur, pathname)
      | some ptr =>
        let len := pathname.length - ptr.length + 1
        let pathname := pathname.set (len - 1) SEPARATOR1
        if memcmp pathname [DOT, SEPARATOR1] 2 = 0 then
          abspathLoop n pwd cur (pathname.drop len)
        else if memcmp pathname [DOT, DOT, SEPARATOR1] 3 = 0 then do
          let (pwd, cur) ← parent pwd cur
          abspathLoop n pwd cur (pathname.drop len)
        else
          abspathLoop n (strncpy pwd cur pathname (len + 1)) (cur + len) (pathname.drop len)

/-- `abspath(pwd, pathname)`. -/
def abspath (pwd : Bytes) (pathname : Str) : Option Bytes := do
  let cur ← if isSeparator (deref pathname) then some 1 else afterLast pwd PAGE_SIZE 0 none
  let pwd := Function.update pwd cur EOS
  let pathname := if isSeparator (deref pathname) then pathname.tail else pathname
  let (pwd, cur, pathname) ← abspathLoop pathname.length pwd cur pathname
  if deref pathname = EOS then some pwd
  else if chars pathname = [DOT] then some pwd
  else if chars pathname ≠ [DOT, DOT] then
    some (Function.update (strcpy pwd cur pathname) (cur + (chars pathname).length) SEPARATOR1)
  else do
    let (pwd, _) ← parent pwd cur
    some pwd

end Cstr

end Onix
