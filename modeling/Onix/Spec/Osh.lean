import Onix.Spec.Path

/-! The shell of `builtin/osh.c`: `readline`, `cmd_parse`, and the turn of `osh_main` that runs
a command, with the addresses they store to and the pointers they pass on. -/

namespace Onix.Osh

open Function
open Cstr (EOS DOT compare)

def MAX_CMD_LEN : ℕ := 256

def MAX_ARG_NR : ℕ := 16

def BACKSPACE : Byte := 0x08

def TAB : Byte := 0x09

def NEWLINE : Byte := 0x0a

def RETURN : Byte := 0x0d

def SPACE : Byte := 0x20

/-- Memory, and the addresses that have been stored to. -/
structure Store where
  mem : Bytes
  stored : List ℕ

/-- `*ptr = c`. -/
def Store.put (s : Store) (ptr : ℕ) (c : Byte) : Store := ⟨update s.mem ptr c, s.stored ++ [ptr]⟩

section Readline

/-- `readline` in its loop, with what it has written to `stdout`. -/
structure Reader where
  store : Store
  idx : ℕ
  out : List Byte

def Reader.put (r : Reader) (ptr : ℕ) (c : Byte) : Reader := { r with store := r.store.put ptr c }

def Reader.write (r : Reader) (ch : Byte) : Reader := { r with out := r.out ++ [ch] }

inductive Reading where
  | more (r : Reader)
  | returned (r : Reader)

def Reading.reader : Reading → Reader
  | .more r => r
  | .returned r => r

variable (buf count : ℕ) (m : Bytes) (input : ℕ → Option Byte)

/-- One turn of the loop, or what follows the loop; `none` is a `read` that returns -1. -/
def turn (r : Reader) (c : Option Byte) : Reading :=
  if r.idx < count then
    let ptr := buf + r.idx
    match c with
    | none => .returned (r.put ptr EOS)
    | some c =>
      let r := r.put ptr c
      if c = NEWLINE ∨ c = RETURN then .returned ((r.put ptr EOS).write NEWLINE)
      else if c = BACKSPACE then
        if r.store.mem buf ≠ BACKSPACE then
          .more ({ r with idx := sub32 r.idx 1 }.write BACKSPACE)
        else .more r
      else if c = TAB then .more r
      else .more { r.write c with idx := (r.idx + 1) % 2 ^ 32 }
  else .returned (r.put (buf + r.idx) EOS)

/-- `readline(buf, count)` after `n` turns; the `n`-th `read` delivers `input n`. -/
def readline : (n : ℕ) → Reading
  | 0 => .more ⟨⟨m, []⟩, 0, []⟩
  | n + 1 =>
    match readline n with
    | .more r => turn buf count r (input n)
    | .returned r => .returned r

/-- What a character does to a line. -/
def edit (line : List Byte) (c : Byte) : List Byte :=
  if c = BACKSPACE then line.dropLast else if c = TAB then line else line ++ [c]

/-- The line after `n` characters. -/
def edited : (n : ℕ) → List Byte
  | 0 => []
  | n + 1 =>
    match input n with
    | some c => edit (edited n) c
    | none => edited n

/-- The line ends here. -/
def LineEnd (c : Option Byte) : Prop := c = none ∨ c = some NEWLINE ∨ c = some RETURN

instance (c : Option Byte) : Decidable (LineEnd c) := inferInstanceAs (Decidable (_ ∨ _ ∨ _))

/-- The first `n` characters are part of the line. -/
def Typed (n : ℕ) : Prop := ∀ i < n, ¬ LineEnd (input i)

/-- `readline` stores into the buffer only, it returns at the end of the line, and where it
returns the line is at its end, or there is no room for more, and the buffer holds what fits. -/
structure ReadsLine : Prop where
  inside : ∀ n, ∀ a ∈ (readline buf count m input n).reader.store.stored, buf ≤ a ∧ a < buf + count
  returns : ∀ n, Typed input n → LineEnd (input n) →
    ∃ r, readline buf count m input (n + 1) = .returned r
  line : ∀ n r r', readline buf count m input n = .more r →
    readline buf count m input (n + 1) = .returned r' →
      Typed input n ∧ (LineEnd (input n) ∨ count ≤ (edited input n).length + 1) ∧
        let line := (edited input n).take (count - 1)
        r'.store.mem.read buf (line.length + 1) = line ++ [EOS]

end Readline

section CmdParse

/-- `cmd_parse` at work: memory, the array `argv` and its elements that have been stored to. -/
structure Parse where
  store : Store
  argv : ℕ → ℕ
  slots : List ℕ

def Parse.put (s : Parse) (ptr : ℕ) (c : Byte) : Parse := { s with store := s.store.put ptr c }

/-- `argv[i] = ptr`. -/
def Parse.setArg (s : Parse) (i ptr : ℕ) : Parse :=
  { s with argv := update s.argv i ptr, slots := s.slots ++ [i] }

def NULL : ℕ := 0

/-- `while (p(*next)) next++`. -/
def skip (m : Bytes) (p : Byte → Bool) : (turns next : ℕ) → Option ℕ
  | 0, _ => none
  | n + 1, next => if p (m next) then skip m p n (next + 1) else some next

variable (turns : ℕ) (token : Byte)

/-- The loop of `cmd_parse`; `none` is a loop that has not ended after so many turns. -/
def parseLoop : (n next argc : ℕ) → Parse → Option (ℕ × Parse)
  | 0, _, _, _ => none
  | n + 1, next, argc, s =>
    if s.store.mem next ≠ EOS ∧ argc < MAX_ARG_NR then do
      let next ← skip s.store.mem (fun c => c = token) turns next
      if s.store.mem next = EOS then some (argc, s)
      else
        let s := s.setArg argc next
        let next ← skip s.store.mem (fun c => c ≠ EOS ∧ c ≠ token) turns next
        if s.store.mem next ≠ EOS then parseLoop n (next + 1) (argc + 1) (s.put next EOS)
        else parseLoop n next (argc + 1) s
    else some (argc, s)

/-- `cmd_parse(cmd, argv, token)`, with `argc`. -/
def cmdParse (cmd : ℕ) (m : Bytes) (argv : ℕ → ℕ) : Option (ℕ × Parse) := do
  let (argc, s) ← parseLoop turns token turns cmd 0 ⟨⟨m, []⟩, argv, []⟩
  return (argc, s.setArg argc NULL)

end CmdParse

section Execute

/-- The functions that a command hands pointers to. -/
inductive Callee where
  | strcmp
  | open
  | chdir
  | mkdir
  | rmdir
  | unlink
  | atoi
  deriving DecidableEq

/-- A pointer that is passed on: an element of `argv`, or a string of the shell itself (a
name it compares with, `cwd`, the name in an entry). -/
inductive Pointer where
  | arg (ptr : ℕ)
  | own
  deriving DecidableEq

abbrev Pass := Callee × Pointer

/-- `strcmp` with a string of the shell. -/
def strcmp (m : Bytes) : (lhs : ℕ) → (rhs : Str) → ℤ
  | lhs, [] => compare (m lhs) EOS
  | lhs, c :: rhs => if m lhs = c ∧ m lhs ≠ EOS ∧ c ≠ EOS then strcmp m (lhs + 1) rhs else compare (m lhs) c

def str (cs : List Char) : Str := cs.map fun c => BitVec.ofNat 8 c.toNat

variable (m : Bytes) (argc : ℕ) (argv : ℕ → ℕ) (dir : Option (List Str))

/-- `builtin_ls`; `dir` are the names that `readdir` finds in `cwd`, `none` if `open` fails. -/
def builtinLs : List Pass :=
  (.open, .own) ::
    match dir with
    | none => []
    | some names => names.flatMap fun name =>
      if name = [DOT] then [(.strcmp, .own), (.strcmp, .own)]
      else [(.strcmp, .own), (.strcmp, .own), (.strcmp, .own), (.strcmp, .own)]

/-- `builtin_cd`. -/
def builtinCd : List Pass := [(.chdir, .arg (argv 1))]

/-- `builtin_cat`. -/
def builtinCat : List Pass := [(.open, .arg (argv 1))]

/-- `builtin_mkdir`. -/
def builtinMkdir : List Pass := if argc < 2 then [] else [(.mkdir, .arg (argv 1))]

/-- `builtin_rmdir`. -/
def builtinRmdir : List Pass := if argc < 2 then [] else [(.rmdir, .arg (argv 1))]

/-- `builtin_rm`. -/
def builtinRm : List Pass := if argc < 2 then [] else [(.unlink, .arg (argv 1))]

/-- `exit`, up to the system call. -/
def builtinExit : List Pass := if argc = 2 then [(.atoi, .arg (argv 1))] else []

/-- The commands in the order in which `execute` tries them, with what each passes on. -/
def builtins : List (Str × List Pass) := [
  (str ['t', 'e', 's', 't'], []),
  (str ['l', 'o', 'g', 'o'], []),
  (str ['p', 'w', 'd'], []),
  (str ['c', 'l', 'e', 'a', 'r'], []),
  (str ['e', 'x', 'i', 't'], builtinExit argc argv),
  (str ['l', 's'], builtinLs dir),
  (str ['c', 'd'], builtinCd argv),
  (str ['c', 'a', 't'], builtinCat argv),
  (str ['m', 'k', 'd', 'i', 'r'], builtinMkdir argc argv),
  (str ['r', 'm', 'd', 'i', 'r'], builtinRmdir argc argv),
  (str ['r', 'm'], builtinRm argc argv)]

/-- `if (!strcmp(line, name)) return body` for each name in turn. -/
def dispatch (line : ℕ) : List (Str × List Pass) → List Pass
  | [] => []
  | (name, body) :: rest =>
    (.strcmp, .arg line) :: (.strcmp, .own) ::
      if strcmp m line name = 0 then body else dispatch line rest

/-- `execute(argc, argv)`. -/
def execute : List Pass := dispatch m (argv 0) (builtins argc argv dir)

/-- The turn of `osh_main` behind `readline(cmd, sizeof(cmd))`: the pointers it passes on. -/
def oshMain (turns cmd : ℕ) : Option (List Pass) :=
  if m cmd = EOS then some []
  else do
    let (argc, s) ← cmdParse turns SPACE cmd m argv
    if argc ≥ MAX_ARG_NR then some []
    else some (execute s.store.mem argc s.argv dir)

end Execute

section Words

variable (line : Str)

/-- A run of characters other than spaces begins at `i`. -/
def RunAt (i : ℕ) : Prop :=
  line.getD i SPACE ≠ SPACE ∧ (i = 0 ∨ line.getD (i - 1) SPACE = SPACE)

instance (i : ℕ) : Decidable (RunAt line i) := inferInstanceAs (Decidable (_ ∧ _))

/-- Where the runs begin. -/
def runs : List ℕ := (List.range line.length).filter fun i => RunAt line i

/-- The run that begins at `i`. -/
def run (i : ℕ) : Str := (line.drop i).takeWhile (· ≠ SPACE)

variable (cmd : ℕ)

/-- The command line is in memory at `cmd`. -/
def LineAt (m : Bytes) : Prop :=
  0 < cmd ∧ EOS ∉ line ∧ m.read cmd (line.length + 1) = line ++ [EOS]

/-- `argv` holds pointers to the runs, up to `MAX_ARG_NR` of them, each a string of its own, and
`NULL` behind them; nothing outside of `cmd` and `argv` is stored to. -/
structure Parses (argc : ℕ) (s : Parse) : Prop where
  count : argc = min (runs line).length MAX_ARG_NR
  args : ∀ k i, k < argc → (runs line)[k]? = some i → s.argv k = cmd + i ∧
    s.store.mem.read (cmd + i) ((run line i).length + 1) = run line i ++ [EOS]
  last : s.argv argc = NULL
  inside : ∀ a ∈ s.store.stored, cmd ≤ a ∧ a < cmd + line.length
  slots : ∀ i ∈ s.slots, i < MAX_ARG_NR

/-- Every pointer from `argv` that is passed on is that of a run. -/
def PassesRuns (passes : List Pass) : Prop :=
  ∀ f ptr, (f, Pointer.arg ptr) ∈ passes → ptr ≠ NULL ∧ ∃ i ∈ runs line, ptr = cmd + i

end Words

end Onix.Osh
