import Onix.Lib.Trace
import Onix.Spec.File
import Onix.Spec.Task

/-! The tasks of `task_table` with the table of open files. A call runs to its end: `free_pde` and
the disk operations return. -/

namespace Onix.Fs

open Function Prog Cstr

/-- A slot of `task_table`: `NULL`, a task, or one in the state `TASK_DIED`. -/
inductive Slot where
  | free | live | died
  deriving DecidableEq

/-- The tasks, each on the kernel page `page` that `get_free_task` took for it. -/
structure Procs where
  fs : State
  slot : ℕ → Slot
  page : ℕ → ℕ

/-- A call of one of the tasks; `page` is what `alloc_kpage` returns to `get_free_task`, and `reap`
the part of `task_waitpid` that takes an exited task off the table. -/
inductive ProcCall where
  | open (filename : Str) (flags mode : ℕ)
  | close (fd : ℤ)
  | chdir (pathname : Str)
  | fork (page : ℕ)
  | exit
  | reap (child : ℕ)

/-- The descriptor of `sys_close` is an index of `task->files`. -/
def ProcCall.Checked : ProcCall → Prop
  | close fd => 0 ≤ fd
  | _ => True

/-- The task in slot `i` is running. -/
def Procs.enter (s : Procs) (i : ℕ) : State := { s.fs with running := i }

/-- `get_free_task()`. -/
def Procs.getFreeTask (s : Procs) : Option ℕ :=
  (List.range Task.NR_TASKS).find? fun i => s.slot i = .free

/-- The words of a page. -/
def PAGE_WORDS : ℕ := 1024

/-- The slot of a task and its descriptor that lie at `task->files[fd]` of the task in slot `i`. -/
def Procs.fdAt (s : Procs) (i : ℕ) (fd : ℤ) : Option (ℕ × ℕ) :=
  (List.range Task.NR_TASKS).findSome? fun k =>
    let n := PAGE_WORDS * ((s.page i : ℤ) - s.page k) + fd
    if s.slot k ≠ .free ∧ 0 ≤ n ∧ n < TASK_FILE_NR then some (k, n.toNat) else none

/-- `sys_close` of a negative descriptor, which its assertion lets pass, where `task->files[fd]` is
descriptor `n` of the task in slot `k`; `task_put_fd` returns at once. -/
def closeOther (k n : ℕ) : Prog State Unit := do
  match ← peek fun s => (s.tasks k).files n with
  | none => return ()
  | some file => do
    assert ((← peek fun s => (s.fileTable file).inode) ≠ none)
    putFile file

/-- `sys_close(fd)` of the task in slot `i`. Where a negative `fd` leads to a word that is no
descriptor, the word is not followed as a pointer. -/
def Procs.closeFd (s : Procs) (i : ℕ) (fd : ℤ) : Prog State Unit :=
  if 0 ≤ fd then sysClose fd.toNat
  else
    match s.fdAt i fd with
    | none => stop
    | some (k, n) => closeOther k n

/-- What the call by the task in slot `i` does where it returns. -/
def Procs.exec (s : Procs) (i : ℕ) (c : ProcCall) : Option Procs :=
  if s.slot i ≠ .live then none
  else
    match c with
    | .open filename flags mode =>
      (sysOpen filename flags mode (s.enter i)).map fun r => { s with fs := r.2 }
    | .close fd => (s.closeFd i fd (s.enter i)).map fun r => { s with fs := r.2 }
    | .chdir pathname => (sysChdir pathname (s.enter i)).map fun r => { s with fs := r.2 }
    | .fork page =>
      if ∃ k < Task.NR_TASKS, s.slot k ≠ .free ∧ s.page k = page then none
      else
        match s.getFreeTask with
        | none => none
        | some child => (forkRefs child (s.enter i)).map fun r =>
          ⟨r.2, update s.slot child .live, update s.page child page⟩
    | .exit => (exitRefs (s.enter i)).map fun r => { s with fs := r.2, slot := update s.slot i .died }
    | .reap child =>
      if s.slot child = .died then some { s with slot := update s.slot child .free } else none

def ProcStep (s : Procs) (a : ℕ × ProcCall) (t : Procs) : Prop := s.exec a.1 a.2 = some t

/-- `put_file(file)`, its `iput(file->inode)` noted by the file. -/
def putFileNoted (file : ℕ) : Noted State ℕ Unit := do
  still (assert (0 < (← still (peek fun s => (s.fileTable file).count))))
  still (poke fun s => s.modFile file fun f => { f with count := f.count - 1 })
  when ((← still (peek fun s => (s.fileTable file).count)) = 0)
    (note file (do iput (← peek fun s => (s.fileTable file).inode)))

/-- `sys_close(fd)`, noted. -/
def sysCloseNoted (fd : ℕ) : Noted State ℕ Unit := do
  still (assert (fd < TASK_FILE_NR))
  match ← still (peek fun s => s.task.files fd) with
  | none => return ()
  | some file => do
    still (assert ((← still (peek fun s => (s.fileTable file).inode)) ≠ none))
    putFileNoted file
    still (taskPutFd fd)

/-- `closeOther k n`, noted. -/
def closeOtherNoted (k n : ℕ) : Noted State ℕ Unit := do
  match ← still (peek fun s => (s.tasks k).files n) with
  | none => return ()
  | some file => do
    still (assert ((← still (peek fun s => (s.fileTable file).inode)) ≠ none))
    putFileNoted file

/-- `sys_close(fd)` of the task in slot `i`, noted. -/
def Procs.closeFdNoted (s : Procs) (i : ℕ) (fd : ℤ) : Noted State ℕ Unit :=
  if 0 ≤ fd then sysCloseNoted fd.toNat
  else
    match s.fdAt i fd with
    | none => still stop
    | some (k, n) => closeOtherNoted k n

/-- The references of `task_exit`, noted. -/
def exitRefsNoted : Noted State ℕ Unit := do
  still (iput (some (← still (peek fun s => s.task.ipwd))))
  still (iput (some (← still (peek fun s => s.task.iroot))))
  loop sysCloseNoted TASK_FILE_NR 0

/-- The files whose inodes the call by the task in slot `i` releases, in order. -/
def Procs.released (s : Procs) (i : ℕ) : ProcCall → List ℕ
  | .close fd => ((s.closeFdNoted i fd (s.enter i, [])).map fun r => r.2.2).getD []
  | .exit => ((exitRefsNoted (s.enter i, [])).map fun r => r.2.2).getD []
  | _ => []

theorem putFileNoted_erases (file : ℕ) : Erases (putFileNoted file) (putFile file) := by
  refine (erases_still _).bind fun _ => (erases_still _).bind fun _ => (erases_still _).bind fun _ =>
    (erases_still _).bind fun count => ?_
  cases decide (count = 0) with
  | true => exact erases_note _ _
  | false => exact erases_pure ()

theorem sysCloseNoted_erases (fd : ℕ) : Erases (sysCloseNoted fd) (sysClose fd) := by
  refine (erases_still _).bind fun _ => (erases_still _).bind fun o => ?_
  cases o with
  | none => exact erases_pure ()
  | some file =>
    exact (erases_still _).bind fun _ => (erases_still _).bind fun _ =>
      (putFileNoted_erases file).bind fun _ => erases_still _

theorem closeOtherNoted_erases (k n : ℕ) : Erases (closeOtherNoted k n) (closeOther k n) := by
  refine (erases_still _).bind fun o => ?_
  cases o with
  | none => exact erases_pure ()
  | some file =>
    exact (erases_still _).bind fun _ => (erases_still _).bind fun _ => putFileNoted_erases file

theorem Procs.closeFdNoted_erases (s : Procs) (i : ℕ) (fd : ℤ) :
    Erases (s.closeFdNoted i fd) (s.closeFd i fd) := by
  unfold Procs.closeFdNoted Procs.closeFd
  refine .ite (sysCloseNoted_erases _) ?_
  cases s.fdAt i fd with
  | none => exact erases_still _
  | some p => exact closeOtherNoted_erases p.1 p.2

/-- Without the notes it is what `task_exit` does. -/
theorem exitRefsNoted_erases : Erases exitRefsNoted exitRefs :=
  (erases_still _).bind fun _ => (erases_still _).bind fun _ => (erases_still _).bind fun _ =>
    (erases_still _).bind fun _ => erases_loop sysCloseNoted_erases _ _

end Onix.Fs
