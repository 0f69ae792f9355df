import Onix.Spec.Context

/-! `syscall_init` of `kernel/gate.c`, and the library calls of `lib/syscall.c`. -/

namespace Onix.Context

open Function X86

def SYS_NR_TEST : ℕ := 0
def SYS_NR_EXIT : ℕ := 1
def SYS_NR_FORK : ℕ := 2
def SYS_NR_READ : ℕ := 3
def SYS_NR_WRITE : ℕ := 4
def SYS_NR_OPEN : ℕ := 5
def SYS_NR_CLOSE : ℕ := 6
def SYS_NR_WAITPID : ℕ := 7
def SYS_NR_CREAT : ℕ := 8
def SYS_NR_LINK : ℕ := 9
def SYS_NR_UNLINK : ℕ := 10
def SYS_NR_CHDIR : ℕ := 12
def SYS_NR_TIME : ℕ := 13
def SYS_NR_LSEEK : ℕ := 19
def SYS_NR_GETPID : ℕ := 20
def SYS_NR_MKDIR : ℕ := 39
def SYS_NR_RMDIR : ℕ := 40
def SYS_NR_BRK : ℕ := 45
def SYS_NR_UMASK : ℕ := 60
def SYS_NR_CHROOT : ℕ := 61
def SYS_NR_GETPPID : ℕ := 64
def SYS_NR_READDIR : ℕ := 89
def SYS_NR_YIELD : ℕ := 158
def SYS_NR_SLEEP : ℕ := 162
def SYS_NR_GETCWD : ℕ := 183
def SYS_NR_CLEAR : ℕ := 200

/-- The functions in `syscall_table`. -/
inductive Handler where
  | sysDefault | sysTest | taskFork | taskExit | taskWaitpid | taskSleep | taskYield | sysGetpid | sysGetppid
  | sysBrk | sysRead | sysWrite | sysLseek | sysReaddir | sysOpen | sysCreat | sysClose | sysMkdir | sysRmdir
  | sysLink | sysUnlink | sysTime | sysUmask | sysChdir | sysChroot | sysGetcwd | consoleClear
  deriving DecidableEq

/-- What `syscall_init` stores over `sys_default`. -/
def syscallInit : List (ℕ × Handler) :=
  [(SYS_NR_TEST, .sysTest), (SYS_NR_FORK, .taskFork), (SYS_NR_EXIT, .taskExit),
   (SYS_NR_WAITPID, .taskWaitpid), (SYS_NR_SLEEP, .taskSleep), (SYS_NR_YIELD, .taskYield),
   (SYS_NR_GETPID, .sysGetpid), (SYS_NR_GETPPID, .sysGetppid),
   (SYS_NR_BRK, .sysBrk),
   (SYS_NR_READ, .sysRead), (SYS_NR_WRITE, .sysWrite), (SYS_NR_LSEEK, .sysLseek),
   (SYS_NR_READDIR, .sysReaddir),
   (SYS_NR_OPEN, .sysOpen), (SYS_NR_CREAT, .sysCreat), (SYS_NR_CLOSE, .sysClose),
   (SYS_NR_MKDIR, .sysMkdir), (SYS_NR_RMDIR, .sysRmdir),
   (SYS_NR_LINK, .sysLink), (SYS_NR_UNLINK, .sysUnlink),
   (SYS_NR_TIME, .sysTime), (SYS_NR_UMASK, .sysUmask), (SYS_NR_CHDIR, .sysChdir),
   (SYS_NR_CHROOT, .sysChroot), (SYS_NR_GETCWD, .sysGetcwd),
   (SYS_NR_CLEAR, .consoleClear)]

def syscallTable : ℕ → Handler :=
  syscallInit.foldl (fun table entry => update table entry.1 entry.2) fun _ => .sysDefault

/-- The registers of the arguments of `int $0x80`. -/
def argRegs : List Reg := [.ebx, .ecx, .edx]

/-- `_syscall0` to `_syscall3` at their `int $0x80`. -/
def syscalln (nr : ℕ) (args : List (BitVec 32)) (c : Cpu) : Cpu :=
  (argRegs.zip args).foldl (fun c a => c.set a.1 a.2) (c.set .eax (BitVec.ofNat 32 nr))

/-- A call of the library. -/
inductive LibCall where
  | test | yield
  | sleep (ms : BitVec 32)
  | brk (addr : BitVec 32)
  | open (filename flags mode : BitVec 32)
  | creat (filename mode : BitVec 32)
  | close (fd : BitVec 32)
  | read (fd buf len : BitVec 32)
  | write (fd buf len : BitVec 32)
  | lseek (fd offset whence : BitVec 32)
  | readdir (fd dir count : BitVec 32)
  | getcwd (buf size : BitVec 32)
  | chdir (pathname : BitVec 32)
  | chroot (pathname : BitVec 32)
  | mkdir (pathname mode : BitVec 32)
  | rmdir (pathname : BitVec 32)
  | getpid | getppid | fork
  | exit (status : BitVec 32)
  | waitpid (pid status : BitVec 32)
  | link (oldname newname : BitVec 32)
  | unlink (filename : BitVec 32)
  | time
  | umask (mask : BitVec 32)
  | clear

/-- The number and the arguments that the function of the library passes on. -/
def LibCall.passed : LibCall → ℕ × List (BitVec 32)
  | .test => (SYS_NR_TEST, [])
  | .yield => (SYS_NR_YIELD, [])
  | .sleep ms => (SYS_NR_SLEEP, [ms])
  | .brk addr => (SYS_NR_BRK, [addr])
  | .open filename flags mode => (SYS_NR_OPEN, [filename, flags, mode])
  | .creat filename mode => (SYS_NR_CREAT, [filename, mode])
  | .close fd => (SYS_NR_CLOSE, [fd])
  | .read fd buf len => (SYS_NR_READ, [fd, buf, len])
  | .write fd buf len => (SYS_NR_WRITE, [fd, buf, len])
  | .lseek fd offset whence => (SYS_NR_LSEEK, [fd, offset, whence])
  | .readdir fd dir count => (SYS_NR_READDIR, [fd, dir, count])
  | .getcwd buf size => (SYS_NR_GETCWD, [buf, size])
  | .chdir pathname => (SYS_NR_CHDIR, [pathname])
  | .chroot pathname => (SYS_NR_CHROOT, [pathname])
  | .mkdir pathname mode => (SYS_NR_MKDIR, [pathname, mode])
  | .rmdir pathname => (SYS_NR_RMDIR, [pathname])
  | .getpid => (SYS_NR_GETPID, [])
  | .getppid => (SYS_NR_GETPPID, [])
  | .fork => (SYS_NR_FORK, [])
  | .exit status => (SYS_NR_EXIT, [status])
  | .waitpid pid status => (SYS_NR_WAITPID, [pid, status])
  | .link oldname newname => (SYS_NR_LINK, [oldname, newname])
  | .unlink filename => (SYS_NR_UNLINK, [filename])
  | .time => (SYS_NR_TIME, [])
  | .umask mask => (SYS_NR_UMASK, [mask])
  | .clear => (SYS_NR_CLEAR, [])

/-- The processor at the `int $0x80` of the call. -/
def LibCall.enter (call : LibCall) (c : Cpu) : Cpu := syscalln call.passed.1 call.passed.2 c

/-- The function of the kernel that the call is for, with its arguments from the first on. -/
def LibCall.handler : LibCall → Handler × List (BitVec 32)
  | .test => (.sysTest, [])
  | .yield => (.taskYield, [])
  | .sleep ms => (.taskSleep, [ms])
  | .brk addr => (.sysBrk, [addr])
  | .open filename flags mode => (.sysOpen, [filename, flags, mode])
  | .creat filename mode => (.sysCreat, [filename, mode])
  | .close fd => (.sysClose, [fd])
  | .read fd buf len => (.sysRead, [fd, buf, len])
  | .write fd buf len => (.sysWrite, [fd, buf, len])
  | .lseek fd offset whence => (.sysLseek, [fd, offset, whence])
  | .readdir fd dir count => (.sysReaddir, [fd, dir, count])
  | .getcwd buf size => (.sysGetcwd, [buf, size])
  | .chdir pathname => (.sysChdir, [pathname])
  | .chroot pathname => (.sysChroot, [pathname])
  | .mkdir pathname mode => (.sysMkdir, [pathname, mode])
  | .rmdir pathname => (.sysRmdir, [pathname])
  | .getpid => (.sysGetpid, [])
  | .getppid => (.sysGetppid, [])
  | .fork => (.taskFork, [])
  | .exit status => (.taskExit, [status])
  | .waitpid pid status => (.taskWaitpid, [pid, status])
  | .link oldname newname => (.sysLink, [oldname, newname])
  | .unlink filename => (.sysUnlink, [filename])
  | .time => (.sysTime, [])
  | .umask mask => (.sysUmask, [mask])
  | .clear => (.consoleClear, [])

end Onix.Context
