import Mathlib.Init

/-! Errors, flags and calls by their numbers, as the kernel and the daemons share them. -/
namespace Origel

def EPERM : Nat := 1
def ENOENT : Nat := 2
def ESRCH : Nat := 3
def ENOEXEC : Nat := 8
def EBADF : Nat := 9
def EAGAIN : Nat := 11
def EACCES : Nat := 13
def EFAULT : Nat := 14
def ENOTDIR : Nat := 20
def EINVAL : Nat := 22
def EMFILE : Nat := 24
def EPIPE : Nat := 32
def ENOSYS : Nat := 38
def EWOULDBLOCK : Nat := 41
def EMSGSIZE : Nat := 90
def EADDRINUSE : Nat := 98
def EADDRNOTAVAIL : Nat := 99
def EISCONN : Nat := 106
def ENOTCONN : Nat := 107

def EVENT_READ : Nat := 1

def F_GETFL : Nat := 1
def F_SETFL : Nat := 2

def MODE_DIR : Nat := 0x4000
def MODE_FILE : Nat := 0x8000
def MODE_SETUID : Nat := 0o4000
def MODE_SETGID : Nat := 0o2000

def O_RDONLY : Nat := 0x00010000
def O_WRONLY : Nat := 0x00020000
def O_RDWR : Nat := 0x00030000
def O_NONBLOCK : Nat := 0x00040000
def O_CLOEXEC : Nat := 0x01000000
def O_CREAT : Nat := 0x02000000
def O_TRUNC : Nat := 0x04000000
def O_EXCL : Nat := 0x08000000
def O_DIRECTORY : Nat := 0x10000000
def O_STAT : Nat := 0x20000000
def O_ACCMODE : Nat := O_RDONLY ||| O_WRONLY ||| O_RDWR

def SEEK_SET : Nat := 0
def SEEK_CUR : Nat := 1
def SEEK_END : Nat := 2

def SYS_CLASS : Nat := 0xF0000000
def SYS_CLASS_PATH : Nat := 0x10000000
def SYS_CLASS_FILE : Nat := 0x20000000

def SYS_ARG : Nat := 0x0F000000
def SYS_ARG_SLICE : Nat := 0x01000000
def SYS_ARG_MSLICE : Nat := 0x02000000
def SYS_ARG_PATH : Nat := 0x03000000

def SYS_RET_FILE : Nat := 0x00100000

def SYS_LINK : Nat := SYS_CLASS_PATH ||| SYS_ARG_PATH ||| 9
def SYS_OPEN : Nat := SYS_CLASS_PATH ||| SYS_RET_FILE ||| 5
def SYS_CHMOD : Nat := SYS_CLASS_PATH ||| 15
def SYS_RMDIR : Nat := SYS_CLASS_PATH ||| 84
def SYS_UNLINK : Nat := SYS_CLASS_PATH ||| 10

def SYS_CLOSE : Nat := SYS_CLASS_FILE ||| 6
def SYS_DUP : Nat := SYS_CLASS_FILE ||| SYS_RET_FILE ||| 41
def SYS_READ : Nat := SYS_CLASS_FILE ||| SYS_ARG_MSLICE ||| 3
def SYS_WRITE : Nat := SYS_CLASS_FILE ||| SYS_ARG_SLICE ||| 4
def SYS_LSEEK : Nat := SYS_CLASS_FILE ||| 19
def SYS_FCNTL : Nat := SYS_CLASS_FILE ||| 55
def SYS_FEVENT : Nat := SYS_CLASS_FILE ||| 927
def SYS_FMAP : Nat := SYS_CLASS_FILE ||| 90
def SYS_FUNMAP : Nat := SYS_CLASS_FILE ||| 91
def SYS_FPATH : Nat := SYS_CLASS_FILE ||| SYS_ARG_MSLICE ||| 928
def SYS_FSTAT : Nat := SYS_CLASS_FILE ||| SYS_ARG_MSLICE ||| 28
def SYS_FSTATVFS : Nat := SYS_CLASS_FILE ||| SYS_ARG_MSLICE ||| 100
def SYS_FSYNC : Nat := SYS_CLASS_FILE ||| 118
def SYS_FTRUNCATE : Nat := SYS_CLASS_FILE ||| 93

def SYS_BRK : Nat := 45
def SYS_CHDIR : Nat := 12
def SYS_CLOCK_GETTIME : Nat := 265
def SYS_CLONE : Nat := 120
def SYS_EXECVE : Nat := 11
def SYS_EXIT : Nat := 1
def SYS_FUTEX : Nat := 240
def SYS_GETCWD : Nat := 183
def SYS_GETEGID : Nat := 202
def SYS_GETENS : Nat := 951
def SYS_GETEUID : Nat := 201
def SYS_GETGID : Nat := 200
def SYS_GETNS : Nat := 950
def SYS_GETPID : Nat := 20
def SYS_GETUID : Nat := 199
def SYS_IOPL : Nat := 110
def SYS_KILL : Nat := 37
def SYS_MKNS : Nat := 984
def SYS_NANOSLEEP : Nat := 162
def SYS_PHYSALLOC : Nat := 945
def SYS_PHYSFREE : Nat := 946
def SYS_PHYSMAP : Nat := 947
def SYS_PHYSUNMAP : Nat := 948
def SYS_VIRTTOPHYS : Nat := 949
def SYS_PIPE2 : Nat := 331
def SYS_SETREGID : Nat := 204
def SYS_SETRENS : Nat := 952
def SYS_SETREUID : Nat := 203
def SYS_WAITPID : Nat := 7
def SYS_YIELD : Nat := 158

/-- `size_of::<Stat>()` and `size_of::<StatVfs>()`, both packed. -/
def sizeOfStat : Nat := 86
def sizeOfStatVfs : Nat := 28

end Origel
