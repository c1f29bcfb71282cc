import Mathlib

/-!
# Words, page-table entries and the memory layout

The macros of `inc/riscv/mmu.h`, `inc/riscv/memlayout.h`, `inc/riscv/error.h` and `kern/riscv/pmap.h`.
Addresses and page-table entries are 64-bit words; indices into a table are natural numbers.
-/

namespace ZynexOS

abbrev Word := BitVec 64

def pgSize : Nat := 4096

def nEnv : Nat := 1024

/-! ### Page-table entry flags -/

def pteV : Word := 0x001
def pteR : Word := 0x002
def pteW : Word := 0x004
def pteX : Word := 0x008
def pteU : Word := 0x010
def pteG : Word := 0x020
def pteA : Word := 0x040
def pteD : Word := 0x080
def pteAvail : Word := 0x300
def pteShare : Word := 0x200

def pteSyscall : Word := pteAvail ||| pteX ||| pteV ||| pteW ||| pteR ||| pteU

/-! ### Virtual memory map -/

def kernbase : Word := 0xFFFFFFFF00000000
def phymemoff : Word := 0x80000000
def kstacktop : Word := kernbase
def kstksize : Nat := 8 * pgSize
def kstkgap : Nat := 8 * pgSize
def mmiobase : Word := 0xfffffefff0000000
def ulim : Word := mmiobase
def uvpt : Word := 0xffff800000000000
def upages : Word := 0xfffffdfff0000000
def uenvs : Word := 0xfffffd7ff0000000
def utop : Word := uenvs
def uxstacktop : Word := 0xfffffbfff0000000
def ustacktop : Word := 0xfffffcfff0000000
def flashMapAddr : Word := 0xfffff00000000000
def pcieMapEcamAddr : Word := 0xfffff00030000000

/-! ### Error codes -/

def eBadEnv : Int := 2
def eInval : Int := 3
def eNoMem : Int := 4
def eNoFreeEnv : Int := 5
def eFault : Int := 6
def eIpcNotRecv : Int := 7

/-! ### Address and entry macros -/

def pgnum (la : Word) : Nat := ((la &&& 0x7fffffff) >>> 12).toNat

def pd0x (la : Word) : Nat := ((la >>> 39) &&& 0x1ff).toNat
def pd1x (la : Word) : Nat := ((la >>> 30) &&& 0x1ff).toNat
def pd2x (la : Word) : Nat := ((la >>> 21) &&& 0x1ff).toNat
def ptx (la : Word) : Nat := ((la >>> 12) &&& 0x1ff).toNat

def pgaddr (d0 d1 d2 t : Nat) : Word :=
  (BitVec.ofNat 64 d0 <<< 39) ||| (BitVec.ofNat 64 d1 <<< 30) ||| (BitVec.ofNat 64 d2 <<< 21) |||
    (BitVec.ofNat 64 t <<< 12)

def pdeEntry (pa : Word) : Word := (pa >>> 12) <<< 10
def pteEntry (pa : Word) : Word := (pa >>> 12) <<< 10
def pdePhy (entry : Word) : Word := (entry >>> 10) <<< 12
def ptePhy (entry : Word) : Word := (entry >>> 10) <<< 12

/-- `PTE_ADDR`, which also drops the high bits of the entry. -/
def pteAddr (entry : Word) : Word := ptePhy (entry &&& ~~~0xff800000000003ff)

def rounddown (a : Word) (n : Nat) : Word := a - a % BitVec.ofNat 64 n
def roundup (a : Word) (n : Nat) : Word := rounddown (a + BitVec.ofNat 64 n - 1) n

def entryAddr (table : Word) (i : Nat) : Word := table + BitVec.ofNat 64 (8 * i)

def page2pa (pp : Nat) : Word := (BitVec.ofNat 64 pp <<< 12) + phymemoff

def pageKva (pp : Nat) : Word := page2pa pp + kernbase

end ZynexOS
