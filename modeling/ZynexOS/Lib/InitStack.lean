import ZynexOS.Fs.State

/-!
# The arguments of a program

`init_stack` of `lib/riscv/spawn.c`, and `_start` of `lib/riscv/entry.S`, which finds the arguments. The
results of the system calls are inputs. A store outside of the page and a failed assertion have the
result `none`.
-/

namespace ZynexOS

open Library

abbrev CString := List (BitVec 8)

def utemp : Nat := 0x400000

def stackPage : Nat := 0xfffffcffeffff000

def utemp2ustack (a : Nat) : Nat := uint64 (a + stackPage - utemp)

def stringSize (argv : List CString) : Nat := (argv.map fun s => s.length + 1).sum

def stringStore (argv : List CString) : Nat := uint64 (utemp + 4096 - stringSize argv)

def argvStore (argv : List CString) : Nat :=
  uint64 (stringStore argv / 8 * 8 - 8 * (argv.length + 1))

def storeBytes (mem : Bytes) (a : Nat) (bytes : List (BitVec 8)) : Option Bytes :=
  if utemp ≤ a ∧ a + bytes.length ≤ utemp + 4096 then some (mem.copyList a bytes) else none

def storeWord (mem : Bytes) (a v : Nat) : Option Bytes :=
  if utemp ≤ a ∧ a + 8 ≤ utemp + 4096 then some (mem.storeNat a 8 v) else none

def storeArgs (mem : Bytes) (slot pos : Nat) : List CString → Option (Bytes × Nat)
  | [] => some (mem, pos)
  | s :: argv => do
      let mem ← storeWord mem slot (utemp2ustack pos)
      let mem ← storeBytes mem pos (s ++ [0])
      storeArgs mem (slot + 8) (pos + s.length + 1) argv

structure StackIo where
  alloc : Int
  map : Int
  unmap : Int

/-- What `init_stack` returns, whether it has called `sys_page_alloc`, and what the child has got: the
page, at the addresses of the page at `UTEMP`. -/
structure StackResult where
  r : Int
  allocates : Bool
  page : Option Bytes
  initEsp : Option Nat

def stackContents (argv : List CString) : Option (Bytes × Nat) := do
  let store := argvStore argv
  let (mem, pos) ← storeArgs (fun _ => 0) store (stringStore argv) argv
  let mem ← storeWord mem (store + 8 * argv.length) 0
  if pos = utemp + 4096 then
    let mem ← storeWord mem (uint64 (store - 8)) (utemp2ustack store)
    let mem ← storeWord mem (uint64 (store - 16)) argv.length
    some (mem, utemp2ustack (uint64 (store - 16)))
  else none

def initStack (io : StackIo) (argv : List CString) : Option StackResult :=
  if uint64 (argvStore argv - 16) < utemp then
    some { r := -eNoMem, allocates := false, page := none, initEsp := none }
  else if io.alloc < 0 then
    some { r := io.alloc, allocates := true, page := none, initEsp := none }
  else do
    let (mem, sp) ← stackContents argv
    if io.map < 0 then
      some { r := io.map, allocates := true, page := none, initEsp := some sp }
    else if io.unmap < 0 then
      some { r := io.unmap, allocates := true, page := some mem, initEsp := some sp }
    else some { r := 0, allocates := true, page := some mem, initEsp := some sp }

/-! ### The child -/

def childWord (page : Bytes) (a : Nat) : Option Nat :=
  if stackPage ≤ a ∧ a + 8 ≤ stackPage + 4096 then some (page.loadNat (a - stackPage + utemp) 8)
  else none

def startArgs (page : Bytes) (sp : Nat) : Option (Nat × Nat) := do
  if sp = stackPage + 4096 then some (0, 0)
  else
    let argc ← childWord page sp
    let argv ← childWord page (sp + 8)
    some (argc, argv)

def ChildString (page : Bytes) (a : Nat) (s : CString) : Prop :=
  stackPage ≤ a ∧ a + s.length + 1 ≤ stackPage + 4096 ∧
    page.slice (a - stackPage + utemp) (s.length + 1) = s ++ [0]

def PassesArgs (page : Bytes) (sp : Nat) (argv : List CString) : Prop :=
  ∃ a0 a1, startArgs page sp = some (a0, a1) ∧ int32 a0 = argv.length ∧
    (∀ i s, argv[i]? = some s → ∃ p, childWord page (a1 + 8 * i) = some p ∧ ChildString page p s) ∧
    childWord page (a1 + 8 * argv.length) = some 0

def FitsStack (argv : List CString) : Prop :=
  (stringSize argv + 7) / 8 * 8 + 8 * (argv.length + 1) + 16 ≤ 4096

end ZynexOS
