import ZynexOS.Kern.Env

/-!
# Checking user memory

`user_mem_check` of `kern/riscv/pmap.c`. The result is `none` for a return of 0, and `some addr` for
`-E_FAULT` with `user_mem_check_addr` set to `addr`.
-/

namespace ZynexOS

namespace Vm

/-- The loop of `user_mem_check` with `n` iterations left. `pteStore` is the C variable of that name:
`page_lookup` writes it only when a page is mapped, so otherwise it keeps its previous value. -/
def userMemCheckLoop (vm : Vm) (pgdir perm : Word) (n : Nat) (addr : Word) (pteStore : Option Word) :
    Except Panic (Option Word) :=
  match n with
  | 0 => pure none
  | n + 1 => do
      let found ← vm.pageLookup pgdir addr
      let pteStore := match found with
        | some (_, slot) => some slot
        | none => pteStore
      match pteStore with
      | none => pure (some addr)
      | some slot =>
          let pte ← vm.load slot
          if pte &&& (perm ||| pteV) = 0 then pure (some addr)
          else
            vm.userMemCheckLoop pgdir perm n
              (roundup addr pgSize + BitVec.ofNat 64 pgSize) pteStore

/-- The number of iterations of the loop `for (k = 0; k <= len / PGSIZE; k++)`, where `k` is an `int`
that is compared as an unsigned 64-bit value: it leaves the loop at the latest when it wraps. -/
def userMemCheckIters (len : Word) : Nat := min (len.toNat / pgSize) (2 ^ 31 - 1) + 1

end Vm

namespace Kern

/-- `user_mem_check`. The walk uses the page directory of `curenv`, whatever `env` is. -/
def userMemCheck (k : Kern) (_env : Nat) (va len : Word) (perm : BitVec 32) :
    Except Panic (Option Word) := do
  if ulim < roundup (va + len) pgSize then pure (some va)
  else
    let c ← k.cur
    k.vm.userMemCheckLoop (k.envs c).envPgdir (perm.signExtend 64) (Vm.userMemCheckIters len) va none

end Kern

end ZynexOS
