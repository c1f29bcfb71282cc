import ZynexOS.Fs.Handlers
import ZynexOS.Library.Run

/-!
# The ids of open files

The server calls `openfile_alloc`, and clients map and unmap the pages of descriptors that the server
maps, in any order. The kernel counts the mappings of a page in 16 bits.
-/

namespace ZynexOS

namespace Fs

/-- `clients i` is the number of mappings that clients have of the descriptor of entry `i`, `latest i`
the last id that was issued for it, and `returned` lists the results of `openfile_alloc`. -/
structure OpenSys where
  fs : Fs
  clients : Nat → Nat
  latest : Nat → Option Nat
  returned : List Int

inductive OpenEvent where
  | alloc (memory : Bool)
  | map (i : Nat)
  | unmap (i : Nat)

def View.refs (v : View) (i : Nat) : Nat := v.pageref (v.opentab i).fd

namespace OpenSys

def share (s : OpenSys) (i clients refs : Nat) : OpenSys :=
  { s with
    fs := { s.fs with
      pageref := Function.update s.fs.pageref (s.fs.opentab i).fd (refs % 2 ^ 16) }
    clients := Function.update s.clients i clients }

def exec (s : OpenSys) : OpenEvent → Option OpenSys
  | .alloc memory =>
      match openfileAlloc memory s.fs with
      | .ok (r, none) fs => some { s with fs := fs, returned := r :: s.returned }
      | .ok (r, some i) fs =>
          some { s with
            fs := fs, returned := r :: s.returned
            latest := Function.update s.latest i (some (fs.opentab i).fileid) }
      | .error _ _ => none
  | .map i =>
      if i < maxOpen ∧ s.fs.refs i ≠ 0 then some (s.share i (s.clients i + 1) (s.fs.refs i + 1))
      else none
  | .unmap i =>
      if i < maxOpen ∧ 0 < s.clients i then
        some (s.share i (s.clients i - 1) (s.fs.refs i + (2 ^ 16 - 1)))
      else none

def Step (s : OpenSys) (event : OpenEvent) (s' : OpenSys) : Prop := s.exec event = some s'

structure Starts (s : OpenSys) : Prop where
  init : ∃ fs, serveInit fs = .ok () s.fs
  unmapped : ∀ i < maxOpen, s.fs.refs i = 0
  clients : ∀ i, s.clients i = 0
  latest : ∀ i, s.latest i = none
  returned : s.returned = []

def Finds (s : OpenSys) (id : Nat) : Prop := ∃ o, openfileLookup id s.fs = .ok (.ok o) s.fs

/-- A result of `openfile_alloc` is an id or a documented error, no id was returned twice, and exactly
the latest ids of descriptors that a client maps are found. -/
structure IdsRight (s : OpenSys) : Prop where
  documented : ∀ r ∈ s.returned, 0 ≤ r ∨ r = -eMaxOpen ∨ r = -eNoMem
  unique : (s.returned.filter fun r => 0 ≤ r).Nodup
  found : ∀ id, s.Finds id ↔ s.latest (id % maxOpen) = some id ∧ 0 < s.clients (id % maxOpen)

def FirstFree (s : OpenSys) (i : Nat) : Prop :=
  i < maxOpen ∧ s.fs.refs i ≤ 1 ∧ ∀ j < i, 1 < s.fs.refs j

/-- The run condition: the next id of the entry that is used fits into an `int`, and no descriptor gets
as many mappings as its reference count can hold. -/
def Unwrapped (s : OpenSys) : OpenEvent → Prop
  | .alloc _ => ∀ i, s.FirstFree i → (s.fs.opentab i).fileid + maxOpen < 2 ^ 31
  | .map i => s.clients i + 2 < 2 ^ 16
  | .unmap _ => True

end OpenSys

end Fs

end ZynexOS
