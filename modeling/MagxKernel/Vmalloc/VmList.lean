import MagxKernel.Lib.RoundUp
import MagxKernel.Lib.Runs
import MagxKernel.Lib.Spans

namespace MagxKernel.Vmalloc

open RoundUp Spans

def pageShift : Nat := 12
def pageSize : Nat := 2 ^ pageShift

/-- `IOREMAP_MAX_ORDER`: 128 pages. -/
def ioremapMaxOrder : Nat := 7 + pageShift

def vmIoremap : Nat := 1

/-- `struct vm_struct` as the list of areas sees it; the size counts the guard page. -/
structure VmStruct where
  addr : Nat
  size : Nat
  flags : Nat
deriving DecidableEq

/-- The arguments of `__get_vm_area`. -/
structure Request where
  size : Nat
  flags : Nat
  start : Nat
  stop : Nat
deriving DecidableEq

/-- Callers ask for whole pages and give windows of whole pages, in `unsigned long`s. -/
structure Request.Proper (request : Request) : Prop where
  pages : pageSize ∣ request.size
  some_page : pageSize ≤ request.size
  narrow : request.size < 2 ^ 32
  start_page : pageSize ∣ request.start
  stop_page : pageSize ∣ request.stop
  window : request.start < request.stop
  stop_narrow : request.stop < 2 ^ 32

/-- The number of the highest set bit, counted from one. -/
def fls (x : Nat) : Nat := if x = 0 then 0 else Nat.log2 x + 1

/-- The alignment that the flags ask for. -/
def Request.align (request : Request) : Nat :=
  if request.flags &&& vmIoremap ≠ 0 then
    let bit := fls request.size
    2 ^ (if ioremapMaxOrder < bit then ioremapMaxOrder
      else if bit < pageShift then pageShift else bit)
  else 1

/-- `ALIGN` in an `unsigned long`: for powers of two the mask cuts to a multiple. -/
def alignWord (x align : Nat) : Nat := (x + align - 1) % 2 ^ 32 / align * align

/-- The loop of `__get_vm_area` from `addr` on, and the insertion of the area where the
loop ends. No result stands for `goto out`. -/
def scan (size flags align stop : Nat) : Nat → List VmStruct → Option (VmStruct × List VmStruct)
  | addr, [] => some (⟨addr, size, flags⟩, [⟨addr, size, flags⟩])
  | addr, tmp :: rest =>
      let past := (tmp.size + tmp.addr) % 2 ^ 32
      if tmp.addr < addr then
        let addr := if addr ≤ past then alignWord past align else addr
        (scan size flags align stop addr rest).map fun found => (found.1, tmp :: found.2)
      else if (size + addr) % 2 ^ 32 < addr then none
      else if (size + addr) % 2 ^ 32 ≤ tmp.addr then
        some (⟨addr, size, flags⟩, ⟨addr, size, flags⟩ :: tmp :: rest)
      else
        let addr := alignWord past align
        if (stop + 2 ^ 32 - size) % 2 ^ 32 < addr then none
        else (scan size flags align stop addr rest).map fun found => (found.1, tmp :: found.2)

/-- `__get_vm_area`; `memory` tells whether `kmalloc` has a descriptor to give. -/
def getVmArea (memory : Bool) (request : Request) (vmlist : List VmStruct) :
    Option VmStruct × List VmStruct :=
  let size := (request.size + pageSize) % 2 ^ 32
  if memory = false ∨ size = 0 then (none, vmlist)
  else
    match scan size request.flags request.align request.stop
        (alignWord request.start request.align) vmlist with
    | none => (none, vmlist)
    | some found => (some found.1, found.2)

/-- `remove_vm_area` takes the first area at the address out of the list. -/
def removeVmArea (addr : Nat) (vmlist : List VmStruct) : Option VmStruct × List VmStruct :=
  (vmlist.find? fun tmp => tmp.addr = addr, vmlist.eraseP fun tmp => tmp.addr = addr)

end MagxKernel.Vmalloc
