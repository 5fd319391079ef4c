import Mathlib.Logic.Function.Basic
import Playground.Lib.Machine

/-!
# Virtual memory (`systems/os/virtual_memory.cpp`)

A page table, and a translation lookaside buffer of four entries that
`translate` asks first and refills in turn. All arithmetic is on 32-bit
words. Writing past the end of the buffer faults.
-/

namespace Playground.VirtualMemory

def pageSize : UInt32 := 4096
def offsetBits : UInt32 := 12
def offsetMask : UInt32 := pageSize - 1
def tlbSize : Nat := 4

structure TLBEntry where
  vpn : UInt32 := 0
  pfn : UInt32 := 0
  valid : Bool := false
  deriving DecidableEq, Repr

structure State where
  pageTable : UInt32 → Option UInt32 := fun _ => none
  tlb : Vector TLBEntry tlbSize := Vector.replicate tlbSize {}
  tlbNext : Nat := 0
  tlbHits : UInt64 := 0
  tlbMisses : UInt64 := 0
  pageFaults : UInt64 := 0

structure TranslationResult where
  success : Bool
  physicalAddr : UInt32
  source : String
  deriving DecidableEq, Repr

def mapPage (s : State) (virtualPage physicalFrame : UInt32) : State :=
  { s with pageTable := Function.update s.pageTable virtualPage (some physicalFrame) }

def vpnOf (virtualAddr : UInt32) : UInt32 := virtualAddr >>> offsetBits

/-- `(pfn << OFFSET_BITS) | offset`. -/
def physOf (pfn virtualAddr : UInt32) : UInt32 := pfn <<< offsetBits ||| virtualAddr &&& offsetMask

def translate (s : State) (virtualAddr : UInt32) : Option (State × TranslationResult) :=
  let vpn := vpnOf virtualAddr
  -- fast path
  match s.tlb.find? fun entry => entry.valid && entry.vpn == vpn with
  | some entry => some ({ s with tlbHits := s.tlbHits + 1 }, ⟨true, physOf entry.pfn virtualAddr, "TLB Hit"⟩)
  | none =>
    let s := { s with tlbMisses := s.tlbMisses + 1 }
    -- slow path
    match s.pageTable vpn with
    | none => some ({ s with pageFaults := s.pageFaults + 1 }, ⟨false, 0, "Page Fault"⟩)
    | some pfn =>
      if h : s.tlbNext < tlbSize then
        some ({ s with tlb := s.tlb.set s.tlbNext ⟨vpn, pfn, true⟩ h, tlbNext := (s.tlbNext + 1) % tlbSize },
          ⟨true, physOf pfn virtualAddr, "Page Table"⟩)
      else none

def flushTLB (s : State) : State := { s with tlb := s.tlb.map fun entry => { entry with valid := false } }

inductive Call
  | mapPage (virtualPage physicalFrame : UInt32)
  | translate (virtualAddr : UInt32)
  | flushTLB
  deriving DecidableEq, Repr

def virtualMemory : Machine State Call (Option TranslationResult) where
  init := {}
  step s
    | .mapPage virtualPage physicalFrame => some (mapPage s virtualPage physicalFrame, none)
    | .translate virtualAddr => (translate s virtualAddr).map fun p => (p.1, some p.2)
    | .flushTLB => some (flushTLB s, none)

/-- The frame that the most recent `mapPage` of a page installed. -/
def installed (cs : List Call) (page : UInt32) : Option UInt32 :=
  cs.reverse.findSome? fun
    | .mapPage p f => if p = page then some f else none
    | _ => none

end Playground.VirtualMemory
