import TrIrcd.Src.Tools

/-!
# `src/blalloc.c`: the block allocator

A heap owns a chain of blocks, and a block as much memory as its elements need,
each behind a `MemBlock` that says whose it is. The `self` of a `MemBlock` is
its first field, so a `MemBlock` and its `dlink_node` have one address, and the
element lies `sizeof(MemBlock)` bytes behind it. A block keeps two lists of its
elements, the free ones and the used ones.

What the system answers is part of a call: where `calloc` puts the next `Block`
and `get_block` its memory, or that there is none. `get_block` has no NULL to
return: it aborts, or `MyMalloc` restarts the server. The nodes in memory that
a heap has got and not given back are the `used` ones of its lists. Nothing of
a block is read after `MyFree`; its lists are wiped then. Counters and sizes
are numbers without a bound.
-/

namespace TrIrcd

open Function (update)
open TrIrcd.Lib

/-- `sizeof(MemBlock)`: a `dlink_node` and a pointer. -/
def sizeofMemBlock : Nat := 32

/-- `Block`, without its lists. -/
structure Block where
  freeElems : Int
  allocSize : Nat
  next : Option Nat
  elems : Nat

/-- The `free_list` and the `used_list` of the block at an address. -/
inductive BlockList
  | free (block : Nat)
  | used (block : Nat)
  deriving DecidableEq, Repr

structure BlockHeap where
  elemSize : Nat
  elemsPerBlock : Nat
  blocksAllocated : Int
  freeElems : Int
  base : Option Nat

structure HeapSt where
  bh : BlockHeap
  block : Nat → Block
  /-- The `block` field of the `MemBlock` at an address. -/
  memblock : Nat → Option Nat
  lists : Dlinks BlockList Nat

/-- Where `calloc` puts a `Block` and `get_block` its memory. -/
structure NewMem where
  block : Nat
  elems : Nat

inductive BlockStop
  /-- `outofmemory`, which restarts the server. -/
  | outOfMemory
  /-- A block that counts free elements and lists none. -/
  | nullNode
  deriving DecidableEq, Repr

namespace HeapSt

/-- The bytes from one `MemBlock` of a block to the next. -/
def stride (s : HeapSt) : Nat := s.bh.elemSize + sizeofMemBlock

/-- The loop of `newblock`. -/
def setupBlocks (b : Nat) : Nat → Nat → HeapSt → HeapSt
  | 0, _, s => s
  | n + 1, offset, s =>
      let data := offset + sizeofMemBlock
      setupBlocks b n (offset + s.stride)
        { s with
          memblock := update s.memblock offset (some b)
          lists := dlinkAdd data offset (.free b) s.lists }

/-- The addresses of the `MemBlock`s of a block whose memory starts at `elems`. -/
def nodesFrom (s : HeapSt) (elems : Nat) : List Nat :=
  List.range' elems s.bh.elemsPerBlock s.stride

/-- The `Block` that `newblock` sets up, before its lists. -/
def freshBlock (s : HeapSt) (elems : Nat) : Block where
  freeElems := s.bh.elemsPerBlock
  allocSize := (s.bh.elemsPerBlock + 1) * s.stride
  next := s.bh.base
  elems := elems

/-- The end of `newblock`: the heap counts the block and starts with it. -/
def addBlock (b : Nat) (s : HeapSt) : HeapSt :=
  { s with
    bh := { s.bh with
      blocksAllocated := s.bh.blocksAllocated + 1
      freeElems := s.bh.freeElems + s.bh.elemsPerBlock
      base := some b } }

/-- `newblock`; there is no next state if it returns 1. -/
def newblock (mem : Option NewMem) (s : HeapSt) : Option HeapSt :=
  mem.map fun new =>
    let b := new.block
    let lists := clearDlinkList (.used b) (clearDlinkList (.free b) s.lists)
    addBlock b (setupBlocks b s.bh.elemsPerBlock new.elems
      { s with
        block := update s.block b (s.freshBlock new.elems)
        lists := { lists with used := s.nodesFrom new.elems ++ lists.used } })

/-- `BlockHeapCreate`; pointers have 8 bytes. -/
def blockHeapCreate (smallnet : Bool) (elemsize : Nat) (elemsperblock : Int)
    (mem : Option NewMem) : Except BlockStop HeapSt :=
  let smallnetSize := if smallnet then elemsperblock.tdiv 4 else elemsperblock
  if elemsize ≤ 0 ∨ smallnetSize ≤ 0 then .error .outOfMemory
  else
    let elemsize := if elemsize % 8 ≠ 0 then (elemsize + 8) / 8 * 8 else elemsize
    let s : HeapSt :=
      { bh :=
          { elemSize := elemsize
            elemsPerBlock := smallnetSize.toNat
            blocksAllocated := 0
            freeElems := 0
            base := none }
        block := fun _ => ⟨0, 0, none, 0⟩
        memblock := fun _ => none
        lists := Dlinks.empty 0 }
    match s.newblock mem with
    | none => .error .outOfMemory
    | some s => .ok s

/-- `free_block` and `MyFree` on a block. -/
def freeBlock (walker : Nat) (s : HeapSt) : HeapSt :=
  let blk := s.block walker
  let lists := clearDlinkList (.used walker) (clearDlinkList (.free walker) s.lists)
  { s with lists := { lists with
      used := lists.used.filter fun m => ¬(blk.elems ≤ m ∧ m < blk.elems + blk.allocSize) } }

/-- Make what pointed at `walker` point behind it. -/
def unlinkBlock (last : Option Nat) (walker : Nat) (s : HeapSt) : HeapSt :=
  match last with
  | some l =>
      { s with block := update s.block l { s.block l with next := (s.block walker).next } }
  | none => { s with bh := { s.bh with base := (s.block walker).next } }

/-- The loop of `BlockHeapGarbageCollect`. -/
def garbageLoop : Nat → Option Nat → Option Nat → HeapSt → HeapSt
  | 0, _, _, s => s
  | _ + 1, _, none, s => s
  | fuel + 1, last, some walker, s =>
      if (s.block walker).freeElems = s.bh.elemsPerBlock then
        let next := (s.block walker).next
        let s := (s.freeBlock walker).unlinkBlock last walker
        garbageLoop fuel last next
          { s with bh := { s.bh with
              blocksAllocated := s.bh.blocksAllocated - 1
              freeElems := s.bh.freeElems - s.bh.elemsPerBlock } }
      else garbageLoop fuel (some walker) (s.block walker).next s

/-- `BlockHeapGarbageCollect`; a turn of the loop is for one block. -/
def blockHeapGarbageCollect (s : HeapSt) : HeapSt :=
  if s.bh.freeElems < s.bh.elemsPerBlock ∨ s.bh.blocksAllocated = 1 then s
  else s.garbageLoop s.bh.blocksAllocated.toNat none s.bh.base

/-- The first part of `_BlockHeapAlloc`: there is a free element. -/
def provide (mem : Option NewMem) (s : HeapSt) : Except BlockStop HeapSt :=
  if s.bh.freeElems = 0 then
    match s.newblock mem with
    | some s => .ok s
    | none =>
        let s := s.blockHeapGarbageCollect
        if s.bh.freeElems = 0 then .error .outOfMemory else .ok s
  else .ok s

/-- The body of the loop of `_BlockHeapAlloc` on a block that counts a free
element. -/
def take (walker : Nat) (s : HeapSt) : Except BlockStop (Option Nat × HeapSt) :=
  let blk := s.block walker
  match s.lists.head (.free walker) with
  | none => .error .nullNode
  | some newNode =>
      let lists := dlinkDelete newNode (.free walker) s.lists
      let data := lists.data newNode
      .ok (some data,
        { s with
          bh := { s.bh with freeElems := s.bh.freeElems - 1 }
          block := update s.block walker { blk with freeElems := blk.freeElems - 1 }
          lists := dlinkAdd data newNode (.used walker) lists })

/-- `_BlockHeapAlloc` -/
def blockHeapAlloc (mem : Option NewMem) (s : HeapSt) :
    Except BlockStop (Option Nat × HeapSt) :=
  (s.provide mem).bind fun s =>
    match findFrom (fun b => (s.block b).next) (fun b => 0 < (s.block b).freeElems)
        s.bh.blocksAllocated.toNat s.bh.base with
    | none => .ok (none, s)
    | some walker => s.take walker

/-- `_BlockHeapFree`: the value returned, and the heap. -/
def blockHeapFree (ptr : Nat) (s : HeapSt) : Int × HeapSt :=
  if ptr = 0 then (1, s)
  else
    let memblock := ptr - sizeofMemBlock
    match s.memblock memblock with
    | none => (1, s)
    | some block =>
        let blk := s.block block
        (0, { s with
          bh := { s.bh with freeElems := s.bh.freeElems + 1 }
          block := update s.block block { blk with freeElems := blk.freeElems + 1 }
          lists := dlinkAdd ptr memblock (.free block)
            (dlinkDelete memblock (.used block) s.lists) })

/-- The blocks on the chain of the heap. -/
def owned (s : HeapSt) : List Nat :=
  walk (fun b => (s.block b).next) s.bh.blocksAllocated.toNat s.bh.base

/-- The element at `ptr` lies in the memory of the block. -/
def Holds (s : HeapSt) (b ptr : Nat) : Prop :=
  (s.block b).elems ≤ ptr ∧
    ptr + s.bh.elemSize ≤ (s.block b).elems + (s.block b).allocSize

end HeapSt

end TrIrcd
