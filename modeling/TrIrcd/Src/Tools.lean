import TrIrcd.Lib.Alloc
import TrIrcd.Lib.Chain

/-!
# `src/tools.c`: the dlink lists

Every `dlink_node` of the process lives in one `Dlinks`, with the three fields
of the C struct as functions of the node's address, and so does every
`dlink_list`, as the head and tail pointer of a name from `ι`. The
functions below perform the assignments of their C namesakes in order. What
`dlinkDelete` leaves in the node it unlinks is part of the model: both links
cleared, the data untouched, also after the node went back to its heap.

A loop over a list runs on the number of nodes handed out as its fuel, which
no list can exceed.
-/

namespace TrIrcd

open Function (update)
open TrIrcd.Lib

/-- The nodes and list heads. `used` holds the nodes `dnode_heap` has handed
out and not got back. -/
structure Dlinks (ι α : Type) where
  data : Nat → α
  next : Nat → Option Nat
  prev : Nat → Option Nat
  head : ι → Option Nat
  tail : ι → Option Nat
  used : List Nat

variable {ι α : Type} [DecidableEq ι]

/-- `make_dlink_node` -/
def makeDlinkNode (A : Allocator) (D : Dlinks ι α) : Nat × Dlinks ι α :=
  let lp := A.pick D.used
  (lp, { D with
    used := lp :: D.used
    next := update D.next lp none
    prev := update D.prev lp none })

/-- `free_dlink_node` -/
def freeDlinkNode (ptr : Nat) (D : Dlinks ι α) : Dlinks ι α :=
  { D with used := D.used.erase ptr }

/-- `dlinkAdd` -/
def dlinkAdd (data : α) (m : Nat) (list : ι) (D : Dlinks ι α) : Dlinks ι α :=
  let D := { D with
    data := update D.data m data
    prev := update D.prev m none
    next := update D.next m (D.head list) }
  let D := match D.head list with
    | some h => { D with prev := update D.prev h (some m) }
    | none =>
        match D.tail list with
        | none => { D with tail := update D.tail list (some m) }
        | some _ => D
  { D with head := update D.head list (some m) }

/-- `dlinkAddBefore`, or none where it goes through the NULL in `b->prev`. -/
def dlinkAddBefore (b : Nat) (data : α) (m : Nat) (list : ι) (D : Dlinks ι α) :
    Option (Dlinks ι α) :=
  if D.head list = some b then some (dlinkAdd data m list D)
  else
    match D.prev b with
    | none => none
    | some p =>
        let D := { D with
          data := update D.data m data
          next := update D.next p (some m) }
        let D := { D with prev := update D.prev m (D.prev b) }
        some { D with
          prev := update D.prev b (some m)
          next := update D.next m (some b) }

/-- `dlinkAddTail` -/
def dlinkAddTail (data : α) (m : Nat) (list : ι) (D : Dlinks ι α) : Dlinks ι α :=
  let D := { D with
    data := update D.data m data
    next := update D.next m none
    prev := update D.prev m (D.tail list) }
  let D := match D.tail list with
    | some t => { D with next := update D.next t (some m) }
    | none =>
        match D.head list with
        | none => { D with head := update D.head list (some m) }
        | some _ => D
  { D with tail := update D.tail list (some m) }

/-- `dlinkDelete` -/
def dlinkDelete (m : Nat) (list : ι) (D : Dlinks ι α) : Dlinks ι α :=
  let D := match D.next m with
    | some x => { D with prev := update D.prev x (D.prev m) }
    | none => { D with tail := update D.tail list (D.prev m) }
  let D := match D.prev m with
    | some p => { D with next := update D.next p (D.next m) }
    | none => { D with head := update D.head list (D.next m) }
  { D with
    next := update D.next m none
    prev := update D.prev m none }

/-- `dlinkMoveList`, or none where it goes through the NULL in `from->tail`. -/
def dlinkMoveList (source target : ι) (D : Dlinks ι α) : Option (Dlinks ι α) :=
  match D.head source, D.head target with
  | none, _ => some D
  | some h, none =>
      some { D with
        head := update (update D.head target (some h)) source none
        tail := update (update D.tail target (D.tail source)) source none }
  | some h, some first =>
      match D.tail source with
      | none => none
      | some t =>
          let D := { D with
            next := update D.next t (some first)
            prev := update D.prev h (D.prev first) }
          some { D with
            prev := update D.prev first (some t)
            head := update (update D.head target (some h)) source none
            tail := update D.tail source none }

/-- `dlinkDeleteNode` -/
def dlinkDeleteNode (ptr : Nat) (list : ι) (D : Dlinks ι α) : Dlinks ι α :=
  freeDlinkNode ptr (dlinkDelete ptr list D)

/-- A new node for `data`, in front of the list: the pair of calls every user
of `dlinkAdd` makes. -/
def dlinkAddNew (A : Allocator) (data : α) (list : ι) (D : Dlinks ι α) :
    Dlinks ι α :=
  let (m, D) := makeDlinkNode A D
  dlinkAdd data m list D

/-- `dlinkFind`, and the loops of its callers that look for data with a
property rather than one pointer: the first node whose data satisfies `p`. -/
def dlinkFind (list : ι) (p : α → Bool) (D : Dlinks ι α) : Option Nat :=
  findFrom D.next (fun m => p (D.data m)) D.used.length (D.head list)

/-- A search loop that unlinks and frees what it finds, and stops there. -/
def dlinkDeleteFirst (list : ι) (p : α → Bool) (D : Dlinks ι α) : Dlinks ι α :=
  match dlinkFind list p D with
  | some ptr => dlinkDeleteNode ptr list D
  | none => D

/-- The data of a list's nodes, from the head on. -/
def dlinkData (list : ι) (D : Dlinks ι α) : List α :=
  (walk D.next D.used.length (D.head list)).map D.data

/-- No node, and every list as `memset` leaves it. -/
def Dlinks.empty (a : α) : Dlinks ι α where
  data _ := a
  next _ := none
  prev _ := none
  head _ := none
  tail _ := none
  used := []

/-- `memset` over the struct a list head lies in. -/
def clearDlinkList (list : ι) (D : Dlinks ι α) : Dlinks ι α :=
  { D with head := update D.head list none, tail := update D.tail list none }

end TrIrcd
