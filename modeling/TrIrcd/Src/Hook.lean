import TrIrcd.Src.Tools

/-!
# `src/hook.c`: events and their hooks

An event is a block on the list `hooks`, with a list of functions of its own. A
block and a function are their addresses. What `calchash` makes of a name is a
parameter, and the functions leave the lists alone.

Where `hook_add_hook` finds no event it may load a module, which makes calls of
its own. They come before it in a run: it looks for the event again then, and
does what it does where it finds the event at once.
-/

namespace TrIrcd

open Function (update)
open TrIrcd.Lib

structure HookEnv where
  alloc : Allocator
  /-- `atol(calchash(txt, out))` -/
  eventId : List UInt8 → Int

structure Hook where
  name : List UInt8
  id : Int

structure HookSt where
  /-- `none` is `hooks`, and `some h` the list in the block `h`. -/
  lists : Dlinks (Option Nat) Nat
  hook : Nat → Hook
  /-- The blocks of `MyMalloc` in use. -/
  used : List Nat

namespace HookSt

/-- `init_hooks` -/
def init : HookSt := ⟨Dlinks.empty 0, fun _ => ⟨[], 0⟩, []⟩

variable (E : HookEnv)

/-- `hook_add_event`. The node `eventNode` is not used. -/
def hookAddEvent (name : List UInt8) (s : HookSt) : Int × HookSt :=
  let (node, lists) := makeDlinkNode E.alloc s.lists
  let newhook := E.alloc.pick s.used
  let lists := clearDlinkList (some newhook) lists
  let (_, lists) := makeDlinkNode E.alloc lists
  (E.eventId name, {
    lists := dlinkAdd newhook node none lists
    hook := update s.hook newhook ⟨name, E.eventId name⟩
    used := newhook :: s.used })

/-- The loops of `find_hook` and `find_hook_id`. -/
def findHookBy (p : Hook → Bool) (s : HookSt) : Option Nat :=
  (dlinkFind none (fun h => p (s.hook h)) s.lists).map s.lists.data

/-- `find_hook` -/
def findHook (name : List UInt8) (s : HookSt) : Option Nat := findHookBy (·.name = name) s

/-- `find_hook_id` -/
def findHookId (id : Int) (s : HookSt) : Option Nat := findHookBy (·.id = id) s

/-- `hook_add_hook` -/
def hookAddHook (event : List UInt8) (fn : Nat) (s : HookSt) : Int × HookSt :=
  match findHook event s with
  | none => (-1, s)
  | some h => (0, { s with lists := dlinkAddNew E.alloc fn (some h) s.lists })

/-- The loop of `hook_del_hook`, which goes on from `node` and not from
`nnode`. -/
def delHookLoop (h fn : Nat) : Nat → Option Nat → Dlinks (Option Nat) Nat →
    Dlinks (Option Nat) Nat
  | 0, _, lists => lists
  | _ + 1, none, lists => lists
  | fuel + 1, some node, lists =>
      let lists :=
        if lists.data node = fn then freeDlinkNode node (dlinkDelete node (some h) lists)
        else lists
      delHookLoop h fn fuel (lists.next node) lists

/-- `hook_del_hook` -/
def hookDelHook (event : List UInt8) (fn : Nat) (s : HookSt) : Int × HookSt :=
  match findHook event s with
  | none => (-1, s)
  | some h => (0, { s with
      lists := delHookLoop h fn s.lists.used.length (s.lists.head (some h)) s.lists })

/-- The loop of `hook_call_event`: the functions it calls, and what it returns.
`result` is what each returns for the data. -/
def callLoop (result : Nat → Int) (lists : Dlinks (Option Nat) Nat) :
    Nat → Option Nat → List Nat × Int
  | 0, _ => ([], 0)
  | _ + 1, none => ([], 0)
  | fuel + 1, some node =>
      let fn := lists.data node
      let r := result fn
      if r ≠ 0 then ([fn], r)
      else
        let (fns, r) := callLoop result lists fuel (lists.next node)
        (fn :: fns, r)

/-- `hook_call_event` -/
def hookCallEvent (id : Int) (result : Nat → Int) (s : HookSt) : List Nat × Int :=
  match findHookId id s with
  | none => ([], 0)
  | some h => callLoop result s.lists s.lists.used.length (s.lists.head (some h))

end HookSt

/-! ## The machine

Events with an id of their own. -/

inductive HookOp
  | addEvent (name : List UInt8)
  | addHook (event : List UInt8) (fn : Nat)
  | delHook (event : List UInt8) (fn : Nat)
deriving DecidableEq, Repr

inductive HookFault
  | sameId
deriving DecidableEq, Repr

def hookStep (E : HookEnv) (s : HookSt) : HookOp → Except HookFault HookSt
  | .addEvent name =>
      if (s.findHookId (E.eventId name)).isSome then .error .sameId
      else .ok (s.hookAddEvent E name).2
  | .addHook event fn => .ok (s.hookAddHook E event fn).2
  | .delHook event fn => .ok (s.hookDelHook event fn).2

end TrIrcd
