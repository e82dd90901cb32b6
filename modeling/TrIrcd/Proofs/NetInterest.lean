import TrIrcd.Proofs.FdCounts
import TrIrcd.Src.Netio

/-!
# Who waits for what

What `comm_setselect` is for, without arrays or sets: a descriptor that is open has for
each event a handler with its data, or none, and it is on a list (`Interest`). A handler
is put there by `comm_setselect` and leaves when it is called, when it is taken back, or
with its descriptor. `Interest.step` refuses what nobody does: to wait for a descriptor
that is closed, on no list, or on two lists at once.
-/

namespace TrIrcd

open TrIrcd.Lib

namespace FdCount

variable {m fd : Nat} {s s' : FdCount}

theorem fdClose_ok (h : s.fdClose m fd = .ok s') :
    (s.fds.fdTable fd).isOpen = true ∧ (s.fds.fdTable fd).type ≠ .file := by
  rw [FdCount.fdClose] at h
  split at h
  · cases h
  · next hopen =>
      split at h
      · cases h
      · next htype => exact ⟨not_not.mp hopen, htype⟩

/-- An open of an open descriptor has closed it. -/
theorem fdOpen_ok_close {type : FdType} (hopen : (s.fds.fdTable fd).isOpen = true)
    (h : s.fdOpen m fd type = .ok s') :
    ∃ k, s.fdClose m fd = .ok k ∧ k.fdOpen m fd type = .ok s' := by
  cases hclose : s.fdClose m fd with
  | error e =>
      rw [FdCount.fdOpen, if_pos hopen, hclose] at h
      cases h
  | ok k => exact ⟨k, rfl, (fdOpen_of_close hopen hclose type).symm.trans h⟩

theorem fdClose_isOpen (h : s.fdClose m fd = .ok s') (fd' : Nat) :
    (s'.fds.fdTable fd').isOpen = true ↔ fd' ≠ fd ∧ (s.fds.fdTable fd').isOpen = true := by
  have hfds := fdClose_fds m fd s
  rw [h, FdSt.fdClose] at hfds
  split at hfds
  · cases hk : (s.fds.set fd { s.fds.fdTable fd with isOpen := false }).updateBiggest m fd
        false with
    | none =>
        rw [hk] at hfds
        cases hfds
    | some k =>
        rw [hk] at hfds
        have heq : s'.fds = k.set fd Fde.zero := Option.some.inj hfds
        rw [heq, FdSt.set_isOpen, FdSt.updateBiggest_table hk, FdSt.set_isOpen]
        by_cases hfd : fd' = fd
        · simp [hfd, Fde.zero]
        · simp [hfd]
  · cases hfds

theorem fdOpen_isOpen {type : FdType} (h : s.fdOpen m fd type = .ok s')
    (hclosed : ¬ (s.fds.fdTable fd).isOpen = true) (fd' : Nat) :
    (s'.fds.fdTable fd').isOpen = true ↔ fd' = fd ∨ (s.fds.fdTable fd').isOpen = true := by
  have hfds := fdOpen_fds_closed (m := m) hclosed type
  rw [h, FdSt.fdOpen, if_neg hclosed] at hfds
  have heq : some s'.fds = (s.fds.set fd
    { s.fds.fdTable fd with type := type, isOpen := true }).updateBiggest m fd true := hfds
  rw [FdSt.updateBiggest_table heq.symm, FdSt.set_isOpen]
  by_cases hfd : fd' = fd
  · simp [hfd]
  · simp [hfd]

end FdCount

/-- A handler waits: the list it is on, its address and its data. -/
structure Registration where
  list : FdList
  hdl : Nat
  data : Option Nat
deriving DecidableEq

/-- The descriptors, and the handlers that wait for them. -/
structure Interest where
  fds : FdCount
  waits : Nat → SelEvent → Option Registration

inductive NotDone
  | fd (e : FdAssertion)
  | outside
  | closed
  | noList
  | otherList
deriving DecidableEq

namespace Interest

def init : Interest where
  fds := FdCount.init
  waits _ _ := none

def isOpen (s : Interest) (fd : Nat) : Bool := (s.fds.fds.fdTable fd).isOpen

/-- Nobody waits for the descriptor on another list. -/
def OnlyOn (s : Interest) (fd : Nat) (list : FdList) : Prop :=
  ∀ event, (s.waits fd event).all (·.list = list)

instance (s : Interest) (fd : Nat) (list : FdList) : Decidable (s.OnlyOn fd list) :=
  decidable_of_iff ((s.waits fd .read).all (·.list = list) ∧
      (s.waits fd .write).all (·.list = list))
    ⟨fun h event => by cases event with | read => exact h.1 | write => exact h.2,
      fun h => ⟨h .read, h .write⟩⟩

def step (m : Nat) (s : Interest) : NetioOp → Except NotDone Interest
  | .fdOpen fd type =>
      if ¬ fd < m then .error .outside
      else match s.fds.fdOpen m fd type with
      | .error e => .error (.fd e)
      | .ok fds => .ok { fds := fds, waits := Function.update s.waits fd fun _ => none }
  | .fdClose fd =>
      match s.fds.fdClose m fd with
      | .error e => .error (.fd e)
      | .ok fds => .ok { fds := fds, waits := Function.update s.waits fd fun _ => none }
  | .setselect fd list type handler data =>
      if ¬ s.isOpen fd then .error .closed
      else if list = .none then .error .noList
      else if ¬ s.OnlyOn fd list then .error .otherList
      else .ok { s with
        waits := Function.update s.waits fd fun event =>
          if type event then handler.map fun hdl => ⟨list, hdl, data⟩ else s.waits fd event }
  | .take fd event =>
      if ¬ s.isOpen fd then .error .closed
      else .ok { s with
        waits := Function.update s.waits fd (Function.update (s.waits fd) event none) }

/-- What is done to another descriptor changes nothing for who waits here. -/
theorem step_waits {m fd : Nat} {s s' : Interest} {op : NetioOp} (hstep : s.step m op = .ok s')
    (hne : op.fd ≠ fd) : s'.waits fd = s.waits fd := by
  cases op with
  | fdOpen fd' type =>
      rw [step] at hstep
      split at hstep
      · cases hstep
      · split at hstep
        · cases hstep
        · cases hstep
          exact Function.update_of_ne hne.symm ..
  | fdClose fd' =>
      rw [step] at hstep
      split at hstep
      · cases hstep
      · cases hstep
        exact Function.update_of_ne hne.symm ..
  | setselect fd' list type handler data =>
      rw [step] at hstep
      split at hstep
      · cases hstep
      · split at hstep
        · cases hstep
        · split at hstep
          · cases hstep
          · cases hstep
            exact Function.update_of_ne hne.symm ..
  | take fd' event =>
      rw [step] at hstep
      split at hstep
      · cases hstep
      · cases hstep
        exact Function.update_of_ne hne.symm ..

theorem run_waits {m fd : Nat} (ops : List NetioOp) {s s' : Interest}
    (hrun : run (step m) s ops = .ok s') (hne : ∀ op ∈ ops, op.fd ≠ fd) :
    s'.waits fd = s.waits fd := by
  induction ops generalizing s with
  | nil =>
      cases hrun
      rfl
  | cons o os ih =>
      rw [List.forall_mem_cons] at hne
      obtain ⟨k, hk, hrest⟩ := run_cons_ok.mp hrun
      rw [ih hrest hne.2, step_waits hk hne.1]

end Interest

namespace NetioSt

variable {β : Type} {update : NetUpdate β} {m fd : Nat} {s k : NetioSt β} {a : Interest}
  {fds : FdCount} {type : FdType}

@[simp] theorem setSel_isOpen (s : NetioSt β) (fd : Nat) (F : FdeSel) :
    (s.setSel fd F).isOpen = s.isOpen := rfl

@[simp] theorem setSel_self (s : NetioSt β) (fd : Nat) (F : FdeSel) :
    (s.setSel fd F).sel fd = F := Function.update_self ..

theorem setSel_of_ne (s : NetioSt β) {fd fd' : Nat} (F : FdeSel) (h : fd' ≠ fd) :
    (s.setSel fd F).sel fd' = s.sel fd' := Function.update_of_ne h ..

/-! ## Opening and closing -/

/-- The entry of a descriptor is cleared. -/
def cleared (s : NetioSt β) (fd : Nat) (fds : FdCount) : NetioSt β :=
  { s.setSel fd FdeSel.zero with fds := fds }

/-- The entry of a descriptor that has been opened. -/
def opened (s : NetioSt β) (fd : Nat) (fds : FdCount) : NetioSt β :=
  { s.setSel fd { s.sel fd with commIndex := none, list := .none } with fds := fds }

theorem cleared_sel_of_ne (s : NetioSt β) (fds : FdCount) {fd' : Nat} (h : fd' ≠ fd) :
    (s.cleared fd fds).sel fd' = s.sel fd' := Function.update_of_ne h ..

theorem opened_sel_of_ne (s : NetioSt β) (fds : FdCount) {fd' : Nat} (h : fd' ≠ fd) :
    (s.opened fd fds).sel fd' = s.sel fd' := Function.update_of_ne h ..

theorem cleared_isOpen (hclose : s.fds.fdClose m fd = .ok fds) (fd' : Nat) :
    (k.cleared fd fds).isOpen fd' = true ↔ fd' ≠ fd ∧ s.isOpen fd' = true :=
  FdCount.fdClose_isOpen hclose fd'

theorem opened_isOpen (hclosed : ¬ s.isOpen fd = true) (hopen : s.fds.fdOpen m fd type = .ok fds)
    (fd' : Nat) : (s.opened fd fds).isOpen fd' = true ↔ fd' = fd ∨ s.isOpen fd' = true :=
  FdCount.fdOpen_isOpen hopen hclosed fd'

/-- What `fd_close` comes to when `comm_setselect` has made `k` of the state. -/
theorem fdClose_eq (hk : s.commSetselect update fd .none (fun _ => true) none none = .ok k)
    (hfds : k.fds = s.fds) (hclose : s.fds.fdClose m fd = .ok fds) :
    s.fdClose update m fd = .ok (k.cleared fd fds) := by
  obtain ⟨hopen, htype⟩ := FdCount.fdClose_ok hclose
  have hclose' : k.fds.fdClose m fd = .ok fds := hfds.symm ▸ hclose
  rw [NetioSt.fdClose, if_neg (not_not_intro hopen), if_neg htype, hk]
  simp only [Except.bind, hclose', cleared]

theorem fdOpen_eq (hclosed : ¬ s.isOpen fd = true) (hopen : s.fds.fdOpen m fd type = .ok fds) :
    s.fdOpen update m fd type = .ok (s.opened fd fds) := by
  rw [NetioSt.fdOpen, if_neg hclosed]
  simp only [Except.bind, hopen, opened]

/-- An open descriptor is closed first. -/
theorem fdOpen_of_fdClose (hopen : s.isOpen fd = true) (hclose : s.fdClose update m fd = .ok k)
    (hclosed : ¬ k.isOpen fd = true) :
    s.fdOpen update m fd type = k.fdOpen update m fd type := by
  rw [NetioSt.fdOpen, NetioSt.fdOpen, if_pos hopen, if_neg hclosed, hclose]

/-! ## The entries -/

/-- The entries hold the handlers that wait. -/
structure Registers (m : Nat) (s : NetioSt β) (a : Interest) : Prop where
  fds : s.fds = a.fds
  exact : s.fds.Exact m
  closed : ∀ fd, ¬ s.isOpen fd = true → ∀ event, (s.sel fd).handler event = none
  waits : ∀ fd event, a.waits fd event = ((s.sel fd).handler event).map fun hdl =>
    ⟨(s.sel fd).list, hdl, (s.sel fd).data event⟩

theorem Registers.isOpen (h : Registers m s a) (fd : Nat) : a.isOpen fd = s.isOpen fd := by
  rw [Interest.isOpen, NetioSt.isOpen, h.fds]

theorem Registers.onlyOn (h : Registers m s a) {list : FdList} (hon : a.OnlyOn fd list)
    {event : SelEvent} (hsome : ((s.sel fd).handler event).isSome = true) :
    (s.sel fd).list = list := by
  have hall := hon event
  rw [h.waits] at hall
  obtain ⟨hdl, hhdl⟩ := Option.isSome_iff_exists.mp hsome
  rw [hhdl] at hall
  exact of_decide_eq_true hall

/-- Other entries stay, and those of one descriptor hold what they are to. -/
theorem Registers.of_other {a' : Interest} (h : Registers m s a) (fd : Nat) (hfds : k.fds = a'.fds)
    (hexact : k.fds.Exact m) (hopen : ∀ fd', fd' ≠ fd → k.isOpen fd' = s.isOpen fd')
    (hsel : ∀ fd', fd' ≠ fd → k.sel fd' = s.sel fd')
    (ha : ∀ fd', fd' ≠ fd → a'.waits fd' = a.waits fd')
    (hclosed : ¬ k.isOpen fd = true → ∀ event, (k.sel fd).handler event = none)
    (hwaits : ∀ event, a'.waits fd event = ((k.sel fd).handler event).map fun hdl =>
      ⟨(k.sel fd).list, hdl, (k.sel fd).data event⟩) : Registers m k a' := by
  refine ⟨hfds, hexact, fun fd' hcl event => ?_, fun fd' event => ?_⟩
  · by_cases hne : fd' = fd
    · rw [hne] at hcl ⊢
      exact hclosed hcl event
    · rw [hopen fd' hne] at hcl
      rw [hsel fd' hne]
      exact h.closed fd' hcl event
  · by_cases hne : fd' = fd
    · rw [hne]
      exact hwaits event
    · rw [ha fd' hne, hsel fd' hne]
      exact h.waits fd' event

theorem Registers.cleared (h : Registers m s a) (hk : ∀ fd', fd' ≠ fd → k.sel fd' = s.sel fd')
    (hclose : s.fds.fdClose m fd = .ok fds) :
    Registers m (k.cleared fd fds)
      { fds := fds, waits := Function.update a.waits fd fun _ => none } := by
  obtain ⟨hopen, htype⟩ := FdCount.fdClose_ok hclose
  obtain ⟨fds', hfds', hexact⟩ := h.exact.fdClose hopen htype
  obtain rfl : fds' = fds := Except.ok.inj (hfds'.symm.trans hclose)
  have hself : (k.cleared fd fds').sel fd = FdeSel.zero := setSel_self ..
  refine h.of_other fd rfl hexact (fun fd' hne => ?_) (fun fd' hne => ?_)
    (fun fd' hne => Function.update_of_ne hne ..) (fun _ event => ?_) fun event => ?_
  · rw [Bool.eq_iff_iff, cleared_isOpen hclose]
    exact and_iff_right hne
  · rw [cleared_sel_of_ne k fds' hne, hk fd' hne]
  · rw [hself]
    rfl
  · rw [hself]
    show Function.update a.waits fd (fun _ => none) fd event = none
    rw [Function.update_self]

theorem Registers.opened (h : Registers m s a) (hfd : fd < m) (hclosed : ¬ s.isOpen fd = true)
    (hopen : s.fds.fdOpen m fd type = .ok fds) :
    Registers m (s.opened fd fds)
      { fds := fds, waits := Function.update a.waits fd fun _ => none } := by
  obtain ⟨fds', hfds', hexact⟩ := h.exact.fdOpen_closed hfd hclosed type
  obtain rfl : fds' = fds := Except.ok.inj (hfds'.symm.trans hopen)
  have hself : (s.opened fd fds').sel fd = { s.sel fd with commIndex := none, list := .none } :=
    setSel_self ..
  refine h.of_other fd rfl hexact (fun fd' hne => ?_)
    (fun fd' hne => opened_sel_of_ne s fds' hne) (fun fd' hne => Function.update_of_ne hne ..)
    (fun _ event => ?_) fun event => ?_
  · rw [Bool.eq_iff_iff, opened_isOpen hclosed hopen]
    exact or_iff_right hne
  · rw [hself]
    exact h.closed fd hclosed event
  · rw [hself]
    show Function.update a.waits fd (fun _ => none) fd event =
      ((s.sel fd).handler event).map _
    rw [h.closed fd hclosed event, Function.update_self]
    rfl

end NetioSt

end TrIrcd
