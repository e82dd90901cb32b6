import TrIrcd.Lib.Run
import TrIrcd.Proofs.ThrottleTable

/-!
# A throttled host stays throttled

A run is any order of local connections, timers, resizes and seconds passing;
its log has an entry for each connection. `Enforced` follows the connections
of one host after a z-line was placed on it: while each comes less than the
length of the z-line after the latest of the placing and the refusals since,
it is refused, and that moves the window.

What happens to a host is decided by the host's own record and the clock
(`hostCheck`, and `find` of the timers), so the argument is about one record:
`Zapped` says that it carries the z-line, or that the window is over. The
same fact makes the hosts independent: without the connections of one, the
log of the others is what it was.

A z-line placed or renewed at time 0 is none: `zline_start = 0` is how a
record says that there is no z-line. `Enforced` therefore asks that the window
starts at another time.
-/

namespace TrIrcd

open Function (update)
open TrIrcd.Lib

/-- A connection: who, when, the answer, and the notice of a z-line placed. -/
structure ThrottleEvent where
  host : List UInt8
  time : Int
  value : Int
  notice : Option ThrottleNotice
deriving DecidableEq

/-- The stage of the z-line the event placed. -/
def ThrottleEvent.placed (e : ThrottleEvent) : Option Int :=
  e.notice.map fun n => n.offense - 1

structure ThrottleRun where
  st : ThrottleSt
  now : Int
  log : List ThrottleEvent

inductive ThrottleOp
  | tick (seconds : Nat)
  | check (host : List UInt8) (fd : Int) (hfd : fd ≠ -1)
  | timerZapped
  | timerNonzapped
  | resize (size : Nat)

/-- The call is not a connection of `host`. -/
def ThrottleOp.other (host : List UInt8) : ThrottleOp → Bool
  | .check h _ _ => cstr h ≠ cstr host
  | .tick _ => true
  | .timerZapped => true
  | .timerNonzapped => true
  | .resize _ => true

/-- While the window that starts at `latest` lasts, connections are refused, and
each refusal starts it again. A window starts only at times that are `live`. -/
def Enforced (live : Int → Prop) (zlength : Int) : Int → List ThrottleEvent → Prop
  | _, [] => True
  | latest, e :: es => live latest → e.time < latest + zlength →
      e.value = 0 ∧ Enforced live zlength e.time es

/-- What `throttle_check` makes of what it knows of a host. -/
def hostCheck (conf : ThrottleConf) (fd sotime : Int) (host : List UInt8) :
    Option Throttle → Throttle × Int × Option ThrottleNotice
  | none => (Throttle.new host sotime
      { addr := [], conns := 0, first := 0, last := 0, zlineStart := 0, stage := 0,
        reZlines := 0 }).count conf fd sotime
  | some tp => tp.again conf fd sotime

namespace ThrottleRun

def start (now : Int) : ThrottleRun where
  st := ThrottleSt.init
  now := now
  log := []

def step (A : Allocator) (conf : ThrottleConf) (m : ThrottleRun) :
    ThrottleOp → Except ThrottleFault ThrottleRun
  | .tick seconds => .ok { m with now := m.now + seconds }
  | .check host fd _ =>
      (m.st.throttleCheck A conf host fd m.now m.now).map fun (st, value, notice) =>
        { m with
          st := st
          log := m.log ++ [{ host := cstr host, time := m.now, value := value, notice := notice }] }
  | .timerZapped => .ok { m with st := m.st.throttleTimerZapped m.now }
  | .timerNonzapped => .ok { m with st := m.st.throttleTimerNonzapped m.now }
  | .resize size => (m.st.throttleResize size).map fun st => { m with st := st }

end ThrottleRun

/-! ## One connection -/

theorem Throttle.count_addr (conf : ThrottleConf) (fd sotime : Int) (tp : Throttle) :
    (tp.count conf fd sotime).1.addr = tp.addr := by
  simp only [Throttle.count]
  split
  · rfl
  · split
    · split <;> rfl
    · rfl

theorem Throttle.again_addr (conf : ThrottleConf) (fd sotime : Int) (tp : Throttle) :
    (tp.again conf fd sotime).1.addr = tp.addr := by
  simp only [Throttle.again]
  split
  · split
    · split <;> rfl
    · exact Throttle.count_addr ..
  · exact Throttle.count_addr ..

namespace ThrottleSt

variable {s s' : ThrottleSt}

/-- A connection of a host concerns the record of that host only. -/
theorem Inv.throttleCheck (hI : Inv s) (A : Allocator) (conf : ThrottleConf)
    (host : List UInt8) {fd : Int} (now : Int) (hfd : fd ≠ -1) (h0 : s.size ≠ 0)
    (hlen : s.find host = none → (cstr host).length ≤ hostIpLen) :
    ∃ s', s.throttleCheck A conf host fd now now =
        .ok (s', (hostCheck conf fd now host (s.find host)).2) ∧ Inv s' ∧ s'.size = s.size ∧
      ∀ other, s'.find other = if cstr other = cstr host then
        some (hostCheck conf fd now host (s.find host)).1 else s.find other := by
  simp only [ThrottleSt.throttleCheck, if_neg h0, if_neg fun h : fd = -1 ∧ _ => hfd h.1,
    gt_iff_lt, Int.lt_irrefl, if_false]
  cases hf : s.hashFind host with
  | none =>
      have hnone : s.find host = none := by rw [find, hf]; rfl
      obtain ⟨hI', hmem, hrec, hother⟩ := hI.insertNew A now h0 hf
      have ha : ((((s.insertNew A host now).2.record (s.insertNew A host now).1)).count
          conf fd now).1.addr =
          ((s.insertNew A host now).2.record (s.insertNew A host now).1).addr :=
        Throttle.count_addr ..
      simp only [if_neg (Nat.not_lt.mpr (hlen hnone)), hnone, hostCheck]
      refine ⟨_, ?_, hI'.setRecord ha, rfl, fun other => ?_⟩
      · rw [hrec]; rfl
      · rw [hI'.find_setRecord hmem ha, ha, hrec]
        show (if cstr other = cstr host then _ else _) = _
        split
        · rfl
        · next hne => exact hother other hne
  | some tp =>
      obtain ⟨hmem, hk⟩ := hI.hashFind_iff.mp hf
      have hsome : s.find host = some (s.record tp) := by rw [find, hf]; rfl
      have ha : ((s.record tp).again conf fd now).1.addr = (s.record tp).addr :=
        Throttle.again_addr ..
      simp only [hsome, hostCheck]
      refine ⟨_, rfl, hI.setRecord ha, rfl, fun other => ?_⟩
      rw [hI.find_setRecord hmem ha, ha, hk]

/-- The only connections that fail are those of a table with no buckets and
those of a new host whose address does not fit. -/
theorem throttleCheck_ok {s : ThrottleSt} {A : Allocator} {conf : ThrottleConf}
    {host : List UInt8} {fd now : Int} (hfd : fd ≠ -1)
    {out : ThrottleSt × Int × Option ThrottleNotice}
    (h : s.throttleCheck A conf host fd now now = .ok out) :
    s.size ≠ 0 ∧ (s.find host = none → (cstr host).length ≤ hostIpLen) := by
  simp only [ThrottleSt.throttleCheck, if_neg fun h : fd = -1 ∧ _ => hfd h.1, gt_iff_lt,
    Int.lt_irrefl, if_false] at h
  split at h
  · cases h
  · next h0 =>
      refine ⟨h0, fun hnone => ?_⟩
      cases hf : s.hashFind host with
      | some tp =>
          rw [find, hf] at hnone
          cases hnone
      | none =>
          rw [hf] at h
          simp only at h
          split at h
          · cases h
          · next hlen => exact Nat.not_lt.mp hlen

theorem throttleResize_ok (s : ThrottleSt) (size : Nat) :
    (∃ s', s.throttleResize size = .ok s') ↔
      (size = 0 → (List.range s.size).flatMap s.table = []) := by
  simp only [throttleResize, resizeHashTable]
  split
  · next h => exact iff_of_false (by rintro ⟨s', hs⟩; cases hs) fun h' => h.2 (h' h.1)
  · next h => exact iff_of_true ⟨_, rfl⟩ (not_and_not_right.mp h)

end ThrottleSt

/-! ## One step of a run -/

namespace ThrottleRun

variable {A : Allocator} {conf : ThrottleConf} {m m' : ThrottleRun}

/-- What the zapped timer leaves of a record: the timer also runs the other. -/
def afterZapped (now : Int) (r : Option Throttle) : Option Throttle :=
  (r.filter fun tp => !tp.zapOver now).filter fun tp => !tp.idle now

theorem find_timerZapped {s : ThrottleSt} (hI : s.Inv) (now : Int) :
    (s.throttleTimerZapped now).Inv ∧ (s.throttleTimerZapped now).size = s.size ∧
      ∀ host, (s.throttleTimerZapped now).find host =
        afterZapped now (s.find host) := by
  obtain ⟨hI₁, hz₁, hf₁⟩ := hI.expire (Throttle.zapOver now)
  obtain ⟨hI₂, hz₂, hf₂⟩ := hI₁.expire (Throttle.idle now)
  exact ⟨hI₂, hz₂.trans hz₁, fun host => by
    rw [ThrottleSt.throttleTimerZapped, ThrottleSt.throttleTimerNonzapped, hf₂, hf₁,
      afterZapped]⟩

/-- The log entry of a connection. -/
def event (conf : ThrottleConf) (m : ThrottleRun) (host : List UInt8) (fd : Int) :
    ThrottleEvent where
  host := cstr host
  time := m.now
  value := (hostCheck conf fd m.now host (m.st.find host)).2.1
  notice := (hostCheck conf fd m.now host (m.st.find host)).2.2

/-- Where a connection goes through, the log entry and every host's record
are what `hostCheck` says. -/
theorem step_check (hI : m.st.Inv) {host : List UInt8} {fd : Int} {hfd : fd ≠ -1}
    (hs : step A conf m (.check host fd hfd) = .ok m') :
    m'.st.Inv ∧ m'.st.size = m.st.size ∧ m'.now = m.now ∧
      m'.log = m.log ++ [m.event conf host fd] ∧
      ∀ other, m'.st.find other = if cstr other = cstr host then
        some (hostCheck conf fd m.now host (m.st.find host)).1 else m.st.find other := by
  obtain ⟨out, hout, he⟩ := map_ok_iff.mp hs
  obtain ⟨h0, hlen⟩ := ThrottleSt.throttleCheck_ok hfd hout
  obtain ⟨s', hs', hI', hz, hf⟩ := hI.throttleCheck A conf host m.now hfd h0 hlen
  rw [hs'] at hout
  cases hout
  subst he
  exact ⟨hI', hz, rfl, rfl, hf⟩

theorem step_inv (hI : m.st.Inv) {op : ThrottleOp} (hs : step A conf m op = .ok m') :
    m'.st.Inv := by
  cases op with
  | tick seconds => cases hs; exact hI
  | check host fd hfd => exact (step_check hI hs).1
  | timerZapped => cases hs; exact (find_timerZapped hI m.now).1
  | timerNonzapped => cases hs; exact (hI.expire _).1
  | resize size =>
      obtain ⟨st, hst, he⟩ := map_ok_iff.mp hs
      subst he
      exact (hI.throttleResize hst).1

/-- A call that is not a connection logs nothing. -/
theorem step_log {op : ThrottleOp} (hs : step A conf m op = .ok m') :
    (∃ host fd hfd, op = .check host fd hfd) ∨ m'.log = m.log := by
  cases op with
  | tick seconds => cases hs; exact Or.inr rfl
  | check host fd hfd => exact Or.inl ⟨host, fd, hfd, rfl⟩
  | timerZapped => cases hs; exact Or.inr rfl
  | timerNonzapped => cases hs; exact Or.inr rfl
  | resize size =>
      obtain ⟨st, -, he⟩ := map_ok_iff.mp hs
      subst he
      exact Or.inr rfl

/-! ## The window -/

/-- The record carries the z-line of length `zlength` started at `latest`, or
the window is over. -/
def Zapped (zlength latest now : Int) (r : Option Throttle) : Prop :=
  (∃ tp, r = some tp ∧ tp.zlineStart = latest ∧ throttleGetZlineTime tp.stage = zlength) ∨
    latest + zlength ≤ now

variable {zlength latest : Int} {h : List UInt8}

theorem Zapped.timer (hz : Zapped zlength latest m.now (m.st.find h)) (hl : latest ≠ 0) :
    Zapped zlength latest m.now (afterZapped m.now (m.st.find h)) := by
  rcases hz with ⟨tp, hr, hs, hlen⟩ | hover
  · by_cases ho : tp.zapOver m.now = true
    · simp only [Throttle.zapOver, hs, hlen, decide_eq_true_eq, throttleZtime] at ho
      exact Or.inr (by omega)
    · refine Or.inl ⟨tp, ?_, hs, hlen⟩
      have hidle : tp.idle m.now = false := by
        simp only [Throttle.idle, hs, hl, ne_eq, not_false_eq_true, not_true_eq_false,
          false_and, decide_false]
      rw [afterZapped, hr, Option.filter_some, if_pos (by simpa using ho),
        Option.filter_some, if_pos (by simp [hidle])]
  · exact Or.inr hover

theorem Zapped.idle (hz : Zapped zlength latest m.now (m.st.find h)) (hl : latest ≠ 0) :
    Zapped zlength latest m.now
      ((m.st.find h).filter fun tp => !tp.idle m.now) := by
  rcases hz with ⟨tp, hr, hs, hlen⟩ | hover
  · refine Or.inl ⟨tp, ?_, hs, hlen⟩
    have hidle : tp.idle m.now = false := by
      simp only [Throttle.idle, hs, hl, ne_eq, not_false_eq_true, not_true_eq_false,
        false_and, decide_false]
    rw [hr, Option.filter_some, if_pos (by simp [hidle])]
  · exact Or.inr hover

/-- A connection within the window is refused and starts it again. -/
theorem hostCheck_zapped {fd now : Int} (hfd : fd ≠ -1) {r : Option Throttle}
    (hz : Zapped zlength latest now r) (hl : latest ≠ 0) (hin : now < latest + zlength) :
    (hostCheck conf fd now h r).2.1 = 0 ∧
      Zapped zlength now now (some (hostCheck conf fd now h r).1) := by
  rcases hz with ⟨tp, rfl, hs, hlen⟩ | hover
  · have hw : now - tp.zlineStart < throttleGetZlineTime tp.stage := by
      rw [hs, hlen]
      omega
    have ha : hostCheck conf fd now h (some tp) =
        ({ tp with reZlines := tp.reZlines + 1, zlineStart := now }, 0, none) := by
      simp only [hostCheck, Throttle.again, hs, ne_eq, hl, not_false_eq_true, if_true, hfd,
        if_false]
      rw [← hs, if_pos hw]
    rw [ha]
    exact ⟨rfl, Or.inl ⟨_, rfl, rfl, hlen⟩⟩
  · omega

/-- A run only adds to the log. -/
theorem run_log (ops : List ThrottleOp) : ∀ {m m' : ThrottleRun}, m.st.Inv →
    run (step A conf) m ops = .ok m' → ∃ more, m'.log = m.log ++ more := by
  induction ops with
  | nil =>
      intro m m' _ hr
      cases hr
      exact ⟨[], (List.append_nil _).symm⟩
  | cons op ops ih =>
      intro m m' hI hr
      obtain ⟨k, hk, hr'⟩ := run_cons_ok.mp hr
      obtain ⟨more, hmore⟩ := ih (step_inv hI hk) hr'
      rcases step_log hk with ⟨host, fd, hfd, rfl⟩ | he
      · obtain ⟨-, -, -, he, -⟩ := step_check hI hk
        exact ⟨_ :: more, by rw [hmore, he, List.append_assoc, List.singleton_append]⟩
      · exact ⟨more, by rw [hmore, he]⟩

theorem log_cons {ops : List ThrottleOp} {e : ThrottleEvent} {more : List ThrottleEvent}
    {k : ThrottleRun} (hI : k.st.Inv) (he : k.log = m.log ++ [e])
    (hr : run (step A conf) k ops = .ok m') (hmore : m'.log = m.log ++ more) :
    ∃ more', m'.log = k.log ++ more' ∧ more = e :: more' := by
  obtain ⟨more', hmore'⟩ := run_log ops hI hr
  refine ⟨more', hmore', ?_⟩
  rw [hmore', he, List.append_assoc] at hmore
  exact (List.append_cancel_left hmore).symm

/-- From a record in its window on, the connections of its host are refused as
the window says. -/
theorem run_enforced (ops : List ThrottleOp) : ∀ {m m' : ThrottleRun} {latest : Int},
    m.st.Inv → (latest ≠ 0 → Zapped zlength latest m.now (m.st.find h)) →
    run (step A conf) m ops = .ok m' → ∀ more, m'.log = m.log ++ more →
    Enforced (· ≠ 0) zlength latest (more.filter fun e => e.host = cstr h) := by
  induction ops with
  | nil =>
      intro m m' latest _ _ hr more hmore
      cases hr
      rw [List.append_right_eq_self.mp hmore.symm]
      trivial
  | cons op ops ih =>
      intro m m' latest hI hz hr more hmore
      obtain ⟨k, hk, hr'⟩ := run_cons_ok.mp hr
      have hIk := step_inv hI hk
      -- A call that logs nothing leaves the window where it is.
      have hquiet : k.log = m.log →
          (latest ≠ 0 → Zapped zlength latest k.now (k.st.find h)) →
          Enforced (· ≠ 0) zlength latest (more.filter fun e => e.host = cstr h) :=
        fun hlog hz' => ih hIk hz' hr' more (by rw [hmore, hlog])
      cases op with
      | tick seconds =>
          cases hk
          refine hquiet rfl fun hl => ?_
          rcases hz hl with hz | hover
          · exact Or.inl hz
          · exact Or.inr (by simp only; omega)
      | timerZapped =>
          cases hk
          refine hquiet rfl fun hl => ?_
          rw [(find_timerZapped hI m.now).2.2]
          exact (hz hl).timer hl
      | timerNonzapped =>
          cases hk
          refine hquiet rfl fun hl => ?_
          rw [ThrottleSt.throttleTimerNonzapped, (hI.expire _).2.2]
          exact (hz hl).idle hl
      | resize size =>
          obtain ⟨st, hst, he⟩ := map_ok_iff.mp hk
          subst he
          refine hquiet rfl fun hl => ?_
          rw [(hI.throttleResize hst).2.2]
          exact hz hl
      | check host fd hfd =>
          obtain ⟨-, -, hnow, hlog, hfind⟩ := step_check hI hk
          obtain ⟨more', hmore', hcons⟩ := log_cons hIk hlog hr' hmore
          rw [hcons]
          by_cases hh : cstr h = cstr host
          · have hfilter : (event conf m host fd :: more').filter (fun e => e.host = cstr h) =
                event conf m host fd :: more'.filter fun e => e.host = cstr h :=
              List.filter_cons_of_pos (decide_eq_true hh.symm)
            rw [hfilter]
            intro hl hin
            obtain ⟨hv, hz'⟩ := hostCheck_zapped (h := host) hfd (hz hl) hl hin
            have hk' := hfind h
            rw [if_pos hh] at hk'
            rw [ThrottleSt.find_of_cstr hh] at hv hz'
            refine ⟨hv, ih hIk (fun _ => ?_) hr' more' hmore'⟩
            rw [hnow, hk']
            exact hz'
          · have hfilter : (event conf m host fd :: more').filter (fun e => e.host = cstr h) =
                more'.filter fun e => e.host = cstr h :=
              List.filter_cons_of_neg fun hd => hh (of_decide_eq_true hd).symm
            rw [hfilter]
            refine ih hIk (fun hl => ?_) hr' more' hmore'
            rw [hnow, hfind, if_neg hh]
            exact hz hl

/-- A connection that places a z-line leaves its host in the window. -/
theorem hostCheck_placed {fd now : Int} {host : List UInt8} {r : Option Throttle}
    {n : ThrottleNotice} (hn : (hostCheck conf fd now host r).2.2 = some n) :
    Zapped (throttleGetZlineTime (n.offense - 1)) now now
      (some (hostCheck conf fd now host r).1) := by
  -- Only the last branch of `throttle_check` sends the notice.
  have hcount : ∀ tp : Throttle, (tp.count conf fd now).2.2 = some n →
      Zapped (throttleGetZlineTime (n.offense - 1)) now now
        (some (tp.count conf fd now).1) := by
    intro tp hn
    simp only [Throttle.count] at hn ⊢
    split at hn
    · cases hn
    · next h₁ =>
        split at hn
        · next h₂ =>
            split at hn
            · next h₃ =>
                cases hn
                rw [if_neg h₁, if_pos h₂, if_pos h₃]
                exact Or.inl ⟨_, rfl, rfl, by simp only [Int.add_sub_cancel]⟩
            · cases hn
        · cases hn
  cases r with
  | none => exact hcount _ hn
  | some tp =>
      simp only [hostCheck, Throttle.again] at hn ⊢
      split at hn
      · next h₁ =>
          rw [if_pos h₁]
          split at hn
          · split at hn <;> cases hn
          · next h₂ =>
              rw [if_neg h₂]
              exact hcount _ hn
      · next h₁ =>
          rw [if_neg h₁]
          exact hcount _ hn

/-- Every z-line placed during a run is enforced for the rest of it. -/
theorem run_placed (ops : List ThrottleOp) : ∀ {m m' : ThrottleRun}, m.st.Inv →
    run (step A conf) m ops = .ok m' → ∀ more, m'.log = m.log ++ more →
    ∀ pre e post stage, more = pre ++ e :: post → e.placed = some stage →
      Enforced (· ≠ 0) (throttleGetZlineTime stage) e.time
        (post.filter fun x => x.host = e.host) := by
  induction ops with
  | nil =>
      intro m m' _ hr more hmore pre e post stage hsplit _
      cases hr
      rw [List.append_right_eq_self.mp hmore.symm] at hsplit
      cases pre <;> cases hsplit
  | cons op ops ih =>
      intro m m' hI hr more hmore pre e post stage hsplit hp
      obtain ⟨k, hk, hr'⟩ := run_cons_ok.mp hr
      have hIk := step_inv hI hk
      rcases step_log hk with ⟨host, fd, hfd, rfl⟩ | hlog
      · obtain ⟨-, -, hnow, hlog, hfind⟩ := step_check hI hk
        obtain ⟨more', hmore', hcons⟩ := log_cons hIk hlog hr' hmore
        rw [hcons] at hsplit
        cases pre with
        | cons e₁ pre =>
            cases hsplit
            exact ih hIk hr' _ hmore' pre e post stage rfl hp
        | nil =>
            cases hsplit
            obtain ⟨n, hn, hstage⟩ := Option.map_eq_some_iff.mp hp
            subst hstage
            refine run_enforced ops hIk (fun _ => ?_) hr' post hmore'
            rw [hnow, hfind, if_pos rfl]
            exact hostCheck_placed hn
      · exact ih hIk hr' more (by rw [hmore, hlog]) pre e post stage hsplit hp

/-! ## The other hosts -/

/-- `m'` is what `m` would be without the connections of `h`. -/
structure Without (h : List UInt8) (m m' : ThrottleRun) : Prop where
  inv : m.st.Inv
  inv' : m'.st.Inv
  size : m'.st.size = m.st.size
  now : m'.now = m.now
  log : m'.log = m.log.filter fun e => e.host ≠ cstr h
  find : ∀ other, cstr other ≠ cstr h → m'.st.find other = m.st.find other
  absent : m'.st.find h = none

theorem start_without (h : List UInt8) (now : Int) : Without h (start now) (start now) where
  inv := ThrottleSt.init_inv
  inv' := ThrottleSt.init_inv
  size := rfl
  now := rfl
  log := rfl
  find _ _ := rfl
  absent := rfl

/-- The records of `m'` are among those of `m`. -/
theorem Without.throttles_nil {m₁ : ThrottleRun} (hw : Without h m m₁)
    (hnil : m.st.throttles = []) : m₁.st.throttles = [] := by
  refine List.eq_nil_iff_forall_not_mem.mpr fun x hx => ?_
  have haddr := hw.inv'.addr x hx
  have hf := hw.inv'.find_iff.mpr ⟨x, hx, haddr.symm, rfl⟩
  by_cases ha : cstr (m₁.st.record x).addr = cstr h
  · rw [ThrottleSt.find_of_cstr ha, hw.absent] at hf
    cases hf
  · rw [hw.find _ ha] at hf
    obtain ⟨y, hy, -⟩ := hw.inv.find_iff.mp hf
    rw [hnil] at hy
    cases hy

/-- A call that is not a connection of `h` does the same to both. -/
theorem Without.step {m₁ : ThrottleRun} (hw : Without h m m₁) {op : ThrottleOp}
    (ho : op.other h = true) (hs : step A conf m op = .ok m') :
    ∃ m₁', ThrottleRun.step A conf m₁ op = .ok m₁' ∧ Without h m' m₁' := by
  cases op with
  | tick seconds =>
      cases hs
      exact ⟨_, rfl, hw.inv, hw.inv', hw.size, congrArg (· + (seconds : Int)) hw.now, hw.log,
        hw.find, hw.absent⟩
  | timerZapped =>
      cases hs
      obtain ⟨hI, hz, hf⟩ := find_timerZapped hw.inv m.now
      obtain ⟨hI', hz', hf'⟩ := find_timerZapped hw.inv' m₁.now
      refine ⟨_, rfl, hI, hI', by rw [hz', hz, hw.size], hw.now, hw.log, fun other hne => ?_, ?_⟩
      · rw [hf, hf', hw.find other hne, hw.now]
      · rw [hf', hw.absent]
        rfl
  | timerNonzapped =>
      cases hs
      obtain ⟨hI, hz, hf⟩ := hw.inv.expire (Throttle.idle m.now)
      obtain ⟨hI', hz', hf'⟩ := hw.inv'.expire (Throttle.idle m₁.now)
      refine ⟨_, rfl, hI, hI', ?_, hw.now, hw.log, fun other hne => ?_, ?_⟩
      · exact hz'.trans (hw.size.trans hz.symm)
      · simp only [ThrottleSt.throttleTimerNonzapped]
        rw [hf, hf', hw.find other hne, hw.now]
      · simp only [ThrottleSt.throttleTimerNonzapped]
        rw [hf', hw.absent]
        rfl
  | resize size =>
      obtain ⟨st, hst, he⟩ := map_ok_iff.mp hs
      subst he
      obtain ⟨hI, hz, hf⟩ := hw.inv.throttleResize hst
      obtain ⟨st', hst'⟩ := (ThrottleSt.throttleResize_ok m₁.st size).mpr fun h0 => by
        have hold := (ThrottleSt.throttleResize_ok m.st size).mp ⟨st, hst⟩ h0
        have hnil : m.st.throttles = [] := List.eq_nil_iff_forall_not_mem.mpr fun x hx => by
          rw [← hw.inv.mem_old, hold] at hx
          cases hx
        refine List.eq_nil_iff_forall_not_mem.mpr fun x hx => ?_
        rw [hw.inv'.mem_old, hw.throttles_nil hnil] at hx
        cases hx
      obtain ⟨hI', hz', hf'⟩ := hw.inv'.throttleResize hst'
      refine ⟨_, map_ok_iff.mpr ⟨st', hst', rfl⟩, hI, hI', by rw [hz, hz'], hw.now, hw.log,
        fun other hne => ?_, ?_⟩
      · rw [hf, hf', hw.find other hne]
      · rw [hf', hw.absent]
  | check host fd hfd =>
      have hne : cstr host ≠ cstr h := by simpa [ThrottleOp.other] using ho
      obtain ⟨out, hout, -⟩ := map_ok_iff.mp hs
      obtain ⟨h0, hlen⟩ := ThrottleSt.throttleCheck_ok hfd hout
      obtain ⟨hI, hz, hnow, hlog, hf⟩ := step_check hw.inv hs
      obtain ⟨s', hs', -⟩ := hw.inv'.throttleCheck A conf host m₁.now hfd
        (by rw [hw.size]; exact h0) (by rw [hw.find host hne]; exact hlen)
      have hstep : ∃ m₁', ThrottleRun.step A conf m₁ (.check host fd hfd) = .ok m₁' :=
        ⟨_, map_ok_iff.mpr ⟨_, hs', rfl⟩⟩
      obtain ⟨m₁', hm₁⟩ := hstep
      obtain ⟨hI', hz', hnow', hlog', hf'⟩ := step_check hw.inv' hm₁
      have hevent : m₁.event conf host fd = m.event conf host fd := by
        rw [event, event, hw.now, hw.find host hne]
      refine ⟨m₁', hm₁, hI, hI', by rw [hz, hz', hw.size], by rw [hnow, hnow', hw.now], ?_, ?_, ?_⟩
      · rw [hlog, hlog', hevent, hw.log, List.filter_append]
        rw [List.filter_singleton]
        simp [event, hne]
      · intro other hother
        rw [hf, hf', hw.find host hne, hw.now, hw.find other hother]
      · rw [hf', if_neg (Ne.symm hne), hw.absent]

/-- A connection of `h` concerns `m` only. -/
theorem Without.skip {m₁ : ThrottleRun} (hw : Without h m m₁) {op : ThrottleOp}
    (ho : ¬ op.other h = true) (hs : ThrottleRun.step A conf m op = .ok m') :
    Without h m' m₁ := by
  cases op with
  | check host fd hfd =>
      have heq : cstr host = cstr h := by simpa [ThrottleOp.other] using ho
      obtain ⟨hI, hz, hnow, hlog, hf⟩ := step_check hw.inv hs
      refine ⟨hI, hw.inv', by rw [hz, hw.size], by rw [hnow, hw.now], ?_, ?_, hw.absent⟩
      · rw [hlog, List.filter_append, ← hw.log, List.filter_singleton]
        simp [event, heq]
      · intro other hother
        rw [hf, heq, if_neg hother, hw.find other hother]
  | tick seconds => exact absurd rfl ho
  | timerZapped => exact absurd rfl ho
  | timerNonzapped => exact absurd rfl ho
  | resize size => exact absurd rfl ho

theorem run_without (ops : List ThrottleOp) : ∀ {m m' m₁ : ThrottleRun}, Without h m m₁ →
    run (ThrottleRun.step A conf) m ops = .ok m' →
    ∃ m₁', run (ThrottleRun.step A conf) m₁ (ops.filter (·.other h)) = .ok m₁' ∧
      Without h m' m₁' := by
  induction ops with
  | nil =>
      intro m m' m₁ hw hr
      cases hr
      exact ⟨m₁, rfl, hw⟩
  | cons op ops ih =>
      intro m m' m₁ hw hr
      obtain ⟨k, hk, hr'⟩ := run_cons_ok.mp hr
      by_cases ho : op.other h = true
      · obtain ⟨k₁, hk₁, hw'⟩ := hw.step ho hk
        obtain ⟨m₁', hm, hw''⟩ := ih hw' hr'
        rw [List.filter_cons_of_pos ho]
        exact ⟨m₁', run_cons_ok.mpr ⟨k₁, hk₁, hm⟩, hw''⟩
      · obtain ⟨m₁', hm, hw'⟩ := ih (hw.skip ho hk) hr'
        rw [List.filter_cons_of_neg ho]
        exact ⟨m₁', hm, hw'⟩

/-- In every run, a z-line placed on a host is enforced for as long as its
window lasts, and the answers and the records of the other hosts are what
they are without the connections of that host. -/
theorem zline_enforced (A : Allocator) (conf : ThrottleConf) (now : Int)
    (ops : List ThrottleOp) (m : ThrottleRun)
    (hr : run (step A conf) (start now) ops = .ok m) :
    (∀ pre e post stage, m.log = pre ++ e :: post → e.placed = some stage →
      Enforced (· ≠ 0) (throttleGetZlineTime stage) e.time
        (post.filter fun x => x.host = e.host)) ∧
    ∀ h, ∃ m', run (step A conf) (start now) (ops.filter (·.other h)) = .ok m' ∧
      m'.log = m.log.filter (fun e => e.host ≠ cstr h) ∧
      ∀ other, cstr other ≠ cstr h → m'.st.find other = m.st.find other := by
  constructor
  · exact run_placed ops ThrottleSt.init_inv hr m.log rfl
  · intro h
    obtain ⟨m', hm', hw⟩ := run_without ops (start_without h now) hr
    exact ⟨m', hm', hw.log, hw.find⟩

/-- The address `1`. -/
def one : List UInt8 := [0x31]

def oneConnect : ThrottleConf := { tcount := 1, ttime := 10 }

/-- Two connections a minute apart. -/
def minuteApart : List ThrottleOp :=
  [.check one 5 (by decide), .tick 60, .check one 5 (by decide)]

theorem zline_enforced_once :
    ∃ m, run (step .bump oneConnect) (start 100) minuteApart = .ok m ∧
      ∀ pre e post stage, m.log = pre ++ e :: post → e.placed = some stage →
        Enforced (· ≠ 0) (throttleGetZlineTime stage) e.time
          (post.filter fun x => x.host = e.host) :=
  ⟨_, rfl, (zline_enforced .bump oneConnect 100 minuteApart _ rfl).1⟩

/-- A z-line of two minutes placed at time 0 lets its host in after one. -/
theorem zline_lost_at_zero :
    ∃ m e₁ e₂, run (step .bump oneConnect) (start 0) minuteApart = .ok m ∧
      m.log = [e₁, e₂] ∧ e₁.placed = some 0 ∧ e₂.host = e₁.host ∧
      ¬ Enforced (fun _ => True) (throttleGetZlineTime 0) e₁.time [e₂] := by
  refine ⟨_, _, _, rfl, rfl, by decide, rfl, fun h => ?_⟩
  exact absurd (h trivial (by decide)).1 (by decide)

end ThrottleRun

end TrIrcd
