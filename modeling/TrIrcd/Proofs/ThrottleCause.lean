import TrIrcd.Proofs.Throttling

/-!
# Nobody is refused without cause

`ThrottleCall` adds `throttle_remove` and `throttle_rehash` to the calls of a
run. What a call does to the record of a host is `effect`, which looks at no
other host; so the log of one host is the same with the connections of the
others left out (`Alone`).

A record counts connections since `first`. `Counted` says that there were as
many, at the times from `first` to now, and that a z-line has its cause in the
log: `throttle_tcount` connections of the host within `throttle_ttime` seconds.
A refusal finds either the z-line or the count, and has the same cause.
-/

namespace TrIrcd

open TrIrcd.Lib

inductive ThrottleCall
  | op (o : ThrottleOp)
  | remove (host : List UInt8)
  | rehash

namespace ThrottleCall

/-- An address has room in a record, and there is a bucket for it. -/
def Fits : ThrottleCall → Prop
  | .op (.check host _ _) => (cstr host).length ≤ hostIpLen
  | .op (.resize size) => size ≠ 0
  | _ => True

instance : DecidablePred Fits := fun c =>
  match c with
  | .op (.check host _ _) => inferInstanceAs (Decidable ((cstr host).length ≤ hostIpLen))
  | .op (.resize size) => inferInstanceAs (Decidable (size ≠ 0))
  | .op (.tick _) | .op .timerZapped | .op .timerNonzapped | .remove _ | .rehash => .isTrue trivial

/-- The call is not a connection of another host than `h`. -/
def keeps (h : List UInt8) : ThrottleCall → Bool
  | .op (.check host _ _) => cstr host = cstr h
  | _ => true

/-- What the call makes of the record of `other`. -/
def effect (conf : ThrottleConf) (now : Int) (other : List UInt8) :
    ThrottleCall → Option Throttle → Option Throttle
  | .op (.check host fd _), r =>
      if cstr other = cstr host then some (hostCheck conf fd now host r).1 else r
  | .op .timerZapped, r => ThrottleRun.afterZapped now r
  | .op .timerNonzapped, r => r.filter fun tp => !tp.idle now
  | .op (.tick _), r => r
  | .op (.resize _), r => r
  | .remove host, r => if cstr other = cstr host ∧ cstr host ≠ [] then none else r
  | .rehash, _ => none

/-- The time after the call. -/
def later (now : Int) : ThrottleCall → Int
  | .op (.tick seconds) => now + seconds
  | _ => now

end ThrottleCall

/-- How often a host connected in an interval. -/
def attempts (h : List UInt8) (first last : Int) (log : List ThrottleEvent) : Nat :=
  log.countP fun e => e.host = cstr h ∧ first ≤ e.time ∧ e.time ≤ last

/-- The host connected `throttle_tcount` times in an interval of
`throttle_ttime` seconds. -/
def Cause (conf : ThrottleConf) (h : List UInt8) (log : List ThrottleEvent) : Prop :=
  ∃ first, conf.tcount ≤ attempts h first (first + conf.ttime) log

/-- Each refusal has its cause in the log up to it. -/
def Caused (conf : ThrottleConf) (log : List ThrottleEvent) : Prop :=
  ∀ pre e post, log = pre ++ e :: post → e.value = 0 → Cause conf e.host (pre ++ [e])

namespace ThrottleRun

def callStep (A : Allocator) (conf : ThrottleConf) (m : ThrottleRun) :
    ThrottleCall → Except ThrottleFault ThrottleRun
  | .op o => step A conf m o
  | .remove host => .ok { m with st := m.st.throttleRemove host }
  | .rehash => .ok { m with st := m.st.throttleRehash }

/-- The entries that the call puts into the log. -/
def entries (conf : ThrottleConf) (m : ThrottleRun) : ThrottleCall → List ThrottleEvent
  | .op (.check host fd _) => [m.event conf host fd]
  | _ => []

variable {A : Allocator} {conf : ThrottleConf} {m m' : ThrottleRun} {h : List UInt8}

/-- The table is in order and has a bucket. -/
structure Ready (m : ThrottleRun) : Prop where
  inv : m.st.Inv
  size : m.st.size ≠ 0

/-- Where `m'` is after a call. -/
structure Called (conf : ThrottleConf) (m m' : ThrottleRun) (c : ThrottleCall) : Prop where
  ready : Ready m'
  now : m'.now = c.later m.now
  log : m'.log = m.log ++ m.entries conf c
  find : ∀ other, m'.st.find other = c.effect conf m.now other (m.st.find other)

/-- A call that fits goes through. -/
theorem callStep_ok (A : Allocator) (conf : ThrottleConf) (hm : Ready m) {c : ThrottleCall}
    (hc : c.Fits) : ∃ m', callStep A conf m c = .ok m' ∧ Called conf m m' c := by
  cases c with
  | remove host =>
      obtain ⟨hI, hz, hf⟩ := hm.inv.throttleRemove host
      exact ⟨_, rfl, ⟨hI, by rw [hz]; exact hm.size⟩, rfl, (List.append_nil _).symm, hf⟩
  | rehash =>
      obtain ⟨hI, hz, hf⟩ := hm.inv.expire fun _ => true
      refine ⟨_, rfl, ⟨hI, by rw [ThrottleSt.throttleRehash, hz]; exact hm.size⟩, rfl,
        (List.append_nil _).symm, fun other => (hf other).trans ?_⟩
      simp [ThrottleCall.effect]
  | op o =>
      cases o with
      | tick seconds =>
          exact ⟨_, rfl, ⟨hm.inv, hm.size⟩, rfl, (List.append_nil _).symm, fun _ => rfl⟩
      | timerZapped =>
          obtain ⟨hI, hz, hf⟩ := find_timerZapped hm.inv m.now
          exact ⟨_, rfl, ⟨hI, by rw [hz]; exact hm.size⟩, rfl, (List.append_nil _).symm, hf⟩
      | timerNonzapped =>
          obtain ⟨hI, hz, hf⟩ := hm.inv.expire (Throttle.idle m.now)
          refine ⟨_, rfl, ⟨hI, ?_⟩, rfl, (List.append_nil _).symm, hf⟩
          rw [ThrottleSt.throttleTimerNonzapped, hz]
          exact hm.size
      | resize size =>
          obtain ⟨st, hst⟩ := (ThrottleSt.throttleResize_ok m.st size).mpr fun h0 => absurd h0 hc
          obtain ⟨hI, hz, hf⟩ := hm.inv.throttleResize hst
          exact ⟨_, map_ok_iff.mpr ⟨st, hst, rfl⟩, ⟨hI, by rw [hz]; exact hc⟩, rfl,
            (List.append_nil _).symm, hf⟩
      | check host fd hfd =>
          obtain ⟨s', hs', -⟩ := hm.inv.throttleCheck A conf host m.now hfd hm.size fun _ => hc
          obtain ⟨m', hm'⟩ : ∃ m', step A conf m (.check host fd hfd) = .ok m' :=
            ⟨_, map_ok_iff.mpr ⟨_, hs', rfl⟩⟩
          obtain ⟨hI, hz, hnow, hlog, hf⟩ := step_check hm.inv hm'
          refine ⟨m', hm', ⟨hI, by rw [hz]; exact hm.size⟩, hnow, hlog, fun other => ?_⟩
          rw [hf, ThrottleCall.effect]
          split
          · next ho => rw [ThrottleSt.find_of_cstr ho]
          · rfl

/-! ## The count -/

theorem attempts_append (h : List UInt8) (first last : Int) (log more : List ThrottleEvent) :
    attempts h first last (log ++ more) = attempts h first last log + attempts h first last more :=
  List.countP_append ..

theorem cause_append {log : List ThrottleEvent} (hc : Cause conf h log)
    (more : List ThrottleEvent) : Cause conf h (log ++ more) := by
  obtain ⟨first, hcount⟩ := hc
  refine ⟨first, ?_⟩
  rw [attempts_append]
  omega

/-- What the record of `h` says of the log. -/
structure Tally (conf : ThrottleConf) (h : List UInt8) (log : List ThrottleEvent) (now : Int)
    (tp : Throttle) : Prop where
  first : tp.first ≤ now
  conns : tp.conns ≤ attempts h tp.first now log
  zline : tp.zlineStart ≠ 0 → Cause conf h log

/-- Every record that there is tallies with the log, which has no entry from the
future. -/
structure Counted (conf : ThrottleConf) (m : ThrottleRun) : Prop where
  past : ∀ e ∈ m.log, e.time ≤ m.now
  tally : ∀ h tp, m.st.find h = some tp → Tally conf h m.log m.now tp
  caused : Caused conf m.log

/-- Nothing in the log is later than now. -/
theorem attempts_last {log : List ThrottleEvent} {now last : Int} (hp : ∀ e ∈ log, e.time ≤ now)
    (hle : now ≤ last) (h : List UInt8) (first : Int) :
    attempts h first last log = attempts h first now log := by
  refine List.countP_congr fun e he => ?_
  have hnow := hp e he
  simp only [decide_eq_true_eq]
  constructor
  · exact fun ⟨hh, hf, _⟩ => ⟨hh, hf, hnow⟩
  · exact fun ⟨hh, hf, _⟩ => ⟨hh, hf, by omega⟩

theorem attempts_concat {log : List ThrottleEvent} {e : ThrottleEvent} {now first : Int}
    (hh : e.host = cstr h) (ht : e.time = now) (hf : first ≤ now) :
    attempts h first now (log ++ [e]) = attempts h first now log + 1 := by
  rw [attempts_append]
  simp [attempts, hh, ht, hf]

/-- `throttle_check` from `tp->conns++` on. -/
theorem count_tally {log : List ThrottleEvent} {now : Int} {tp : Throttle} {e : ThrottleEvent}
    (fd : Int) (hp : ∀ e ∈ log, e.time ≤ now) (hz : tp.zlineStart = 0) (hfirst : tp.first ≤ now)
    (hconns : tp.conns ≤ attempts h tp.first now log) (hh : e.host = cstr h) (ht : e.time = now) :
    Tally conf h (log ++ [e]) now (tp.count conf fd now).1 ∧
      ((tp.count conf fd now).2.1 = 0 → Cause conf h (log ++ [e])) := by
  have hone := @attempts_concat h log _ _ _ hh ht hfirst
  have hcount : tp.conns + 1 ≤ attempts h tp.first now (log ++ [e]) := by omega
  simp only [Throttle.count]
  split
  · refine ⟨⟨Int.le_refl now, ?_, fun hne => absurd hz hne⟩, by simp⟩
    have hnew := @attempts_concat h log _ _ _ hh ht (Int.le_refl now)
    simp only
    omega
  · next hin =>
      split
      · next hfull =>
          have hcause : Cause conf h (log ++ [e]) := by
            refine ⟨tp.first, ?_⟩
            have hp' : ∀ x ∈ log ++ [e], x.time ≤ now := by
              intro x hx
              rcases List.mem_append.mp hx with hx | hx
              · exact hp x hx
              · rw [List.mem_singleton.mp hx]
                exact Int.le_of_eq ht
            rw [attempts_last hp' (by omega)]
            omega
          split
          · exact ⟨⟨hfirst, hcount, fun _ => hcause⟩, fun _ => hcause⟩
          · exact ⟨⟨hfirst, hcount, fun _ => hcause⟩, fun _ => hcause⟩
      · exact ⟨⟨hfirst, hcount, fun hne => absurd hz hne⟩, by simp⟩

/-- A connection of `h`. -/
theorem hostCheck_tally {log : List ThrottleEvent} {now : Int} {r : Option Throttle}
    {e : ThrottleEvent} (fd : Int) (host : List UInt8) (hp : ∀ e ∈ log, e.time ≤ now)
    (hr : ∀ tp, r = some tp → Tally conf h log now tp) (hh : e.host = cstr h)
    (ht : e.time = now) :
    Tally conf h (log ++ [e]) now (hostCheck conf fd now host r).1 ∧
      ((hostCheck conf fd now host r).2.1 = 0 → Cause conf h (log ++ [e])) := by
  cases r with
  | none => exact count_tally fd hp rfl (Int.le_refl now) (Int.natCast_nonneg _) hh ht
  | some tp =>
      have htp := hr tp rfl
      have hmore : tp.conns ≤ attempts h tp.first now (log ++ [e]) := by
        have hle := htp.conns
        rw [attempts_append]
        omega
      simp only [hostCheck, Throttle.again]
      split
      · next hz =>
          have hcause := cause_append (htp.zline hz) [e]
          split
          · split
            · exact ⟨⟨htp.first, hmore, fun _ => hcause⟩, fun _ => hcause⟩
            · exact ⟨⟨htp.first, hmore, fun _ => hcause⟩, fun _ => hcause⟩
          · exact count_tally fd hp rfl (Int.le_refl now) (Int.natCast_nonneg _) hh ht
      · next hz => exact count_tally fd hp (not_not.mp hz) htp.first htp.conns hh ht

/-! ## Runs -/

/-- A call that is not a connection makes no record. -/
theorem effect_some {c : ThrottleCall} {now : Int} {other : List UInt8} {r : Option Throttle}
    {tp : Throttle} (hc : ∀ host fd hfd, c ≠ .op (.check host fd hfd))
    (he : c.effect conf now other r = some tp) : r = some tp := by
  cases c with
  | remove host =>
      rw [ThrottleCall.effect] at he
      split at he
      · cases he
      · exact he
  | rehash => cases he
  | op o =>
      cases o with
      | tick seconds => exact he
      | resize size => exact he
      | timerNonzapped => exact (Option.filter_eq_some_iff.mp he).1
      | timerZapped =>
          exact (Option.filter_eq_some_iff.mp (Option.filter_eq_some_iff.mp he).1).1
      | check host fd hfd => exact absurd rfl (hc host fd hfd)

theorem later_le (now : Int) (c : ThrottleCall) : now ≤ c.later now := by
  cases c with
  | op o =>
      cases o with
      | tick seconds => exact Int.le_add_of_nonneg_right (Int.natCast_nonneg seconds)
      | _ => exact Int.le_refl now
  | _ => exact Int.le_refl now

theorem Tally.later {log : List ThrottleEvent} {now last : Int} {tp : Throttle}
    (ht : Tally conf h log now tp) (hp : ∀ e ∈ log, e.time ≤ now) (hle : now ≤ last) :
    Tally conf h log last tp := by
  refine ⟨Int.le_trans ht.first hle, ?_, ht.zline⟩
  rw [attempts_last hp hle]
  exact ht.conns

/-- What one call preserves. -/
theorem Counted.call (hm : Counted conf m) {c : ThrottleCall} (hc : Called conf m m' c) :
    Counted conf m' := by
  by_cases hcheck : ∃ host fd hfd, c = .op (.check host fd hfd)
  · obtain ⟨host, fd, hfd, rfl⟩ := hcheck
    have hnow : m'.now = m.now := hc.now
    have hlog : m'.log = m.log ++ [m.event conf host fd] := hc.log
    have hcall := hostCheck_tally (h := host) (e := m.event conf host fd) fd host hm.past
      (hm.tally host) rfl rfl
    refine ⟨fun e he => ?_, fun h tp hf => ?_, fun pre e post hsplit he => ?_⟩
    · rw [hlog] at he
      rw [hnow]
      rcases List.mem_append.mp he with he | he
      · exact hm.past e he
      · rw [List.mem_singleton.mp he]
        exact Int.le_refl m.now
    · rw [hc.find, ThrottleCall.effect] at hf
      rw [hlog, hnow]
      split at hf
      · next hh =>
          rw [← Option.some.inj hf, ThrottleSt.find_of_cstr hh]
          obtain ⟨hfirst, hconns, hzline⟩ := hcall.1
          have hattempts : ∀ first last log, attempts h first last log =
              attempts host first last log := by
            intro first last log
            rw [attempts, attempts, hh]
          refine ⟨hfirst, by rw [hattempts]; exact hconns, fun hz => ?_⟩
          obtain ⟨first, hcause⟩ := hzline hz
          exact ⟨first, by rw [hattempts]; exact hcause⟩
      · have ht := hm.tally h tp hf
        refine ⟨ht.first, ?_, fun hz => cause_append (ht.zline hz) _⟩
        have hle := ht.conns
        rw [attempts_append]
        omega
    · rw [hlog] at hsplit
      rcases List.eq_nil_or_concat post with rfl | ⟨post', x, rfl⟩
      · obtain ⟨rfl, hlast⟩ := List.append_inj' hsplit rfl
        have hex : m.event conf host fd = e := List.singleton_inj.mp hlast
        rw [← hex] at he ⊢
        have hcause := hcall.2 he
        obtain ⟨first, hcount⟩ := hcause
        refine ⟨first, ?_⟩
        rw [attempts, show (m.event conf host fd).host = cstr host from rfl, cstr_cstr]
        exact hcount
      · rw [List.concat_eq_append, ← List.cons_append, ← List.append_assoc] at hsplit
        obtain ⟨hlog', -⟩ := List.append_inj' hsplit rfl
        exact hm.caused pre e post' hlog' he
  · have hne : ∀ host fd hfd, c ≠ .op (.check host fd hfd) :=
      fun host fd hfd he => hcheck ⟨host, fd, hfd, he⟩
    have hlog : m'.log = m.log := by
      rw [hc.log, show m.entries conf c = [] from ?_, List.append_nil]
      cases c with
      | op o =>
          cases o with
          | check host fd hfd => exact absurd rfl (hne host fd hfd)
          | _ => rfl
      | _ => rfl
    have hle : m.now ≤ m'.now := by
      rw [hc.now]
      exact later_le m.now c
    refine ⟨fun e he => ?_, fun h tp hf => ?_, by rw [hlog]; exact hm.caused⟩
    · rw [hlog] at he
      exact Int.le_trans (hm.past e he) hle
    · rw [hc.find] at hf
      rw [hlog]
      exact (hm.tally h tp (effect_some hne hf)).later hm.past hle

theorem start_counted (conf : ThrottleConf) (now : Int) : Counted conf (start now) := by
  refine ⟨fun e he => ?_, fun h tp hf => ?_, fun pre e post hsplit => ?_⟩
  · cases he
  · cases hf
  · exact absurd hsplit.symm (by simp [start])

/-- `m₁` is what `m` would be with no connections but those of `h`. -/
structure Alone (h : List UInt8) (m m₁ : ThrottleRun) : Prop where
  ready : Ready m
  ready₁ : Ready m₁
  now : m₁.now = m.now
  log : m₁.log = m.log.filter fun e => e.host = cstr h
  find : m₁.st.find h = m.st.find h

/-- Who may connect does not matter for a call that is no connection. -/
theorem effect_keeps {c : ThrottleCall} (hk : c.keeps h = false) (now : Int)
    (r : Option Throttle) : c.effect conf now h r = r ∧ c.later now = now := by
  cases c with
  | op o =>
      cases o with
      | check host fd hfd =>
          have hne : cstr host ≠ cstr h := of_decide_eq_false hk
          exact ⟨if_neg (Ne.symm hne), rfl⟩
      | _ => cases hk
  | _ => cases hk

/-- The entries of a call, as `h` sees them. -/
theorem entries_filter {m₁ : ThrottleRun} (ha : Alone h m m₁) (c : ThrottleCall) :
    ((m.entries conf c).filter fun e => e.host = cstr h) =
      if c.keeps h then m₁.entries conf c else [] := by
  cases c with
  | op o =>
      cases o with
      | check host fd hfd =>
          rw [ThrottleCall.keeps, entries, entries, List.filter_singleton]
          by_cases heq : cstr host = cstr h
          · have hevent : m₁.event conf host fd = m.event conf host fd := by
              rw [event, event, ha.now, ThrottleSt.find_of_cstr heq, ThrottleSt.find_of_cstr heq,
                ha.find]
            have hhost : (m.event conf host fd).host = cstr h := heq
            rw [hevent]
            simp [heq, hhost]
          · have hhost : ¬ (m.event conf host fd).host = cstr h := heq
            simp [heq, hhost]
      | _ => rfl
  | _ => rfl

theorem Alone.call {m₁ : ThrottleRun} (ha : Alone h m m₁) {c : ThrottleCall}
    (hc : Called conf m m' c) :
    if c.keeps h then ∀ m₁', Called conf m₁ m₁' c → Alone h m' m₁' else Alone h m' m₁ := by
  have hentries := @entries_filter conf _ _ _ ha c
  cases hk : c.keeps h with
  | true =>
      rw [hk, if_pos rfl] at hentries
      rw [if_pos rfl]
      intro m₁' hc₁
      refine ⟨hc.ready, hc₁.ready, by rw [hc₁.now, hc.now, ha.now], ?_, ?_⟩
      · rw [hc₁.log, hc.log, List.filter_append, hentries, ha.log]
      · rw [hc₁.find, hc.find, ha.find, ha.now]
  | false =>
      rw [hk, if_neg nofun] at hentries
      rw [if_neg nofun]
      obtain ⟨heffect, hlater⟩ := @effect_keeps conf _ _ hk m.now (m.st.find h)
      refine ⟨hc.ready, ha.ready₁, by rw [hc.now, hlater, ha.now], ?_, ?_⟩
      · rw [hc.log, List.filter_append, hentries, List.append_nil, ha.log]
      · rw [hc.find, heffect, ha.find]

theorem start_ready (now : Int) : Ready (start now) :=
  ⟨ThrottleSt.init_inv, Nat.succ_ne_zero _⟩

/-- A run goes through, and so does what is left of it for one host. -/
theorem run_calls (A : Allocator) (conf : ThrottleConf) :
    ∀ (calls : List ThrottleCall) {m : ThrottleRun}, (∀ c ∈ calls, c.Fits) → Ready m →
      Counted conf m → ∃ m', run (callStep A conf) m calls = .ok m' ∧ Counted conf m' ∧
        ∀ h m₁, Alone h m m₁ →
          ∃ m₁', run (callStep A conf) m₁ (calls.filter (·.keeps h)) = .ok m₁' ∧
            Alone h m' m₁'
  | [], m, _, _, hcount => ⟨m, rfl, hcount, fun _ m₁ ha => ⟨m₁, rfl, ha⟩⟩
  | c :: calls, m, hfits, hm, hcount => by
      have hfit := hfits c (List.mem_cons_self ..)
      obtain ⟨k, hk, hc⟩ := callStep_ok A conf hm hfit
      obtain ⟨m', hr, hcount', halone⟩ := run_calls A conf calls
        (fun d hd => hfits d (List.mem_cons_of_mem _ hd)) hc.ready (hcount.call hc)
      refine ⟨m', run_cons_ok.mpr ⟨k, hk, hr⟩, hcount', fun h m₁ ha => ?_⟩
      have hnext := ha.call hc
      by_cases hkeep : c.keeps h = true
      · rw [if_pos hkeep] at hnext
        obtain ⟨k₁, hk₁, hc₁⟩ := callStep_ok A conf ha.ready₁ hfit
        obtain ⟨m₁', hr₁, ha'⟩ := halone h k₁ (hnext k₁ hc₁)
        rw [List.filter_cons_of_pos hkeep]
        exact ⟨m₁', run_cons_ok.mpr ⟨k₁, hk₁, hr₁⟩, ha'⟩
      · rw [if_neg hkeep] at hnext
        rw [List.filter_cons_of_neg hkeep]
        exact halone h m₁ hnext

/-- In every run from the empty table each refusal has its cause in the
connections of the host that is refused, and what the host is told is what it is
told when it is the only one to connect. -/
theorem refused_with_cause (A : Allocator) (conf : ThrottleConf) (now : Int)
    (calls : List ThrottleCall) (hfits : ∀ c ∈ calls, c.Fits) :
    ∃ m, run (callStep A conf) (start now) calls = .ok m ∧ Caused conf m.log ∧
      ∀ h, ∃ m₁, run (callStep A conf) (start now) (calls.filter (·.keeps h)) = .ok m₁ ∧
        m₁.log = m.log.filter fun e => e.host = cstr h := by
  obtain ⟨m, hr, hcount, halone⟩ := run_calls A conf calls hfits (start_ready now)
    (start_counted conf now)
  refine ⟨m, hr, hcount.caused, fun h => ?_⟩
  obtain ⟨m₁, hr₁, ha⟩ := halone h (start now)
    ⟨start_ready now, start_ready now, rfl, rfl, rfl⟩
  exact ⟨m₁, hr₁, ha.log⟩

theorem natCast_ne_neg_one (fd : Nat) : (fd : Int) ≠ -1 := by omega

def connect (host : List UInt8) (fd : Nat) : ThrottleCall :=
  .op (.check host fd (natCast_ne_neg_one fd))

/-- Three connections, the third of another host, and a host forgotten. -/
def threeConnect : List ThrottleCall :=
  [connect [0x31] 5, connect [0x31] 6, .op (.tick 5), connect [0x32] 7, .remove [0x31],
    .op (.resize 3), .rehash]

theorem refused_with_cause_twice :
    ∃ m, run (callStep .bump ⟨2, 10⟩) (start 100) threeConnect = .ok m ∧ Caused ⟨2, 10⟩ m.log ∧
      ∀ h, ∃ m₁, run (callStep .bump ⟨2, 10⟩) (start 100) (threeConnect.filter (·.keeps h)) =
          .ok m₁ ∧ m₁.log = m.log.filter fun e => e.host = cstr h :=
  refused_with_cause .bump ⟨2, 10⟩ 100 threeConnect (by decide)

end ThrottleRun

end TrIrcd
