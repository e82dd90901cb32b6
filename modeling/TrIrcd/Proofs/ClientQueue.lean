import TrIrcd.Lib.Run
import TrIrcd.Proofs.LineParse
import TrIrcd.Src.Packet

/-!
# Which commands wait

`Unread` is `recvQ` as `linebuf_parse` leaves it and as `linebuf_get` leaves
it again: terminated lines, and at most one line that is still open. Any line
may be empty, for a chunk that begins with a line end closes a line with
nothing in it. `linebuf_get` takes such a line out and returns its length,
which is 0, and the loop takes that for the end of the queue.

So the queue is drained exactly when no empty line stands before another one
(`Flows`). The other two reasons to stop are part of that condition: a call of
`client_dopacket` in which the link dies empties the queue under the loop, and
after one that lowers `allow_read` the client may be over its limit.
-/

namespace TrIrcd

open TrIrcd.Lib

/-- The lines of a buffer that were not taken out yet. -/
structure Unread (bufhead : HeadId) (closed opened : List Nat) (s : LineSt) : Prop
    extends Reading bufhead closed opened s where
  last : opened.length ≤ 1
  unterminated : ∀ l ∈ opened, (s.line l).terminated = false

variable {bufhead recvQ : HeadId} {closed opened : List Nat} {s : LineSt} {l : Nat}

theorem Reading.unread (h : Reading bufhead closed [] s) : Unread bufhead closed [] s where
  toReading := h
  last := Nat.zero_le _
  unterminated m hm := by cases hm

theorem init_unread (bufhead : HeadId) : Unread bufhead [] [] LineSt.init := by
  obtain ⟨closed, opened, h, -⟩ := init_received bufhead
  obtain ⟨rfl, rfl⟩ : closed = [] ∧ opened = [] := List.append_eq_nil_iff.mp h.list.symm
  exact h.unread

/-! ## What comes in -/

/-- A copy closes the open line or goes on with it, whatever bytes there are. -/
theorem Reading.copy (h : Reading bufhead closed [l] s) {data : List UInt8}
    (hterm : (s.line l).terminated = false) (hdata : data ≠ []) :
    ∃ s', linebufCopyLine bufhead l data s =
        .ok ((upToEol data).length + (eolsAfter data).length, s') ∧
      (Reading bufhead (closed ++ [l]) [] s' ∨
        eolsAfter data = [] ∧ Unread bufhead closed [l] s') := by
  obtain ⟨-, hflush, hroom⟩ := h.plain l (by simp)
  have hsized := h.sized l
  obtain ⟨buf, hbuf, ⟨hclen, -, hok⟩ | ⟨hclen, -, hok⟩⟩ :=
    @linebufCopyLine_cases s bufhead l data hsized.buf hroom hterm hdata
  · have hstore := h.store ((s.line l).filled buf (eolsAfter data ≠ [])
      ((s.line l).len + (upToEol data).length)) (upToEol data).length rfl
      ⟨hbuf, by dsimp only [BufLine.filled]; omega,
        fun _ => by dsimp only [BufLine.filled]; omega⟩
      (Nat.le_refl _) rfl rfl (by dsimp only [BufLine.filled]; omega)
    have hself := Function.update_self l ((s.line l).filled buf (eolsAfter data ≠ [])
      ((s.line l).len + (upToEol data).length)) s.line
    refine ⟨_, hok, ?_⟩
    rcases eq_or_ne (eolsAfter data) [] with he | he
    · refine Or.inr ⟨he, hstore, Nat.le_refl _, fun m hm => ?_⟩
      rw [List.mem_singleton.mp hm, store_line, hself]
      exact decide_eq_false (not_not.mpr he)
    · refine Or.inl (hstore.close ?_)
      rw [store_line, hself]
      exact decide_eq_true he
  · have hstore := h.store ((s.line l).filled buf true (bufDataSize - 1)) (bufDataSize - 1) rfl
      ⟨hbuf, by dsimp only [BufLine.filled]; omega,
        fun _ => by dsimp only [BufLine.filled]; omega⟩
      (Nat.le_add_left ..) rfl rfl (by dsimp only [BufLine.filled]; omega)
    refine ⟨_, hok, Or.inl (hstore.close ?_)⟩
    rw [store_line, Function.update_self]
    rfl

theorem linebufParseLoop_unread (A : Allocator) (bufhead : HeadId) :
    ∀ fuel {closed : List Nat} {data : List UInt8} (linecnt : Nat) {s : LineSt},
      Reading bufhead closed [] s → data.length ≤ fuel →
      ∃ n s' closed' opened', linebufParseLoop A bufhead 0 false fuel data linecnt s =
        .ok (n, s') ∧ Unread bufhead closed' opened' s' := by
  intro fuel
  induction fuel with
  | zero => exact fun _ _ h _ => ⟨_, _, _, _, rfl, h.unread⟩
  | succ fuel ih =>
      intro closed data linecnt s h hfuel
      by_cases hdata : data = []
      · subst hdata
        exact ⟨_, _, _, _, linebufParseLoop_nil .., h.unread⟩
      · obtain ⟨hnew, hopen, -⟩ := h.newLine A
        obtain ⟨s', hok, hcopy⟩ := hnew.copy hopen.terminated hdata
        have hpos := (linebufSkipCrlf_eq_ok (linebufSkipCrlf_of_ne_nil hdata)).2.1
        rw [linebufParseLoop_succ hdata hok]
        rcases hcopy with hr | ⟨he, hr⟩
        · exact ih (linecnt + 1) hr (by rw [List.length_drop]; omega)
        · rw [drop_eq_nil_of_eolsAfter he]
          exact ⟨_, s', _, _, linebufParseLoop_nil .., hr⟩

theorem linebufParse_unread {A : Allocator} {n : Nat} {s' : LineSt} {data : List UInt8}
    (h : Unread bufhead closed opened s)
    (hok : linebufParse A bufhead data 0 false s = .ok (n, s')) :
    ∃ closed' opened', Unread bufhead closed' opened' s' := by
  have hend : ∀ {closed : List Nat} {linecnt : Nat} {data : List UInt8} {k : Nat} {m : LineSt},
      Reading bufhead closed [] m → data.length ≤ k →
      linebufParseLoop A bufhead 0 false k data linecnt m = .ok (n, s') →
      ∃ closed' opened', Unread bufhead closed' opened' s' := by
    intro closed linecnt data k m hm hk hloop
    obtain ⟨n', m', closed', opened', hok', hun⟩ :=
      linebufParseLoop_unread A bufhead k linecnt hm hk
    rw [hloop] at hok'
    cases hok'
    exact ⟨_, _, hun⟩
  match opened, h.last with
  | [], _ =>
      rw [linebufParse] at hok
      cases hlast : (s.head bufhead).list.getLast? with
      | none =>
          rw [hlast] at hok
          exact hend h.toReading (Nat.le_refl _) hok
      | some l =>
          have hl := List.mem_of_getLast? hlast
          rw [h.list, List.append_nil] at hl
          obtain ⟨hraw, hflush, hroom⟩ := h.plain l (List.mem_append_left _ hl)
          have hcopy := linebufCopyLine_terminated (h.terminated l hl) hraw hroom bufhead data
          simp only [hlast, hflush, linebufCopy, Bool.false_eq_true, if_false, hcopy,
            Except.bind, List.drop_zero] at hok
          split at hok
          · cases hok
            exact ⟨_, _, h⟩
          · exact hend h.toReading (Nat.le_refl _) hok
  | [l], _ =>
      obtain ⟨-, hflush, -⟩ := h.plain l (by simp)
      have hlast : (s.head bufhead).list.getLast? = some l := by
        rw [h.list, List.getLast?_concat]
      simp only [linebufParse, hlast, hflush, linebufCopy, Bool.false_eq_true, if_false] at hok
      by_cases hdata : data = []
      · -- The assertion in `linebuf_skip_crlf` fails.
        subst hdata
        obtain ⟨r, hr, -⟩ := bind_ok_iff.mp hok
        have hterm := h.unterminated l (List.mem_singleton_self l)
        simp [linebufCopyLine, hterm, (h.plain l (by simp)).2.2, linebufSkipCrlf, upToEol,
          eolsAfter, Except.bind] at hr
      · obtain ⟨m, hcopy, hm⟩ :=
          h.toReading.copy (h.unterminated l (List.mem_singleton_self l)) hdata
        rw [hcopy] at hok
        simp only [Except.bind] at hok
        split at hok
        · cases hok
          rcases hm with hm | ⟨-, hm⟩
          · exact ⟨_, _, hm.unread⟩
          · exact ⟨_, _, hm⟩
        · rcases hm with hm | ⟨he, hm⟩
          · exact hend hm (by rw [List.length_drop]; omega) hok
          · rw [drop_eq_nil_of_eolsAfter he, linebufParseLoop_nil] at hok
            cases hok
            exact ⟨_, _, hm⟩

/-! ## What goes out -/

/-- The first closed line is the one that comes out. -/
theorem Unread.get {rest : List Nat} (h : Unread recvQ (l :: rest) opened s) :
    ∃ s', linebufGet recvQ readbufSize false false s = .ok (some ((s.line l).text false), s') ∧
      Unread recvQ rest opened s' ∧
      ∀ m, (s'.line m).text false = (s.line m).text false := by
  obtain ⟨s', hok, h', hline⟩ := h.toReading.doneLine
  have hlist := h.list
  rw [List.cons_append] at hlist
  have hroom : (s.line l).len + 1 ≤ readbufSize :=
    Nat.le_trans (h.plain l (by simp)).2.2 (by decide)
  refine ⟨s', ?_, ⟨h', h.last, fun m hm => ?_⟩, fun m => (hline m).1⟩
  · simp only [linebufGet, hlist, h.terminated l (List.mem_cons_self ..), or_true,
      not_true_eq_false, if_false, hroom, hok, Except.map]
  · rw [(hline m).2]
    exact h.unterminated m hm

/-- Without one, nothing does. -/
theorem Unread.get_nil (h : Unread recvQ [] opened s) :
    linebufGet recvQ readbufSize false false s = .ok (none, s) := by
  have hlist := h.list
  rw [List.nil_append] at hlist
  cases opened with
  | nil => simp only [linebufGet, hlist]
  | cons l ls =>
      simp [linebufGet, hlist, h.unterminated l (List.mem_cons_self ..)]

theorem Unread.donebuf (h : Unread recvQ closed opened s) :
    ∃ s', linebufDonebuf recvQ s = .ok s' ∧ Unread recvQ [] [] s' := by
  have hloop : ∀ (ls : List Nat) {s : LineSt}, Reading recvQ [] ls s →
      ∃ s', linebufDonebufLoop recvQ ls.length s = .ok s' ∧ Unread recvQ [] [] s' := by
    intro ls
    induction ls with
    | nil => exact fun h => ⟨_, rfl, h.unread⟩
    | cons l ls ih =>
        intro s h
        obtain ⟨m, hok, hm, -⟩ := h.doneHead
        obtain ⟨s', hok', hs'⟩ := ih hm
        refine ⟨s', ?_, hs'⟩
        rw [List.length_cons, linebufDonebufLoop, if_neg (by rw [h.list]; simp), hok]
        exact hok'
  rw [linebufDonebuf, h.list]
  exact hloop _ h.toReading.loosen

/-- Whatever is done with a `recvQ`, its lines stay in order. -/
theorem recvOp_unread {A : Allocator} {s' : LineSt} (o : RecvOp)
    (h : ∃ closed opened, Unread recvQ closed opened s)
    (hok : s.step A (o.lineOp recvQ) = .ok s') :
    ∃ closed opened, Unread recvQ closed opened s' := by
  obtain ⟨closed, opened, h⟩ := h
  cases o with
  | parse data =>
      obtain ⟨r, hr, rfl⟩ := map_ok_iff.mp hok
      exact linebufParse_unread h hr
  | get =>
      obtain ⟨r, hr, rfl⟩ := map_ok_iff.mp hok
      cases closed with
      | nil =>
          rw [h.get_nil] at hr
          cases hr
          exact ⟨_, _, h⟩
      | cons l rest =>
          obtain ⟨m, hm, h', -⟩ := h.get
          rw [hm] at hr
          cases hr
          exact ⟨_, _, h'⟩
  | donebuf =>
      obtain ⟨m, hm, h'⟩ := h.donebuf
      have heq : Except.ok m = Except.ok s' := hm.symm.trans hok
      cases heq
      exact ⟨_, _, h'⟩

/-! ## The loop -/

/-- The terminated lines, in order. -/
def LineSt.waiting (s : LineSt) (bufhead : HeadId) : List (List UInt8) :=
  ((s.head bufhead).list.filter fun l => (s.line l).terminated).map
    fun l => (s.line l).text false

theorem Unread.waiting (h : Unread recvQ closed opened s) :
    s.waiting recvQ = closed.map fun l => (s.line l).text false := by
  rw [LineSt.waiting, h.list, List.filter_append, List.filter_eq_self.mpr h.terminated,
    List.filter_eq_nil_iff.mpr fun l hl => by simp [h.unterminated l hl], List.append_nil]

section Queue

variable {σ : Type} {E : QueueEnv σ}

/-- The client may send. -/
def QueueEnv.Room (E : QueueEnv σ) (c : σ) : Prop := E.sentParsed c ≤ E.allowRead c

/-- No terminated line is left, and every one with something in it was handed
on. -/
structure Drained (recvQ : HeadId) (lines : List (List UInt8)) (s : QueueSt σ) : Prop where
  left : ∀ l ∈ (s.lines.head recvQ).list, (s.lines.line l).terminated = false
  calls : s.calls = lines.filter fun w => !w.isEmpty

/-- Nothing stops the loop before the last line. -/
def QueueEnv.Flows (E : QueueEnv σ) : σ → List (List UInt8) → Prop
  | _, [] => True
  | c, line :: rest =>
      if line = [] then rest = []
      else
        let d := E.clientDopacket c line
        if d.dead then ∀ w ∈ rest, w = []
        else (rest = [] ∨ E.isAnOper d.client_p ∨ E.Room d.client_p) ∧ E.Flows d.client_p rest

/-- Where nothing waits the loop does nothing. -/
theorem parseClientQueuedLoop_nil {fuel : Nat} {st : QueueSt σ}
    (h : Unread recvQ [] opened st.lines) : parseClientQueuedLoop E recvQ fuel st = .ok st := by
  cases fuel with
  | zero => rfl
  | succ fuel =>
      rw [parseClientQueuedLoop]
      split
      · rfl
      · rw [h.get_nil]
        rfl

/-- A client over its limit is not served. -/
theorem parseClientQueuedLoop_over {fuel : Nat} {st : QueueSt σ}
    (h : ¬ (E.isAnOper st.client_p ∨ E.Room st.client_p)) :
    parseClientQueuedLoop E recvQ fuel st = .ok st := by
  cases fuel with
  | zero => rfl
  | succ fuel =>
      rw [parseClientQueuedLoop, if_pos]
      rw [not_or, QueueEnv.Room, Int.not_le] at h
      exact h

/-- One turn of the loop, where a line waits. -/
theorem parseClientQueuedLoop_succ {fuel : Nat} {st : QueueSt σ} {line : List UInt8}
    {m : LineSt} (hroom : E.isAnOper st.client_p ∨ E.Room st.client_p)
    (hget : linebufGet recvQ readbufSize false false st.lines = .ok (some line, m))
    (hstays : (E.clientDopacket st.client_p line).ret ≠ clientExited) :
    parseClientQueuedLoop E recvQ (fuel + 1) st =
      if line = [] then .ok { st with lines := m }
      else
        let d := E.clientDopacket st.client_p line
        (if d.dead then linebufDonebuf recvQ m else .ok m).bind fun lines =>
          parseClientQueuedLoop E recvQ fuel
            { client_p := d.client_p, lines := lines, calls := st.calls ++ [line] } := by
  rw [parseClientQueuedLoop, if_neg, hget]
  · simp only [Except.bind, List.length_eq_zero_iff, hstays, if_false]
  · rw [QueueEnv.Room] at hroom
    rintro ⟨hoper, hover⟩
    rcases hroom with h | h
    · exact hoper h
    · omega

/-- The loop leaves some of the closed lines, and has handed on some. It has
drained the queue exactly if it could flow. -/
theorem parseClientQueuedLoop_drains
    (hstays : ∀ c line, (E.clientDopacket c line).ret ≠ clientExited) :
    ∀ closed {fuel : Nat} {st : QueueSt σ} {lines : List (List UInt8)},
      Unread recvQ closed opened st.lines →
      lines = closed.map (fun l => (st.lines.line l).text false) →
      closed.length ≤ fuel → E.isAnOper st.client_p ∨ E.Room st.client_p →
      ∃ st' left opened' done, parseClientQueuedLoop E recvQ fuel st = .ok st' ∧
        Unread recvQ left opened' st'.lines ∧ st'.calls = st.calls ++ done ∧
        ((left = [] ∧ done = lines.filter fun w => !w.isEmpty) ↔
          E.Flows st.client_p lines) := by
  intro closed
  induction closed with
  | nil =>
      rintro fuel st _ h rfl - -
      refine ⟨st, [], opened, [], parseClientQueuedLoop_nil h, h, by simp, ?_⟩
      exact iff_of_true ⟨rfl, rfl⟩ trivial
  | cons l rest ih =>
      rintro fuel st _ h rfl hfuel hroom
      obtain ⟨k, rfl⟩ : ∃ k, fuel = k + 1 := ⟨fuel - 1, by
        rw [List.length_cons] at hfuel
        omega⟩
      obtain ⟨m, hget, hm, htext⟩ := h.get
      have hrest : rest.map (fun l => (st.lines.line l).text false) =
          rest.map fun l => (m.line l).text false := List.map_congr_left fun x _ => (htext x).symm
      rw [parseClientQueuedLoop_succ hroom hget (hstays _ _), List.map_cons, QueueEnv.Flows, hrest]
      generalize (st.lines.line l).text false = line
      by_cases hline : line = []
      · -- An empty line: it is gone, and the loop ends.
        subst hline
        rw [if_pos rfl, if_pos rfl]
        refine ⟨_, rest, opened, [], rfl, hm, by simp, ?_⟩
        rw [List.map_eq_nil_iff]
        constructor
        · exact And.left
        · rintro rfl
          exact ⟨rfl, rfl⟩
      · rw [if_neg hline, if_neg hline]
        have hfilter : ∀ ws : List (List UInt8), (line :: ws).filter (fun w => !w.isEmpty) =
            line :: ws.filter fun w => !w.isEmpty := fun ws =>
          List.filter_cons_of_pos (by simpa using hline)
        dsimp only
        generalize E.clientDopacket st.client_p line = d
        rw [hfilter]
        cases hdead : d.dead with
        | true =>
            obtain ⟨m', hdone, hm'⟩ := hm.donebuf
            rw [if_pos rfl, if_pos rfl, hdone]
            refine ⟨_, [], [], [line], parseClientQueuedLoop_nil hm', hm', rfl, ?_⟩
            have hnone : ∀ ws : List (List UInt8),
                [] = ws.filter (fun w => !w.isEmpty) ↔ ∀ w ∈ ws, w = [] := fun ws => by
              rw [eq_comm, List.filter_eq_nil_iff]
              simp
            rw [List.cons_inj_right, hnone, and_iff_right rfl]
        | false =>
            rw [if_neg Bool.false_ne_true, if_neg Bool.false_ne_true]
            simp only [Except.bind]
            by_cases hnext : E.isAnOper d.client_p ∨ E.Room d.client_p
            · obtain ⟨st', left, opened', done, hok, hun, hcalls, hiff⟩ :=
                @ih k { client_p := d.client_p, lines := m, calls := st.calls ++ [line] } _ hm rfl
                  (Nat.le_of_succ_le_succ hfuel) hnext
              refine ⟨st', left, opened', line :: done, hok, hun, ?_, ?_⟩
              · rw [hcalls, List.append_assoc, List.singleton_append]
              · rw [List.cons_inj_right, hiff]
                exact ⟨fun hf => ⟨.inr hnext, hf⟩, And.right⟩
            · refine ⟨_, rest, opened, [line], parseClientQueuedLoop_over hnext, hm, rfl, ?_⟩
              constructor
              · rintro ⟨rfl, -⟩
                exact ⟨.inl rfl, trivial⟩
              · rintro ⟨hnil, -⟩
                have hnil' := List.map_eq_nil_iff.mp (hnil.resolve_right hnext)
                subst hnil'
                exact ⟨rfl, rfl⟩

/-- `parse_client_queued` drains the queue exactly if no empty line stands
before another line, no line in which the link dies stands before one that is
not empty, and no line but the last puts the client over its limit. -/
theorem parseClientQueued_drains_iff {A : Allocator} {ops : List RecvOp} {c : σ}
    (hrun : run (fun s o => s.step A (RecvOp.lineOp recvQ o)) LineSt.init ops = .ok s)
    (hroom : E.sentParsed c ≤ E.allowRead c)
    (hstays : ∀ c line, (E.clientDopacket c line).ret ≠ clientExited) :
    ∃ st, parseClientQueued E recvQ c s = .ok st ∧
      (Drained recvQ (s.waiting recvQ) st ↔ E.Flows c (s.waiting recvQ)) := by
  obtain ⟨closed, opened, h⟩ := run_invariant
    (I := fun s => ∃ closed opened, Unread recvQ closed opened s)
    (fun s o s' hs hok => recvOp_unread o hs hok) ops ⟨[], [], init_unread recvQ⟩ hrun
  have hfuel : closed.length ≤ (s.head recvQ).list.length + 1 := by
    rw [h.list, List.length_append]
    omega
  obtain ⟨st, left, opened', done, hok, hun, hcalls, hiff⟩ :=
    @parseClientQueuedLoop_drains recvQ opened σ E hstays closed _
      { client_p := c, lines := s, calls := [] } _ h h.waiting hfuel (.inr hroom)
  refine ⟨st, hok, ?_⟩
  rw [← hiff]
  constructor
  · rintro ⟨hleft, hall⟩
    refine ⟨?_, by rw [← hall, hcalls, List.nil_append]⟩
    cases left with
    | nil => rfl
    | cons l ls =>
        have hfalse := hleft l (by rw [hun.list]; exact List.mem_cons_self ..)
        rw [hun.terminated l (List.mem_cons_self ..)] at hfalse
        cases hfalse
  · rintro ⟨rfl, hdone⟩
    refine ⟨fun l hl => ?_, by rw [hcalls, hdone]; rfl⟩
    rw [hun.list, List.nil_append] at hl
    exact hun.unterminated l hl

end Queue

/-- A user that only counts its commands. -/
def plainQueueEnv : QueueEnv Nat where
  isAnOper _ := false
  sentParsed _ := 0
  allowRead _ := 8
  clientDopacket n _ := ⟨n + 1, false, 0⟩

/-- `NICK`, `USER` and the beginning of a third command come in. -/
theorem parseClientQueued_drains_plain :
    ∃ s, run (fun s o => s.step .bump (RecvOp.lineOp (.recvQ 0) o)) LineSt.init
        [.parse [0x4e, 0x0d, 0x0a, 0x55, 0x0d, 0x0a, 0x4a]] = .ok s ∧
      ∃ st, parseClientQueued plainQueueEnv (.recvQ 0) 0 s = .ok st ∧
        Drained (.recvQ 0) (s.waiting (.recvQ 0)) st := by
  obtain ⟨s, hs, hwait⟩ : ∃ s, run (fun s o => s.step .bump (RecvOp.lineOp (.recvQ 0) o))
      LineSt.init [.parse [0x4e, 0x0d, 0x0a, 0x55, 0x0d, 0x0a, 0x4a]] = .ok s ∧
      s.waiting (.recvQ 0) = [[0x4e], [0x55]] := ⟨_, rfl, by decide⟩
  obtain ⟨st, hst, hiff⟩ := parseClientQueued_drains_iff (E := plainQueueEnv) (c := 0) hs
    (by decide) fun c line => by simp [plainQueueEnv, clientExited]
  refine ⟨s, hs, st, hst, hiff.mpr ?_⟩
  rw [hwait]
  simp [QueueEnv.Flows, plainQueueEnv, QueueEnv.Room]

/-- CR and LF come in different chunks: the second begins with an empty line,
and the command behind it stays where it is. -/
theorem parseClientQueued_stops :
    ∃ s, run (fun s o => s.step .bump (RecvOp.lineOp (.recvQ 0) o)) LineSt.init
        [.parse [0x4e, 0x0d], .get, .parse [0x0a, 0x55, 0x0d, 0x0a]] = .ok s ∧
      s.waiting (.recvQ 0) = [[], [0x55]] ∧
      ∃ st, parseClientQueued plainQueueEnv (.recvQ 0) 0 s = .ok st ∧ st.calls = [] ∧
        st.lines.waiting (.recvQ 0) = [[0x55]] ∧
        ¬ Drained (.recvQ 0) (s.waiting (.recvQ 0)) st := by
  refine ⟨_, rfl, by decide, _, rfl, by decide, by decide, fun h => ?_⟩
  have hcalls := h.calls
  revert hcalls
  decide

end TrIrcd
