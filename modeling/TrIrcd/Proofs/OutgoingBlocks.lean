import TrIrcd.Proofs.LinkLines
import TrIrcd.Proofs.SendQueue
import TrIrcd.Src.Outgoing

/-!
# What becomes of a compressed block

`ZipRun` keeps beside a link the blocks that `zip_buffer` returned, encrypted
where the link is, and the bytes that its queue gained. A block is queued as
one line, and `linebuf_put` cuts a line at 512 bytes without saying so; a block
of a link whose queue is over its limit is not queued at all, and the link goes
down with what it has. `Passes` excludes the two, and nothing else is lost
(`zipRun_appended`).

What a message adds to the queue is a prefix of its block, so the two logs can
only agree at the end if they agreed at every step.
-/

namespace TrIrcd

open Function (update)
open TrIrcd.Lib

/-! ## The buffers -/

/-- The buffers between two calls: the counts are right and the buffer on the
stack is empty. -/
structure LineSt.Idle (s : LineSt) : Prop extends Accounted s where
  own : (s.head (.linebuf 0)).list = []

theorem LineSt.init_idle : LineSt.init.Idle := ⟨LineSt.init_accounted, rfl⟩

variable {s : LineSt}

theorem KeptBut.refl (bufhead : HeadId) (s : LineSt) : KeptBut bufhead s s :=
  ⟨fun _ _ => rfl, fun _ => BufLine.Kept.refl _⟩

theorem KeptBut.trans {bufhead : HeadId} {s s' s'' : LineSt} (h : KeptBut bufhead s s')
    (h' : KeptBut bufhead s' s'') : KeptBut bufhead s s'' where
  head hd hh := (h'.head hd hh).trans (h.head hd hh)
  line l := (h.line l).trans (h'.line l)

theorem KeptBut.idle {bufhead : HeadId} {s' : LineSt} (hk : KeptBut bufhead s s')
    (hs : s.Idle) (hacc : Accounted s') (hne : bufhead ≠ .linebuf 0) : s'.Idle :=
  ⟨hacc, (congrArg BufHead.list (hk.head _ hne.symm)).trans hs.own⟩

theorem startFlush_keptBut (bufhead : HeadId) (bufline : Nat) :
    KeptBut bufhead s (s.startFlush bufhead bufline) where
  head h hh := by
    rw [LineSt.startFlush]
    split
    · rfl
    · exact setWriteofs_head _ _ _ hh
  line := startFlush_kept bufhead bufline

theorem setWriteofs_keptBut (bufhead : HeadId) (writeofs : Nat) :
    KeptBut bufhead s (s.setWriteofs bufhead writeofs) where
  head _ hh := setWriteofs_head _ _ _ hh
  line _ := BufLine.Kept.refl _

/-- A flush fails for the socket only, and leaves the other heads alone. -/
theorem linebufFlush_keptBut (bufhead : HeadId) (retval : Int) (h : Accounted s) :
    Answers (fun r => Accounted r.2.2 ∧ KeptBut bufhead s r.2.2) (· = .socket)
      (linebufFlush bufhead retval s) := by
  simp only [linebufFlush]
  split
  · exact ⟨h, KeptBut.refl _ s⟩
  · next bufline rest hlist =>
      split
      · exact ⟨h, KeptBut.refl _ s⟩
      · have hmark := h.startFlush bufhead bufline
        have hkept := @startFlush_keptBut s bufhead bufline
        split
        · exact ⟨hmark, hkept⟩
        · split
          · exact rfl
          · split
            · have hzero := hmark.setWriteofs bufhead 0
              have hlen := (hzero.exact bufhead).nonneg
              have hkept := hkept.trans (setWriteofs_keptBut bufhead 0)
              rw [if_neg (by omega)]
              generalize (s.startFlush bufhead bufline).setWriteofs bufhead 0 = s' at *
              cases hl : (s'.head bufhead).list with
              | nil =>
                  simp only [linebufDoneLine, hl]
                  exact ⟨hzero, hkept⟩
              | cons l ls =>
                  obtain ⟨s'', hok, hdone, h''⟩ := hzero.doneLine hl
                  rw [hok]
                  exact ⟨h'', hkept.trans hdone.keptBut⟩
            · exact ⟨hmark.setWriteofs bufhead _, hkept.trans (setWriteofs_keptBut bufhead _)⟩

theorem sendQueuedLoop_keptBut (bufhead : HeadId) (answers : List SocketAnswer) :
    ∀ {s : LineSt}, Accounted s →
      Answers (fun r => Accounted r.2.2 ∧ KeptBut bufhead s r.2.2) (· = .socket)
        (sendQueuedLoop bufhead answers s) := by
  induction answers with
  | nil => exact fun h => ⟨h, KeptBut.refl _ _⟩
  | cons a answers ih =>
      intro s h
      refine (linebufFlush_keptBut bufhead a.retval h).bind fun r hr => ?_
      show Answers _ _ (if _ then _ else _)
      split
      · exact (ih hr.1).imp (fun _ h' => ⟨h'.1, hr.2.trans h'.2⟩) fun _ => id
      · exact hr

theorem newbuf_head (bufhead : HeadId) :
    (linebufNewbuf bufhead s).head bufhead = ⟨[], 0, 0, 0, 0⟩ := Function.update_self ..

theorem newbuf_head_of_ne {bufhead h : HeadId} (hh : h ≠ bufhead) :
    (linebufNewbuf bufhead s).head h = s.head h := Function.update_of_ne hh ..

theorem newbuf_idle (h : s.Idle) : (linebufNewbuf (.linebuf 0) s).Idle := by
  have hlist : ∀ hd, ((linebufNewbuf (.linebuf 0) s).head hd).list = (s.head hd).list := by
    intro hd
    by_cases hh : hd = .linebuf 0
    · rw [hh, h.own, newbuf_head]
    · rw [newbuf_head_of_ne hh]
  refine ⟨⟨⟨fun l hl => ?_, fun hd l hl => ?_, h.nodup, h.count⟩, h.sized, fun hd => ?_⟩,
    (hlist _).trans h.own⟩
  · simp only [hlist]
    exact h.refs l hl
  · exact h.live hd l (hlist hd ▸ hl)
  · by_cases hh : hd = .linebuf 0
    · rw [hh, newbuf_head]
      exact ⟨rfl, rfl, rfl⟩
    · rw [newbuf_head_of_ne hh]
      exact h.exact hd

/-- The buffer on the stack holds one line with the block, as far as a line can. -/
structure LineSt.Holds (s s₁ : LineSt) (l : Nat) (block : List UInt8) : Prop
    extends Accounted s₁ where
  own : (s₁.head (.linebuf 0)).list = [l]
  text : (s₁.line l).rest 0 = block.take bufDataSize
  len : (s₁.line l).len ≤ bufDataSize
  head : ∀ hd, hd ≠ .linebuf 0 → s₁.head hd = s.head hd

theorem LineSt.Idle.put (A : Allocator) (block : List UInt8) (h : s.Idle) :
    ∃ s₁ l, linebufPut A (.linebuf 0) block (linebufNewbuf (.linebuf 0) s) = .ok s₁ ∧
      s.Holds s₁ l block := by
  have hnew := newbuf_idle h
  have hhead := fun hd (hh : hd ≠ .linebuf 0) => @newbuf_head_of_ne s (.linebuf 0) hd hh
  generalize linebufNewbuf (.linebuf 0) s = s₀ at *
  refine ⟨linebufPutLine A (.linebuf 0) block s₀, (linebufNewLine A (.linebuf 0) s₀).1, ?_,
    hnew.toAccounted.putLine A (.linebuf 0) block, ?_,
    (putLine_line_self s₀ A (.linebuf 0) block).1, ?_, fun hd hh => ?_⟩
  · rw [linebufPut, hnew.own]
    rfl
  · rw [putLine_list, hnew.own, List.nil_append]
  · rw [putLine_eq, store_line, Function.update_self]
    exact List.length_take_le _ _
  · rw [putLine_head s₀ A (.linebuf 0) block hh, hhead hd hh]

/-- A line is attached to a queue. -/
structure LineSt.Attached (s₁ s₂ : LineSt) (bufhead : HeadId) (l : Nat) : Prop where
  list : (s₂.head bufhead).list = (s₁.head bufhead).list ++ [l]
  len : (s₂.head bufhead).len = (s₁.head bufhead).len + (s₁.line l).len
  line : ∀ m, (s₁.line m).Kept (s₂.line m)

theorem LineSt.Holds.attach {s₁ : LineSt} {l : Nat} {block : List UInt8}
    (h : s.Holds s₁ l block) (cptr : Nat) :
    ∃ s₂, linebufAttach (.sendQ cptr) (.linebuf 0) s₁ = .ok s₂ ∧ Accounted s₂ ∧
      s₁.Attached s₂ (.sendQ cptr) l := by
  have hattach : linebufAttach (.sendQ cptr) (.linebuf 0) s₁ =
      .ok ([l].foldl (linebufAttachLine (.sendQ cptr)) s₁) := by
    rw [linebufAttach, if_neg fun hself => HeadId.noConfusion hself.1, h.own]
  have hlen : ((linebufAttachLine (.sendQ cptr) s₁ l).head (.sendQ cptr)).len =
      (s₁.head (.sendQ cptr)).len + (s₁.line l).len := by
    simp [linebufAttachLine]
  obtain ⟨-, hlist, -, hkept⟩ := attachLines_eq (.sendQ cptr) [l] s₁
  refine ⟨_, hattach, ?_, hlist, hlen, hkept⟩
  exact attachLines_accounted (.sendQ cptr) [l] h.toAccounted
    (by rw [← h.own]; exact h.live _)

/-! ## One block -/

namespace OutLink

variable {ζ : Type} {A : Allocator} {deflate : Deflate ζ} {link link' : OutLink ζ}

/-- The two links take messages in the same way. -/
structure Alike (link link' : OutLink ζ) : Prop where
  cptr : link'.cptr = link.cptr
  zipOut : link'.zipOut = link.zipOut

theorem deadLinkOnWrite_idle (h : link.bufs.Idle) :
    ∃ link', link.deadLinkOnWrite = .ok link' ∧ link'.bufs.Idle ∧ link.Alike link' ∧
      link'.sendQ.list = [] := by
  obtain ⟨s, hs, hacc, -, hk⟩ := linebufDonebuf_ok (.recvQ link.cptr) h.toAccounted
  have hidle := hk.idle h hacc HeadId.noConfusion
  obtain ⟨s', hs', hacc', hnil, hk'⟩ := linebufDonebuf_ok (.sendQ link.cptr) hacc
  refine ⟨{ link with isDead := true, bufs := s' }, ?_,
    hk'.idle hidle hacc' HeadId.noConfusion, ⟨rfl, rfl⟩, hnil⟩
  rw [deadLinkOnWrite, hs]
  show withBufs _ (linebufDonebuf _ s) = _
  rw [hs']
  rfl

theorem sendQueued_idle (answers : List SocketAnswer) (h : link.bufs.Idle) :
    Answers (fun link' => link'.bufs.Idle ∧ link.Alike link') (· = .line .socket)
      (link.sendQueued answers) := by
  rw [sendQueued]
  split
  · exact ⟨h, rfl, rfl⟩
  · split
    · have hloop := sendQueuedLoop_keptBut (.sendQ link.cptr) answers h.toAccounted
      split
      · next e he =>
          rw [he] at hloop
          exact congrArg OutStop.line hloop
      · next rlen ignorable s hs =>
          rw [hs] at hloop
          have hidle : s.Idle := hloop.2.idle h hloop.1 HeadId.noConfusion
          simp only
          split
          · exact ⟨hidle, rfl, rfl⟩
          · obtain ⟨link', hok, h', ha, -⟩ :=
              @deadLinkOnWrite_idle _ { link with bufs := s } hidle
            rw [hok]
            exact ⟨h', ha.cptr, ha.zipOut⟩
    · exact ⟨h, rfl, rfl⟩

/-- The queue gains one line, which holds of the block what a line can. -/
theorem enqueue_gained (A : Allocator) (block : List UInt8) (h : link.bufs.Idle) :
    ∃ link', link.enqueue A block = .ok link' ∧ link'.bufs.Idle ∧ link.Alike link' ∧
      link.gained link' = block.take bufDataSize := by
  obtain ⟨s₁, l, hput, hholds⟩ := h.put A block
  obtain ⟨s₂, hattach, hacc, hadded⟩ := hholds.attach link.cptr
  obtain ⟨s₃, hdone, hacc₃, hnil, hbut⟩ := linebufDonebuf_ok (.linebuf 0) hacc
  refine ⟨{ link with bufs := s₃ }, ?_, ⟨hacc₃, hnil⟩, ⟨rfl, rfl⟩, ?_⟩
  · rw [enqueue, hput]
    show link.withBufs ((linebufAttach _ _ s₁).bind _) = _
    rw [hattach]
    show link.withBufs (linebufDonebuf _ s₂) = _
    rw [hdone]
    rfl
  · have hlines : (s₃.head (.sendQ link.cptr)).list = link.sendQ.list ++ [l] := by
      rw [hbut.head _ HeadId.noConfusion, hadded.list, hholds.head _ HeadId.noConfusion]
      rfl
    show lineBytes s₃.line ((s₃.head (.sendQ link.cptr)).list.drop _) = _
    rw [hlines, List.drop_left, lineBytes_cons, (hbut.line l).rest, (hadded.line l).rest,
      hholds.text]
    simp [lineBytes]

/-! ## One message -/

/-- A compressed link puts a block of the same length on the wire, encrypted or
not, and only its streams move on. -/
theorem encode_zip (deflate : Deflate ζ) (hz : link.zipOut = true) (line : List UInt8) :
    ∃ zout rc4Out block,
      link.encode deflate line = ({ link with zout := zout, rc4Out := rc4Out }, block) ∧
      block.map List.length = (zipBuffer deflate link.zout line).2.map List.length := by
  rw [encode, if_pos hz]
  cases hb : (zipBuffer deflate link.zout line).2 with
  | none =>
      refine ⟨(zipBuffer deflate link.zout line).1, link.rc4Out, none, ?_, rfl⟩
      simp only [hb]
  | some block =>
      by_cases hrc4 : link.isRc4Out ∧ block ≠ []
      · refine ⟨(zipBuffer deflate link.zout line).1, (rc4ProcessStream link.rc4Out block).1,
          some (rc4ProcessStream link.rc4Out block).2, ?_, ?_⟩
        · simp only [hb]
          rw [if_pos hrc4]
        · rw [Option.map_some, length_rc4ProcessStream]
          rfl
      · refine ⟨(zipBuffer deflate link.zout line).1, link.rc4Out, some block, ?_, rfl⟩
        simp only [hb]
        rw [if_neg hrc4]

/-- The link is one that `send_message` sends to. -/
def Takes (link : OutLink ζ) : Prop := ¬(link.isAnon ∨ link.fd < 0 ∨ link.isDead)

instance (link : OutLink ζ) : Decidable link.Takes :=
  inferInstanceAs (Decidable (¬(link.isAnon ∨ link.fd < 0 ∨ link.isDead)))

/-- A block that `zip_buffer` makes of the message fits in a line, and finds
the queue within its limit. -/
def Passes (deflate : Deflate ζ) (link : OutLink ζ) (msg : List UInt8) : Prop :=
  link.Takes → ∀ line ∈ link.finishLine msg, ∀ block ∈ (zipBuffer deflate link.zout line).2,
    block.length ≤ bufDataSize ∧ (block = [] ∨ link.sendQ.len ≤ link.sendqlen)

instance (deflate : Deflate ζ) (link : OutLink ζ) (msg : List UInt8) :
    Decidable (link.Passes deflate msg) :=
  inferInstanceAs (Decidable (link.Takes → ∀ line ∈ link.finishLine msg,
    ∀ block ∈ (zipBuffer deflate link.zout line).2,
      block.length ≤ bufDataSize ∧ (block = [] ∨ link.sendQ.len ≤ link.sendqlen)))

theorem gained_of_nil (h : link'.sendQ.list = []) : link.gained link' = [] := by
  rw [gained, h, List.drop_nil]
  rfl

theorem gained_of_eq (h : link'.sendQ = link.sendQ) : link.gained link' = [] := by
  rw [gained, h, List.drop_length]
  rfl

/-- The queue gains the beginning of the block, and all of it if the message
passes. -/
theorem queueMessage_gained (A : Allocator) (deflate : Deflate ζ) (msg : List UInt8)
    (h : link.bufs.Idle) (hz : link.zipOut = true) :
    Answers (fun r => r.1.bufs.Idle ∧ link.Alike r.1 ∧ link.gained r.1 <+: r.2.1 ∧
        (link.gained r.1 = r.2.1 ↔ link.Passes deflate msg))
      (· = .chop) (link.queueMessage A deflate msg) := by
  rw [queueMessage]
  split
  · next hno =>
      have hsame : link.gained link = [] := gained_of_eq rfl
      refine ⟨h, ⟨rfl, rfl⟩, ?_⟩
      rw [hsame]
      exact ⟨List.prefix_refl _, ⟨fun _ ht => absurd hno ht, fun _ => rfl⟩⟩
  · next htakes =>
      cases hline : link.finishLine msg with
      | none => exact rfl
      | some line =>
          obtain ⟨zout, rc4Out, o, hencode, hlen⟩ := encode_zip deflate hz line
          have hpass : link.Passes deflate msg ↔
              ∀ block ∈ (zipBuffer deflate link.zout line).2,
                block.length ≤ bufDataSize ∧ (block = [] ∨ link.sendQ.len ≤ link.sendqlen) := by
            rw [Passes, hline]
            simp [Takes, htakes]
          rw [hpass]
          simp only [hencode]
          generalize (zipBuffer deflate link.zout line).2 = z at *
          match o, z, hlen with
          | none, none, _ =>
              obtain ⟨link', hok, hidle, ha, hnil⟩ :=
                @deadLinkOnWrite_idle _ { link with zout := zout, rc4Out := rc4Out } h
              simp only [hok]
              refine ⟨hidle, ⟨ha.cptr, ha.zipOut⟩, ?_⟩
              rw [gained_of_nil hnil]
              simp
          | some block, some plain, hlen =>
              have hlen : block.length = plain.length := by simpa using hlen
              have hnil : block = [] ↔ plain = [] := by
                rw [← List.length_eq_zero_iff, hlen, List.length_eq_zero_iff]
              simp only
              split
              · next hb =>
                  have hsame : link.gained { link with zout := zout, rc4Out := rc4Out } = [] :=
                    gained_of_eq rfl
                  refine ⟨h, ⟨rfl, rfl⟩, ?_⟩
                  rw [hsame]
                  simp [hnil.mp hb]
              · next hb =>
                  have hplain := mt hnil.mpr hb
                  split
                  · next hover =>
                      obtain ⟨link', hok, hidle, ha, hgone⟩ := @deadLinkOnWrite_idle _
                        { link with zout := zout, rc4Out := rc4Out, sendqex := true } h
                      have hover : ¬link.sendQ.len ≤ link.sendqlen := not_le.mpr hover
                      simp only [hok]
                      refine ⟨hidle, ⟨ha.cptr, ha.zipOut⟩, ?_⟩
                      rw [gained_of_nil hgone]
                      simp [hplain, hover, Ne.symm hb]
                  · next hover =>
                      obtain ⟨link', hok, hidle, ha, hgain⟩ := @enqueue_gained _
                        { link with zout := zout, rc4Out := rc4Out } A block h
                      have hover : link.sendQ.len ≤ link.sendqlen := not_lt.mp hover
                      have hgain : link.gained link' = block.take bufDataSize := hgain
                      simp only [hok]
                      refine ⟨hidle, ⟨ha.cptr, ha.zipOut⟩, ?_⟩
                      rw [hgain, List.take_eq_self_iff, hlen]
                      simp [List.take_prefix, hover]

end OutLink

/-! ## Any sequence of messages -/

inductive SendOp
  | message (msg : List UInt8) (answers : List SocketAnswer)
  /-- The socket can be written to again. -/
  | writable (answers : List SocketAnswer)

structure ZipRun (ζ : Type) where
  link : OutLink ζ
  /-- What `zip_buffer` returned, encrypted if the link is. -/
  blocks : List (List UInt8)
  /-- What the queue gained. -/
  appended : List UInt8

namespace ZipRun

variable {ζ : Type}

def start (link : OutLink ζ) : ZipRun ζ where
  link := link
  blocks := []
  appended := []

variable (A : Allocator) (deflate : Deflate ζ)

def step (m : ZipRun ζ) : SendOp → Except OutStop (ZipRun ζ)
  | .message msg answers =>
      (m.link.queueMessage A deflate msg).bind fun (link, block, queued) =>
        (if queued then link.sendQueued answers else .ok link).map fun link' =>
          { link := link'
            blocks := m.blocks ++ [block]
            appended := m.appended ++ m.link.gained link }
  | .writable answers => (m.link.sendQueued answers).map fun link => { m with link := link }

/-- The step on a message is `send_message`, and the logs. -/
theorem step_message (m : ZipRun ζ) (msg : List UInt8) (answers : List SocketAnswer) :
    (m.step A deflate (.message msg answers)).map ZipRun.link =
      m.link.sendMessage A deflate msg answers := by
  rw [step, OutLink.sendMessage]
  cases m.link.queueMessage A deflate msg with
  | error e => rfl
  | ok r =>
      show Except.map _ (Except.map _ (if _ then _ else _)) = if _ then _ else _
      split
      · cases r.1.sendQueued answers with
        | error e => rfl
        | ok link => rfl
      · rfl

/-- The condition on a message; there is none on `send_queued`. -/
def Passes (m : ZipRun ζ) : SendOp → Prop
  | .message msg _ => m.link.Passes deflate msg
  | .writable _ => True

instance (m : ZipRun ζ) : ∀ op, Decidable (Passes deflate m op)
  | .message msg _ => inferInstanceAs (Decidable (m.link.Passes deflate msg))
  | .writable _ => .isTrue trivial

/-- The link can take the next message, and what the queue gained is no more
than what there was. -/
structure Sound (m : ZipRun ζ) : Prop where
  idle : m.link.bufs.Idle
  zipOut : m.link.zipOut = true
  le : m.appended.length ≤ m.blocks.flatten.length

variable {A deflate} {m : ZipRun ζ}

theorem append_eq_append_iff_of_le {α : Type} {xs ys xs' ys' : List α}
    (h : xs.length ≤ ys.length) (h' : xs'.length ≤ ys'.length) :
    xs ++ xs' = ys ++ ys' ↔ xs = ys ∧ xs' = ys' := by
  constructor
  · intro heq
    have hlen := congrArg List.length heq
    rw [List.length_append, List.length_append] at hlen
    exact List.append_inj heq (by omega)
  · rintro ⟨rfl, rfl⟩
    rfl

theorem step_sound (h : m.Sound) (op : SendOp) :
    Answers (fun m' => m'.Sound ∧
        (m'.appended = m'.blocks.flatten ↔
          m.appended = m.blocks.flatten ∧ m.Passes deflate op))
      (fun e => e = .line .socket ∨ e = .chop) (m.step A deflate op) := by
  cases op with
  | message msg answers =>
      have hmsg := OutLink.queueMessage_gained A deflate msg h.idle h.zipOut
      refine (hmsg.imp (fun _ => id) fun _ => Or.inr).bind ?_
      rintro ⟨link, block, queued⟩ ⟨hidle, halike, hprefix, hall⟩
      have hsent : Answers (fun link' : OutLink ζ => link'.bufs.Idle ∧ link.Alike link')
          (fun e => e = .line .socket ∨ e = .chop)
          (if queued then link.sendQueued answers else .ok link) := by
        split
        · exact (OutLink.sendQueued_idle answers hidle).imp (fun _ => id) fun _ => Or.inl
        · exact ⟨hidle, rfl, rfl⟩
      refine hsent.map fun link' hlink' => ?_
      have hflat : (m.blocks ++ [block]).flatten = m.blocks.flatten ++ block := by simp
      refine ⟨⟨hlink'.1, ?_, ?_⟩, ?_⟩
      · rw [hlink'.2.zipOut, halike.zipOut, h.zipOut]
      · rw [hflat, List.length_append, List.length_append]
        exact Nat.add_le_add h.le hprefix.length_le
      · show m.appended ++ _ = _ ↔ _ ∧ m.link.Passes deflate msg
        rw [hflat, append_eq_append_iff_of_le h.le hprefix.length_le, hall]
  | writable answers =>
      refine ((OutLink.sendQueued_idle answers h.idle).imp (fun _ => id) fun _ => Or.inl).map ?_
      intro link hlink
      exact ⟨⟨hlink.1, hlink.2.zipOut.trans h.zipOut, h.le⟩, by simp [Passes]⟩

theorem run_sound (ops : List SendOp) :
    ∀ {m : ZipRun ζ}, m.Sound →
      Answers (fun m' => m'.appended = m'.blocks.flatten ↔
          m.appended = m.blocks.flatten ∧ Meets (step A deflate) (Passes deflate) m ops)
        (fun e => e = .line .socket ∨ e = .chop) (run (step A deflate) m ops) := by
  induction ops with
  | nil => exact fun h => (and_iff_left trivial).symm
  | cons op ops ih =>
      intro m h
      have hstep := @step_sound _ A deflate m h op
      rw [run]
      cases hm : m.step A deflate op with
      | error e =>
          rw [hm] at hstep
          exact hstep
      | ok m' =>
          rw [hm] at hstep
          refine (ih hstep.1).imp (fun m'' h'' => ?_) fun _ => id
          rw [h'', hstep.2, and_assoc, Meets]
          simp [hm]

end ZipRun

/-- Whatever `deflate` answers and however much the socket takes, the queue of
a compressed link has gained the blocks of all messages, one after the other,
exactly if every block fitted in a line and found the queue within its limit.
No call fails, unless a socket takes more than it is offered or a message is
nothing but line ends. -/
theorem zipRun_appended {ζ : Type} (A : Allocator) (deflate : Deflate ζ) (link : OutLink ζ)
    (hidle : link.bufs.Idle) (hzip : link.zipOut = true) (ops : List SendOp) :
    Answers (fun m : ZipRun ζ => m.appended = m.blocks.flatten ↔
        Meets (ZipRun.step A deflate) (ZipRun.Passes deflate) (ZipRun.start link) ops)
      (fun e => e = .line .socket ∨ e = .chop)
      (run (ZipRun.step A deflate) (ZipRun.start link) ops) := by
  have hrun := @ZipRun.run_sound _ A deflate ops (ZipRun.start link)
    ⟨hidle, hzip, Nat.le_refl 0⟩
  exact hrun.imp (fun m hm => hm.trans (and_iff_right rfl)) fun _ => id

/-- zlib's stored blocks, as far as there is room. -/
def storing : Deflate Unit where
  call _ inp room := ⟨zOk, (), inp.take room⟩
  out_le _ _ _ := by
    rw [List.length_take]
    exact Nat.min_le_left ..

/-- A server link that compresses. -/
def zipLink {ζ : Type} (zout : ζ) : OutLink ζ where
  cptr := 1
  fd := 4
  isAnon := false
  isDead := false
  isForeigner := false
  isServer := true
  isNegoServer := false
  zipOut := true
  isRc4Out := false
  sendqex := false
  sendqlen := 9000
  zout := zout
  rc4Out := ⟨id, 0, 0⟩
  bufs := LineSt.init

/-- Two messages, and a socket that takes half of the first. -/
theorem zipRun_appended_ping :
    let ops := [.message [0x50, 0x49, 0x4e, 0x47] [⟨2, false⟩, ⟨-1, true⟩],
      .message [0x50, 0x4f, 0x4e, 0x47] [], .writable [⟨3, false⟩, ⟨5, false⟩]]
    ∃ m, run (ZipRun.step .bump storing) (ZipRun.start (zipLink ())) ops = .ok m ∧
      m.blocks.map List.length = [5, 5] ∧ m.appended = m.blocks.flatten := by
  intro ops
  have hblocks : (run (ZipRun.step .bump storing) (ZipRun.start (zipLink ())) ops).toOption.map
      (fun m => m.blocks.map List.length) = some [5, 5] := by decide +kernel
  have hmeets : Meets (ZipRun.step .bump storing) (ZipRun.Passes storing)
      (ZipRun.start (zipLink ())) ops := by decide +kernel
  have hrun := zipRun_appended .bump storing (zipLink ()) LineSt.init_idle rfl ops
  cases hm : run (ZipRun.step .bump storing) (ZipRun.start (zipLink ())) ops with
  | error e =>
      rw [hm] at hblocks
      cases hblocks
  | ok m =>
      rw [hm] at hblocks hrun
      exact ⟨m, rfl, Option.some.inj hblocks, hrun.mpr hmeets⟩

/-- A `deflate` that waits for 514 bytes before it writes. -/
def hoarding : Deflate (List UInt8) where
  call z inp room :=
    if (z ++ inp).length < 514 then ⟨zOk, z ++ inp, []⟩ else ⟨zOk, [], (z ++ inp).take room⟩
  out_le z inp room := by
    split
    · exact Nat.zero_le room
    · rw [List.length_take]
      exact Nat.min_le_left ..

/-- Two messages that come out as one block: its last bytes are gone. -/
theorem zipRun_truncated :
    Answers (fun m : ZipRun (List UInt8) => m.blocks.map List.length = [0, 602] ∧
        m.appended.length = 512 ∧ m.appended ≠ m.blocks.flatten)
      (fun _ => False)
      (run (ZipRun.step .bump hoarding) (ZipRun.start (zipLink []))
        [.message (List.replicate 300 0x41) [], .message (List.replicate 300 0x42) []]) := by
  decide +kernel

end TrIrcd
