import Mathlib.Algebra.Ring.Nat
import TrIrcd.Lib.Run
import TrIrcd.Src.Link
import TrIrcd.Proofs.LinkLines

/-!
# What the receive statistics count

A call adds to `receiveB` what it is handed and what waits, in sixteen bits,
and then splits the sum: `ByteCount.process_received` says that nothing but
this sum modulo 65536 is counted. So the statistics are exact after a call
just when they were exact before it, nothing is counted again, and the sum
does not wrap (`CountedOnce`), and a run stays exact just as long as all its
calls are of this kind (`statistics_exact_iff`). A line that comes in two
packets is enough to count its beginning twice.
-/

namespace TrIrcd

open Function (update)
open TrIrcd.Lib

/-! ## Calls -/

def ReceiveOp.cptr : ReceiveOp → Nat
  | .server cptr _ => cptr
  | .client cptr _ => cptr

def ReceiveOp.buffer : ReceiveOp → List UInt8
  | .server _ buffer => buffer
  | .client _ buffer => buffer

/-- The bytes that came from one client. -/
def bytesFrom (cptr : Nat) (ops : List ReceiveOp) : Nat :=
  ((ops.filter (·.cptr = cptr)).map (·.buffer.length)).sum

/-- The bytes that came from all of them. -/
def bytesReceived (ops : List ReceiveOp) : Nat := (ops.map (·.buffer.length)).sum

theorem bytesFrom_concat (cptr : Nat) (ops : List ReceiveOp) (o : ReceiveOp) :
    bytesFrom cptr (ops ++ [o]) =
      bytesFrom cptr ops + if o.cptr = cptr then o.buffer.length else 0 := by
  by_cases h : o.cptr = cptr <;> simp [bytesFrom, List.filter_append, h]

theorem bytesReceived_concat (ops : List ReceiveOp) (o : ReceiveOp) :
    bytesReceived (ops ++ [o]) = bytesReceived ops + o.buffer.length := by
  simp [bytesReceived]

/-! ## One count -/

/-- The statistics of one client after so many bytes. -/
structure ByteCount.Exact (n : ByteCount) (total : Nat) : Prop where
  received : 1024 * n.receiveK + n.receiveB.toNat = total
  remainder : n.receiveB.toNat < 1024

/-- The sum is counted, as far as it fits in sixteen bits. -/
theorem ByteCount.process_received (n : ByteCount) (length : Nat) :
    (n.process length).Exact
      (1024 * n.receiveK + (n.receiveB.toNat + length) % UInt16.size) := by
  have hsum : (n.receiveB + UInt16.ofNat length).toNat =
      (n.receiveB.toNat + length) % UInt16.size := by
    rw [UInt16.toNat_add, UInt16.toNat_ofNat', Nat.add_mod_mod]
  simp only [ByteCount.process]
  generalize n.receiveB + UInt16.ofNat length = sum at hsum
  rw [← hsum]
  by_cases hlt : 1023 < sum
  · have hshift : (sum >>> 10).toNat = sum.toNat / 1024 := by
      rw [UInt16.toNat_shiftRight, Nat.shiftRight_eq_div_pow]
      rfl
    have hmask : (sum &&& 0x03ff).toNat = sum.toNat % 1024 := by
      rw [UInt16.toNat_and]
      exact Nat.and_two_pow_sub_one_eq_mod sum.toNat 10
    rw [if_pos hlt]
    refine ⟨?_, ?_⟩
    · simp only [hshift, hmask]
      omega
    · simp only [hmask]
      omega
  · have hle : sum.toNat ≤ 1023 := UInt16.not_lt.mp hlt
    rw [if_neg hlt]
    exact ⟨rfl, Nat.lt_succ_of_le hle⟩

/-- An exact count stays exact just when the sum has room and all of it is new. -/
theorem ByteCount.process_exact_iff {n : ByteCount} {total : Nat} (h : n.Exact total)
    (length carried : Nat) :
    (n.process (length + carried)).Exact (total + length) ↔
      carried % UInt16.size = 0 ∧ n.receiveB.toNat + length < UInt16.size := by
  have hsize : UInt16.size = 65536 := rfl
  have hadd := n.process_received (length + carried)
  have hwas := h.received
  have hlt := h.remainder
  have hnow := hadd.received
  rw [hsize] at hnow ⊢
  constructor
  · intro hexact
    have := hexact.received
    omega
  · intro hroom
    exact ⟨by omega, hadd.remainder⟩

/-! ## One call -/

section Calls

variable {σ : Type} {E : CountEnv σ} {s s' : CountSt σ}

/-- What waits and is counted with the packet. -/
def ReceiveOp.carried (s : CountSt σ) : ReceiveOp → Nat
  | .server cptr _ => (s.client cptr).waitlen
  | .client _ _ => 0

/-- The counters are those of `process_bytecount`. -/
structure ByteCounted (s : CountSt σ) (o : ReceiveOp) (s' : CountSt σ) : Prop where
  me : s'.me = s.me.process (o.buffer.length + o.carried s)
  client : (s'.client o.cptr).count =
    (s.client o.cptr).count.process (o.buffer.length + o.carried s)
  other : ∀ cptr, cptr ≠ o.cptr → (s'.client cptr).count = (s.client cptr).count

theorem receiveStep_byteCounted {o : ReceiveOp} (h : receiveStep E s o = .ok s') : ByteCounted s o s' := by
  cases o with
  | server cptr buffer =>
      obtain ⟨link, -, rfl⟩ := map_ok_iff.mp h
      refine ⟨rfl, by simp [CountSt.ofLink, processBytecount, ReceiveOp.cptr,
        ReceiveOp.buffer, ReceiveOp.carried], fun c hc => ?_⟩
      have hne : c ≠ cptr := hc
      simp [CountSt.ofLink, processBytecount, hne]
  | client cptr buffer =>
      cases h
      refine ⟨rfl, by simp [clientDopacketCounted, processBytecount, ReceiveOp.cptr,
        ReceiveOp.buffer, ReceiveOp.carried], fun c hc => ?_⟩
      have hne : c ≠ cptr := hc
      simp [clientDopacketCounted, processBytecount, hne]

/-! ## Runs -/

/-- The statistics after the calls so far. -/
structure StatisticsExact (s : CountSt σ) (ops : List ReceiveOp) : Prop where
  client : ∀ cptr, (s.client cptr).count.Exact (bytesFrom cptr ops)
  me : s.me.Exact (bytesReceived ops)

/-- Nothing is counted again, and neither sum wraps. -/
structure CountedOnce (s : CountSt σ) (o : ReceiveOp) : Prop where
  carried : o.carried s % UInt16.size = 0
  client : (s.client o.cptr).count.receiveB.toNat + o.buffer.length < UInt16.size
  me : s.me.receiveB.toNat + o.buffer.length < UInt16.size

theorem receiveStep_exact_iff {ops : List ReceiveOp} {o : ReceiveOp}
    (hexact : StatisticsExact s ops) (h : receiveStep E s o = .ok s') :
    StatisticsExact s' (ops ++ [o]) ↔ CountedOnce s o := by
  have hcounted := receiveStep_byteCounted h
  have hclient := ByteCount.process_exact_iff (hexact.client o.cptr) o.buffer.length (o.carried s)
  have hme := ByteCount.process_exact_iff hexact.me o.buffer.length (o.carried s)
  rw [← hcounted.client] at hclient
  rw [← hcounted.me, ← bytesReceived_concat] at hme
  constructor
  · intro hafter
    have hown := hafter.client o.cptr
    rw [bytesFrom_concat, if_pos rfl] at hown
    exact ⟨(hme.mp hafter.me).1, (hclient.mp hown).2, (hme.mp hafter.me).2⟩
  · intro honce
    refine ⟨fun cptr => ?_, hme.mpr ⟨honce.carried, honce.me⟩⟩
    rw [bytesFrom_concat]
    by_cases hown : o.cptr = cptr
    · subst hown
      rw [if_pos rfl]
      exact hclient.mpr ⟨honce.carried, honce.client⟩
    · rw [if_neg hown, hcounted.other cptr (Ne.symm hown)]
      exact hexact.client cptr

/-- Before anything is received. -/
structure Uncounted (s : CountSt σ) : Prop where
  client : ∀ cptr, (s.client cptr).count.receiveK = 0 ∧ (s.client cptr).count.receiveB = 0
  me : s.me.receiveK = 0 ∧ s.me.receiveB = 0

theorem Uncounted.exact (h : Uncounted s) : StatisticsExact s [] := by
  have hzero : ∀ n : ByteCount, n.receiveK = 0 ∧ n.receiveB = 0 → n.Exact 0 := by
    rintro ⟨m, k, b⟩ ⟨rfl, rfl⟩
    exact ⟨rfl, by simp⟩
  exact ⟨fun cptr => hzero _ (h.client cptr), hzero _ h.me⟩

/-- The statistics are exact in every state of a run just when every call counts
its packet once. -/
theorem statistics_exact_iff {ops : List ReceiveOp} (hzero : Uncounted s)
    (hrun : run (receiveStep E) s ops = .ok s') :
    (∀ pre m, pre <+: ops → run (receiveStep E) s pre = .ok m → StatisticsExact m pre) ↔
      Meets (receiveStep E) CountedOnce s ops :=
  run_history_iff (fun _ _ _ _ => receiveStep_exact_iff) ops hzero.exact hrun

/-! ## Witnesses -/

/-- A server whose parsers do nothing, with no links yet. -/
def quietCountEnv : CountEnv Unit where
  memcpy := .undefined
  link _ := { serverParse := fun _ _ => ((), 0), isRc4In := fun _ => false, zipIn := fun _ => false }
  userParse _ _ _ := ((), 0)

def freshCountSt : CountSt Unit where
  client _ :=
    { restbuf := [], hasRestbuf := false, waitlen := 0, rc4In := ⟨id, 0, 0⟩, count := ⟨0, 0, 0⟩ }
  me := ⟨0, 0, 0⟩
  parser := ()

theorem freshCountSt_uncounted : Uncounted freshCountSt := ⟨fun _ => ⟨rfl, rfl⟩, rfl, rfl⟩

/-- Two whole lines, and a command of a user. -/
theorem statistics_exact_iff_lines :
    let ops := [.server 1 [97, 10], .client 2 [98, 99], .server 1 [10]]
    ∃ s', run (receiveStep quietCountEnv) freshCountSt ops = .ok s' ∧
      ∀ pre m, pre <+: ops → run (receiveStep quietCountEnv) freshCountSt pre = .ok m →
        StatisticsExact m pre := by
  refine ⟨_, rfl, (statistics_exact_iff freshCountSt_uncounted rfl).mpr ?_⟩
  refine ⟨⟨rfl, by decide, by decide⟩, fun m hm => ?_⟩
  cases hm
  refine ⟨⟨rfl, by decide, by decide⟩, fun m hm => ?_⟩
  cases hm
  exact ⟨⟨rfl, by decide, by decide⟩, fun _ _ => trivial⟩

/-- The first packet ends within a line: its byte waits, and is counted again. -/
theorem statistics_counted_twice :
    ¬ ∀ (ops : List ReceiveOp) (s' : CountSt Unit),
      run (receiveStep quietCountEnv) freshCountSt ops = .ok s' → StatisticsExact s' ops := by
  intro hall
  have hexact := (hall [.server 1 [97], .server 1 [10]] _ rfl).me.received
  revert hexact
  decide

end Calls

end TrIrcd
