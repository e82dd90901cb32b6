import TrIrcd.Proofs.UserCounts

/-!
# A netsplit removes the lost subtree

`exit_client` for a server takes out the server, the servers and the users
behind it, and nothing else. The tree may be any that the lists, the table and
the `servptr` fields agree on; the states that calls reach are such trees
(`run_sound`), and the second statement below is the case of one of them.
-/

namespace TrIrcd

open TrIrcd.Lib

namespace NetSt

/-- The users `us` and the servers `ss` have left `s`: they are what was below
`x`, they are off the lists and out of the table, and `Count` went down by how
many they were. Everybody else, and every list but for them, is as before. -/
structure SplitOff (s s' : NetSt) (x : Nat) (us ss : List Nat) : Prop where
  nodup : (us ++ ss).Nodup
  lost : ∀ c, c ∈ us ++ ss ↔ s.Below x c
  users : ∀ c ∈ us, (s.client c).status = .client
  servers : ∀ c ∈ ss, (s.client c).status = .server
  listed : ∀ c ∈ us ++ ss, s.InTable c ∧ ∃ l, c ∈ s.list l
  table : ∀ c, s'.InTable c ↔ s.InTable c ∧ c ∉ us ++ ss
  lists : ∀ l, s'.list l = (s.list l).filter fun c => c ∉ us ++ ss
  kept : ∀ c, c ∉ us ++ ss → (c ∈ s'.clients ↔ c ∈ s.clients) ∧ s'.client c = s.client c
  total : s'.count.total = s.count.total - us.length
  server : s'.count.server = s.count.server - ss.length

variable {key : UInt32} {s : NetSt} {x : Nat}

theorem Below.listed {V : TreeList → List Nat} {H : List Nat} (h : Wf key V H s) (t : Tree V s)
    {p c : Nat} (hx : x ∈ V (.servers p)) (hc : s.Below x c) : ∃ l, c ∈ V l := by
  rcases ((below_iff h t hx).mpr hc).cases_head with rfl | ⟨q, hq, -⟩
  · exact ⟨_, hx⟩
  · obtain ⟨l, -, hl⟩ := hq.listed
    exact ⟨l, hl⟩

/-- `exit_client` for a server ends, and splits off exactly what is below it. -/
theorem exitClient_splitOff (h : WellFormed key s) (hx : s.Present x)
    (hst : (s.client x).status = .server) :
    ∃ s' us ss, s.exitClient key x = .ok s' ∧ SplitOff s s' x us ss := by
  obtain ⟨V, H, h, t⟩ := h
  obtain ⟨p, hp⟩ := h.listed_server t hx hst
  obtain ⟨s', V', H', us, ss, he, hex, ht, hs, hnd, hb, hus, hss⟩ := exitClient_server h t hp
  refine ⟨s', us, ss, he, hnd, hb, hus, hss, fun c hc => ?_, fun c => ?_, fun l => ?_, hex.kept,
    ht, hs⟩
  · obtain ⟨l, hl⟩ := Below.listed h t hp ((hb c).mp hc)
    exact ⟨h.inTable.mpr (h.live hl).2, l, by rw [h.list]; exact hl⟩
  · rw [hex.wf.inTable, h.inTable]
    exact hex.held c
  · rw [hex.wf.list, h.list]
    exact hex.lists l

/-- A linked network with a user on each side, before the server goes. -/
theorem exitClient_splitOff_link :
    ∃ s s' us ss,
      run (NetSt.step Allocator.bump 0) (init 0 [109]) (linkAndSplit.take 6) = .ok s ∧
        s.exitClient 0 1 = .ok s' ∧ SplitOff s s' 1 us ss := by
  have hsound := run_sound Allocator.bump (init_sound 0 [109]) (linkAndSplit.take 6)
    (by decide)
  have hserver : Answers
      (fun s => (1 ∈ s.clients ∧ (s.client 1).exited = false) ∧ (s.client 1).status = .server)
      (fun _ => False)
      (run (NetSt.step Allocator.bump 0) (init 0 [109]) (linkAndSplit.take 6)) := by
    decide
  cases hr : run (NetSt.step Allocator.bump 0) (init 0 [109]) (linkAndSplit.take 6) with
  | error e =>
      rw [hr] at hserver
      exact hserver.elim
  | ok s =>
      rw [hr] at hsound hserver
      obtain ⟨V, H, i⟩ := hsound
      obtain ⟨s', us, ss, he, hsplit⟩ :=
        exitClient_splitOff ⟨V, H, i.wf, i.tree⟩ hserver.1 hserver.2
      exact ⟨s, s', us, ss, rfl, he, hsplit⟩

end NetSt

end TrIrcd
