import TrIrcd.Proofs.Hostmask
import TrIrcd.Proofs.Zlines
import TrIrcd.Src.Inet

/-!
# Dotted quads

A dotted quad is four decimal numbers up to 255, with a dot between two of them.
`inet_pton4` takes just these texts (`inetPton4_eq_iff`): while it reads a
number, the bytes in front of it are done and the digits so far are its value.
What `inetntoa` prints is such a text.
-/

namespace TrIrcd

open TrIrcd.Lib

/-- A number for a byte. -/
structure IsOctet (d : List UInt8) : Prop where
  ne_nil : d ≠ []
  digits : ∀ c ∈ d, isDigit c = true
  le : decimal d ≤ 255

def octet (d : List UInt8) : UInt8 := UInt8.ofNat (decimal d)

/-- The text is a dotted quad that writes the address. -/
def IsDottedQuad (text : List UInt8) (addr : InAddr) : Prop :=
  ∃ ds : List (List UInt8), ds.length = 4 ∧ (∀ d ∈ ds, IsOctet d) ∧ text = [0x2e].intercalate ds ∧
    addr.bytes = ds.map octet

/-- The numbers behind the first one. -/
def dotted (ds : List (List UInt8)) : List UInt8 := ds.flatMap fun d => 0x2e :: d

theorem intercalate_dotted (d : List UInt8) (ds : List (List UInt8)) :
    [0x2e].intercalate (d :: ds) = d ++ dotted ds := by
  induction ds generalizing d with
  | nil => rw [List.intercalate_singleton, dotted, List.flatMap_nil, List.append_nil]
  | cons d' ds ih =>
      rw [List.intercalate_cons_cons, ih, List.append_assoc, dotted, dotted, List.flatMap_cons]
      rfl

/-- The value of a number, of which `cur` is read already. -/
def numberFrom (cur : Nat) (d : List UInt8) : Nat :=
  d.foldl (fun v d => 10 * v + (d.toNat - 0x30)) cur

theorem le_numberFrom (d : List UInt8) : ∀ cur, cur ≤ numberFrom cur d := by
  induction d with
  | nil => exact fun cur => Nat.le_refl cur
  | cons c d ih =>
      intro cur
      have h := ih (10 * cur + (c.toNat - 0x30))
      show cur ≤ numberFrom (10 * cur + (c.toNat - 0x30)) d
      omega

/-! ## What `inet_pton4` takes -/

section Pton4

variable {done : List UInt8} {cur octets : Nat} {saw : Bool} {a : InAddr} {p : List UInt8}

theorem pton4Loop_digit {c : UInt8} (hc : isDigit c = true)
    (hval : 10 * cur + (c.toNat - 0x30) ≤ 255) (hroom : saw = false → octets < 4) :
    pton4Loop done cur saw octets (c :: p) =
      pton4Loop done (10 * cur + (c.toNat - 0x30)) true (octets + if saw then 0 else 1) p := by
  have hcomm : cur * 10 = 10 * cur := Nat.mul_comm cur 10
  rw [pton4Loop, if_pos hc]
  simp only [hcomm]
  rw [if_neg (Nat.not_lt.mpr hval)]
  cases saw with
  | true => rfl
  | false =>
      have hle : ¬ 4 < octets + 1 := Nat.not_lt.mpr (hroom rfl)
      simp only [Bool.false_eq_true, if_false, hle]

theorem pton4Loop_number {d : List UInt8} (hd : ∀ c ∈ d, isDigit c = true) :
    ∀ {cur octets : Nat} {saw : Bool}, numberFrom cur d ≤ 255 → (saw = false → octets < 4) →
      d ≠ [] → pton4Loop done cur saw octets (d ++ p) =
        pton4Loop done (numberFrom cur d) true (octets + if saw then 0 else 1) p := by
  induction d with
  | nil => exact fun _ _ h => absurd rfl h
  | cons c d ih =>
      intro cur octets saw hval hroom _
      have hle := le_numberFrom d (10 * cur + (c.toNat - 0x30))
      have hval' : numberFrom (10 * cur + (c.toNat - 0x30)) d ≤ 255 := hval
      rw [List.cons_append,
        pton4Loop_digit (hd c (List.mem_cons_self ..)) (Nat.le_trans hle hval') hroom]
      cases d with
      | nil => rfl
      | cons c' d =>
          exact ih (fun c hc => hd c (List.mem_cons_of_mem _ hc)) hval' (fun h => nomatch h)
            (List.cons_ne_nil c' d)

theorem pton4Loop_dot (hroom : octets < 4) :
    pton4Loop done cur true octets (0x2e :: p) =
      pton4Loop (done ++ [UInt8.ofNat cur]) 0 false octets p := by
  rw [pton4Loop, if_neg (by decide), if_pos ⟨rfl, rfl⟩, if_neg (Nat.ne_of_lt hroom)]

theorem pton4Loop_dotted {ds : List (List UInt8)} (hds : ∀ d ∈ ds, IsOctet d) :
    ∀ (done : List UInt8) (cur : Nat), done.length + 1 + ds.length = 4 →
      ∃ addr, pton4Loop done cur true (done.length + 1) (dotted ds) = some addr ∧
        addr.bytes = done ++ UInt8.ofNat cur :: ds.map octet := by
  induction ds with
  | nil =>
      intro done cur hlen
      match done, hlen with
      | [b₀, b₁, b₂], _ => exact ⟨⟨b₀, b₁, b₂, UInt8.ofNat cur⟩, rfl, rfl⟩
  | cons d ds ih =>
      intro done cur hlen
      have hd := hds d (List.mem_cons_self ..)
      rw [List.length_cons] at hlen
      have hone : (done ++ [UInt8.ofNat cur]).length = done.length + 1 := List.length_append
      obtain ⟨addr, hrest, hbytes⟩ := ih (fun d' h => hds d' (List.mem_cons_of_mem d h))
        (done ++ [UInt8.ofNat cur]) (decimal d) (by omega)
      rw [hone] at hrest
      refine ⟨addr, ?_, by rw [hbytes, List.append_assoc]; rfl⟩
      show pton4Loop done cur true (done.length + 1) (0x2e :: (d ++ dotted ds)) = _
      rw [pton4Loop_dot (by omega), pton4Loop_number hd.digits hd.le (fun _ => by omega) hd.ne_nil]
      exact hrest

/-- What the loop has taken: in a number the rest of it, behind a dot a number,
and the numbers behind it. -/
theorem pton4Loop_read (p : List UInt8) : ∀ done : List UInt8, done.length ≤ 3 →
    (∀ cur ≤ 255, pton4Loop done cur true (done.length + 1) p = some a →
      ∃ d ds, (∀ c ∈ d, isDigit c = true) ∧ numberFrom cur d ≤ 255 ∧ (∀ d ∈ ds, IsOctet d) ∧
        p = d ++ dotted ds ∧ done.length + 1 + ds.length = 4 ∧
        a.bytes = done ++ UInt8.ofNat (numberFrom cur d) :: ds.map octet) ∧
    (pton4Loop done 0 false done.length p = some a →
      ∃ d ds, IsOctet d ∧ (∀ d ∈ ds, IsOctet d) ∧ p = d ++ dotted ds ∧
        done.length + 1 + ds.length = 4 ∧ a.bytes = done ++ octet d :: ds.map octet) := by
  induction p with
  | nil =>
      intro done hle
      constructor
      · intro cur hcur h
        rw [pton4Loop] at h
        split at h
        · cases h
        · have hlen : done.length = 3 := by omega
          match done, hlen with
          | [b₀, b₁, b₂], _ =>
              cases h
              exact ⟨[], [], fun _ hc => absurd hc List.not_mem_nil, hcur,
                fun _ hd => absurd hd List.not_mem_nil, rfl, rfl, rfl⟩
      · intro h
        rw [pton4Loop, if_pos (Nat.lt_succ_of_le hle)] at h
        cases h
  | cons c p ih =>
      intro done hle
      by_cases hc : isDigit c = true
      · constructor
        · intro cur hcur h
          by_cases hval : 10 * cur + (c.toNat - 0x30) ≤ 255
          · rw [pton4Loop_digit hc hval (fun hsaw : true = false => Bool.noConfusion hsaw)] at h
            obtain ⟨d, ds, hd, hle', hds, rfl, hlen, hbytes⟩ := (ih done hle).1 _ hval h
            exact ⟨c :: d, ds, List.forall_mem_cons.mpr ⟨hc, hd⟩, hle', hds, rfl, hlen, hbytes⟩
          · rw [pton4Loop, if_pos hc, Nat.mul_comm] at h
            simp only [Nat.not_le.mp hval, if_true] at h
            cases h
        · intro h
          have hlt := UInt8.toNat_lt c
          have hval : 10 * 0 + (c.toNat - 0x30) ≤ 255 := by omega
          rw [pton4Loop_digit hc hval (fun _ => Nat.lt_succ_of_le hle)] at h
          obtain ⟨d, ds, hd, hle', hds, rfl, hlen, hbytes⟩ := (ih done hle).1 _ hval h
          exact ⟨c :: d, ds, ⟨List.cons_ne_nil c d, List.forall_mem_cons.mpr ⟨hc, hd⟩, hle'⟩, hds,
            rfl, hlen, hbytes⟩
      · constructor
        · intro cur hcur h
          rw [pton4Loop, if_neg hc] at h
          split at h
          · next hdot =>
              split at h
              · cases h
              · next hoct =>
                  have hone : (done ++ [UInt8.ofNat cur]).length = done.length + 1 :=
                    List.length_append
                  rw [← hone] at h
                  obtain ⟨d, ds, hd, hds, rfl, hlen, hbytes⟩ := (ih _ (by omega)).2 h
                  refine ⟨[], d :: ds, fun _ hc => absurd hc List.not_mem_nil, hcur,
                    List.forall_mem_cons.mpr ⟨hd, hds⟩, ?_, ?_, ?_⟩
                  · rw [hdot.1]
                    rfl
                  · rw [List.length_cons]
                    omega
                  · rw [hbytes, List.append_assoc]
                    rfl
          · cases h
        · intro h
          rw [pton4Loop, if_neg hc, if_neg (fun hdot => nomatch hdot.2)] at h
          cases h

end Pton4

/-- `inet_pton4` takes the dotted quads, as what they write. -/
theorem inetPton4_eq_iff {text : List UInt8} {addr : InAddr} :
    inetPton4 text = some addr ↔ IsDottedQuad text addr := by
  constructor
  · intro h
    obtain ⟨d, ds, hd, hds, rfl, hlen, hbytes⟩ := (pton4Loop_read text [] (Nat.zero_le 3)).2 h
    refine ⟨d :: ds, ?_, List.forall_mem_cons.mpr ⟨hd, hds⟩, (intercalate_dotted d ds).symm, hbytes⟩
    rw [List.length_cons]
    rw [List.length_nil] at hlen
    omega
  · rintro ⟨ds, hlen, hds, rfl, hbytes⟩
    cases ds with
    | nil => cases hlen
    | cons d ds =>
        have hd := hds d (List.mem_cons_self ..)
        rw [List.length_cons] at hlen
        obtain ⟨addr', hrest, hbytes'⟩ := pton4Loop_dotted
          (fun d' h => hds d' (List.mem_cons_of_mem d h)) [] (decimal d)
          (by rw [List.length_nil]; omega)
        have heq : addr' = addr := by
          have hsame : addr'.bytes = addr.bytes := hbytes'.trans hbytes.symm
          simp only [InAddr.bytes, List.cons.injEq] at hsame
          cases addr'
          cases addr
          simpa using hsame
        rw [inetPton4, intercalate_dotted,
          pton4Loop_number hd.digits hd.le (fun _ => by decide) hd.ne_nil]
        rw [heq] at hrest
        exact hrest

/-- A dotted quad has digits and dots in it. -/
theorem IsDottedQuad.mem {text : List UInt8} {addr : InAddr} (h : IsDottedQuad text addr) :
    ∀ c ∈ text, isDigit c = true ∨ c = 0x2e := by
  obtain ⟨ds, _, hds, rfl, _⟩ := h
  cases ds with
  | nil => exact fun c hc => absurd hc List.not_mem_nil
  | cons d ds =>
      rw [intercalate_dotted]
      intro c hc
      rcases List.mem_append.mp hc with hc | hc
      · exact .inl ((hds d (List.mem_cons_self ..)).digits c hc)
      · obtain ⟨d', hd', hc⟩ := List.mem_flatMap.mp hc
        rcases List.mem_cons.mp hc with rfl | hc
        · exact .inr rfl
        · exact .inl ((hds d' (List.mem_cons_of_mem d hd')).digits c hc)

/-! ## What `inetntoa` prints -/

theorem decimal_ipQuadTab (b : UInt8) : decimal (ipQuadTab b) = b.toNat := by
  have hall : ∀ n < 256, decimal (ipQuadTab (UInt8.ofNat n)) = n := by decide +kernel
  have h := hall b.toNat b.toNat_lt
  rwa [UInt8.ofNat_toNat] at h

theorem isOctet_ipQuadTab (b : UInt8) : IsOctet (ipQuadTab b) where
  ne_nil := by simp [ipQuadTab]
  digits := isDigit_ipQuadTab b
  le := by
    rw [decimal_ipQuadTab]
    exact Nat.le_of_lt_succ b.toNat_lt

theorem octet_ipQuadTab (b : UInt8) : octet (ipQuadTab b) = b := by
  rw [octet, decimal_ipQuadTab, UInt8.ofNat_toNat]

theorem inetntoaBytes_quad (src : InAddr) : IsDottedQuad (inetntoaBytes src) src := by
  refine ⟨[ipQuadTab src.b0, ipQuadTab src.b1, ipQuadTab src.b2, ipQuadTab src.b3], rfl, ?_, ?_,
    ?_⟩
  · intro d hd
    simp only [List.mem_cons, List.not_mem_nil, or_false] at hd
    rcases hd with rfl | rfl | rfl | rfl
    all_goals exact isOctet_ipQuadTab _
  · simp [inetntoaBytes]
  · simp [InAddr.bytes, octet_ipQuadTab]

theorem inetntoaBytes_length (src : InAddr) : (inetntoaBytes src).length ≤ 15 := by
  have h₀ := length_ipQuadTab src.b0
  have h₁ := length_ipQuadTab src.b1
  have h₂ := length_ipQuadTab src.b2
  have h₃ := length_ipQuadTab src.b3
  rw [inetntoaBytes]
  simp only [List.length_append, List.length_cons]
  omega

end TrIrcd
