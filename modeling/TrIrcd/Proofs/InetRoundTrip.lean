import TrIrcd.Proofs.InetPrint

/-!
# Addresses printed and read back

Every address that is printed comes back, an IPv4-compatible one as an
IPv4-mapped one: both are printed as the dotted quad of their last four bytes,
and `inetpton` puts `::ffff:` in front of any quad. So the text of the first
decides nothing, and what is left is to read the texts of `Printed` back
(`inetPton6_printed`).
-/

namespace TrIrcd

open TrIrcd.Lib
open TrIrcd.V6Scan (joinGroups)

/-! ## Groups that are read -/

section Read

variable {out : List UInt8} {colonp : Option Nat} {p : List UInt8} {gs pre post : List (List UInt8)}

theorem groupBytes_length (gs : List (List UInt8)) :
    (gs.flatMap groupBytes).length = 2 * gs.length := by
  induction gs with
  | nil => rfl
  | cons g gs ih =>
      rw [List.flatMap_cons, List.length_append, ih, List.length_cons]
      show 2 + 2 * gs.length = 2 * (gs.length + 1)
      omega

theorem inetPieces_ended (hp : p ≠ []) : ∀ {out : List UInt8}, (∀ g ∈ pre, IsGroup g) →
    out.length + 2 * pre.length ≤ 16 →
    inetPieces out colonp (ended pre ++ p) = inetPieces (out ++ pre.flatMap groupBytes) colonp p := by
  induction pre with
  | nil => exact fun _ _ => by rw [List.flatMap_nil, List.append_nil]; rfl
  | cons g pre ih =>
      intro out hpre hroom
      rw [List.length_cons] at hroom
      have hne : ended pre ++ p ≠ [] := List.append_ne_nil_of_right_ne_nil _ hp
      have hcons : ended (g :: pre) ++ p = g ++ 0x3a :: (ended pre ++ p) := by
        rw [ended, ended, List.flatMap_cons]
        simp only [List.append_assoc, List.cons_append, List.nil_append]
      rw [hcons, inetPieces_group (hpre g (List.mem_cons_self ..)) hne, if_pos (by omega),
        ih (fun g' hg => hpre g' (List.mem_cons_of_mem g hg)) (by
          rw [groupBytes_append_length]
          omega), List.flatMap_cons, List.append_assoc]

theorem inetPieces_join (hgs : ∀ g ∈ gs, IsGroup g) (hroom : out.length + 2 * gs.length ≤ 16) :
    inetPieces out colonp (joinGroups gs) = some (out ++ gs.flatMap groupBytes, colonp) := by
  cases gs using List.reverseRecOn with
  | nil =>
      rw [List.flatMap_nil, List.append_nil]
      exact inetPieces_nil
  | append_singleton gs g =>
      have hg : IsGroup g := hgs g (List.mem_append_right gs (List.mem_singleton_self g))
      rw [List.length_append, List.length_singleton] at hroom
      rw [joinGroups_ended, inetPieces_ended hg.ne_nil
        (fun g' h => hgs g' (List.mem_append_left _ h)) (by omega), inetPieces_last hg, if_pos (by
          rw [List.length_append, groupBytes_length]
          omega), List.flatMap_append, List.append_assoc, List.flatMap_singleton]

theorem head_ended (hpre : ∀ g ∈ pre, IsGroup g) (hne : pre ≠ []) :
    (joinGroups pre ++ p).head? ≠ some 0x3a := by
  cases pre with
  | nil => exact absurd rfl hne
  | cons g pre =>
      have hg := hpre g (List.mem_cons_self ..)
      cases g with
      | nil => exact absurd rfl hg.ne_nil
      | cons c g =>
          have hc := (isXDigit_ne (hg.digits c (List.mem_cons_self ..))).1
          have hhead : (joinGroups ((c :: g) :: pre) ++ p).head? = some c := by
            cases pre with
            | nil => rw [joinGroups_singleton]; rfl
            | cons g' pre => rw [V6Scan.joinGroups_cons_cons]; rfl
          rw [hhead]
          exact fun h => hc (Option.some.inj h)

/-- Eight groups. -/
theorem inetPton6_full (hgs : ∀ g ∈ gs, IsGroup g) (hlen : gs.length = 8) :
    inetPton6 (joinGroups gs) = some (gs.flatMap groupBytes) := by
  have hne : gs ≠ [] := fun h => by rw [h] at hlen; cases hlen
  have hhead := head_ended (p := []) hgs hne
  rw [List.append_nil] at hhead
  rw [inetPton6_of_head hhead, inetPieces_join hgs (by rw [hlen]; decide), Option.bind_some,
    List.nil_append, place_full, if_pos (by rw [groupBytes_length, hlen])]

/-- What stands behind a gap, up to the address. -/
theorem inetPton6_gap {tail bytes : List UInt8} (hpre : ∀ g ∈ pre, IsGroup g)
    (hlen : 2 * pre.length + bytes.length < 16)
    (htail : ∀ out k, out.length + bytes.length < 16 →
      inetPieces out (some k) tail = some (out ++ bytes, some k)) :
    inetPton6 (joinGroups pre ++ 0x3a :: 0x3a :: tail) =
      some (pre.flatMap groupBytes ++ (List.replicate (16 - (2 * pre.length + bytes.length)) 0 ++
        bytes)) := by
  have hgap : inetPieces [] none (ended pre ++ 0x3a :: tail) =
      some (pre.flatMap groupBytes ++ bytes, some (pre.flatMap groupBytes).length) := by
    rw [inetPieces_ended (List.cons_ne_nil _ _) hpre (by rw [List.length_nil]; omega), inetPieces_gap]
    exact htail _ _ (by rw [List.nil_append, groupBytes_length]; exact hlen)
  have hroom : (pre.flatMap groupBytes).length + bytes.length < 16 := by
    rw [groupBytes_length]
    exact hlen
  have hplace := place_short hroom
  rw [← groupBytes_length, ← hplace]
  by_cases hne : pre = []
  · subst hne
    show inetPton6 (0x3a :: 0x3a :: tail) = _
    rw [inetPton6_colon, if_pos List.head?_cons]
    show (inetPieces [] none (ended [] ++ 0x3a :: tail)).bind place = _
    rw [hgap, Option.bind_some]
  · have hended : joinGroups pre ++ 0x3a :: 0x3a :: tail = ended pre ++ 0x3a :: tail := by
      rw [ended_eq hne, List.append_assoc]
      rfl
    rw [inetPton6_of_head (head_ended hpre hne), hended, hgap, Option.bind_some]

theorem inetPton6_short (hpre : ∀ g ∈ pre, IsGroup g) (hpost : ∀ g ∈ post, IsGroup g)
    (hlen : pre.length + post.length < 8) :
    inetPton6 (joinGroups pre ++ 0x3a :: 0x3a :: joinGroups post) =
      some (pre.flatMap groupBytes ++ (List.replicate (16 - (2 * pre.length + 2 * post.length)) 0 ++
        post.flatMap groupBytes)) := by
  have htail : ∀ out k, out.length + (post.flatMap groupBytes).length < 16 →
      inetPieces out (some k) (joinGroups post) = some (out ++ post.flatMap groupBytes, some k) := by
    intro out k hroom
    rw [groupBytes_length] at hroom
    exact inetPieces_join hpost (Nat.le_of_lt hroom)
  have h := inetPton6_gap hpre (by rw [groupBytes_length]; omega) htail
  rwa [groupBytes_length] at h

theorem inetPieces_inetntoa (src : InAddr) (hroom : out.length + 4 ≤ 16) :
    inetPieces out colonp (inetntoaBytes src) = some (out ++ src.bytes, colonp) := by
  have hb := isOctet_ipQuadTab src.b0
  have hg : IsGroup (ipQuadTab src.b0) :=
    ⟨hb.ne_nil, Nat.le_succ_of_le (length_ipQuadTab src.b0),
      fun c hc => by rw [isXDigit, hb.digits c hc]; rfl⟩
  rw [inetntoaBytes, inetPieces_quad hg (List.append_ne_nil_of_right_ne_nil _ (List.cons_ne_nil _ _))
    (inetPton4_eq_iff.mpr (inetntoaBytes_quad src)), if_pos hroom]

theorem inetPton6_quad (src : InAddr) :
    inetPton6 (0x3a :: 0x3a :: inetntoaBytes src) = some (List.replicate 12 0 ++ src.bytes) := by
  have hlen : 2 * ([] : List (List UInt8)).length + src.bytes.length < 16 := Nat.le_of_ble_eq_true rfl
  exact inetPton6_gap isTail_nil.groups hlen fun out k hroom =>
    inetPieces_inetntoa src (Nat.le_of_lt hroom)

theorem isGroup_ffff : IsGroup [0x66, 0x66, 0x66, 0x66] :=
  ⟨by decide, by decide, List.all_eq_true.mp (by decide)⟩

theorem inetPton6_mapped (src : InAddr) :
    inetPton6 (mappedPrefix ++ inetntoaBytes src) =
      some (List.replicate 10 0 ++ [0xff, 0xff] ++ src.bytes) := by
  have hlen : 2 * ([] : List (List UInt8)).length + ([0xff, 0xff] ++ src.bytes).length < 16 :=
    Nat.le_of_ble_eq_true rfl
  have hne : inetntoaBytes src ≠ [] :=
    List.append_ne_nil_of_right_ne_nil _ (List.cons_ne_nil _ _)
  exact inetPton6_gap isTail_nil.groups hlen fun out k hroom => by
    have hbytes : groupBytes [0x66, 0x66, 0x66, 0x66] = [0xff, 0xff] := by decide
    have hroom' : out.length + 6 < 16 := hroom
    have hgroup : inetPieces out (some k) ([0x66, 0x66, 0x66, 0x66] ++ 0x3a :: inetntoaBytes src) = _ :=
      inetPieces_group isGroup_ffff hne
    rw [if_pos (by omega), hbytes, inetPieces_inetntoa src (by
      rw [List.length_append]
      show out.length + 2 + 4 ≤ 16
      omega), List.append_assoc] at hgroup
    exact hgroup

end Read

/-! ## What is printed comes back -/

section Back

variable {src : In6Addr} {text : List UInt8}

theorem zeros_bytes (n : Nat) : (List.replicate n 0).flatMap wordBytes = List.replicate (2 * n) 0 := by
  induction n with
  | zero => rfl
  | succ n ih =>
      rw [List.replicate_succ, List.flatMap_cons, ih]
      rfl

/-- Every text that is printed is read as the address. -/
theorem inetPton6_printed (h : Printed src text) : inetPton6 text = some src.bytes := by
  have hlt := src.words_lt
  have hcount := src.words_length
  rw [← src.words_bytes]
  cases h with
  | full =>
      rw [inetPton6_full (isGroup_hexGroups hlt) (by rw [hexGroups, List.length_map, hcount]),
        groupBytes_hexGroups hlt]
  | @short pre post n hn hwords =>
      rw [hwords] at hlt hcount ⊢
      rw [List.length_append, List.length_append, List.length_replicate] at hcount
      have hpre : ∀ w ∈ pre, w < 0x10000 := fun w hw =>
        hlt w (List.mem_append_left _ (List.mem_append_left _ hw))
      have hpost : ∀ w ∈ post, w < 0x10000 := fun w hw => hlt w (List.mem_append_right _ hw)
      have hzeros : 16 - (2 * pre.length + 2 * post.length) = 2 * n := by omega
      rw [inetPton6_short (isGroup_hexGroups hpre) (isGroup_hexGroups hpost) (by
        rw [hexGroups, hexGroups, List.length_map, List.length_map]
        omega), groupBytes_hexGroups hpre, groupBytes_hexGroups hpost, hexGroups, hexGroups,
        List.length_map, List.length_map, hzeros, List.flatMap_append, List.flatMap_append,
        zeros_bytes, List.append_assoc]
  | @quad post hwords =>
      have hbytes : src.bytes = List.replicate 12 0 ++ post.flatMap wordBytes := by
        rw [← src.words_bytes, hwords, List.flatMap_append, zeros_bytes]
      have hlast : src.last.bytes = post.flatMap wordBytes := by
        rw [src.last_bytes, hbytes]
        rfl
      rw [inetPton6_quad, hlast, ← hbytes, src.words_bytes]

theorem printed_colon (h : Printed src text) : 0x3a ∈ text := by
  cases h with
  | full =>
      have hcount := src.words_length
      match src.words, hcount with
      | w :: w' :: ws, _ =>
          rw [joinGroups_hexGroups]
          exact List.mem_append_right _ (List.mem_cons_self ..)
  | short => exact List.mem_append_right _ (List.mem_cons_self ..)
  | quad => exact List.mem_cons_self ..

/-- A text with a colon in it is no dotted quad. -/
theorem inetpton_colon (h : 0x3a ∈ text) : inetpton .inet6 text = .ok (inetPton6 text) := by
  have hquad : inetPton4 text = none := by
    rw [Option.eq_none_iff_forall_ne_some]
    intro addr haddr
    rcases (inetPton4_eq_iff.mp haddr).mem _ h with hdigit | hdot
    · exact absurd hdigit (by decide)
    · exact absurd hdot (by decide)
  rw [inetpton]
  simp only [hquad, Option.isSome_none, Bool.false_eq_true, if_false]

/-- The bytes of the IPv4-mapped address. -/
def InAddr.mapped (src : InAddr) : List UInt8 := List.replicate 10 0 ++ [0xff, 0xff] ++ src.bytes

theorem inetpton_inetntoa (src : InAddr) :
    inetpton .inet6 (inetntoaBytes src) = .ok (some src.mapped) := by
  have hquad := inetPton4_eq_iff.mpr (inetntoaBytes_quad src)
  have hroom : ¬ hostIpLen < (mappedPrefix ++ inetntoaBytes src).length + 1 := by
    have hlen := inetntoaBytes_length src
    rw [List.length_append]
    show ¬ 53 < 7 + (inetntoaBytes src).length + 1
    omega
  rw [inetpton]
  simp only [hquad, Option.isSome_some, if_true, hroom, if_false]
  rw [inetPton6_mapped, InAddr.mapped]

theorem mapped_last (h : src.v4Mapped = true) : src.last.mapped = src.bytes := by
  rw [InAddr.mapped, src.last_bytes, ← of_decide_eq_true h, List.take_append_drop]

end Back

/-! ## Addresses of both families -/

namespace InetAddr

def family : InetAddr → InetFamily
  | inet _ => .inet
  | inet6 _ => .inet6

def bytes : InetAddr → List UInt8
  | inet src => src.bytes
  | inet6 src => src.bytes

/-- What an address is when it has been printed and read. -/
def back : InetAddr → List UInt8
  | inet src => src.bytes
  | inet6 src => if src.v4Compat then src.last.mapped else src.bytes

end InetAddr

theorem inetNtop4_eq {src : InAddr} {size : Nat} {text : List UInt8}
    (h : inetNtop4 src size = some text) : text = inetntoaBytes src ∧ 15 ≤ size := by
  rw [inetNtop4] at h
  split at h
  · cases h
  · next hsize =>
      cases h
      exact ⟨rfl, Nat.not_lt.mp hsize⟩

/-- Text that is printed fits, except for a quad of 15 characters in 15 bytes;
it is read as the address, if that is no IPv4-compatible one; and of the texts of
digits, colons and dots only addresses in text and dotted quads are taken. -/
structure InetTexts : Prop where
  fits : ∀ (addr : InetAddr) (size : Nat) (text : List UInt8), inetntop addr size = some text →
    ¬ (size = 15 ∧ text.length = 15) → text.length + 1 ≤ size
  back : ∀ (addr : InetAddr) (size : Nat) (text : List UInt8), inetntop addr size = some text →
    inetpton addr.family text = .ok (some addr.back)
  grammar : ∀ text bytes : List UInt8, Inet6Plain text → inetpton .inet6 text = .ok (some bytes) →
    (∃ f : Inet6Text, f.Wf ∧ f.text = text) ∨ ∃ addr, IsDottedQuad text addr

theorem inetntop_cases {addr : InetAddr} {size : Nat} {text : List UInt8}
    (h : inetntop addr size = some text) :
    (∃ src, inetNtop4 src size = some text ∧
      inetpton addr.family (inetntoaBytes src) = .ok (some addr.back)) ∨
    ∃ src, addr = .inet6 src ∧ addr.back = src.bytes ∧ Printed src text ∧ text.length + 1 ≤ size := by
  cases addr with
  | inet src =>
      refine .inl ⟨src, h, ?_⟩
      rw [InetAddr.family, inetpton, inetPton4_eq_iff.mpr (inetntoaBytes_quad src)]
      rfl
  | inet6 src =>
      rw [inetntop] at h
      cases hmapped : src.v4Mapped with
      | true =>
          rw [hmapped, Bool.true_or, if_pos rfl] at h
          refine .inl ⟨src.last, h, ?_⟩
          rw [InetAddr.family, inetpton_inetntoa, InetAddr.back]
          split
          · rfl
          · rw [mapped_last hmapped]
      | false =>
          cases hcompat : src.v4Compat with
          | true =>
              rw [hcompat, Bool.or_true, if_pos rfl] at h
              refine .inl ⟨src.last, h, ?_⟩
              rw [InetAddr.family, inetpton_inetntoa, InetAddr.back, if_pos hcompat]
          | false =>
              rw [hmapped, hcompat, Bool.or_false, if_neg Bool.false_ne_true] at h
              obtain ⟨hprinted, hsize⟩ := inetNtop6_printed hmapped h
              refine .inr ⟨src, rfl, ?_, hprinted, hsize⟩
              rw [InetAddr.back, hcompat, if_neg Bool.false_ne_true]

theorem inet_texts : InetTexts where
  fits addr size text h hslip := by
    rcases inetntop_cases h with ⟨src, hquad, -⟩ | ⟨src, -, -, -, hsize⟩
    · obtain ⟨rfl, hsize⟩ := inetNtop4_eq hquad
      have hlen := inetntoaBytes_length src
      omega
    · exact hsize
  back addr size text h := by
    rcases inetntop_cases h with ⟨src, hquad, hback⟩ | ⟨src, rfl, hback, hprinted, -⟩
    · obtain ⟨rfl, -⟩ := inetNtop4_eq hquad
      exact hback
    · rw [hback, InetAddr.family, inetpton_colon (printed_colon hprinted),
        inetPton6_printed hprinted]
  grammar text bytes hplain h := by
    rw [inetpton] at h
    simp only at h
    split at h
    · next hquad =>
        obtain ⟨addr, haddr⟩ := Option.isSome_iff_exists.mp hquad
        exact .inr ⟨addr, inetPton4_eq_iff.mp haddr⟩
    · exact .inl (inetPton6_grammar hplain (Except.ok.inj h))

/-- `::1` -/
theorem inet_texts_loopback :
    inetpton .inet6 [0x3a, 0x3a, 0x31] = .ok (some (List.replicate 15 0 ++ [1])) := by
  have hback : InetAddr.back (.inet6 ⟨List.replicate 15 0 ++ [1], rfl⟩) =
      List.replicate 15 0 ++ [1] := by decide
  rw [← hback]
  exact inet_texts.back (.inet6 ⟨List.replicate 15 0 ++ [1], rfl⟩) 46 [0x3a, 0x3a, 0x31] (by decide)

/-- An IPv4-compatible address does not come back. -/
theorem v4Compat_not_back :
    ¬ ∀ (addr : InetAddr) (size : Nat) (text : List UInt8), inetntop addr size = some text →
      inetpton addr.family text = .ok (some addr.bytes) := by
  intro h
  have hback := h (.inet6 ⟨List.replicate 12 0 ++ [1, 2, 3, 4], rfl⟩) 46
    [0x31, 0x2e, 0x32, 0x2e, 0x33, 0x2e, 0x34] (by decide)
  exact absurd hback (by decide)

end TrIrcd
