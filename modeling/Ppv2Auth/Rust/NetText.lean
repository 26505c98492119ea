/-
Printed addresses read back.  The reader tries an embedded IPv4 address before
every group, so the work is in showing that a printed group never looks like
one, and that the reader stops exactly where the writer put `::` or the end.
-/
import Ppv2Auth.Rust.Net

namespace Ppv2Auth

namespace Rust

open BigEndian

theorem hexGroup_isHex (group : UInt16) :
    ∀ c ∈ hexGroup group, (Radix.toDigit 16 c).isSome := fun _ hc =>
  Radix.isSome_toDigit_of_mem_print (by omega) (by omega) hc

theorem hexGroup_length_le (group : UInt16) : (hexGroup group).length ≤ 4 :=
  Radix.print_length_le (by omega) (by omega) group.toNat_lt

theorem hexGroup_ne_nil (group : UInt16) : hexGroup group ≠ [] :=
  Radix.print_ne_nil _

theorem readNumber_append {radix maxDigits max : Nat} {allowZeroPrefix : Bool}
    {digits rest : Bytes}
    (hdigits : ∀ c ∈ digits, (Radix.toDigit radix c).isSome)
    (hrest : Radix.Stops radix rest) (hne : digits ≠ [])
    (hlength : digits.length ≤ maxDigits)
    (hzero : allowZeroPrefix = true ∨
      (1 < digits.length → digits.head? ≠ some 48))
    (hmax : Radix.valueOf radix digits ≤ max) :
    readNumber radix maxDigits allowZeroPrefix max (digits ++ rest) =
      some (Radix.valueOf radix digits, rest) := by
  have hrun := Radix.digitRun_append hdigits hrest
  have hhead : (digits ++ rest).head? = digits.head? :=
    List.head?_append_of_ne_nil _ hne
  have hzero' : ¬ (¬ allowZeroPrefix = true ∧ digits.head? = some 48 ∧
      digits.length > 1) := by
    rintro ⟨hno, hfirst, hlong⟩
    rcases hzero with hyes | hlead
    · exact hno hyes
    · exact hlead hlong hfirst
  simp only [readNumber, hrun, hhead]
  rw [if_neg (not_lt.mpr hlength), if_neg (by simpa using hne),
    if_neg hzero', if_neg (not_lt.mpr hmax), List.drop_left]

theorem readGroup_hexGroup (group : UInt16) {rest : Bytes}
    (hrest : Radix.Stops 16 rest) :
    readGroup (hexGroup group ++ rest) = some (group, rest) := by
  have hvalue : Radix.valueOf 16 (hexGroup group) = group.toNat :=
    Radix.valueOf_print (by omega) (by omega) _
  have hlt := group.toNat_lt
  rw [readGroup, readNumber_append (hexGroup_isHex group) hrest
    (hexGroup_ne_nil group) (hexGroup_length_le group) (Or.inl rfl)
    (by omega), hvalue]
  simp

theorem readOctet_decimal (b : UInt8) {rest : Bytes}
    (hrest : Radix.Stops 10 rest) :
    readOctet (decimal b.toNat ++ rest) = some (b.toNat, rest) := by
  have hvalue : Radix.valueOf 10 (decimal b.toNat) = b.toNat :=
    Radix.valueOf_print (by omega) (by omega) _
  have hlt := b.toNat_lt
  have hlength : (decimal b.toNat).length ≤ 3 :=
    Radix.print_length_le (by omega) (by omega) (by omega)
  rw [readOctet, readNumber_append (decimal_eq_digits _) hrest
    (Radix.print_ne_nil _) hlength
    (Or.inr fun hlong => Radix.print_head_ne_zero (by omega) (by omega) hlong)
    (by omega), hvalue]

theorem stops_dot (radix : Nat) (rest : Bytes) :
    Radix.Stops radix (46 :: rest) := by
  intro c hc
  simp only [List.head?_cons, Option.mem_some_iff] at hc
  subst hc
  simp [Radix.toDigit]

theorem stops_colon (radix : Nat) (rest : Bytes) :
    Radix.Stops radix (58 :: rest) := by
  intro c hc
  simp only [List.head?_cons, Option.mem_some_iff] at hc
  subst hc
  simp [Radix.toDigit]

theorem stops_nil (radix : Nat) : Radix.Stops radix [] := by
  intro c hc
  simp at hc

theorem readIpv4_dotted {bytes : Bytes} (hlength : bytes.length = 4)
    {rest : Bytes} (hrest : Radix.Stops 10 rest) :
    readIpv4 (dotted bytes ++ rest) = some (⟨bytes, hlength⟩, rest) := by
  obtain ⟨a, b, c, d, rfl⟩ : ∃ a b c d, bytes = [a, b, c, d] := by
    match bytes, hlength with
    | [a, b, c, d], _ => exact ⟨a, b, c, d, rfl⟩
  simp only [dotted, List.append_assoc, List.cons_append]
  simp [readIpv4, readSeparator, readOctet_decimal, stops_dot, hrest, readChar]

/-- A run of hex digits that no dot follows is no dotted quad: whatever decimal
prefix it has, the next byte is a hex digit or whatever ends the run. -/
theorem readIpv4_eq_none (digits : Bytes) {rest : Bytes}
    (hdigits : ∀ c ∈ digits, (Radix.toDigit 16 c).isSome)
    (hrest : Radix.Stops 10 rest) (hdot : rest.head? ≠ some 46) :
    readIpv4 (digits ++ rest) = none := by
  have hdrop : ((digits ++ rest).drop
      (Radix.digitRun 10 (digits ++ rest)).length).head? ≠ some 46 := by
    have hrun : Radix.digitRun 10 (digits ++ rest) =
        Radix.digitRun 10 digits := by
      have hnil := Radix.digitRun_of_stops hrest
      rw [Radix.digitRun] at hnil
      rw [Radix.digitRun, List.takeWhile_append, hnil, List.append_nil]
      split
      · next hall =>
          exact (List.Sublist.eq_of_length (List.takeWhile_sublist _) hall).symm
      · rfl
    rw [hrun, List.drop_append_of_le_length (Radix.digitRun_length_le digits)]
    intro hhead
    cases hleft : digits.drop (Radix.digitRun 10 digits).length with
    | nil => exact hdot (by simpa [hleft] using hhead)
    | cons c tail =>
        rw [hleft, List.cons_append, List.head?_cons, Option.some.injEq] at hhead
        have hmem : c ∈ digits :=
          List.mem_of_mem_drop (hleft ▸ List.mem_cons_self)
        have hsome := hdigits c hmem
        rw [hhead] at hsome
        simp [Radix.toDigit] at hsome
  have hoctet : ∀ n tail, readOctet (digits ++ rest) = some (n, tail) →
      tail.head? ≠ some 46 := by
    intro n tail hread
    simp only [readOctet, readNumber] at hread
    split_ifs at hread
    simp only [Option.some.injEq, Prod.mk.injEq] at hread
    exact hread.2 ▸ hdrop
  cases hread : readOctet (digits ++ rest) with
  | none => simp [readIpv4, readSeparator, hread]
  | some result =>
      obtain ⟨n, tail⟩ := result
      have htail := hoctet n tail hread
      cases tail with
      | nil => simp [readIpv4, readSeparator, hread, readChar]
      | cons c tail =>
          have hc : c ≠ 46 := by simpa using htail
          simp [readIpv4, readSeparator, hread, readChar, hc]

/-- What may follow the groups the writer emits: the end, or `::`. -/
def Ends (rest : Bytes) : Prop := rest = [] ∨ ∃ r, rest = 58 :: 58 :: r

theorem Ends.stops {rest : Bytes} (h : Ends rest) (radix : Nat) :
    Radix.Stops radix rest := by
  rcases h with rfl | ⟨r, rfl⟩
  · exact stops_nil radix
  · exact stops_colon radix _

theorem colonGroups_stops (groups : List UInt16) {rest : Bytes}
    (h : Ends rest) (radix : Nat) :
    Radix.Stops radix (colonGroups groups ++ rest) := by
  cases groups with
  | nil => exact h.stops radix
  | cons group groups => exact stops_colon radix _

theorem colonGroups_head_ne_dot (groups : List UInt16) {rest : Bytes}
    (h : Ends rest) : (colonGroups groups ++ rest).head? ≠ some 46 := by
  cases groups with
  | nil => rcases h with rfl | ⟨r, rfl⟩ <;> simp [colonGroups]
  | cons group groups => simp [colonGroups]

theorem readGroup_eq_none {text : Bytes} (h : Radix.Stops 16 text) :
    readGroup text = none := by
  simp [readGroup, readNumber, Radix.digitRun_of_stops h]

theorem readGroups_end {rest : Bytes} (h : Ends rest) (left index : Nat) :
    readGroups left index rest = ([], false, rest) := by
  have hv4 : readSeparator 58 index readIpv4 rest = none := by
    rcases h with rfl | ⟨r, rfl⟩
    · cases index <;> rfl
    · have hnone : ∀ t, readIpv4 (58 :: t) = none := fun t =>
        readIpv4_eq_none [] (by simp) (stops_colon 10 t) (by simp)
      cases index <;> simp [readSeparator, readChar, hnone]
  have hgroup : readSeparator 58 index readGroup rest = none := by
    rcases h with rfl | ⟨r, rfl⟩
    · cases index <;> rfl
    · cases index <;>
        simp [readSeparator, readChar, readGroup_eq_none (stops_colon 16 _)]
  cases left with
  | zero => rfl
  | succ left => simp [readGroups, hv4, hgroup]

/-- One round of the loop on a printed group. -/
theorem readGroups_step (group : UInt16) (groups : List UInt16) {rest : Bytes}
    (h : Ends rest) (left index : Nat) {text : Bytes}
    (htext : ∀ (α : Type) (inner : Bytes → Option (α × Bytes)),
      readSeparator 58 index inner text =
        inner (hexGroup group ++ (colonGroups groups ++ rest))) :
    readGroups (left + 1) index text =
      let (tail, v4, rest') := readGroups left (index + 1)
        (colonGroups groups ++ rest)
      (group :: tail, v4, rest') := by
  have hv4 : readIpv4 (hexGroup group ++ (colonGroups groups ++ rest)) = none :=
    readIpv4_eq_none (hexGroup group) (hexGroup_isHex group)
      (colonGroups_stops groups h 10) (colonGroups_head_ne_dot groups h)
  have hgroup := readGroup_hexGroup group (colonGroups_stops groups h 16)
  simp [readGroups, htext, hv4, hgroup]

theorem readGroups_colonGroups (groups : List UInt16) {rest : Bytes}
    (h : Ends rest) {left : Nat} (hleft : groups.length ≤ left) (index : Nat) :
    readGroups left (index + 1) (colonGroups groups ++ rest) =
      (groups, false, rest) := by
  induction groups generalizing left index with
  | nil => simpa [colonGroups] using readGroups_end h left (index + 1)
  | cons group groups ih =>
      obtain ⟨left, rfl⟩ : ∃ l, left = l + 1 :=
        ⟨left - 1, by simp at hleft; omega⟩
      rw [readGroups_step group groups h left (index + 1), ih (by simpa using hleft)]
      intro α inner
      simp [readSeparator, readChar, colonGroups]

theorem readGroups_fmtSubslice (groups : List UInt16) {rest : Bytes}
    (h : Ends rest) (left : Nat) (hleft : groups.length ≤ left) :
    readGroups left 0 (fmtSubslice groups ++ rest) = (groups, false, rest) := by
  cases groups with
  | nil => simpa [fmtSubslice] using readGroups_end h left 0
  | cons group groups =>
      obtain ⟨left, rfl⟩ : ∃ l, left = l + 1 :=
        ⟨left - 1, by simp at hleft; omega⟩
      rw [readGroups_step group groups h left 0,
        readGroups_colonGroups groups h (by simpa using hleft)]
      intro α inner
      simp [readSeparator, fmtSubslice]

/-- The span lies in the list and covers zeros only. -/
def Span.IsRun (span : Span) (groups : List UInt16) : Prop :=
  span.start + span.len ≤ groups.length ∧
    ∀ i, span.start ≤ i → i < span.start + span.len → groups[i]? = some 0

theorem Span.IsRun.append {span : Span} {groups : List UInt16}
    (h : span.IsRun groups) (more : List UInt16) :
    span.IsRun (groups ++ more) := by
  refine ⟨by simpa using Nat.le_add_right_of_le h.1, ?_⟩
  intro i hlow hhigh
  have hlen := h.1
  rw [List.getElem?_append_left (by omega)]
  exact h.2 i hlow hhigh

/-- A run that touches the end grows with the next zero. -/
theorem Span.IsRun.grow {start len : Nat} {groups : List UInt16}
    (h : Span.IsRun ⟨start, len⟩ groups) (htouch : start + len = groups.length) :
    Span.IsRun ⟨start, len + 1⟩ (groups ++ [0]) := by
  refine ⟨by simp; omega, ?_⟩
  intro i hlow hhigh
  simp only at hlow hhigh
  rcases Nat.lt_or_ge i groups.length with hi | hi
  · rw [List.getElem?_append_left hi]
    exact h.2 i hlow (by simp only; omega)
  · have hieq : i = groups.length := by omega
    simp [hieq]

/-- Where the next zero would start or continue a run. -/
theorem Span.IsRun.restart {current : Span} {groups : List UInt16}
    (h : current.IsRun groups)
    (htouch : 0 < current.len → current.start + current.len = groups.length) :
    Span.IsRun ⟨if current.len = 0 then groups.length else current.start,
        current.len⟩ groups ∧
      (if current.len = 0 then groups.length else current.start) + current.len =
        groups.length := by
  by_cases hzero : current.len = 0
  · simp only [hzero, ↓reduceIte, Nat.add_zero, and_true]
    refine ⟨le_rfl, fun i hlow hhigh => ?_⟩
    simp only at hlow hhigh
    omega
  · simp only [hzero, ↓reduceIte]
    exact ⟨h, htouch (by omega)⟩

/-- Both spans the scan carries are runs, and a current run touches the end of
what has been scanned. -/
theorem foldl_spanStep_isRun (groups : List UInt16) :
    let (longest, current, i) := groups.foldl spanStep (⟨0, 0⟩, ⟨0, 0⟩, 0)
    longest.IsRun groups ∧ current.IsRun groups ∧
      (0 < current.len → current.start + current.len = groups.length) ∧
      i = groups.length := by
  induction groups using List.reverseRecOn with
  | nil => simp [Span.IsRun]
  | append_singleton groups group ih =>
      rw [List.foldl_append]
      revert ih
      generalize groups.foldl spanStep (⟨0, 0⟩, ⟨0, 0⟩, 0) = state
      obtain ⟨longest, current, i⟩ := state
      rintro ⟨hlongest, hcurrent, htouch, rfl⟩
      obtain ⟨hrun, hend⟩ := hcurrent.restart htouch
      simp only [List.foldl_cons, List.foldl_nil, spanStep]
      split
      · next hzero =>
          subst hzero
          refine ⟨?_, hrun.grow hend, ?_, by simp⟩
          · split
            · exact hrun.grow hend
            · exact hlongest.append [0]
          · intro _
            simp only [List.length_append, List.length_singleton]
            omega
      · exact ⟨hlongest.append [group], ⟨by simp, by simp⟩, by simp,
          by simp⟩

theorem zeroes_isRun (groups : List UInt16) : (zeroes groups).IsRun groups :=
  (foldl_spanStep_isRun groups).1

/-- The groups around a zero run. -/
theorem Span.IsRun.split {span : Span} {groups : List UInt16}
    (h : span.IsRun groups) :
    groups.take span.start ++ List.replicate span.len 0 ++
      groups.drop (span.start + span.len) = groups := by
  have hmid : (groups.drop span.start).take span.len =
      List.replicate span.len 0 := by
    apply List.ext_getElem?
    intro i
    rcases Nat.lt_or_ge i span.len with hi | hi
    · simp [hi, h.2 (span.start + i) (by omega) (by omega)]
    · simp [not_lt.mpr hi]
  rw [← hmid, List.append_assoc, ← List.drop_drop, List.take_append_drop,
    List.take_append_drop]

theorem groupsOf_spec (n : Nat) (bytes : Bytes) (hlength : bytes.length = 2 * n) :
    (groupsOf bytes).length = n ∧
      (groupsOf bytes).flatMap bytesOfWord = bytes := by
  induction n generalizing bytes with
  | zero => simp [List.length_eq_zero_iff.mp hlength, groupsOf]
  | succ n ih =>
      match bytes, hlength with
      | hi :: lo :: rest, hlength =>
          obtain ⟨hlen, hbytes⟩ := ih rest (by simpa [Nat.mul_add] using hlength)
          simp [groupsOf, hlen, hbytes]

theorem ascii_mapped : ascii "::ffff:" = 58 :: 58 :: (hexGroup 0xffff ++ [58]) := by
  decide

theorem ascii_gap : ascii "::" = [58, 58] := by decide

/-- The tail of a mapped address reads as one group and a dotted quad. -/
theorem readGroups_mapped {quad : Bytes} (hquad : quad.length = 4) :
    readGroups 7 0 (hexGroup 0xffff ++ 58 :: dotted quad) =
      (0xffff :: groupsOf quad, true, []) := by
  have hv4 : readIpv4 (hexGroup 0xffff ++ 58 :: dotted quad) = none :=
    readIpv4_eq_none (hexGroup 0xffff) (hexGroup_isHex _) (stops_colon 10 _)
      (by simp)
  have hgroup := readGroup_hexGroup 0xffff (stops_colon 16 (dotted quad))
  have hdotted := readIpv4_dotted hquad (stops_nil 10)
  rw [List.append_nil] at hdotted
  simp [readGroups, readSeparator, readChar, hv4, hgroup, hdotted]

theorem readIpv6_of_gap {head tail : List UInt16} {v4 : Bool} {text rest : Bytes}
    {size : Nat} (hsize : head.length = size) (hlt : size < 8)
    (hfront : readGroups 8 0 text = (head, false, 58 :: 58 :: rest))
    (hback : readGroups (8 - (size + 1)) 0 rest = (tail, v4, [])) :
    readIpv6 text =
      some (head ++ List.replicate (8 - size - tail.length) 0 ++ tail, []) := by
  have hne : size ≠ 8 := Nat.ne_of_lt hlt
  simp only [readIpv6, hfront, hsize, hne, ↓reduceIte, Bool.false_eq_true,
    readChar, Option.bind_eq_bind, Option.bind_some, hback]

theorem readIpv6_displayIpv6 (addr : Ipv6Addr) :
    readIpv6 (displayIpv6 addr) = some (groupsOf addr.bytes, []) := by
  obtain ⟨hlen, -⟩ := groupsOf_spec 8 addr.bytes addr.length_eq
  unfold displayIpv6
  split
  · next hmapped =>
      have hquad : (addr.bytes.drop 12).length = 4 := by simp
      have hsplit : groupsOf addr.bytes =
          List.replicate 5 0 ++ 0xffff :: groupsOf (addr.bytes.drop 12) := by
        conv_lhs => rw [← List.take_append_drop 12 addr.bytes, hmapped]
        rfl
      have hquadLen := (groupsOf_spec 2 _ hquad).1
      have htext : ascii "::ffff:" ++ dotted (addr.bytes.drop 12) =
          58 :: 58 :: (hexGroup 0xffff ++ 58 :: dotted (addr.bytes.drop 12)) := by
        rw [ascii_mapped]
        simp
      rw [htext, readIpv6_of_gap rfl (by simp)
        (readGroups_end (Or.inr ⟨_, rfl⟩) 8 0) (readGroups_mapped hquad), hsplit]
      simp [hquadLen]
  · simp only
    split
    · next hlong =>
        have hrun := zeroes_isRun (groupsOf addr.bytes)
        generalize zeroes (groupsOf addr.bytes) = span at hrun hlong ⊢
        have hbound := hrun.1
        rw [hlen] at hbound
        have hheadLen : ((groupsOf addr.bytes).take span.start).length =
            span.start := by
          rw [List.length_take, hlen]
          omega
        have hends : Ends (58 :: 58 ::
            fmtSubslice ((groupsOf addr.bytes).drop (span.start + span.len))) :=
          Or.inr ⟨_, rfl⟩
        have hfront := readGroups_fmtSubslice
          ((groupsOf addr.bytes).take span.start) hends 8 (by omega)
        have hback := readGroups_fmtSubslice
          ((groupsOf addr.bytes).drop (span.start + span.len)) (Or.inl rfl)
          (8 - (span.start + 1)) (by rw [List.length_drop, hlen]; omega)
        rw [List.append_nil] at hback
        rw [ascii_gap, List.append_assoc, List.cons_append, List.cons_append,
          List.nil_append, readIpv6_of_gap hheadLen (by omega) hfront hback]
        have hgap : 8 - span.start -
            ((groupsOf addr.bytes).drop (span.start + span.len)).length =
            span.len := by
          rw [List.length_drop, hlen]
          omega
        rw [hgap, hrun.split]
    · have hread := readGroups_fmtSubslice (groupsOf addr.bytes) (Or.inl rfl) 8
        (by omega)
      rw [List.append_nil] at hread
      simp [readIpv6, hread, hlen]

/-- `FromStr` reads back what `Display` writes. -/
theorem parseIpv6_displayIpv6 (addr : Ipv6Addr) :
    parseIpv6 (displayIpv6 addr) = some addr := by
  have hbytes := (groupsOf_spec 8 addr.bytes addr.length_eq).2
  simp [parseIpv6, parseWith, readIpv6_displayIpv6, hbytes]

/-- The bytes the writer uses: hexadecimal digits, `:` and `.`. -/
def AddrByte (c : UInt8) : Prop := (Radix.toDigit 16 c).isSome ∨ c = 58 ∨ c = 46

theorem addrByte_of_isHex {c : UInt8} (h : (Radix.toDigit 16 c).isSome) :
    AddrByte c := Or.inl h

theorem addrByte_colonGroups (groups : List UInt16) :
    ∀ c ∈ colonGroups groups, AddrByte c := by
  intro c hc
  obtain ⟨group, -, hmem⟩ := List.mem_flatMap.mp hc
  rcases List.mem_cons.mp hmem with rfl | hmem
  · exact Or.inr (Or.inl rfl)
  · exact addrByte_of_isHex (hexGroup_isHex group c hmem)

theorem addrByte_fmtSubslice (groups : List UInt16) :
    ∀ c ∈ fmtSubslice groups, AddrByte c := by
  cases groups with
  | nil => simp [fmtSubslice]
  | cons group groups =>
      intro c hc
      rcases List.mem_append.mp hc with hmem | hmem
      · exact addrByte_of_isHex (hexGroup_isHex group c hmem)
      · exact addrByte_colonGroups groups c hmem

theorem addrByte_decimal (n : Nat) : ∀ c ∈ decimal n, AddrByte c := by
  intro c hc
  have hdigit := decimal_eq_digits n c hc
  apply addrByte_of_isHex
  obtain ⟨d, hd⟩ := Option.isSome_iff_exists.mp hdigit
  simp only [Radix.toDigit, Option.filter_eq_some_iff, decide_eq_true_eq] at hd
  exact Option.isSome_iff_exists.mpr ⟨d, by
    simp only [Radix.toDigit, Option.filter_eq_some_iff, decide_eq_true_eq]
    exact ⟨hd.1, by omega⟩⟩

theorem addrByte_dotted (bytes : Bytes) : ∀ c ∈ dotted bytes, AddrByte c := by
  induction bytes with
  | nil => simp [dotted]
  | cons a rest ih =>
      cases rest with
      | nil => exact addrByte_decimal a.toNat
      | cons b rest =>
          intro c hc
          rcases List.mem_append.mp hc with hmem | hmem
          · exact addrByte_decimal a.toNat c hmem
          · rcases List.mem_cons.mp hmem with rfl | hmem
            · exact Or.inr (Or.inr rfl)
            · exact ih c hmem

theorem addrByte_displayIpv6 (addr : Ipv6Addr) :
    ∀ c ∈ displayIpv6 addr, AddrByte c := by
  have hmapped : ∀ c ∈ ascii "::ffff:", AddrByte c := by
    intro c hc
    rw [ascii_mapped] at hc
    simp only [List.mem_cons, List.mem_append, List.not_mem_nil, or_false] at hc
    rcases hc with rfl | rfl | hc | rfl
    · exact Or.inr (Or.inl rfl)
    · exact Or.inr (Or.inl rfl)
    · exact addrByte_of_isHex (hexGroup_isHex _ c hc)
    · exact Or.inr (Or.inl rfl)
  have hgap : ∀ c ∈ ascii "::", AddrByte c := by
    intro c hc
    simp only [ascii_gap, List.mem_cons, List.not_mem_nil, or_false, or_self] at hc
    exact Or.inr (Or.inl hc)
  intro c hc
  unfold displayIpv6 at hc
  split at hc
  · rcases List.mem_append.mp hc with hmem | hmem
    · exact hmapped c hmem
    · exact addrByte_dotted _ c hmem
  · simp only at hc
    split at hc
    · rcases List.mem_append.mp hc with hmem | hmem
      · rcases List.mem_append.mp hmem with hmem | hmem
        · exact addrByte_fmtSubslice _ c hmem
        · exact hgap c hmem
      · exact addrByte_fmtSubslice _ c hmem
    · exact addrByte_fmtSubslice _ c hc

theorem colonGroups_length_le (groups : List UInt16) :
    (colonGroups groups).length ≤ 5 * groups.length := by
  induction groups with
  | nil => simp [colonGroups]
  | cons group groups ih =>
      have hgroup := hexGroup_length_le group
      rw [colonGroups] at ih
      simp only [colonGroups, List.flatMap_cons, List.length_append,
        List.length_cons]
      omega

theorem fmtSubslice_length_le (groups : List UInt16) :
    (fmtSubslice groups).length ≤ 5 * groups.length := by
  cases groups with
  | nil => simp [fmtSubslice]
  | cons group groups =>
      have hgroup := hexGroup_length_le group
      have hrest := colonGroups_length_le groups
      simp only [fmtSubslice, List.length_append, List.length_cons]
      omega

theorem dotted_length_le (bytes : Bytes) :
    (dotted bytes).length ≤ 4 * bytes.length := by
  have hdecimal : ∀ a : UInt8, (decimal a.toNat).length ≤ 3 := fun a =>
    Radix.print_length_le (by omega) (by omega) (by have := a.toNat_lt; omega)
  induction bytes with
  | nil => simp [dotted]
  | cons a rest ih =>
      have ha := hdecimal a
      cases rest with
      | nil =>
          simp only [dotted, List.length_cons, List.length_nil]
          omega
      | cons b rest =>
          simp only [dotted, List.length_append, List.length_cons] at ih ⊢
          omega

/-- An address needs at most forty-six bytes. -/
theorem displayIpv6_length_le (addr : Ipv6Addr) :
    (displayIpv6 addr).length ≤ 46 := by
  obtain ⟨hlen, -⟩ := groupsOf_spec 8 addr.bytes addr.length_eq
  have hmapped : (ascii "::ffff:").length = 7 := by decide
  have hgap : (ascii "::").length = 2 := by decide
  unfold displayIpv6
  split
  · have hquad := dotted_length_le (addr.bytes.drop 12)
    simp only [List.length_append, hmapped]
    simp only [List.length_drop, addr.length_eq] at hquad
    omega
  · simp only
    split
    · generalize zeroes (groupsOf addr.bytes) = span
      have hhead := fmtSubslice_length_le ((groupsOf addr.bytes).take span.start)
      have htail := fmtSubslice_length_le
        ((groupsOf addr.bytes).drop (span.start + span.len))
      simp only [List.length_append, hgap]
      simp only [List.length_take, List.length_drop, hlen] at hhead htail
      omega
    · have hall := fmtSubslice_length_le (groupsOf addr.bytes)
      omega

/-- A dotted quad needs at most fifteen bytes. -/
theorem displayIpv4_length_le (addr : Ipv4Addr) : (displayIpv4 addr).length ≤ 15 := by
  have hdecimal : ∀ a : UInt8, (decimal a.toNat).length ≤ 3 := fun a =>
    Radix.print_length_le (by omega) (by omega) (by have := a.toNat_lt; omega)
  obtain ⟨a, b, c, d, hbytes⟩ : ∃ a b c d, addr.bytes = [a, b, c, d] := by
    match hbytes : addr.bytes, addr.length_eq with
    | [a, b, c, d], _ => exact ⟨a, b, c, d, rfl⟩
  have ha := hdecimal a
  have hb := hdecimal b
  have hc := hdecimal c
  have hd := hdecimal d
  simp only [displayIpv4, hbytes, dotted, List.length_append, List.length_cons]
  omega

/-- Every IPv4 address reads back. -/
theorem parseIpv4_displayIpv4 (addr : Ipv4Addr) : parseIpv4 (displayIpv4 addr) = some addr := by
  have hread : readIpv4 (displayIpv4 addr) = some (addr, []) := by
    have hdotted := readIpv4_dotted addr.length_eq (stops_nil 10)
    rwa [List.append_nil] at hdotted
  rw [parseIpv4, if_neg (Nat.not_lt.mpr (displayIpv4_length_le addr)), parseWith, hread]

end Rust

end Ppv2Auth
