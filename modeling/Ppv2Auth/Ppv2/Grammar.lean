/-
The grammar the parser accepts and what it reads off.  Behind the address
block the buffer splits into complete records and a tail that starts with
none; the first record that carries an endpoint id decides.
-/
import Ppv2Auth.Ppv2.Incremental
import Ppv2Auth.Ppv2.Indexed
import Ppv2Auth.Support.Tlv

namespace Ppv2Auth

namespace Ppv2

open BigEndian Tlv

/-- A record that carries a nonempty endpoint id. -/
def isEndpoint (r : Record) : Bool :=
  r.kind = tlvAws ∧ r.value.length > 1 ∧ r.value.head? = some awsSubtypeVpceId

/-- The endpoint id among the records, or empty. -/
def endpointId (records : List Record) : Bytes :=
  match records.find? isEndpoint with
  | some r => r.value.drop 1
  | none => []

/-- What a buffer has to be to hold a header of a family. -/
structure Accepts (buf : Bytes) (isV6 : Bool) : Prop where
  long : preamble ≤ buf.length
  magic : signature ++ [v2Proxy] <+: buf
  ceiling : declared buf ≤ maxHeader
  present : declared buf ≤ buf.length
  nibble : buf.getD 13 0 >>> 4 = if isV6 then 2 else 1
  block : preamble + blockLen isV6 ≤ declared buf

/-- What stands between the address block and the declared end. -/
def tlvArea (buf : Bytes) (isV6 : Bool) : Bytes :=
  (buf.take (declared buf)).drop (preamble + blockLen isV6)

/-- What a header says about the buffer it was read from. -/
structure Describes (buf : Bytes) (isV6 : Bool) (h : Header) : Prop where
  len : h.len = declared buf
  sameFamily : h.isV6 = isV6
  src : h.src.bytes = (buf.drop preamble).take (addrSize isV6) ++
    List.replicate (16 - addrSize isV6) 0
  srcPort : h.srcPort = word (buf.getD (preamble + addrSize isV6 * 2) 0)
    (buf.getD (preamble + addrSize isV6 * 2 + 1) 0)
  vpce : ∃ records tail, Splits (tlvArea buf isV6) records tail ∧
    h.vpce = endpointId records

/-- The sixteen bytes before a body of the given length. -/
def opening (fam : UInt8) (bodyLen : Nat) : Bytes :=
  signature ++ [v2Proxy, fam] ++ bytesOfWord (UInt16.ofNat bodyLen)

/-- A header as it is sent, with the payload behind it. -/
def assemble (fam : UInt8) (body payload : Bytes) : Bytes :=
  opening fam body.length ++ body ++ payload

theorem findVpceFrom_record (fuel : Nat) (r : Record) (rest : Bytes) :
    findVpceFrom (fuel + 1) (r.bytes ++ rest) =
      if isEndpoint r then r.value.drop 1 else findVpceFrom fuel rest := by
  obtain ⟨hi, lo, hr, hlength⟩ := r.exists_length_bytes
  have hfits : ¬ r.value.length > (r.value ++ rest).length := by
    rw [List.length_append]
    omega
  rw [hr]
  simp only [List.cons_append, findVpceFrom, hlength, hfits, ↓reduceIte,
    List.take_left, List.drop_left, isEndpoint, decide_eq_true_eq]
  -- With more than one byte in the value its head is the head of what follows.
  cases hvalue : r.value with
  | nil => simp
  | cons b value => simp

theorem findVpceFrom_incomplete (fuel : Nat) {tail : Bytes} (htail : Incomplete tail) :
    findVpceFrom fuel tail = [] := by
  match fuel, tail with
  | 0, _ | _ + 1, [] | _ + 1, [_] | _ + 1, [_, _] => rfl
  | fuel + 1, kind :: hi :: lo :: rest =>
      have hover : (word hi lo).toNat > rest.length := htail
      simp [findVpceFrom, hover]

theorem findVpceFrom_serialize {fuel : Nat} {records : List Record} {tail : Bytes}
    (htail : Incomplete tail) (hfuel : (serialize records ++ tail).length ≤ fuel) :
    findVpceFrom fuel (serialize records ++ tail) = endpointId records := by
  induction records generalizing fuel with
  | nil => exact findVpceFrom_incomplete fuel htail
  | cons r rest ih =>
      have hpos := r.length_pos
      simp only [serialize_cons, List.append_assoc, List.length_append] at hfuel ih ⊢
      obtain ⟨fuel, rfl⟩ : ∃ k, fuel = k + 1 := ⟨fuel - 1, by omega⟩
      rw [findVpceFrom_record, endpointId, List.find?_cons]
      cases hend : isEndpoint r with
      | true => rfl
      | false => exact ih (by omega)

/-- The first record that carries an endpoint id decides. -/
theorem findVpce_of_splits {area tail : Bytes} {records : List Record}
    (h : Splits area records tail) : findVpce area = endpointId records := by
  obtain ⟨rfl, htail⟩ := splits_iff.mp h
  exact findVpceFrom_serialize htail le_rfl

theorem magic_iff {buf : Bytes} (hlong : preamble ≤ buf.length) :
    signature ++ [v2Proxy] <+: buf ↔
      buf.take 12 = signature ∧ buf.getD 12 0 = v2Proxy := by
  have hpreamble : preamble = 16 := rfl
  have h12 : 12 < buf.length := by omega
  have hlength : (signature ++ [v2Proxy]).length = 13 := rfl
  have hsame : signature.length = (buf.take 12).length := by
    rw [List.length_take_of_le h12.le]
    rfl
  rw [List.prefix_iff_eq_take, hlength, List.take_succ_eq_append_getElem h12,
    List.getD_eq_getElem buf 0 h12]
  constructor
  · intro h
    obtain ⟨hfront, hcommand⟩ := List.append_inj h hsame
    exact ⟨hfront.symm, (List.cons.inj hcommand).1.symm⟩
  · rintro ⟨hfront, hcommand⟩
    rw [hfront, hcommand]

theorem family_eq_some_iff {b : UInt8} {isV6 : Bool} :
    family b = some isV6 ↔ b >>> 4 = if isV6 then 2 else 1 := by
  unfold family
  cases isV6 with
  | false =>
      by_cases hone : b >>> 4 = 1
      · simp [hone]
      · simp [hone]
  | true =>
      by_cases hone : b >>> 4 = 1
      · simp [hone]
      · simp [hone]

/-- The header the parser builds from an accepted buffer. -/
def headerOf (buf : Bytes) (isV6 : Bool) : Header where
  len := declared buf
  src := Octets.fill 16 ((buf.drop preamble).take (addrSize isV6))
  srcPort := word (buf.getD (preamble + addrSize isV6 * 2) 0)
    (buf.getD (preamble + addrSize isV6 * 2 + 1) 0)
  isV6
  vpce := findVpce (tlvArea buf isV6)

theorem parseBody_eq {buf : Bytes} {isV6 : Bool}
    (hpresent : declared buf ≤ buf.length) :
    parseBody (declared buf) isV6 ((buf.take (declared buf)).drop preamble) =
      if preamble + blockLen isV6 ≤ declared buf then .ok (headerOf buf isV6)
      else .error .invalid := by
  have hpreamble : preamble ≤ declared buf := Nat.le_add_right _ _
  have hsize : blockLen isV6 = addrSize isV6 * 2 + 4 := rfl
  have hlength : ((buf.take (declared buf)).drop preamble).length =
      declared buf - preamble := by
    rw [List.length_drop, List.length_take_of_le hpresent]
  rw [parseBody]
  by_cases hblock : preamble + blockLen isV6 ≤ declared buf
  · rw [dif_neg (by omega), if_pos hblock]
    have hport : ∀ i (hi : i < ((buf.take (declared buf)).drop preamble).length),
        ((buf.take (declared buf)).drop preamble)[i] = buf.getD (preamble + i) 0 := by
      intro i hi
      rw [List.getD_eq_getElem buf 0 (by omega)]
      simp
    have hsrc : ((buf.take (declared buf)).drop preamble).take (addrSize isV6) =
        (buf.drop preamble).take (addrSize isV6) := by
      rw [List.drop_take, List.take_take, Nat.min_eq_left (by omega)]
    simp only [hport, hsrc, headerOf, tlvArea, List.drop_drop, Nat.add_assoc]
  · rw [dif_pos (by omega), if_neg hblock]

/-- The checks of the parser are the grammar, and what it builds follows. -/
theorem parse_eq_ok_iff_headerOf {buf : Bytes} {h : Header} :
    parse buf = .ok h ↔ ∃ isV6, Accepts buf isV6 ∧ h = headerOf buf isV6 := by
  by_cases hshort : buf.length < preamble
  · constructor
    · intro hparse
      rw [parse_short hshort] at hparse
      split at hparse
      · cases hparse
      · cases hparse
    · rintro ⟨isV6, hacc, -⟩
      exact absurd hshort (not_lt.mpr hacc.long)
  · have hlong : preamble ≤ buf.length := not_lt.mp hshort
    rw [parse_long hlong]
    constructor
    · intro hparse
      split_ifs at hparse with hmagic hceiling hmore
      push Not at hmagic
      have hpresent : declared buf ≤ buf.length := not_lt.mp hmore
      cases hfamily : family (buf.getD 13 0) with
      | none =>
          rw [hfamily] at hparse
          cases hparse
      | some isV6 =>
          rw [hfamily] at hparse
          simp only [parseBody_eq hpresent] at hparse
          split_ifs at hparse with hblock
          exact ⟨isV6, ⟨hlong, (magic_iff hlong).mpr hmagic, not_lt.mp hceiling,
            hpresent, family_eq_some_iff.mp hfamily, hblock⟩,
            (Except.ok.inj hparse).symm⟩
    · rintro ⟨isV6, hacc, rfl⟩
      obtain ⟨hfront, hcommand⟩ := (magic_iff hlong).mp hacc.magic
      have hmagic : ¬ (buf.take 12 ≠ signature ∨ buf.getD 12 0 ≠ v2Proxy) := by
        rw [hfront, hcommand]
        simp
      rw [if_neg hmagic, if_neg (not_lt.mpr hacc.ceiling),
        if_neg (not_lt.mpr hacc.present), family_eq_some_iff.mpr hacc.nibble]
      simp only [parseBody_eq hacc.present, if_pos hacc.block]

/-- The header built is the one the buffer describes. -/
theorem describes_iff {buf : Bytes} {isV6 : Bool} (hacc : Accepts buf isV6)
    {h : Header} : Describes buf isV6 h ↔ h = headerOf buf isV6 := by
  have hsize : blockLen isV6 = addrSize isV6 * 2 + 4 := rfl
  have hsmall : addrSize isV6 ≤ 16 := by
    cases isV6 with
    | false => decide
    | true => decide
  have hsrc : (headerOf buf isV6).src.bytes =
      (buf.drop preamble).take (addrSize isV6) ++
        List.replicate (16 - addrSize isV6) 0 := by
    have hblock := hacc.block
    have hpresent := hacc.present
    have hlength : ((buf.drop preamble).take (addrSize isV6)).length =
        addrSize isV6 := by
      rw [List.length_take_of_le]
      rw [List.length_drop]
      omega
    simp only [headerOf, Octets.fill]
    rw [List.take_append, hlength, List.take_of_length_le (by omega),
      List.take_replicate, Nat.min_eq_left (by omega)]
  constructor
  · rintro ⟨hlen, hfamily, hbytes, hport, records, tail, hsplits, hvpce⟩
    have hsame := Octets.ext_bytes (hbytes.trans hsrc.symm)
    cases h
    simp only at hlen hfamily hport hvpce hsame
    rw [hlen, hfamily, hsame, hport, hvpce, ← findVpce_of_splits hsplits]
    rfl
  · rintro rfl
    obtain ⟨records, tail, hsplit⟩ := exists_split (tlvArea buf isV6)
    have hsplits := splits_iff.mpr hsplit
    exact ⟨rfl, rfl, hsrc, rfl, records, tail, hsplits, findVpce_of_splits hsplits⟩

theorem parse_need_of_long {buf : Bytes} (hlong : preamble ≤ buf.length) {k : Nat}
    (hneed : parse buf = .error (.need k)) : k = declared buf := by
  rw [parse_long hlong] at hneed
  split_ifs at hneed with hmagic hceiling hmore
  · cases hneed
  · cases hneed
  · cases hneed
    rfl
  · cases hfamily : family (buf.getD 13 0) with
    | none =>
        rw [hfamily] at hneed
        cases hneed
    | some isV6 =>
        rw [hfamily] at hneed
        exact absurd hneed (parseBody_ne_need _ _ _ _)

theorem declared_congr {buf buf' : Bytes} {n : Nat} (hn : preamble ≤ n)
    (hsame : buf'.take n = buf.take n) : declared buf' = declared buf := by
  have hpreamble : preamble = 16 := rfl
  have hget : ∀ i < 16, buf'.getD i 0 = buf.getD i 0 := by
    intro i hi
    have hcut := congrArg (·.getD i 0) hsame
    simpa [show i < n by omega] using hcut
  rw [declared, declared, hget 14 (by omega), hget 15 (by omega)]

/-- The bytes up to the declared end have the verdict. -/
theorem parse_take_declared {buf : Bytes} (hpresent : declared buf ≤ buf.length) :
    parse (buf.take (declared buf)) = parse buf := by
  have hpreamble : preamble ≤ declared buf := Nat.le_add_right _ _
  rcases parse_take buf (declared buf) with ⟨k, hneed⟩ | hsame
  · have hlength := List.length_take_of_le hpresent
    have hk := parse_need_of_long (by omega) hneed
    rw [@declared_congr buf _ (declared buf) hpreamble (by simp)] at hk
    have hmore := (lt_of_parse_need hneed).1
    omega
  · exact hsame

theorem parse_congr {buf buf' : Bytes} (hpresent : declared buf ≤ buf.length)
    (hpresent' : declared buf ≤ buf'.length)
    (hsame : buf'.take (declared buf) = buf.take (declared buf)) :
    parse buf' = parse buf := by
  have hdeclared := declared_congr (Nat.le_add_right _ _) hsame
  have hverdict := parse_take_declared (hdeclared.trans_le hpresent')
  rw [hdeclared, hsame, parse_take_declared hpresent] at hverdict
  exact hverdict.symm

section Assembled

variable {fam : UInt8} {isV6 : Bool} {body payload : Bytes}

@[simp] theorem opening_length (fam : UInt8) (bodyLen : Nat) :
    (opening fam bodyLen).length = preamble := rfl

@[simp] theorem assemble_length :
    (assemble fam body payload).length = preamble + body.length + payload.length := by
  simp only [assemble, List.length_append, opening_length]

theorem declared_assemble (hfits : preamble + body.length ≤ maxHeader) :
    declared (assemble fam body payload) = preamble + body.length := by
  have hceiling : maxHeader = 256 := rfl
  have hword : (UInt16.ofNat body.length).toNat = body.length :=
    UInt16.toNat_ofNat_of_lt' (by simp only [UInt16.size]; omega)
  have hget : ∀ i < preamble, (assemble fam body payload).getD i 0 =
      (opening fam body.length).getD i 0 := by
    intro i hi
    have hfront : i < (opening fam body.length).length := hi
    simp [assemble, List.getElem?_append_left hfront]
  rw [declared, hget 14 (by decide), hget 15 (by decide), ← hword]
  -- The two bytes of a word make up the word.
  have hvalue := value_bytesOfWord (UInt16.ofNat body.length)
  simp only [bytesOfWord, value_cons, value_nil, List.length_cons, List.length_nil]
    at hvalue
  have hbytes : (opening fam (UInt16.ofNat body.length).toNat).getD 14 0 =
        UInt8.ofNat ((UInt16.ofNat body.length).toNat / 256) ∧
      (opening fam (UInt16.ofNat body.length).toNat).getD 15 0 =
        UInt8.ofNat ((UInt16.ofNat body.length).toNat % 256) := by
    simp [opening, signature, bytesOfWord]
  rw [word_toNat, hbytes.1, hbytes.2]
  omega

theorem accepts_assemble (hfamily : family fam = some isV6)
    (hblock : blockLen isV6 ≤ body.length)
    (hfits : preamble + body.length ≤ maxHeader) :
    Accepts (assemble fam body payload) isV6 := by
  have hdeclared := @declared_assemble fam body payload hfits
  constructor
  · simp only [assemble_length]
    omega
  · exact ⟨fam :: bytesOfWord (UInt16.ofNat body.length) ++ body ++ payload,
      by simp [assemble, opening]⟩
  · rw [hdeclared]
    exact hfits
  · rw [hdeclared, assemble_length]
    omega
  · rw [← family_eq_some_iff.mp hfamily]
    rfl
  · rw [hdeclared]
    omega

/-- What is read of an assembled header lies in its body. -/
theorem take_declared_assemble (hfits : preamble + body.length ≤ maxHeader) :
    ((assemble fam body payload).take
      (declared (assemble fam body payload))).drop preamble = body := by
  rw [declared_assemble hfits, assemble,
    List.take_left' (by simp), List.drop_left' (by simp)]

/-- Records behind the address block are found whatever follows them. -/
theorem parse_assemble {block tail : Bytes} {records : List Record}
    (hfamily : family fam = some isV6) (hblock : block.length = blockLen isV6)
    (htail : Incomplete tail)
    (hfits : preamble + (block ++ serialize records ++ tail).length ≤ maxHeader) :
    ∃ h, parse (assemble fam (block ++ serialize records ++ tail) payload) = .ok h ∧
      h.len = preamble + (block ++ serialize records ++ tail).length ∧
      h.isV6 = isV6 ∧ h.src = Octets.fill 16 (block.take (addrSize isV6)) ∧
      h.vpce = endpointId records := by
  set body := block ++ serialize records ++ tail with hbody
  have hroom : blockLen isV6 ≤ body.length := by
    rw [hbody, List.append_assoc, List.length_append]
    omega
  have hacc : Accepts (assemble fam body payload) isV6 :=
    accepts_assemble hfamily hroom hfits
  have hsize : blockLen isV6 = addrSize isV6 * 2 + 4 := rfl
  have hrest := @take_declared_assemble fam body payload hfits
  refine ⟨headerOf _ isV6, parse_eq_ok_iff_headerOf.mpr ⟨isV6, hacc, rfl⟩,
    declared_assemble hfits, rfl, ?_, ?_⟩
  · have hdrop : (assemble fam body payload).drop preamble = body ++ payload := by
      rw [assemble, List.append_assoc, List.drop_left' (by simp)]
    simp only [headerOf, hdrop]
    rw [hbody, List.append_assoc, List.append_assoc,
      List.take_append_of_le_length (by omega)]
  · refine @findVpce_of_splits _ tail _ (splits_iff.mpr ?_)
    constructor
    · rw [tlvArea, ← List.drop_drop, hrest, hbody, List.append_assoc,
        List.drop_left' hblock]
    · exact htail

end Assembled

/-- The parser accepts exactly the grammar and reads off what the buffer
describes.  Every index stays in the buffer and the walk ends; bytes past the
declared end do not matter; and behind an address block the first record with
an endpoint id decides, whatever tail and payload follow the records. -/
theorem parse_grammar (buf : Bytes) :
    (∀ h, parse buf = .ok h ↔
      ∃ isV6, Accepts buf isV6 ∧ Describes buf isV6 h) ∧
    ((∃ h, parse buf = .ok h) ↔ ∃ isV6, Accepts buf isV6) ∧
    parseAt buf = some (parse buf) ∧
    (∀ buf', declared buf ≤ buf.length → declared buf ≤ buf'.length →
      buf'.take (declared buf) = buf.take (declared buf) →
      parse buf' = parse buf) ∧
    (∀ fam isV6 block records tail payload, family fam = some isV6 →
      block.length = blockLen isV6 → Incomplete tail →
      preamble + (block ++ serialize records ++ tail).length ≤ maxHeader →
      ∃ h, parse (assemble fam (block ++ serialize records ++ tail) payload) = .ok h ∧
        h.len = preamble + (block ++ serialize records ++ tail).length ∧
        h.isV6 = isV6 ∧ h.src = Octets.fill 16 (block.take (addrSize isV6)) ∧
        h.vpce = endpointId records) := by
  constructor
  · intro h
    rw [parse_eq_ok_iff_headerOf]
    constructor
    · rintro ⟨isV6, hacc, hh⟩
      exact ⟨isV6, hacc, (describes_iff hacc).mpr hh⟩
    · rintro ⟨isV6, hacc, hh⟩
      exact ⟨isV6, hacc, (describes_iff hacc).mp hh⟩
  constructor
  · simp only [parse_eq_ok_iff_headerOf]
    constructor
    · rintro ⟨_, isV6, hacc, -⟩
      exact ⟨isV6, hacc⟩
    · rintro ⟨isV6, hacc⟩
      exact ⟨_, isV6, hacc, rfl⟩
  constructor
  · exact parseAt_eq buf
  constructor
  · intro buf' hpresent hpresent' hsame
    exact parse_congr hpresent hpresent' hsame
  · intro fam isV6 block records tail payload hfamily hblock htail hfits
    exact parse_assemble hfamily hblock htail hfits

end Ppv2

end Ppv2Auth
