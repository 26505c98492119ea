/-
IPv4 and IPv6 addresses as text, following `core::net`: the recursive-descent
reader behind `FromStr` and the RFC 5952 writer behind `Display`.  The reader
keeps the rest of the text; a failed attempt leaves it where it was.
-/
import Ppv2Auth.Rust.Text

namespace Ppv2Auth

namespace Rust

open BigEndian

/-- `Ipv4Addr`, by its octets. -/
abbrev Ipv4Addr := Octets 4

/-- `Ipv6Addr`, by its octets. -/
abbrev Ipv6Addr := Octets 16

/-- `u128`. -/
abbrev U128 := BitVec 128

/-- `u128::from_be_bytes`. -/
def u128FromBe (addr : Octets 16) : U128 := BitVec.ofNat 128 (value addr.bytes)

@[simp] theorem u128FromBe_toNat (addr : Octets 16) :
    (u128FromBe addr).toNat = value addr.bytes := by
  have hlt := value_lt addr.bytes
  rw [addr.length_eq] at hlt
  rw [u128FromBe, BitVec.toNat_ofNat]
  exact Nat.mod_eq_of_lt (by simpa using hlt)

/-- `read_given_char`. -/
def readChar (c : UInt8) : Bytes → Option Bytes
  | [] => none
  | d :: rest => if d = c then some rest else none

/-- `read_number` with a bounded digit count: the whole run of digits is
taken, so a run that is too long fails instead of stopping early. -/
def readNumber (radix maxDigits : Nat) (allowZeroPrefix : Bool) (max : Nat)
    (text : Bytes) : Option (Nat × Bytes) :=
  let run := Radix.digitRun radix text
  if run.length > maxDigits then none
  else if run.length = 0 then none
  else if ¬ allowZeroPrefix ∧ text.head? = some 48 ∧ run.length > 1 then none
  else if Radix.valueOf radix run > max then none
  else some (Radix.valueOf radix run, text.drop run.length)

/-- `read_separator`: the separator is read before every item but the first. -/
def readSeparator {α : Type} (sep : UInt8) (index : Nat)
    (inner : Bytes → Option (α × Bytes)) (text : Bytes) : Option (α × Bytes) :=
  if index > 0 then (readChar sep text).bind inner else inner text

/-- One group of a dotted quad. -/
def readOctet : Bytes → Option (Nat × Bytes) := readNumber 10 3 false 255

/-- `read_ipv4_addr`. -/
def readIpv4 (text : Bytes) : Option (Ipv4Addr × Bytes) := do
  let (a, text) ← readSeparator 46 0 readOctet text
  let (b, text) ← readSeparator 46 1 readOctet text
  let (c, text) ← readSeparator 46 2 readOctet text
  let (d, text) ← readSeparator 46 3 readOctet text
  some (⟨[UInt8.ofNat a, UInt8.ofNat b, UInt8.ofNat c, UInt8.ofNat d], rfl⟩, text)

/-- One group of an IPv6 address. -/
def readGroup (text : Bytes) : Option (UInt16 × Bytes) :=
  (readNumber 16 4 true 65535 text).map fun (n, rest) => (UInt16.ofNat n, rest)

/-- The sixteen-bit groups of a byte string of even length. -/
def groupsOf : Bytes → List UInt16
  | hi :: lo :: rest => word hi lo :: groupsOf rest
  | _ => []

/-- `read_groups` from index `index` on, with `left` slots still free.  An
embedded IPv4 address fills two slots, so it is only tried while two are left;
the flag says that one was read. -/
def readGroups : Nat → Nat → Bytes → List UInt16 × Bool × Bytes
  | 0, _, text => ([], false, text)
  | left + 1, index, text =>
      match if left > 0 then readSeparator 58 index readIpv4 text else none with
      | some (v4, rest) => (groupsOf v4.bytes, true, rest)
      | none =>
          match readSeparator 58 index readGroup text with
          | some (group, rest) =>
              let (groups, v4, rest) := readGroups left (index + 1) rest
              (group :: groups, v4, rest)
          | none => ([], false, text)

/-- `read_ipv6_addr`: the front up to `::`, then the back, with zeros between.
-/
def readIpv6 (text : Bytes) : Option (List UInt16 × Bytes) :=
  let (head, headIpv4, text) := readGroups 8 0 text
  if head.length = 8 then some (head, text)
  else if headIpv4 then none
  else do
    let text ← readChar 58 text
    let text ← readChar 58 text
    let (tail, _, text) := readGroups (8 - (head.length + 1)) 0 text
    some (head ++ List.replicate (8 - head.length - tail.length) 0 ++ tail, text)

/-- `parse_with`: the reader has to consume the whole text. -/
def parseWith {α : Type} (inner : Bytes → Option (α × Bytes)) (text : Bytes) :
    Option α :=
  match inner text with
  | some (value, []) => some value
  | _ => none

/-- `FromStr for Ipv4Addr`. -/
def parseIpv4 (text : Bytes) : Option Ipv4Addr :=
  if text.length > 15 then none else parseWith readIpv4 text

/-- `FromStr for Ipv6Addr`. -/
def parseIpv6 (text : Bytes) : Option Ipv6Addr :=
  (parseWith readIpv6 text).map fun groups =>
    Octets.fill 16 (groups.flatMap bytesOfWord)

/-- `Display for Ipv4Addr`. -/
def dotted : Bytes → Bytes
  | [] => []
  | [a] => decimal a.toNat
  | a :: rest => decimal a.toNat ++ 46 :: dotted rest

def displayIpv4 (addr : Ipv4Addr) : Bytes := dotted addr.bytes

/-- A run of zero groups. -/
structure Span where
  start : Nat
  len : Nat
deriving Repr, DecidableEq

/-- One group of the scan for the longest zero run; the state is the longest
run so far, the current run and the index. -/
def spanStep : Span × Span × Nat → UInt16 → Span × Span × Nat
  | (longest, current, i), group =>
      if group = 0 then
        let current : Span :=
          ⟨if current.len = 0 then i else current.start, current.len + 1⟩
        (if current.len > longest.len then current else longest, current, i + 1)
      else (longest, ⟨0, 0⟩, i + 1)

/-- The first longest run of zero groups. -/
def zeroes (groups : List UInt16) : Span :=
  (groups.foldl spanStep (⟨0, 0⟩, ⟨0, 0⟩, 0)).1

def hexGroup (group : UInt16) : Bytes := Radix.print 16 group.toNat

/-- Every group behind a colon. -/
def colonGroups (groups : List UInt16) : Bytes :=
  groups.flatMap fun group => 58 :: hexGroup group

/-- `fmt_subslice`: groups separated by colons. -/
def fmtSubslice : List UInt16 → Bytes
  | [] => []
  | group :: rest => hexGroup group ++ colonGroups rest

/-- The first twelve octets of an IPv4-mapped address. -/
def mappedPrefix : Bytes := List.replicate 10 0 ++ [0xff, 0xff]

/-- `Display for Ipv6Addr`. -/
def displayIpv6 (addr : Ipv6Addr) : Bytes :=
  if addr.bytes.take 12 = mappedPrefix then
    ascii "::ffff:" ++ dotted (addr.bytes.drop 12)
  else
    let groups := groupsOf addr.bytes
    let span := zeroes groups
    if span.len > 1 then
      fmtSubslice (groups.take span.start) ++ ascii "::" ++
        fmtSubslice (groups.drop (span.start + span.len))
    else fmtSubslice groups

end Rust

end Ppv2Auth
