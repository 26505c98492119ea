/-
Turning a header into an address that policy can match, and its config-time
twin.  One /48 holds three kinds, told apart by group four:

  prefix : 0b1a : 0000 : site : client IPv4    an onboarded tenant
  prefix : 0001 : hash of the endpoint id : client IPv4
  prefix : 0004 : 0000 : 0000 : client IPv4    no endpoint id at all

The hash is a crate the repository calls, so it is a parameter here.
-/
import Ppv2Auth.Identity.Scheme
import Ppv2Auth.Ppv2

namespace Ppv2Auth

namespace Identity

open Rust BigEndian

/-- `Sha256::digest`. -/
class Sha256 where
  digest : Bytes → Octets 32

def kindSite : UInt16 := 0x0b1a

def kindVpce : UInt16 := 1

def kindAddr : UInt16 := 4

/-- The four parts of a synthesized address. -/
def assemble (pfx : Prefix) (kind : UInt16) (body low : Octets 4) : Octets 16 :=
  ⟨(pfx.bytes ++ bytesOfWord kind ++ body.bytes) ++ low.bytes, by simp⟩

def zeroQuad : Octets 4 := ⟨[0, 0, 0, 0], rfl⟩

/-- The site id in group six. -/
def siteBody (id : UInt16) : Octets 4 := ⟨0 :: 0 :: bytesOfWord id, rfl⟩

/-- The first four bytes of an endpoint id's hash. -/
def hashBody [Sha256] (label : Bytes) : Octets 4 :=
  ⟨(Sha256.digest label).bytes.take 4, by simp⟩

def v4Of (src : Octets 16) : Octets 4 := ⟨src.bytes.take 4, by simp⟩

def toU128 (addr : Octets 16) : U128 := u128FromBe addr

/-- IPv4 as `::ffff:a.b.c.d`. -/
def mappedV4 (v4 : Octets 4) : Octets 16 := ⟨mappedPrefix ++ v4.bytes, by simp [mappedPrefix]⟩

def mapped (h : Ppv2.Header) : U128 :=
  if h.isV6 then toU128 h.src else toU128 (mappedV4 (v4Of h.src))

/-- A resolved site, and whether the source is the tenant's own address. -/
structure SiteMatch where
  id : UInt16
  inner : Bool
deriving Repr, DecidableEq

/-- The endpoint id first, then the source address. -/
def siteOf (sch : Scheme) (h : Ppv2.Header) : Option SiteMatch :=
  match if h.vpce ≠ [] then sch.labelSite h.vpce else none with
  | some id => some ⟨id, true⟩
  | none => (sch.addrSite (mapped h)).map fun id => ⟨id, false⟩

/-- The client's IPv4 address, or zero for an IPv6 client. -/
def clientQuad (h : Ppv2.Header) : Octets 4 :=
  if h.isV6 then zeroQuad else v4Of h.src

/-- Four cases, and the order matters. -/
def synthesize [Sha256] (sch : Scheme) (h : Ppv2.Header) : Octets 16 :=
  match siteOf sch h with
  | some m =>
      -- Zero unless the source is the tenant's own address.
      assemble sch.pfx kindSite (siteBody m.id)
        (if m.inner then clientQuad h else zeroQuad)
  | none =>
      if h.vpce ≠ [] then
        assemble sch.pfx kindVpce (hashBody h.vpce) (clientQuad h)
      else if h.isV6 then h.src
      else assemble sch.pfx kindAddr zeroQuad (v4Of h.src)

/-- A text in a stack buffer of forty-six bytes. -/
structure AddrText where
  text : Bytes
  fits : text.length ≤ 46

def AddrText.empty : AddrText := ⟨[], by simp⟩

/-- `write_str`: an overlong text is an error and leaves the buffer alone. -/
def AddrText.writeStr (t : AddrText) (s : Bytes) : Option AddrText :=
  if h : (t.text ++ s).length ≤ 46 then some ⟨t.text ++ s, h⟩ else none

def format (addr : Octets 16) : AddrText :=
  (AddrText.empty.writeStr (displayIpv6 addr)).getD AddrText.empty

def formatSrc (src : Octets 16) (isV6 : Bool) : AddrText :=
  let text := if isV6 then displayIpv6 src else displayIpv4 (v4Of src)
  (AddrText.empty.writeStr text).getD AddrText.empty

/-- The write never fails: forty-six bytes always suffice. -/
@[simp] theorem format_text (addr : Octets 16) :
    (format addr).text = displayIpv6 addr := by
  have hfits := displayIpv6_length_le addr
  simp [format, AddrText.writeStr, AddrText.empty, hfits]

def parsePrefix (text : Bytes) : Except String Prefix := do
  let (ipText, bits) ← match splitOnce 47 text with
    | some (ip, b) =>
        match parseU8 b with
        | some b => .ok (ip, some b)
        | none => .error "bad prefix length"
    | none => .ok (text, none)
  let ip ← match parseIpv6 ipText with
    | some ip => .ok ip
    | none => .error "bad IPv6 address"
  if bits.any (· ≠ 48) then .error "prefix must be /48"
  else if (ip.bytes.headD 0) &&& 0xfe ≠ 0xfc then .error "not unique-local"
  else if (ip.bytes.drop 6).any (· ≠ 0) then
    .error "prefix has bits set below /48"
  else .ok ⟨ip.bytes.take 6, by simp⟩

/-- An address and a width, as `cidr::build` reads it. -/
def cidrText (addr : Octets 16) (bits : Nat) : Bytes :=
  displayIpv6 addr ++ 47 :: decimal bits

/-- The whole tenant: the machine bits are open. -/
def siteSpace (pfx : Prefix) (id : UInt16) : Bytes :=
  (format (assemble pfx kindSite (siteBody id) zeroQuad)).text ++ 47 :: decimal 96

/-- The inclusive range a prefix covers. -/
def rangeOf (addr : U128) (bits : Nat) : U128 × U128 :=
  if bits = 0 then (0, BitVec.allOnes 128)
  else
    let mask : U128 := BitVec.allOnes 128 <<< (128 - bits)
    (addr &&& mask, (addr &&& mask) ||| ~~~mask)

/-- `!N` against a declared site, or `!0`, which always resolves. -/
def siteRef (sch : Scheme) (member : Bytes) : Option UInt16 :=
  ((stripPrefix [33] member).bind parseU16).filter fun id =>
    id = siteContested ∨ sch.sites.any (·.id = id)

/-- The text before the first slash, and the text after it. -/
def addrAndWidth (member : Bytes) : Bytes × Option Bytes :=
  match splitOnce 47 member with
  | some (a, w) => (a, some w)
  | none => (member, none)

/-- Absent defaults to the maximum; invalid demotes the member to a label. -/
def bitsOf (width : Option Bytes) (max : Nat) : Option Nat :=
  match width with
  | none => some max
  | some w => (parseU8 w).filter (· ≤ max)

/-- A member read as an IPv4 address with a width. -/
def v4Member (member : Bytes) : Option (Octets 4 × Nat) :=
  let (addr, width) := addrAndWidth member
  match parseIpv4 addr, bitsOf width 32 with
  | some v4, some b => some (v4, b)
  | _, _ => none

/-- A member read as an IPv6 address with a width. -/
def v6Member (member : Bytes) : Option (Octets 16 × Nat) :=
  let (addr, width) := addrAndWidth member
  match parseIpv6 addr, bitsOf width 128 with
  | some v6, some b => some (v6, b)
  | _, _ => none

/-- The mapped form of an IPv4 address. -/
def mappedBase (v4 : Octets 4) : U128 :=
  0xffff00000000#128 ||| BitVec.ofNat 128 (value v4.bytes)

/-- Encode one authored source the way the packet path encodes a header
carrying it.  Total: what is neither an address nor a resolvable reference is
a label. -/
def encodeMember [Sha256] (sch : Scheme) (member : Bytes) : Bytes :=
  match siteRef sch member with
  | some id => siteSpace sch.pfx id
  | none =>
      match v4Member member with
      | some (v4, b) =>
          let (start, stop) := rangeOf (mappedBase v4) (96 + b)
          match sch.rangeSite start stop with
          | some id => siteSpace sch.pfx id
          | none =>
              (format (assemble sch.pfx kindAddr zeroQuad v4)).text ++
                47 :: decimal (96 + b)
      | none =>
          match v6Member member with
          | some (v6, b) =>
              let (start, stop) := rangeOf (toU128 v6) b
              match sch.rangeSite start stop with
              | some id => siteSpace sch.pfx id
              | none => displayIpv6 v6 ++ 47 :: decimal b
          | none =>
              match sch.labelSite member with
              | some id => siteSpace sch.pfx id
              | none =>
                  (format (assemble sch.pfx kindVpce (hashBody member)
                    zeroQuad)).text ++ 47 :: decimal 96

/-- Every declared site's space. -/
def encodeAllSites (sch : Scheme) : List Bytes :=
  sch.sites.map fun s => siteSpace sch.pfx s.id

end Identity

end Ppv2Auth
