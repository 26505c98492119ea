/-
PROXY protocol v2, narrowed to what the load balancer sends: one version and
command, two address families, and the TLV that carries an endpoint id.  Reads
are indexed under the length checks that guard them, so no read can leave the
buffer.
-/
import Ppv2Auth.Rust.Net

namespace Ppv2Auth

namespace Ppv2

open BigEndian

def signature : Bytes :=
  [0x0d, 0x0a, 0x0d, 0x0a, 0x00, 0x0d, 0x0a, 0x51, 0x55, 0x49, 0x54, 0x0a]

def tlvAws : UInt8 := 0xea

def awsSubtypeVpceId : UInt8 := 0x01

/-- Signature, command, family and length. -/
def preamble : Nat := 16

/-- Version 2 and the PROXY command. -/
def v2Proxy : UInt8 := 0x21

/-- The largest header accepted, and the largest peek asked for. -/
def maxHeader : Nat := 256

/-- Source and destination port, after the addresses. -/
def ports : Nat := 4

inductive Error where
  /-- Total bytes needed, not the remainder. -/
  | need (total : Nat)
  | invalid
deriving Repr, DecidableEq

structure Header where
  /-- Total header length; the payload starts here. -/
  len : Nat
  /-- First four bytes for IPv4, all sixteen for IPv6. -/
  src : Octets 16
  srcPort : UInt16
  isV6 : Bool
  /-- Endpoint id, or empty. -/
  vpce : Bytes
deriving DecidableEq

/-- The walk over the TLVs still unread.  Each round consumes at least the
three header bytes, so the length of the tail is fuel enough. -/
def findVpceFrom : Nat → Bytes → Bytes
  | 0, _ => []
  | fuel + 1, kind :: hi :: lo :: rest =>
      let valueLen := (word hi lo).toNat
      if valueLen > rest.length then []
      else if kind = tlvAws ∧ valueLen > 1 ∧
          rest.head? = some awsSubtypeVpceId then
        (rest.take valueLen).drop 1
      else findVpceFrom fuel (rest.drop valueLen)
  | _ + 1, _ => []

/-- The first endpoint id among the TLVs, or empty; an overlong TLV stops the
walk. -/
def findVpce (tlvs : Bytes) : Bytes := findVpceFrom tlvs.length tlvs

/-- The high nibble of the family byte: IPv4, IPv6 or neither. -/
def family (b : UInt8) : Option Bool :=
  if b >>> 4 = 0x1 then some false
  else if b >>> 4 = 0x2 then some true
  else none

def addrSize (isV6 : Bool) : Nat := if isV6 then 16 else 4

def blockLen (isV6 : Bool) : Nat := addrSize isV6 * 2 + ports

/-- The part of `parse` behind the length checks: `body` is what the declared
length leaves after the preamble. -/
def parseBody (len : Nat) (isV6 : Bool) (body : Bytes) : Except Error Header :=
  if hshort : body.length < blockLen isV6 then .error .invalid
  else
    let portOff := addrSize isV6 * 2
    have hhi : portOff < body.length := by
      simp only [blockLen, ports] at hshort
      omega
    have hlo : portOff + 1 < body.length := by
      simp only [blockLen, ports] at hshort
      omega
    .ok {
      len
      src := Octets.fill 16 (body.take (addrSize isV6))
      srcPort := word body[portOff] body[portOff + 1]
      isV6
      vpce := findVpce (body.drop (blockLen isV6)) }

def parse (buf : Bytes) : Except Error Header :=
  if hshort : buf.length < preamble then
    let n := min buf.length signature.length
    if buf.take n ≠ signature.take n then .error .invalid
    else .error (.need preamble)
  else
    have hlong : 16 ≤ buf.length := Nat.le_of_not_lt hshort
    if buf.take 12 ≠ signature ∨ buf[12] ≠ v2Proxy then .error .invalid
    else
      let len := preamble + (word buf[14] buf[15]).toNat
      -- Before the request for more bytes, so an oversized claim is refused.
      if len > maxHeader then .error .invalid
      else if buf.length < len then .error (.need len)
      else
        let body := (buf.take len).drop preamble
        match family buf[13] with
        | none => .error .invalid
        | some isV6 => parseBody len isV6 body

end Ppv2

end Ppv2Auth
