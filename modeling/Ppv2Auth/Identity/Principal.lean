/-
Who an identity names.  A header stands for a principal, each principal has one
address under a prefix, and the address reads back into the principal; so equal
identities are equal callers, also across tables that share the prefix.
-/
import Ppv2Auth.Identity.Meeting

namespace Ppv2Auth

namespace Identity

open Rust BigEndian

/-- A caller, as far as a header tells; a machine that is not known is zero. -/
inductive Principal where
  | tenant (site : UInt16) (machine : Octets 4)
  | stranger (hash machine : Octets 4)
  | client4 (quad : Octets 4)
  | client6 (addr : Octets 16)
deriving DecidableEq

def Principal.of [Sha256] (sch : Scheme) (h : Ppv2.Header) : Principal :=
  match siteOf sch h with
  | some m => .tenant m.id (if m.inner then clientQuad h else zeroQuad)
  | none =>
      if h.vpce ≠ [] then .stranger (hashBody h.vpce) (clientQuad h)
      else if h.isV6 then .client6 h.src
      else .client4 (v4Of h.src)

/-- The address of a principal. -/
def Principal.addr (pfx : Prefix) : Principal → Octets 16
  | .tenant site machine => assemble pfx kindSite (siteBody site) machine
  | .stranger hash machine => assemble pfx kindVpce hash machine
  | .client4 quad => assemble pfx kindAddr zeroQuad quad
  | .client6 addr => addr

/-- What is synthesized is the address of the principal. -/
theorem synthesize_eq_addr [Sha256] (sch : Scheme) (h : Ppv2.Header) :
    synthesize sch h = (Principal.of sch h).addr sch.pfx := by
  unfold synthesize Principal.of
  cases siteOf sch h with
  | some m => rfl
  | none =>
      by_cases hvpce : h.vpce ≠ []
      · simp only [if_pos hvpce]
        rfl
      · simp only [if_neg hvpce]
        cases h.isV6 with
        | true => rfl
        | false => rfl

/-- Two octets as a word. -/
def wordAt (addr : Octets 16) (i : Nat) : UInt16 :=
  word (addr.bytes.getD i 0) (addr.bytes.getD (i + 1) 0)

/-- Group four. -/
def kindOf (addr : Octets 16) : UInt16 := wordAt addr 6

/-- Groups five and six. -/
def bodyOf (addr : Octets 16) : Octets 4 := ⟨(addr.bytes.drop 8).take 4, by simp⟩

theorem bytesOfWord_wordAt (addr : Octets 16) {i : Nat} (hi : i + 1 < 16) :
    bytesOfWord (wordAt addr i) = (addr.bytes.drop i).take 2 := by
  have hlength := addr.length_eq
  rw [wordAt, bytesOfWord_word, List.getD_eq_getElem _ 0 (by omega),
    List.getD_eq_getElem _ 0 (by omega), List.drop_eq_getElem_cons (by omega),
    List.drop_eq_getElem_cons (by omega)]
  rfl

/-- An address is put together from its own parts. -/
theorem assemble_parts {pfx : Prefix} {addr : Octets 16} (hin : InPrefix pfx addr) :
    assemble pfx (kindOf addr) (bodyOf addr) (lowQuad addr) = addr := by
  apply Octets.ext_bytes
  have hfront : (addr.bytes.drop 6).take 2 ++ (addr.bytes.drop 8).take 4 =
      (addr.bytes.drop 6).take 6 := by
    rw [← List.take_append_drop 2 ((addr.bytes.drop 6).take 6), List.take_take,
      List.drop_take, List.drop_drop]
    rfl
  have hback : addr.bytes.drop 12 = (addr.bytes.drop 6).drop 6 := by rw [List.drop_drop]
  show (pfx.bytes ++ bytesOfWord (kindOf addr) ++ (addr.bytes.drop 8).take 4) ++
    addr.bytes.drop 12 = addr.bytes
  rw [kindOf, bytesOfWord_wordAt addr (by omega), ← hin, List.append_assoc _ _ (List.take 4 _),
    hfront, List.append_assoc, hback, List.take_append_drop,
    List.take_append_drop]

section Parts

variable (pfx : Prefix) (kind : UInt16) (body low : Octets 4)

theorem parts_assemble : kindOf (assemble pfx kind body low) = kind ∧
    bodyOf (assemble pfx kind body low) = body ∧
    lowQuad (assemble pfx kind body low) = low := by
  have hparts := congrArg Octets.bytes (assemble_parts (inPrefix_assemble pfx kind body low))
  obtain ⟨hhead, hlow⟩ := List.append_inj hparts (by simp)
  obtain ⟨-, hkind, hbody⟩ := assemble_head_inj.mp hhead
  exact ⟨hkind, hbody, Octets.ext_bytes hlow⟩

@[simp] theorem kindOf_assemble : kindOf (assemble pfx kind body low) = kind :=
  (parts_assemble pfx kind body low).1

@[simp] theorem bodyOf_assemble : bodyOf (assemble pfx kind body low) = body :=
  (parts_assemble pfx kind body low).2.1

@[simp] theorem lowQuad_assemble : lowQuad (assemble pfx kind body low) = low :=
  (parts_assemble pfx kind body low).2.2

end Parts

/-- The site id in a body. -/
def siteIn (body : Octets 4) : UInt16 := word (body.bytes.getD 2 0) (body.bytes.getD 3 0)

@[simp] theorem siteIn_siteBody (site : UInt16) : siteIn (siteBody site) = site := by
  apply bytesOfWord_inj.mp
  rw [siteIn, bytesOfWord_word]
  rfl

/-- The principal an address belongs to, if it is one's. -/
def Principal.read (pfx : Prefix) (addr : Octets 16) : Option Principal :=
  if InPrefix pfx addr then
    if kindOf addr = kindSite ∧ bodyOf addr = siteBody (siteIn (bodyOf addr)) then
      some (.tenant (siteIn (bodyOf addr)) (lowQuad addr))
    else if kindOf addr = kindVpce then some (.stranger (bodyOf addr) (lowQuad addr))
    else if kindOf addr = kindAddr ∧ bodyOf addr = zeroQuad then
      some (.client4 (lowQuad addr))
    else none
  else some (.client6 addr)

/-- No client spells an address of the table's own. -/
def Principal.Proper (pfx : Prefix) : Principal → Prop
  | .tenant _ _ => True
  | .stranger _ _ => True
  | .client4 _ => True
  | .client6 addr => ¬ InPrefix pfx addr

theorem read_addr {pfx : Prefix} {p : Principal} (hproper : p.Proper pfx) :
    Principal.read pfx (p.addr pfx) = some p := by
  obtain ⟨hsv, hsa, hva⟩ := kinds_apart
  cases p with
  | tenant site machine => simp [Principal.read, Principal.addr]
  | stranger hash machine => simp [Principal.read, Principal.addr, hsv.symm]
  | client4 quad => simp [Principal.read, Principal.addr, hsa.symm, hva.symm]
  | client6 addr => simp [Principal.read, Principal.addr, show ¬ InPrefix pfx addr from hproper]

theorem addr_of_read {pfx : Prefix} {addr : Octets 16} {p : Principal}
    (hread : Principal.read pfx addr = some p) : p.addr pfx = addr ∧ p.Proper pfx := by
  unfold Principal.read at hread
  split_ifs at hread with hin hsite hvpce hclient
  · cases hread
    rw [Principal.addr, ← hsite.2, ← hsite.1, assemble_parts hin]
    exact ⟨rfl, trivial⟩
  · cases hread
    rw [Principal.addr, ← hvpce, assemble_parts hin]
    exact ⟨rfl, trivial⟩
  · cases hread
    rw [Principal.addr, ← hclient.2, ← hclient.1, assemble_parts hin]
    exact ⟨rfl, trivial⟩
  · cases hread
    exact ⟨rfl, hin⟩

section Headers

variable [Sha256] {sch sch' : Scheme} {h h' : Ppv2.Header}

theorem proper_of_iff :
    (Principal.of sch h).Proper sch.pfx ↔ ¬ (PassesThrough sch h ∧ InPrefix sch.pfx h.src) := by
  unfold Principal.of
  cases hsite : siteOf sch h with
  | some m => simp [Principal.Proper, PassesThrough, hsite]
  | none =>
      by_cases hvpce : h.vpce = []
      · cases hv6 : h.isV6 with
        | true => simp [Principal.Proper, PassesThrough, hsite, hvpce, hv6]
        | false => simp [Principal.Proper, PassesThrough, hvpce, hv6]
      · simp [Principal.Proper, PassesThrough, hvpce]

theorem read_synthesize (hproper : ¬ (PassesThrough sch h ∧ InPrefix sch.pfx h.src)) :
    Principal.read sch.pfx (synthesize sch h) = some (Principal.of sch h) := by
  rw [synthesize_eq_addr]
  exact read_addr (proper_of_iff.mpr hproper)

/-- One identity is one principal, under tables that share the prefix. -/
theorem synthesize_eq_iff (hpfx : sch'.pfx = sch.pfx)
    (hproper : ¬ (PassesThrough sch h ∧ InPrefix sch.pfx h.src))
    (hproper' : ¬ (PassesThrough sch' h' ∧ InPrefix sch'.pfx h'.src)) :
    synthesize sch h = synthesize sch' h' ↔ Principal.of sch h = Principal.of sch' h' := by
  constructor
  · intro hsame
    have hread := read_synthesize hproper
    rw [hsame, ← hpfx, read_synthesize hproper', Option.some.injEq] at hread
    exact hread.symm
  · intro hsame
    rw [synthesize_eq_addr, synthesize_eq_addr, hsame, hpfx]

/-- An identity tells who calls.  It reads back into the principal of its
header unless an unclaimed IPv6 client states a source inside the /48; apart
from those, two headers have one identity exactly when they have one
principal, also under two tables that share the prefix. -/
theorem identity_names_principal (sch : Scheme) (h : Ppv2.Header) :
    (Principal.read sch.pfx (synthesize sch h) = some (Principal.of sch h) ↔
      ¬ (PassesThrough sch h ∧ InPrefix sch.pfx h.src)) ∧
    ∀ (sch' : Scheme) (h' : Ppv2.Header), sch'.pfx = sch.pfx →
      ¬ (PassesThrough sch h ∧ InPrefix sch.pfx h.src) →
      ¬ (PassesThrough sch' h' ∧ InPrefix sch'.pfx h'.src) →
      (synthesize sch h = synthesize sch' h' ↔ Principal.of sch h = Principal.of sch' h') := by
  constructor
  · exact ⟨fun hread => proper_of_iff.mp (addr_of_read hread).2, read_synthesize⟩
  · exact fun _ _ hpfx hproper hproper' => synthesize_eq_iff hpfx hproper hproper'

end Headers

namespace PrincipalWitness

open MeetingWitness (endpointDigest table claimedSource)

/-- A caller behind the NAT of site 2 reads back as site 2, machine unknown. -/
theorem identity_names_principal_nat :
    Principal.read table.pfx (@synthesize endpointDigest table claimedSource) =
      some (.tenant 2 zeroQuad) := by
  have hprincipal : @Principal.of endpointDigest table claimedSource =
      .tenant 2 zeroQuad := by decide +kernel
  rw [← hprincipal]
  exact (@identity_names_principal endpointDigest table claimedSource).1.mpr
    (by decide +kernel)

end PrincipalWitness

end Identity

end Ppv2Auth
