/-
Two config shapes and one identity table.  A table carries the scheme and the
groups; rules are kept raw and expanded against whatever table is published,
with the expansion cached under the generation it was made for.  The lock
protected sections of `permits` are functions of their own.
-/
import Ppv2Auth.Graph
import Ppv2Auth.Identity.Synthesis

namespace Ppv2Auth

open Rust Identity

structure Table where
  scheme : Scheme
  groups : Graph

section Resolve

variable [Sha256]

/-- The texts one literal compiles to: `!*` is the one member with many. -/
def Table.encode (t : Table) (member : Bytes) : List Bytes :=
  if member = ascii "!*" then encodeAllSites t.scheme
  else [encodeMember t.scheme member]

def Table.resolve (t : Table) (list : List Bytes) : Except String Cidr.Set :=
  Cidr.buildFrom ((t.groups.resolve list).flatMap t.encode)

end Resolve

/-- The cell behind `publish` and `published`: no table until a carrier
lands. -/
structure Published where
  generation : UInt64
  table : Option Table

def Published.initial : Published := ⟨0, none⟩

def Published.publish (cell : Published) (table : Table) : Published :=
  ⟨cell.generation + 1, some table⟩

/-- One `sni` entry, lowercased. -/
inductive Pattern where
  | exact (name : Bytes)
  | suffix (name : Bytes)
deriving DecidableEq

/-- Only a whole leading `*.` is a wildcard. -/
def Pattern.parse (text : Bytes) : Pattern :=
  let lower := text.map asciiLower
  match stripPrefix (ascii "*.") lower with
  | some rest => if rest ≠ [] then .suffix rest else .exact lower
  | none => .exact lower

/-- Several hostnames sharing one allowlist. -/
structure Scope where
  names : List Pattern
  allow : Cidr.Set

/-- Rules expanded against one table. -/
structure Judged where
  allow : Cidr.Set
  /-- `none` is flat mode, `some []` claims nothing. -/
  scopes : Option (List Scope)

def Judged.denyAll (hasScopes : Bool) : Judged :=
  ⟨Cidr.Set.default, if hasScopes then some [] else none⟩

/-- The server name is folded; a pattern is stored folded. -/
def eqFold (pat sni : Bytes) : Bool :=
  pat.length = sni.length ∧
    (pat.zip sni).all fun (p, s) => p = asciiLower s

def Pattern.isExactFor (sni : Bytes) : Pattern → Bool
  | .exact name => eqFold name sni
  | .suffix _ => false

def Pattern.isSuffixFor (rest : Bytes) : Pattern → Bool
  | .exact _ => false
  | .suffix name => eqFold name rest

/-- The wildcard loop: what is left after each dot, longest first. -/
def matchSuffixes (scopes : List Scope) : Bytes → Option Cidr.Set
  | [] => none
  | b :: rest =>
      if b = 46 then
        match scopes.find? fun s => s.names.any (·.isSuffixFor rest) with
        | some s => some s.allow
        | none => matchSuffixes scopes rest
      else matchSuffixes scopes rest

/-- Exact names first, then wildcards. -/
def matchScopes (scopes : List Scope) (sni : Bytes) : Option Cidr.Set :=
  match scopes.find? fun s => s.names.any (·.isExactFor sni) with
  | some s => some s.allow
  | none => matchSuffixes scopes sni

/-- Deny by default: false unless a list covers the identity. -/
def Judged.permits (j : Judged) (sni : Bytes) (addr : U128) : Bool :=
  let set := match j.scopes with
    | none => some j.allow
    | some list => matchScopes list sni
  set.any (·.contains addr)

/-- What an enforcing filter is configured with. -/
structure Rules where
  rawAllow : List Bytes
  rawScopes : Option (List (List Pattern × List Bytes))

/-- Rules with their cached expansion. -/
structure Config where
  rules : Rules
  cache : UInt64 × Judged

section Permits

variable [Sha256]

/-- The pure expansion. -/
def Rules.judgeAgainst (r : Rules) (t : Table) : Except String Judged := do
  let allow ← t.resolve r.rawAllow
  let scopes ← match r.rawScopes with
    | none => .ok none
    | some list =>
        (list.mapM fun (names, raw) => do
          let allow ← t.resolve raw
          return (⟨names, allow⟩ : Scope)).map some
  return ⟨allow, scopes⟩

/-- The expansion against what was published, deny-all where there is none. -/
def Rules.expand (r : Rules) : Option Table → Judged
  | some t =>
      match r.judgeAgainst t with
      | .ok j => j
      | .error _ => .denyAll r.rawScopes.isSome
  | none => .denyAll r.rawScopes.isSome

/-- The comparison under the read lock. -/
def Config.isStale (c : Config) (generation : UInt64) : Bool :=
  c.cache.1 ≠ generation

/-- The section under the write lock: another worker may have been faster. -/
def Config.rebuild (c : Config) (generation : UInt64) (table : Option Table) :
    Config :=
  if c.cache.1 ≠ generation then
    { c with cache := (generation, c.rules.expand table) }
  else c

/-- The last section: read the cache and judge. -/
def Config.judge (c : Config) (sni : Bytes) (addr : U128) : Bool :=
  c.cache.2.permits sni addr

/-- A whole call with nothing in between its sections. -/
def Config.permits (c : Config) (cell : Published) (sni : Bytes) (addr : U128) :
    Config × Bool :=
  let c := if c.isStale cell.generation then
      c.rebuild cell.generation cell.table
    else c
  (c, c.judge sni addr)

def Config.permitsUnscoped (c : Config) (cell : Published) (addr : U128) :
    Config × Bool :=
  c.permits cell [] addr

end Permits

def Rules.hasAllow (r : Rules) : Bool := r.rawAllow ≠ []

def Rules.hasScopes (r : Rules) : Bool := r.rawScopes.isSome

/-- A scope with no name can never match. -/
def Rules.hasNamelessScope (r : Rules) : Bool :=
  (r.rawScopes.getD []).any (·.1 = [])

def validatePpv2 (r : Rules) : Except String Unit :=
  if r.hasAllow ∨ r.hasScopes then
    .error "`ppv2` takes no rules; use `ppv2_auth` to also enforce"
  else .ok ()

def validatePpv2Auth (r : Rules) : Except String Unit :=
  if r.hasScopes then
    .error "`ppv2_auth` runs before tls_inspector, so there is no SNI yet; use `auth`"
  else .ok ()

def validateAuth (r : Rules) : Except String Unit :=
  if ¬ r.hasScopes then .error "`auth` needs `scopes`"
  else if r.hasAllow then
    .error "`auth` ignores a top-level `allow`; put those rules in a scope"
  else if r.hasNamelessScope then .error "a scope needs at least one `sni`"
  else .ok ()

structure RawScope where
  sni : List Bytes
  allow : List Bytes

/-- What the JSON reader makes of a rules config. -/
structure RawRules where
  allow : List Bytes
  scopes : Option (List RawScope)

/-- What the JSON reader makes of a table config; the maps are sorted. -/
structure RawTable where
  ula : Bytes
  sites : Std.TreeMap Bytes (List Bytes)
  groups : Std.TreeMap Bytes (List Bytes)

/-- `u64::MAX`, taken to be no generation. -/
def noGeneration : UInt64 := UInt64.ofNat (2 ^ 64 - 1)

/-- A rules config.  The generation is stale on arrival, so the first call
expands against whatever is published by then. -/
def Config.ofRaw (raw : RawRules) : Config where
  rules := {
    rawAllow := raw.allow
    rawScopes := raw.scopes.map fun list =>
      list.map fun s => (s.sni.map Pattern.parse, s.allow) }
  cache := (noGeneration, .denyAll raw.scopes.isSome)

/-- The reader is a library of its own, so it is a parameter. -/
def Config.parse (fromStr : Bytes → Except String RawRules) (text : Bytes) :
    Except String Config :=
  (fromStr text).map Config.ofRaw

/-- Why a table is rejected; the offending text is kept for the message. -/
inductive TableError where
  | json (message : String)
  | ula (message : String)
  /-- `site key {key:?} is not 1-65535` -/
  | siteKey (key : Bytes)
  /-- `bad prefix length in site source {member:?}` -/
  | badLength (member : Bytes)
  /-- `prefix length above /32 in site source {member:?}` -/
  | lengthAbove32 (member : Bytes)
  | cidr (message : String)
deriving DecidableEq

/-- An address becomes a prefix text, anything else is an endpoint id. -/
def classify (member : Bytes) : Except TableError (Option Bytes) := do
  let (addr, width) ← match splitOnce 47 member with
    | some (a, w) =>
        match parseU8 w with
        | some bits => .ok (a, some bits)
        | none => .error (.badLength member)
    | none => .ok (member, none)
  match parseIpv4 addr with
  | some v4 =>
      let bits := width.getD 32
      if bits > 32 then .error (.lengthAbove32 member)
      else
        .ok (some (ascii "::ffff:" ++ displayIpv4 v4 ++ 47 :: decimal (96 + bits)))
  | none =>
      match parseIpv6 addr with
      | some v6 => .ok (some (cidrText v6 (width.getD 128)))
      | none => .ok none

/-- One entry of the sites map. -/
def buildSite (key : Bytes) (sources : List Bytes) : Except TableError Site := do
  let id ← match (parseU16 key).filter (· ≠ 0) with
    | some id => .ok id
    | none => .error (.siteKey key)
  let kept := (sources.map trim).filter (· ≠ [])
  let classified ← kept.mapM fun m => (classify m).map fun c => (m, c)
  let cidrs ← (Cidr.buildFrom (classified.filterMap Prod.snd)).mapError .cidr
  return {
    id
    vpce := (classified.filter (·.2 = none)).map Prod.fst
    cidrs }

def buildSites (raw : Std.TreeMap Bytes (List Bytes)) :
    Except TableError (List Site) :=
  raw.toList.mapM fun (key, sources) => buildSite key sources

/-- The carrier's config. -/
def parseTable (fromStr : Bytes → Except String RawTable) (text : Bytes) :
    Except TableError Table := do
  let raw ← (fromStr text).mapError .json
  let pfx ← (parsePrefix raw.ula).mapError .ula
  let sites ← buildSites raw.sites
  return {
    scheme := Scheme.new pfx sites
    groups := raw.groups.foldl Graph.upsert Graph.default }

end Ppv2Auth
