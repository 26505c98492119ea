/-
The group graph behind `@refs`.  The walk keeps the groups it has opened; a
group met again is skipped, so a cycle ends, and an unknown reference falls
through as a literal.
-/
import Ppv2Auth.Rust.Text

namespace Ppv2Auth

open Rust

structure Graph where
  groups : Std.TreeMap Bytes (List Bytes)

namespace Graph

def default : Graph := ⟨∅⟩

/-- Insert or replace a group; any member list is accepted. -/
def upsert (g : Graph) (name : Bytes) (members : List Bytes) : Graph :=
  ⟨g.groups.insert name members⟩

/-- The literals collected and the groups opened. -/
structure Walk where
  out : List Bytes
  seen : List Bytes

/-- One member.  Every nested level opens one more group, so one more than the
number of groups is fuel enough. -/
def walk (g : Graph) : Nat → Walk → Bytes → Walk
  | 0, w, _ => w
  | fuel + 1, w, member =>
      match stripPrefix [64] member with
      | some name =>
          match g.groups[name]? with
          | some members =>
              if name ∈ w.seen then w
              else members.foldl (g.walk fuel) { w with seen := name :: w.seen }
          | none => { w with out := w.out ++ [member] }
      | none => { w with out := w.out ++ [member] }

/-- The literals reachable from the entry, duplicates left in. -/
def resolve (g : Graph) (entry : List Bytes) : List Bytes :=
  (entry.foldl (g.walk (g.groups.size + 1)) ⟨[], []⟩).out

end Graph

end Ppv2Auth
