/-
What a filter sees of its host and what it asks of it.  One callback finds a
buffer, a published table and an answer to each call it may make; what it asks
is recorded in order.
-/
import Ppv2Auth.Config

namespace Ppv2Auth

namespace Filters

open Rust Identity

/-- The filter status; `StopIteration` means both waiting and refused. -/
inductive Status where
  | continueIteration
  | stopIteration
deriving Repr, DecidableEq

/-- Counter ids, resolved once; `none` where registration was skipped. -/
structure Counters where
  allowed : Option Nat
  denied : Option Nat
  notPpv2 : Option Nat
deriving Repr, DecidableEq

/-- The names carry the filter's, since all filters share one namespace. -/
def Counters.register (filterName : Bytes) (define : Bytes → Option Nat) :
    Counters where
  allowed := define (filterName ++ ascii "_allowed")
  denied := define (filterName ++ ascii "_denied")
  notPpv2 := define (filterName ++ ascii "_not_ppv2")

/-- The calls a filter makes on its host. -/
inductive EnvoyCall where
  | setRemoteAddress (text : Bytes) (port : UInt32) (isIpv6 : Bool)
  | setDynamicMetadataString (namespaceName key : String) (value : Bytes)
  | drainBuffer (len : Nat)
  | incrementCounter (id amount : Nat)
  | setDownstreamTransportFailureReason (reason : String)
  | continueFilterChain (success : Bool)
  | setDatagramData (data : Bytes)
deriving DecidableEq

def bump (id : Option Nat) : List EnvoyCall :=
  match id with
  | some id => [.incrementCounter id 1]
  | none => []

/-- The call takes bytes off the connection. -/
def EnvoyCall.isDrain : EnvoyCall → Bool
  | .drainBuffer _ => true
  | _ => false

/-- The socket is closed. -/
def EnvoyCall.isClose : EnvoyCall → Bool
  | .continueFilterChain false => true
  | _ => false

/-- What one callback leaves: the filter, the calls made and the status. -/
structure Outcome (σ : Type) where
  filter : σ
  calls : List EnvoyCall
  status : Status

/-- A callback up to the point where it judges an identity, if it does.  What
was done before stays done, whatever the judgement. -/
inductive Examined (σ : Type) where
  | settled (outcome : Outcome σ)
  | judge (id : U128) (calls : List EnvoyCall)

end Filters

end Ppv2Auth
