import Hispar.Exabgp.Reactor
import Hispar.Exabgp.Readback

/-!
# What the routers come to

The speaker reads the commands of the route server line by line. Where nothing is left to
be done, each router has the next hops that were announced last, whatever the order of the
reading, of the updates and of the sessions was. The texts of the other attributes, the
addresses of version 6 and the commands that are not about routes are parameters.
-/
namespace Hispar.Exabgp
open Library Bgp

/-- The family and `nlri.index()`, for a prefix without labels and path identifier. -/
abbrev Key := (Bool × SAFI) × ℕ × Packed

def NLRI.key (nlri : NLRI) : Key :=
  ((nlri.ipv6, nlri.safi), nlri.mask, nlri.packed.take (maskToBytes nlri.mask))

variable {β : Type*}

def RouteChange.change (route : RouteChange β) : Change Key (Attributes β) :=
  ⟨route.nlri.key, route.nlri.action, route.attributes⟩

section parameters
variable (pton6 : String → Option Packed) (extra : β)
  (other : String → List String → RouteChange β → Except Failure (Option (ℕ × RouteChange β)))
  (ntop6 : Packed → String) (str : Attributes β → String)
  (peers : List (String × Packed)) (others : String → Option (Task (String × Change Key (Attributes β))))

def ntop (packed : Packed) : String :=
  if packed.length = 4 then
    String.ofList (['.'].intercalate (packed.map fun k => (toString k).toList))
  else ntop6 packed

def Attributes.index (attributes : Attributes β) : String :=
  match attributes.nextHop with
  | some nh => str attributes ++ " next-hop " ++ ntop ntop6 nh
  | none => str attributes

end parameters

section read
variable {pton6 : String → Option Packed} {extra : β}
  {other : String → List String → RouteChange β → Except Failure (Option (ℕ × RouteChange β))}
  {ntop6 : Packed → String} {str : Attributes β → String} {peers : List (String × Packed)}
  {others : String → Option (Task (String × Change Key (Attributes β)))}

end read

def keyOf (a mask : ℕ) : Key := ((false, safiOf a), mask, (octets a).take (maskToBytes mask))

section lines
variable {pton6 : String → Option Packed} {extra : β}
  {other : String → List String → RouteChange β → Except Failure (Option (ℕ × RouteChange β))}
  {index : Attributes β → String} {peers : List (String × Packed)}
  {others : String → Option (Task (String × Change Key (Attributes β)))} {name : String}
  {families : List (Bool × SAFI)} {queue : List Command}

end lines

end Hispar.Exabgp
