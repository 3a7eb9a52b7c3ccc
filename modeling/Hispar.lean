import Hispar.Library.Atoms
import Hispar.Library.Splitting
import Hispar.Library.Dictionary
import Hispar.Library.Runs
import Hispar.Library.Offers
import Hispar.Library.PacketPolicy
import Hispar.Library.Occurrences
import Hispar.Library.Texts
import Hispar.Library.Channels
import Hispar.SetOperations.Decompose
import Hispar.SetOperations.Lists
import Hispar.SetOperations.Parallel
import Hispar.SetOperations.Termination
import Hispar.SetOperations.LcsParallel
import Hispar.SetOperations.Names
import Hispar.SetOperations.Fewest
import Hispar.SetOperations.Multiprocess
import Hispar.SetOperations.Recompute
import Hispar.VnhAssignment.Tables
import Hispar.VnhAssignment.Groups
import Hispar.VnhAssignment.Assignment
import Hispar.VnhAssignment.NextHops
import Hispar.VnhAssignment.Matches
import Hispar.VnhAssignment.Guards
import Hispar.Bgp.Rib
import Hispar.Bgp.BestPath
import Hispar.Bgp.Selection
import Hispar.Bgp.Peer
import Hispar.Bgp.DecisionProcess
import Hispar.Bgp.RouteServer
import Hispar.Bgp.LocalRoutes
import Hispar.Bgp.Commands
import Hispar.Bgp.Ties
import Hispar.Bgp.Iterations
import Hispar.Bgp.Trigger
import Hispar.Bgp.Release
import Hispar.Bgp.Relay
import Hispar.Exchange.Config
import Hispar.Bgp.Interface
import Hispar.Exchange.Composition
import Hispar.Exchange.Policy
import Hispar.Exchange.Traces
import Hispar.Exchange.Forwarding
import Hispar.VnhAssignment.Collect
import Hispar.VnhAssignment.Expand
import Hispar.VnhAssignment.StatePorts
import Hispar.VnhAssignment.StateRules
import Hispar.VnhAssignment.Restore
import Hispar.VnhAssignment.AddressPool
import Hispar.VnhAssignment.Lookup
import Hispar.VnhAssignment.Tags
import Hispar.Bgp.Announcements
import Hispar.Bgp.AsPaths
import Hispar.Bgp.MixedUpdates
import Hispar.Bgp.Sources
import Hispar.Exchange.Maps
import Hispar.PolicyParser.Match
import Hispar.PolicyParser.Generator
import Hispar.Exchange.Arp
import Hispar.Pending.ByteCounter
import Hispar.VnhAssignment.Pipeline
import Hispar.Exabgp.Store
import Hispar.Exabgp.Session
import Hispar.Exabgp.Convergence
import Hispar.Exabgp.ApiRoutes
import Hispar.Exabgp.Readback
import Hispar.Exabgp.Reactor
import Hispar.Exabgp.Routers
