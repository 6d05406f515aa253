/-!
# Standard host functions

The functions that every machine offers to scripts. They have fixed numbers, and functions that
the embedder registers are numbered after them.
-/

namespace SwarmVm

/-- The standard host functions, in the order of their numbers. -/
inductive Primitive where
  | log
  | neighborsBroadcast | neighborsListen | neighborsIgnore
  | neighborsGet | neighborsForeach | neighborsMap | neighborsReduce | neighborsFilter
  | neighborsCount | neighborsKin | neighborsNonkin
  | derivedGet | derivedForeach | derivedMap | derivedReduce | derivedFilter
  | derivedCount | derivedKin | derivedNonkin
  | stigmergyCreate | stigmergyPut | stigmergyGet | stigmergySize
  | stigmergyOnconflict | stigmergyOnconflictlost
  | swarmCreate | swarmJoin | swarmLeave | swarmIn | swarmSelect | swarmExec
deriving DecidableEq, Repr

namespace Primitive

/-- All standard host functions, in the order of their numbers. -/
def all : List Primitive :=
  [log, neighborsBroadcast, neighborsListen, neighborsIgnore, neighborsGet, neighborsForeach,
    neighborsMap, neighborsReduce, neighborsFilter, neighborsCount, neighborsKin, neighborsNonkin,
    derivedGet, derivedForeach, derivedMap, derivedReduce, derivedFilter, derivedCount, derivedKin,
    derivedNonkin, stigmergyCreate, stigmergyPut, stigmergyGet, stigmergySize,
    stigmergyOnconflict, stigmergyOnconflictlost, swarmCreate, swarmJoin, swarmLeave, swarmIn,
    swarmSelect, swarmExec]

/-- How many standard host functions there are. -/
def total : Nat := all.length

/-- The number of a standard host function. -/
def functionId (p : Primitive) : UInt16 := UInt16.ofNat p.ctorIdx

/-- The standard host function with a number. -/
def ofId? (id : UInt16) : Option Primitive := all[id.toNat]?

/-- The name of a standard host function. -/
def name : Primitive → String
  | log => "log"
  | neighborsBroadcast => "neighbors.broadcast"
  | neighborsListen => "neighbors.listen"
  | neighborsIgnore => "neighbors.ignore"
  | neighborsGet => "neighbors.get"
  | neighborsForeach => "neighbors.foreach"
  | neighborsMap => "neighbors.map"
  | neighborsReduce => "neighbors.reduce"
  | neighborsFilter => "neighbors.filter"
  | neighborsCount => "neighbors.count"
  | neighborsKin => "neighbors.kin"
  | neighborsNonkin => "neighbors.nonkin"
  | derivedGet => "derived.get"
  | derivedForeach => "derived.foreach"
  | derivedMap => "derived.map"
  | derivedReduce => "derived.reduce"
  | derivedFilter => "derived.filter"
  | derivedCount => "derived.count"
  | derivedKin => "derived.kin"
  | derivedNonkin => "derived.nonkin"
  | stigmergyCreate => "stigmergy.create"
  | stigmergyPut => "stigmergy.put"
  | stigmergyGet => "stigmergy.get"
  | stigmergySize => "stigmergy.size"
  | stigmergyOnconflict => "stigmergy.onconflict"
  | stigmergyOnconflictlost => "stigmergy.onconflictlost"
  | swarmCreate => "swarm.create"
  | swarmJoin => "swarm.join"
  | swarmLeave => "swarm.leave"
  | swarmIn => "swarm.in"
  | swarmSelect => "swarm.select"
  | swarmExec => "swarm.exec"

end Primitive

end SwarmVm
