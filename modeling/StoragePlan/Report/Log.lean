import StoragePlan.Decimal.Binary64
import StoragePlan.Report.Event

set_option autoImplicit false

namespace StoragePlan

inductive LogLevel
  | debug
  | info
  | warn
deriving DecidableEq

def LogLevel.name : LogLevel → String
  | .debug => "DEBUG"
  | .info => "INFO"
  | .warn => "WARN"

inductive LogValue
  | text (s : String)
  | count (n : Nat)
  | number (x : Binary64)
deriving DecidableEq

structure LogEntry where
  level : LogLevel
  fields : List (String × LogValue)
  message : String
deriving DecidableEq

def Strategy.title : Strategy → String
  | .plain => "Plain"
  | .longestPath => "LongestPath"

/-- Milliseconds as seconds and a part of a second, added up and then scaled, each step rounded. -/
def milliseconds (microseconds : Nat) : Binary64 :=
  let seconds := Binary64.ofNat (microseconds / 1000000)
  let part := (Binary64.ofNat (microseconds % 1000000 * 1000)).dividedBy (.ofNat 1000000000)
  (seconds.plus part).times (.ofNat 1000)

/-- The entry of an event. How long a stage took is told by the clock of the caller, in microseconds. -/
def Event.logEntry (elapsed : Nat) : Event → LogEntry
  | .started net ops staticBlobs =>
    ⟨.info, [("net", .text net), ("ops", .count ops), ("static_blobs", .count staticBlobs)],
      "optimizing blob memory"⟩
  | .experimental stage message => ⟨.warn, [("stage", .text stage.name)], message⟩
  | .ordered ordering order =>
    ⟨.debug, [("ordering", .text ordering.title), ("len", .count order.length)], "linearized ops"⟩
  | .rangesComputed blobs => ⟨.debug, [("blobs", .count blobs)], "computed live ranges"⟩
  | .sharableBlobs count => ⟨.info, [("count", .count count)], "total sharable blobs"⟩
  | .assigned slots sharedSlots =>
    ⟨.debug, [("slots", .count slots), ("shared_slots", .count sharedSlots)],
      "assigned blobs to slots"⟩
  | .remapped blobs shared =>
    ⟨.info, [("remapped", .count blobs), ("shared", .count shared)], "remapping blobs"⟩
  | .stepNetRenamed opType arg =>
    ⟨.debug, [("op_type", .text opType), ("arg", .text arg)], "rewriting nested net"⟩
  | .finished stage footprint =>
    ⟨.info,
      [("stage", .text stage.name), ("elapsed_ms", .number (milliseconds elapsed))] ++
        (match footprint with
          | none => []
          | some footprint =>
            [("baseline_nbytes", .count footprint.baseline.toNat),
             ("optimized_nbytes", .count footprint.optimized.toNat)]),
      "blob memory optimization finished"⟩

end StoragePlan
