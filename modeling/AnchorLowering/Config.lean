import AnchorLowering.Json.Basic

/-!
# Options

The options of a lowering run.
-/

namespace AnchorLowering

structure Config where
  /-- Heap collections in bodies become fixed arrays. -/
  noAlloc : Bool
  lazyEntrypoint : Bool
  /-- Transfers out of accounts that the program owns are written in place. -/
  inlineCpi : Bool
  /-- Discriminators derive from the names of the instructions. -/
  anchorCompat : Bool
  /-- Log calls are removed. -/
  noLogs : Bool
  /-- Accepted without effect. -/
  unsafeMath : Bool
  /-- The number of workers, if one is asked for. -/
  maxWorkers : Option Int
  deriving DecidableEq

namespace Config

/-- The options when none is given. -/
def standard : Config := ⟨false, false, false, true, false, false, none⟩

/-- The number of workers that is asked for, at least one. -/
def workers? (c : Config) : Option Int := c.maxWorkers.map (max 1)

def toJson (c : Config) : Json :=
  .object
    [("no_alloc", .bool c.noAlloc), ("lazy_entrypoint", .bool c.lazyEntrypoint),
     ("inline_cpi", .bool c.inlineCpi), ("anchor_compat", .bool c.anchorCompat),
     ("no_logs", .bool c.noLogs), ("unsafe_math", .bool c.unsafeMath),
     ("max_workers", (c.maxWorkers.map Json.int).getD .null)]

end Config

end AnchorLowering
