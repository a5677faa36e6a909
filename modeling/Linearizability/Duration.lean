import Linearizability.Json.Codec

/-!
# Durations

Whole seconds and the nanoseconds beyond them. When a duration is read, nanoseconds that make up
whole seconds are carried, and a duration that overflows the seconds is refused.
-/

namespace Linearizability

structure Duration where
  secs : UInt64
  nanos : Fin 1000000000
  deriving DecidableEq

namespace Duration

def zero : Duration := ⟨0, 0⟩

def ofSecs (secs : UInt64) : Duration := ⟨secs, 0⟩

def ofNanos? (secs : UInt64) (nanos : UInt32) : Option Duration :=
  let total := secs.toNat + nanos.toNat / 1000000000
  if total < UInt64.size then some ⟨.ofNat total, .ofNat 1000000000 nanos.toNat⟩ else none

open JsonCodec

/-- Other fields than these two are refused. -/
instance : JsonCodec Duration where
  encode d := .obj [("secs", encode d.secs), ("nanos", .int d.nanos.val)]
  decode json := do
    if let .obj fields := json then
      unless fields.all (fun field => field.1 ∈ ["secs", "nanos"]) do none
    let [secs, nanos] ← json.record? ["secs", "nanos"] | none
    ofNanos? (← required secs) (← required nanos)

end Duration
end Linearizability
