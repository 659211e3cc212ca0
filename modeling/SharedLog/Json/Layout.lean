import SharedLog.Json.Form
import SharedLog.Layout

/-!
The JSON form of a layout, which is also what a layout file holds. The list of nodes that do not answer may
be missing.
-/

namespace SharedLog

open Json (need orElse)

instance : JsonForm Segment where
  toJson s :=
    .ofFields [("start", toJson s.start), ("end", toJson s.stop), ("log_servers", toJson s.logServers)]
  ofJson? j := do
    let [start, stop, logServers] ← j.record? ["start", "end", "log_servers"] | none
    return ⟨← need start, ← need stop, ← need logServers⟩

instance : JsonForm Layout where
  toJson l :=
    .ofFields [("epoch", toJson l.epoch), ("layout_servers", toJson l.layoutServers),
      ("sequencers", toJson l.sequencers), ("segments", toJson l.segments),
      ("unresponsive_servers", toJson l.unresponsive)]
  ofJson? j := do
    let [epoch, layoutServers, sequencers, segments, unresponsive] ←
      j.record? ["epoch", "layout_servers", "sequencers", "segments", "unresponsive_servers"] | none
    return ⟨← need epoch, ← need layoutServers, ← need sequencers, ← need segments,
      ← orElse [] unresponsive⟩

end SharedLog
