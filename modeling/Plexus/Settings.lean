/-!
# Settings

How an engine is tuned. Every setting has a default; not every value is allowed.
-/

namespace Plexus

/-- How traversals are carried out; no setting changes what they find. -/
structure TraversalSettings where
  /-- Rows of a relation from which on a hop is worked out once for all rows. -/
  parallelThreshold : Nat := 4096
  /-- Rows whose traversals start together. -/
  batchSize : Nat := 1024
  deriving DecidableEq, Repr

/-- How snapshots are written. -/
structure SnapshotSettings where
  /-- The body is compressed. -/
  compress : Bool := false
  /-- Effort of compression, from 0 to 9. -/
  compressionLevel : Nat := 6
  deriving DecidableEq, Repr

/-- All settings of an engine. -/
structure Settings where
  traversal : TraversalSettings := {}
  snapshot : SnapshotSettings := {}
  deriving DecidableEq, Repr

/-- Why settings are refused. -/
inductive SettingsFault where
  /-- The settings file cannot be read. -/
  | unreadable
  /-- The text is not a settings document. -/
  | malformed
  | emptyBatch
  | levelTooHigh (level : Nat)
  deriving DecidableEq, Repr

/-- The text of a refusal that is about a value. -/
def SettingsFault.message? : SettingsFault → Option String
  | unreadable | malformed => none
  | emptyBatch => some "invalid config value for traversal.batch_size: must be at least 1"
  | levelTooHigh level =>
    some s!"invalid config value for snapshot.compression_level: {level} is above 9"

namespace Settings

/-- The settings, if their values are allowed. -/
def checked (s : Settings) : Except SettingsFault Settings :=
  if s.traversal.batchSize = 0 then .error .emptyBatch
  else if 9 < s.snapshot.compressionLevel then .error (.levelTooHigh s.snapshot.compressionLevel)
  else .ok s

end Settings

end Plexus
