import Distlib.Core.Id

/-!
# What a group decides once

The settings a group is founded with, for good: how many copies it keeps, how
a pledge weighs, how long a proposal waits. The fields that the program types
as non-zero are `ℕ+` here, so settings with a zero expiry or a zero weight
step cannot be written down. `check` is the one rule between fields.
-/

namespace Distlib

/-- How a pledge becomes a weight: nothing below the minimum, capped, and
rounded down to a step. -/
structure WeightRule where
  /-- the most a pledge weighs -/
  capBytes : ℕ
  /-- weights are multiples of this; zero rounds nothing -/
  stepBytes : ℕ
  /-- a pledge below this weighs nothing -/
  minBytes : ℕ
  deriving DecidableEq, Repr

/-- The weight of a member pledging `pledgeBytes`. -/
def WeightRule.weight (rule : WeightRule) (pledgeBytes : ℕ) : ℕ :=
  if pledgeBytes < rule.minBytes then 0
  else
    let capped := min pledgeBytes rule.capBytes
    match rule.stepBytes with
    | 0 => capped
    | step => capped - capped % step

/-- What the group decided at founding. -/
structure GroupSettings where
  /-- copies kept of each item, the creator's included -/
  replicas : ℕ+
  /-- the most a pledge weighs -/
  capBytes : ℕ
  /-- weights move in steps of this -/
  weightStepBytes : ℕ+
  /-- the least a member may pledge -/
  minPledgeBytes : ℕ
  /-- how far the log may move on before a waiting proposal is dropped -/
  pendingExpiry : ℕ+
  /-- how long the membership must stay unchanged before custody follows it -/
  settleSecs : ℕ
  /-- the longest custody waits for the membership to settle -/
  maxSettleSecs : ℕ
  /-- how long an item may have one live copy before an emergency copy -/
  emergencyAfterSecs : ℕ
  /-- the least a member may limit its transfers to, in bytes per second -/
  minTransferRate : ℕ
  /-- whether members probe each other's custody -/
  probes : Bool
  /-- how often one member makes a probe -/
  probeEverySecs : ℕ+
  /-- how long a recorded probe failure counts -/
  failureWindowSecs : ℕ
  deriving DecidableEq

namespace GroupSettings

/-- One gigabyte, decimal. -/
def GB : ℕ := 1000000000

/-- One hour, in seconds. -/
def HOUR : ℕ := 60 * 60

/-- One day, in seconds. -/
def DAY : ℕ := 24 * HOUR

instance : Inhabited GroupSettings where
  default :=
    { replicas := 3
      capBytes := 2000 * GB
      weightStepBytes := ⟨10 * GB, by decide⟩
      minPledgeBytes := 100 * GB
      pendingExpiry := 128
      settleSecs := HOUR
      maxSettleSecs := DAY
      emergencyAfterSecs := DAY
      minTransferRate := 1000000
      probes := true
      probeEverySecs := 300
      failureWindowSecs := 7 * DAY }

/-- Refuses settings that contradict each other, naming what is wrong. -/
def check (settings : GroupSettings) : Except String Unit :=
  if (settings.weightStepBytes : ℕ) > settings.capBytes then
    .error "weight_step_bytes is larger than cap_bytes, so every member weighs nothing"
  else if settings.settleSecs > settings.maxSettleSecs then
    .error "settle_secs is longer than max_settle_secs"
  else .ok ()

/-- The defaults pass their own check. -/
theorem check_default : (default : GroupSettings).check = .ok () := by
  decide +kernel

end GroupSettings

end Distlib
