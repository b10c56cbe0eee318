import Kollaps.Data
import Kollaps.Lib.KeySet
import Kollaps.Lib.Trace

/-!
# The reporter

It counts what the application sends to each destination, and tells its emulation when that
changes. A send that fails ends the reporter, so every send here succeeds.
-/

namespace Kollaps

open Run Act

namespace Reporter

/-- The fields of the configuration that decide what is sent. -/
structure ReporterConfig where
  percentageVariation : ℚ
  ignoreThreshold : Nat
  killFlowDurationMs : Nat
deriving DecidableEq

/-- In nanoseconds, as the instants are. -/
def ReporterConfig.killFlowDuration (c : ReporterConfig) : Nat := c.killFlowDurationMs * 1000000

structure Message where
  dst : BitVec 32
  throughput : Nat

/-- The throughput to each destination, with the time it was reported. -/
abbrev Usage := KeyMap (BitVec 32) (Nat × Nat)

abbrev OldValues := KeyMap (BitVec 32) Nat

structure UsageAnalyzer where
  usage : Usage
  config : ReporterConfig
  myIp : IpAddr
  oldValues : OldValues

def toIpAddrU32 (mia : BitVec 32) : IpAddr := .v4 mia

namespace UsageAnalyzer

def build (config : ReporterConfig) (ip : IpAddr) : UsageAnalyzer :=
  { usage := KeySet.empty
    config
    myIp := ip
    oldValues := KeySet.empty }

def listenEbpf (u : UsageAnalyzer) (now : Nat) (message : Message) : UsageAnalyzer :=
  if toIpAddrU32 message.dst = u.myIp then u
  else { u with usage := u.usage.put message.dst (message.throughput, now) }

/-- By how much the value has changed, in percent. A new flow counts as changed. -/
def percentageVariation (old : Option Nat) (throughput : Nat) : ℚ :=
  match old with
  | some old => |(old : ℚ) - throughput| / old * 100
  | none => 100

/-- `check_flows` on one entry: the values sent so far, and the entries to remove. -/
def checkEntry (u : UsageAnalyzer) (now : Nat) (s : OldValues × List (BitVec 32))
    (entry : BitVec 32 × Nat × Nat) : Act EmulMessage (OldValues × List (BitVec 32)) := do
  let (oldValues, toRemove) := s
  let (key, throughput, reported) := entry
  if throughput ≤ u.config.ignoreThreshold then pure s
  else if now - reported > u.config.killFlowDuration then
    emit (.flowUpdate ⟨u.myIp, toIpAddrU32 key, none⟩)
    pure (oldValues.remove key, toRemove ++ [key])
  else if percentageVariation (oldValues.lookup key) throughput ≥ u.config.percentageVariation then
    emit (.flowUpdate ⟨u.myIp, toIpAddrU32 key, some throughput⟩)
    pure (oldValues.put key throughput, toRemove)
  else pure s

def checkFlows (it : Iter) (u : UsageAnalyzer) (now : Nat) : Act EmulMessage UsageAnalyzer := do
  let (oldValues, toRemove) ← (it.order u.usage.elems).foldlM (u.checkEntry now) (u.oldValues, [])
  pure { u with
    usage := toRemove.foldl KeySet.remove u.usage
    oldValues }

end UsageAnalyzer

inductive Input where
  | message (now : Nat) (message : Message)
  | tick (it : Iter) (now : Nat)

def step (u : UsageAnalyzer) : Input → Act EmulMessage UsageAnalyzer
  | .message now message => pure (u.listenEbpf now message)
  | .tick it now => u.checkFlows it now

end Reporter

end Kollaps
