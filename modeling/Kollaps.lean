import Kollaps.Bwsync.Capacity
import Kollaps.Bwsync.Order
import Kollaps.Bwsync.Departure
import Kollaps.Bwsync.Bookkeeping
import Kollaps.Bwsync.Fairness
import Kollaps.Bwsync.HashOrder
import Kollaps.Bwsync.Remaining
import Kollaps.Bwsync.Slowing
import Kollaps.Emulcore.Agreement
import Kollaps.Emulcore.Crash
import Kollaps.Emulcore.Departure
import Kollaps.Emulcore.Opening
import Kollaps.Emulcore.Ring
import Kollaps.Emulcore.Commands
import Kollaps.Emulcore.Enforcement
import Kollaps.Emulcore.Lifecycle
import Kollaps.Emulcore.Statuses
import Kollaps.Cmanager.Held
import Kollaps.Cmanager.Removal
import Kollaps.Cmanager.Heartbeat
import Kollaps.Cmanager.Wire
import Kollaps.Emanager.Barrier
import Kollaps.Emanager.Stopping
import Kollaps.Matrix.Triangle
import Kollaps.Nethelper.Ending
import Kollaps.Netgraph.Demand
import Kollaps.Netgraph.Queries
import Kollaps.Netgraph.Representation
import Kollaps.Orchestrator.Changes
import Kollaps.Orchestrator.Enumeration
import Kollaps.Orchestrator.Ledger
import Kollaps.Orchestrator.Refusal
import Kollaps.Pubapi.Rejection
import Kollaps.Pubapi.EndToEnd
import Kollaps.Pubapi.Mirror
import Kollaps.Pubapi.Release
import Kollaps.Pubapi.Survival
import Kollaps.Pubapi.Tables
import Kollaps.Reporter.Measured
import Kollaps.Reporter.Probe
import Kollaps.Reporter.Staleness
import Kollaps.Reporter.TcHandler
import Kollaps.Xmlgraphparser.Checks
import Kollaps.Xmlgraphparser.Meaning
