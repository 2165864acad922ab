import Tbouncer.Base.PyText
import Tbouncer.Base.TextLines
import Tbouncer.Base.TornWrite
import Tbouncer.Base.Runs
import Tbouncer.Base.Watch
import Tbouncer.Base.Watchers
import Tbouncer.Base.Pattern
import Tbouncer.Base.PatternLang
import Tbouncer.Base.LineFlow
import Tbouncer.Base.LineTrace
import Tbouncer.Base.CLex
import Tbouncer.Base.ByteMemory
import Tbouncer.Base.Latch
import Tbouncer.Base.Layers
import Tbouncer.Base.Terminated
import Tbouncer.Bpf.Helpers
import Tbouncer.Attack.Hooks
import Tbouncer.Attack.Calls
import Tbouncer.Attack.Isolation
import Tbouncer.Attack.Pollers
import Tbouncer.Attack.Polling
import Tbouncer.Attack.Scripts
import Tbouncer.Attack.Session
import Tbouncer.Attack.Interrupt
import Tbouncer.Attack.UserMemory
import Tbouncer.Attack.EpollVictim
import Tbouncer.Attack.Answers
import Tbouncer.Attack.Demos
import Tbouncer.Switch.Events
import Tbouncer.Switch.WriteCall
import Tbouncer.Switch.Patient
import Tbouncer.Switch.Crowd
import Tbouncer.Switch.SharedMemory
import Tbouncer.Switch.Unlink
import Tbouncer.Switch.Served
import Tbouncer.Mutation.Loop
import Tbouncer.Mutation.Window
import Tbouncer.Mutation.Delivery
import Tbouncer.Mutation.Crowded
import Tbouncer.Mutation.TornCommand
import Tbouncer.Mutation.Interrupt
import Tbouncer.Mutation.Blocks
import Tbouncer.Mutation.Probes
import Tbouncer.Mutation.Attacked
import Tbouncer.Mutation.Campaign
import Tbouncer.Mutation.Patient
import Tbouncer.Monitor.SyscallMonitor
import Tbouncer.Monitor.Threads
import Tbouncer.Monitor.SwitchWatch
import Tbouncer.Monitor.SharedWatch
import Tbouncer.Monitor.Whole
import Tbouncer.Monitor.Printed
import Tbouncer.Monitor.Headings
import Tbouncer.Monitor.Suite
import Tbouncer.Monitor.Together
import Tbouncer.Monitor.Crowded
import Tbouncer.Instrument.Scanner
import Tbouncer.Instrument.Grammar
import Tbouncer.Instrument.Allman
import Tbouncer.Instrument.ExitPaths
import Tbouncer.Instrument.Meaning
import Tbouncer.Instrument.Files
import Tbouncer.Instrument.Directory
import Tbouncer.Instrument.Visits
import Tbouncer.Instrument.Lines
import Tbouncer.Instrument.Placement
import Tbouncer.Verdict.Tests
import Tbouncer.Verdict.Honest
import Tbouncer.Verdict.CacheFile
import Tbouncer.Verdict.TamperedSize
