import SerialProxy.FaultPrograms
import SerialProxy.LinkedCells
import SerialProxy.CText
import SerialProxy.SerialState
import SerialProxy.EventTable
import SerialProxy.SerialNodes
import SerialProxy.SerialLinks
import SerialProxy.EventLoop
import SerialProxy.SerialConfig
import SerialProxy.DeviceConfig
import SerialProxy.NodeTopology
import SerialProxy.NodeLists
import SerialProxy.ConfigLoading
import SerialProxy.LoadedTopology
import SerialProxy.MasterWriters
import SerialProxy.LinkEffects
import SerialProxy.LinkCoherence
import SerialProxy.HandlerEffects
import SerialProxy.DispatchPasses
import SerialProxy.BufferReset
import SerialProxy.ConnectEffects
import SerialProxy.ConnectOutcomes
import SerialProxy.Reconnection
import SerialProxy.Iterations
import SerialProxy.ConnectContract
import SerialProxy.ReconnectContract
import SerialProxy.FreedLinks
import SerialProxy.TransferOrigins
import SerialProxy.DataIsolation
import SerialProxy.Forwarding
import SerialProxy.DoubleForwarding
import SerialProxy.ShortWrites
import SerialProxy.Registrations
import SerialProxy.Teardown
import SerialProxy.Release
import SerialProxy.Unregistration
import SerialProxy.ReadVerdicts
import SerialProxy.StateFrames
import SerialProxy.HeldSymlinks
import SerialProxy.PathOwners
import SerialProxy.KeyOrder
import SerialProxy.RejectedEntries
import SerialProxy.IniParser
import SerialProxy.ConfigText
import SerialProxy.PeriodicCounters
import SerialProxy.ServerCron
import SerialProxy.SpeedContract
import SerialProxy.ServerMain
import SerialProxy.ServerRuns
import SerialProxy.ServerStart
import SerialProxy.ReconnectClock
import SerialProxy.LogFiles
import SerialProxy.PidFiles
import SerialProxy.TimeEvents
import SerialProxy.TimerRuns
import SerialProxy.TimerPasses
import SerialProxy.PrimitiveChanges
import SerialProxy.Shutdown
import SerialProxy.ProcessEnds
import SerialProxy.FileEvents
import SerialProxy.WatchedDescriptors
import SerialProxy.Relays
import SerialProxy.ProxyRelay
import SerialProxy.Availability
import SerialProxy.KeyedFolds
import SerialProxy.SectionOrder
import SerialProxy.ParserReports
import SerialProxy.LinkedPaths
import SerialProxy.ServerSettings
