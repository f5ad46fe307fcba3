import SecureZ.Lib.Transition
import SecureZ.Engine.SzencRoundTrip
import SecureZ.Engine.NxeTamper
import SecureZ.Engine.MasterChange
import SecureZ.Daemon.Agreement
import SecureZ.Daemon.SessionListing
import SecureZ.Engine.FolderLock
import SecureZ.Engine.SessionRace
import SecureZ.Engine.WipeRace
import SecureZ.Engine.SessionMap
import SecureZ.Engine.MappedDevices
import SecureZ.Engine.MapperNames
import SecureZ.Engine.CreateRace
import SecureZ.Engine.WipeSweep
import SecureZ.Shell.PipelineLimits
import SecureZ.Shell.PipelineText
import SecureZ.Shell.SingleQuotes
import SecureZ.Engine.NxeVerify
import SecureZ.Engine.SzencFailures
import SecureZ.Engine.KeyReuse
import SecureZ.Engine.IntegrityReport
import SecureZ.Auth.MasterKeyPolicy
import SecureZ.Auth.ChangeFailure
import SecureZ.Auth.KeyRegister
import SecureZ.Daemon.Segments
import SecureZ.Shell.PipelineWait
import SecureZ.Engine.ReaderWalks
import SecureZ.Engine.StoreHides
import SecureZ.Engine.TornAppend
import SecureZ.Engine.IntegrityAgreement
import SecureZ.Engine.TrackerAccounting
import SecureZ.Engine.RetrieveAccounting
import SecureZ.Engine.SessionPaths
import SecureZ.Engine.ContainerCreate
import SecureZ.Engine.ContainerPaths
import SecureZ.Engine.ScanTree
import SecureZ.Engine.LiveTracking
import SecureZ.Engine.SecureDelete
import SecureZ.Engine.FileHashing
import SecureZ.Daemon.Responses
import SecureZ.Daemon.FlatObjects
import SecureZ.Shell.PasswordPrompt
import SecureZ.Shell.OperatorTokens
import SecureZ.Shell.FastPath
import SecureZ.Shell.PipeDescriptors
import SecureZ.Shell.PipelineRuns
import SecureZ.Shell.PipedLines
import SecureZ.Shell.ExpansionReference
import SecureZ.Shell.ExpansionBounds
import SecureZ.Engine.CrypticEngine
import SecureZ.Daemon.Transcript
import SecureZ.Daemon.SessionControl
import SecureZ.Engine.IntegrityMonitor
import SecureZ.Engine.EmergencyWipe
import SecureZ.Shell.Prompt
import SecureZ.Daemon.AcceptLoop
import SecureZ.Lib.Blocks
import SecureZ.Shell.HeapParser
import SecureZ.Shell.LineMemory
import SecureZ.Lib.Environ
import SecureZ.Shell.Variables
import SecureZ.Shell.WorkingDirectory
import SecureZ.Daemon.FileCommands
import SecureZ.Daemon.VaultCommands
import SecureZ.Lib.Processes
import SecureZ.Engine.SessionProcesses
