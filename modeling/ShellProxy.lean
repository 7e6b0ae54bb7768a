import ShellProxy.Lib.Machine
import ShellProxy.Lib.Framing
import ShellProxy.Lib.Latest
import ShellProxy.Lib.Cells
import ShellProxy.Lib.Chain
import ShellProxy.Lib.Blocking
import ShellProxy.Lib.Feeding
import ShellProxy.Lib.Thin
import ShellProxy.Lib.Wildcard
import ShellProxy.Lib.Shell
import ShellProxy.Lib.Utf8
import ShellProxy.Lib.Base64
import ShellProxy.Lib.Descriptors
import ShellProxy.Lib.FairLock
import ShellProxy.Frame
import ShellProxy.Codec
import ShellProxy.EventStream
import ShellProxy.FrameReader
import ShellProxy.FrameStream
import ShellProxy.Decoders
import ShellProxy.Errors
import ShellProxy.Endpoint
import ShellProxy.FirstStart
import ShellProxy.ClientRun
import ShellProxy.ExecChannel
import ShellProxy.Teardown
import ShellProxy.EngineTasks
import ShellProxy.Interrupts
import ShellProxy.InputLanes
import ShellProxy.ForceExit
import ShellProxy.ServeOutput
import ShellProxy.DaemonOutput
import ShellProxy.OutputPath
import ShellProxy.FilterPipeline
import ShellProxy.Session
import ShellProxy.HandleExec
import ShellProxy.FirstContact
import ShellProxy.SessionCwd
import ShellProxy.SessionQueue
import ShellProxy.ServiceOrder
import ShellProxy.SessionRelease
import ShellProxy.StateStore
import ShellProxy.Reports
import ShellProxy.ControlLoop
import ShellProxy.Watchdog
import ShellProxy.IdleExit
import ShellProxy.ServeInput
import ShellProxy.StdinPath
import ShellProxy.RemoteState
import ShellProxy.Relocation
import ShellProxy.HostPattern
import ShellProxy.PatternLanguage
import ShellProxy.KnownHosts
import ShellProxy.Revocation
import ShellProxy.ScanVerdict
import ShellProxy.Trust
import ShellProxy.SshConfig
import ShellProxy.FileLists
import ShellProxy.Keywords
import ShellProxy.Auth
import ShellProxy.AuthOrder
import ShellProxy.ServeDir
import ShellProxy.Deploy
import ShellProxy.DeployAlone
import ShellProxy.DeployAgain
import ShellProxy.Cleanup
import ShellProxy.Quoting
import ShellProxy.PushPull
import ShellProxy.Push
import ShellProxy.RemoteRun
import ShellProxy.Pull
import ShellProxy.Upload
import ShellProxy.Capture
import ShellProxy.Tools
import ShellProxy.ToolRuns
import ShellProxy.StderrLog
import ShellProxy.Truncate
