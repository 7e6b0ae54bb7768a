import ShellProxy.Frame

/-! The error type of the library and its conversion from the protocol crate's. -/
namespace ShellProxy.Errors

inductive Error where
  | io (e : String)
  | json (e : String)
  | config (m : String)
  | resolve (host reason : String)
  | hostKey (m : String)
  | auth (m : String)
  | connect (m : String)
  | remote (m : String)
  | ipc (m : String)
  | daemon (m : String)
  | protocol (m : String)
  deriving DecidableEq, Repr

def Error.ofProto : Frame.Error → Error
  | .io e => .io e
  | .json e => .json e
  | .protocol m => .protocol m

/-- The one-line form of an error. The escapes of a quoted host are Lean's. -/
def Error.brief : Error → String
  | .io e => "io error: " ++ e
  | .json e => "serialization error: " ++ e
  | .config m => "config error: " ++ m
  | .resolve host reason => "ssh config resolve failed for host " ++ host.quote ++ ": " ++ reason
  | .hostKey m => "host key verification failed: " ++ m
  | .auth m => "authentication failed: " ++ m
  | .connect m => "connect failed: " ++ m
  | .remote m => "remote exec failed: " ++ m
  | .ipc m => "ipc error: " ++ m
  | .daemon m => "daemon not reachable: " ++ m
  | .protocol m => "protocol error: " ++ m

end ShellProxy.Errors
