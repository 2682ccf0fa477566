/-! Why bytes are not a message, and why a message cannot be carried. -/

namespace MeshDecomp

inductive WireError where
  | truncated (length : Nat)
  | versionMismatch (found expected : Nat)
  | unknownKind (kind : Nat)
  | trailing (bytes : Nat)
  | invalidFlag (flag : Nat)
  deriving DecidableEq, Repr

def WireError.message : WireError → String
  | truncated length => s!"Message of {length} bytes is truncated or not word aligned"
  | versionMismatch found expected => s!"Wire version {found} does not match {expected}"
  | unknownKind kind => s!"Unknown message kind {kind}"
  | trailing bytes => s!"{bytes} trailing bytes after message payload"
  | invalidFlag flag => s!"Invalid option flag {flag}"

/-- What can go wrong below the messages. -/
inductive LinkError where
  | peerOutOfRange (peer size : Nat)
  | backend (text : String)
  deriving DecidableEq, Repr

def LinkError.message : LinkError → String
  | peerOutOfRange peer size => s!"Peer rank {peer} out of range for communicator of size {size}"
  | backend text => s!"Communication backend failure: {text}"

end MeshDecomp
