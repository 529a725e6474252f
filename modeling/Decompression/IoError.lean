/-!
# Input and Output Errors

The failures that readers, writers, allocators and primitives report: a kind,
which callers may act on, and a message, which they may only show.

## Main definitions

* `ErrorKind`: The kinds of failure.
* `ErrorKind.name`: The name of a kind.
* `IoError`: A kind and a message.
-/

namespace Decompression

/-- What went wrong, as far as a caller can act on it. -/
inductive ErrorKind where
  | notFound
  | permissionDenied
  | connectionRefused
  | connectionReset
  | hostUnreachable
  | networkUnreachable
  | connectionAborted
  | notConnected
  | addrInUse
  | addrNotAvailable
  | networkDown
  | brokenPipe
  | alreadyExists
  | wouldBlock
  | notADirectory
  | isADirectory
  | directoryNotEmpty
  | readOnlyFilesystem
  | staleNetworkFileHandle
  | invalidInput
  | invalidData
  | timedOut
  | writeZero
  | storageFull
  | notSeekable
  | quotaExceeded
  | fileTooLarge
  | resourceBusy
  | executableFileBusy
  | deadlock
  | crossesDevices
  | tooManyLinks
  | invalidFilename
  | argumentListTooLong
  | interrupted
  | unsupported
  | unexpectedEof
  | outOfMemory
  | other
  deriving DecidableEq, Repr, Inhabited

namespace ErrorKind

/-- Every kind, in the order of the definition. -/
def all : List ErrorKind :=
  [notFound, permissionDenied, connectionRefused, connectionReset, hostUnreachable,
    networkUnreachable, connectionAborted, notConnected, addrInUse, addrNotAvailable, networkDown,
    brokenPipe, alreadyExists, wouldBlock, notADirectory, isADirectory, directoryNotEmpty,
    readOnlyFilesystem, staleNetworkFileHandle, invalidInput, invalidData, timedOut, writeZero,
    storageFull, notSeekable, quotaExceeded, fileTooLarge, resourceBusy, executableFileBusy,
    deadlock, crossesDevices, tooManyLinks, invalidFilename, argumentListTooLong, interrupted,
    unsupported, unexpectedEof, outOfMemory, other]

/-- The name of a kind: its words run together, each with a capital letter. -/
def name : ErrorKind → String
  | notFound => "NotFound"
  | permissionDenied => "PermissionDenied"
  | connectionRefused => "ConnectionRefused"
  | connectionReset => "ConnectionReset"
  | hostUnreachable => "HostUnreachable"
  | networkUnreachable => "NetworkUnreachable"
  | connectionAborted => "ConnectionAborted"
  | notConnected => "NotConnected"
  | addrInUse => "AddrInUse"
  | addrNotAvailable => "AddrNotAvailable"
  | networkDown => "NetworkDown"
  | brokenPipe => "BrokenPipe"
  | alreadyExists => "AlreadyExists"
  | wouldBlock => "WouldBlock"
  | notADirectory => "NotADirectory"
  | isADirectory => "IsADirectory"
  | directoryNotEmpty => "DirectoryNotEmpty"
  | readOnlyFilesystem => "ReadOnlyFilesystem"
  | staleNetworkFileHandle => "StaleNetworkFileHandle"
  | invalidInput => "InvalidInput"
  | invalidData => "InvalidData"
  | timedOut => "TimedOut"
  | writeZero => "WriteZero"
  | storageFull => "StorageFull"
  | notSeekable => "NotSeekable"
  | quotaExceeded => "QuotaExceeded"
  | fileTooLarge => "FileTooLarge"
  | resourceBusy => "ResourceBusy"
  | executableFileBusy => "ExecutableFileBusy"
  | deadlock => "Deadlock"
  | crossesDevices => "CrossesDevices"
  | tooManyLinks => "TooManyLinks"
  | invalidFilename => "InvalidFilename"
  | argumentListTooLong => "ArgumentListTooLong"
  | interrupted => "Interrupted"
  | unsupported => "Unsupported"
  | unexpectedEof => "UnexpectedEof"
  | outOfMemory => "OutOfMemory"
  | other => "Other"

/-- The kind with a given name. -/
def ofName? (s : String) : Option ErrorKind :=
  all.find? fun k => k.name == s

theorem mem_all (k : ErrorKind) : k ∈ all := by
  cases k <;> decide

end ErrorKind

/-- A failure reported by the outside world. -/
structure IoError where
  /-- The kind of failure. -/
  kind : ErrorKind
  /-- The text shown to people. -/
  message : String
  deriving DecidableEq, Repr, Inhabited

end Decompression
