import LispDos.Verification.Fat16.Lookup
import LispDos.Verification.Fat16.Undo
import LispDos.Verification.Fat16.Success
import LispDos.Verification.Fat16.AnyDisk
import LispDos.Verification.Fat16.Release
import LispDos.Verification.Fat16.Allocator
import LispDos.Verification.Fat16.BootSector
import LispDos.Verification.Fat16.Damage
import LispDos.Verification.Fat16.Driven
import LispDos.Verification.Memory.Boot
import LispDos.Verification.Memory.PageSearch
import LispDos.Verification.Memory.Harmless
import LispDos.Verification.Heap.Blocks
import LispDos.Verification.Process.Lifecycle
import LispDos.Verification.Process.BufferSize
import LispDos.Verification.Process.SharedPages
import LispDos.Verification.Process.Arguments
import LispDos.Verification.Process.KernelReturn
import LispDos.Verification.Devices.Uart
import LispDos.Verification.Devices.Tables
import LispDos.Verification.Syscall.PointerCheck
import LispDos.Verification.Syscall.StringCheck
import LispDos.Verification.Shell.Lines
import LispDos.Verification.Shell.Sessions
import LispDos.Verification.Tarfs.Archive
import LispDos.Verification.Tarfs.Truncated
import LispDos.Verification.Tarfs.Shown
import LispDos.Verification.Keyboard.Queue
import LispDos.Verification.Keyboard.Decoding
import LispDos.Verification.Keyboard.FullQueue
import LispDos.Verification.Editor.Display
import LispDos.Verification.Acpi.SleepType
import LispDos.Verification.Editor.Saving
import LispDos.Verification.Editor.Motion
import LispDos.Verification.Editor.SavedName
import LispDos.Verification.Lisp.Associativity
import LispDos.Verification.Lisp.Printing
import LispDos.Verification.Lisp.Environment
import LispDos.Verification.Lisp.Loading
import LispDos.Verification.Lisp.Substitution
import LispDos.Verification.Lisp.Errors
import LispDos.Verification.Lisp.Termination
import LispDos.Verification.Lisp.Frame
import LispDos.Verification.Raw.Harmless
import LispDos.Verification.Raw.FileReads
import LispDos.Verification.Raw.SharedPages
import LispDos.Verification.Raw.Cleanup
import LispDos.Verification.Raw.StaleMemory
