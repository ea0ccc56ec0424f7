import Xv6Uac.Access.ChangeMode
import Xv6Uac.Access.DirectoryWrites
import Xv6Uac.Access.ExecuteChecks
import Xv6Uac.Bio.Capacity
import Xv6Uac.Console.LineDiscipline
import Xv6Uac.Console.Print
import Xv6Uac.Fs.Descriptors
import Xv6Uac.Fs.FileReferences
import Xv6Uac.Fs.SharedWrites
import Xv6Uac.Ide.Queue
import Xv6Uac.Kernel.Arguments
import Xv6Uac.Kernel.Mp
import Xv6Uac.Links.Dangling
import Xv6Uac.Log.CrashAtomicity
import Xv6Uac.Mem.Sizes
import Xv6Uac.Pipe.Fifo
import Xv6Uac.Proc.Kill
import Xv6Uac.Shell.Acceptance
import Xv6Uac.User.Authenticate
import Xv6Uac.User.ChangeGroups
import Xv6Uac.User.Chmod
import Xv6Uac.User.GetLine
import Xv6Uac.User.Interrupted
import Xv6Uac.User.Mover
