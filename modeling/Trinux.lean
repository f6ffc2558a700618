import Trinux.Fs.LoadSafety
import Trinux.Fs.SaveFailure
import Trinux.Fs.ReadAccess
import Trinux.Process.WaitStatus
import Trinux.Process.Reaping
import Trinux.Process.Teardown
import Trinux.Mm.PageFault
import Trinux.Mm.Accounting
import Trinux.Kernel.Nesting
import Trinux.Kernel.StringChecks
import Trinux.Fs.PipeOrder
import Trinux.Fs.PipeLifetime
import Trinux.Process.RunQueue
import Trinux.Auth.Passwords
import Trinux.Shell.TccHistory
import Trinux.Shell.Executables
import Trinux.Drivers.Ahci
import Trinux.Drivers.XhciCompletion
import Trinux.Drivers.Serial
import Trinux.Drivers.NextHop
import Trinux.Drivers.Echo
import Trinux.Drivers.UsbStorage
import Trinux.Fs.FatInvariant
import Trinux.Mm.FrameBitmap
import Trinux.Mm.IdentityMap
import Trinux.Fs.DirectoryListing
import Trinux.Mm.Realloc
import Trinux.Kernel.HeapBreak
import Trinux.Auth.Digest
import Trinux.Kernel.NumberTexts
import Trinux.Process.Renice
import Trinux.Shell.Nice
import Trinux.Auth.PasswdCall
import Trinux.Process.Sleep
import Trinux.Process.Rotation
import Trinux.Shell.CopyDestination
import Trinux.Shell.Alias
import Trinux.Shell.EditorFiles
import Trinux.Shell.Sort
import Trinux.Shell.ReadLine
import Trinux.Kernel.Redirection
import Trinux.Shell.Quoting
import Trinux.Shell.Dd
import Trinux.Fs.UsedBytes
import Trinux.Shell.TasmData
import Trinux.Fs.RawDisk
import Trinux.Fs.Find
