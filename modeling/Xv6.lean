import Xv6.Console
import Xv6.CowFault
import Xv6.FilesSafe
import Xv6.Fs.Bitmap
import Xv6.Fs.Failed
import Xv6.Fs.Reserve
import Xv6.Fs.Undelivered
import Xv6.Fs.Unlinked
import Xv6.Fs.Whole
import Xv6.Kalloc
import Xv6.Killed
import Xv6.Load
import Xv6.LockOrder
import Xv6.LogCrash
import Xv6.LogSpace
import Xv6.Memmove
import Xv6.PipeSafe
import Xv6.ProcsClean
import Xv6.Programs.Cat
import Xv6.Programs.Find
import Xv6.Programs.Grep
import Xv6.Refines
import Xv6.Sleeplocks
import Xv6.Space
import Xv6.Spinlock
import Xv6.Uart
import Xv6.UserString
import Xv6.VirtioSafe
