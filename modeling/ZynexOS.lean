import ZynexOS.Kern.Proof.IpcPairing
import ZynexOS.Kern.Proof.Turns
import ZynexOS.Lib.Proof.Replies
import ZynexOS.Lib.Proof.PipeLimit
import ZynexOS.Fs.Proof.OpenIds
import ZynexOS.Lib.Proof.MallocRight
import ZynexOS.Kern.Proof.E1000Tx
import ZynexOS.Kern.Proof.E1000Rx
import ZynexOS.Lib.Proof.Pfentry
import ZynexOS.Net.Proof.Mailbox
import ZynexOS.Net.Proof.Threads
import ZynexOS.Net.Proof.Serve
import ZynexOS.Lib.Proof.PipeRefs
import ZynexOS.Kern.Proof.UserAccess
import ZynexOS.Kern.Proof.Isolation
import ZynexOS.Kern.Proof.Resume
import ZynexOS.Kern.Proof.KernelStack
import ZynexOS.Fs.Proof.CfiFlash
import ZynexOS.Kern.Proof.PageAddr
import ZynexOS.Net.Proof.Tables
import ZynexOS.Lib.Proof.CowFault
import ZynexOS.Lib.Proof.Dup
import ZynexOS.Net.Proof.Httpd
import ZynexOS.Kern.Proof.LoadIcode
import ZynexOS.Lib.Proof.Spawn
import ZynexOS.Fs.Proof.Truncate
import ZynexOS.Kern.Proof.Console
import ZynexOS.Lib.Proof.Args
import ZynexOS.Lib.Proof.Readline
import ZynexOS.User.Proof.Runcmd
import ZynexOS.Net.Proof.HttpRequest
import ZynexOS.Net.Proof.Timer
import ZynexOS.Kern.Proof.DoubleFree
import ZynexOS.Kern.Proof.KernelLock
import ZynexOS.Lib.Memmove
import ZynexOS.Lib.Proof.Printfmt
