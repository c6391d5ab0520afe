import Boxing.Device.Wp
import Boxing.Device.Ends
import Boxing.C.Num
import Boxing.Serial.Reassembly
import Boxing.Serial.Strip
import Boxing.Serial.Noise
import Boxing.Crc.Register
import Boxing.Uboot.Standard
import Boxing.Uboot.Env
import Boxing.Uboot.WriteOne
import Boxing.Uboot.Read
import Boxing.Uboot.Burst
import Boxing.Uboot.WellFormed
import Boxing.C.Token
import Boxing.Uboot.WriteMulti
import Boxing.Uboot.Outcome
import Boxing.Uboot.Agree
import Boxing.Mtd.Erase
import Boxing.Mtd.EraseAll
import Boxing.Intools.Session
import Boxing.Intools.Lists
import Boxing.Intools.Scans
import Boxing.Intools.Answers
import Boxing.Intools.Runs
import Boxing.Intools.TooBig
import Boxing.Intools.Dialogue
import Boxing.Intools.Unedited
import Boxing.Intools.Typed
import Boxing.Intools.WifiMac
import Boxing.Iburn.Board
import Boxing.Iburn.Children
import Boxing.Iburn.Reaped
import Boxing.Iburn.Image
import Boxing.Iburn.Upgrade
import Boxing.Iburn.Spares
import Boxing.Iburn.Stages
import Boxing.Iburn.Verified
import Boxing.Iburn.Exact
import Boxing.Iburn.Dual
import Boxing.Iburn.Backup
import Boxing.Iburn.Written
import Boxing.Iburn.Success
import Boxing.Iburn.Flag
import Boxing.Iburn.Sectors
import Boxing.Ig9.Upgrade
import Boxing.Ig9.Banks
import Boxing.Ig9.Reject
import Boxing.Ig9.Copy
import Boxing.Ig9.Switch
import Boxing.Iburn.Version
import Boxing.Ig9.Chunks
import Boxing.Iburn.Sizes
import Boxing.Fdt.Tags
import Boxing.Fit.Verify
import Boxing.Fit.Covers
import Boxing.Serial.Loss
import Boxing.Libevent.DoRead
import Boxing.Libevent.Transfer
import Boxing.Serial.Client
import Boxing.Serial.Polling
import Boxing.Serial.Finish
import Boxing.C.Strtok
import Boxing.C.Lines
import Boxing.Memory.Check
import Boxing.Memory.Attributed
import Boxing.Pysdk.Install
import Boxing.Pysdk.Slots
import Boxing.Libevent.Returns
import Boxing.Mtd.Transfer
import Boxing.Sdebug.Console
import Boxing.C.Decimal
import Boxing.Inpython.Start
import Boxing.Inpython.Apply
import Boxing.Mobius.Sdk
import Boxing.Unix.Path
import Boxing.Unix.Shell
import Boxing.Pyapp.Uninstall
import Boxing.Device.Gives
import Boxing.Pyapp.Install
import Boxing.Pyapp.Keeps
import Boxing.Pyapp.Scratch
import Boxing.Inpython.Config
import Boxing.C.Linked
import Boxing.C.Pieces
import Boxing.C.Ring
import Boxing.C.BinaryHeap
import Boxing.Event.MinHeap
import Boxing.Event.Timers
import Boxing.Mosquitto.Topic
import Boxing.Linux.List
import Boxing.Linux.Runs
import Boxing.Linux.Hlist
import Boxing.Linux.HlistRuns
import Boxing.Device.Trace
import Boxing.Libevent.Pool
import Boxing.Libevent.Items
import Boxing.Libevent.Logins
import Boxing.Device.Logged
import Boxing.Memory.Tokens
import Boxing.Fdt.Memory
import Boxing.Fdt.Walk
import Boxing.Fdt.Lookup
import Boxing.Fit.Memory
import Boxing.Ig9.Integrity
