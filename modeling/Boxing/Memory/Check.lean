import Boxing.C.Num
import Boxing.C.Strtok

/-!
# The memory watcher

`memory_check.c` asks `ps` for each entry of its watch list in turn, cuts the line it
gets into fields, and keeps the pid and the size of the first line, or compares them
with a later one.  The buffer for the line and the array of the fields are locals of
the scan, not of the entry: what an entry finds there when its command prints nothing
is what the entries before it have left.

What `ps` prints, what `grep` lets through and whether the log file can be written are
the environment's, for each entry of each scan anew.
-/

namespace Boxing.Memory

open C

/-! ### The watch list -/

/-- `Memory_Check`. -/
structure Memory_Check where
  name : Bytes
  flag : Int
  size : Int
  pid : Int
deriving DecidableEq, Repr

/-- `g_forkinfo` at the start. -/
def g_forkinfo : List Memory_Check :=
  ["init", "syswatcher", "watchdog -t 5 /dev/watchdog",
    "syslogd -S -n -m 0 -L -s 5120 -F 8 -z 256", "admind", "alarmd", "netevtd", "interface",
    "redial", "dot11d", "bridged", "xdsl", "ipsecwatcher2", "vpnd", "agent", "emaild", "sntpc",
    "gre_agent", "ih_route", "firewall", "sla", "trackd", "backupd", "ih_mrouted", "certmanager",
    "termon", "gpsd", "crond", "dtu", "python_agent", "trafficd", "zebra", "ripd", "ospfd", "bgpd",
    "mosquitto", "httpd", "telnetd", "htpdmanager", "Erlang", "nginx: master process",
    "DeviceManager", "dropbear", "dockerd", "InConnect", "portainer", "dnsmasq",
    "nginx: worker process", "docker-containerd", "supervisord", "api_gateway", "klogd", "redial",
    "openvpn", "user/bin/device_supervisor", "user/app/device_supervisor/DataHub",
    "user/app/device_supervisor/src/qckfs.pyc", "user/app/device_supervisor/ModbusDriver",
    "user/app/device_supervisor/MqttAgent",
    "user/app/device_supervisor/publish/HslTechnology.EdgeServer"].map fun name =>
      ⟨asc name, -1, 0, -1⟩

/-! ### What the commands print -/

/-- `BUF_SIZE_1024` and `RECV_NUM`. -/
def bufSize : Nat := 1024
def recvNum : Nat := 64

/-- The blank between two fields, and the `m` behind a size in megabytes. -/
def blank : UInt8 := 32
def chM : UInt8 := 109

/-- A line of `ps`: `PID`, `USER`, `VSZ` and `STAT`, and the command behind them. -/
structure Line where
  text : Bytes
  clean : ∀ c ∈ text, c ≠ 0 ∧ c ≠ 10
  columns : 4 ≤ (fields blank (text.take (bufSize - 1))).length

/-- What happens around one entry: what `popen` comes to, `none` when it fails and
else the processes there are, and whether `Log_File` can write. -/
structure Look where
  ps : Option (List Line)
  log_file : Bool

section

variable (grep : Bytes → Bytes → Bool)

/-- The lines that `ps | grep -w 'name' | grep -v grep` lets through. -/
def matching (name : Bytes) (table : List Line) : List Line :=
  table.filter fun l => grep name l.text

/-- What the pipe delivers. -/
def output (name : Bytes) (table : List Line) : Bytes :=
  (matching grep name table).flatMap fun l => l.text ++ [10]

end

/-- `fgets(buf, sizeof(buf), fp)`: at the end of the stream `buf` stays as it is. -/
def fgets (buf out : Bytes) : Bytes :=
  if out = [] then buf
  else gets (bufSize - 1) out ++ 0 :: buf.drop ((gets (bufSize - 1) out).length + 1)

/-! ### One entry -/

/-- `buf` and `revbuf`: the pointers are places in `buf`. -/
structure Locals where
  buf : Bytes
  revbuf : List (Option Nat)

/-- As the scan begins. -/
def Locals.start : Locals := ⟨List.replicate bufSize 0, List.replicate recvNum none⟩

/-- `Split(buf, " ", revbuf, &num)`; a field too many is written behind `revbuf`. -/
def Split (loc : Locals) : Option (Int × Locals) :=
  if str loc.buf = [] then some (-1, loc)
  else (tokens blank loc.revbuf loc.buf 0).map fun r => (0, ⟨r.1, r.2⟩)

/-- `atoi(revbuf[0])`; `none` is a null pointer. -/
def read_pid (loc : Locals) : Option Int :=
  (loc.revbuf.getD 0 none).map fun p => atoi (str (loc.buf.drop p))

/-- `strstr(revbuf[2], "m")` and `atoi(revbuf[2])`, times 1024 in an `int`: the `m` is
overwritten. -/
def read_size (loc : Locals) : Option (Int × Locals) :=
  (loc.revbuf.getD 2 none).map fun p =>
    let text := str (loc.buf.drop p)
    if chM ∈ text then
      let buf := loc.buf.set (p + (text.takeWhile (· ≠ chM)).length) 0
      (int32 (atoi (str (buf.drop p)) * 1024), ⟨buf, loc.revbuf⟩)
    else (atoi text, loc)

/-- `M_500M`. -/
def m500 : Int := 1024 * 500

/-- `%d`. -/
def decimal (n : Int) : Bytes := asc (toString n)

/-- `log` when the size has grown. -/
def message (e : Memory_Check) (size : Int) (limit : String) : Bytes :=
  (e.name ++ asc " has a memory leak, PID: " ++ decimal e.pid ++ asc ", Initial memory size: "
    ++ decimal e.size ++ asc " KB, Current memory size: " ++ decimal size
    ++ asc " KB. Memory leak Has exceeded " ++ asc limit ++ asc ".\n").take (bufSize - 1)

/-- The two comparisons of `Memroy_Check`. -/
def leak (e : Memory_Check) (size : Int) : Bytes :=
  if size > m500 ∧ size > e.size ∧ size - e.size > 0 then message e size "50M"
  else if size > e.size ∧ size - e.size > 0 then message e size "10M"
  else []

/-- What has been done with an entry: the pid and the size it was given or compared
with, and the text for the log. -/
inductive Action
  | initialised (pid size : Int)
  | compared (pid size : Int) (log : Bytes)
deriving DecidableEq, Repr

/-- An entry that has been dealt with, and the processes there were. -/
structure Record where
  before : Memory_Check
  table : List Line
  action : Option Action
  after : Memory_Check

/-- `Memroy_Check`: what it returns, the size and the text. -/
def Memroy_Check (e : Memory_Check) (log_file : Bool) (loc : Locals) :
    Option (Int × Int × Bytes × Locals) :=
  (read_size loc).map fun r =>
    (if leak e r.1 ≠ [] ∧ log_file = false then -1 else 0, r.1, leak e r.1, r.2)

/-- What follows on `Split`: the entry is given the pid and the size, or compared. -/
def assign (e : Memory_Check) (table : List Line) (log_file : Bool) (loc : Locals) :
    Option (Record × Int × Locals) :=
  (read_pid loc).bind fun pid =>
    if e.flag = -1 ∨ e.pid ≠ pid then
      (read_size loc).map fun r =>
        (⟨e, table, some (.initialised pid r.1), { e with pid := pid, size := r.1, flag := 1 }⟩, 0,
          r.2)
    else
      (Memroy_Check e log_file loc).map fun r =>
        (⟨e, table, some (.compared pid r.2.1 r.2.2.1), e⟩, r.1, r.2.2.2)

variable (grep : Bytes → Bytes → Bool)

/-- The loop's body behind `popen`. -/
def turn (e : Memory_Check) (table : List Line) (log_file : Bool) (loc : Locals) :
    Option (Record × Int × Locals) :=
  let loc : Locals := ⟨fgets loc.buf (output grep e.name table), loc.revbuf⟩
  if str loc.buf = [] then some (⟨e, table, none, e⟩, 0, loc)
  else (Split loc).bind fun r =>
    if r.1 ≠ 0 then some (⟨e, table, none, e⟩, -1, r.2) else assign e table log_file r.2

/-- The loop over the watch list: what the scan returns, the entries afterwards, and
what has been done. -/
def loop : List Memory_Check → (Nat → Look) → Locals →
    Option (Int × List Memory_Check × List Record)
  | [], _, _ => some (0, [], [])
  | e :: es, looks, loc =>
    match (looks 0).ps with
    | none => some (-1, e :: es, [])
    | some table =>
      (turn grep e table (looks 0).log_file loc).bind fun r =>
        if r.2.1 ≠ 0 then some (-1, r.1.after :: es, [r.1])
        else (loop es (fun n => looks (n + 1)) r.2.2).map fun rest =>
          (rest.1, r.1.after :: rest.2.1, r.1 :: rest.2.2)

/-- One scan. -/
def Check_Fork_Memroy (es : List Memory_Check) (looks : Nat → Look) :
    Option (Int × List Memory_Check × List Record) :=
  loop grep es looks Locals.start

/-- `while (1)` in `main`, over the environments of its scans: what each has done. -/
def main : List Memory_Check → List (Nat → Look) → Option (List (List Record))
  | _, [] => some []
  | es, looks :: scans =>
    (Check_Fork_Memroy grep es looks).bind fun r =>
      if r.1 ≠ 0 then some [r.2.2] else (main r.2.1 scans).map fun rest => r.2.2 :: rest

end Boxing.Memory
