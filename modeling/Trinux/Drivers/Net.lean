import Trinux.Lib.InternetChecksum

namespace Trinux

/-!
# The network

Frames of Ethernet with ARP and ICMP echo: the table of addresses, what a received frame makes the
host send, and the ping that waits for its reply.
-/

namespace Net

/-! ## Addresses -/

structure Ip where
  o0 : UInt8
  o1 : UInt8
  o2 : UInt8
  o3 : UInt8
deriving DecidableEq

def Ip.bytes (ip : Ip) : List UInt8 := [ip.o0, ip.o1, ip.o2, ip.o3]

structure Mac where
  m0 : UInt8
  m1 : UInt8
  m2 : UInt8
  m3 : UInt8
  m4 : UInt8
  m5 : UInt8
deriving DecidableEq

def Mac.bytes (mac : Mac) : List UInt8 := [mac.m0, mac.m1, mac.m2, mac.m3, mac.m4, mac.m5]

def ipAt (memory : Nat → UInt8) (at_ : Nat) : Ip :=
  ⟨memory at_, memory (at_ + 1), memory (at_ + 2), memory (at_ + 3)⟩

def macAt (memory : Nat → UInt8) (at_ : Nat) : Mac :=
  ⟨memory at_, memory (at_ + 1), memory (at_ + 2), memory (at_ + 3), memory (at_ + 4),
    memory (at_ + 5)⟩

def wordAt (memory : Nat → UInt8) (at_ : Nat) : Nat :=
  256 * (memory at_).toNat + (memory (at_ + 1)).toNat

def htons (word : Nat) : List UInt8 := [UInt8.ofNat (word / 256), UInt8.ofNat word]

/-! ## State -/

structure ArpEntry where
  ip : Ip
  mac : Mac
deriving DecidableEq

structure Host where
  arpTable : List (Option ArpEntry) := List.replicate 16 none
  netReady : Bool := true
  myIp : Ip
  myMac : Mac
  myGw : Ip
  myMask : Ip
  pingSeq : Nat := 0
  pingReplyGot : Bool := false
  pingReplySeq : Nat := 0
  sent : List (List UInt8) := []

def Host.send (host : Host) (frame : List UInt8) : Host :=
  if frame.length = 0 ∨ 2048 < frame.length then host
  else { host with sent := host.sent ++ [frame] }

/-! ## The table of addresses -/

def arpLookup (table : List (Option ArpEntry)) (ip : Ip) : Option Mac :=
  table.findSome? fun slot => slot.bind fun entry => if entry.ip = ip then some entry.mac else none

def arpInsertLoop (new : ArpEntry) : List (Option ArpEntry) → Option (List (Option ArpEntry))
  | [] => none
  | none :: rest => some (some new :: rest)
  | some entry :: rest =>
      if entry.ip = new.ip then some (some new :: rest)
      else (arpInsertLoop new rest).map (some entry :: ·)

def arpInsert (table : List (Option ArpEntry)) (ip : Ip) (mac : Mac) : List (Option ArpEntry) :=
  (arpInsertLoop ⟨ip, mac⟩ table).getD (some ⟨ip, mac⟩ :: table.tail)

def ethHeader (dst src : Mac) (ethertype : Nat) : List UInt8 :=
  dst.bytes ++ src.bytes ++ htons ethertype

def arpFrame (dst : Mac) (host : Host) (oper : Nat) (tha : Mac) (tpa : Ip) : List UInt8 :=
  ethHeader dst host.myMac 0x0806 ++ htons 1 ++ htons 0x0800 ++ [6, 4] ++ htons oper ++
    host.myMac.bytes ++ host.myIp.bytes ++ tha.bytes ++ tpa.bytes

def arpSendRequest (host : Host) (target : Ip) : Host :=
  host.send (arpFrame ⟨0xFF, 0xFF, 0xFF, 0xFF, 0xFF, 0xFF⟩ host 1 ⟨0, 0, 0, 0, 0, 0⟩ target)

def arpSendReply (host : Host) (dstMac : Mac) (dstIp : Ip) : Host :=
  host.send (arpFrame dstMac host 2 dstMac dstIp)

/-! ## Echo -/

def checksumLoop (sum : Nat) : List UInt8 → Nat
  | [] => sum
  | [a] => (sum + a.toNat) % 2 ^ 32
  | a :: b :: rest => checksumLoop ((sum + (a.toNat + 256 * b.toNat)) % 2 ^ 32) rest

def inetChecksum (data : List UInt8) : List UInt8 :=
  InternetChecksum.wordBytes (65535 - InternetChecksum.fold (checksumLoop 0 data))

def ipHeaderWith (sum : List UInt8) (total : Nat) (id : List UInt8) (src dst : Ip) : List UInt8 :=
  [0x45, 0] ++ htons total ++ id ++ [0, 0, 64, 1] ++ sum ++ src.bytes ++ dst.bytes

def ipHeader (total : Nat) (id : List UInt8) (src dst : Ip) : List UInt8 :=
  ipHeaderWith (inetChecksum (ipHeaderWith [0, 0] total id src dst)) total id src dst

def icmpWith (sum : List UInt8) (type : UInt8) (idSeq data : List UInt8) : List UInt8 :=
  [type, 0] ++ sum ++ idSeq ++ data

def icmpMessage (type : UInt8) (idSeq data : List UInt8) : List UInt8 :=
  icmpWith (inetChecksum (icmpWith [0, 0] type idSeq data)) type idSeq data

/-- `icmp_send_reply`.  The frame is an array on the stack that holds what was there before, as does
the memory behind it. -/
def icmpSendReply (host : Host) (stack : Nat → UInt8) (dstMac : Mac) (dstIp : Ip)
    (idSeq : List UInt8) (payload : Nat → UInt8) (plen : Nat) : Host :=
  let totalIp := (20 + 8 + plen) % 65536
  let frameLen := (14 + totalIp) % 65536
  let data := (List.range (min plen 32)).map payload
  let written := ethHeader dstMac host.myMac 0x0800 ++
    (ipHeader totalIp [0, 0] host.myIp dstIp ++ icmpMessage 0 idSeq data)
  host.send ((List.range frameLen).map fun i => written.getD i (stack i))

/-! ## Received frames -/

/-- A frame that was received, with what the buffer holds behind it and what the stack holds. -/
structure Received where
  frame : List UInt8
  beyond : Nat → UInt8
  stack : Nat → UInt8

def Received.memory (rx : Received) (i : Nat) : UInt8 := rx.frame.getD i (rx.beyond i)

def processFrame (host : Host) (rx : Received) : Host :=
  let at_ := rx.memory
  let len := rx.frame.length
  if len < 14 then host
  else if wordAt at_ 12 = 0x0806 ∧ 42 ≤ len then
    let host := { host with arpTable := arpInsert host.arpTable (ipAt at_ 28) (macAt at_ 22) }
    if wordAt at_ 20 = 1 ∧ ipAt at_ 38 = host.myIp then
      arpSendReply host (macAt at_ 22) (ipAt at_ 28)
    else host
  else if wordAt at_ 12 = 0x0800 ∧ 34 ≤ len then
    if at_ 14 &&& 0xF0 ≠ 0x40 then host
    else if ipAt at_ 30 ≠ host.myIp then host
    else if at_ 23 = 1 ∧ 34 + 8 ≤ len then
      let icmpLen := (wordAt at_ 16 + (65536 - 20)) % 65536
      if at_ 34 = 8 then
        let plen := if 8 < icmpLen then icmpLen - 8 else 0
        let host := { host with arpTable := arpInsert host.arpTable (ipAt at_ 26) (macAt at_ 6) }
        icmpSendReply host rx.stack (macAt at_ 6) (ipAt at_ 26) [at_ 38, at_ 39, at_ 40, at_ 41]
          (fun i => at_ (42 + i)) plen
      else if at_ 34 = 0 ∧ wordAt at_ 40 = host.pingSeq then
        { host with pingReplySeq := wordAt at_ 40, pingReplyGot := true }
      else host
    else host
  else host

def netPoll (host : Host) (frames : List Received) : Host :=
  if host.netReady then (frames.take 8).foldl processFrame host else host

/-! ## Ping -/

/-- The loop of `net_arp_resolve`, with what is received until its time is over. -/
def resolveLoop (ip : Ip) (host : Host) : List (List Received) → Option Mac × Host
  | [] => (none, host)
  | frames :: rest =>
      let host := netPoll host frames
      match arpLookup host.arpTable ip with
      | some mac => (some mac, host)
      | none => resolveLoop ip host rest

def netArpResolve (host : Host) (ip : Ip) (polls : List (List Received)) : Option Mac × Host :=
  if host.netReady then
    match arpLookup host.arpTable ip with
    | some mac => (some mac, host)
    | none => resolveLoop ip (arpSendRequest host ip) polls
  else (none, host)

def targetOctet (own mask dst gw : UInt8) : UInt8 := if own &&& mask = dst &&& mask then dst else gw

def targetIp (host : Host) (dst : Ip) : Ip :=
  ⟨targetOctet host.myIp.o0 host.myMask.o0 dst.o0 host.myGw.o0,
    targetOctet host.myIp.o1 host.myMask.o1 dst.o1 host.myGw.o1,
    targetOctet host.myIp.o2 host.myMask.o2 dst.o2 host.myGw.o2,
    targetOctet host.myIp.o3 host.myMask.o3 dst.o3 host.myGw.o3⟩

def echoRequest (host : Host) (dstMac : Mac) (dst : Ip) : List UInt8 :=
  (ethHeader dstMac host.myMac 0x0800 ++
    (ipHeader (20 + 8 + 32) (htons host.pingSeq) host.myIp dst ++
      icmpMessage 8 (htons 0x5472 ++ htons host.pingSeq) (List.replicate 32 0xAB))).take 60

/-- A round of the loop that waits for the reply: the ticks that have gone by when it begins, what
it receives, and the ticks when that was looked at. -/
structure Wait where
  before : UInt32
  frames : List Received
  after : UInt32

def waitReply (hz ticksMax : UInt32) (host : Host) : List Wait → Option UInt32 × Host
  | [] => (none, host)
  | wait :: rest =>
      if wait.before < ticksMax then
        let host := netPoll host wait.frames
        if host.pingReplyGot then (some (wait.after * 1000 / hz), host)
        else waitReply hz ticksMax host rest
      else (none, host)

/-- What a ping does: the host when the address was resolved, the frame, and the host and the result
at the end; no result stands for -1. -/
structure Ping where
  resolved : Host
  echo : Option (List UInt8)
  final : Host
  result : Option UInt32

def netPing (host : Host) (dst : Ip) (timeoutMs freq : UInt32) (polls : List (List Received))
    (waits : List Wait) : Ping :=
  if host.netReady then
    let resolved := netArpResolve host (targetIp host dst) polls
    match resolved.1 with
    | none => ⟨resolved.2, none, resolved.2, none⟩
    | some dstMac =>
        let host := { resolved.2 with
          pingSeq := (resolved.2.pingSeq + 1) % 65536, pingReplyGot := false }
        let frame := echoRequest host dstMac dst
        let hz := if freq = 0 then 100 else freq
        let waited := waitReply hz (timeoutMs * hz / 1000) (host.send frame) waits
        ⟨resolved.2, some frame, waited.2, waited.1⟩
  else ⟨host, none, host, none⟩

end Net

end Trinux
