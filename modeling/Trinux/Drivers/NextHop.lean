import Trinux.Drivers.Net

namespace Trinux

/-!
# The next hop of a ping

A ping goes to its destination if that is in the network of the host, and to the gateway otherwise.
-/

namespace Net

/-! ## What a ping should do -/

def Ip.bits (ip : Ip) : BitVec 32 :=
  (ip.o0.toBitVec ++ ip.o1.toBitVec ++ ip.o2.toBitVec ++ ip.o3.toBitVec : BitVec (8 + 8 + 8 + 8))

def SameNetwork (own mask dst : Ip) : Prop := own.bits &&& mask.bits = dst.bits &&& mask.bits

instance (own mask dst : Ip) : Decidable (SameNetwork own mask dst) :=
  inferInstanceAs (Decidable (_ = _))

def nextHop (own mask gw dst : Ip) : Ip := if SameNetwork own mask dst then dst else gw

def IsArpRequest (frame : List UInt8) : Prop :=
  (frame.drop 12).take 2 = [0x08, 0x06] ∧ (frame.drop 20).take 2 = [0, 1]

def arpTarget (frame : List UInt8) : List UInt8 := (frame.drop 38).take 4

/-- A ping asks for the address of a hop and of no other one, and sends its frame to what the table
has for it. -/
def GoesTo (hop : Ip) (ping : Ping) : Prop :=
  (∀ frame ∈ ping.resolved.sent, IsArpRequest frame → arpTarget frame = hop.bytes) ∧
    ∀ frame, ping.echo = some frame →
      ∃ mac, arpLookup ping.resolved.arpTable hop = some mac ∧ frame.take 6 = mac.bytes

def AlwaysGoesTo (own mask gw dst hop : Ip) : Prop :=
  ∀ host : Host, host.myIp = own → host.myMask = mask → host.myGw = gw → host.sent = [] →
    ∀ timeoutMs freq polls waits, GoesTo hop (netPing host dst timeoutMs freq polls waits)

/-- An octet of the destination that is masked to that of the host is that of the gateway. -/
def OctetAgrees (own mask dst gw : UInt8) : Prop := own &&& mask = dst &&& mask → dst = gw

instance (own mask dst gw : UInt8) : Decidable (OctetAgrees own mask dst gw) :=
  inferInstanceAs (Decidable (_ → _))

/-- The gateway and the destination agree in each octet in which the masked addresses do. -/
def OctetsAgree (own mask dst gw : Ip) : Prop :=
  OctetAgrees own.o0 mask.o0 dst.o0 gw.o0 ∧ OctetAgrees own.o1 mask.o1 dst.o1 gw.o1 ∧
    OctetAgrees own.o2 mask.o2 dst.o2 gw.o2 ∧ OctetAgrees own.o3 mask.o3 dst.o3 gw.o3

/-! ## Masks -/

theorem append_inj {n : Nat} {x x' : BitVec n} {y y' : BitVec 8} (joined : x ++ y = x' ++ y') :
    x = x' ∧ y = y' := by
  have high := congrArg (BitVec.extractLsb' 8 n) joined
  have low := congrArg (BitVec.extractLsb' 0 8) joined
  rw [BitVec.extractLsb'_append_eq_left, BitVec.extractLsb'_append_eq_left] at high
  rw [BitVec.extractLsb'_append_eq_right, BitVec.extractLsb'_append_eq_right] at low
  exact ⟨high, low⟩

/-- Masked addresses are equal if they are octet by octet. -/
theorem sameNetwork_iff (own mask dst : Ip) :
    SameNetwork own mask dst ↔ own.o0 &&& mask.o0 = dst.o0 &&& mask.o0 ∧
      own.o1 &&& mask.o1 = dst.o1 &&& mask.o1 ∧ own.o2 &&& mask.o2 = dst.o2 &&& mask.o2 ∧
        own.o3 &&& mask.o3 = dst.o3 &&& mask.o3 := by
  have octet {a b : UInt8} : a.toBitVec = b.toBitVec → a = b := UInt8.toBitVec_inj.mp
  unfold SameNetwork Ip.bits
  rw [BitVec.and_append, BitVec.and_append, BitVec.and_append, BitVec.and_append,
    BitVec.and_append, BitVec.and_append]
  constructor
  · intro same
    rcases append_inj same with ⟨same, last⟩
    rcases append_inj same with ⟨same, third⟩
    rcases append_inj same with ⟨first, second⟩
    exact ⟨octet first, octet second, octet third, octet last⟩
  · rintro ⟨first, second, third, last⟩
    have bits {a b : UInt8} (same : a = b) : a.toBitVec = b.toBitVec := congrArg _ same
    have first' := bits first
    have second' := bits second
    have third' := bits third
    have last' := bits last
    rw [UInt8.toBitVec_and, UInt8.toBitVec_and] at first' second' third' last'
    rw [first', second', third', last']

/-- The address that is resolved is the next hop only if the octets agree. -/
theorem targetIp_eq_iff (host : Host) (dst : Ip) :
    targetIp host dst = nextHop host.myIp host.myMask host.myGw dst ↔
      SameNetwork host.myIp host.myMask dst ∨
        OctetsAgree host.myIp host.myMask dst host.myGw := by
  unfold nextHop
  split_ifs with same
  · refine iff_of_true ?_ (Or.inl same)
    rcases (sameNetwork_iff _ _ _).mp same with ⟨first, second, third, last⟩
    unfold targetIp targetOctet
    rw [if_pos first, if_pos second, if_pos third, if_pos last]
  · have octet (own mask dst gw : UInt8) :
        targetOctet own mask dst gw = gw ↔ OctetAgrees own mask dst gw := by
      unfold targetOctet OctetAgrees
      split_ifs with masked
      · exact ⟨fun agrees _ => agrees, fun agrees => agrees masked⟩
      · exact iff_of_true rfl fun equal => absurd equal masked
    rw [or_iff_right same]
    unfold OctetsAgree
    rw [← octet, ← octet, ← octet, ← octet]
    exact Ip.mk.injEq .. ▸ Iff.rfl

/-! ## Frames -/

section Frames

variable {hop : Ip}

def Asks (hop : Ip) (host : Host) : Prop :=
  ∀ frame ∈ host.sent, IsArpRequest frame → arpTarget frame = hop.bytes

theorem Asks.send {host : Host} (asks : Asks hop host) {frame : List UInt8}
    (new : IsArpRequest frame → arpTarget frame = hop.bytes) : Asks hop (host.send frame) := by
  unfold Host.send
  split_ifs with refused
  · exact asks
  · intro frame' there
    rcases List.mem_append.mp there with old | last
    · exact asks frame' old
    · rw [List.mem_singleton.mp last]
      exact new

theorem Asks.arpSendReply {host : Host} (asks : Asks hop host) (dstMac : Mac) (dstIp : Ip) :
    Asks hop (arpSendReply host dstMac dstIp) := by
  apply asks.send
  rintro ⟨-, oper⟩
  have reply : ((arpFrame dstMac host 2 dstMac dstIp).drop 20).take 2 = [0, 2] := rfl
  rw [reply] at oper
  exact absurd oper (by decide)

theorem Asks.icmpSendReply {host : Host} (asks : Asks hop host) (stack : Nat → UInt8)
    (dstMac : Mac) (dstIp : Ip) (idSeq : List UInt8) (payload : Nat → UInt8) (plen : Nat) :
    Asks hop (icmpSendReply host stack dstMac dstIp idSeq payload plen) := by
  apply asks.send
  rintro ⟨ethertype, -⟩
  have second := congrArg (·[1]?) ethertype
  rw [List.getElem?_take_of_lt (by decide), List.getElem?_drop, List.getElem?_map] at second
  cases inside : (List.range ((14 + (20 + 8 + plen) % 65536) % 65536))[12 + 1]? with
  | none =>
      rw [inside] at second
      cases second
  | some i =>
      have place : i = 13 := by
        rcases List.getElem?_eq_some_iff.mp inside with ⟨bound, value⟩
        rw [← value, List.getElem_range]
      rw [inside, place] at second
      exact absurd (Option.some.inj second : (0 : UInt8) = 6) (by decide)

theorem Asks.learn {host : Host} (asks : Asks hop host) (table : List (Option ArpEntry)) :
    Asks hop { host with arpTable := table } := asks

theorem Asks.processFrame {host : Host} (asks : Asks hop host) (rx : Received) :
    Asks hop (processFrame host rx) := by
  unfold Net.processFrame
  dsimp only
  split_ifs
  · exact asks
  · exact (asks.learn _).arpSendReply _ _
  · exact asks.learn _
  · exact asks
  · exact asks
  · exact (asks.learn _).icmpSendReply _ _ _ _ _ _
  · exact (asks.learn _).icmpSendReply _ _ _ _ _ _
  all_goals exact asks

theorem Asks.netPoll {host : Host} (asks : Asks hop host) (frames : List Received) :
    Asks hop (netPoll host frames) := by
  unfold Net.netPoll
  split_ifs with ready
  · clear ready
    generalize frames.take 8 = taken
    induction taken generalizing host with
    | nil => exact asks
    | cons rx rest known => exact known (asks.processFrame rx)
  · exact asks

/-- What the loop ends with is what the table has, and its polls ask for no other address. -/
theorem Asks.resolveLoop {host : Host} (asks : Asks hop host) (ip : Ip)
    (polls : List (List Received)) :
    Asks hop (resolveLoop ip host polls).2 ∧ ∀ mac, (resolveLoop ip host polls).1 = some mac →
      arpLookup (resolveLoop ip host polls).2.arpTable ip = some mac := by
  induction polls generalizing host with
  | nil => exact ⟨asks, fun mac none_ => nomatch none_⟩
  | cons frames rest known =>
      unfold Net.resolveLoop
      dsimp only
      cases found : arpLookup (Net.netPoll host frames).arpTable ip with
      | none => exact known (asks.netPoll frames)
      | some mac => exact ⟨asks.netPoll frames, fun mac' same => found.trans same⟩

theorem netArpResolve_asks {host : Host} (fresh : host.sent = []) (polls : List (List Received)) :
    Asks hop (netArpResolve host hop polls).2 ∧ ∀ mac, (netArpResolve host hop polls).1 = some mac →
      arpLookup (netArpResolve host hop polls).2.arpTable hop = some mac := by
  have asks : Asks hop host := by
    intro frame there
    rw [fresh] at there
    cases there
  unfold netArpResolve
  split_ifs with ready
  · cases found : arpLookup host.arpTable hop with
    | some mac => exact ⟨asks, fun mac' same => found.trans same⟩
    | none => exact (asks.send fun _ => rfl).resolveLoop hop polls
  · exact ⟨asks, fun mac none_ => nomatch none_⟩

end Frames

/-! ## The ping -/

theorem netPing_goesTo (host : Host) (fresh : host.sent = []) (dst : Ip)
    (timeoutMs freq : UInt32) (polls : List (List Received)) (waits : List Wait) :
    GoesTo (targetIp host dst) (netPing host dst timeoutMs freq polls waits) := by
  unfold netPing
  by_cases ready : host.netReady = true
  · rw [if_pos ready]
    rcases @netArpResolve_asks (targetIp host dst) host fresh polls with ⟨asks, learned⟩
    dsimp only
    cases found : (netArpResolve host (targetIp host dst) polls).1 with
    | none => exact ⟨asks, fun frame none_ => nomatch none_⟩
    | some mac =>
        refine ⟨asks, fun frame same => ⟨mac, learned mac found, ?_⟩⟩
        rw [← Option.some.inj same]
        rfl
  · rw [if_neg ready]
    refine ⟨fun frame there => ?_, fun frame none_ => nomatch none_⟩
    dsimp only at there
    rw [fresh] at there
    cases there

/-- A host that knows of no address asks for the one that it resolves. -/
theorem goesTo_target {own mask gw dst hop : Ip} (goes : AlwaysGoesTo own mask gw dst hop) :
    targetIp { myIp := own, myMac := ⟨0, 0, 0, 0, 0, 0⟩, myGw := gw, myMask := mask } dst =
      hop := by
  let host : Host := { myIp := own, myMac := ⟨0, 0, 0, 0, 0, 0⟩, myGw := gw, myMask := mask }
  have asked := (goes host rfl rfl rfl rfl 0 0 [] []).1
    (arpFrame ⟨0xFF, 0xFF, 0xFF, 0xFF, 0xFF, 0xFF⟩ host 1 ⟨0, 0, 0, 0, 0, 0⟩ (targetIp host dst))
    (List.mem_singleton_self _) ⟨rfl, rfl⟩
  have same : (targetIp host dst).bytes = hop.bytes := asked
  unfold Ip.bytes at same
  simp only [List.cons.injEq, and_true] at same
  exact (Ip.mk.injEq ..).mpr same

/-- Every ping goes to the next hop exactly if the destination is in the network of the host, or
agrees with the gateway in each octet in which the masked addresses are equal. -/
theorem netPing_nextHop (own mask gw dst : Ip) :
    AlwaysGoesTo own mask gw dst (nextHop own mask gw dst) ↔
      SameNetwork own mask dst ∨ OctetsAgree own mask dst gw := by
  constructor
  · intro goes
    let host : Host := { myIp := own, myMac := ⟨0, 0, 0, 0, 0, 0⟩, myGw := gw, myMask := mask }
    exact (targetIp_eq_iff host dst).mp (goesTo_target goes)
  · rintro right host rfl rfl rfl fresh timeoutMs freq polls waits
    rw [← (targetIp_eq_iff host dst).mpr right]
    exact netPing_goesTo host fresh dst timeoutMs freq polls waits

/-- A host 192.168.1.100 with the mask 255.255.255.0 and the gateway 192.168.1.1 looks for
192.168.1.8 to reach 8.8.8.8. -/
theorem netPing_otherHop : ¬∀ own mask gw dst,
    AlwaysGoesTo own mask gw dst (nextHop own mask gw dst) := by
  intro promise
  have goes := promise ⟨192, 168, 1, 100⟩ ⟨255, 255, 255, 0⟩ ⟨192, 168, 1, 1⟩ ⟨8, 8, 8, 8⟩
  exact absurd (goesTo_target goes) (by decide +kernel)

end Net

end Trinux
