import Mathlib.Data.List.GetD
import Mathlib.Tactic.SplitIfs
import Trinux.Drivers.Net

namespace Trinux

/-!
# Replies to echo requests

A reply has the identifier, the sequence number and the payload of its request.  The host builds it
in an array of the stack, with room for 32 bytes of payload.
-/

namespace Net

open InternetChecksum

/-! ## Packets -/

section Packets

variable (frame : List UInt8)

def byteOf (i : Nat) : UInt8 := frame.getD i 0

def headerLength : Nat := 4 * ((byteOf frame 14).toNat % 16)

def totalLength : Nat := wordAt (byteOf frame) 16

def icmpOf : List UInt8 :=
  (frame.drop (14 + headerLength frame)).take (totalLength frame - headerLength frame)

def idSeqOf : List UInt8 := ((icmpOf frame).drop 4).take 4

def payloadOf : List UInt8 := (icmpOf frame).drop 8

def Within : Prop := 14 + totalLength frame ≤ frame.length

instance : Decidable (Within frame) := inferInstanceAs (Decidable (_ ≤ _))

/-- The frame has an echo request of IPv4 to a host.  The packet may be longer than the frame. -/
structure IsRequest (own : Ip) : Prop where
  header : 14 + 20 ≤ frame.length
  ethertype : wordAt (byteOf frame) 12 = 0x0800
  version : byteOf frame 14 &&& 0xF0 = 0x40
  headerLong : 20 ≤ headerLength frame
  proto : byteOf frame 23 = 1
  dst : ipAt (byteOf frame) 30 = own
  typeInside : 14 + headerLength frame < frame.length
  type : byteOf frame (14 + headerLength frame) = 8
  stated : headerLength frame + 8 ≤ totalLength frame

end Packets

structure IsReply (host : Host) (request reply : List UInt8) : Prop where
  length : reply.length = 14 + totalLength reply
  dstMac : reply.take 6 = (request.drop 6).take 6
  srcMac : (reply.drop 6).take 6 = host.myMac.bytes
  ethertype : wordAt (byteOf reply) 12 = 0x0800
  version : byteOf reply 14 &&& 0xF0 = 0x40
  headerLong : 20 ≤ headerLength reply
  stated : headerLength reply + 8 ≤ totalLength reply
  headerSum : Verifies ((reply.drop 14).take (headerLength reply))
  proto : byteOf reply 23 = 1
  src : ipAt (byteOf reply) 26 = host.myIp
  dst : ipAt (byteOf reply) 30 = ipAt (byteOf request) 26
  icmpSum : Verifies (icmpOf reply)
  type : (icmpOf reply).take 2 = [0, 0]
  idSeq : idSeqOf reply = idSeqOf request
  payload : payloadOf reply = payloadOf request

/-- Whatever the memory behind the frame and on the stack holds, a request is answered if the frame
holds the packet, and dropped otherwise. -/
def Answered (host : Host) (frame : List UInt8) : Prop :=
  if Within frame then
    ∃ reply, IsReply host frame reply ∧ ∀ beyond stack,
      (processFrame host ⟨frame, beyond, stack⟩).sent = host.sent ++ [reply]
  else ∀ beyond stack, (processFrame host ⟨frame, beyond, stack⟩).sent = host.sent

/-- The packet is in the frame, has no options and a payload of at most 32 bytes; or it is not in
the frame, and the frame is too short for a message, or the byte behind 20 bytes of header is not
the type of a request, or the card refuses a frame of the stated length. -/
def Handled (frame : List UInt8) : Prop :=
  if Within frame then headerLength frame = 20 ∧ (payloadOf frame).length ≤ 32
  else frame.length < 42 ∨ byteOf frame 34 ≠ 8 ∨ (14 + totalLength frame) % 65536 = 0 ∨
    2048 < (14 + totalLength frame) % 65536

/-! ## Checksums -/

theorem checksumLoop_eq (data : List UInt8) (sum : Nat) (small : sum + sumLow data < 2 ^ 32) :
    checksumLoop sum data = sum + sumLow data := by
  induction data using sumLow.induct generalizing sum with
  | case1 => rfl
  | case2 a => exact Nat.mod_eq_of_lt small
  | case3 a b rest known =>
      rw [sumLow] at small ⊢
      rw [checksumLoop, Nat.mod_eq_of_lt (by omega), known _ (by omega), Nat.add_assoc]

theorem inetChecksum_eq (data : List UInt8) (short : data.length ≤ 65536) :
    inetChecksum data = wordBytes (65535 - fold (sumLow data)) := by
  have most := sumLow_le data
  rw [inetChecksum, checksumLoop_eq _ _ (by omega), Nat.zero_add]

theorem ipHeader_verifies (total : Nat) (src dst : Ip) :
    Verifies (ipHeader total [0, 0] src dst) := by
  have short : (ipHeaderWith [0, 0] total [0, 0] src dst).length ≤ 65536 := by
    have long : (ipHeaderWith [0, 0] total [0, 0] src dst).length = 20 := rfl
    omega
  rw [ipHeader, inetChecksum_eq _ short]
  have even :
      ([0x45, 0] ++ htons total ++ [0, 0] ++ [0, 0, 64, 1] : List UInt8).length % 2 = 0 := by
    simp [htons]
  exact @verifies_complement _ (src.bytes ++ dst.bytes) even

theorem icmpMessage_verifies (type : UInt8) (idSeq data : List UInt8)
    (short : idSeq.length + data.length ≤ 65532) : Verifies (icmpMessage type idSeq data) := by
  have short' : (icmpWith [0, 0] type idSeq data).length ≤ 65536 := by
    unfold icmpWith
    simp only [List.length_append, List.length_cons, List.length_nil]
    omega
  rw [icmpMessage, inetChecksum_eq _ short']
  have even : ([type, 0] : List UInt8).length % 2 = 0 := by simp
  have sums := @verifies_complement _ (idSeq ++ data) even
  unfold icmpWith
  rw [List.append_assoc, List.append_assoc, List.append_assoc, List.append_assoc]
  exact sums

/-! ## What the host sends -/

section Sends

variable {host : Host} {frame : List UInt8}

def writtenReply (host : Host) (dstMac : Mac) (dstIp : Ip) (idSeq data : List UInt8)
    (total : Nat) : List UInt8 :=
  ethHeader dstMac host.myMac 0x0800 ++
    (ipHeader total [0, 0] host.myIp dstIp ++ icmpMessage 0 idSeq data)

theorem writtenReply_length (dstMac : Mac) (dstIp : Ip) (idSeq data : List UInt8) (total : Nat) :
    (writtenReply host dstMac dstIp idSeq data total).length = 38 + idSeq.length + data.length := by
  have front : (ethHeader dstMac host.myMac 0x0800).length = 14 := rfl
  have header : (ipHeader total [0, 0] host.myIp dstIp).length = 20 := rfl
  have sum (data : List UInt8) : (inetChecksum data).length = 2 := rfl
  unfold writtenReply icmpMessage icmpWith
  rw [List.length_append, List.length_append, List.length_append, List.length_append,
    List.length_append, front, header, sum]
  change 14 + (20 + (2 + 2 + idSeq.length + data.length)) = _
  omega

theorem memory_eq (beyond stack : Nat → UInt8) {i : Nat} (inside : i < frame.length) :
    (Received.mk frame beyond stack).memory i = byteOf frame i := by
  unfold Received.memory byteOf
  rw [List.getD_eq_getElem _ _ inside, List.getD_eq_getElem _ _ inside]

theorem ipAt_eq (beyond stack : Nat → UInt8) {i : Nat} (inside : i + 4 ≤ frame.length) :
    ipAt (Received.mk frame beyond stack).memory i = ipAt (byteOf frame) i := by
  unfold ipAt
  rw [memory_eq, memory_eq, memory_eq, memory_eq] <;> omega

theorem macAt_eq (beyond stack : Nat → UInt8) {i : Nat} (inside : i + 6 ≤ frame.length) :
    macAt (Received.mk frame beyond stack).memory i = macAt (byteOf frame) i := by
  unfold macAt
  rw [memory_eq, memory_eq, memory_eq, memory_eq, memory_eq, memory_eq] <;> omega

theorem wordAt_eq (beyond stack : Nat → UInt8) {i : Nat} (inside : i + 2 ≤ frame.length) :
    wordAt (Received.mk frame beyond stack).memory i = wordAt (byteOf frame) i := by
  unfold wordAt
  rw [memory_eq, memory_eq] <;> omega

def copied (frame : List UInt8) (beyond : Nat → UInt8) (plen : Nat) : List UInt8 :=
  (List.range plen).map fun i => (Received.mk frame beyond beyond).memory (42 + i)

def replyTo (host : Host) (frame : List UInt8) (beyond : Nat → UInt8) : List UInt8 :=
  writtenReply host (macAt (byteOf frame) 6) (ipAt (byteOf frame) 26)
    [byteOf frame 38, byteOf frame 39, byteOf frame 40, byteOf frame 41]
    (copied frame beyond (min (totalLength frame - 28) 32)) (totalLength frame)

theorem totalLength_lt (frame : List UInt8) : totalLength frame < 65536 := by
  have high := (byteOf frame 16).toNat_lt
  have low := (byteOf frame (16 + 1)).toNat_lt
  unfold totalLength wordAt
  omega

theorem send_learned (host : Host) (table : List (Option ArpEntry)) (reply : List UInt8) :
    (Host.send { host with arpTable := table } reply).sent = (host.send reply).sent := by
  unfold Host.send
  split_ifs <;> rfl

/-- A request with the type at the place behind a header of 20 bytes is replied to with a frame of
the length that it states. -/
theorem processFrame_replies (request : IsRequest frame host.myIp) (long : 42 ≤ frame.length)
    (type : byteOf frame 34 = 8) (beyond stack : Nat → UInt8) :
    (processFrame host ⟨frame, beyond, stack⟩).sent = (host.send
      ((List.range ((14 + totalLength frame) % 65536)).map fun i =>
        (replyTo host frame beyond).getD i (stack i))).sent := by
  have total : 28 ≤ totalLength frame := by
    have header := request.headerLong
    have stated := request.stated
    omega
  have small := totalLength_lt frame
  unfold processFrame
  dsimp only
  rw [if_neg (by omega), wordAt_eq beyond stack (by omega), request.ethertype,
    if_neg (fun both => absurd both.1 (by decide)), if_pos ⟨rfl, by omega⟩,
    memory_eq beyond stack (by omega), if_neg (not_not.mpr request.version),
    ipAt_eq beyond stack (by omega), if_neg (not_not.mpr request.dst),
    memory_eq beyond stack (by omega), if_pos ⟨request.proto, long⟩,
    memory_eq beyond stack (by omega), if_pos type, wordAt_eq beyond stack (by omega)]
  have plen : (if 8 < (totalLength frame + (65536 - 20)) % 65536 then
      (totalLength frame + (65536 - 20)) % 65536 - 8 else 0) = totalLength frame - 28 := by
    split_ifs <;> omega
  have whole : (20 + 8 + (totalLength frame - 28)) % 65536 = totalLength frame := by omega
  change (icmpSendReply _ _ _ _ _ _ (if 8 < (totalLength frame + (65536 - 20)) % 65536 then
      (totalLength frame + (65536 - 20)) % 65536 - 8 else 0)).sent = _
  rw [plen, macAt_eq beyond stack (by omega), ipAt_eq beyond stack (by omega),
    memory_eq beyond stack (by omega), memory_eq beyond stack (by omega),
    memory_eq beyond stack (by omega), memory_eq beyond stack (by omega)]
  unfold icmpSendReply
  dsimp only
  rw [whole]
  exact send_learned host _ _

theorem processFrame_drops (request : IsRequest frame host.myIp)
    (other : frame.length < 42 ∨ byteOf frame 34 ≠ 8) (beyond stack : Nat → UInt8) :
    (processFrame host ⟨frame, beyond, stack⟩).sent = host.sent := by
  have header := request.header
  unfold processFrame
  dsimp only
  rw [if_neg (by omega), wordAt_eq beyond stack (by omega), request.ethertype,
    if_neg (fun both => absurd both.1 (by decide)), if_pos ⟨rfl, by omega⟩,
    memory_eq beyond stack (by omega), if_neg (not_not.mpr request.version),
    ipAt_eq beyond stack (by omega), if_neg (not_not.mpr request.dst)]
  by_cases long : 34 + 8 ≤ frame.length
  · have type := other.resolve_left (by omega)
    rw [memory_eq beyond stack (by omega), if_pos ⟨request.proto, long⟩,
      memory_eq beyond stack (by omega), if_neg type]
    split_ifs <;> rfl
  · rw [if_neg fun both => long both.2]

theorem send_eq {reply new : List UInt8} (sent : (host.send new).sent = host.sent ++ [reply]) :
    reply = new := by
  unfold Host.send at sent
  split_ifs at sent with refused
  · exact absurd (List.self_eq_append_right.mp sent) (List.cons_ne_nil _ _)
  · exact (List.singleton_inj.mp (List.append_cancel_left sent)).symm

theorem send_dropped {new : List UInt8} :
    (host.send new).sent = host.sent ↔ new.length = 0 ∨ 2048 < new.length := by
  unfold Host.send
  split_ifs with refused
  · exact iff_of_true rfl refused
  · refine iff_of_false (fun same => ?_) refused
    exact absurd (List.append_right_eq_self.mp same) (List.cons_ne_nil _ _)

/-! ## The bytes of a reply -/

section Written

variable {dstMac : Mac} {dstIp : Ip} {a b c d : UInt8} {data : List UInt8} {total : Nat}

theorem writtenReply_total (small : total < 65536) :
    totalLength (writtenReply host dstMac dstIp [a, b, c, d] data total) = total := by
  change 256 * (UInt8.ofNat (total / 256)).toNat + (UInt8.ofNat total).toNat = total
  rw [UInt8.toNat_ofNat', UInt8.toNat_ofNat']
  omega

theorem writtenReply_first :
    byteOf (writtenReply host dstMac dstIp [a, b, c, d] data total) 14 = 0x45 := rfl

theorem writtenReply_header :
    headerLength (writtenReply host dstMac dstIp [a, b, c, d] data total) = 20 := by
  rw [headerLength, writtenReply_first]
  rfl

theorem writtenReply_icmp (small : total < 65536) (whole : total = 28 + data.length) :
    icmpOf (writtenReply host dstMac dstIp [a, b, c, d] data total) =
      icmpMessage 0 [a, b, c, d] data := by
  have message : (writtenReply host dstMac dstIp [a, b, c, d] data total).drop 34 =
      icmpMessage 0 [a, b, c, d] data := rfl
  have long : (icmpMessage 0 [a, b, c, d] data).length = 8 + data.length := by
    rw [← message, List.length_drop, writtenReply_length]
    simp only [List.length_cons, List.length_nil]
    omega
  rw [icmpOf, writtenReply_header, writtenReply_total small, message]
  apply List.take_of_length_le
  omega

end Written

theorem take_four {i : Nat} (inside : i + 4 ≤ frame.length) :
    (frame.drop i).take 4 =
      [byteOf frame i, byteOf frame (i + 1), byteOf frame (i + 2), byteOf frame (i + 3)] := by
  unfold byteOf
  rw [List.drop_eq_getElem_cons (by omega), List.drop_eq_getElem_cons (by omega),
    List.drop_eq_getElem_cons (by omega), List.drop_eq_getElem_cons (by omega),
    List.getD_eq_getElem _ _ (by omega), List.getD_eq_getElem _ _ (by omega),
    List.getD_eq_getElem _ _ (by omega), List.getD_eq_getElem _ _ (by omega)]
  rfl

theorem take_six {i : Nat} (inside : i + 6 ≤ frame.length) :
    (frame.drop i).take 6 = (macAt (byteOf frame) i).bytes := by
  unfold macAt Mac.bytes byteOf
  rw [List.drop_eq_getElem_cons (by omega), List.drop_eq_getElem_cons (by omega),
    List.drop_eq_getElem_cons (by omega), List.drop_eq_getElem_cons (by omega),
    List.drop_eq_getElem_cons (by omega), List.drop_eq_getElem_cons (by omega),
    List.getD_eq_getElem _ _ (by omega), List.getD_eq_getElem _ _ (by omega),
    List.getD_eq_getElem _ _ (by omega), List.getD_eq_getElem _ _ (by omega),
    List.getD_eq_getElem _ _ (by omega), List.getD_eq_getElem _ _ (by omega)]
  rfl

theorem idSeqOf_eq (plain : headerLength frame = 20) (stated : 28 ≤ totalLength frame)
    (long : 42 ≤ frame.length) :
    idSeqOf frame = [byteOf frame 38, byteOf frame 39, byteOf frame 40, byteOf frame 41] := by
  rw [idSeqOf, icmpOf, plain, List.drop_take, List.take_take, List.drop_drop,
    Nat.min_eq_left (by omega), take_four (by omega)]

theorem payloadOf_length (within : Within frame) :
    (payloadOf frame).length = totalLength frame - headerLength frame - 8 := by
  unfold Within at within
  rw [payloadOf, icmpOf, List.length_drop, List.length_take, List.length_drop]
  omega

theorem copied_eq (beyond : Nat → UInt8) {plen : Nat} (inside : 42 + plen ≤ frame.length) :
    copied frame beyond plen = (frame.drop 42).take plen := by
  unfold copied
  apply List.ext_getElem
  · rw [List.length_map, List.length_range, List.length_take, List.length_drop]
    omega
  · intro i before after
    rw [List.length_map, List.length_range] at before
    rw [List.getElem_take, List.getElem_drop, List.getElem_map, List.getElem_range,
      memory_eq beyond beyond (by omega), byteOf, List.getD_eq_getElem _ _ (by omega)]

/-- A request without options and with a short payload in its frame is answered. -/
theorem replyTo_isReply (request : IsRequest frame host.myIp) (within : Within frame)
    (plain : headerLength frame = 20) (short : (payloadOf frame).length ≤ 32)
    (beyond : Nat → UInt8) : IsReply host frame (replyTo host frame beyond) := by
  have stated := request.stated
  have length := payloadOf_length within
  have small := totalLength_lt frame
  unfold Within at within
  have data : copied frame beyond (min (totalLength frame - 28) 32) = payloadOf frame := by
    rw [Nat.min_eq_left (by omega), copied_eq beyond (by omega), payloadOf, icmpOf, plain,
      List.drop_take, List.drop_drop]
    congr 1
  have whole : totalLength frame = 28 + (payloadOf frame).length := by omega
  unfold replyTo
  rw [data]
  have total := @writtenReply_total host (macAt (byteOf frame) 6) (ipAt (byteOf frame) 26)
    (byteOf frame 38) (byteOf frame 39) (byteOf frame 40) (byteOf frame 41) (payloadOf frame)
    (totalLength frame) small
  have icmp := @writtenReply_icmp host (macAt (byteOf frame) 6) (ipAt (byteOf frame) 26)
    (byteOf frame 38) (byteOf frame 39) (byteOf frame 40) (byteOf frame 41) (payloadOf frame)
    (totalLength frame) small whole
  exact
    { length := by
        rw [total, writtenReply_length]
        simp only [List.length_cons, List.length_nil]
        omega
      dstMac := (take_six (by omega)).symm
      srcMac := rfl
      ethertype := rfl
      version := by
        rw [writtenReply_first]
        rfl
      headerLong := by rw [writtenReply_header]
      stated := by
        rw [writtenReply_header, total]
        omega
      headerSum := by
        rw [writtenReply_header]
        exact ipHeader_verifies (totalLength frame) host.myIp (ipAt (byteOf frame) 26)
      proto := rfl
      src := rfl
      dst := rfl
      icmpSum := by
        rw [icmp]
        apply icmpMessage_verifies
        simp only [List.length_cons, List.length_nil]
        omega
      type := by
        rw [icmp]
        rfl
      idSeq := by
        rw [idSeqOf, icmp, idSeqOf_eq plain (by omega) (by omega)]
        rfl
      payload := by
        rw [payloadOf, icmp]
        rfl }

end Sends

/-! ## Requests -/

section Requests

variable {host : Host} {frame : List UInt8}

theorem replyTo_length (beyond : Nat → UInt8) :
    (replyTo host frame beyond).length = 42 + min (totalLength frame - 28) 32 := by
  rw [replyTo, writtenReply_length, copied, List.length_map, List.length_range]
  rfl

/-- An array that is sent as far as it is written is what was written. -/
theorem map_getD (written : List UInt8) (stack : Nat → UInt8) :
    ((List.range written.length).map fun i => written.getD i (stack i)) = written := by
  apply List.ext_getElem
  · rw [List.length_map, List.length_range]
  · intro i before after
    rw [List.getElem_map, List.getElem_range, List.getD_eq_getElem _ _ after]

/-- A reply that does not depend on the stack has at most 32 bytes of payload. -/
theorem reply_written (request : IsRequest frame host.myIp) (long : 42 ≤ frame.length)
    (type : byteOf frame 34 = 8) {reply : List UInt8} (isReply : IsReply host frame reply)
    (sent : ∀ beyond stack,
      (processFrame host ⟨frame, beyond, stack⟩).sent = host.sent ++ [reply]) :
    totalLength frame ≤ 60 ∧ reply = replyTo host frame fun _ => 0 := by
  have stated := request.stated
  have headerLong := request.headerLong
  have small := totalLength_lt frame
  have written := @replyTo_length host frame fun _ => 0
  have each (value : UInt8) : reply = (List.range ((14 + totalLength frame) % 65536)).map
      fun i => (replyTo host frame fun _ => 0).getD i value := by
    apply send_eq
    rw [← processFrame_replies request long type (fun _ => 0) fun _ => value]
    exact sent (fun _ => 0) fun _ => value
  have length : reply.length = (14 + totalLength frame) % 65536 := by
    rw [each 0, List.length_map, List.length_range]
  have unwrapped : (14 + totalLength frame) % 65536 = 14 + totalLength frame := by
    have replyLength := isReply.length
    have replyStated := isReply.stated
    have replyHeader := isReply.headerLong
    omega
  rw [unwrapped] at each
  have short : totalLength frame ≤ 60 := by
    by_contra longer
    have byte (value : UInt8) : reply[74]? = some value := by
      rw [each value, List.getElem?_map, List.getElem?_range (by omega), Option.map_some,
        List.getD_eq_default _ _ (by omega)]
    exact absurd (Option.some.inj ((byte 0).symm.trans (byte 1))) (by decide)
  refine ⟨short, ?_⟩
  have all := map_getD (replyTo host frame fun _ => 0) fun _ => 0
  have whole : (replyTo host frame fun _ => 0).length = 14 + totalLength frame := by omega
  rw [whole] at all
  exact (each 0).trans all

/-- A request in its frame is answered if it has no options and a short payload. -/
theorem answered_within (request : IsRequest frame host.myIp) (within : Within frame) :
    (∃ reply, IsReply host frame reply ∧ ∀ beyond stack,
      (processFrame host ⟨frame, beyond, stack⟩).sent = host.sent ++ [reply]) ↔
      headerLength frame = 20 ∧ (payloadOf frame).length ≤ 32 := by
  have stated := request.stated
  have headerLong := request.headerLong
  have small := totalLength_lt frame
  have payload := payloadOf_length within
  constructor
  · rintro ⟨reply, isReply, sent⟩
    by_cases replied : 42 ≤ frame.length ∧ byteOf frame 34 = 8
    · rcases reply_written request replied.1 replied.2 isReply sent with ⟨short, rfl⟩
      have total : totalLength (replyTo host frame fun _ => 0) = totalLength frame :=
        writtenReply_total small
      have header : headerLength (replyTo host frame fun _ => 0) = 20 := writtenReply_header
      have length : (payloadOf (replyTo host frame fun _ => 0)).length =
          totalLength frame - 20 - 8 := by
        rw [payloadOf_length (Nat.le_of_eq isReply.length.symm), total, header]
      rw [isReply.payload] at length
      omega
    · have other := (not_and_or.mp replied).imp_left Nat.lt_of_not_le
      have dropped := processFrame_drops request other (fun _ => 0) fun _ => 0
      rw [sent] at dropped
      exact absurd (List.append_right_eq_self.mp dropped) (List.cons_ne_nil _ _)
  · rintro ⟨plain, short⟩
    refine ⟨replyTo host frame fun _ => 0, replyTo_isReply request within plain short _, ?_⟩
    intro beyond stack
    have type := request.type
    rw [plain] at type
    unfold Within at within
    have same : replyTo host frame beyond = replyTo host frame fun _ => 0 := by
      unfold replyTo
      rw [copied_eq beyond (by omega), copied_eq (fun _ => 0) (by omega)]
    have whole : (14 + totalLength frame) % 65536 =
        (replyTo host frame fun _ => 0).length := by
      rw [replyTo_length]
      omega
    have length := @replyTo_length host frame fun _ => 0
    rw [processFrame_replies request (by omega) type, same, whole, map_getD, Host.send,
      if_neg (by omega)]

/-- A request that is longer than its frame is dropped if it is not looked at, or if the card
refuses the reply. -/
theorem answered_beyond (request : IsRequest frame host.myIp) :
    (∀ beyond stack, (processFrame host ⟨frame, beyond, stack⟩).sent = host.sent) ↔
      frame.length < 42 ∨ byteOf frame 34 ≠ 8 ∨ (14 + totalLength frame) % 65536 = 0 ∨
        2048 < (14 + totalLength frame) % 65536 := by
  by_cases replied : 42 ≤ frame.length ∧ byteOf frame 34 = 8
  · have each (beyond stack : Nat → UInt8) :
        (processFrame host ⟨frame, beyond, stack⟩).sent = host.sent ↔
          (14 + totalLength frame) % 65536 = 0 ∨ 2048 < (14 + totalLength frame) % 65536 := by
      rw [processFrame_replies request replied.1 replied.2, send_dropped, List.length_map,
        List.length_range]
    rw [or_iff_right (Nat.not_lt.mpr replied.1), or_iff_right (not_not.mpr replied.2)]
    constructor
    · intro dropped
      exact (each _ _).mp (dropped (fun _ => 0) fun _ => 0)
    · intro refused beyond stack
      exact (each beyond stack).mpr refused
  · have other := (not_and_or.mp replied).imp_left Nat.lt_of_not_le
    refine iff_of_true (processFrame_drops request other) ?_
    exact other.imp_right Or.inl

end Requests

/-- A request is answered as it should be exactly if the host handles its lengths. -/
theorem processFrame_answered (host : Host) (frame : List UInt8)
    (request : IsRequest frame host.myIp) : Answered host frame ↔ Handled frame := by
  unfold Answered Handled
  by_cases within : Within frame
  · rw [if_pos within, if_pos within]
    exact answered_within request within
  · rw [if_neg within, if_neg within]
    exact answered_beyond request

/-- A frame for a host with the address 10.0.0.2 and a packet of the stated length. -/
def echoFrame (total : UInt8) (payload : List UInt8) : List UInt8 :=
  [2, 2, 2, 2, 2, 2, 3, 3, 3, 3, 3, 3, 8, 0, 0x45, 0, 0, total, 0, 0, 0, 0, 64, 1, 0, 0, 10, 0, 0,
    1, 10, 0, 0, 2, 8, 0, 0, 0, 1, 2, 0, 1] ++ payload

def echoHost : Host :=
  { myIp := ⟨10, 0, 0, 2⟩, myMac := ⟨2, 2, 2, 2, 2, 2⟩, myGw := ⟨10, 0, 0, 1⟩,
    myMask := ⟨255, 0, 0, 0⟩ }

instance (frame : List UInt8) (own : Ip) : Decidable (IsRequest frame own) :=
  decidable_of_iff (14 + 20 ≤ frame.length ∧ wordAt (byteOf frame) 12 = 0x0800 ∧
    byteOf frame 14 &&& 0xF0 = 0x40 ∧ 20 ≤ headerLength frame ∧ byteOf frame 23 = 1 ∧
    ipAt (byteOf frame) 30 = own ∧ 14 + headerLength frame < frame.length ∧
    byteOf frame (14 + headerLength frame) = 8 ∧ headerLength frame + 8 ≤ totalLength frame)
    ⟨fun ⟨a, b, c, d, e, f, g, h, i⟩ => ⟨a, b, c, d, e, f, g, h, i⟩,
      fun ⟨a, b, c, d, e, f, g, h, i⟩ => ⟨a, b, c, d, e, f, g, h, i⟩⟩

theorem processFrame_answered_three :
    Answered echoHost (echoFrame 31 [1, 2, 3]) ↔ Handled (echoFrame 31 [1, 2, 3]) :=
  processFrame_answered echoHost (echoFrame 31 [1, 2, 3]) (by decide)

/-- A request that states 100 bytes in a frame of 45 gets a reply. -/
theorem processFrame_overlong : ¬∀ (host : Host) (frame : List UInt8),
    IsRequest frame host.myIp → Answered host frame := by
  intro promise
  have request : IsRequest (echoFrame 100 [1, 2, 3]) echoHost.myIp := by decide
  have answered := promise echoHost (echoFrame 100 [1, 2, 3]) request
  rw [Answered, if_neg (by decide), answered_beyond request] at answered
  exact absurd answered (by decide)

end Net

end Trinux
