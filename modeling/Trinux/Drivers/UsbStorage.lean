import Trinux.Lib.Bytes

namespace Trinux

open Bytes

/-!
# Writing to a USB disk

A command goes to the device in a wrapper, its data follow, and the device answers with a status.  A
command that fails is tried again; after a failed status the driver asks for the sense data, which
come into the buffer that holds the data of the command.
-/

namespace UsbStorage

/-- What the device answers in one attempt of a command: the results of the transfers of the
wrapper, of the data and of the status, the bytes of an IN data phase and those of the status. -/
structure Answers where
  cbwRc : Int
  dataRc : Int
  dataIn : List UInt8
  cswRc : Int
  csw : List UInt8

abbrev Device := Nat → Answers

/-- The state of the driver with its static buffers; the number of attempts and the writes that the
device has passed, each with its command block and its data, are history. -/
structure Usb where
  haveXhci : Bool
  dmaReady : Bool
  dmaBuf : List UInt8
  cbw : List UInt8
  csw : List UInt8
  msdTag : UInt32
  attempts : Nat
  received : List (List UInt8 × List UInt8)

def cbwSignature : UInt32 := 0x43425355

def cswSignature : UInt32 := 0x53425355

def scsiRequestSense : UInt8 := 0x03

def scsiWrite10 : UInt8 := 0x2A

def writeChunk : Nat := 4

def deliver (buf new : List UInt8) : List UInt8 := new ++ buf.drop new.length

def buildCbw (tag : UInt32) (scsiCmd : List UInt8) (dataLen : Nat) (dirIn : Bool) : List UInt8 :=
  le32 cbwSignature ++ le32 tag ++ le32 (UInt32.ofNat dataLen) ++
    [if dirIn then 0x80 else 0, 0, UInt8.ofNat scsiCmd.length] ++ scsiCmd ++
    List.replicate (16 - scsiCmd.length) 0

inductive AttemptEnd where
  | passed
  | failedStatus
  | again
  deriving DecidableEq

def checkCsw (csw cbw : List UInt8) : AttemptEnd :=
  if readU32 csw 0 ≠ cswSignature ∨ readU32 csw 4 ≠ readU32 cbw 4 then .again
  else if byteAt csw 12 ≠ 0 then .failedStatus
  else .passed

def attempt (device : Device) (scsiCmd : List UInt8) (dataLen : Nat) (dirIn : Bool) (s : Usb) :
    AttemptEnd × Usb :=
  let answers := device s.attempts
  let cbw := buildCbw s.msdTag scsiCmd dataLen dirIn
  let s := { s with cbw := cbw, msdTag := s.msdTag + 1, attempts := s.attempts + 1 }
  if answers.cbwRc ≠ 0 then (.again, s)
  else
    let sent := s.dmaBuf.take dataLen
    let csw := deliver (List.replicate 13 0) (answers.csw.take 13)
    let s := { s with
      dmaBuf := if dirIn then deliver s.dmaBuf (answers.dataIn.take dataLen) else s.dmaBuf
      csw := csw }
    if answers.dataRc ≠ 0 then (.again, s)
    else if answers.cswRc ≠ 0 then (.again, s)
    else
      let ending := checkCsw csw cbw
      (ending,
        { s with
          received := s.received ++
            if ending = .passed ∧ dirIn = false then [(scsiCmd, sent)] else [] })

def msdAttempts (device : Device) (onFailed : Usb → Usb) (scsiCmd : List UInt8) (dataLen : Nat)
    (dirIn : Bool) : Nat → Usb → Int × Usb
  | 0, s => (-4, s)
  | left + 1, s =>
      let tried := attempt device scsiCmd dataLen dirIn s
      if tried.1 = .passed then (0, tried.2)
      else
        msdAttempts device onFailed scsiCmd dataLen dirIn left
          (if tried.1 = .failedStatus then onFailed tried.2 else tried.2)

/-- The REQUEST SENSE of `msd_command`, which asks for no sense data of its own. -/
def requestSense (device : Device) (s : Usb) : Usb :=
  (msdAttempts device id [scsiRequestSense, 0, 0, 0, 18, 0] 18 true 3 s).2

def msdCommand (device : Device) (scsiCmd : List UInt8) (dataLen : Nat) (dirIn : Bool) (s : Usb) :
    Int × Usb :=
  msdAttempts device (if scsiCmd.head? ≠ some scsiRequestSense then requestSense device else id)
    scsiCmd dataLen dirIn 3 s

def write10 (lba : UInt32) (chunk : Nat) : List UInt8 :=
  [scsiWrite10, 0, (lba >>> 24).toUInt8, (lba >>> 16).toUInt8, (lba >>> 8).toUInt8, lba.toUInt8, 0,
    UInt8.ofNat (chunk / 256), UInt8.ofNat chunk, 0]

def nextChunk (remaining : Nat) : Nat := if writeChunk < remaining then writeChunk else remaining

theorem nextChunk_pos {remaining : Nat} (positive : 0 < remaining) : 0 < nextChunk remaining := by
  unfold nextChunk
  split
  · decide
  · exact positive

/-- The loop of `xhci_write_sectors`, which writes at least a sector in a round: as many rounds as
there are sectors are enough. -/
def writeLoop (device : Device) (buf : Nat → UInt8) :
    (rounds : Nat) → (curLba : UInt32) → (offset remaining : Nat) → Usb → Int × Usb
  | 0, _, _, _, s => (0, s)
  | rounds + 1, curLba, offset, remaining, s =>
      if remaining = 0 then (0, s)
      else
        let chunk := nextChunk remaining
        let s := { s with dmaBuf := deliver s.dmaBuf (window buf offset (chunk * 512)) }
        let answer := msdCommand device (write10 curLba chunk) (chunk * 512) false s
        if answer.1 ≠ 0 then answer
        else
          writeLoop device buf rounds (curLba + UInt32.ofNat chunk) (offset + chunk * 512)
            (remaining - chunk) answer.2

def xhciWriteSectors (device : Device) (s : Usb) (lba : UInt32) (count : UInt16)
    (buf : Nat → UInt8) : Int × Usb :=
  if !s.haveXhci ∨ count = 0 then (-10, s)
  else if !s.dmaReady then (-12, s)
  else writeLoop device buf count.toNat lba 0 count.toNat s

def callerWrites (buf : Nat → UInt8) :
    (rounds : Nat) → (curLba : UInt32) → (offset remaining : Nat) → List (List UInt8 × List UInt8)
  | 0, _, _, _ => []
  | rounds + 1, curLba, offset, remaining =>
      if remaining = 0 then []
      else
        let chunk := nextChunk remaining
        (write10 curLba chunk, window buf offset (chunk * 512)) ::
          callerWrites buf rounds (curLba + UInt32.ofNat chunk) (offset + chunk * 512)
            (remaining - chunk)

/-! ## what the answers of the device say -/

def Answers.ending (answers : Answers) (tag : UInt32) : AttemptEnd :=
  let csw := deliver (List.replicate 13 0) (answers.csw.take 13)
  if answers.cbwRc ≠ 0 then .again
  else if answers.dataRc ≠ 0 then .again
  else if answers.cswRc ≠ 0 then .again
  else if readU32 csw 0 ≠ cswSignature ∨ readU32 csw 4 ≠ tag then .again
  else if byteAt csw 12 ≠ 0 then .failedStatus
  else .passed

def Answers.sense (answers : Answers) : List UInt8 :=
  if answers.cbwRc ≠ 0 then [] else answers.dataIn.take 18

def endings (device : Device) (first : UInt32) (i : Nat) : AttemptEnd :=
  (device i).ending (first + UInt32.ofNat i)

def senseAttempts (ends : Nat → AttemptEnd) : (left i : Nat) → List Nat
  | 0, _ => []
  | left + 1, i => if ends i = .passed then [i] else i :: senseAttempts ends left (i + 1)

/-- The sense data that come between the attempts of a write and the number of the attempts, if the
device passes the write. -/
def senseBetween (device : Device) (ends : Nat → AttemptEnd) :
    (left i : Nat) → Option (List (List UInt8) × Nat)
  | 0, _ => none
  | left + 1, i =>
      match ends i with
      | .passed => some ([], i + 1)
      | .again => senseBetween device ends left (i + 1)
      | .failedStatus =>
          let attempts := senseAttempts ends 3 (i + 1)
          (senseBetween device ends left (i + 1 + attempts.length)).map fun rest =>
            (attempts.map (fun j => (device j).sense) ++ rest.1, rest.2)

/-- The sense data that come between the attempts of each chunk, if the device passes all chunks. -/
def senseOfChunks (device : Device) (ends : Nat → AttemptEnd) :
    (rounds remaining i : Nat) → Option (List (List (List UInt8)))
  | 0, _, _ => some []
  | rounds + 1, remaining, i =>
      if remaining = 0 then some []
      else
        match senseBetween device ends 3 i with
        | none => none
        | some (data, i) =>
            (senseOfChunks device ends rounds (remaining - nextChunk remaining) i).map (data :: ·)

/-- The sense data that come between the attempts of a chunk, if the device passes all of them,
change no byte of the chunk over which they are laid. -/
def SenseHarmless (device : Device) (s : Usb) (lba : UInt32) (count : UInt16) (buf : Nat → UInt8) :
    Prop :=
  s.haveXhci = true → s.dmaReady = true →
    ∀ data, senseOfChunks device (endings device (s.msdTag - UInt32.ofNat s.attempts)) count.toNat
        count.toNat s.attempts = some data →
      ∀ pair ∈ (callerWrites buf count.toNat lba 0 count.toNat).zip data,
        pair.2.foldl deliver pair.1.2 = pair.1.2

/-! ## buffers -/

theorem take_deliver {buf new : List UInt8} {count : Nat} (short : new.length ≤ count) :
    (deliver buf new).take count = deliver (buf.take count) new := by
  unfold deliver
  rw [List.take_append, List.take_of_length_le short, List.drop_take]

theorem take_deliver_all {count : Nat} (all : List (List UInt8))
    (short : ∀ new ∈ all, new.length ≤ count) (buf : List UInt8) :
    (all.foldl deliver buf).take count = all.foldl deliver (buf.take count) := by
  induction all generalizing buf with
  | nil => rfl
  | cons new rest ih =>
      rw [List.foldl_cons, List.foldl_cons, ih fun new member => short new (List.mem_cons_of_mem _ member),
        take_deliver (short new List.mem_cons_self)]

theorem take_filled (buf new : List UInt8) : (deliver buf new).take new.length = new := by
  unfold deliver
  rw [List.take_append, Nat.sub_self, List.take_zero, List.append_nil, List.take_length]

theorem sense_short (answers : Answers) : answers.sense.length ≤ 18 := by
  unfold Answers.sense
  split
  · exact Nat.zero_le 18
  · rw [List.length_take]
    exact Nat.min_le_left _ _

theorem readU32_cbw (tag : UInt32) (scsiCmd : List UInt8) (dataLen : Nat) (dirIn : Bool) :
    readU32 (buildCbw tag scsiCmd dataLen dirIn) 4 = tag := by
  unfold buildCbw
  rw [List.append_assoc, List.append_assoc, List.append_assoc, List.append_assoc]
  exact (readU32_append_right (le32 cbwSignature) _ 0).trans (readU32_le32 tag _)

/-! ## attempts -/

structure Went (s s' : Usb) (count : Nat) (buffer : List UInt8)
    (writes : List (List UInt8 × List UInt8)) : Prop where
  buffer : s'.dmaBuf = buffer
  tag : s'.msdTag = s.msdTag + UInt32.ofNat count
  attempts : s'.attempts = s.attempts + count
  received : s'.received = s.received ++ writes

def Tagged (first : UInt32) (s : Usb) : Prop := s.msdTag = first + UInt32.ofNat s.attempts

section

variable {device : Device} {s : Usb} {first : UInt32}

theorem Went.tagged {s' : Usb} {count : Nat} {buffer : List UInt8}
    {writes : List (List UInt8 × List UInt8)} (went : Went s s' count buffer writes)
    (tagged : Tagged first s) : Tagged first s' := by
  unfold Tagged at tagged ⊢
  rw [went.tag, went.attempts, tagged, UInt32.ofNat_add, UInt32.add_assoc]

theorem Went.trans {s' s'' : Usb} {count count' : Nat} {buffer buffer' : List UInt8}
    {writes writes' : List (List UInt8 × List UInt8)} (went : Went s s' count buffer writes)
    (later : Went s' s'' count' buffer' writes') :
    Went s s'' (count + count') buffer' (writes ++ writes') where
  buffer := later.buffer
  tag := by rw [later.tag, went.tag, UInt32.ofNat_add, UInt32.add_assoc]
  attempts := by rw [later.attempts, went.attempts, Nat.add_assoc]
  received := by rw [later.received, went.received, List.append_assoc]

theorem checkCsw_cbw (csw : List UInt8) (tag : UInt32) (scsiCmd : List UInt8) (dataLen : Nat)
    (dirIn : Bool) : checkCsw csw (buildCbw tag scsiCmd dataLen dirIn) =
      if readU32 csw 0 ≠ cswSignature ∨ readU32 csw 4 ≠ tag then .again
      else if byteAt csw 12 ≠ 0 then .failedStatus
      else .passed := by
  rw [checkCsw, readU32_cbw]

theorem attempt_ending (scsiCmd : List UInt8) (dataLen : Nat) (dirIn : Bool) :
    (attempt device scsiCmd dataLen dirIn s).1 = (device s.attempts).ending s.msdTag := by
  unfold attempt Answers.ending
  dsimp only
  rw [← checkCsw_cbw _ s.msdTag scsiCmd dataLen dirIn]
  by_cases wrapper : (device s.attempts).cbwRc ≠ 0
  · rw [if_pos wrapper, if_pos wrapper]
  · rw [if_neg wrapper, if_neg wrapper]
    by_cases data : (device s.attempts).dataRc ≠ 0
    · rw [if_pos data, if_pos data]
    · rw [if_neg data, if_neg data]
      by_cases status : (device s.attempts).cswRc ≠ 0
      · rw [if_pos status, if_pos status]
      · rw [if_neg status, if_neg status]

/-- An attempt with an OUT data phase leaves the buffer and, when it passes, hands it over. -/
theorem attempt_out (scsiCmd : List UInt8) (dataLen : Nat) :
    Went s (attempt device scsiCmd dataLen false s).2 1 s.dmaBuf
      (if (attempt device scsiCmd dataLen false s).1 = .passed then
        [(scsiCmd, s.dmaBuf.take dataLen)] else []) := by
  unfold attempt
  dsimp only
  by_cases wrapper : (device s.attempts).cbwRc ≠ 0
  · rw [if_pos wrapper]
    exact ⟨rfl, rfl, rfl, (List.append_nil _).symm⟩
  · rw [if_neg wrapper]
    by_cases data : (device s.attempts).dataRc ≠ 0
    · rw [if_pos data]
      exact ⟨rfl, rfl, rfl, (List.append_nil _).symm⟩
    · rw [if_neg data]
      by_cases status : (device s.attempts).cswRc ≠ 0
      · rw [if_pos status]
        exact ⟨rfl, rfl, rfl, (List.append_nil _).symm⟩
      · rw [if_neg status]
        generalize checkCsw _ _ = found
        refine ⟨rfl, rfl, rfl, ?_⟩
        change s.received ++ _ = s.received ++ _
        congr 1
        exact if_congr (and_iff_left rfl) rfl rfl

/-- An attempt of REQUEST SENSE lays the sense data over the buffer. -/
theorem attempt_sense (scsiCmd : List UInt8) :
    Went s (attempt device scsiCmd 18 true s).2 1 (deliver s.dmaBuf (device s.attempts).sense)
      [] := by
  unfold attempt Answers.sense
  dsimp only
  by_cases wrapper : (device s.attempts).cbwRc ≠ 0
  · rw [if_pos wrapper, if_pos wrapper]
    exact ⟨rfl, rfl, rfl, (List.append_nil _).symm⟩
  · rw [if_neg wrapper, if_neg wrapper]
    by_cases data : (device s.attempts).dataRc ≠ 0
    · rw [if_pos data]
      exact ⟨rfl, rfl, rfl, (List.append_nil _).symm⟩
    · rw [if_neg data]
      by_cases status : (device s.attempts).cswRc ≠ 0
      · rw [if_pos status]
        exact ⟨rfl, rfl, rfl, (List.append_nil _).symm⟩
      · rw [if_neg status]
        generalize checkCsw _ _ = found
        refine ⟨rfl, rfl, rfl, ?_⟩
        dsimp only
        rw [if_neg (fun both => Bool.noConfusion both.2)]

theorem sense_went (tagged : Tagged first s) (scsiCmd : List UInt8) (left : Nat) :
    Went s (msdAttempts device id scsiCmd 18 true left s).2
      (senseAttempts (endings device first) left s.attempts).length
      (((senseAttempts (endings device first) left s.attempts).map fun j =>
        (device j).sense).foldl deliver s.dmaBuf) [] := by
  induction left generalizing s with
  | zero => exact ⟨rfl, (UInt32.add_zero _).symm, rfl, (List.append_nil _).symm⟩
  | succ left ih =>
      have went : Went s (attempt device scsiCmd 18 true s).2 1 _ [] := attempt_sense scsiCmd
      have ending : (attempt device scsiCmd 18 true s).1 = endings device first s.attempts := by
        rw [attempt_ending, endings, tagged]
      have later := ih (went.tagged tagged)
      rw [msdAttempts, senseAttempts]
      rw [went.attempts, went.buffer] at later
      by_cases passed : endings device first s.attempts = .passed
      · rw [ending, if_pos passed, if_pos passed]
        exact went
      · rw [ending, if_neg passed, if_neg passed, id_eq, ite_self, List.length_cons, Nat.add_comm]
        exact went.trans later

/-- What the attempts of a write leave when the device does not pass it, and when it does. -/
structure Written (device : Device) (first : UInt32) (scsiCmd : List UInt8) (dataLen left : Nat)
    (s : Usb) (result : Int × Usb) : Prop where
  givenUp : senseBetween device (endings device first) left s.attempts = none → result.1 = -4
  passed : ∀ data i, senseBetween device (endings device first) left s.attempts = some (data, i) →
    result.1 = 0 ∧ Tagged first result.2 ∧ result.2.attempts = i ∧
      result.2.received = s.received ++ [(scsiCmd, (data.foldl deliver s.dmaBuf).take dataLen)]

theorem write_went (tagged : Tagged first s) (scsiCmd : List UInt8) (dataLen left : Nat) :
    Written device first scsiCmd dataLen left s
      (msdAttempts device (requestSense device) scsiCmd dataLen false left s) := by
  induction left generalizing s with
  | zero =>
      constructor
      · intro _
        rfl
      · intro data i none
        rw [senseBetween] at none
        cases none
  | succ left ih =>
      have went : Went s (attempt device scsiCmd dataLen false s).2 1 s.dmaBuf _ :=
        attempt_out scsiCmd dataLen
      have ending : (attempt device scsiCmd dataLen false s).1 = endings device first s.attempts := by
        rw [attempt_ending, endings, tagged]
      rw [msdAttempts]
      rw [ending] at went ⊢
      generalize (attempt device scsiCmd dataLen false s).2 = after at went ⊢
      have tagged' := went.tagged tagged
      generalize found : endings device first s.attempts = e at went ⊢
      cases e with
      | passed =>
          rw [if_pos rfl]
          constructor
          · intro none
            rw [senseBetween, found] at none
            cases none
          · intro data i some
            rw [senseBetween, found] at some
            cases some
            exact ⟨rfl, tagged', went.attempts, went.received⟩
      | again =>
          rw [if_neg (by decide), if_neg (by decide)]
          rw [if_neg (by decide)] at went
          have later := ih tagged'
          have same : senseBetween device (endings device first) (left + 1) s.attempts =
              senseBetween device (endings device first) left after.attempts := by
            rw [senseBetween, found, went.attempts]
          constructor
          · intro none
            exact later.givenUp (same ▸ none)
          · intro data i some
            rw [same] at some
            have result := later.passed data i some
            rw [went.received, went.buffer, List.append_nil] at result
            exact result
      | failedStatus =>
          rw [if_neg (by decide), if_pos rfl]
          rw [if_neg (by decide)] at went
          have asked : Went after (requestSense device after) _ _ [] :=
            sense_went tagged' [scsiRequestSense, 0, 0, 0, 18, 0] 3
          have both := went.trans asked
          have later := ih (asked.tagged tagged')
          rw [went.attempts] at both
          have same : senseBetween device (endings device first) (left + 1) s.attempts =
              (senseBetween device (endings device first) left
                (requestSense device after).attempts).map fun rest =>
                  ((senseAttempts (endings device first) 3 (s.attempts + 1)).map
                    (fun j => (device j).sense) ++ rest.1, rest.2) := by
            rw [senseBetween, found, both.attempts, ← Nat.add_assoc]
          constructor
          · intro none
            rw [same] at none
            exact later.givenUp (Option.map_eq_none_iff.mp none)
          · intro data i some
            rw [same] at some
            rcases Option.map_eq_some_iff.mp some with ⟨rest, found', joined⟩
            rcases rest with ⟨rest, j⟩
            cases joined
            have result := later.passed rest j found'
            rw [both.received, both.buffer, List.append_nil, List.append_nil, went.buffer,
              ← List.foldl_append] at result
            exact result

theorem senseBetween_short {ends : Nat → AttemptEnd} {left i : Nat} {data : List (List UInt8)}
    {j : Nat} (found : senseBetween device ends left i = some (data, j)) :
    ∀ new ∈ data, new.length ≤ 18 := by
  induction left generalizing i data j with
  | zero =>
      rw [senseBetween] at found
      cases found
  | succ left ih =>
      rw [senseBetween] at found
      generalize ends i = e at found
      cases e with
      | passed =>
          cases found
          exact fun _ member => absurd member List.not_mem_nil
      | again => exact ih found
      | failedStatus =>
          rcases Option.map_eq_some_iff.mp found with ⟨⟨rest, k⟩, later, joined⟩
          cases joined
          intro new member
          rcases List.mem_append.mp member with asked | further
          · rcases List.mem_map.mp asked with ⟨number, _, same⟩
            rw [← same]
            exact sense_short (device number)
          · exact ih later new further

theorem chunk_written (tagged : Tagged first s) (curLba : UInt32) {chunk : Nat}
    (positive : 0 < chunk) {bytes : List UInt8} (count : bytes.length = chunk * 512) :
    (senseBetween device (endings device first) 3 s.attempts = none →
      (msdCommand device (write10 curLba chunk) (chunk * 512) false
        { s with dmaBuf := deliver s.dmaBuf bytes }).1 ≠ 0) ∧
    ∀ data i, senseBetween device (endings device first) 3 s.attempts = some (data, i) →
      ∃ after, msdCommand device (write10 curLba chunk) (chunk * 512) false
          { s with dmaBuf := deliver s.dmaBuf bytes } = (0, after) ∧
        Tagged first after ∧ after.attempts = i ∧
        after.received = s.received ++ [(write10 curLba chunk, data.foldl deliver bytes)] := by
  have filled : Tagged first { s with dmaBuf := deliver s.dmaBuf bytes } := tagged
  have written : Written device first _ _ _ _ _ :=
    write_went filled (write10 curLba chunk) (chunk * 512) 3
  have kind : (write10 curLba chunk).head? ≠ some scsiRequestSense := by
    change some scsiWrite10 ≠ some scsiRequestSense
    decide
  unfold msdCommand
  rw [if_pos kind]
  generalize msdAttempts device (requestSense device) (write10 curLba chunk) (chunk * 512) false 3
    { s with dmaBuf := deliver s.dmaBuf bytes } = result at written
  constructor
  · intro none
    rw [written.givenUp none]
    decide
  · intro data i some
    rcases written.passed data i some with ⟨rc, tagged', attempts, received⟩
    refine ⟨result.2, Prod.ext rc rfl, tagged', attempts, ?_⟩
    have short : ∀ new ∈ data, new.length ≤ bytes.length := by
      intro new member
      have bound := senseBetween_short some new member
      omega
    rw [← count, take_deliver_all data short, take_filled] at received
    exact received

end

def received (write : List UInt8 × List UInt8) (data : List (List UInt8)) :
    List UInt8 × List UInt8 :=
  (write.1, data.foldl deliver write.2)

/-- The loop hands over each chunk with the sense data over it. -/
theorem loop_written {device : Device} {first : UInt32} (buf : Nat → UInt8) (rounds : Nat)
    (curLba : UInt32) (offset remaining : Nat) {s : Usb} (tagged : Tagged first s) :
    (senseOfChunks device (endings device first) rounds remaining s.attempts = none →
      (writeLoop device buf rounds curLba offset remaining s).1 ≠ 0) ∧
    ∀ all, senseOfChunks device (endings device first) rounds remaining s.attempts = some all →
      all.length = (callerWrites buf rounds curLba offset remaining).length ∧
      (writeLoop device buf rounds curLba offset remaining s).1 = 0 ∧
      (writeLoop device buf rounds curLba offset remaining s).2.received = s.received ++
        List.zipWith received (callerWrites buf rounds curLba offset remaining) all := by
  induction rounds generalizing curLba offset remaining s with
  | zero =>
      constructor
      · intro none
        rw [senseOfChunks] at none
        cases none
      · intro all some
        rw [senseOfChunks] at some
        cases some
        exact ⟨rfl, rfl, (List.append_nil _).symm⟩
  | succ rounds ih =>
      rw [senseOfChunks, writeLoop, callerWrites]
      by_cases finished : remaining = 0
      · rw [if_pos finished, if_pos finished, if_pos finished]
        constructor
        · intro none
          cases none
        · intro all some
          cases some
          exact ⟨rfl, rfl, (List.append_nil _).symm⟩
      · rw [if_neg finished, if_neg finished, if_neg finished]
        dsimp only
        have positive := nextChunk_pos (Nat.pos_of_ne_zero finished)
        have chunk := @chunk_written device s first tagged curLba _ positive _
          (window_length buf offset (nextChunk remaining * 512))
        generalize found : senseBetween device (endings device first) 3 s.attempts = between at chunk
        cases between with
        | none =>
            have failed := chunk.1 rfl
            rw [if_pos failed]
            constructor
            · exact fun _ => failed
            · intro all none
              cases none
        | some result =>
            rcases result with ⟨data, i⟩
            rcases chunk.2 data i rfl with ⟨after, answered, tagged', attempts, handed⟩
            rw [answered, if_neg (not_not_intro rfl)]
            have later := ih (curLba + UInt32.ofNat (nextChunk remaining))
              (offset + nextChunk remaining * 512) (remaining - nextChunk remaining) tagged'
            rw [attempts] at later
            dsimp only
            constructor
            · intro none
              exact later.1 (Option.map_eq_none_iff.mp none)
            · intro all some
              rcases Option.map_eq_some_iff.mp some with ⟨rest, further, joined⟩
              subst joined
              rcases later.2 rest further with ⟨count, rc, others⟩
              refine ⟨?_, rc, ?_⟩
              · rw [List.length_cons, List.length_cons, count]
              · rw [others, handed, List.zipWith_cons_cons, List.append_assoc]
                rfl

/-- A list is left by its counterparts exactly when each of its members is. -/
theorem zipWith_received_eq {writes : List (List UInt8 × List UInt8)}
    {all : List (List (List UInt8))} (same : all.length = writes.length) :
    List.zipWith received writes all = writes ↔
      ∀ pair ∈ writes.zip all, pair.2.foldl deliver pair.1.2 = pair.1.2 := by
  induction writes generalizing all with
  | nil =>
      rw [List.length_nil] at same
      rw [List.length_eq_zero_iff.mp same]
      simp
  | cons write rest ih =>
      cases all with
      | nil => cases same
      | cons data others =>
          rw [List.zipWith_cons_cons, List.zip_cons_cons, List.forall_mem_cons, List.cons_eq_cons,
            ih (Nat.succ.inj same)]
          have first : received write data = write ↔ data.foldl deliver write.2 = write.2 := by
            rcases write with ⟨command, bytes⟩
            rw [received, Prod.mk.injEq]
            exact and_iff_right rfl
          rw [first]

/-- A successful write has handed over exactly the caller's bytes when, and only when, the sense data
that came between the attempts left the chunks as they are. -/
theorem writeSectors_exact_iff (device : Device) (s : Usb) (lba : UInt32) (count : UInt16)
    (buf : Nat → UInt8) :
    ((xhciWriteSectors device s lba count buf).1 = 0 →
      (xhciWriteSectors device s lba count buf).2.received =
        s.received ++ callerWrites buf count.toNat lba 0 count.toNat) ↔
      SenseHarmless device s lba count buf := by
  have tagged : Tagged (s.msdTag - UInt32.ofNat s.attempts) s := (UInt32.sub_add_cancel _ _).symm
  have loop := @loop_written device _ buf count.toNat lba 0 count.toNat s tagged
  unfold xhciWriteSectors SenseHarmless
  by_cases refused : !s.haveXhci ∨ count = 0
  · rw [if_pos refused]
    constructor
    · intro _ present _ all found
      have zero : count = 0 := by
        rcases refused with absent | zero
        · rw [present] at absent
          cases absent
        · exact zero
      subst zero
      exact fun pair member => absurd member (by simp [callerWrites])
    · intro _ success
      change (-10 : Int) = 0 at success
      exact absurd success (by decide)
  · rw [if_neg refused]
    have present : s.haveXhci = true := by
      cases known : s.haveXhci with
      | true => rfl
      | false => exact absurd (Or.inl (by rw [known]; rfl)) refused
    cases ready : s.dmaReady with
    | false =>
        rw [if_pos (by decide)]
        constructor
        · exact fun _ _ unready => Bool.noConfusion unready
        · intro _ success
          change (-12 : Int) = 0 at success
          exact absurd success (by decide)
    | true =>
        rw [if_neg (by decide)]
        constructor
        · intro exact' _ _ all found
          rcases loop.2 all found with ⟨same, rc, handed⟩
          have equal := exact' rc
          rw [handed] at equal
          exact (zipWith_received_eq same).mp (List.append_cancel_left equal)
        · intro harmless success
          cases found : senseOfChunks device (endings device (s.msdTag - UInt32.ofNat s.attempts))
              count.toNat count.toNat s.attempts with
          | none => exact absurd success (loop.1 found)
          | some all =>
              rcases loop.2 all found with ⟨same, _, handed⟩
              rw [handed, (zipWith_received_eq same).mpr (harmless present rfl all found)]

def cswAnswer (tag : UInt32) (status : UInt8) : List UInt8 :=
  le32 cswSignature ++ le32 tag ++ [0, 0, 0, 0, status]

/-- A device that fails the first attempt, delivers the sense data of a unit attention and passes the
second attempt. -/
def attentiveDevice : Device
  | 0 => ⟨0, 0, [], 0, cswAnswer 1 1⟩
  | 1 => ⟨0, 0, [0x70, 0, 6, 0, 0, 0, 0, 10, 0, 0, 0, 0, 0x28, 0, 0, 0, 0, 0], 0, cswAnswer 2 0⟩
  | _ => ⟨0, 0, [], 0, cswAnswer 3 0⟩

/-- The sense data take the place of the first bytes of the sector. -/
theorem senseData_written :
    (xhciWriteSectors attentiveDevice ⟨true, true, List.replicate 8192 0, [], [], 1, 0, []⟩ 0 1
      fun _ => 0xAA).1 = 0 ∧
    (xhciWriteSectors attentiveDevice ⟨true, true, List.replicate 8192 0, [], [], 1, 0, []⟩ 0 1
      fun _ => 0xAA).2.received ≠ callerWrites (fun _ => 0xAA) 1 0 0 1 := by
  decide +kernel

end UsbStorage

end Trinux
